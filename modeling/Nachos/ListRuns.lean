import Nachos.SortedList
import Nachos.Lib.CallRuns

namespace Nachos
open LinkedCells Programs CallRuns

/-- Following `next` from `first` one meets `numInList` different elements, the last of which is
`last`, and then the null pointer. -/
structure WellFormed {T : Type} (h : Heap T) (l : LinkedList) : Prop where
  null_iff : l.first = none ∧ l.last = none ↔ l.numInList = 0
  nonneg : 0 ≤ l.numInList
  reaches : ∀ n : ℕ, l.numInList = n + 1 → follow h n l.first = l.last
  ends : follow h l.numInList.toNat l.first = none
  acyclic : ∀ i j : ℕ, i < l.numInList → j < l.numInList →
    follow h i l.first = follow h j l.first → i = j
  last_next : ∀ a, l.last = some a → ∃ x, h.lookup a = some ⟨x, none⟩

theorem Holds.wellFormed {T : Type} {h : Heap T} {l : LinkedList} {cells : List (ℕ × T)}
    (hl : Holds h l cells) : WellFormed h l where
  null_iff := by
    rw [hl.count, hl.last]
    cases cells with
    | nil =>
      have hfirst : l.first = none := hl.linked
      simp [hfirst]
    | cons c cells =>
      have hfirst : l.first = some c.1 := hl.linked.1
      simp only [hfirst, reduceCtorEq, false_and, List.length_cons, false_iff]
      omega
  nonneg := by
    rw [hl.count]
    exact Int.natCast_nonneg _
  reaches n hn := by
    rw [hl.linked.follow_eq, hl.last, List.getLast?_eq_getElem?, length_addresses]
    have hcount := hl.count
    congr 1
    omega
  ends := by
    rw [hl.linked.follow_eq, hl.count, Int.toNat_natCast, ← length_addresses]
    exact List.getElem?_length _
  acyclic i j hi _ heq := by
    rw [hl.linked.follow_eq, hl.linked.follow_eq] at heq
    rw [hl.count, Nat.cast_lt, ← length_addresses] at hi
    exact (List.getElem?_inj hi hl.nodup).mp heq
  last_next a ha := by
    have hne : cells ≠ [] := by
      rintro rfl
      cases ha.symm.trans hl.last
    obtain ⟨c, hc, hnext⟩ := hl.last_next hne
    rw [ha, deref, Option.bind_some] at hc
    cases hlookup : h.lookup a with
    | none => simp [hlookup] at hc
    | some d =>
      simp only [hlookup, Except.ok.injEq] at hc
      subst hc
      exact ⟨d.item, by rw [← hnext]⟩

/-- The list has the items `xs`, all different, in elements that are not in `h₀`; what is in `h₀`
has not changed. -/
structure Represents {T : Type} (h₀ : Heap T) (s : LinkedList × Heap T) (xs : List T) : Prop where
  holds : ∃ cells, Holds s.2 s.1 cells ∧ Local h₀ s.2 [] cells ∧ items cells = xs
  nodup : xs.Nodup

namespace Represents
variable {T : Type} {h₀ : Heap T} {s : LinkedList × Heap T} {xs : List T} {x : T}

theorem empty (h₀ : Heap T) : Represents h₀ (.empty, h₀) [] :=
  ⟨⟨[], .empty h₀, .refl h₀ [], rfl⟩, List.nodup_nil⟩

theorem wellFormed (hs : Represents h₀ s xs) : WellFormed s.2 s.1 := by
  obtain ⟨cells, hl, -⟩ := hs.holds
  exact hl.wellFormed

theorem toList (hs : Represents h₀ s xs) : s.1.toList s.2 = .ok xs := by
  obtain ⟨cells, hl, -, rfl⟩ := hs.holds
  exact hl.toList

theorem sanityCheck (hs : Represents h₀ s xs) : s.1.sanityCheck s.2 = .ok () := by
  obtain ⟨cells, hl, -⟩ := hs.holds
  exact hl.sanityCheck

theorem sanityCheck_sorted (hs : Represents h₀ s xs) {compare : T → T → Int}
    (hsorted : xs.Pairwise fun x y => compare x y ≤ 0) :
    SortedList.sanityCheck compare s.1 s.2 = .ok () := by
  obtain ⟨cells, hl, -, rfl⟩ := hs.holds
  exact hl.sanityCheck_sorted hsorted

theorem isEmpty_iff (hs : Represents h₀ s xs) : s.1.isEmpty = true ↔ xs = [] := by
  obtain ⟨cells, hl, -, rfl⟩ := hs.holds
  rw [hl.isEmpty_iff, items, List.map_eq_nil_iff]

theorem first_eq_none (hs : Represents h₀ s []) : s.1.first = none := by
  obtain ⟨cells, hl, -, hitems⟩ := hs.holds
  obtain rfl := List.map_eq_nil_iff.mp hitems
  exact hl.linked

theorem removeFront (hs : Represents h₀ s (x :: xs)) :
    ∃ s', s.1.removeFront s.2 = .ok (x, s') ∧ Represents h₀ s' xs := by
  obtain ⟨cells, hl, hlocal, hitems⟩ := hs.holds
  obtain ⟨⟨a, y⟩, cells, rfl, rfl, rfl⟩ := List.map_eq_cons_iff.mp hitems
  obtain ⟨l', h', hremove, hl', hlocal'⟩ := hl.removeFront
  exact ⟨(l', h'), hremove, ⟨cells, hl', hlocal.trans hlocal', rfl⟩, hs.nodup.of_cons⟩

variable [DecidableEq T]

theorem isInList (hs : Represents h₀ s xs) (x : T) :
    s.1.isInList s.2 x = .ok (decide (x ∈ xs)) := by
  obtain ⟨cells, hl, -, rfl⟩ := hs.holds
  exact hl.isInList x

theorem append (new : Allocator T) (hs : Represents h₀ s xs) (hx : x ∉ xs) :
    ∃ s', s.1.append new s.2 x = .ok s' ∧ Represents h₀ s' (xs ++ [x]) := by
  obtain ⟨cells, hl, hlocal, rfl⟩ := hs.holds
  obtain ⟨l', h', happend, hl', hlocal'⟩ := hl.append new hx
  refine ⟨(l', h'), happend, ⟨_, hl', hlocal.trans hlocal', items_append ..⟩, ?_⟩
  exact List.nodup_append.mpr ⟨hs.nodup, List.nodup_singleton x, by
    rintro y hy z hz rfl
    exact hx (List.mem_singleton.mp hz ▸ hy)⟩

theorem prepend (new : Allocator T) (hs : Represents h₀ s xs) (hx : x ∉ xs) :
    ∃ s', s.1.prepend new s.2 x = .ok s' ∧ Represents h₀ s' (x :: xs) := by
  obtain ⟨cells, hl, hlocal, rfl⟩ := hs.holds
  obtain ⟨l', h', hprepend, hl', hlocal'⟩ := hl.prepend new hx
  exact ⟨(l', h'), hprepend, ⟨_, hl', hlocal.trans hlocal', rfl⟩,
    List.nodup_cons.mpr ⟨hx, hs.nodup⟩⟩

theorem insert (new : Allocator T) (compare : T → T → Int) (hs : Represents h₀ s xs)
    (hx : x ∉ xs) : ∃ s', SortedList.insert new compare s.1 s.2 x = .ok s' ∧
      Represents h₀ s' (xs.orderedInsert (fun x y => compare x y < 0) x) := by
  obtain ⟨cells, hl, hlocal, rfl⟩ := hs.holds
  obtain ⟨l', h', hinsert, hl', hlocal'⟩ := hl.insert new compare hx
  refine ⟨(l', h'), hinsert, ⟨_, hl', hlocal.trans hlocal', items_placed ..⟩, ?_⟩
  rw [(List.perm_orderedInsert _ x _).nodup_iff]
  exact List.nodup_cons.mpr ⟨hx, hs.nodup⟩

theorem remove (hs : Represents h₀ s xs) (hx : x ∈ xs) :
    ∃ s', s.1.remove s.2 x = .ok s' ∧ Represents h₀ s' (xs.erase x) := by
  obtain ⟨cells, hl, hlocal, hitems⟩ := hs.holds
  obtain ⟨pre, rest, rfl⟩ := List.append_of_mem hx
  obtain ⟨cells₁, cells₂, rfl, rfl, hcons⟩ := List.map_eq_append_iff.mp hitems
  obtain ⟨⟨a, y⟩, cells₂, rfl, rfl, rfl⟩ := List.map_eq_cons_iff.mp hcons
  -- The item stands nowhere else.
  have hnodup := hs.nodup
  rw [List.perm_middle.nodup_iff, List.nodup_cons, List.mem_append, not_or] at hnodup
  obtain ⟨⟨hpre, hrest⟩, hnodup⟩ := hnodup
  obtain ⟨l', h', hremove, hl', hlocal'⟩ := hl.remove hpre hrest
  rw [List.erase_append_right _ hpre, List.erase_cons_head]
  exact ⟨(l', h'), hremove, ⟨_, hl', hlocal.trans hlocal', items_append ..⟩, hnodup⟩

end Represents

inductive ListCall (T : Type) where
  | append (item : T)
  | prepend (item : T)
  | removeFront
  | remove (item : T)
  deriving DecidableEq, Repr

inductive SortedCall (T : Type) where
  | insert (item : T)
  | removeFront
  | remove (item : T)
  deriving DecidableEq, Repr

section Calls
variable {T : Type} [DecidableEq T]

/-- The calls on a mathematical list: an item is added once, and removed only if it is there.
`RemoveFront` returns an item. -/
def listCall (xs : List T) : ListCall T → Option (Option T × List T)
  | .append item => if item ∈ xs then none else some (none, xs ++ [item])
  | .prepend item => if item ∈ xs then none else some (none, item :: xs)
  | .removeFront =>
    match xs with
    | [] => none
    | item :: xs => some (some item, xs)
  | .remove item => if item ∈ xs then some (none, xs.erase item) else none

def sortedCall (compare : T → T → Int) (xs : List T) : SortedCall T → Option (Option T × List T)
  | .insert item =>
    if item ∈ xs then none
    else some (none, xs.orderedInsert (fun x y => compare x y < 0) item)
  | .removeFront => listCall xs .removeFront
  | .remove item => listCall xs (.remove item)

def LinkedList.call (new : Allocator T) (s : LinkedList × Heap T) :
    ListCall T → Except ListFault (Option T × LinkedList × Heap T)
  | .append item => do
    let s ← s.1.append new s.2 item
    .ok (none, s)
  | .prepend item => do
    let s ← s.1.prepend new s.2 item
    .ok (none, s)
  | .removeFront => do
    let r ← s.1.removeFront s.2
    .ok (some r.1, r.2)
  | .remove item => do
    let s ← s.1.remove s.2 item
    .ok (none, s)

/-- A sorted list has `RemoveFront` and `Remove` from `List`. -/
def SortedList.call (new : Allocator T) (compare : T → T → Int) (s : LinkedList × Heap T) :
    SortedCall T → Except ListFault (Option T × LinkedList × Heap T)
  | .insert item => do
    let s ← SortedList.insert new compare s.1 s.2 item
    .ok (none, s)
  | .removeFront => LinkedList.call new s .removeFront
  | .remove item => LinkedList.call new s (.remove item)

variable {h₀ : Heap T} {compare : T → T → Int}

theorem Represents.call (new : Allocator T) (s : LinkedList × Heap T) (xs : List T)
    (c : ListCall T) (reply : Option T) (xs' : List T) (hs : Represents h₀ s xs)
    (hc : listCall xs c = some (reply, xs')) :
    ∃ s', LinkedList.call new s c = .ok (reply, s') ∧ Represents h₀ s' xs' := by
  cases c with
  | append item =>
    simp only [listCall, Option.ite_none_left_eq_some, Option.some.injEq, Prod.mk.injEq] at hc
    obtain ⟨hitem, rfl, rfl⟩ := hc
    obtain ⟨s', happend, hs'⟩ := hs.append new hitem
    refine ⟨s', ?_, hs'⟩
    rw [LinkedList.call, happend, except_ok_bind]
  | prepend item =>
    simp only [listCall, Option.ite_none_left_eq_some, Option.some.injEq, Prod.mk.injEq] at hc
    obtain ⟨hitem, rfl, rfl⟩ := hc
    obtain ⟨s', hprepend, hs'⟩ := hs.prepend new hitem
    refine ⟨s', ?_, hs'⟩
    rw [LinkedList.call, hprepend, except_ok_bind]
  | removeFront =>
    cases xs with
    | nil => cases hc
    | cons item xs =>
      obtain ⟨rfl, rfl⟩ := Prod.mk.inj (Option.some.inj hc)
      obtain ⟨s', hremove, hs'⟩ := hs.removeFront
      refine ⟨s', ?_, hs'⟩
      rw [LinkedList.call, hremove, except_ok_bind]
  | remove item =>
    simp only [listCall, Option.ite_none_right_eq_some, Option.some.injEq, Prod.mk.injEq] at hc
    obtain ⟨hitem, rfl, rfl⟩ := hc
    obtain ⟨s', hremove, hs'⟩ := hs.remove hitem
    refine ⟨s', ?_, hs'⟩
    rw [LinkedList.call, hremove, except_ok_bind]

/-- What a call on a sorted list leaves is represented and in order. -/
theorem Represents.sortedCall (new : Allocator T) (hcompare : TotalPreorder compare)
    (s : LinkedList × Heap T) (xs : List T) (c : SortedCall T) (reply : Option T) (xs' : List T)
    (hs : Represents h₀ s xs ∧ xs.Pairwise fun x y => compare x y ≤ 0)
    (hc : Nachos.sortedCall compare xs c = some (reply, xs')) :
    ∃ s', SortedList.call new compare s c = .ok (reply, s') ∧
      Represents h₀ s' xs' ∧ xs'.Pairwise fun x y => compare x y ≤ 0 := by
  obtain ⟨hs, hsorted⟩ := hs
  cases c with
  | insert item =>
    simp only [Nachos.sortedCall, Option.ite_none_left_eq_some, Option.some.injEq,
      Prod.mk.injEq] at hc
    obtain ⟨hitem, rfl, rfl⟩ := hc
    obtain ⟨s', hinsert, hs'⟩ := hs.insert new compare hitem
    refine ⟨s', ?_, hs', hcompare.orderedInsert hsorted item⟩
    rw [SortedList.call, hinsert, except_ok_bind]
  | removeFront =>
    obtain ⟨s', hcall, hs'⟩ := hs.call new s xs .removeFront reply xs' hc
    refine ⟨s', hcall, hs', ?_⟩
    cases xs with
    | nil => cases hc
    | cons item xs =>
      obtain ⟨-, rfl⟩ := Prod.mk.inj (Option.some.inj hc)
      exact hsorted.of_cons
  | remove item =>
    obtain ⟨s', hcall, hs'⟩ := hs.call new s xs (.remove item) reply xs' hc
    refine ⟨s', hcall, hs', ?_⟩
    simp only [Nachos.sortedCall, listCall, Option.ite_none_right_eq_some, Option.some.injEq,
      Prod.mk.injEq] at hc
    obtain ⟨-, -, rfl⟩ := hc
    exact hsorted.sublist List.erase_sublist

/-- Any calls that the mathematical list answers are answered in the same way by the elements in
the heap.  They stay well formed, `SanityCheck` passes, and the items are those of the list; on a
sorted list they stay in order, and `Insert` puts an item behind those that compare equal. -/
theorem lists_keep_items (new : Allocator T) (h₀ : Heap T) (hcompare : TotalPreorder compare) :
    (∀ cs replies xs, run listCall [] cs = some (replies, xs) →
      ∃ l h, run (LinkedList.call new) (.empty, h₀) cs = .ok (replies, l, h) ∧
        WellFormed h l ∧ l.sanityCheck h = .ok () ∧ l.toList h = .ok xs) ∧
    (∀ cs replies xs, run (sortedCall compare) [] cs = some (replies, xs) →
      ∃ l h, run (SortedList.call new compare) (.empty, h₀) cs = .ok (replies, l, h) ∧
        WellFormed h l ∧ SortedList.sanityCheck compare l h = .ok () ∧ l.toList h = .ok xs ∧
        xs.Pairwise (fun x y => compare x y ≤ 0) ∧
        ∀ x ∉ xs, ∃ pre post l' h', xs = pre ++ post ∧
          SortedList.insert new compare l h x = .ok (l', h') ∧
          l'.toList h' = .ok (pre ++ x :: post) ∧
          (∀ y ∈ pre, compare y x ≤ 0) ∧ ∀ y ∈ post, compare x y < 0) := by
  constructor
  · intro cs replies xs hcs
    obtain ⟨⟨l, h⟩, hrun, hs⟩ := run_refines (Represents.call new) (.empty h₀) hcs
    exact ⟨l, h, hrun, hs.wellFormed, hs.sanityCheck, hs.toList⟩
  · intro cs replies xs hcs
    obtain ⟨⟨l, h⟩, hrun, hs, hsorted⟩ := run_refines (Represents.sortedCall new hcompare)
      ⟨.empty h₀, List.Pairwise.nil⟩ hcs
    refine ⟨l, h, hrun, hs.wellFormed, hs.sanityCheck_sorted hsorted, hs.toList, hsorted, ?_⟩
    intro x hx
    obtain ⟨⟨l', h'⟩, hinsert, hs'⟩ := hs.insert new compare hx
    obtain ⟨pre, post, hxs, hplace, hpre, hpost⟩ := hcompare.orderedInsert_split hsorted x
    refine ⟨pre, post, l', h', hxs, hinsert, ?_, hpre, hpost⟩
    rw [← hplace]
    exact hs'.toList

end Calls

def compareTens (x y : ℕ) : Int := (x / 10 : ℕ) - (y / 10 : ℕ)

theorem totalPreorder_compareTens : TotalPreorder compareTens where
  swap x y := by unfold compareTens; omega
  trans x y z := by unfold compareTens; omega

theorem sum_keys_fresh (h : Heap ℕ) : h.keys.sum + 1 ∉ h := by
  intro hmem
  have hle := List.le_sum_of_mem (AList.mem_keys.mp hmem)
  omega

def addressBySum : Allocator ℕ := ⟨fun h => h.keys.sum + 1, sum_keys_fresh⟩

/-- The tail moves back with `remove 3` and forward again with the next `append`. -/
theorem lists_keep_items_tens :
    (∃ l h, run (LinkedList.call addressBySum) (.empty, ∅)
        [.append 2, .append 3, .prepend 1, .remove 3, .append 4, .removeFront] =
          .ok ([none, none, none, none, none, some 1], l, h) ∧
      WellFormed h l ∧ l.toList h = .ok [2, 4]) ∧
    ∃ l h, run (SortedList.call addressBySum compareTens) (.empty, ∅)
        [.insert 21, .insert 12, .insert 5, .insert 11, .remove 5] =
          .ok ([none, none, none, none, none], l, h) ∧
      WellFormed h l ∧ l.toList h = .ok [12, 11, 21] := by
  obtain ⟨hlist, hsorted⟩ := lists_keep_items addressBySum ∅ totalPreorder_compareTens
  constructor
  · obtain ⟨l, h, hrun, hformed, -, hitems⟩ := hlist
      [.append 2, .append 3, .prepend 1, .remove 3, .append 4, .removeFront] _ _ rfl
    exact ⟨l, h, hrun, hformed, hitems⟩
  · obtain ⟨l, h, hrun, hformed, -, hitems, -⟩ := hsorted
      [.insert 21, .insert 12, .insert 5, .insert 11, .remove 5] _ _ rfl
    exact ⟨l, h, hrun, hformed, hitems⟩

/-- The virtual functions that `List::SelfTest` calls. -/
structure ListClass (T : Type) where
  append : LinkedList → Heap T → T → Except ListFault (LinkedList × Heap T)
  sanityCheck : LinkedList → Heap T → Except ListFault Unit

section Loops
variable {T : Type}

def SortedList.selfTestOrder (compare : T → T → Int) : List T → Except ListFault Unit
  | x :: y :: q => do
    assert (compare x y ≤ 0)
    selfTestOrder compare (y :: q)
  | _ => .ok ()

theorem selfTestOrder_eq {compare : T → T → Int} {q : List T}
    (hq : q.Pairwise fun x y => compare x y ≤ 0) :
    SortedList.selfTestOrder compare q = .ok () := by
  fun_induction SortedList.selfTestOrder compare q with
  | case1 x y q ih =>
    obtain ⟨hx, hq⟩ := List.pairwise_cons.mp hq
    rw [assert_ok (hx y List.mem_cons_self), except_ok_bind]
    exact ih hq
  | case2 => rfl

variable {h₀ : Heap T} {s : LinkedList × Heap T} {xs p : List T} {I : List T → Prop}
  {f : LinkedList × Heap T → T → Except ListFault (LinkedList × Heap T)}

theorem foldlM_adds (hf : ∀ s xs x, Represents h₀ s xs → I xs → x ∉ xs → ∃ s' xs',
      f s x = .ok s' ∧ Represents h₀ s' xs' ∧ I xs' ∧ xs'.Perm (x :: xs))
    (hs : Represents h₀ s xs) (hI : I xs) (hp : p.Nodup) (hnew : ∀ x ∈ p, x ∉ xs) :
    ∃ s' xs', p.foldlM f s = .ok s' ∧ Represents h₀ s' xs' ∧ I xs' ∧ xs'.Perm (p ++ xs) := by
  induction p generalizing s xs with
  | nil => exact ⟨s, xs, rfl, hs, hI, List.Perm.refl _⟩
  | cons x p ih =>
    obtain ⟨hx, hp⟩ := List.nodup_cons.mp hp
    obtain ⟨hxnew, hnew⟩ := List.forall_mem_cons.mp hnew
    obtain ⟨s₁, xs₁, hstep, hs₁, hI₁, hperm₁⟩ := hf s xs x hs hI hxnew
    have hnew₁ : ∀ y ∈ p, y ∉ xs₁ := by
      intro y hy hmem
      rcases List.mem_cons.mp (hperm₁.mem_iff.mp hmem) with rfl | hmem
      · exact hx hy
      · exact hnew y hy hmem
    obtain ⟨s₂, xs₂, hfold, hs₂, hI₂, hperm₂⟩ := ih hs₁ hI₁ hp hnew₁
    refine ⟨s₂, xs₂, ?_, hs₂, hI₂, ?_⟩
    · rw [List.foldlM_cons, hstep, except_ok_bind, hfold]
    · exact hperm₂.trans ((hperm₁.append_left p).trans List.perm_middle)

end Loops

section SelfTest
variable {T : Type} [DecidableEq T]

def LinkedList.listClass (new : Allocator T) : ListClass T :=
  ⟨LinkedList.append new, LinkedList.sanityCheck⟩

/-- `SortedList` overrides `Append` with `Insert`. -/
def SortedList.listClass (new : Allocator T) (compare : T → T → Int) : ListClass T :=
  ⟨SortedList.insert new compare, SortedList.sanityCheck compare⟩

namespace LinkedList

def selfTestAppend (C : ListClass T) (s : LinkedList × Heap T) (x : T) :
    Except ListFault (LinkedList × Heap T) := do
  let s ← C.append s.1 s.2 x
  let found ← s.1.isInList s.2 x
  assert (found = true)
  assert (s.1.isEmpty = false)
  .ok s

def selfTestRemove (s : LinkedList × Heap T) (x : T) :
    Except ListFault (LinkedList × Heap T) := do
  let s ← s.1.remove s.2 x
  let found ← s.1.isInList s.2 x
  assert (found = false)
  .ok s

def selfTest (C : ListClass T) (s : LinkedList × Heap T) (p : List T) :
    Except ListFault (LinkedList × Heap T) := do
  let iterator := s.1.iterator
  C.sanityCheck s.1 s.2
  assert (s.1.isEmpty = true ∧ s.1.first = none)
  assert (iterator.isDone = true)
  let s ← p.foldlM (selfTestAppend C) s
  C.sanityCheck s.1 s.2
  let s ← p.foldlM selfTestRemove s
  assert (s.1.isEmpty = true)
  C.sanityCheck s.1 s.2
  .ok s

end LinkedList

namespace SortedList

def selfTestInsert (new : Allocator T) (compare : T → T → Int) (s : LinkedList × Heap T) (x : T) :
    Except ListFault (LinkedList × Heap T) := do
  let s ← insert new compare s.1 s.2 x
  let found ← s.1.isInList s.2 x
  assert (found = true)
  .ok s

def selfTestTake : ℕ → LinkedList × Heap T → Except ListFault (List T × LinkedList × Heap T)
  | 0, s => .ok ([], s)
  | n + 1, s => do
    let r ← s.1.removeFront s.2
    let found ← r.2.1.isInList r.2.2 r.1
    assert (found = false)
    let t ← selfTestTake n r.2
    .ok (r.1 :: t.1, t.2)

def selfTest (new : Allocator T) (compare : T → T → Int) (s : LinkedList × Heap T) (p : List T) :
    Except ListFault (LinkedList × Heap T) := do
  let s ← LinkedList.selfTest (listClass new compare) s p
  let s ← p.foldlM (selfTestInsert new compare) s
  sanityCheck compare s.1 s.2
  let r ← selfTestTake p.length s
  assert (r.2.1.isEmpty = true)
  selfTestOrder compare r.1
  sanityCheck compare r.2.1 r.2.2
  .ok r.2

end SortedList

/-- What a class must do for its self test: its lists have the property `I`, and the virtual
functions work on them. -/
structure ListClass.Correct (C : ListClass T) (I : List T → Prop) : Prop where
  empty : I []
  append : ∀ {h₀ : Heap T} {s : LinkedList × Heap T} {xs : List T} {x : T},
    Represents h₀ s xs → I xs → x ∉ xs → ∃ s' xs', C.append s.1 s.2 x = .ok s' ∧
      Represents h₀ s' xs' ∧ I xs' ∧ xs'.Perm (x :: xs)
  sanityCheck : ∀ {h₀ : Heap T} {s : LinkedList × Heap T} {xs : List T},
    Represents h₀ s xs → I xs → C.sanityCheck s.1 s.2 = .ok ()

theorem LinkedList.listClass_correct (new : Allocator T) :
    (LinkedList.listClass new).Correct fun _ => True where
  empty := trivial
  append hs _ hx := by
    obtain ⟨s', happend, hs'⟩ := hs.append new hx
    exact ⟨s', _, happend, hs', trivial, List.perm_append_singleton _ _⟩
  sanityCheck hs _ := hs.sanityCheck

theorem SortedList.listClass_correct (new : Allocator T) {compare : T → T → Int}
    (hcompare : TotalPreorder compare) :
    (SortedList.listClass new compare).Correct fun xs =>
      xs.Pairwise fun x y => compare x y ≤ 0 where
  empty := List.Pairwise.nil
  append hs hsorted hx := by
    obtain ⟨s', hinsert, hs'⟩ := hs.insert new compare hx
    exact ⟨s', _, hinsert, hs', hcompare.orderedInsert hsorted _, List.perm_orderedInsert _ _ _⟩
  sanityCheck hs hsorted := hs.sanityCheck_sorted hsorted

variable {h₀ : Heap T} {s : LinkedList × Heap T} {xs p : List T} {I : List T → Prop}

theorem Represents.selfTestRemove (hs : Represents h₀ s xs) (hp : xs.Perm p) :
    ∃ s', p.foldlM LinkedList.selfTestRemove s = .ok s' ∧ Represents h₀ s' [] := by
  induction p generalizing s xs with
  | nil =>
    obtain rfl := hp.eq_nil
    exact ⟨s, rfl, hs⟩
  | cons x p ih =>
    obtain ⟨s₁, hremove, hs₁⟩ := hs.remove (hp.mem_iff.mpr List.mem_cons_self)
    have hp₁ : (xs.erase x).Perm p := by simpa using hp.erase x
    obtain ⟨s₂, hfold, hs₂⟩ := ih hs₁ hp₁
    have hgone : x ∉ xs.erase x := hs.nodup.not_mem_erase
    refine ⟨s₂, ?_, hs₂⟩
    rw [List.foldlM_cons, LinkedList.selfTestRemove, hremove, except_ok_bind, hs₁.isInList,
      except_ok_bind, assert_ok (decide_eq_false hgone), except_ok_bind, except_ok_bind, hfold]

/-- On an empty list `List::SelfTest` passes for different items, whichever class it runs on. -/
theorem Represents.selfTest {C : ListClass T} (hC : C.Correct I) (hs : Represents h₀ s [])
    (hp : p.Nodup) :
    ∃ s', LinkedList.selfTest C s p = .ok s' ∧ Represents h₀ s' [] := by
  have happend : ∀ s xs x, Represents h₀ s xs → I xs → x ∉ xs → ∃ s' xs',
      LinkedList.selfTestAppend C s x = .ok s' ∧ Represents h₀ s' xs' ∧ I xs' ∧
        xs'.Perm (x :: xs) := by
    intro s xs x hs hI hx
    obtain ⟨s', xs', happend, hs', hI', hperm⟩ := hC.append hs hI hx
    have hmem : x ∈ xs' := hperm.mem_iff.mpr List.mem_cons_self
    have hfull : s'.1.isEmpty = false := by
      rw [← Bool.not_eq_true, hs'.isEmpty_iff]
      exact List.ne_nil_of_mem hmem
    refine ⟨s', xs', ?_, hs', hI', hperm⟩
    rw [LinkedList.selfTestAppend, happend, except_ok_bind, hs'.isInList, except_ok_bind,
      assert_ok (decide_eq_true hmem), except_ok_bind, assert_ok hfull, except_ok_bind]
  obtain ⟨s₁, xs₁, hfold₁, hs₁, hI₁, hperm₁⟩ := foldlM_adds happend hs hC.empty hp (by simp)
  rw [List.append_nil] at hperm₁
  obtain ⟨s₂, hfold₂, hs₂⟩ := hs₁.selfTestRemove hperm₁
  have hdone : s.1.iterator.isDone = true := by
    rw [ListIterator.isDone, LinkedList.iterator, hs.first_eq_none]
    rfl
  refine ⟨s₂, ?_, hs₂⟩
  rw [LinkedList.selfTest, hC.sanityCheck hs hC.empty, except_ok_bind,
    assert_ok ⟨hs.isEmpty_iff.mpr rfl, hs.first_eq_none⟩, except_ok_bind, assert_ok hdone,
    except_ok_bind, hfold₁, except_ok_bind, hC.sanityCheck hs₁ hI₁, except_ok_bind, hfold₂,
    except_ok_bind, assert_ok (hs₂.isEmpty_iff.mpr rfl), except_ok_bind,
    hC.sanityCheck hs₂ hC.empty, except_ok_bind]

theorem Represents.selfTestTake (hs : Represents h₀ s xs) :
    ∃ s', SortedList.selfTestTake xs.length s = .ok (xs, s') ∧ Represents h₀ s' [] := by
  induction xs generalizing s with
  | nil => exact ⟨s, rfl, hs⟩
  | cons x xs ih =>
    obtain ⟨s₁, hremove, hs₁⟩ := hs.removeFront
    obtain ⟨s₂, htake, hs₂⟩ := ih hs₁
    have hgone : x ∉ xs := (List.nodup_cons.mp hs.nodup).1
    refine ⟨s₂, ?_, hs₂⟩
    rw [List.length_cons, SortedList.selfTestTake, hremove, except_ok_bind]
    dsimp only
    rw [hs₁.isInList, except_ok_bind, assert_ok (decide_eq_false hgone), except_ok_bind, htake,
      except_ok_bind]

/-- On an empty sorted list `SortedList::SelfTest` passes for different items. -/
theorem Represents.selfTest_sorted (new : Allocator T) {compare : T → T → Int}
    (hcompare : TotalPreorder compare) (hs : Represents h₀ s []) (hp : p.Nodup) :
    ∃ s', SortedList.selfTest new compare s p = .ok s' ∧ Represents h₀ s' [] := by
  have hC := SortedList.listClass_correct new hcompare
  have hinsert : ∀ s xs x, Represents h₀ s xs → (xs.Pairwise fun x y => compare x y ≤ 0) →
      x ∉ xs → ∃ s' xs', SortedList.selfTestInsert new compare s x = .ok s' ∧
        Represents h₀ s' xs' ∧ (xs'.Pairwise fun x y => compare x y ≤ 0) ∧
        xs'.Perm (x :: xs) := by
    intro s xs x hs hsorted hx
    obtain ⟨s', xs', hinsert, hs', hsorted', hperm⟩ := hC.append hs hsorted hx
    have hmem : x ∈ xs' := hperm.mem_iff.mpr List.mem_cons_self
    refine ⟨s', xs', ?_, hs', hsorted', hperm⟩
    rw [SortedList.selfTestInsert]
    change (SortedList.listClass new compare).append s.1 s.2 x >>= _ = _
    rw [hinsert, except_ok_bind, hs'.isInList, except_ok_bind, assert_ok (decide_eq_true hmem),
      except_ok_bind]
  obtain ⟨s₁, hbase, hs₁⟩ := hs.selfTest hC hp
  obtain ⟨s₂, xs₂, hfold, hs₂, hsorted₂, hperm⟩ := foldlM_adds hinsert hs₁ hC.empty hp (by simp)
  obtain ⟨s₃, htake, hs₃⟩ := hs₂.selfTestTake
  have hlength : xs₂.length = p.length := by
    rw [hperm.length_eq, List.append_nil]
  rw [hlength] at htake
  refine ⟨s₃, ?_, hs₃⟩
  rw [SortedList.selfTest, hbase, except_ok_bind, hfold, except_ok_bind,
    hs₂.sanityCheck_sorted hsorted₂, except_ok_bind, htake, except_ok_bind]
  dsimp only
  rw [assert_ok (hs₃.isEmpty_iff.mpr rfl), except_ok_bind, selfTestOrder_eq hsorted₂,
    except_ok_bind, hs₃.sanityCheck_sorted List.Pairwise.nil, except_ok_bind]

end SelfTest
end Nachos
