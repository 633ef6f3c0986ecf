import Nachos.LinkedList
import Nachos.Lib.StableOrder

namespace Nachos
open LinkedCells Programs

namespace SortedList
variable {T : Type}

/-- The loop of `Insert`: the heap with the element linked in, or none at the end of the list. -/
def insertLoop (compare : T → T → Int) (h : Heap T) (item : T) (element : ℕ) :
    ℕ → Option ℕ → Except ListFault (Option (Heap T))
  | 0, _ => .error .endless
  | n + 1, ptr => do
    let c ← deref h ptr
    match c.next with
    | none => .ok none
    | some next => do
      let d ← deref h (some next)
      if compare item d.item < 0 then do
        let h ← setNext h (some element) (some next)
        let h ← setNext h ptr (some element)
        .ok (some h)
      else insertLoop compare h item element n (some next)

/-- `Insert` between its checks.  True stands for the return from within the loop. -/
def place (compare : T → T → Int) (l : LinkedList) (h : Heap T) (item : T) (element : ℕ) :
    Except ListFault (Bool × LinkedList × Heap T) :=
  if l.isEmpty then .ok (false, ⟨some element, some element, l.numInList⟩, h)
  else do
    let c ← deref h l.first
    if compare item c.item < 0 then do
      let h ← setNext h (some element) l.first
      .ok (false, { l with first := some element }, h)
    else do
      let r ← insertLoop compare h item element h.keys.length l.first
      match r with
      | some h => .ok (true, l, h)
      | none => do
        let h ← setNext h l.last (some element)
        .ok (false, { l with last := some element }, h)

def insert [DecidableEq T] (new : Allocator T) (compare : T → T → Int) (l : LinkedList)
    (h : Heap T) (item : T) : Except ListFault (LinkedList × Heap T) := do
  let element := new.addr h
  let h := h.insert element ⟨item, none⟩
  let found ← l.isInList h item
  assert (found = false)
  let r ← place compare l h item element
  let l := { r.2.1 with numInList := r.2.1.numInList + 1 }
  if r.1 then .ok (l, r.2.2)
  else do
    let found ← l.isInList r.2.2 item
    assert (found = true)
    .ok (l, r.2.2)

def orderLoop (compare : T → T → Int) (h : Heap T) :
    ℕ → Option ℕ → Option ℕ → Except ListFault Unit
  | _, _, none => .ok ()
  | 0, _, some _ => .error .endless
  | n + 1, prev, some ptr => do
    let c ← deref h prev
    let d ← deref h (some ptr)
    assert (compare c.item d.item ≤ 0)
    orderLoop compare h n (some ptr) d.next

def sanityCheck (compare : T → T → Int) (l : LinkedList) (h : Heap T) :
    Except ListFault Unit := do
  l.sanityCheck h
  if l.first = l.last then .ok ()
  else do
    let c ← deref h l.first
    orderLoop compare h h.keys.length l.first c.next

end SortedList

/-- The comparison orders the items; several may compare equal. -/
structure TotalPreorder {T : Type} (compare : T → T → Int) : Prop where
  swap : ∀ x y, compare x y < 0 ↔ 0 < compare y x
  trans : ∀ x y z, compare x y ≤ 0 → compare y z ≤ 0 → compare x z ≤ 0

namespace TotalPreorder
variable {T : Type} {compare : T → T → Int}

theorem lt_iff (hc : TotalPreorder compare) (x y : T) :
    compare x y < 0 ↔ ¬compare y x ≤ 0 := by
  rw [hc.swap x y]
  omega

theorem total (hc : TotalPreorder compare) (x y : T) : compare x y ≤ 0 ∨ compare y x ≤ 0 := by
  have hxy := hc.swap y x
  omega

theorem orderedInsert (hc : TotalPreorder compare) {xs : List T}
    (hxs : xs.Pairwise fun x y => compare x y ≤ 0) (x : T) :
    (xs.orderedInsert (fun x y => compare x y < 0) x).Pairwise fun x y => compare x y ≤ 0 :=
  StableOrder.pairwise_orderedInsert hc.trans hc.total hc.lt_iff hxs x

/-- An item goes behind those that compare equal to it. -/
theorem orderedInsert_split (hc : TotalPreorder compare) {xs : List T}
    (hxs : xs.Pairwise fun x y => compare x y ≤ 0) (x : T) :
    ∃ pre post, xs = pre ++ post ∧
      xs.orderedInsert (fun x y => compare x y < 0) x = pre ++ x :: post ∧
      (∀ y ∈ pre, compare y x ≤ 0) ∧ ∀ y ∈ post, compare x y < 0 :=
  StableOrder.orderedInsert_split hc.trans hc.lt_iff hxs x

end TotalPreorder

section Placed
variable {T : Type} (compare : T → T → Int)

/-- The elements with a new one before the first that is greater. -/
def placed (c : ℕ × T) (cells : List (ℕ × T)) : List (ℕ × T) :=
  cells.orderedInsert (fun c d => compare c.2 d.2 < 0) c

theorem placed_cons_of_lt {c d : ℕ × T} (hlt : compare c.2 d.2 < 0) (cells : List (ℕ × T)) :
    placed compare c (d :: cells) = c :: d :: cells := by
  rw [placed, List.orderedInsert_cons, if_pos hlt]

theorem placed_cons_of_not_lt {c d : ℕ × T} (hlt : ¬compare c.2 d.2 < 0)
    (cells : List (ℕ × T)) : placed compare c (d :: cells) = d :: placed compare c cells := by
  rw [placed, List.orderedInsert_cons, if_neg hlt]
  rfl

theorem items_placed (c : ℕ × T) (cells : List (ℕ × T)) :
    items (placed compare c cells) =
      (items cells).orderedInsert (fun x y => compare x y < 0) c.2 := by
  apply List.map_orderedInsert
  · exact fun d _ => Iff.rfl
  · exact fun d _ => Iff.rfl

end Placed

namespace Holds
variable {T : Type} {compare : T → T → Int} {h : Heap T} {l : LinkedList}
  {cells : List (ℕ × T)} {a : ℕ} {x : T}

theorem insertLoop_eq {n b : ℕ} {y : T} {pre rest : List (ℕ × T)}
    (hl : Holds h l (pre ++ (b, y) :: rest)) (ha : a ∉ h) (hn : rest.length < n) :
    (SortedList.insertLoop compare (h.insert a ⟨x, none⟩) x a n (some b) = .ok none ∧
        placed compare (a, x) rest = rest ++ [(a, x)]) ∨
      ∃ h', SortedList.insertLoop compare (h.insert a ⟨x, none⟩) x a n (some b) = .ok (some h') ∧
        Holds h' { l with numInList := l.numInList + 1 }
          (pre ++ (b, y) :: placed compare (a, x) rest) ∧
        Local h h' (pre ++ (b, y) :: rest) (pre ++ (b, y) :: placed compare (a, x) rest) := by
  -- The elements of the list lie beside the new one.
  have hsame : ∀ {c : ℕ} {d : Cell T}, h.lookup c = some d →
      (h.insert a ⟨x, none⟩).lookup c = some d := by
    intro c d hc
    rw [AList.lookup_insert_ne, hc]
    rintro rfl
    exact ha (mem_of_lookup hc)
  induction rest generalizing n b y pre with
  | nil =>
    obtain ⟨m, rfl⟩ := Nat.exists_eq_add_of_lt hn
    obtain ⟨-, -, -, next, hb, rfl⟩ := linked_append.mp hl.linked
    left
    rw [SortedList.insertLoop, deref_some (hsame hb), except_ok_bind]
    exact ⟨rfl, rfl⟩
  | cons c rest ih =>
    obtain ⟨d, z⟩ := c
    obtain ⟨m, rfl⟩ := Nat.exists_eq_add_of_lt hn
    obtain ⟨-, -, -, next, hb, rfl, next', hd, -⟩ := linked_append.mp hl.linked
    rw [SortedList.insertLoop, deref_some (hsame hb), except_ok_bind]
    dsimp only
    rw [deref_some (hsame hd), except_ok_bind]
    by_cases hlt : compare x z < 0
    · right
      have hba : b ≠ a := by
        rintro rfl
        exact ha (mem_of_lookup hb)
      rw [if_pos hlt, setNext_some (AList.lookup_insert _), except_ok_bind, AList.insert_insert,
        setNext_some ((AList.lookup_insert_ne hba).trans hb), except_ok_bind,
        placed_cons_of_lt compare hlt]
      exact ⟨_, rfl, hl.put_after ha hb⟩
    · rw [if_neg hlt, placed_cons_of_not_lt compare hlt]
      have hl' : Holds h l ((pre ++ [(b, y)]) ++ (d, z) :: rest) := by simpa using hl
      simpa using ih hl' (Nat.lt_of_succ_lt_succ hn)

theorem place (compare : T → T → Int) (hl : Holds h l cells) (ha : a ∉ h) : ∃ early l' h',
    SortedList.place compare l (h.insert a ⟨x, none⟩) x a = .ok (early, l', h') ∧
      Holds h' { l' with numInList := l'.numInList + 1 } (placed compare (a, x) cells) ∧
      Local h h' cells (placed compare (a, x) cells) := by
  have hempty := hl.isEmpty_iff
  unfold SortedList.place
  cases cells with
  | nil =>
    rw [if_pos (hempty.mpr rfl)]
    exact ⟨_, _, _, rfl, hl.put_empty ha⟩
  | cons c cells =>
    obtain ⟨b, y⟩ := c
    obtain ⟨hfirst, next, hb, -⟩ := hl.linked
    have hba : b ≠ a := by
      rintro rfl
      exact ha (mem_of_lookup hb)
    rw [if_neg (by rw [hempty]; simp), hfirst,
      deref_some ((AList.lookup_insert_ne hba).trans hb), except_ok_bind]
    by_cases hlt : compare x y < 0
    · rw [if_pos hlt, setNext_some (AList.lookup_insert _), except_ok_bind, AList.insert_insert,
        placed_cons_of_lt compare hlt, ← hfirst]
      exact ⟨_, _, _, rfl, hl.put_first (List.cons_ne_nil _ _) ha⟩
    · have hfuel : cells.length < (h.insert a ⟨x, none⟩).keys.length := by
        have hle := (hl.insert_fresh ha ⟨x, none⟩).length_le
        exact hle
      have hl' : Holds h l ([] ++ (b, y) :: cells) := hl
      rw [if_neg hlt, placed_cons_of_not_lt compare hlt]
      rcases insertLoop_eq hl' ha hfuel with ⟨hend, hplaced⟩ | ⟨h', hloop, hholds, hlocal⟩
      · -- No element is greater: the new one goes to the end, as in `Append`.
        obtain ⟨l', h', hput, hholds, hlocal⟩ := hl.putLast (x := x) ha
        rw [LinkedList.putLast, if_neg (by rw [hempty]; simp)] at hput
        obtain ⟨h'', hset, hlast⟩ := except_bind_ok hput
        cases hlast
        rw [hend, except_ok_bind]
        dsimp only
        rw [hset, except_ok_bind, hplaced, ← hfirst]
        exact ⟨_, _, _, rfl, hholds, hlocal⟩
      · rw [hloop, except_ok_bind]
        exact ⟨_, _, _, rfl, hholds, hlocal⟩

theorem insert [DecidableEq T] (new : Allocator T) (compare : T → T → Int)
    (hl : Holds h l cells) (hx : x ∉ items cells) : ∃ l' h',
    SortedList.insert new compare l h x = .ok (l', h') ∧
      Holds h' l' (placed compare (new.addr h, x) cells) ∧
      Local h h' cells (placed compare (new.addr h, x) cells) := by
  have hfresh := new.fresh h
  obtain ⟨early, l', h', hplace, hholds, hlocal⟩ := hl.place compare (x := x) hfresh
  have hmem : x ∈ items (placed compare (new.addr h, x) cells) := by
    rw [items_placed, List.mem_orderedInsert]
    exact .inl rfl
  refine ⟨_, h', ?_, hholds, hlocal⟩
  unfold SortedList.insert
  dsimp only
  rw [hl.isInList_new hfresh hx, except_ok_bind, assert_ok rfl, except_ok_bind, hplace,
    except_ok_bind]
  dsimp only
  cases early with
  | true => rfl
  | false =>
    rw [if_neg Bool.false_ne_true, hholds.isInList, except_ok_bind,
      assert_ok (decide_eq_true hmem), except_ok_bind]

theorem orderLoop_eq {n b : ℕ} {y : T} {p : Option ℕ} (hb : h.lookup b = some ⟨y, p⟩)
    (hl : Linked h p cells none)
    (hsorted : (y :: items cells).Pairwise fun x y => compare x y ≤ 0) (hn : cells.length ≤ n) :
    SortedList.orderLoop compare h n (some b) p = .ok () := by
  induction cells generalizing n b y p with
  | nil =>
    obtain rfl : p = none := hl
    cases n <;> rfl
  | cons c cells ih =>
    obtain ⟨a, x⟩ := c
    obtain ⟨rfl, next, ha, hrest⟩ := hl
    obtain ⟨m, rfl, hm⟩ := fuel_cons hn
    obtain ⟨hy, hsorted⟩ := List.pairwise_cons.mp hsorted
    rw [SortedList.orderLoop, deref_some hb, except_ok_bind, deref_some ha, except_ok_bind,
      assert_ok (hy x List.mem_cons_self), except_ok_bind]
    exact ih ha hrest hsorted hm

theorem sanityCheck_sorted (hl : Holds h l cells)
    (hsorted : (items cells).Pairwise fun x y => compare x y ≤ 0) :
    SortedList.sanityCheck compare l h = .ok () := by
  rw [SortedList.sanityCheck, hl.sanityCheck, except_ok_bind]
  split_ifs with hone
  · rfl
  cases cells with
  | nil =>
    -- An empty list has neither a first nor a last element.
    have hfirst : l.first = none := hl.linked
    exact absurd (hfirst.trans hl.last.symm) hone
  | cons c cells =>
    have hfuel : cells.length ≤ h.keys.length := Nat.le_of_succ_le hl.length_le
    obtain ⟨hfirst, next, hc, hrest⟩ := hl.linked
    rw [hfirst, deref_some hc, except_ok_bind]
    exact orderLoop_eq hc hrest hsorted hfuel

end Holds
end Nachos
