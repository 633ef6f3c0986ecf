import Nachos.HashTable

namespace Nachos
open LinkedCells Programs Chaining

section Iterator
variable {ι Key T : Type} [DecidableEq Key] {H : Hashing Key T} {t : HashTable T}
  {cells : ℕ → List (ℕ × T)} {others : ι → LinkedList} {kept : ι → List (ℕ × T)} {m : Map Key T}

/-- The items `xs` are still to come: the rest of a bucket and the buckets behind it. -/
def HashIterator.At (t : HashTable T) (cells : ℕ → List (ℕ × T)) (it : HashIterator)
    (xs : List T) : Prop :=
  it.bucket = t.numBuckets ∧ xs = [] ∨
    ∃ p rest k, it.bucket + 1 + k = t.numBuckets ∧ it.bucketIter = some ⟨p⟩ ∧
      Linked t.heap p rest none ∧ rest ≠ [] ∧
      xs = items rest ++ (List.range' (it.bucket + 1) k).flatMap fun i => items (cells i)

namespace Layout

theorem at_nextFull (hl : Layout H t cells others kept m) {b k : ℕ} (hk : b + k = t.numBuckets) :
    HashIterator.At t cells (HashIterator.atBucket t (t.findNextFullBucketFrom k b))
      ((List.range' b k).flatMap fun i => items (cells i)) := by
  induction k generalizing b with
  | zero => exact .inl ⟨hk, rfl⟩
  | succ k ih =>
    rw [List.range'_succ, List.flatMap_cons, HashTable.findNextFullBucketFrom]
    by_cases hempty : (t.buckets b).isEmpty = true
    · rw [if_pos hempty, (hl.holds b).isEmpty_iff.mp hempty, items_nil, List.nil_append]
      exact ih (by omega)
    · rw [if_neg hempty]
      have hb : b < t.numBuckets := by omega
      refine .inr ⟨(t.buckets b).first, cells b, k, ?_, if_pos hb, (hl.holds b).linked, ?_, rfl⟩
      · change b + 1 + k = t.numBuckets
        omega
      · exact fun hnil => hempty ((hl.holds b).isEmpty_iff.mpr hnil)

theorem at_create (hl : Layout H t cells others kept m) :
    HashIterator.At t cells (HashIterator.create t)
      ((List.range t.numBuckets).flatMap fun i => items (cells i)) := by
  rw [List.range_eq_range']
  exact hl.at_nextFull (zero_add _)

/-- `Item` is the first item to come, and `Next` goes on to the others. -/
theorem at_next (hl : Layout H t cells others kept m) {it : HashIterator} {x : T} {xs : List T}
    (hat : it.At t cells (x :: xs)) : it.isDone t = false ∧ it.item t = .ok x ∧
      ∃ it', it.next t = .ok it' ∧ it'.At t cells xs := by
  obtain ⟨-, hnil⟩ | ⟨p, rest, k, hk, hiter, hlinked, hne, hxs⟩ := hat
  · cases hnil
  have hdone : it.isDone t = false := by
    rw [HashIterator.isDone, beq_eq_false_iff_ne]
    omega
  cases rest with
  | nil => exact absurd rfl hne
  | cons c rest =>
    obtain ⟨a, y⟩ := c
    obtain ⟨rfl, next, hc, hrest⟩ := hlinked
    rw [items_cons, List.cons_append] at hxs
    obtain ⟨rfl, rfl⟩ := List.cons.inj hxs
    refine ⟨hdone, ?_, ?_⟩
    · rw [HashIterator.item, assert_ok hdone, except_ok_bind, hiter]
      exact ListIterator.item_some hc
    · rw [HashIterator.next, hiter]
      dsimp only
      rw [ListIterator.next_some hc, except_ok_bind]
      cases rest with
      | nil =>
        obtain rfl : next = none := hrest
        have hfuel : t.numBuckets - (it.bucket + 1) = k := by omega
        refine ⟨_, if_pos rfl, ?_⟩
        rw [HashTable.findNextFullBucket, hfuel, items_nil, List.nil_append]
        exact hl.at_nextFull hk
      | cons d rest =>
        have hnext : next = some d.1 := hrest.1
        refine ⟨_, if_neg (by simp [ListIterator.isDone, hnext]), .inr ?_⟩
        exact ⟨next, d :: rest, k, hk, rfl, hrest, List.cons_ne_nil _ _, rfl⟩

theorem visit_eq (hl : Layout H t cells others kept m) {it : HashIterator} {xs : List T} {n : ℕ}
    (hat : it.At t cells xs) (hn : xs.length ≤ n) : it.visit t n = .ok xs := by
  induction xs generalizing it n with
  | nil =>
    have hdone : it.isDone t = true := by
      obtain ⟨hbucket, -⟩ | ⟨p, rest, k, -, -, -, hne, hxs⟩ := hat
      · rw [HashIterator.isDone, hbucket, beq_self_eq_true]
      · have := congrArg List.length hxs
        simp only [List.length_nil, List.length_append, length_items] at this
        exact absurd (List.length_eq_zero_iff.mp (by omega)) hne
    cases n <;> rw [HashIterator.visit, if_pos hdone]
  | cons x xs ih =>
    obtain ⟨n, rfl, hleft⟩ := fuel_cons hn
    obtain ⟨hdone, hitem, it', hnext, hat'⟩ := hl.at_next hat
    rw [HashIterator.visit, if_neg (by simp [hdone]), hitem, except_ok_bind, hnext, except_ok_bind,
      ih hat' hleft, except_ok_bind]

/-- The iterator visits every item of the map once. -/
theorem visit (hl : Layout H t cells others kept m) (hcount : t.numItems = m.keys.card) :
    ∃ xs, (HashIterator.create t).visit t t.numItems.toNat = .ok xs ∧ xs.Nodup ∧
      ∀ x, x ∈ xs ↔ m.lookup (H.getKey x) = some x := by
  refine ⟨_, hl.visit_eq hl.at_create ?_, (hl.stores.nodup_flatMap _).of_map,
    hl.stores.mem_flatMap hl.slot_lt⟩
  rw [hl.stores.length_flatMap hl.slot_lt, hcount, Int.toNat_natCast]

theorem bucket_items (hl : Layout H t cells others kept m) (i : ℕ) :
    ∃ xs, (t.buckets i).toList t.heap = .ok xs ∧ xs.Nodup ∧
      ∀ x, x ∈ xs ↔ m.lookup (H.getKey x) = some x ∧ t.hashValue H (H.getKey x) = .ok i := by
  refine ⟨_, (hl.holds i).toList, (hl.stores.nodup i).of_map, fun x => ?_⟩
  rw [hashValue_eq hl.pos, hl.stores.placed, Except.ok.injEq]

end Layout
end Iterator

inductive TableCall (Key T : Type) where
  | insert (item : T)
  | find (key : Key)
  | remove (key : Key)
  deriving DecidableEq, Repr

inductive TableReply (T : Type) where
  | inserted
  | found (item : Option T)
  | removed (item : T)
  deriving DecidableEq, Repr

section Calls
variable {Key T : Type} [DecidableEq Key]

def mapCall (getKey : T → Key) (m : Map Key T) :
    TableCall Key T → Option (TableReply T × Map Key T)
  | .insert item =>
    match m.lookup (getKey item) with
    | none => some (.inserted, m.insert (getKey item) item)
    | some _ => none
  | .find key => some (.found (m.lookup key), m)
  | .remove key =>
    match m.lookup key with
    | none => none
    | some item => some (.removed item, m.erase key)

def mapCalls (getKey : T → Key) :
    Map Key T → List (TableCall Key T) → Option (List (TableReply T) × Map Key T)
  | m, [] => some ([], m)
  | m, call :: calls =>
    (mapCall getKey m call).bind fun r =>
      (mapCalls getKey r.2 calls).map fun s => (r.1 :: s.1, s.2)

variable [DecidableEq T]

namespace HashTable

def call (H : Hashing Key T) (t : HashTable T) :
    TableCall Key T → Except ListFault (TableReply T × HashTable T)
  | .insert item => do
    let t ← t.insert H item
    .ok (.inserted, t)
  | .find key => do
    let found ← t.find H key
    .ok (.found found, t)
  | .remove key => do
    let r ← t.remove H key
    .ok (.removed r.1, r.2)

def calls (H : Hashing Key T) :
    HashTable T → List (TableCall Key T) → Except ListFault (List (TableReply T) × HashTable T)
  | t, [] => .ok ([], t)
  | t, c :: cs => do
    let r ← t.call H c
    let s ← calls H r.2 cs
    .ok (r.1 :: s.1, s.2)

end HashTable

variable {ι : Type} [DecidableEq ι] {H : Hashing Key T} {t : HashTable T}
  {cells : ℕ → List (ℕ × T)} {others : ι → LinkedList} {kept : ι → List (ℕ × T)} {m m' : Map Key T}

/-- A call that the map answers has the same answer from the table. -/
theorem Layout.call (hl : Layout H t cells others kept m) (hcount : t.numItems = m.keys.card)
    {c : TableCall Key T} {reply : TableReply T} (hc : mapCall H.getKey m c = some (reply, m')) :
    ∃ t' cells', t.call H c = .ok (reply, t') ∧ t'.numItems = m'.keys.card ∧
      Layout H t' cells' others kept m' := by
  cases c with
  | insert item =>
    cases hitem : m.lookup (H.getKey item) with
    | some x => simp [mapCall, hitem] at hc
    | none =>
      simp only [mapCall, hitem, Option.some.injEq, Prod.mk.injEq] at hc
      obtain ⟨rfl, rfl⟩ := hc
      obtain ⟨t', cells', hinsert, hcount', hl'⟩ := hl.insert hcount hitem
      refine ⟨t', cells', ?_, hcount', hl'⟩
      rw [HashTable.call, hinsert, except_ok_bind]
  | find key =>
    simp only [mapCall, Option.some.injEq, Prod.mk.injEq] at hc
    obtain ⟨rfl, rfl⟩ := hc
    refine ⟨t, cells, ?_, hcount, hl⟩
    rw [HashTable.call, hl.find, except_ok_bind]
  | remove key =>
    cases hkey : m.lookup key with
    | none => simp [mapCall, hkey] at hc
    | some x =>
      simp only [mapCall, hkey, Option.some.injEq, Prod.mk.injEq] at hc
      obtain ⟨rfl, rfl⟩ := hc
      obtain ⟨t', cells', hremove, hcount', hl'⟩ := hl.remove hcount hkey
      refine ⟨t', cells', ?_, hcount', hl'⟩
      rw [HashTable.call, hremove, except_ok_bind]

/-- Any number of calls; the other lists in the heap are as they were. -/
theorem Layout.calls (hl : Layout H t cells others kept m) (hcount : t.numItems = m.keys.card)
    {cs : List (TableCall Key T)} {replies : List (TableReply T)}
    (hcs : mapCalls H.getKey m cs = some (replies, m')) :
    ∃ t' cells', t.calls H cs = .ok (replies, t') ∧ t'.numItems = m'.keys.card ∧
      Layout H t' cells' others kept m' := by
  induction cs generalizing t cells m replies with
  | nil =>
    obtain ⟨rfl, rfl⟩ := Prod.mk.inj (Option.some.inj hcs)
    exact ⟨t, cells, rfl, hcount, hl⟩
  | cons c cs ih =>
    obtain ⟨⟨reply, m₁⟩, hc, hrest⟩ := Option.bind_eq_some_iff.mp hcs
    obtain ⟨⟨replies', m₂⟩, hcs', heq⟩ := Option.map_eq_some_iff.mp hrest
    obtain ⟨rfl, rfl⟩ := Prod.mk.inj heq
    obtain ⟨t₁, cells₁, hcall, hcount₁, hl₁⟩ := hl.call hcount hc
    obtain ⟨t₂, cells₂, hcalls, hcount₂, hl₂⟩ := ih hl₁ hcount₁ hcs'
    refine ⟨t₂, cells₂, ?_, hcount₂, hl₂⟩
    rw [HashTable.calls, hcall, except_ok_bind, hcalls, except_ok_bind]

/-- After any calls that the map answers, the table has given the same answers and keeps the map:
`Find` looks up in it, each item is in the bucket of its key and nowhere else, the count is right,
`SanityCheck` passes, and the iterator visits every item once. -/
theorem hashTable_is_map (H : Hashing Key T) (heap : Heap T) {cs : List (TableCall Key T)}
    {replies : List (TableReply T)} (hcs : mapCalls H.getKey ∅ cs = some (replies, m)) :
    ∃ t, (HashTable.create heap).calls H cs = .ok (replies, t) ∧
      (∀ key, t.find H key = .ok (m.lookup key)) ∧
      (∀ i < t.numBuckets, ∃ xs, (t.buckets i).toList t.heap = .ok xs ∧ xs.Nodup ∧
        ∀ x, x ∈ xs ↔ m.lookup (H.getKey x) = some x ∧ t.hashValue H (H.getKey x) = .ok i) ∧
      t.numItems = m.keys.card ∧ t.sanityCheck H = .ok () ∧
      ∃ xs, (HashIterator.create t).visit t t.numItems.toNat = .ok xs ∧ xs.Nodup ∧
        ∀ x, x ∈ xs ↔ m.lookup (H.getKey x) = some x := by
  have hbank : Bank heap (fun i : Empty => i.elim) fun i => i.elim :=
    ⟨fun i => i.elim, fun i => i.elim⟩
  have hzero : (HashTable.create heap).numItems = (∅ : Map Key T).keys.card := by
    rw [card_empty]
    rfl
  obtain ⟨t, cells, hcalls, hcount, hl⟩ := (Layout.create (H := H) hbank).calls hzero hcs
  exact ⟨t, hcalls, hl.find, fun i _ => hl.bucket_items i, hcount, hl.sanityCheck hcount,
    hl.visit hcount⟩

end Calls

def numberHashing : Hashing ℕ ℕ where
  getKey := id
  hash := UInt32.ofNat
  new := ⟨fun h => h.keys.sum + 1, fun h hmem =>
    absurd (List.le_sum_of_mem (AList.mem_keys.mp hmem)) (by omega)⟩

def thirteenItems : List (TableCall ℕ ℕ) :=
  (List.range 13).map TableCall.insert ++ [.find 12, .remove 3, .find 3]

def thirteenReplies : List (TableReply ℕ) :=
  List.replicate 13 TableReply.inserted ++ [.found (some 12), .removed 3, .found none]

theorem hashTable_is_map_larger : ∃ t,
    (HashTable.create ∅).calls numberHashing thirteenItems = .ok (thirteenReplies, t) ∧
      t.numItems = 12 ∧ t.sanityCheck numberHashing = .ok () := by
  have hcs : mapCalls numberHashing.getKey ∅ thirteenItems = some (thirteenReplies,
      ((List.range 13).foldl (fun (m : Map ℕ ℕ) i => m.insert i i) ∅).erase 3) := rfl
  obtain ⟨t, hcalls, -, -, hcount, hsane, -⟩ := hashTable_is_map numberHashing ∅ hcs
  exact ⟨t, hcalls, hcount.trans rfl, hsane⟩

section SelfTest
variable {ι Key T : Type} [DecidableEq ι] [DecidableEq Key] [DecidableEq T]

namespace HashTable

def selfTestInsert (H : Hashing Key T) (t : HashTable T) (x : T) :
    Except ListFault (HashTable T) := do
  let t ← t.insert H x
  let there ← t.isInTable H (H.getKey x)
  assert (there = true)
  assert (t.isEmpty = false)
  .ok t

def selfTestRemove (H : Hashing Key T) (t : HashTable T) (x : T) :
    Except ListFault (HashTable T) := do
  let r ← t.remove H (H.getKey x)
  assert (r.1 = x)
  .ok r.2

def selfTest (H : Hashing Key T) (t : HashTable T) (p : List T) :
    Except ListFault (HashTable T) := do
  let iterator := HashIterator.create t
  t.sanityCheck H
  assert (t.isEmpty = true)
  assert (iterator.isDone t = true)
  let t ← p.foldlM (selfTestInsert H) t
  let t ← p.foldlM (selfTestRemove H) t
  assert (t.isEmpty = true)
  t.sanityCheck H
  .ok t

end HashTable

variable {H : Hashing Key T} {t : HashTable T} {cells : ℕ → List (ℕ × T)}
  {others : ι → LinkedList} {kept : ι → List (ℕ × T)} {m : Map Key T} {p : List T}

theorem Layout.selfTestInsert (hl : Layout H t cells others kept m)
    (hcount : t.numItems = m.keys.card) (hp : (p.map H.getKey).Nodup)
    (hnew : ∀ x ∈ p, m.lookup (H.getKey x) = none) : ∃ t' cells' m',
    p.foldlM (HashTable.selfTestInsert H) t = .ok t' ∧ t'.numItems = m'.keys.card ∧
      Layout H t' cells' others kept m' ∧ m'.keys.card = m.keys.card + p.length ∧
      (∀ x ∈ p, m'.lookup (H.getKey x) = some x) ∧
      ∀ k ∉ p.map H.getKey, m'.lookup k = m.lookup k := by
  induction p generalizing t cells m with
  | nil => exact ⟨t, cells, m, rfl, hcount, hl, rfl, by simp, fun _ _ => rfl⟩
  | cons x p ih =>
    obtain ⟨hx, hp⟩ := List.nodup_cons.mp hp
    obtain ⟨hxnew, hnew⟩ := List.forall_mem_cons.mp hnew
    obtain ⟨t₁, cells₁, hinsert, hcount₁, hl₁⟩ := hl.insert hcount hxnew
    have hne : ∀ y ∈ p, H.getKey y ≠ H.getKey x :=
      fun y hy heq => hx (heq ▸ List.mem_map_of_mem hy)
    obtain ⟨t₂, cells₂, m₂, hfold, hcount₂, hl₂, hcard, hthere, hsame⟩ := ih hl₁ hcount₁ hp
      fun y hy => by rw [Finmap.lookup_insert_of_ne _ (hne y hy), hnew y hy]
    have hone : t.selfTestInsert H x = .ok t₁ := by
      have hfull : t₁.isEmpty = false := by
        rw [HashTable.isEmpty, beq_eq_false_iff_ne, hcount₁, card_insert hxnew]
        omega
      rw [HashTable.selfTestInsert, hinsert, except_ok_bind, hl₁.isInTable, except_ok_bind,
        assert_ok (by rw [Finmap.lookup_insert]; rfl), except_ok_bind, assert_ok hfull,
        except_ok_bind]
    refine ⟨t₂, cells₂, m₂, ?_, hcount₂, hl₂, ?_, ?_, fun k hk => ?_⟩
    · rw [List.foldlM_cons, hone, except_ok_bind, hfold]
    · rw [hcard, card_insert hxnew, List.length_cons]
      omega
    · refine List.forall_mem_cons.mpr ⟨?_, hthere⟩
      rw [hsame _ hx, Finmap.lookup_insert]
    · obtain ⟨hkx, hk⟩ := not_or.mp (List.mem_cons.not.mp hk)
      rw [hsame k hk, Finmap.lookup_insert_of_ne _ hkx]

theorem Layout.selfTestRemove (hl : Layout H t cells others kept m)
    (hcount : t.numItems = m.keys.card) (hp : (p.map H.getKey).Nodup)
    (hthere : ∀ x ∈ p, m.lookup (H.getKey x) = some x) : ∃ t' cells' m',
    p.foldlM (HashTable.selfTestRemove H) t = .ok t' ∧ t'.numItems = m'.keys.card ∧
      Layout H t' cells' others kept m' ∧ m'.keys.card + p.length = m.keys.card := by
  induction p generalizing t cells m with
  | nil => exact ⟨t, cells, m, rfl, hcount, hl, rfl⟩
  | cons x p ih =>
    obtain ⟨hx, hp⟩ := List.nodup_cons.mp hp
    obtain ⟨hxthere, hthere⟩ := List.forall_mem_cons.mp hthere
    obtain ⟨t₁, cells₁, hremove, hcount₁, hl₁⟩ := hl.remove hcount hxthere
    have hne : ∀ y ∈ p, H.getKey y ≠ H.getKey x :=
      fun y hy heq => hx (heq ▸ List.mem_map_of_mem hy)
    obtain ⟨t₂, cells₂, m₂, hfold, hcount₂, hl₂, hcard⟩ := ih hl₁ hcount₁ hp
      fun y hy => by rw [Finmap.lookup_erase_ne (hne y hy), hthere y hy]
    refine ⟨t₂, cells₂, m₂, ?_, hcount₂, hl₂, ?_⟩
    · rw [List.foldlM_cons, HashTable.selfTestRemove, hremove, except_ok_bind, assert_ok rfl,
        except_ok_bind, except_ok_bind, hfold]
    · have := card_erase hxthere
      rw [List.length_cons]
      omega

/-- On an empty table the self test passes for items with different keys. -/
theorem Layout.selfTest (hl : Layout H t cells others kept ∅) (hcount : t.numItems = 0)
    (hp : (p.map H.getKey).Nodup) : ∃ t' cells', t.selfTest H p = .ok t' ∧ t'.numItems = 0 ∧
      Layout H t' cells' others kept ∅ := by
  have hempty : t.isEmpty = true := by rw [HashTable.isEmpty, hcount]; rfl
  have hzero : t.numItems = (∅ : Map Key T).keys.card := by rw [card_empty, hcount]; rfl
  obtain ⟨xs, hvisit, -⟩ := hl.visit hzero
  have hdone : (HashIterator.create t).isDone t = true := by
    rw [hcount, Int.toNat_zero, HashIterator.visit] at hvisit
    by_contra hnot
    rw [if_neg hnot] at hvisit
    cases hvisit
  obtain ⟨t₁, cells₁, m₁, hinsert, hcount₁, hl₁, hcard₁, hthere, -⟩ :=
    hl.selfTestInsert hzero hp fun x _ => Finmap.lookup_empty _
  obtain ⟨t₂, cells₂, m₂, hremove, hcount₂, hl₂, hcard₂⟩ := hl₁.selfTestRemove hcount₁ hp hthere
  have hnone : m₂.keys.card = 0 := by
    rw [card_empty] at hcard₁
    omega
  obtain rfl : m₂ = ∅ := by
    refine Finmap.ext_lookup fun k => ?_
    rw [Finmap.lookup_empty, Finmap.lookup_eq_none, ← Finmap.mem_keys, Finset.card_eq_zero.mp hnone]
    exact Finset.notMem_empty k
  have hitems : t₂.numItems = 0 := by rw [hcount₂, hnone]; rfl
  have hempty₂ : t₂.isEmpty = true := by rw [HashTable.isEmpty, hitems]; rfl
  refine ⟨t₂, cells₂, ?_, hitems, hl₂⟩
  rw [HashTable.selfTest, hl.sanityCheck hzero, except_ok_bind, assert_ok hempty, except_ok_bind,
    assert_ok hdone, except_ok_bind, hinsert, except_ok_bind, hremove, except_ok_bind,
    assert_ok hempty₂, except_ok_bind, hl₂.sanityCheck hcount₂, except_ok_bind]

end SelfTest
end Nachos
