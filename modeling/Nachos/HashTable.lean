import Nachos.Lib.Chaining
import Nachos.LinkedList

namespace Nachos
open LinkedCells Programs Chaining

def initialBuckets : ℕ := 4
def resizeRatio : Int := 3
def increaseSizeBy : ℕ := 4

/-- What the table is instantiated with, and the choice that `new` makes. -/
structure Hashing (Key T : Type) where
  getKey : T → Key
  hash : Key → UInt32
  new : Allocator T

/-- The lists beyond `numBuckets` are not part of the table. -/
structure HashTable (T : Type) where
  buckets : ℕ → LinkedList
  numBuckets : ℕ
  numItems : Int
  heap : Heap T

namespace HashTable
variable {Key T : Type} (H : Hashing Key T) (t : HashTable T)

def initBuckets (sz : ℕ) : HashTable T := { t with buckets := fun _ => .empty, numBuckets := sz }

def create (heap : Heap T) : HashTable T :=
  initBuckets ⟨fun _ => .empty, 0, 0, heap⟩ initialBuckets

def isEmpty : Bool := t.numItems == 0

def bucket (i : ℕ) : Except ListFault LinkedList :=
  if i < t.numBuckets then .ok (t.buckets i) else .error .dangling

def hashValue (key : Key) : Except ListFault ℕ := do
  let result := (H.hash key).toNat % t.numBuckets
  assert (result < t.numBuckets)
  .ok result

def checkPlaces (i : ℕ) : ℕ → ListIterator → Except ListFault Unit
  | 0, it => if it.isDone then .ok () else .error .endless
  | n + 1, it =>
    if it.isDone then .ok ()
    else do
      let x ← it.item t.heap
      let place ← t.hashValue H (H.getKey x)
      assert (i = place)
      let it ← it.next t.heap
      checkPlaces i n it

def checkBucket (numFound : Int) (i : ℕ) : Except ListFault Int := do
  let l ← t.bucket i
  l.sanityCheck t.heap
  t.checkPlaces H i t.heap.keys.length l.iterator
  .ok (numFound + l.numInList)

def sanityCheck : Except ListFault Unit := do
  let numFound ← (List.range t.numBuckets).foldlM (t.checkBucket H) 0
  assert (t.numItems = numFound)

def findNextFullBucketFrom : ℕ → ℕ → ℕ
  | 0, bucket => bucket
  | n + 1, bucket =>
    if (t.buckets bucket).isEmpty then findNextFullBucketFrom n (bucket + 1) else bucket

def findNextFullBucket (bucket : ℕ) : ℕ := t.findNextFullBucketFrom (t.numBuckets - bucket) bucket

variable [DecidableEq Key]

def findLoop (key : Key) : ℕ → ListIterator → Except ListFault (Option T)
  | 0, it => if it.isDone then .ok none else .error .endless
  | n + 1, it =>
    if it.isDone then .ok none
    else do
      let x ← it.item t.heap
      if key = H.getKey x then .ok (some x)
      else do
        let it ← it.next t.heap
        findLoop key n it

/-- `none` is the answer `FALSE`, with `NULL` for the item. -/
def findInBucket (bucket : ℕ) (key : Key) : Except ListFault (Option T) := do
  let l ← t.bucket bucket
  t.findLoop H key t.heap.keys.length l.iterator

def find (key : Key) : Except ListFault (Option T) := do
  let bucket ← t.hashValue H key
  t.findInBucket H bucket key

def isInTable (key : Key) : Except ListFault Bool := do
  let found ← t.find H key
  .ok found.isSome

variable [DecidableEq T]

def appendTo (bucket : ℕ) (item : T) : Except ListFault (HashTable T) := do
  let l ← t.bucket bucket
  let r ← l.append H.new t.heap item
  .ok { t with buckets := Function.update t.buckets bucket r.1, heap := r.2 }

/-- The loop of `ReHash` over one list of the old table. -/
def drain : ℕ → LinkedList → HashTable T → Except ListFault (HashTable T)
  | 0, old, t => if old.isEmpty then .ok t else .error .endless
  | n + 1, old, t =>
    if old.isEmpty then .ok t
    else do
      let r ← old.removeFront t.heap
      let t := { t with heap := r.2.2 }
      let bucket ← t.hashValue H (H.getKey r.1)
      let t ← t.appendTo H bucket r.1
      drain n r.2.1 t

def reHash : Except ListFault (HashTable T) := do
  t.sanityCheck H
  let t' ← (List.range t.numBuckets).foldlM
    (fun t' i => drain H t'.heap.keys.length (t.buckets i) t')
    (t.initBuckets (t.numBuckets * increaseSizeBy))
  t'.sanityCheck H
  .ok t'

/-- `Insert` makes the table larger when it has too many items for its buckets. -/
def grow : Except ListFault (HashTable T) :=
  if t.numItems.tdiv t.numBuckets ≥ resizeRatio then t.reHash H else .ok t

def insert (item : T) : Except ListFault (HashTable T) := do
  let there ← t.isInTable H (H.getKey item)
  assert (there = false)
  let t ← t.grow H
  let bucket ← t.hashValue H (H.getKey item)
  let t ← t.appendTo H bucket item
  let t := { t with numItems := t.numItems + 1 }
  let there ← t.isInTable H (H.getKey item)
  assert (there = true)
  .ok t

def remove (key : Key) : Except ListFault (T × HashTable T) := do
  let bucket ← t.hashValue H key
  let found ← t.findInBucket H bucket key
  match found with
  | none => .error .assert
  | some item => do
    let l ← t.bucket bucket
    let r ← l.remove t.heap item
    let t : HashTable T :=
      ⟨Function.update t.buckets bucket r.1, t.numBuckets, t.numItems - 1, r.2⟩
    let there ← t.isInTable H key
    assert (there = false)
    .ok (item, t)

end HashTable

structure HashIterator where
  bucket : ℕ
  bucketIter : Option ListIterator
  deriving DecidableEq, Repr

namespace HashIterator
variable {T : Type} (t : HashTable T)

def atBucket (bucket : ℕ) : HashIterator :=
  ⟨bucket, if bucket < t.numBuckets then some (t.buckets bucket).iterator else none⟩

def create : HashIterator := atBucket t (t.findNextFullBucket 0)

def isDone (it : HashIterator) : Bool := it.bucket == t.numBuckets

def item (it : HashIterator) : Except ListFault T := do
  assert (it.isDone t = false)
  match it.bucketIter with
  | none => .error .dangling
  | some bucketIter => bucketIter.item t.heap

def next (it : HashIterator) : Except ListFault HashIterator :=
  match it.bucketIter with
  | none => .error .dangling
  | some bucketIter => do
    let bucketIter ← bucketIter.next t.heap
    if bucketIter.isDone then .ok (atBucket t (t.findNextFullBucket (it.bucket + 1)))
    else .ok ⟨it.bucket, some bucketIter⟩

/-- The items that the loop `for (; !it.IsDone(); it.Next())` visits. -/
def visit : ℕ → HashIterator → Except ListFault (List T)
  | 0, it => if it.isDone t then .ok [] else .error .endless
  | n + 1, it =>
    if it.isDone t then .ok []
    else do
      let x ← it.item t
      let it ← it.next t
      let xs ← visit n it
      .ok (x :: xs)

end HashIterator

def Hashing.slot {Key T : Type} (H : Hashing Key T) (n : ℕ) (key : Key) : ℕ :=
  (H.hash key).toNat % n

/-- The buckets keep the map, each item in the list for its key.  `others` are lists of other
owners in the same heap. -/
structure Layout {ι Key T : Type} [DecidableEq Key] (H : Hashing Key T) (t : HashTable T)
    (cells : ℕ → List (ℕ × T)) (others : ι → LinkedList) (kept : ι → List (ℕ × T))
    (m : Map Key T) : Prop where
  pos : 0 < t.numBuckets
  bank : Bank t.heap (Sum.elim t.buckets others) (Sum.elim cells kept)
  stores : Stores H.getKey (H.slot t.numBuckets) (fun i => items (cells i)) m

section Reading
variable {ι Key T : Type} {H : Hashing Key T} {t : HashTable T}

theorem hashValue_eq (hpos : 0 < t.numBuckets) (key : Key) :
    t.hashValue H key = .ok (H.slot t.numBuckets key) := by
  unfold HashTable.hashValue
  dsimp only
  rw [assert_ok (Nat.mod_lt _ hpos), except_ok_bind]
  rfl

theorem bucket_eq {i : ℕ} (hi : i < t.numBuckets) : t.bucket i = .ok (t.buckets i) := if_pos hi

theorem checkPlaces_eq (hpos : 0 < t.numBuckets) {i n : ℕ} {p : Option ℕ} {cells : List (ℕ × T)}
    (hl : Linked t.heap p cells none) (hn : cells.length ≤ n)
    (hplace : ∀ x ∈ items cells, H.slot t.numBuckets (H.getKey x) = i) :
    t.checkPlaces H i n ⟨p⟩ = .ok () := by
  induction cells generalizing n p with
  | nil =>
    obtain rfl : p = none := hl
    cases n <;> rfl
  | cons c cells ih =>
    obtain ⟨a, x⟩ := c
    obtain ⟨rfl, next, hc, hrest⟩ := hl
    obtain ⟨m, rfl, hm⟩ := fuel_cons hn
    obtain ⟨hx, hplace⟩ := List.forall_mem_cons.mp hplace
    rw [HashTable.checkPlaces, if_neg (by simp [ListIterator.isDone]), ListIterator.item_some hc,
      except_ok_bind, hashValue_eq hpos, except_ok_bind, assert_ok hx.symm, except_ok_bind,
      ListIterator.next_some hc, except_ok_bind]
    exact ih hrest hm hplace

variable [DecidableEq Key]

theorem findLoop_eq {n : ℕ} {p : Option ℕ} {cells : List (ℕ × T)}
    (hl : Linked t.heap p cells none) (hn : cells.length ≤ n) (key : Key) :
    t.findLoop H key n ⟨p⟩ = .ok ((items cells).find? fun x => key = H.getKey x) := by
  induction cells generalizing n p with
  | nil =>
    obtain rfl : p = none := hl
    cases n <;> rfl
  | cons c cells ih =>
    obtain ⟨a, x⟩ := c
    obtain ⟨rfl, next, hc, hrest⟩ := hl
    obtain ⟨m, rfl, hm⟩ := fuel_cons hn
    rw [HashTable.findLoop, if_neg (by simp [ListIterator.isDone]), ListIterator.item_some hc,
      except_ok_bind, ListIterator.next_some hc, except_ok_bind, ih hrest hm]
    by_cases hkey : key = H.getKey x
    · simp [hkey]
    · simp [hkey]

variable {cells : ℕ → List (ℕ × T)} {others : ι → LinkedList}
  {kept : ι → List (ℕ × T)} {m : Map Key T}

namespace Layout

/-- A new table, beside lists that are there already. -/
theorem create {heap : Heap T} (hbank : Bank heap others kept) :
    Layout H (HashTable.create heap) (fun _ => []) others kept ∅ :=
  ⟨(by decide : 0 < initialBuckets), hbank.with_empty, Stores.empty⟩

theorem holds (hl : Layout H t cells others kept m) (i : ℕ) :
    Holds t.heap (t.buckets i) (cells i) := hl.bank.holds (.inl i)

theorem slot_lt (hl : Layout H t cells others kept m) (key : Key) :
    H.slot t.numBuckets key < t.numBuckets := Nat.mod_lt _ hl.pos

theorem checkBuckets (hl : Layout H t cells others kept m) {is : List ℕ}
    (his : ∀ i ∈ is, i < t.numBuckets) (numFound : Int) :
    is.foldlM (t.checkBucket H) numFound =
      .ok (numFound + (is.flatMap fun i => items (cells i)).length) := by
  induction is generalizing numFound with
  | nil => simp [pure, Except.pure]
  | cons i is ih =>
    obtain ⟨hi, his⟩ := List.forall_mem_cons.mp his
    have hplaces : t.checkPlaces H i t.heap.keys.length (t.buckets i).iterator = .ok () :=
      checkPlaces_eq hl.pos (hl.holds i).linked (hl.holds i).length_le
        fun x hx => ((hl.stores.placed i x).mp hx).2
    have hone : t.checkBucket H numFound i = .ok (numFound + (cells i).length) := by
      rw [HashTable.checkBucket, bucket_eq hi, except_ok_bind, (hl.holds i).sanityCheck,
        except_ok_bind, hplaces, except_ok_bind, (hl.holds i).count]
    rw [List.foldlM_cons, hone, except_ok_bind, ih his]
    simp [add_assoc]

theorem sanityCheck (hl : Layout H t cells others kept m) (hcount : t.numItems = m.keys.card) :
    t.sanityCheck H = .ok () := by
  rw [HashTable.sanityCheck, hl.checkBuckets fun i hi => List.mem_range.mp hi, except_ok_bind]
  apply assert_ok
  rw [hl.stores.length_flatMap hl.slot_lt, hcount, zero_add]

theorem findInBucket (hl : Layout H t cells others kept m) (key : Key) :
    t.findInBucket H (H.slot t.numBuckets key) key = .ok (m.lookup key) := by
  have hholds := hl.holds (H.slot t.numBuckets key)
  rw [HashTable.findInBucket, bucket_eq (hl.slot_lt key), except_ok_bind, ← hl.stores.find_eq key]
  exact findLoop_eq hholds.linked hholds.length_le key

theorem find (hl : Layout H t cells others kept m) (key : Key) :
    t.find H key = .ok (m.lookup key) := by
  rw [HashTable.find, hashValue_eq hl.pos, except_ok_bind, hl.findInBucket]

theorem isInTable (hl : Layout H t cells others kept m) (key : Key) :
    t.isInTable H key = .ok (m.lookup key).isSome := by
  rw [HashTable.isInTable, hl.find, except_ok_bind]

end Layout
end Reading

section Moving
variable {ι Key T : Type} [DecidableEq Key] {H : Hashing Key T} {t : HashTable T}
  {cells : ℕ → List (ℕ × T)} {others : ι → LinkedList} {kept : ι → List (ℕ × T)} {m : Map Key T}

/-- Part of the map is in the new buckets of `t`, and the rest still in `old`, where `n` buckets
were. -/
def Moving (H : Hashing Key T) (n : ℕ) (t : HashTable T) (old : ℕ → LinkedList)
    (left : ℕ → List (ℕ × T)) (others : ι → LinkedList) (kept : ι → List (ℕ × T))
    (m : Map Key T) : Prop :=
  ∃ cells m₁ m₂, Layout H t cells (Sum.elim others old) (Sum.elim kept left) m₁ ∧
    Stores H.getKey (H.slot n) (fun i => items (left i)) m₂ ∧ m₁.Disjoint m₂ ∧ m₁ ∪ m₂ = m

variable {n : ℕ} {old : ℕ → LinkedList} {left : ℕ → List (ℕ × T)}

theorem Moving.holds (hm : Moving H n t old left others kept m) (i : ℕ) :
    Holds t.heap (old i) (left i) := by
  obtain ⟨cells, m₁, m₂, hl, -⟩ := hm
  exact hl.bank.holds (.inr (.inr i))

theorem Moving.pos (hm : Moving H n t old left others kept m) : 0 < t.numBuckets := by
  obtain ⟨cells, m₁, m₂, hl, -⟩ := hm
  exact hl.pos

theorem Layout.moving (hl : Layout H t cells others kept m) {sz : ℕ} (hsz : 0 < sz) :
    Moving H t.numBuckets (t.initBuckets sz) t.buckets cells others kept m := by
  have hbank := (hl.bank.comp Sum.swap_leftInverse.injective).with_empty (κ := ℕ)
  rw [Sum.elim_swap, Sum.elim_swap] at hbank
  refine ⟨fun _ => [], ∅, m, ⟨hsz, hbank, Stores.empty⟩, hl.stores, ?_, Finmap.empty_union⟩
  intro k hk
  exact absurd hk Finmap.notMem_empty

theorem Moving.finish (hm : Moving H n t old left others kept m) (hpos : 0 < n)
    (hempty : ∀ i < n, left i = []) : ∃ cells, Layout H t cells others kept m := by
  obtain ⟨cells, m₁, m₂, hl, hs, -, hunion⟩ := hm
  have hm₂ : m₂ = ∅ := hs.eq_empty fun k => by
    rw [hempty (H.slot n k) (Nat.mod_lt _ hpos), items_nil]
  subst hm₂
  rw [Finmap.union_empty] at hunion
  subst hunion
  have hinj : Function.Injective (Sum.map id Sum.inl : ℕ ⊕ ι → ℕ ⊕ (ι ⊕ ℕ)) :=
    Function.injective_id.sumMap Sum.inl_injective
  have hbank := hl.bank.comp hinj
  rw [Sum.elim_comp_map, Sum.elim_comp_map, Sum.elim_comp_inl, Sum.elim_comp_inl] at hbank
  exact ⟨cells, hl.pos, hbank, hl.stores⟩

end Moving

section Changing
variable {ι Key T : Type} [DecidableEq ι] [DecidableEq Key] {H : Hashing Key T}
  {t : HashTable T} {cells : ℕ → List (ℕ × T)} {others : ι → LinkedList}
  {kept : ι → List (ℕ × T)} {m : Map Key T}

theorem items_update (cells : ℕ → List (ℕ × T)) (i : ℕ) (cells' : List (ℕ × T)) :
    (fun j => items (Function.update cells i cells' j)) =
      Function.update (fun j => items (cells j)) i (items cells') := by
  funext j
  exact Function.apply_update (fun _ => items) cells i cells' j

structure SameSize (t t' : HashTable T) : Prop where
  numBuckets : t'.numBuckets = t.numBuckets
  numItems : t'.numItems = t.numItems

theorem Layout.replace (hl : Layout H t cells others kept m) {i : ℕ} {l' : LinkedList}
    {h' : Heap T} {cells' : List (ℕ × T)} {m' : Map Key T} (hholds : Holds h' l' cells')
    (hlocal : Local t.heap h' (cells i) cells')
    (hstores : Stores H.getKey (H.slot t.numBuckets)
      (Function.update (fun j => items (cells j)) i (items cells')) m') (numItems : Int) :
    Layout H ⟨Function.update t.buckets i l', t.numBuckets, numItems, h'⟩
      (Function.update cells i cells') others kept m' := by
  refine ⟨hl.pos, ?_, ?_⟩
  · have hbank := hl.bank.update (i := .inl i) hholds hlocal
    rwa [Sum.update_elim_inl, Sum.update_elim_inl] at hbank
  · rwa [items_update]

variable [DecidableEq T]

theorem Layout.append (hl : Layout H t cells others kept m) {x : T}
    (hx : m.lookup (H.getKey x) = none) : ∃ t' cells',
    t.appendTo H (H.slot t.numBuckets (H.getKey x)) x = .ok t' ∧ SameSize t t' ∧
      Layout H t' cells' others kept (m.insert (H.getKey x) x) := by
  have hnot : x ∉ items (cells (H.slot t.numBuckets (H.getKey x))) := by
    intro hmem
    have hthere := ((hl.stores.placed _ x).mp hmem).1
    rw [hx] at hthere
    cases hthere
  obtain ⟨l', h', happend, hholds, hlocal⟩ := (hl.holds _).append H.new hnot
  have hstores := hl.stores.append hx rfl
  rw [← items_singleton (H.new.addr t.heap) x, ← items_append] at hstores
  refine ⟨_, _, ?_, ?_, hl.replace hholds hlocal hstores t.numItems⟩
  · rw [HashTable.appendTo, bucket_eq (hl.slot_lt _), except_ok_bind, happend, except_ok_bind]
  · exact ⟨rfl, rfl⟩

variable {n : ℕ} {old : ℕ → LinkedList} {left : ℕ → List (ℕ × T)}

/-- One item moves. -/
theorem Moving.step (hm : Moving H n t old left others kept m) {i a : ℕ} {x : T}
    {cs : List (ℕ × T)} (hi : left i = (a, x) :: cs) : ∃ l' h' t',
    (old i).removeFront t.heap = .ok (x, l', h') ∧
      HashTable.appendTo H { t with heap := h' } (H.slot t.numBuckets (H.getKey x)) x = .ok t' ∧
      SameSize t t' ∧
      Moving H n t' (Function.update old i l') (Function.update left i cs) others kept m := by
  have hholds := hm.holds i
  obtain ⟨cells, m₁, m₂, hl, hs, hdisjoint, hunion⟩ := hm
  rw [hi] at hholds
  obtain ⟨l', h', hfront, hholds', hlocal⟩ := hholds.removeFront
  -- The table without the element that was taken out of the old list.
  have hl' : Layout H { t with heap := h' } cells (Sum.elim others (Function.update old i l'))
      (Sum.elim kept (Function.update left i cs)) m₁ := by
    have hbank := hl.bank.update (i := .inr (.inr i)) hholds' (by simpa [hi] using hlocal)
    rw [Sum.update_elim_inr, Sum.update_elim_inr, Sum.update_elim_inr, Sum.update_elim_inr]
      at hbank
    exact ⟨hl.pos, hbank, hl.stores⟩
  have hitems : items (left i) = [] ++ x :: items cs := by rw [hi]; rfl
  have hx₂ : m₂.lookup (H.getKey x) = some x :=
    ((hs.placed i x).mp (by rw [hitems]; exact List.mem_cons_self)).1
  have hx₁ : m₁.lookup (H.getKey x) = none :=
    Finmap.lookup_eq_none.mpr fun hmem => hdisjoint _ hmem (Finmap.mem_of_lookup_eq_some hx₂)
  obtain ⟨t', cells', happend, hsize, hnew⟩ := hl'.append hx₁
  refine ⟨l', h', t', hfront, happend, ⟨hsize.1, hsize.2⟩, cells', _, _, hnew, ?_,
    disjoint_move hdisjoint, (union_move hdisjoint hx₂).trans hunion⟩
  rw [items_update]
  exact hs.erase hitems

theorem Moving.drain {i fuel : ℕ} {cs : List (ℕ × T)} (hm : Moving H n t old left others kept m)
    (hi : left i = cs) (hfuel : cs.length ≤ fuel) : ∃ t' l',
    HashTable.drain H fuel (old i) t = .ok t' ∧ SameSize t t' ∧
      Moving H n t' (Function.update old i l') (Function.update left i []) others kept m := by
  induction cs generalizing t old left fuel with
  | nil =>
    have hempty : (old i).isEmpty = true := (hm.holds i).isEmpty_iff.mpr hi
    refine ⟨t, old i, ?_, ⟨rfl, rfl⟩, ?_⟩
    · cases fuel <;> rw [HashTable.drain, if_pos hempty]
    · rwa [Function.update_eq_self, ← hi, Function.update_eq_self]
  | cons c cs ih =>
    obtain ⟨a, x⟩ := c
    obtain ⟨fuel, rfl, hleft⟩ := fuel_cons hfuel
    have hempty : ¬(old i).isEmpty = true := by
      rw [(hm.holds i).isEmpty_iff, hi]
      exact List.cons_ne_nil _ _
    obtain ⟨l', h', t', hfront, happend, hsize, hm'⟩ := hm.step hi
    obtain ⟨t'', l'', hdrain, hsize', hm''⟩ :=
      ih hm' (Function.update_self ..) hleft
    rw [Function.update_self] at hdrain
    rw [Function.update_idem, Function.update_idem] at hm''
    refine ⟨t'', l'', ?_, ⟨hsize'.1.trans hsize.1, hsize'.2.trans hsize.2⟩, hm''⟩
    rw [HashTable.drain, if_neg hempty, hfront, except_ok_bind]
    dsimp only
    rw [hashValue_eq (t := { t with heap := h' }) hm.pos, except_ok_bind, happend, except_ok_bind,
      hdrain]

theorem Moving.drainAll {is : List ℕ} (hm : Moving H n t old left others kept m)
    (hnodup : is.Nodup) (lists : ℕ → LinkedList) (hsame : ∀ i ∈ is, lists i = old i) :
    ∃ t' old' left',
      is.foldlM (fun t' i => HashTable.drain H t'.heap.keys.length (lists i) t') t = .ok t' ∧
      SameSize t t' ∧ Moving H n t' old' left' others kept m ∧
      (∀ i ∈ is, left' i = []) ∧ ∀ i ∉ is, left' i = left i := by
  induction is generalizing t old left with
  | nil => exact ⟨t, old, left, rfl, ⟨rfl, rfl⟩, hm, by simp, fun _ _ => rfl⟩
  | cons i is ih =>
    obtain ⟨hi, hnodup⟩ := List.nodup_cons.mp hnodup
    obtain ⟨hfirst, hsame⟩ := List.forall_mem_cons.mp hsame
    obtain ⟨t', l', hdrain, hsize, hm'⟩ := hm.drain rfl (hm.holds i).length_le
    have hne : ∀ j ∈ is, j ≠ i := by
      rintro j hj rfl
      exact hi hj
    obtain ⟨t'', old'', left'', hfold, hsize', hm'', hempty, hrest⟩ := ih hm' hnodup
      fun j hj => by rw [hsame j hj, Function.update_of_ne (hne j hj)]
    refine ⟨t'', old'', left'', ?_, ⟨hsize'.1.trans hsize.1, hsize'.2.trans hsize.2⟩, hm'', ?_, ?_⟩
    · rw [List.foldlM_cons, hfirst, hdrain, except_ok_bind, hfold]
    · refine List.forall_mem_cons.mpr ⟨?_, hempty⟩
      rw [hrest i hi, Function.update_self]
    · intro j hj
      obtain ⟨hji, hj⟩ := not_or.mp (List.mem_cons.not.mp hj)
      rw [hrest j hj, Function.update_of_ne hji]

theorem Layout.reHash (hl : Layout H t cells others kept m) (hcount : t.numItems = m.keys.card) :
    ∃ t' cells', t.reHash H = .ok t' ∧ t'.numItems = t.numItems ∧
      Layout H t' cells' others kept m := by
  have hsz : 0 < t.numBuckets * increaseSizeBy := Nat.mul_pos hl.pos (by decide)
  obtain ⟨t', old', left', hfold, hsize, hm, hempty, -⟩ :=
    (hl.moving hsz).drainAll (List.nodup_range (n := t.numBuckets)) t.buckets fun _ _ => rfl
  obtain ⟨cells', hl'⟩ := hm.finish hl.pos fun i hi => hempty i (List.mem_range.mpr hi)
  have hitems : t'.numItems = t.numItems := hsize.2
  refine ⟨t', cells', ?_, hitems, hl'⟩
  rw [HashTable.reHash, hl.sanityCheck hcount, except_ok_bind, hfold, except_ok_bind,
    hl'.sanityCheck (hitems.trans hcount), except_ok_bind]

theorem Layout.grow (hl : Layout H t cells others kept m) (hcount : t.numItems = m.keys.card) :
    ∃ t' cells', t.grow H = .ok t' ∧ t'.numItems = t.numItems ∧
      Layout H t' cells' others kept m := by
  unfold HashTable.grow
  split_ifs
  · exact hl.reHash hcount
  · exact ⟨t, cells, rfl, rfl, hl⟩

theorem Layout.insert (hl : Layout H t cells others kept m) (hcount : t.numItems = m.keys.card)
    {x : T} (hx : m.lookup (H.getKey x) = none) : ∃ t' cells', t.insert H x = .ok t' ∧
      t'.numItems = (m.insert (H.getKey x) x).keys.card ∧
      Layout H t' cells' others kept (m.insert (H.getKey x) x) := by
  obtain ⟨t₁, cells₁, hgrow, hitems, hl₁⟩ := hl.grow hcount
  obtain ⟨t₂, cells₂, happend, hsize, hl₂⟩ := hl₁.append hx
  have hl₃ : Layout H { t₂ with numItems := t₂.numItems + 1 } cells₂ others kept
      (m.insert (H.getKey x) x) := ⟨hl₂.pos, hl₂.bank, hl₂.stores⟩
  refine ⟨_, cells₂, ?_, ?_, hl₃⟩
  · rw [HashTable.insert, hl.isInTable, except_ok_bind, assert_ok (by rw [hx]; rfl),
      except_ok_bind, hgrow, except_ok_bind, hashValue_eq hl₁.pos, except_ok_bind, happend,
      except_ok_bind]
    dsimp only
    rw [hl₃.isInTable, except_ok_bind, assert_ok (by rw [Finmap.lookup_insert]; rfl),
      except_ok_bind]
  · rw [card_insert hx]
    push_cast
    rw [hsize.numItems, hitems, hcount]

theorem Layout.remove (hl : Layout H t cells others kept m) (hcount : t.numItems = m.keys.card)
    {key : Key} {x : T} (hx : m.lookup key = some x) : ∃ t' cells', t.remove H key = .ok (x, t') ∧
      t'.numItems = (m.erase key).keys.card ∧ Layout H t' cells' others kept (m.erase key) := by
  obtain rfl := hl.stores.keyed key x hx
  have hmem : x ∈ items (cells (H.slot t.numBuckets (H.getKey x))) :=
    (hl.stores.placed _ x).mpr ⟨hx, rfl⟩
  obtain ⟨c, hc, rfl⟩ := List.mem_map.mp hmem
  obtain ⟨pre, rest, hsplit⟩ := List.append_of_mem hc
  -- The item is in its list once.
  have hnodup := (hl.stores.nodup (H.slot t.numBuckets (H.getKey c.2))).of_map
  rw [hsplit, items_append, items_cons, List.nodup_middle, List.nodup_cons, List.mem_append,
    not_or] at hnodup
  have hholds := hl.holds (H.slot t.numBuckets (H.getKey c.2))
  rw [hsplit] at hholds
  obtain ⟨l', h', hremove, hholds', hlocal⟩ := hholds.remove hnodup.1.1 hnodup.1.2
  have hstores := hl.stores.erase (x := c.2) (i := H.slot t.numBuckets (H.getKey c.2))
    (by rw [hsplit, items_append, items_cons])
  rw [← items_append] at hstores
  have hl' := hl.replace hholds' (hsplit ▸ hlocal) hstores (t.numItems - 1)
  refine ⟨_, _, ?_, ?_, hl'⟩
  · rw [HashTable.remove, hashValue_eq hl.pos, except_ok_bind, hl.findInBucket, except_ok_bind, hx]
    dsimp only
    rw [bucket_eq (hl.slot_lt _), except_ok_bind, hremove, except_ok_bind, hl'.isInTable,
      except_ok_bind, assert_ok (by rw [Finmap.lookup_erase]; rfl), except_ok_bind]
  · have := card_erase hx
    dsimp only
    omega

end Changing
end Nachos
