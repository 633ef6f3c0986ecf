import Nachos.Lib.LinkedCells
import Nachos.Lib.Programs

namespace Nachos
open LinkedCells Programs

inductive ListFault where
  | assert
  /-- A null pointer, or one to an element that was deleted. -/
  | dangling
  | endless
  deriving DecidableEq, Repr

def assert (p : Prop) [Decidable p] : Except ListFault Unit :=
  if p then .ok () else .error .assert

structure LinkedList where
  first : Option ℕ
  last : Option ℕ
  numInList : Int
  deriving DecidableEq, Repr

section Pointers
variable {T : Type}

def deref (h : Heap T) (p : Option ℕ) : Except ListFault (Cell T) :=
  match p.bind h.lookup with
  | some c => .ok c
  | none => .error .dangling

def setNext (h : Heap T) (p next : Option ℕ) : Except ListFault (Heap T) :=
  match p with
  | none => .error .dangling
  | some a => do
    let c ← deref h (some a)
    .ok (h.insert a ⟨c.item, next⟩)

def delete (h : Heap T) (p : Option ℕ) : Except ListFault (Heap T) :=
  match p with
  | none => .ok h
  | some a => do
    let _ ← deref h (some a)
    .ok (h.erase a)

theorem assert_ok {p : Prop} [Decidable p] (hp : p) : assert p = .ok () := if_pos hp

variable {h : Heap T} {a : ℕ} {c : Cell T}

theorem deref_some (hc : h.lookup a = some c) : deref h (some a) = .ok c := by
  simp only [deref, Option.bind_some, hc]

theorem setNext_some (hc : h.lookup a = some c) (next : Option ℕ) :
    setNext h (some a) next = .ok (h.insert a ⟨c.item, next⟩) := by
  simp only [setNext, deref_some hc, except_ok_bind]

theorem delete_some (hc : h.lookup a = some c) : delete h (some a) = .ok (h.erase a) := by
  simp only [delete, deref_some hc, except_ok_bind]

end Pointers

theorem fuel_cons {α : Type} {x : α} {l : List α} {n : ℕ} (hn : (x :: l).length ≤ n) :
    ∃ k, n = k + 1 ∧ l.length ≤ k := by
  cases n with
  | zero => cases hn
  | succ k => exact ⟨k, rfl, Nat.le_of_succ_le_succ hn⟩

namespace LinkedList

def empty : LinkedList := ⟨none, none, 0⟩

def isEmpty (l : LinkedList) : Bool := l.numInList == 0

variable {T : Type}

def putLast (l : LinkedList) (h : Heap T) (element : ℕ) : Except ListFault (LinkedList × Heap T) :=
  if l.isEmpty then .ok (⟨some element, some element, l.numInList⟩, h)
  else do
    let h ← setNext h l.last (some element)
    .ok ({ l with last := some element }, h)

def putFirst (l : LinkedList) (h : Heap T) (element : ℕ) :
    Except ListFault (LinkedList × Heap T) :=
  if l.isEmpty then .ok (⟨some element, some element, l.numInList⟩, h)
  else do
    let h ← setNext h (some element) l.first
    .ok ({ l with first := some element }, h)

def removeFront (l : LinkedList) (h : Heap T) : Except ListFault (T × LinkedList × Heap T) := do
  assert (l.isEmpty = false)
  let c ← deref h l.first
  let l' : LinkedList := if l.first = l.last then ⟨none, none, l.numInList⟩
    else { l with first := c.next }
  let h ← delete h l.first
  .ok (c.item, { l' with numInList := l'.numInList - 1 }, h)

def sanityLoop (l : LinkedList) (h : Heap T) : ℕ → Int → Option ℕ → Except ListFault Int
  | 0, numFound, ptr => if ptr = l.last then .ok numFound else .error .endless
  | n + 1, numFound, ptr =>
    if ptr = l.last then .ok numFound
    else do
      assert (numFound + 1 ≤ l.numInList)
      let c ← deref h ptr
      sanityLoop l h n (numFound + 1) c.next

def sanityCheck (l : LinkedList) (h : Heap T) : Except ListFault Unit :=
  if l.first = none then assert (l.numInList = 0 ∧ l.last = none)
  else if l.first = l.last then do
    assert (l.numInList = 1)
    let c ← deref h l.last
    assert (c.next = none)
  else do
    let numFound ← l.sanityLoop h h.keys.length 1 l.first
    assert (numFound = l.numInList)
    let c ← deref h l.last
    assert (c.next = none)

variable [DecidableEq T]

def isInListFrom (h : Heap T) (item : T) : ℕ → Option ℕ → Except ListFault Bool
  | _, none => .ok false
  | 0, some _ => .error .endless
  | n + 1, some a => do
    let c ← deref h (some a)
    if item = c.item then .ok true else isInListFrom h item n c.next

def isInList (l : LinkedList) (h : Heap T) (item : T) : Except ListFault Bool :=
  isInListFrom h item h.keys.length l.first

def append (new : Allocator T) (l : LinkedList) (h : Heap T) (item : T) :
    Except ListFault (LinkedList × Heap T) := do
  let element := new.addr h
  let h := h.insert element ⟨item, none⟩
  let found ← l.isInList h item
  assert (found = false)
  let r ← l.putLast h element
  let l := { r.1 with numInList := r.1.numInList + 1 }
  let found ← l.isInList r.2 item
  assert (found = true)
  .ok (l, r.2)

def prepend (new : Allocator T) (l : LinkedList) (h : Heap T) (item : T) :
    Except ListFault (LinkedList × Heap T) := do
  let element := new.addr h
  let h := h.insert element ⟨item, none⟩
  let found ← l.isInList h item
  assert (found = false)
  let r ← l.putFirst h element
  let l := { r.1 with numInList := r.1.numInList + 1 }
  let found ← l.isInList r.2 item
  assert (found = true)
  .ok (l, r.2)

/-- The loop of `Remove`, with the `ASSERT` behind it. -/
def removeAfter (l : LinkedList) (h : Heap T) (item : T) :
    ℕ → Option ℕ → Option ℕ → Except ListFault (LinkedList × Heap T)
  | _, _, none => .error .assert
  | 0, _, some _ => .error .endless
  | n + 1, prev, some ptr => do
    let c ← deref h (some ptr)
    if item = c.item then do
      let h ← setNext h prev c.next
      let h ← delete h (some ptr)
      .ok (⟨l.first, if c.next = none then prev else l.last, l.numInList - 1⟩, h)
    else removeAfter l h item n (some ptr) c.next

def remove (l : LinkedList) (h : Heap T) (item : T) : Except ListFault (LinkedList × Heap T) := do
  let found ← l.isInList h item
  assert (found = true)
  let c ← deref h l.first
  let r ← if item = c.item then do
      let removed ← l.removeFront h
      assert (item = removed.1)
      .ok removed.2
    else l.removeAfter h item h.keys.length l.first c.next
  let found ← r.1.isInList r.2 item
  assert (found = false)
  .ok r

end LinkedList

structure ListIterator where
  current : Option ℕ
  deriving DecidableEq, Repr

namespace ListIterator
variable {T : Type}

def isDone (it : ListIterator) : Bool := it.current.isNone

def item (it : ListIterator) (h : Heap T) : Except ListFault T := do
  assert (it.isDone = false)
  let c ← deref h it.current
  .ok c.item

def next (it : ListIterator) (h : Heap T) : Except ListFault ListIterator := do
  let c ← deref h it.current
  .ok ⟨c.next⟩

/-- The items from here on, as the loop `for (; !it.IsDone(); it.Next())` sees them. -/
def toList (h : Heap T) : ℕ → ListIterator → Except ListFault (List T)
  | 0, it => if it.isDone then .ok [] else .error .endless
  | n + 1, it =>
    if it.isDone then .ok []
    else do
      let x ← it.item h
      let it ← it.next h
      let xs ← toList h n it
      .ok (x :: xs)

variable {h : Heap T} {p : Option ℕ} {a : ℕ} {x : T}

theorem item_some (hx : h.lookup a = some ⟨x, p⟩) : (⟨some a⟩ : ListIterator).item h = .ok x := by
  simp [item, isDone, assert_ok, deref_some hx, except_ok_bind]

theorem next_some (hx : h.lookup a = some ⟨x, p⟩) :
    (⟨some a⟩ : ListIterator).next h = .ok ⟨p⟩ := by
  simp [next, deref_some hx, except_ok_bind]

end ListIterator

def LinkedList.iterator (l : LinkedList) : ListIterator := ⟨l.first⟩

def LinkedList.toList {T : Type} (l : LinkedList) (h : Heap T) : Except ListFault (List T) :=
  l.iterator.toList h h.keys.length

/-- From `first` the elements `cells` follow each other up to `last`. -/
structure Holds {T : Type} (h : Heap T) (l : LinkedList) (cells : List (ℕ × T)) : Prop where
  linked : Linked h l.first cells none
  last : l.last = (addresses cells).getLast?
  count : l.numInList = cells.length
  nodup : (addresses cells).Nodup

namespace Holds
variable {T : Type} {h h' : Heap T} {l : LinkedList} {cells cells' other : List (ℕ × T)}

theorem empty (h : Heap T) : Holds h .empty [] := ⟨rfl, rfl, rfl, List.nodup_nil⟩

theorem isEmpty_iff (hl : Holds h l cells) : l.isEmpty = true ↔ cells = [] := by
  simp [LinkedList.isEmpty, hl.count]

theorem length_le (hl : Holds h l cells) : cells.length ≤ h.keys.length :=
  hl.linked.length_le hl.nodup

theorem frame (hl : Holds h l other) (hloc : Local h h' cells cells')
    (hapart : (addresses cells).Disjoint (addresses other)) : Holds h' l other :=
  { hl with linked := hloc.linked hl.linked hapart }

theorem insert_fresh (hl : Holds h l cells) {a : ℕ} (ha : a ∉ h) (c : Cell T) :
    Holds (h.insert a c) l cells := by
  refine { hl with linked := hl.linked.congr fun b hb => AList.lookup_insert_ne ?_ }
  rintro rfl
  exact ha (hl.linked.mem hb)

theorem sanityLoop_eq {n : ℕ} {numFound : Int} {p : Option ℕ} (hl : Linked h p cells none)
    (hlast : l.last = (addresses cells).getLast?) (hnodup : (addresses cells).Nodup)
    (hne : cells ≠ []) (hcount : numFound + cells.length = l.numInList + 1)
    (hn : cells.length ≤ n + 1) : l.sanityLoop h n numFound p = .ok l.numInList := by
  induction cells generalizing n numFound p with
  | nil => exact absurd rfl hne
  | cons c cells ih =>
    obtain ⟨a, x⟩ := c
    obtain ⟨rfl, next, hc, hrest⟩ := hl
    cases cells with
    | nil =>
      have hlast' : some a = l.last := hlast.symm
      have hfound : numFound = l.numInList := by simpa using hcount
      cases n <;> simp [LinkedList.sanityLoop, hlast', hfound]
    | cons d cells =>
      obtain ⟨m, rfl⟩ : ∃ m, n = m + 1 := ⟨n - 1, by simp at hn; omega⟩
      rw [addresses_cons, List.getLast?_cons_of_ne_nil (by simp [addresses])] at hlast
      obtain ⟨ha, hnodup⟩ := List.nodup_cons.mp hnodup
      -- The last element is behind this one.
      have hnot : some a ≠ l.last := by
        intro heq
        exact ha (List.mem_of_getLast? (hlast.symm.trans heq.symm))
      simp only [List.length_cons, Nat.cast_add, Nat.cast_one] at hcount hn
      rw [LinkedList.sanityLoop, if_neg hnot, assert_ok (by omega), except_ok_bind, deref_some hc,
        except_ok_bind]
      exact ih hrest hlast hnodup (by simp) (by simp; omega) (by simp; omega)

theorem last_next (hl : Holds h l cells) (hne : cells ≠ []) :
    ∃ c, deref h l.last = .ok c ∧ c.next = none := by
  obtain ⟨pre, ⟨a, x⟩, rfl⟩ := (List.eq_nil_or_concat' cells).resolve_left hne
  obtain ⟨-, -, -, next, hc, hnext⟩ := linked_append.mp hl.linked
  have hlast : l.last = some a := by simpa using hl.last
  exact ⟨⟨x, next⟩, by rw [hlast, deref_some hc], hnext⟩

theorem sanityCheck (hl : Holds h l cells) : l.sanityCheck h = .ok () := by
  have hcount := hl.count
  have hlast := hl.last
  have hlinked := hl.linked
  unfold LinkedList.sanityCheck
  cases cells with
  | nil =>
    have hfirst : l.first = none := hlinked
    rw [if_pos hfirst]
    exact assert_ok ⟨hcount, hlast⟩
  | cons c cells =>
    obtain ⟨d, hd, hnext⟩ := hl.last_next (List.cons_ne_nil c cells)
    obtain ⟨hfirst, -⟩ := hlinked
    rw [if_neg (by simp [hfirst]), hd]
    split_ifs with hone
    · have hcells : cells = [] := by
        by_contra hne
        have hmem : c.1 ∈ addresses cells := by
          rw [hfirst, hlast, addresses, List.map_cons,
            List.getLast?_cons_of_ne_nil (by simpa using hne)] at hone
          exact List.mem_of_getLast? hone.symm
        exact (List.nodup_cons.mp hl.nodup).1 hmem
      rw [assert_ok (by rw [hcount, hcells]; rfl), except_ok_bind, except_ok_bind]
      exact assert_ok hnext
    · rw [sanityLoop_eq hl.linked hlast hl.nodup (List.cons_ne_nil c cells) (by omega)
        (by have := hl.length_le; omega), except_ok_bind, assert_ok rfl, except_ok_bind,
        except_ok_bind]
      exact assert_ok hnext

theorem toList_iterator {n : ℕ} {p : Option ℕ} (hl : Linked h p cells none)
    (hn : cells.length ≤ n) : (⟨p⟩ : ListIterator).toList h n = .ok (items cells) := by
  induction cells generalizing n p with
  | nil =>
    obtain rfl : p = none := hl
    cases n <;> rfl
  | cons c cells ih =>
    obtain ⟨rfl, next, hc, hrest⟩ := hl
    obtain ⟨m, rfl, hm⟩ := fuel_cons hn
    rw [ListIterator.toList, if_neg (by simp [ListIterator.isDone]), ListIterator.item_some hc,
      except_ok_bind, ListIterator.next_some hc, except_ok_bind, ih hrest hm,
      except_ok_bind]
    rfl

theorem toList (hl : Holds h l cells) : l.toList h = .ok (items cells) :=
  toList_iterator hl.linked hl.length_le

variable {a : ℕ} {x : T}

theorem removeFront (hl : Holds h l ((a, x) :: cells)) : ∃ l' h',
    l.removeFront h = .ok (x, l', h') ∧ Holds h' l' cells ∧ Local h h' ((a, x) :: cells) cells := by
  obtain ⟨hfirst, next, hc, hrest⟩ := hl.linked
  obtain ⟨ha, hnodup⟩ := List.nodup_cons.mp hl.nodup
  have hsame : ∀ b, b ≠ a → (h.erase a).lookup b = h.lookup b :=
    fun b hb => AList.lookup_erase_ne hb
  have hlinked : Linked (h.erase a) next cells none := by
    refine hrest.congr fun b hb => hsame b ?_
    rintro rfl
    exact ha hb
  have hempty : l.isEmpty = false := by
    rw [← Bool.not_eq_true, hl.isEmpty_iff]
    exact List.cons_ne_nil _ _
  have hlocal : Local h (h.erase a) ((a, x) :: cells) cells := by
    refine ⟨fun b _ hb => hsame b ?_, fun b hb => .inl (List.mem_cons_of_mem _ hb)⟩
    rintro rfl
    exact hb List.mem_cons_self
  have hcount : l.numInList - 1 = cells.length := by
    rw [hl.count]
    simp
  have hlast := hl.last
  unfold LinkedList.removeFront
  rw [assert_ok hempty, except_ok_bind, hfirst, deref_some hc, except_ok_bind, delete_some hc,
    except_ok_bind]
  cases cells with
  | nil =>
    have hone : some a = l.last := hlast.symm
    rw [if_pos hone]
    exact ⟨_, _, rfl, ⟨rfl, rfl, hcount, List.nodup_nil⟩, hlocal⟩
  | cons d cells =>
    rw [addresses_cons, List.getLast?_cons_of_ne_nil (by simp [addresses])] at hlast
    rw [if_neg fun heq => ha (List.mem_of_getLast? (hlast.symm.trans heq.symm))]
    exact ⟨_, _, rfl, ⟨hlinked, hlast, hcount, hnodup⟩, hlocal⟩

theorem grown (hl : Holds h l cells) (ha : a ∉ h) (hcells : cells'.Perm ((a, x) :: cells)) :
    l.numInList + 1 = cells'.length ∧ (addresses cells').Nodup := by
  have hnot : a ∉ addresses cells := fun hmem => ha (hl.linked.mem hmem)
  constructor
  · rw [hl.count, hcells.length_eq, List.length_cons, Nat.cast_add, Nat.cast_one]
  · rw [addresses, (hcells.map Prod.fst).nodup_iff]
    exact List.nodup_cons.mpr ⟨hnot, hl.nodup⟩

theorem put_empty (hl : Holds h l []) (ha : a ∉ h) :
    Holds (h.insert a ⟨x, none⟩) ⟨some a, some a, l.numInList + 1⟩ [(a, x)] ∧
      Local h (h.insert a ⟨x, none⟩) [] [(a, x)] := by
  obtain ⟨hcount, hnodup⟩ := hl.grown ha (List.Perm.refl [(a, x)])
  refine ⟨⟨⟨rfl, none, AList.lookup_insert _, rfl⟩, rfl, hcount, hnodup⟩, ?_⟩
  exact .of_fresh ha (List.Perm.refl _) fun c hca _ => AList.lookup_insert_ne hca

theorem put_first (hl : Holds h l cells) (hne : cells ≠ []) (ha : a ∉ h) :
    Holds (h.insert a ⟨x, l.first⟩) ⟨some a, l.last, l.numInList + 1⟩ ((a, x) :: cells) ∧
      Local h (h.insert a ⟨x, l.first⟩) cells ((a, x) :: cells) := by
  obtain ⟨hcount, hnodup⟩ := hl.grown ha (List.Perm.refl ((a, x) :: cells))
  refine ⟨⟨hl.linked.cons_fresh ha x, ?_, hcount, hnodup⟩, ?_⟩
  · rw [addresses_cons, List.getLast?_cons_of_ne_nil (by simpa [addresses] using hne)]
    exact hl.last
  · exact .of_fresh ha (List.Perm.refl _) fun c hca _ => AList.lookup_insert_ne hca

theorem put_after {b : ℕ} {y : T} {pre rest : List (ℕ × T)} {next : Option ℕ}
    (hl : Holds h l (pre ++ (b, y) :: rest)) (ha : a ∉ h)
    (hnext : h.lookup b = some ⟨y, next⟩) :
    Holds ((h.insert a ⟨x, next⟩).insert b ⟨y, some a⟩)
        ⟨l.first, if next = none then some a else l.last, l.numInList + 1⟩
        (pre ++ (b, y) :: (a, x) :: rest) ∧
      Local h ((h.insert a ⟨x, next⟩).insert b ⟨y, some a⟩) (pre ++ (b, y) :: rest)
        (pre ++ (b, y) :: (a, x) :: rest) := by
  have hperm : (pre ++ (b, y) :: (a, x) :: rest).Perm ((a, x) :: (pre ++ (b, y) :: rest)) := by
    have hmiddle : (pre ++ [(b, y)] ++ (a, x) :: rest).Perm
        ((a, x) :: (pre ++ [(b, y)] ++ rest)) := List.perm_middle
    simpa using hmiddle
  obtain ⟨hcount, hnodup⟩ := hl.grown ha hperm
  refine ⟨⟨hl.linked.link hl.nodup ha hnext, ?_, hcount, hnodup⟩, ?_⟩
  · obtain ⟨-, -, -, next', hb, hrest⟩ := linked_append.mp hl.linked
    obtain rfl := next_eq hnext hb
    cases rest with
    | nil =>
      have hnone : next = none := hrest
      simp [hnone]
    | cons d rest =>
      obtain ⟨rfl, -⟩ := hrest
      simpa [addresses, List.getLast?_append, List.getLast?_cons_cons] using hl.last
  · refine .of_fresh ha hperm fun c hca hmem => ?_
    have hcb : c ≠ b := by
      rintro rfl
      exact hmem (by simp)
    rw [AList.lookup_insert_ne hcb, AList.lookup_insert_ne hca]

theorem putLast (hl : Holds h l cells) (ha : a ∉ h) : ∃ l' h',
    l.putLast (h.insert a ⟨x, none⟩) a = .ok (l', h') ∧
      Holds h' { l' with numInList := l'.numInList + 1 } (cells ++ [(a, x)]) ∧
      Local h h' cells (cells ++ [(a, x)]) := by
  have hempty := hl.isEmpty_iff
  unfold LinkedList.putLast
  rcases List.eq_nil_or_concat' cells with rfl | ⟨pre, ⟨b, y⟩, rfl⟩
  · rw [if_pos (hempty.mpr rfl)]
    exact ⟨_, _, rfl, hl.put_empty ha⟩
  · obtain ⟨-, -, -, next, hb, rfl⟩ := linked_append.mp hl.linked
    have hba : b ≠ a := by
      rintro rfl
      exact ha (mem_of_lookup hb)
    have hlast : l.last = some b := by simpa using hl.last
    rw [if_neg (by rw [hempty]; simp), hlast,
      setNext_some ((AList.lookup_insert_ne hba).trans hb), except_ok_bind, List.append_assoc]
    exact ⟨_, _, rfl, hl.put_after ha hb⟩

theorem putFirst (hl : Holds h l cells) (ha : a ∉ h) : ∃ l' h',
    l.putFirst (h.insert a ⟨x, none⟩) a = .ok (l', h') ∧
      Holds h' { l' with numInList := l'.numInList + 1 } ((a, x) :: cells) ∧
      Local h h' cells ((a, x) :: cells) := by
  have hempty := hl.isEmpty_iff
  unfold LinkedList.putFirst
  cases cells with
  | nil =>
    rw [if_pos (hempty.mpr rfl)]
    exact ⟨_, _, rfl, hl.put_empty ha⟩
  | cons c cells =>
    rw [if_neg (by rw [hempty]; simp), setNext_some (AList.lookup_insert _), except_ok_bind,
      AList.insert_insert]
    exact ⟨_, _, rfl, hl.put_first (List.cons_ne_nil c cells) ha⟩

theorem unlink {b : ℕ} {y : T} {pre rest : List (ℕ × T)} {next : Option ℕ}
    (hl : Holds h l (pre ++ (b, y) :: (a, x) :: rest)) (hnext : h.lookup a = some ⟨x, next⟩) :
    Holds ((h.insert b ⟨y, next⟩).erase a)
      ⟨l.first, if next = none then some b else l.last, l.numInList - 1⟩
      (pre ++ (b, y) :: rest) := by
  have hlink := hl.linked
  obtain ⟨-, -, -, -, -, -, next', ha, hrest⟩ := linked_append.mp hlink
  obtain rfl := next_eq hnext ha
  refine ⟨hlink.unlink hl.nodup hnext, ?_, ?_, ?_⟩
  · have hlast := hl.last
    cases rest with
    | nil =>
      have hnone : next = none := hrest
      simp [hnone]
    | cons d rest =>
      obtain ⟨rfl, -⟩ := hrest
      simpa [addresses, List.getLast?_append, List.getLast?_cons_cons] using hlast
  · have hcount := hl.count
    simp only [List.length_append, List.length_cons] at hcount ⊢
    push_cast at hcount ⊢
    omega
  · refine hl.nodup.sublist ?_
    simp

variable [DecidableEq T]

theorem isInListFrom_eq {n : ℕ} {p : Option ℕ} (hl : Linked h p cells none)
    (hn : cells.length ≤ n) (x : T) :
    LinkedList.isInListFrom h x n p = .ok (decide (x ∈ items cells)) := by
  induction cells generalizing n p with
  | nil =>
    obtain rfl : p = none := hl
    cases n <;> rfl
  | cons c cells ih =>
    obtain ⟨a, y⟩ := c
    obtain ⟨rfl, next, hc, hrest⟩ := hl
    obtain ⟨m, rfl, hm⟩ := fuel_cons hn
    rw [LinkedList.isInListFrom, deref_some hc, except_ok_bind, ih hrest hm]
    by_cases hxy : x = y
    · simp [hxy]
    · simp [hxy]

theorem isInList (hl : Holds h l cells) (x : T) :
    l.isInList h x = .ok (decide (x ∈ items cells)) :=
  isInListFrom_eq hl.linked hl.length_le x

/-- The check that a new item is not there yet; its element is in the heap already. -/
theorem isInList_new (hl : Holds h l cells) (ha : a ∉ h) (hx : x ∉ items cells) :
    l.isInList (h.insert a ⟨x, none⟩) x = .ok false := by
  rw [(hl.insert_fresh ha _).isInList, decide_eq_false hx]

theorem append (new : Allocator T) (hl : Holds h l cells) (hx : x ∉ items cells) : ∃ l' h',
    l.append new h x = .ok (l', h') ∧ Holds h' l' (cells ++ [(new.addr h, x)]) ∧
      Local h h' cells (cells ++ [(new.addr h, x)]) := by
  have hfresh := new.fresh h
  obtain ⟨l', h', hput, hholds, hlocal⟩ := hl.putLast (x := x) hfresh
  refine ⟨_, h', ?_, hholds, hlocal⟩
  unfold LinkedList.append
  dsimp only
  rw [hl.isInList_new hfresh hx, except_ok_bind, assert_ok rfl, except_ok_bind, hput,
    except_ok_bind]
  dsimp only
  rw [hholds.isInList, except_ok_bind, assert_ok (by simp), except_ok_bind]

theorem prepend (new : Allocator T) (hl : Holds h l cells) (hx : x ∉ items cells) : ∃ l' h',
    l.prepend new h x = .ok (l', h') ∧ Holds h' l' ((new.addr h, x) :: cells) ∧
      Local h h' cells ((new.addr h, x) :: cells) := by
  have hfresh := new.fresh h
  obtain ⟨l', h', hput, hholds, hlocal⟩ := hl.putFirst (x := x) hfresh
  refine ⟨_, h', ?_, hholds, hlocal⟩
  unfold LinkedList.prepend
  dsimp only
  rw [hl.isInList_new hfresh hx, except_ok_bind, assert_ok rfl, except_ok_bind, hput,
    except_ok_bind]
  dsimp only
  rw [hholds.isInList, except_ok_bind, assert_ok (by simp), except_ok_bind]

theorem removeAfter_eq {n b : ℕ} {y : T} {pre mid rest : List (ℕ × T)} {p : Option ℕ}
    (hl : Holds h l (pre ++ (b, y) :: (mid ++ (a, x) :: rest))) (hb : h.lookup b = some ⟨y, p⟩)
    (hx : x ∉ items mid) (hn : mid.length < n) : ∃ l' h',
    l.removeAfter h x n (some b) p = .ok (l', h') ∧
      Holds h' l' (pre ++ (b, y) :: (mid ++ rest)) ∧
      Local h h' (pre ++ (b, y) :: (mid ++ (a, x) :: rest)) (pre ++ (b, y) :: (mid ++ rest)) := by
  induction mid generalizing n b y pre p with
  | nil =>
    obtain ⟨m, rfl⟩ := Nat.exists_eq_add_of_lt hn
    obtain ⟨-, -, -, p', hb', rfl, next, ha, -⟩ := linked_append.mp hl.linked
    obtain rfl := next_eq hb hb'
    have hba : a ≠ b := by
      have := (List.nodup_append.mp (addresses_append .. ▸ hl.nodup)).2.1
      rintro rfl
      simp at this
    rw [LinkedList.removeAfter, deref_some ha, except_ok_bind, if_pos rfl, setNext_some hb,
      except_ok_bind, delete_some ((AList.lookup_insert_ne hba).trans ha), except_ok_bind]
    refine ⟨_, _, rfl, hl.unlink ha, fun c _ hmem => ?_, fun c hc => .inl ?_⟩
    · simp only [List.nil_append, addresses_append, addresses_cons, List.mem_append,
        List.mem_cons, not_or] at hmem
      rw [AList.lookup_erase_ne hmem.2.2.1, AList.lookup_insert_ne hmem.2.1]
    · simp only [List.nil_append, addresses_append, addresses_cons, List.mem_append,
        List.mem_cons] at hc ⊢
      tauto
  | cons c mid ih =>
    obtain ⟨m, rfl⟩ := Nat.exists_eq_add_of_lt hn
    obtain ⟨d, z⟩ := c
    obtain ⟨hxz, hx⟩ := not_or.mp (List.mem_cons.not.mp hx)
    obtain ⟨-, -, -, p', hb', rfl, next, hd, -⟩ := linked_append.mp hl.linked
    obtain rfl := next_eq hb hb'
    rw [LinkedList.removeAfter, deref_some hd, except_ok_bind, if_neg hxz]
    have hl' : Holds h l ((pre ++ [(b, y)]) ++ (d, z) :: (mid ++ (a, x) :: rest)) := by
      simpa using hl
    simpa using ih hl' hd hx (by omega)

/-- `Remove` of an item that is there once. -/
theorem remove {pre rest : List (ℕ × T)} (hl : Holds h l (pre ++ (a, x) :: rest))
    (hpre : x ∉ items pre) (hrest : x ∉ items rest) : ∃ l' h',
    l.remove h x = .ok (l', h') ∧ Holds h' l' (pre ++ rest) ∧
      Local h h' (pre ++ (a, x) :: rest) (pre ++ rest) := by
  -- Both ways end with the check that the item is gone.
  have hgone : ∀ {l' h'}, Holds h' l' (pre ++ rest) → l'.isInList h' x = .ok false := by
    intro l' h' hl'
    rw [hl'.isInList, decide_eq_false]
    simp [hpre, hrest]
  unfold LinkedList.remove
  rw [hl.isInList, except_ok_bind, assert_ok (by simp), except_ok_bind]
  cases pre with
  | nil =>
    obtain ⟨hfirst, next, hc, -⟩ := hl.linked
    obtain ⟨l', h', hremove, hholds, hlocal⟩ := hl.removeFront
    refine ⟨l', h', ?_, hholds, hlocal⟩
    rw [hfirst, deref_some hc, except_ok_bind, if_pos rfl, hremove, except_ok_bind,
      assert_ok rfl, except_ok_bind, except_ok_bind]
    dsimp only
    rw [hgone hholds, except_ok_bind, assert_ok rfl, except_ok_bind]
  | cons c pre =>
    obtain ⟨b, y⟩ := c
    obtain ⟨hfirst, next, hc, -⟩ := hl.linked
    obtain ⟨hxy, hpre⟩ := not_or.mp (List.mem_cons.not.mp hpre)
    have hfuel := hl.length_le
    simp only [List.cons_append, List.length_cons, List.length_append] at hfuel
    have hl' : Holds h l ([] ++ (b, y) :: (pre ++ (a, x) :: rest)) := hl
    obtain ⟨l', h', hremove, hholds, hlocal⟩ :=
      removeAfter_eq hl' hc hpre (n := h.keys.length) (by omega)
    refine ⟨l', h', ?_, hholds, hlocal⟩
    rw [hfirst, deref_some hc, except_ok_bind, if_neg hxy, hremove, except_ok_bind]
    dsimp only
    rw [hgone hholds, except_ok_bind, assert_ok rfl, except_ok_bind]

end Holds

structure Bank {ι T : Type} (h : Heap T) (lists : ι → LinkedList) (cells : ι → List (ℕ × T)) :
    Prop where
  holds : ∀ i, Holds h (lists i) (cells i)
  apart : ∀ i j, i ≠ j → (addresses (cells i)).Disjoint (addresses (cells j))

namespace Bank
variable {ι κ T : Type} {h h' : Heap T} {lists : ι → LinkedList} {cells : ι → List (ℕ × T)}

/-- An operation on one of the lists. -/
theorem update [DecidableEq ι] (hbank : Bank h lists cells) {i : ι} {l' : LinkedList}
    {cells' : List (ℕ × T)} (hl' : Holds h' l' cells') (hloc : Local h h' (cells i) cells') :
    Bank h' (Function.update lists i l') (Function.update cells i cells') := by
  have hother : ∀ j, j ≠ i → (addresses cells').Disjoint (addresses (cells j)) :=
    fun j hj => hloc.disjoint (hbank.holds j).linked (hbank.apart i j hj.symm)
  refine ⟨fun j => ?_, fun j k hjk => ?_⟩
  · by_cases hj : j = i
    · subst hj
      simpa using hl'
    · simpa [Function.update_of_ne hj] using
        (hbank.holds j).frame hloc (hbank.apart i j (Ne.symm hj))
  · by_cases hj : j = i
    · subst hj
      simpa [Function.update_of_ne hjk.symm] using hother k hjk.symm
    · by_cases hk : k = i
      · subst hk
        simpa [Function.update_of_ne hj] using (hother j hj).symm
      · simpa [Function.update_of_ne hj, Function.update_of_ne hk] using hbank.apart j k hjk

/-- Some of the lists, or the same ones in another order. -/
theorem comp (hbank : Bank h lists cells) {f : κ → ι} (hf : Function.Injective f) :
    Bank h (lists ∘ f) (cells ∘ f) :=
  ⟨fun k => hbank.holds (f k), fun k l hkl => hbank.apart (f k) (f l) (hf.ne hkl)⟩

/-- New lists beside those there are. -/
theorem with_empty (hbank : Bank h lists cells) :
    Bank h (Sum.elim (fun _ : κ => .empty) lists) (Sum.elim (fun _ => []) cells) := by
  refine ⟨?_, ?_⟩
  · rintro (k | i)
    · exact Holds.empty h
    · exact hbank.holds i
  · rintro (k | i) (l | j) hne
    · exact List.disjoint_nil_left _
    · exact List.disjoint_nil_left _
    · exact List.disjoint_nil_right _
    · exact hbank.apart i j fun heq => hne (congrArg Sum.inr heq)

end Bank
end Nachos
