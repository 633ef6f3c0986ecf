import Nachos.Lib.BitWords
import Mathlib.Data.Finset.Card

namespace Nachos

/-- The macro of utility.h. -/
def divRoundUp (n s : ℕ) : ℕ := n / s + if n % s > 0 then 1 else 0

def bitsInWord : ℕ := 32

/-- The storage always has a word for every bit. -/
structure Bitmap where
  numBits : ℕ
  map : List (BitVec bitsInWord)
  map_length : map.length = divRoundUp numBits bitsInWord

namespace Bitmap

def testBit (b : Bitmap) (which : ℕ) : Bool := BitWords.test b.map which

def markBit (b : Bitmap) (which : ℕ) : Bitmap :=
  { b with map := BitWords.mark b.map which, map_length := by simp [b.map_length] }

def clearBit (b : Bitmap) (which : ℕ) : Bitmap :=
  { b with map := BitWords.clear b.map which, map_length := by simp [b.map_length] }

/-- `Bitmap::Clear` with its two assertions; `none` is an abort. -/
def clear (b : Bitmap) (which : Int) : Option Bitmap :=
  if 0 ≤ which ∧ which < b.numBits then
    let b' := b.clearBit which.toNat
    if b'.testBit which.toNat then none else some b'
  else none

/-- The first clear bit, marked, or -1. -/
def findAndSet (b : Bitmap) : Bitmap × Int :=
  match (List.range b.numBits).find? fun i => !b.testBit i with
  | some i => (b.markBit i, i)
  | none => (b, -1)

def numClear (b : Bitmap) : ℕ :=
  (List.range b.numBits).foldl (fun count i => if !b.testBit i then count + 1 else count) 0

/-- The constructor zeroes the words and then clears every bit. -/
def new (numItems : ℕ) : Bitmap :=
  (List.range numItems).foldl clearBit
    ⟨numItems, List.replicate (divRoundUp numItems bitsInWord) 0, List.length_replicate ..⟩

def marked (b : Bitmap) : Finset ℕ := (Finset.range b.numBits).filter fun i => b.testBit i

theorem mem_marked {b : Bitmap} {i : ℕ} : i ∈ b.marked ↔ i < b.numBits ∧ b.testBit i = true := by
  simp [marked]

theorem div_lt_length (b : Bitmap) {i : ℕ} (h : i < b.numBits) :
    i / bitsInWord < b.map.length := by
  rw [b.map_length]
  unfold divRoundUp bitsInWord
  split_ifs <;> omega

theorem testBit_markBit {b : Bitmap} {i : ℕ} (h : i < b.numBits) (j : ℕ) :
    (b.markBit i).testBit j = (decide (j = i) || b.testBit j) :=
  BitWords.test_mark (by decide) (b.div_lt_length h) j

theorem testBit_clearBit {b : Bitmap} {i : ℕ} (h : i < b.numBits) (j : ℕ) :
    (b.clearBit i).testBit j = (!decide (j = i) && b.testBit j) :=
  BitWords.test_clear (by decide) (b.div_lt_length h) j

@[simp] theorem numBits_markBit (b : Bitmap) (i : ℕ) : (b.markBit i).numBits = b.numBits := rfl

@[simp] theorem numBits_clearBit (b : Bitmap) (i : ℕ) : (b.clearBit i).numBits = b.numBits := rfl

theorem marked_markBit (b : Bitmap) {i : ℕ} (h : i < b.numBits) :
    (b.markBit i).marked = insert i b.marked := by
  ext j
  simp only [mem_marked, Finset.mem_insert, testBit_markBit h, numBits_markBit, Bool.or_eq_true,
    decide_eq_true_eq]
  constructor
  · rintro ⟨hj, rfl | hj'⟩
    · exact .inl rfl
    · exact .inr ⟨hj, hj'⟩
  · rintro (rfl | ⟨hj, hj'⟩)
    · exact ⟨h, .inl rfl⟩
    · exact ⟨hj, .inr hj'⟩

theorem marked_clearBit (b : Bitmap) {i : ℕ} (h : i < b.numBits) :
    (b.clearBit i).marked = b.marked.erase i := by
  ext j
  simp only [mem_marked, Finset.mem_erase, testBit_clearBit h, numBits_clearBit,
    Bool.and_eq_true, Bool.not_eq_true', decide_eq_false_iff_not]
  tauto

/-- `Clear` aborts only on an index outside the bitmap. -/
theorem clear_eq_some {b : Bitmap} {i : ℕ} (h : i < b.numBits) :
    b.clear i = some (b.clearBit i) := by
  have hn : i ∉ (b.clearBit i).marked := by simp [marked_clearBit b h]
  rw [mem_marked] at hn
  have ht : (b.clearBit i).testBit i = false := by
    simpa [h] using hn
  simp [clear, h, ht]

theorem foldl_count (b : Bitmap) (l : List ℕ) (c : ℕ) :
    l.foldl (fun count i => if !b.testBit i then count + 1 else count) c =
      c + l.countP fun i => !b.testBit i := by
  induction l generalizing c with
  | nil => simp
  | cons i l ih =>
    rw [List.foldl_cons, ih, List.countP_cons]
    split_ifs <;> omega

theorem card_marked (b : Bitmap) :
    b.marked.card = (List.range b.numBits).countP fun i => b.testBit i := by
  have hm : b.marked = ((List.range b.numBits).filter fun i => b.testBit i).toFinset := by
    ext i
    simp [mem_marked]
  rw [List.countP_eq_length_filter, hm, List.toFinset_card_of_nodup (List.nodup_range.filter _)]

theorem numClear_eq (b : Bitmap) : b.numClear = b.numBits - b.marked.card := by
  have hsplit : (List.range b.numBits).length = (List.range b.numBits).countP
      (fun i => b.testBit i) + (List.range b.numBits).countP fun i => !b.testBit i := by
    simpa using List.length_eq_countP_add_countP (fun i => b.testBit i) (l := List.range b.numBits)
  rw [List.length_range] at hsplit
  rw [numClear, foldl_count, card_marked]
  omega

/-- A bit that is not marked is found, the least one first. -/
theorem findAndSet_of_clear {b : Bitmap} {i : ℕ} (hi : i < b.numBits) (hc : i ∉ b.marked) :
    ∃ f, f ≤ i ∧ f ∉ b.marked ∧ (∀ j < f, j ∈ b.marked) ∧
      b.findAndSet = (b.markBit f, (f : Int)) := by
  have hti : b.testBit i = false := by simpa [mem_marked, hi] using hc
  unfold findAndSet
  cases hf : (List.range b.numBits).find? fun i => !b.testBit i with
  | none =>
    have := List.find?_range_eq_none.mp hf i hi
    simp [hti] at this
  | some f =>
    obtain ⟨htf, hfr, hlt⟩ := List.find?_range_eq_some.mp hf
    have hfn : f < b.numBits := List.mem_range.mp hfr
    refine ⟨f, ?_, ?_, ?_, rfl⟩
    · by_contra hcon
      have := hlt i (by omega)
      simp [hti] at this
    · simpa [mem_marked, hfn] using htf
    · intro j hj
      exact mem_marked.mpr ⟨by omega, by simpa using hlt j hj⟩

/-- With a clear bit left, `FindAndSet` marks one bit that was clear. -/
theorem findAndSet_of_numClear {b : Bitmap} (h : 0 < b.numClear) :
    ∃ f, f < b.numBits ∧ f ∉ b.marked ∧ (∀ j < f, j ∈ b.marked) ∧
      b.findAndSet = (b.markBit f, (f : Int)) := by
  have hex : ∃ i ∈ Finset.range b.numBits, i ∉ b.marked := by
    by_contra! hcon
    have hle := Finset.card_le_card (s := Finset.range b.numBits) hcon
    rw [numClear_eq] at h
    rw [Finset.card_range] at hle
    omega
  obtain ⟨i, hi, hc⟩ := hex
  obtain ⟨f, hfi, hfc, hlt, hfe⟩ := findAndSet_of_clear (Finset.mem_range.mp hi) hc
  exact ⟨f, lt_of_le_of_lt hfi (Finset.mem_range.mp hi), hfc, hlt, hfe⟩

theorem marked_card_le (b : Bitmap) : b.marked.card ≤ b.numBits := by
  have := Finset.card_le_card (show b.marked ⊆ Finset.range b.numBits from
    Finset.filter_subset ..)
  simpa using this

theorem numClear_markBit {b : Bitmap} {f : ℕ} (hf : f < b.numBits) (hc : f ∉ b.marked) :
    b.numClear = (b.markBit f).numClear + 1 := by
  have hcard := (b.markBit f).marked_card_le
  rw [marked_markBit b hf, Finset.card_insert_of_notMem hc, numBits_markBit] at hcard
  rw [numClear_eq, numClear_eq, marked_markBit b hf,
    Finset.card_insert_of_notMem hc, numBits_markBit]
  omega

theorem numBits_foldl_clearBit (l : List ℕ) (b : Bitmap) :
    (l.foldl clearBit b).numBits = b.numBits := by
  induction l generalizing b with
  | nil => rfl
  | cons i l ih => rw [List.foldl_cons, ih, numBits_clearBit]

theorem marked_foldl_clearBit {l : List ℕ} {b : Bitmap} (hl : ∀ i ∈ l, i < b.numBits)
    (hb : b.marked = ∅) : (l.foldl clearBit b).marked = ∅ := by
  induction l generalizing b with
  | nil => exact hb
  | cons i l ih =>
    obtain ⟨hi, hl⟩ := List.forall_mem_cons.mp hl
    rw [List.foldl_cons]
    apply ih
    · exact hl
    · rw [marked_clearBit b hi, hb, Finset.erase_empty]

@[simp] theorem numBits_new (n : ℕ) : (new n).numBits = n := by
  rw [new, numBits_foldl_clearBit]

@[simp] theorem marked_new (n : ℕ) : (new n).marked = ∅ := by
  apply marked_foldl_clearBit
  · exact fun i hi => List.mem_range.mp hi
  · ext i
    simp [mem_marked, testBit, BitWords.test_replicate_zero (show 0 < bitsInWord by decide)]

theorem numClear_new (n : ℕ) : (new n).numClear = n := by
  rw [numClear_eq, marked_new, numBits_new, Finset.card_empty, Nat.sub_zero]

/-- Clearing a list of bits of the bitmap never aborts, and unmarks exactly those. -/
theorem foldlM_clear (l : List Int) (b : Bitmap) (hl : ∀ f ∈ l, ∃ i < b.numBits, f = (i : Int)) :
    ∃ b', l.foldlM clear b = some b' ∧ b'.numBits = b.numBits ∧
      ∀ i, i ∈ b'.marked ↔ i ∈ b.marked ∧ (i : Int) ∉ l := by
  induction l generalizing b with
  | nil => exact ⟨b, rfl, rfl, by simp⟩
  | cons f l ih =>
    obtain ⟨i, hi, rfl⟩ := hl f List.mem_cons_self
    obtain ⟨b', hb', hn, hm⟩ := ih (b.clearBit i) fun g hg => hl g (List.mem_cons_of_mem _ hg)
    refine ⟨b', ?_, hn, fun j => ?_⟩
    · rw [List.foldlM_cons, clear_eq_some hi]
      exact hb'
    · rw [hm, marked_clearBit b hi, Finset.mem_erase, List.mem_cons, Int.natCast_inj]
      tauto

/-- The bits that `FindAndSet` will return, first to last. -/
def freeList (b : Bitmap) : List ℕ := (List.range b.numBits).filter fun i => !b.testBit i

theorem mem_freeList {b : Bitmap} {i : ℕ} : i ∈ b.freeList ↔ i < b.numBits ∧ i ∉ b.marked := by
  simp only [freeList, List.mem_filter, List.mem_range, mem_marked, Bool.not_eq_true']
  constructor
  · rintro ⟨hi, ht⟩
    exact ⟨hi, by simp [ht]⟩
  · rintro ⟨hi, ht⟩
    exact ⟨hi, by simpa [hi] using ht⟩

theorem freeList_congr {b b' : Bitmap} (hbits : b.numBits = b'.numBits)
    (h : ∀ i, i ∈ b.marked ↔ i ∈ b'.marked) : b.freeList = b'.freeList := by
  rw [freeList, freeList, hbits]
  refine List.filter_congr fun i hi => ?_
  have hlt : i < b'.numBits := List.mem_range.mp hi
  have hmem := h i
  simp only [mem_marked, hbits, hlt, true_and] at hmem
  rw [Bool.eq_iff_iff.mpr hmem]

theorem nodup_freeList (b : Bitmap) : b.freeList.Nodup := List.nodup_range.filter _

theorem free_of_freeList {b : Bitmap} {f : ℕ} {l : List ℕ} (h : b.freeList = f :: l) :
    f < b.numBits ∧ f ∉ b.marked := mem_freeList.mp (h ▸ List.mem_cons_self)

theorem findAndSet_of_full {b : Bitmap} (h : b.freeList = []) : b.findAndSet = (b, -1) := by
  have hf : (List.range b.numBits).find? (fun i => !b.testBit i) = none := by
    rw [← List.head?_filter]
    exact congrArg List.head? h
  simp only [findAndSet, hf]

theorem findAndSet_of_freeList {b : Bitmap} {f : ℕ} {l : List ℕ} (h : b.freeList = f :: l) :
    b.findAndSet = (b.markBit f, (f : Int)) := by
  have hf : (List.range b.numBits).find? (fun i => !b.testBit i) = some f := by
    rw [← List.head?_filter]
    exact congrArg List.head? h
  simp only [findAndSet, hf]

theorem freeList_markBit {b : Bitmap} {f : ℕ} {l : List ℕ} (h : b.freeList = f :: l) :
    (b.markBit f).freeList = l := by
  have hf : f < b.numBits := (free_of_freeList h).1
  have hnd : f ∉ l ∧ l.Nodup := List.nodup_cons.mp (h ▸ b.nodup_freeList)
  calc (b.markBit f).freeList
      = b.freeList.filter fun i => !decide (i = f) := by
        simp only [freeList, List.filter_filter, numBits_markBit, testBit_markBit hf,
          Bool.not_or]
    _ = l := by
        rw [h, List.filter_cons_of_neg (by simp), List.filter_eq_self]
        rintro i hi
        simpa using fun (hif : i = f) => hnd.1 (hif ▸ hi)

theorem length_freeList (b : Bitmap) : b.freeList.length = b.numClear := by
  have hset : b.freeList.toFinset = Finset.range b.numBits \ b.marked := by
    ext i
    simp [mem_freeList]
  have hsub : b.marked ⊆ Finset.range b.numBits := Finset.filter_subset ..
  rw [← List.toFinset_card_of_nodup b.nodup_freeList, hset, Finset.card_sdiff_of_subset hsub,
    Finset.card_range, numClear_eq]

@[simp] theorem freeList_new (n : ℕ) : (new n).freeList = List.range n := by
  rw [freeList, numBits_new, List.filter_eq_self]
  intro i hi
  have : i ∉ (new n).marked := by simp
  rw [mem_marked, numBits_new] at this
  simpa [List.mem_range.mp hi] using this

end Bitmap
end Nachos
