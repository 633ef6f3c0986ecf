import Nachos.Bitmap
import Nachos.Lib.CallRuns

namespace Nachos

namespace Bitmap
open CallRuns

def test (b : Bitmap) (which : Int) : Option Bool :=
  if 0 ≤ which ∧ which < b.numBits then some (b.testBit which.toNat) else none

def mark (b : Bitmap) (which : Int) : Option Bitmap :=
  if 0 ≤ which ∧ which < b.numBits then do
    let b' := b.markBit which.toNat
    let marked ← b'.test which
    guard (marked = true)
    some b'
  else none

/-- The loop of `FindAndSet` with `n` rounds left. -/
def findLoop (b : Bitmap) : ℕ → ℕ → Option (Bitmap × Int)
  | 0, _ => some (b, -1)
  | n + 1, i => do
    let marked ← b.test i
    if marked then findLoop b n (i + 1)
    else do
      let b' ← b.mark i
      some (b', i)

def findAndSetLoop (b : Bitmap) : Option (Bitmap × Int) := b.findLoop b.numBits 0

/-- The loop of `NumClear` with `n` rounds left. -/
def countLoop (b : Bitmap) : ℕ → ℕ → ℕ → Option ℕ
  | 0, _, count => some count
  | n + 1, i, count => do
    let marked ← b.test i
    countLoop b n (i + 1) (if marked then count else count + 1)

def numClearLoop (b : Bitmap) : Option ℕ := b.countLoop b.numBits 0 0

def zeroes (numItems : ℕ) : List (BitVec bitsInWord) :=
  List.replicate (divRoundUp numItems bitsInWord) 0

theorem length_zeroes (numItems : ℕ) :
    (zeroes numItems).length = divRoundUp numItems bitsInWord := List.length_replicate ..

def zeroed (numItems : ℕ) : Bitmap := ⟨numItems, zeroes numItems, length_zeroes numItems⟩

/-- The constructor with its assertion and those of `Clear`. -/
def construct (numItems : Int) : Option Bitmap :=
  if 0 < numItems then
    (List.range numItems.toNat).foldlM (fun b (i : ℕ) => b.clear i) (zeroed numItems.toNat)
  else none

section Total
variable {b : Bitmap} {i f n : ℕ}

theorem test_eq (h : i < b.numBits) : b.test i = some (b.testBit i) := by
  simp [test, h]

theorem mark_eq (h : i < b.numBits) : b.mark i = some (b.markBit i) := by
  have ht : (b.markBit i).test i = some true := by
    rw [test_eq (by exact h), testBit_markBit h]
    simp
  simp [mark, h, ht]

theorem findLoop_of_full (hn : i + n ≤ b.numBits)
    (hfull : ∀ j, i ≤ j → j < i + n → b.testBit j = true) : b.findLoop n i = some (b, -1) := by
  induction n generalizing i with
  | zero => rfl
  | succ n ih =>
    have hi : b.testBit i = true := hfull i le_rfl (by omega)
    rw [findLoop, test_eq (by omega), hi]
    apply ih
    · omega
    · intro j hj hlt
      exact hfull j (by omega) (by omega)

theorem findLoop_of_clear (hn : i + n ≤ b.numBits) (hif : i ≤ f) (hfn : f < i + n)
    (hf : b.testBit f = false) (hlt : ∀ j, i ≤ j → j < f → b.testBit j = true) :
    b.findLoop n i = some (b.markBit f, (f : Int)) := by
  induction n generalizing i with
  | zero => omega
  | succ n ih =>
    rw [findLoop, test_eq (by omega)]
    rcases hif.eq_or_lt with rfl | hif
    · rw [hf, mark_eq (by omega)]
      rfl
    · rw [hlt i le_rfl hif]
      apply ih
      · omega
      · omega
      · omega
      · intro j hj hjf
        exact hlt j (by omega) hjf

theorem findAndSetLoop_eq (b : Bitmap) : b.findAndSetLoop = some b.findAndSet := by
  unfold findAndSetLoop findAndSet
  cases hf : (List.range b.numBits).find? fun i => !b.testBit i with
  | none =>
    have hfull := List.find?_range_eq_none.mp hf
    apply findLoop_of_full (by omega)
    intro j _ hj
    simpa using hfull j (by omega)
  | some f =>
    obtain ⟨hclear, hmem, hlt⟩ := List.find?_range_eq_some.mp hf
    have hfn : f < b.numBits := List.mem_range.mp hmem
    apply findLoop_of_clear (by omega) (by omega) (by omega)
    · simpa using hclear
    · intro j _ hj
      simpa using hlt j hj

theorem countLoop_eq (hn : i + n ≤ b.numBits) (count : ℕ) :
    b.countLoop n i count = some ((List.range' i n).foldl
      (fun count i => if !b.testBit i then count + 1 else count) count) := by
  induction n generalizing i count with
  | zero => rfl
  | succ n ih =>
    rw [countLoop, test_eq (by omega)]
    change b.countLoop n (i + 1) _ = _
    rw [ih (by omega), List.range'_succ, List.foldl_cons]
    cases b.testBit i <;> rfl

theorem numClearLoop_eq (b : Bitmap) : b.numClearLoop = some b.numClear := by
  rw [numClearLoop, countLoop_eq (by omega), numClear, List.range_eq_range']

end Total

/-- Every bit of every word says whether its number is in the set. -/
def HasBits (b : Bitmap) (s : Finset ℕ) : Prop :=
  ∀ k j, j < bitsInWord →
    (BitWords.word b.map k).getLsbD j = decide (bitsInWord * k + j ∈ s)

structure Marks (b : Bitmap) (s : Finset ℕ) : Prop where
  bits : ∀ i, b.testBit i = decide (i ∈ s)
  range : s ⊆ Finset.range b.numBits

namespace Marks
variable {b : Bitmap} {s : Finset ℕ} {f : ℕ}

theorem hasBits (hb : Marks b s) : b.HasBits s := by
  intro k j hj
  have hpos : 0 < bitsInWord := by decide
  have hword : (bitsInWord * k + j) / bitsInWord = k := by
    rw [Nat.mul_add_div hpos, Nat.div_eq_of_lt hj, Nat.add_zero]
  have hbit : (bitsInWord * k + j) % bitsInWord = j := by
    rw [Nat.mul_add_mod, Nat.mod_eq_of_lt hj]
  have htest := BitWords.test_eq hpos b.map (bitsInWord * k + j)
  rw [hword, hbit] at htest
  rw [← htest]
  exact hb.bits _

theorem marked_eq (hb : Marks b s) : b.marked = s := by
  ext i
  rw [mem_marked, hb.bits, decide_eq_true_eq]
  constructor
  · exact fun h => h.2
  · exact fun h => ⟨Finset.mem_range.mp (hb.range h), h⟩

theorem test {i : Int} (hb : Marks b s) (hnonneg : 0 ≤ i) (hlt : i < b.numBits) :
    b.test i = some (decide (i.toNat ∈ s)) := by
  rw [Bitmap.test, if_pos ⟨hnonneg, hlt⟩, hb.bits]

theorem markBit {i : ℕ} (hb : Marks b s) (h : i < b.numBits) :
    Marks (b.markBit i) (insert i s) where
  bits j := by
    rw [testBit_markBit h, hb.bits]
    simp
  range := Finset.insert_subset (Finset.mem_range.mpr h) hb.range

theorem clearBit {i : ℕ} (hb : Marks b s) (h : i < b.numBits) :
    Marks (b.clearBit i) (s.erase i) where
  bits j := by
    rw [testBit_clearBit h, hb.bits]
    simp
  range := (Finset.erase_subset i s).trans hb.range

/-- `Mark` adds the index to the set, and its last assertion holds. -/
theorem mark {i : Int} (hb : Marks b s) (hnonneg : 0 ≤ i) (hlt : i < b.numBits) :
    ∃ b', b.mark i = some b' ∧ b'.numBits = b.numBits ∧ Marks b' (insert i.toNat s) := by
  obtain ⟨k, rfl⟩ := Int.eq_ofNat_of_zero_le hnonneg
  have hk : k < b.numBits := by omega
  exact ⟨b.markBit k, mark_eq hk, rfl, hb.markBit hk⟩

theorem clear {i : Int} (hb : Marks b s) (hnonneg : 0 ≤ i) (hlt : i < b.numBits) :
    ∃ b', b.clear i = some b' ∧ b'.numBits = b.numBits ∧ Marks b' (s.erase i.toNat) := by
  obtain ⟨k, rfl⟩ := Int.eq_ofNat_of_zero_le hnonneg
  have hk : k < b.numBits := by omega
  exact ⟨b.clearBit k, clear_eq_some hk, rfl, hb.clearBit hk⟩

theorem numClear (hb : Marks b s) : (b.numClear : Int) = b.numBits - s.card := by
  have hle := b.marked_card_le
  rw [hb.marked_eq] at hle
  rw [numClear_eq, hb.marked_eq]
  omega

theorem findAndSet_of_least (hb : Marks b s) (hf : f < b.numBits) (hfs : f ∉ s)
    (hlt : ∀ j < f, j ∈ s) : ∃ b', b.findAndSetLoop = some (b', (f : Int)) ∧
      b'.numBits = b.numBits ∧ Marks b' (insert f s) := by
  obtain ⟨g, hgf, hgs, -, hfind⟩ := findAndSet_of_clear hf (by rwa [hb.marked_eq])
  rw [hb.marked_eq] at hgs
  -- The bit found is not behind `f`, and all bits before `f` are marked.
  have hg : g = f := by
    by_contra hne
    exact hgs (hlt g (by omega))
  refine ⟨b.markBit f, ?_, rfl, hb.markBit hf⟩
  rw [findAndSetLoop_eq, hfind, hg]

theorem findAndSet_of_full (hb : Marks b s) (hfull : ∀ i < b.numBits, i ∈ s) :
    b.findAndSetLoop = some (b, -1) := by
  rw [findAndSetLoop_eq, Bitmap.findAndSet_of_full]
  apply List.eq_nil_iff_forall_not_mem.mpr
  intro i hi
  rw [mem_freeList, hb.marked_eq] at hi
  exact hi.2 (hfull i hi.1)

end Marks

theorem marks_zeroed (n : ℕ) : Marks (zeroed n) ∅ where
  bits _ := BitWords.test_replicate_zero (by decide) _ _
  range := Finset.empty_subset _

section Loops
variable {b : Bitmap} {s : Finset ℕ} {n : ℕ}

/-- A loop over the first bits whose round `i` takes the set `S i` to the next one. -/
theorem foldlM_range {g : Bitmap → ℕ → Option Bitmap} {S : ℕ → Finset ℕ}
    (hg : ∀ (b : Bitmap) (i : ℕ), i < b.numBits → Marks b (S i) →
      ∃ b', g b i = some b' ∧ b'.numBits = b.numBits ∧ Marks b' (S (i + 1)))
    (hb : Marks b (S 0)) (hn : n ≤ b.numBits) :
    ∃ b', (List.range n).foldlM g b = some b' ∧ b'.numBits = b.numBits ∧ Marks b' (S n) := by
  induction n with
  | zero => exact ⟨b, rfl, rfl, hb⟩
  | succ n ih =>
    obtain ⟨b₁, hfold, hbits₁, hb₁⟩ := ih (by omega)
    obtain ⟨b₂, hstep, hbits₂, hb₂⟩ := hg b₁ n (by omega) hb₁
    refine ⟨b₂, ?_, hbits₂.trans hbits₁, hb₂⟩
    rw [List.range_succ, List.foldlM_append, hfold]
    change g b₁ n >>= _ = _
    rw [hstep]
    rfl

theorem foldlM_mark_range (hb : Marks b s) (hn : n ≤ b.numBits) :
    ∃ b', (List.range n).foldlM (fun b (i : ℕ) => b.mark i) b = some b' ∧
      b'.numBits = b.numBits ∧ Marks b' (s ∪ Finset.range n) := by
  apply foldlM_range (S := fun i => s ∪ Finset.range i)
  · intro b i hi hb
    rw [Finset.range_add_one, Finset.union_insert]
    exact hb.mark (Int.natCast_nonneg i) (Int.ofNat_lt.mpr hi)
  · simpa using hb
  · exact hn

theorem foldlM_clear_range (hb : Marks b s) (hn : n ≤ b.numBits) :
    ∃ b', (List.range n).foldlM (fun b (i : ℕ) => b.clear i) b = some b' ∧
      b'.numBits = b.numBits ∧ Marks b' (s \ Finset.range n) := by
  apply foldlM_range (S := fun i => s \ Finset.range i)
  · intro b i hi hb
    rw [Finset.range_add_one, Finset.sdiff_insert]
    exact hb.clear (Int.natCast_nonneg i) (Int.ofNat_lt.mpr hi)
  · simpa using hb
  · exact hn

theorem construct_ok {numItems : Int} (hpos : 0 < numItems) :
    ∃ b, construct numItems = some b ∧ (b.numBits : Int) = numItems ∧ Marks b ∅ := by
  obtain ⟨b, hfold, hbits, hb⟩ := foldlM_clear_range (marks_zeroed numItems.toNat) le_rfl
  refine ⟨b, ?_, ?_, by simpa using hb⟩
  · rw [construct, if_pos hpos]
    exact hfold
  · rw [hbits]
    exact Int.toNat_of_nonneg hpos.le

end Loops
end Bitmap

inductive BitmapCall where
  | mark (which : Int)
  | clear (which : Int)
  | test (which : Int)
  | findAndSet
  | numClear
  deriving DecidableEq, Repr

inductive BitmapReply where
  | done
  | tested (marked : Bool)
  | number (n : Int)
  deriving DecidableEq, Repr

/-- The calls on a set of numbers below `n`. -/
def setCall (n : ℕ) (s : Finset ℕ) : BitmapCall → Option (BitmapReply × Finset ℕ)
  | .mark which =>
    if 0 ≤ which ∧ which < n then some (.done, insert which.toNat s) else none
  | .clear which =>
    if 0 ≤ which ∧ which < n then some (.done, s.erase which.toNat) else none
  | .test which =>
    if 0 ≤ which ∧ which < n then some (.tested (decide (which.toNat ∈ s)), s) else none
  | .findAndSet =>
    if h : (Finset.range n \ s).Nonempty then
      some (.number ((Finset.range n \ s).min' h), insert ((Finset.range n \ s).min' h) s)
    else some (.number (-1), s)
  | .numClear => some (.number (n - s.card), s)

section Free
variable {n : ℕ} {s : Finset ℕ}

theorem least_free (h : (Finset.range n \ s).Nonempty) :
    (Finset.range n \ s).min' h < n ∧ (Finset.range n \ s).min' h ∉ s ∧
      ∀ j < (Finset.range n \ s).min' h, j ∈ s := by
  obtain ⟨hn, hs⟩ := Finset.mem_sdiff.mp (Finset.min'_mem _ h)
  have hlt := Finset.mem_range.mp hn
  refine ⟨hlt, hs, ?_⟩
  intro j hj
  by_contra hjs
  have hfree : j ∈ Finset.range n \ s :=
    Finset.mem_sdiff.mpr ⟨Finset.mem_range.mpr (hj.trans hlt), hjs⟩
  exact absurd (Finset.min'_le _ j hfree) (not_le.mpr hj)

theorem full_of_not_nonempty (h : ¬(Finset.range n \ s).Nonempty) : ∀ i < n, i ∈ s := by
  rw [Finset.not_nonempty_iff_eq_empty, Finset.sdiff_eq_empty_iff_subset] at h
  intro i hi
  exact h (Finset.mem_range.mpr hi)

end Free

namespace Bitmap
open CallRuns

def call (b : Bitmap) : BitmapCall → Option (BitmapReply × Bitmap)
  | .mark which => do
    let b ← b.mark which
    some (.done, b)
  | .clear which => do
    let b ← b.clear which
    some (.done, b)
  | .test which => do
    let marked ← b.test which
    some (.tested marked, b)
  | .findAndSet => do
    let r ← b.findAndSetLoop
    some (.number r.2, r.1)
  | .numClear => do
    let n ← b.numClearLoop
    some (.number n, b)

section Runs

theorem Marks.call (n : ℕ) (b : Bitmap) (s : Finset ℕ) (c : BitmapCall) (reply : BitmapReply)
    (s' : Finset ℕ) (hb : b.numBits = n ∧ Marks b s) (hc : setCall n s c = some (reply, s')) :
    ∃ b', b.call c = some (reply, b') ∧ b'.numBits = n ∧ Marks b' s' := by
  obtain ⟨rfl, hb⟩ := hb
  cases c with
  | mark which =>
    simp only [setCall, Option.ite_none_right_eq_some, Option.some.injEq, Prod.mk.injEq] at hc
    obtain ⟨⟨hnonneg, hlt⟩, rfl, rfl⟩ := hc
    obtain ⟨b', hmark, hbits, hb'⟩ := hb.mark hnonneg hlt
    refine ⟨b', ?_, hbits, hb'⟩
    rw [Bitmap.call, hmark]
    rfl
  | clear which =>
    simp only [setCall, Option.ite_none_right_eq_some, Option.some.injEq, Prod.mk.injEq] at hc
    obtain ⟨⟨hnonneg, hlt⟩, rfl, rfl⟩ := hc
    obtain ⟨b', hclear, hbits, hb'⟩ := hb.clear hnonneg hlt
    refine ⟨b', ?_, hbits, hb'⟩
    rw [Bitmap.call, hclear]
    rfl
  | test which =>
    simp only [setCall, Option.ite_none_right_eq_some, Option.some.injEq, Prod.mk.injEq] at hc
    obtain ⟨⟨hnonneg, hlt⟩, rfl, rfl⟩ := hc
    refine ⟨b, ?_, rfl, hb⟩
    rw [Bitmap.call, hb.test hnonneg hlt]
    rfl
  | findAndSet =>
    by_cases hfree : (Finset.range b.numBits \ s).Nonempty
    · simp only [setCall, hfree, ↓reduceDIte, Option.some.injEq, Prod.mk.injEq] at hc
      obtain ⟨rfl, rfl⟩ := hc
      obtain ⟨hf, hfs, hlt⟩ := least_free hfree
      obtain ⟨b', hfind, hbits, hb'⟩ := hb.findAndSet_of_least hf hfs hlt
      refine ⟨b', ?_, hbits, hb'⟩
      rw [Bitmap.call, hfind]
      rfl
    · simp only [setCall, hfree, ↓reduceDIte, Option.some.injEq, Prod.mk.injEq] at hc
      obtain ⟨rfl, rfl⟩ := hc
      refine ⟨b, ?_, rfl, hb⟩
      rw [Bitmap.call, hb.findAndSet_of_full (full_of_not_nonempty hfree)]
      rfl
  | numClear =>
    obtain ⟨rfl, rfl⟩ := Prod.mk.inj (Option.some.inj hc)
    refine ⟨b, ?_, rfl, hb⟩
    rw [Bitmap.call, numClearLoop_eq, ← hb.numClear]
    rfl

/-- With no clear bit left the bitmap is full. -/
theorem Marks.full {b : Bitmap} {s : Finset ℕ} (hb : Marks b s) (hzero : b.numClear = 0) :
    ∀ i < b.numBits, i ∈ s := by
  have hcount := hb.numClear
  have hcard : (Finset.range b.numBits).card ≤ s.card := by
    rw [Finset.card_range]
    omega
  intro i hi
  rw [Finset.eq_of_subset_of_card_le hb.range hcard]
  exact Finset.mem_range.mpr hi

/-- `FindAndSet` in terms of the set and of `NumClear` before and after it. -/
theorem Marks.findAndSet {b : Bitmap} {s : Finset ℕ} (hb : Marks b s) :
    ∃ b' r, b.findAndSetLoop = some (b', r) ∧ (r = -1 ↔ b.numClear = 0) ∧
      (b.numClear = 0 → b' = b) ∧
      (b.numClear ≠ 0 → ∃ f : ℕ, r = f ∧ f < b.numBits ∧ f ∉ s ∧ (∀ j < f, j ∈ s) ∧
        Marks b' (insert f s) ∧ b.numClear = b'.numClear + 1) := by
  by_cases hzero : b.numClear = 0
  · refine ⟨b, -1, hb.findAndSet_of_full (hb.full hzero), ?_, fun _ => rfl,
      fun hne => absurd hzero hne⟩
    exact iff_of_true rfl hzero
  · obtain ⟨f, hf, hfree, hlt, hfind⟩ := findAndSet_of_numClear (Nat.pos_of_ne_zero hzero)
    have hless := numClear_markBit hf hfree
    rw [hb.marked_eq] at hfree hlt
    refine ⟨b.markBit f, f, ?_, ?_, fun heq => absurd heq hzero, fun _ => ?_⟩
    · rw [findAndSetLoop_eq, hfind]
    · refine iff_of_false ?_ hzero
      omega
    · exact ⟨f, rfl, hf, hfree, hlt, hb.markBit hf, hless⟩

/-- A bitmap of any size refines a finite set.  After any calls with indices inside it the replies
were those of the set, and the words hold the set bit by bit.  From there each function does what
it does on the set, no assertion failing on the way. -/
theorem bitmap_refines_set {numItems : Int} (hpos : 0 < numItems) {cs : List BitmapCall}
    {replies : List BitmapReply} {s : Finset ℕ}
    (hcs : run (setCall numItems.toNat) ∅ cs = some (replies, s)) :
    ∃ b₀ b, construct numItems = some b₀ ∧ run call b₀ cs = some (replies, b) ∧
      b.HasBits s ∧ s ⊆ Finset.range numItems.toNat ∧
      (∀ i : ℕ, i < numItems →
        b.test i = some (decide (i ∈ s)) ∧
        (∃ b', b.mark i = some b' ∧ b'.HasBits (insert i s)) ∧
        ∃ b', b.clear i = some b' ∧ b'.HasBits (s.erase i)) ∧
      ∃ count b' r count', b.numClearLoop = some count ∧ (count : Int) = numItems - s.card ∧
        b.findAndSetLoop = some (b', r) ∧ b'.numClearLoop = some count' ∧
        (r = -1 ↔ count = 0) ∧ (count = 0 → b' = b) ∧
        (count ≠ 0 → ∃ f : ℕ, r = f ∧ f < numItems ∧ f ∉ s ∧ (∀ j < f, j ∈ s) ∧
          b'.HasBits (insert f s) ∧ count = count' + 1) := by
  obtain ⟨b₀, hconstruct, hbits₀, hb₀⟩ := construct_ok hpos
  have hsize : b₀.numBits = numItems.toNat := by omega
  obtain ⟨b, hrun, hbits, hb⟩ := run_refines (Marks.call numItems.toNat) ⟨hsize, hb₀⟩ hcs
  have hnum : (b.numBits : Int) = numItems := by omega
  refine ⟨b₀, b, hconstruct, hrun, hb.hasBits, hbits ▸ hb.range, ?_, ?_⟩
  · intro i hi
    have hnonneg : (0 : Int) ≤ i := Int.natCast_nonneg i
    have hlt : (i : Int) < b.numBits := by omega
    obtain ⟨b₁, hmark, -, hb₁⟩ := hb.mark hnonneg hlt
    obtain ⟨b₂, hclear, -, hb₂⟩ := hb.clear hnonneg hlt
    exact ⟨hb.test hnonneg hlt, ⟨b₁, hmark, hb₁.hasBits⟩, b₂, hclear, hb₂.hasBits⟩
  · obtain ⟨b', r, hfind, hneg, hfull, hfree⟩ := hb.findAndSet
    refine ⟨b.numClear, b', r, b'.numClear, numClearLoop_eq b, ?_, hfind, numClearLoop_eq b',
      hneg, hfull, ?_⟩
    · rw [hb.numClear, hnum]
    · intro hne
      obtain ⟨f, hr, hf, hfs, hlt, hb', hless⟩ := hfree hne
      exact ⟨f, hr, by omega, hfs, hlt, hb'.hasBits, hless⟩

/-- Two words, the second with one bit in use: bit 31 of the first and bit 0 of the second. -/
theorem bitmap_refines_set_partial_word :
    ∃ b₀ b, construct 33 = some b₀ ∧
      run call b₀ [.mark 31, .mark 32, .findAndSet, .clear 31, .test 32, .numClear] =
        some ([.done, .done, .number 0, .done, .tested true, .number 31], b) ∧
      b.HasBits {0, 32} := by
  have hcs : run (setCall (33 : Int).toNat) ∅
      [.mark 31, .mark 32, .findAndSet, .clear 31, .test 32, .numClear] =
        some ([.done, .done, .number 0, .done, .tested true, .number 31], {0, 32}) := by
    decide +kernel
  obtain ⟨b₀, b, hconstruct, hrun, hbits, -⟩ := bitmap_refines_set (by decide) hcs
  exact ⟨b₀, b, hconstruct, hrun, hbits⟩

end Runs

def selfTest (b : Bitmap) : Option Bitmap := do
  guard (bitsInWord ≤ b.numBits)
  let count ← b.numClearLoop
  guard (count = b.numBits)
  let r ← b.findAndSetLoop
  guard (r.2 = 0)
  let b ← r.1.mark 31
  let marked₀ ← b.test 0
  let marked₃₁ ← b.test 31
  guard (marked₀ = true ∧ marked₃₁ = true)
  let r ← b.findAndSetLoop
  guard (r.2 = 1)
  let b ← r.1.clear 0
  let b ← b.clear 1
  let b ← b.clear 31
  let b ← (List.range b.numBits).foldlM (fun b (i : ℕ) => b.mark i) b
  let r ← b.findAndSetLoop
  guard (r.2 = -1)
  (List.range r.1.numBits).foldlM (fun b (i : ℕ) => b.clear i) r.1

theorem guard_of {p : Prop} [Decidable p] (h : p) : (guard p : Option Unit) = some () := if_pos h

/-- On an empty bitmap of at least one word the self test passes, and the bitmap is empty again. -/
theorem Marks.selfTest {b : Bitmap} (hb : Marks b ∅) (hsize : bitsInWord ≤ b.numBits) :
    ∃ b', b.selfTest = some b' ∧ Marks b' ∅ := by
  have hword : 32 ≤ b.numBits := hsize
  have hcount : b.numClear = b.numBits := by simpa using hb.numClear
  -- Bits 0, 31 and 1 are marked and cleared again.
  obtain ⟨b₁, hfind₁, hbits₁, hb₁⟩ := hb.findAndSet_of_least (f := 0) (by omega) (by simp) (by simp)
  obtain ⟨b₂, hmark, hbits₂, hb₂⟩ := hb₁.mark (i := 31) (by decide) (by omega)
  have htest₀ : b₂.test 0 = some true := hb₂.test (by decide) (by omega)
  have htest₃₁ : b₂.test 31 = some true := hb₂.test (by decide) (by omega)
  obtain ⟨b₃, hfind₃, hbits₃, hb₃⟩ := hb₂.findAndSet_of_least (f := 1) (by omega) (by decide)
    (by decide)
  obtain ⟨b₄, hclear₀, hbits₄, hb₄⟩ := hb₃.clear (i := 0) (by decide) (by omega)
  obtain ⟨b₅, hclear₁, hbits₅, hb₅⟩ := hb₄.clear (i := 1) (by decide) (by omega)
  obtain ⟨b₆, hclear₃₁, hbits₆, hb₆⟩ := hb₅.clear (i := 31) (by decide) (by omega)
  -- All bits are marked and cleared again.
  obtain ⟨b₇, hmarks, hbits₇, hb₇⟩ := foldlM_mark_range hb₆ le_rfl
  have hfind₇ := hb₇.findAndSet_of_full fun i hi =>
    Finset.mem_union_right _ (Finset.mem_range.mpr (by omega))
  obtain ⟨b₈, hclears, -, hb₈⟩ := foldlM_clear_range hb₇ le_rfl
  rw [Finset.sdiff_eq_empty_iff_subset.mpr hb₇.range] at hb₈
  refine ⟨b₈, ?_, hb₈⟩
  simp only [Bitmap.selfTest, guard_of hsize, numClearLoop_eq, guard_of hcount, hfind₁, hmark,
    htest₀, htest₃₁, hfind₃, hclear₀, hclear₁, hclear₃₁, hmarks, hfind₇, hclears,
    Option.bind_eq_bind, Option.bind_some]
  rfl

end Bitmap
end Nachos
