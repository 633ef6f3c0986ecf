import Mathlib.Data.List.GetD
import Nachos.AddrSpace

namespace Nachos
open TwosComplement

/-- The byte that the copy loop of a segment leaves at address `a`, if a read lands there. -/
def arrival (file : List UInt8) (seg : Segment) (frames : List Int) (a : Int) : Option UInt8 :=
  if seg.size > 0 then
    (frames.idxOf? ((a - seg.virtualAddr) / pageSize)).bind fun i =>
      file[(seg.inFileAddr + i * pageSize + (a - seg.virtualAddr) % pageSize).toNat]?
  else none

section Copy
variable {file : List UInt8} {seg : Segment} {frames : List Int} {n : ℕ}

theorem loadSegment_eq_none (hsize : 0 < seg.size) (hneg : ∃ i < n, position seg i < 0)
    (mem : Memory) : loadSegment file seg frames n mem = none := by
  have hfold : ∀ (is : List ℕ) (mem : Memory), (∃ i ∈ is, position seg i < 0) →
      is.foldlM (loadPage file seg frames) mem = none := by
    intro is
    induction is with
    | nil => simp
    | cons i is ih =>
      intro mem hex
      rw [List.foldlM_cons]
      by_cases hi : position seg i < 0
      · simp [loadPage, readAt, hi]
      · have hrest : ∃ j ∈ is, position seg j < 0 := by
          obtain ⟨j, hj, hneg⟩ := hex
          rcases List.mem_cons.mp hj with rfl | hj
          · exact absurd hneg hi
          · exact ⟨j, hj, hneg⟩
        simp only [loadPage, readAt, if_neg hi, Option.bind_eq_bind, Option.bind_some]
        exact ih _ hrest
  rw [loadSegment, if_pos hsize]
  obtain ⟨i, hi, hneg⟩ := hneg
  exact hfold _ _ ⟨i, List.mem_range.mpr hi, hneg⟩

theorem readWindow_page {f : Int} {i : ℕ}
    (hdest : destination seg f = seg.virtualAddr + f * pageSize)
    (hpos : position seg i = seg.inFileAddr + i * pageSize) (a : Int) :
    readWindow file (destination seg f) pageSize (position seg i) a =
      if (a - seg.virtualAddr) / pageSize = f then
        file[(seg.inFileAddr + i * pageSize + (a - seg.virtualAddr) % pageSize).toNat]?
      else none := by
  have hiff : (seg.virtualAddr + f * pageSize ≤ a ∧ a < seg.virtualAddr + f * pageSize + pageSize) ↔
      (a - seg.virtualAddr) / pageSize = f := by
    unfold pageSize
    omega
  rw [readWindow, hdest, hpos]
  simp only [hiff]
  split_ifs with h
  · have : a - (seg.virtualAddr + f * pageSize) = (a - seg.virtualAddr) % pageSize := by
      unfold pageSize at h ⊢
      omega
    rw [this]
  · rfl

theorem loadSegment_eq_some (hlen : frames.length = n) (hnd : frames.Nodup)
    (hdest : 0 < seg.size → ∀ f ∈ frames, destination seg f = seg.virtualAddr + f * pageSize)
    (hpos : 0 < seg.size → ∀ i < n, 0 ≤ position seg i ∧
      position seg i = seg.inFileAddr + i * pageSize) (mem : Memory) :
    loadSegment file seg frames n mem = some (Patch.apply (arrival file seg frames) mem) := by
  by_cases hsize : 0 < seg.size
  swap
  · rw [loadSegment, if_neg hsize]
    congr 1
    ext1 a
    simp [Patch.apply, arrival, hsize]
  have hdest := hdest hsize
  have hpos := hpos hsize
  -- every read goes through, and they are applied in order
  set window := fun (i : ℕ) =>
    readWindow file (destination seg (frames.getD i 0)) pageSize (position seg i)
  have hfold : ∀ (is : List ℕ) (mem : Memory), (∀ i ∈ is, i < n) →
      is.foldlM (loadPage file seg frames) mem = some (Patch.applyAll window is mem) := by
    intro is
    induction is with
    | nil => intro mem _; rfl
    | cons i is ih =>
      intro mem his
      have hi := (hpos i (his i List.mem_cons_self)).1
      have hrest : ∀ j ∈ is, j < n := fun j hj => his j (List.mem_cons_of_mem _ hj)
      rw [List.foldlM_cons, Patch.applyAll_cons, ← ih _ hrest]
      simp [loadPage, readAt, not_lt.mpr hi, window]
  have hwindow : ∀ i < n, ∀ a, window i a =
      if (a - seg.virtualAddr) / pageSize = frames.getD i 0 then
        file[(seg.inFileAddr + i * pageSize + (a - seg.virtualAddr) % pageSize).toNat]?
      else none := by
    intro i hi a
    have hmem : frames.getD i 0 ∈ frames := by
      rw [List.getD_eq_getElem _ _ (hlen ▸ hi)]
      exact List.getElem_mem _
    exact readWindow_page (hdest _ hmem) (hpos i hi).2 a
  rw [loadSegment, if_pos hsize, hfold _ mem fun i hi => List.mem_range.mp hi]
  congr 1
  ext1 a
  simp only [Patch.apply, arrival, gt_iff_lt, hsize, if_true]
  cases hidx : frames.idxOf? ((a - seg.virtualAddr) / pageSize) with
  | none =>
    -- no frame is hit
    have hnot := List.idxOf?_eq_none_iff.mp hidx
    refine Patch.applyAll_of_none (fun i hi => ?_) mem
    have hi := List.mem_range.mp hi
    rw [hwindow i hi, if_neg]
    intro heq
    rw [heq, List.getD_eq_getElem _ _ (hlen ▸ hi)] at hnot
    exact hnot (List.getElem_mem _)
  | some i =>
    obtain ⟨hi, hfi, -⟩ := List.idxOf?_eq_some_iff.mp hidx
    have hin : i < n := hlen ▸ hi
    have hget : frames.getD i 0 = (a - seg.virtualAddr) / pageSize := by
      rw [List.getD_eq_getElem _ _ hi]
      simpa using hfi
    -- the other frames are different ones
    have hother : ∀ j ∈ List.range n, j ≠ i → window j a = none := by
      intro j hj hji
      have hj := List.mem_range.mp hj
      rw [hwindow j hj, if_neg]
      rw [← hget, List.getD_eq_getElem _ _ hi, List.getD_eq_getElem _ _ (hlen ▸ hj)]
      exact fun heq => hji ((hnd.getElem_inj_iff).mp heq).symm
    have hself := hwindow i hin a
    rw [if_pos hget.symm] at hself
    rw [Option.bind_some, ← hself]
    cases hb : window i a with
    | none =>
      refine Patch.applyAll_of_none (fun j hj => ?_) mem
      by_cases hji : j = i
      · rw [hji, hb]
      · exact hother j hj hji
    | some c => exact Patch.applyAll_of_unique (List.mem_range.mpr hin) hb hother mem

end Copy

def NoffHeader.copied (h : NoffHeader) : List Segment := [h.code, h.initData]

/-- No copy reads from a negative position, so that no assertion of `Lseek` fails. -/
def NoffHeader.Readable (h : NoffHeader) : Prop :=
  ∀ seg ∈ h.copied, 0 < seg.size → ∀ i < h.numPages, 0 ≤ position seg i

/-- A program with the right magic number that fits the machine, for which enough
frames are free, and whose copied segments lie inside the new space. -/
structure Loadable (b : Bitmap) (h : NoffHeader) : Prop where
  numBits : b.numBits = 512
  magic : h.noffMagic = NOFFMAGIC
  fits : h.numPages ≤ numPhysPages
  room : h.numPages ≤ b.numClear
  inside : ∀ seg ∈ h.copied, 0 < seg.size →
    0 ≤ seg.virtualAddr ∧ seg.virtualAddr + seg.size ≤ h.numPages * pageSize

/-- What the two copy loops leave at address `a`: the data loop runs last. -/
def arrivals (file : List UInt8) (h : NoffHeader) (frames : List Int) (a : Int) : Option UInt8 :=
  (arrival file h.initData frames a).or (arrival file h.code frames a)

theorem readHeader_inFileAddr (file : List UInt8) (junk : ℕ → UInt8) :
    ∀ seg ∈ (readHeader file junk).copied,
      intMin ≤ seg.inFileAddr ∧ seg.inFileAddr ≤ intMax := by
  have hswap : ∀ h : NoffHeader, swapHeader h = h := fun _ => rfl
  have hint : ∀ bytes off, intMin ≤ int32At bytes off ∧ int32At bytes off ≤ intMax :=
    fun _ _ => wrap_mem_range _
  simp only [readHeader, hswap, ite_self, NoffHeader.copied, segmentAt, List.forall_mem_cons]
  exact ⟨hint _ _, hint _ _, by simp⟩

theorem position_eq {seg : Segment} {i : ℕ} (hlo : intMin ≤ seg.inFileAddr)
    (hhi : seg.inFileAddr ≤ intMax) (hi : i < numPhysPages) (hpos : 0 ≤ position seg i) :
    position seg i = seg.inFileAddr + i * pageSize := by
  unfold position wrap pageSize at *
  unfold intMin at hlo
  unfold intMax at hhi
  unfold numPhysPages at hi
  omega

section Frames
variable {b : Bitmap} {n : ℕ}

theorem length_freeFrames (hroom : n ≤ b.numClear) : (b.freeFrames n).length = n := by
  rw [Bitmap.freeFrames, List.length_map, List.length_take, Bitmap.length_freeList]
  omega

theorem nodup_freeFrames (b : Bitmap) (n : ℕ) : (b.freeFrames n).Nodup :=
  (List.Nodup.sublist (List.take_sublist n _) b.nodup_freeList).map Nat.cast_injective

theorem mem_freeFrames {f : Int} (hf : f ∈ b.freeFrames n) : 0 ≤ f ∧ f < b.numBits := by
  obtain ⟨i, hi, rfl⟩ := List.mem_map.mp hf
  have := (Bitmap.mem_freeList.mp (List.mem_of_mem_take hi)).1
  omega

end Frames

section Construct
variable {b : Bitmap} {file : List UInt8} {junk : ℕ → UInt8} {raw : AddrSpace} {h : NoffHeader}

theorem construct_eq_fill (hh : readHeader file junk = h) (hmagic : h.noffMagic = NOFFMAGIC)
    (k : Phys) : raw.construct k (some file) junk = raw.fill k file h := by
  simp only [AddrSpace.construct, hh, hmagic, if_true]

theorem fill_eq_none (hload : Loadable b h) (hread : ¬ h.Readable) (mem : Memory) :
    raw.fill ⟨b, mem⟩ file h = none := by
  unfold NoffHeader.Readable at hread
  push Not at hread
  obtain ⟨seg, hseg, hsize, hneg⟩ := hread
  rw [fill_of_room (k := ⟨b, mem⟩) hload.fits hload.room]
  simp only [NoffHeader.copied, List.mem_cons, List.not_mem_nil, or_false] at hseg
  rcases hseg with rfl | rfl
  · rw [loadSegment_eq_none hsize hneg]
    rfl
  · rw [Option.map_eq_none_iff, Option.bind_eq_none_iff]
    exact fun mem' _ => loadSegment_eq_none hsize hneg mem'

/-- The memory after the constructor: what arrived from the file, zero in the rest of
the new frames, and the old contents elsewhere. -/
def imageMemory (b : Bitmap) (file : List UInt8) (h : NoffHeader) (mem : Memory) : Memory :=
  fun a => (arrivals file h (b.freeFrames h.numPages) a).getD
    (if a / pageSize ∈ b.freeFrames h.numPages then 0 else mem a)

theorem fill_eq_some (hload : Loadable b h) (hread : h.Readable)
    (hint : ∀ seg ∈ h.copied, intMin ≤ seg.inFileAddr ∧ seg.inFileAddr ≤ intMax)
    (mem : Memory) :
    raw.fill ⟨b, mem⟩ file h =
      some (⟨some (allocPages ⟨b, mem⟩ 0 h.numPages).1, h.numPages⟩,
        ⟨(allocPages ⟨b, mem⟩ 0 h.numPages).2.gPhysPageBitMap, imageMemory b file h mem⟩) := by
  have hseg : ∀ seg ∈ h.copied, ∀ mem', loadSegment file seg (b.freeFrames h.numPages)
      h.numPages mem' = some (Patch.apply (arrival file seg (b.freeFrames h.numPages)) mem') := by
    intro seg hseg mem'
    refine loadSegment_eq_some (length_freeFrames hload.room) (nodup_freeFrames b _) ?_ ?_ mem'
    · intro hsize f hf
      obtain ⟨h0, h1⟩ := mem_freeFrames hf
      obtain ⟨h2, h3⟩ := hload.inside seg hseg hsize
      have h4 := hload.fits
      rw [hload.numBits] at h1
      unfold numPhysPages at h4
      unfold pageSize at h3
      unfold destination pageSize
      exact wrap_of_range (by omega) (by omega)
    · intro hsize i hi
      have hpos := hread seg hseg hsize i hi
      exact ⟨hpos, position_eq (hint seg hseg).1 (hint seg hseg).2
        (lt_of_lt_of_le hi hload.fits) hpos⟩
  have hmem : Patch.apply (arrival file h.initData (b.freeFrames h.numPages))
      (Patch.apply (arrival file h.code (b.freeFrames h.numPages))
        (allocPages ⟨b, mem⟩ 0 h.numPages).2.mainMemory) = imageMemory b file h mem := by
    ext1 a
    have hzero := allocPages_mainMemory (k := ⟨b, mem⟩) 0
      (hload.room.trans b.length_freeList.ge) (by rw [hload.numBits]; norm_num) a
    simp only [Patch.apply, imageMemory, arrivals, hzero]
    cases arrival file h.initData (b.freeFrames h.numPages) a <;> rfl
  rw [fill_of_room (k := ⟨b, mem⟩) hload.fits hload.room, hseg h.code (by simp [NoffHeader.copied]),
    Option.bind_some, hseg h.initData (by simp [NoffHeader.copied]), Option.map_some, hmem]

theorem frames_fill (hload : Loadable b h) (mem : Memory) :
    (⟨some (allocPages ⟨b, mem⟩ 0 h.numPages).1, h.numPages⟩ : AddrSpace).frames =
      b.freeFrames h.numPages := by
  rw [frames_allocPages]
  exact (allocPages_bitmap (k := ⟨b, mem⟩) 0 (hload.room.trans b.length_freeList.ge)).1

theorem construct_cases (hh : readHeader file junk = h) (hload : Loadable b h) {mem : Memory}
    {sp : AddrSpace} {k' : Phys}
    (hc : raw.construct ⟨b, mem⟩ (some file) junk = some (sp, k')) :
    h.Readable ∧ sp = ⟨some (allocPages ⟨b, mem⟩ 0 h.numPages).1, h.numPages⟩ ∧
      k'.mainMemory = imageMemory b file h mem := by
  rw [construct_eq_fill hh hload.magic] at hc
  by_cases hread : h.Readable
  · rw [fill_eq_some hload hread (hh ▸ readHeader_inFileAddr file junk)] at hc
    cases hc
    exact ⟨hread, rfl, rfl⟩
  · rw [fill_eq_none hload hread] at hc
    cases hc

/-- Every byte that a page read puts into `mainMemory` lands in a new frame: page `i`
of a segment goes to the `i`-th free frame, displaced by the segment's virtual address. -/
def ReadsStayInside (b : Bitmap) (file : List UInt8) (h : NoffHeader) : Prop :=
  ∀ seg ∈ h.copied, 0 < seg.size → ∀ (i : ℕ) (f : Int),
    (b.freeFrames h.numPages)[i]? = some f → ∀ j : ℕ, j < pageSize →
      seg.inFileAddr + i * pageSize + j < file.length →
      seg.virtualAddr + f * pageSize + j < memorySize →
      (seg.virtualAddr + f * pageSize + j) / pageSize ∈ b.freeFrames h.numPages

/-- The copy loop of a segment reads file position `p` into address `a`: as byte `j` of page
`i`, which goes to the `i`-th frame, displaced by the segment's virtual address. -/
def Lands (length : ℕ) (seg : Segment) (frames : List Int) (p a : Int) : Prop :=
  0 < seg.size ∧ p < length ∧ ∃ (i : ℕ) (f : Int), frames[i]? = some f ∧
    ∃ j : ℕ, j < pageSize ∧ p = seg.inFileAddr + i * pageSize + j ∧
      a = seg.virtualAddr + f * pageSize + j

theorem arrival_of_lands {seg : Segment} {frames : List Int} (hnd : frames.Nodup) {p a : Int}
    (hl : Lands file.length seg frames p a) : arrival file seg frames a = file[p.toNat]? := by
  obtain ⟨hsize, -, i, f, hfi, j, hj, rfl, rfl⟩ := hl
  obtain ⟨hi, rfl⟩ := List.getElem?_eq_some_iff.mp hfi
  have hdiv : (seg.virtualAddr + frames[i] * pageSize + j - seg.virtualAddr) / pageSize =
      frames[i] := by
    unfold pageSize at *
    omega
  have hmod : (seg.virtualAddr + frames[i] * pageSize + j - seg.virtualAddr) % pageSize = j := by
    unfold pageSize at *
    omega
  have hidx : frames.idxOf? frames[i] = some i := by
    rw [List.idxOf?_eq_some_iff]
    refine ⟨hi, by simp, fun k hk => ?_⟩
    simpa using fun heq => hk.ne (hnd.getElem_inj_iff.mp heq)
  rw [arrival, if_pos hsize, hdiv, hidx, Option.bind_some, hmod]

theorem arrival_isSome_iff (seg : Segment) {frames : List Int} (hnd : frames.Nodup)
    (hpos : 0 < seg.size → frames ≠ [] → 0 ≤ seg.inFileAddr) (a : Int) :
    (arrival file seg frames a).isSome ↔ ∃ p, Lands file.length seg frames p a := by
  constructor
  · intro hsome
    obtain ⟨c, hc⟩ := Option.isSome_iff_exists.mp hsome
    unfold arrival at hc
    split_ifs at hc with hsize
    obtain ⟨i, hidx, hbyte⟩ := Option.bind_eq_some_iff.mp hc
    obtain ⟨hi, hfi, -⟩ := List.idxOf?_eq_some_iff.mp hidx
    obtain ⟨hlt, -⟩ := List.getElem?_eq_some_iff.mp hbyte
    have hfi : frames[i] = (a - seg.virtualAddr) / pageSize := by simpa using hfi
    have hpos := hpos hsize (List.ne_nil_of_length_pos (by omega))
    refine ⟨_, hsize, ?_, i, frames[i], List.getElem?_eq_getElem hi,
      ((a - seg.virtualAddr) % pageSize).toNat, ?_, rfl, ?_⟩
    all_goals
      rw [hfi] at *
      unfold pageSize at *
      omega
  · rintro ⟨p, hl⟩
    rw [arrival_of_lands hnd hl]
    obtain ⟨hsize, hlt, i, f, hfi, j, -, rfl, -⟩ := hl
    have hpos := hpos hsize (List.ne_nil_of_mem (List.mem_of_getElem? hfi))
    rw [List.getElem?_eq_getElem (by unfold pageSize at *; omega)]
    rfl

theorem inFileAddr_nonneg (hload : Loadable b h) (hread : h.Readable)
    (hint : ∀ seg ∈ h.copied, intMin ≤ seg.inFileAddr ∧ seg.inFileAddr ≤ intMax)
    {seg : Segment} (hseg : seg ∈ h.copied) (hsize : 0 < seg.size)
    (hne : b.freeFrames h.numPages ≠ []) : 0 ≤ seg.inFileAddr := by
  have hn : 0 < h.numPages := by
    rw [← length_freeFrames hload.room]
    exact List.length_pos_of_ne_nil hne
  have hpos := hread seg hseg hsize 0 hn
  have heq := position_eq (hint seg hseg).1 (hint seg hseg).2 (by decide) hpos
  simp only [Nat.cast_zero, zero_mul, add_zero] at heq
  rwa [heq] at hpos

theorem arrivals_isSome_iff {frames : List Int} {a : Int} :
    (arrivals file h frames a).isSome ↔
      ∃ seg ∈ h.copied, (arrival file seg frames a).isSome := by
  simp [arrivals, NoffHeader.copied, or_comm]

theorem readsStayInside_iff (hload : Loadable b h) (hread : h.Readable)
    (hint : ∀ seg ∈ h.copied, intMin ≤ seg.inFileAddr ∧ seg.inFileAddr ≤ intMax) :
    ReadsStayInside b file h ↔ ∀ a : Int, 0 ≤ a → a < memorySize →
      (arrivals file h (b.freeFrames h.numPages) a).isSome →
        a / pageSize ∈ b.freeFrames h.numPages := by
  have hlands : ∀ seg ∈ h.copied, ∀ a,
      (arrival file seg (b.freeFrames h.numPages) a).isSome ↔ _ := fun seg hseg =>
    arrival_isSome_iff seg (nodup_freeFrames b h.numPages)
      (inFileAddr_nonneg hload hread hint hseg)
  constructor
  · intro hstay a h0 ha hsome
    obtain ⟨seg, hseg, harr⟩ := arrivals_isSome_iff.mp hsome
    obtain ⟨p, hsize, hlt, i, f, hfi, j, hj, rfl, rfl⟩ := (hlands seg hseg a).mp harr
    exact hstay seg hseg hsize i f hfi j hj hlt ha
  · intro hstay seg hseg hsize i f hfi j hj hlt ha
    have h0 := (hload.inside seg hseg hsize).1
    have hf := (mem_freeFrames (List.mem_of_getElem? hfi)).1
    refine hstay _ (by unfold pageSize; omega) ha (arrivals_isSome_iff.mpr ⟨seg, hseg, ?_⟩)
    exact (hlands seg hseg _).mpr ⟨_, hsize, hlt, i, f, hfi, j, hj, rfl, rfl⟩

/-- Whatever the memory holds, loading changes no byte of it outside the new frames,
exactly when every page read that is carried out lands inside them. -/
theorem load_isolated_iff (hh : readHeader file junk = h) (hload : Loadable b h) :
    (∀ (mem : Memory) (sp : AddrSpace) (k' : Phys),
      raw.construct ⟨b, mem⟩ (some file) junk = some (sp, k') →
      ∀ a : Int, 0 ≤ a → a < memorySize → a / pageSize ∉ sp.frames →
        k'.mainMemory a = mem a) ↔
    (h.Readable → ReadsStayInside b file h) := by
  have hint := hh ▸ readHeader_inFileAddr file junk
  constructor
  · intro hkeep hread
    rw [readsStayInside_iff hload hread hint]
    intro a h0 ha hsome
    by_contra hout
    obtain ⟨c, hc⟩ := Option.isSome_iff_exists.mp hsome
    -- a memory that holds another byte there sees the change
    let other : UInt8 := if c = 0 then 1 else 0
    have hother : c ≠ other := by
      by_cases h0 : c = 0 <;> simp [other, h0]
    have hfill : raw.construct ⟨b, fun _ => other⟩ (some file) junk = _ :=
      (construct_eq_fill hh hload.magic _).trans (fill_eq_some hload hread hint fun _ => other)
    have hsame := hkeep _ _ _ hfill a h0 ha (by rwa [frames_fill hload])
    simp only [imageMemory, hc, Option.getD_some] at hsame
    exact hother hsame
  · intro hstay mem sp k' hc a h0 ha hout
    obtain ⟨hread, rfl, hmem⟩ := construct_cases hh hload hc
    rw [frames_fill hload] at hout
    have hnone : arrivals file h (b.freeFrames h.numPages) a = none := by
      by_contra hsome
      exact hout ((readsStayInside_iff hload hread hint).mp (hstay hread) a h0 ha
        (Option.isSome_iff_ne_none.mpr hsome))
    simp [hmem, imageMemory, hnone, hout]

theorem exists_construct (hh : readHeader file junk = h) (hload : Loadable b h)
    (hread : h.Readable) (mem : Memory) :
    ∃ sp k', raw.construct ⟨b, mem⟩ (some file) junk = some (sp, k') := by
  have hint := hh ▸ readHeader_inFileAddr file junk
  exact ⟨_, _, (construct_eq_fill hh hload.magic _).trans (fill_eq_some hload hread hint mem)⟩

def splitProgram : List UInt8 :=
  [0xad, 0xdf, 0xba, 0, 0, 0, 0, 0, 52, 0, 0, 0, 128, 0, 0, 0, 128, 0, 0, 0, 184, 0, 0, 0,
    4, 0, 0, 0] ++ List.replicate 24 0 ++ List.replicate 128 0x11 ++ List.replicate 4 0xee ++
    List.replicate 4 0xda

def splitHeader : NoffHeader :=
  ⟨NOFFMAGIC, ⟨0, 52, 128⟩, ⟨128, 184, 4⟩, ⟨0, 0, 0⟩, ⟨0, 0, 0⟩⟩

theorem readHeader_splitProgram : readHeader splitProgram (fun _ => 0) = splitHeader := by
  decide +kernel

theorem loadable_splitHeader (hbits : b.numBits = 512) (hroom : 10 ≤ b.numClear) :
    Loadable b splitHeader where
  numBits := hbits
  magic := rfl
  fits := by decide
  room := by
    have : splitHeader.numPages = 10 := by decide
    omega
  inside := by
    have : splitHeader.numPages = 10 := by decide
    intro seg hseg hsize
    simp only [NoffHeader.copied, splitHeader, List.mem_cons, List.not_mem_nil, or_false] at hseg
    rcases hseg with rfl | rfl <;> simp [this, pageSize]

theorem readable_splitHeader : splitHeader.Readable := by
  unfold NoffHeader.Readable
  decide

theorem construct_split (hload : Loadable b splitHeader) : ∃ sp k',
    (⟨none, 0⟩ : AddrSpace).construct ⟨b, fun _ => 0⟩ (some splitProgram) (fun _ => 0) =
      some (sp, k') :=
  exists_construct readHeader_splitProgram hload readable_splitHeader fun _ => 0

theorem loadable_split_marked : Loadable ((Bitmap.new 512).markBit 1) splitHeader := by
  have hone : 1 < (Bitmap.new 512).numBits := by
    rw [Bitmap.numBits_new]
    decide
  have hclear : 1 ∉ (Bitmap.new 512).marked := by
    rw [Bitmap.marked_new]
    exact Finset.notMem_empty 1
  have hcount := Bitmap.numClear_markBit hone hclear
  rw [Bitmap.numClear_new] at hcount
  exact loadable_splitHeader ((Bitmap.numBits_markBit ..).trans (Bitmap.numBits_new _)) (by omega)

theorem freeFrames_marked : ((Bitmap.new 512).markBit 1).freeFrames splitHeader.numPages =
    [0, 2, 3, 4, 5, 6, 7, 8, 9, 10] := by
  decide +kernel

/-- With frame 1 in use the data is copied into frame 1, which is not the program's. -/
theorem load_writes_foreign_frame :
    let b := (Bitmap.new 512).markBit 1
    Loadable b (readHeader splitProgram fun _ => 0) ∧ ∃ sp k',
      (⟨none, 0⟩ : AddrSpace).construct ⟨b, fun _ => 0⟩ (some splitProgram) (fun _ => 0) =
        some (sp, k') ∧ (128 : Int) / pageSize ∉ sp.frames ∧ k'.mainMemory 128 = 0xda := by
  obtain ⟨sp, k', hc⟩ := construct_split loadable_split_marked
  refine ⟨readHeader_splitProgram ▸ loadable_split_marked, sp, k', hc, ?_⟩
  obtain ⟨-, rfl, hmem⟩ := construct_cases readHeader_splitProgram loadable_split_marked hc
  rw [frames_fill loadable_split_marked, hmem, imageMemory, freeFrames_marked]
  decide +kernel

theorem freeFrames_new {n : ℕ} (hn : n ≤ 512) :
    (Bitmap.new 512).freeFrames n = (List.range n).map Nat.cast := by
  rw [Bitmap.freeFrames, Bitmap.freeList_new, List.take_range, min_eq_left hn]

theorem loadable_split_new : Loadable (Bitmap.new 512) splitHeader :=
  loadable_splitHeader (Bitmap.numBits_new _) (by rw [Bitmap.numClear_new]; decide)

theorem readsStayInside_split_new :
    ReadsStayInside (Bitmap.new 512) splitProgram splitHeader := by
  have hpages : splitHeader.numPages = 10 := by decide
  have hlength : splitProgram.length = 188 := by decide +kernel
  intro seg hseg hsize i f hfi j hj hlt ha
  rw [hpages, freeFrames_new (by omega)] at hfi ⊢
  obtain ⟨hi, hfi⟩ : i < 10 ∧ f = i := by
    simp only [List.getElem?_map, Option.map_eq_some_iff] at hfi
    obtain ⟨i', hi', rfl⟩ := hfi
    obtain ⟨hi, rfl⟩ := List.getElem?_eq_some_iff.mp hi'
    simpa using hi
  have hmem : ∀ p : ℕ, p < 10 → (p : Int) ∈ (List.range 10).map (Nat.cast : ℕ → Int) :=
    fun p hp => List.mem_map.mpr ⟨p, List.mem_range.mpr hp, rfl⟩
  simp only [NoffHeader.copied, splitHeader, List.mem_cons, List.not_mem_nil, or_false] at hseg
  subst hfi
  unfold pageSize at *
  rcases hseg with rfl | rfl
  · have hdiv : (0 + (i : Int) * (128 : ℕ) + j) / (128 : ℕ) = i := by omega
    exact hdiv.symm ▸ hmem i hi
  · have hdiv : (128 + (i : Int) * (128 : ℕ) + j) / (128 : ℕ) = (i + 1 : ℕ) := by omega
    have hi' : i + 1 < 10 := by
      dsimp only at hlt
      omega
    exact hdiv.symm ▸ hmem (i + 1) hi'

theorem load_isolated_split_new : ∃ sp k', (⟨none, 0⟩ : AddrSpace).construct
    ⟨Bitmap.new 512, fun _ => 0⟩ (some splitProgram) (fun _ => 0) = some (sp, k') ∧
    ∀ a : Int, 0 ≤ a → a < memorySize → a / pageSize ∉ sp.frames → k'.mainMemory a = 0 := by
  obtain ⟨sp, k', hc⟩ := construct_split loadable_split_new
  refine ⟨sp, k', hc, ?_⟩
  exact (load_isolated_iff readHeader_splitProgram loadable_split_new).mpr
    (fun _ => readsStayInside_split_new) _ sp k' hc

def fileByte (file : List UInt8) (offset : Int) : Option UInt8 :=
  if 0 ≤ offset then file[offset.toNat]? else none

/-- The addresses of the space at which the program has a zero: those of the uninitialised
data and of the stack. -/
def NoffHeader.Blank (h : NoffHeader) (v : Int) : Prop :=
  (h.uninitData.virtualAddr ≤ v ∧ v < h.uninitData.virtualAddr + h.uninitData.size) ∨
    (h.numPages * pageSize : Int) - userStackSize ≤ v

/-- The byte that the program has at virtual address `v`: the file's, in a copied
segment, and zero in the uninitialised data and on the stack. -/
def Due (file : List UInt8) (h : NoffHeader) (v : Int) (c : UInt8) : Prop :=
  (∃ seg ∈ h.copied, seg.virtualAddr ≤ v ∧ v < seg.virtualAddr + seg.size ∧
    fileByte file (seg.inFileAddr + (v - seg.virtualAddr)) = some c) ∨ h.Blank v ∧ c = 0

/-- The last read into address `a` is that of file position `p`: the data loop runs last. -/
def LandsLast (b : Bitmap) (length : ℕ) (h : NoffHeader) (p a : Int) : Prop :=
  Lands length h.initData (b.freeFrames h.numPages) p a ∨
    Lands length h.code (b.freeFrames h.numPages) p a ∧
      ∀ q, ¬Lands length h.initData (b.freeFrames h.numPages) q a

/-- Where the reads go, by the header, the length of the file and the free frames alone.  A
page of the space that holds program bytes gets a frame of the memory; the address of a byte
of a copied segment is last read from the position of that byte in the file, and a blank
address from none. -/
def ReadsPlaced (b : Bitmap) (length : ℕ) (h : NoffHeader) : Prop :=
  ∀ v f : Int, 0 ≤ v → v < h.numPages * pageSize →
    (b.freeFrames h.numPages)[(v / pageSize).toNat]? = some f →
    (∀ seg ∈ h.copied, seg.virtualAddr ≤ v → v < seg.virtualAddr + seg.size →
      0 ≤ seg.inFileAddr + (v - seg.virtualAddr) →
      seg.inFileAddr + (v - seg.virtualAddr) < length →
      f < numPhysPages ∧ LandsLast b length h (seg.inFileAddr + (v - seg.virtualAddr))
        (f * pageSize + v % pageSize)) ∧
    (h.Blank v → f < numPhysPages ∧ ∀ p, ¬LandsLast b length h p (f * pageSize + v % pageSize))

/-- After the constructor, every byte of the program is found through the new page table. -/
def ImageIsProgram (raw : AddrSpace) (b : Bitmap) (file : List UInt8) (junk : ℕ → UInt8)
    (h : NoffHeader) : Prop :=
  ∀ (mem : Memory) (sp : AddrSpace) (k' : Phys),
    raw.construct ⟨b, mem⟩ (some file) junk = some (sp, k') →
    ∀ m : Machine, m.tlb = none → ∀ (v : Int) (c : UInt8),
      0 ≤ v → v < h.numPages * pageSize → Due file h v c →
      ∃ pa m', (sp.restoreState m).translate v 1 false = .done pa m' ∧ k'.mainMemory pa = c

theorem arrivals_of_landsLast (hload : Loadable b h) (hread : h.Readable)
    (hint : ∀ seg ∈ h.copied, intMin ≤ seg.inFileAddr ∧ seg.inFileAddr ≤ intMax) {p a : Int}
    (hl : LandsLast b file.length h p a) :
    arrivals file h (b.freeFrames h.numPages) a = file[p.toNat]? := by
  have hnd := nodup_freeFrames b h.numPages
  have hlands : ∀ seg ∈ h.copied, ∀ p, Lands file.length seg (b.freeFrames h.numPages) p a →
      ∃ c, arrival file seg (b.freeFrames h.numPages) a = some c := fun seg hseg p hl =>
    Option.isSome_iff_exists.mp ((arrival_isSome_iff seg hnd
      (inFileAddr_nonneg hload hread hint hseg) a).mpr ⟨p, hl⟩)
  rcases hl with hdata | ⟨hcode, hno⟩
  · obtain ⟨c, hc⟩ := hlands h.initData (by simp [NoffHeader.copied]) p hdata
    rw [arrivals, ← arrival_of_lands hnd hdata, hc]
    rfl
  · have hnone : arrival file h.initData (b.freeFrames h.numPages) a = none := by
      rw [← Option.not_isSome_iff_eq_none, arrival_isSome_iff _ hnd
        (inFileAddr_nonneg hload hread hint (by simp [NoffHeader.copied]))]
      exact fun ⟨q, hq⟩ => hno q hq
    rw [arrivals, hnone, Option.none_or, arrival_of_lands hnd hcode]

theorem arrivals_eq_none (hload : Loadable b h) (hread : h.Readable)
    (hint : ∀ seg ∈ h.copied, intMin ≤ seg.inFileAddr ∧ seg.inFileAddr ≤ intMax) {a : Int}
    (hno : ∀ p, ¬LandsLast b file.length h p a) :
    arrivals file h (b.freeFrames h.numPages) a = none := by
  have hdata : ∀ q, ¬Lands file.length h.initData (b.freeFrames h.numPages) q a :=
    fun q hq => hno q (.inl hq)
  rw [← Option.not_isSome_iff_eq_none, arrivals_isSome_iff]
  rintro ⟨seg, hseg, harr⟩
  obtain ⟨p, hp⟩ := (arrival_isSome_iff seg (nodup_freeFrames b h.numPages)
    (inFileAddr_nonneg hload hread hint hseg) a).mp harr
  simp only [NoffHeader.copied, List.mem_cons, List.not_mem_nil, or_false] at hseg
  rcases hseg with rfl | rfl
  · exact hno p (.inr ⟨hp, hdata⟩)
  · exact hdata p hp

/-- The page table maps an address of the space to its place in the frame of its page,
unless that frame is outside the physical memory. -/
theorem translate_loaded (hload : Loadable b h) (mem : Memory) {m : Machine} (htlb : m.tlb = none)
    {v : Int} (h0 : 0 ≤ v) (hv : v < h.numPages * pageSize) :
    ∃ f, (b.freeFrames h.numPages)[(v / pageSize).toNat]? = some f ∧ ∀ P : Int → Prop,
      (∃ pa m', ((⟨some (allocPages ⟨b, mem⟩ 0 h.numPages).1, h.numPages⟩ :
        AddrSpace).restoreState m).translate v 1 false = .done pa m' ∧ P pa) ↔
      f < numPhysPages ∧ P (f * pageSize + v % pageSize) := by
  set t := (allocPages ⟨b, mem⟩ 0 h.numPages).1 with ht
  have hfr : t.map TranslationEntry.physicalPage = b.freeFrames h.numPages :=
    (allocPages_bitmap (k := ⟨b, mem⟩) 0 (hload.room.trans b.length_freeList.ge)).1
  have hlen : t.length = h.numPages := length_allocPages _ _ _
  have hfits := hload.fits
  -- the space is small enough that no address of it is negative as an `int`
  have hu : unsigned v = v.toNat := by
    unfold numPhysPages at hfits
    unfold pageSize at hv
    unfold unsigned
    omega
  have hpage : unsigned v / pageSize = (v / pageSize).toNat := by
    rw [hu]
    unfold pageSize
    omega
  have hlt : (v / pageSize).toNat < t.length := by
    rw [hlen]
    unfold pageSize at *
    omega
  obtain ⟨hvalid, hro⟩ := allocPages_flags ⟨b, mem⟩ 0 h.numPages t[(v / pageSize).toNat]
    (List.getElem_mem _)
  set e := t[(v / pageSize).toNat] with he
  have hentry : t[unsigned v / pageSize]? = some e := by
    rw [hpage, List.getElem?_eq_getElem hlt]
  have hf : (b.freeFrames h.numPages)[(v / pageSize).toNat]? = some e.physicalPage := by
    rw [← hfr, List.getElem?_map, ← hpage, hentry, Option.map_some]
  refine ⟨e.physicalPage, hf, fun P => ?_⟩
  obtain ⟨hf0, hf1⟩ := mem_freeFrames (List.mem_of_getElem? hf)
  rw [hload.numBits] at hf1
  have hfu : unsigned e.physicalPage = e.physicalPage.toNat := by
    unfold unsigned
    omega
  rw [Machine.translate_eq (m := AddrSpace.restoreState ⟨some t, h.numPages⟩ m) htlb rfl]
  have hin : ¬ h.numPages ≤ unsigned v / pageSize := by
    rw [hpage]
    omega
  have hal : Machine.misaligned v 1 = false := by simp [Machine.misaligned]
  simp only [hal, hentry, hvalid, hro, AddrSpace.restoreState, hin, Bool.false_eq_true, if_false,
    Bool.true_eq_false, Bool.false_and]
  -- the bitmap has more bits than the memory has frames, which `Translate` finds out
  by_cases hlow : e.physicalPage < numPhysPages
  · have hpa : ((unsigned e.physicalPage * pageSize + unsigned v % pageSize : ℕ) : Int) =
        e.physicalPage * pageSize + v % pageSize := by
      rw [hfu, hu]
      push_cast
      rw [Int.toNat_of_nonneg hf0, Int.toNat_of_nonneg h0]
    have hend : e.physicalPage * pageSize + v % pageSize + 1 ≤ memorySize := by
      unfold memorySize numPhysPages pageSize at *
      push_cast
      omega
    rw [hpa, if_neg (by rw [hfu]; omega), if_pos hend]
    simp [hlow]
  · rw [if_pos (by rw [hfu]; omega)]
    simp [hlow]

theorem imageMemory_frame (mem : Memory) {f : Int} (hf : f ∈ b.freeFrames h.numPages) (v : Int) :
    imageMemory b file h mem (f * pageSize + v % pageSize) =
      (arrivals file h (b.freeFrames h.numPages) (f * pageSize + v % pageSize)).getD 0 := by
  have hdiv : (f * pageSize + v % pageSize) / pageSize = f := by
    unfold pageSize
    omega
  simp only [imageMemory, hdiv, hf, if_true]

theorem ImageIsProgram.arrivals (himg : ImageIsProgram raw b file junk h)
    (hh : readHeader file junk = h) (hload : Loadable b h) (hread : h.Readable) {v f : Int}
    {c : UInt8} (h0 : 0 ≤ v) (hv : v < h.numPages * pageSize)
    (hf : (b.freeFrames h.numPages)[(v / pageSize).toNat]? = some f) (hdue : Due file h v c) :
    f < numPhysPages ∧
      (Nachos.arrivals file h (b.freeFrames h.numPages) (f * pageSize + v % pageSize)).getD 0 =
        c := by
  have hint := hh ▸ readHeader_inFileAddr file junk
  let m : Machine := ⟨fun _ => 0, fun _ => 0, none, none, 0⟩
  have hfill : raw.construct ⟨b, fun _ => 0⟩ (some file) junk = _ :=
    (construct_eq_fill hh hload.magic _).trans (fill_eq_some hload hread hint fun _ => 0)
  obtain ⟨f', hf', hiff⟩ := translate_loaded hload (fun _ => 0) (m := m) rfl h0 hv
  obtain rfl : f' = f := Option.some.inj (hf'.symm.trans hf)
  obtain ⟨hlow, hbyte⟩ := (hiff _).mp (himg _ _ _ hfill m rfl v c h0 hv hdue)
  exact ⟨hlow, (imageMemory_frame (fun _ => 0) (List.mem_of_getElem? hf) v).symm.trans hbyte⟩

theorem readHeader_set {p : ℕ} (hp : 52 ≤ p) (c : UInt8) :
    readHeader (file.set p c) junk = readHeader file junk := by
  have hbyte : ∀ k < 52, (file.set p c).getD k (junk k) = file.getD k (junk k) := by
    intro k hk
    rw [List.getD_eq_getElem?_getD, List.getD_eq_getElem?_getD, List.getElem?_set_ne (by omega)]
  have hint : ∀ off ≤ 48, int32At (fun i => (file.set p c).getD i (junk i)) off =
      int32At (fun i => file.getD i (junk i)) off := by
    intro off hoff
    simp (disch := omega) only [int32At, hbyte]
  have hseg : ∀ off ≤ 40, segmentAt (fun i => (file.set p c).getD i (junk i)) off =
      segmentAt (fun i => file.getD i (junk i)) off := by
    intro off hoff
    simp (disch := omega) only [segmentAt, hint]
  unfold readHeader
  dsimp only
  rw [hint 0 (by omega), hseg 4 (by omega), hseg 16 (by omega), hseg 28 (by omega),
    hseg 40 (by omega)]

theorem imageIsProgram_of_readsPlaced (hh : readHeader file junk = h) (hload : Loadable b h)
    (hplaced : h.Readable → ReadsPlaced b file.length h) : ImageIsProgram raw b file junk h := by
  intro mem sp k' hc m htlb v c h0 hv hdue
  have hint := hh ▸ readHeader_inFileAddr file junk
  obtain ⟨hread, rfl, hmem⟩ := construct_cases hh hload hc
  obtain ⟨f, hf, hiff⟩ := translate_loaded hload mem htlb h0 hv
  obtain ⟨hcopied, hblank⟩ := hplaced hread v f h0 hv hf
  refine (hiff fun pa => k'.mainMemory pa = c).mpr ?_
  rw [hmem, imageMemory_frame mem (List.mem_of_getElem? hf)]
  rcases hdue with ⟨seg, hseg, hlo, hhi, hbyte⟩ | ⟨hzero, rfl⟩
  · unfold fileByte at hbyte
    split_ifs at hbyte with hpos
    obtain ⟨hlt, -⟩ := List.getElem?_eq_some_iff.mp hbyte
    obtain ⟨hlow, hlast⟩ := hcopied seg hseg hlo hhi hpos (by omega)
    rw [arrivals_of_landsLast hload hread hint hlast, hbyte]
    exact ⟨hlow, rfl⟩
  · obtain ⟨hlow, hno⟩ := hblank hzero
    rw [arrivals_eq_none hload hread hint hno]
    exact ⟨hlow, rfl⟩

theorem LandsLast.behind {length : ℕ} {p a : Int} (hl : LandsLast b length h p a)
    (hbody : ∀ seg ∈ h.copied, 0 < seg.size → 52 ≤ seg.inFileAddr) : 52 ≤ p ∧ p < length := by
  have hone : ∀ seg ∈ h.copied, Lands length seg (b.freeFrames h.numPages) p a →
      52 ≤ p ∧ p < length := by
    rintro seg hseg ⟨hsize, hlt, i, f, -, j, -, rfl, -⟩
    have := hbody seg hseg hsize
    exact ⟨by unfold pageSize; omega, hlt⟩
  rcases hl with hdata | ⟨hcode, -⟩
  · exact hone _ (by simp [NoffHeader.copied]) hdata
  · exact hone _ (by simp [NoffHeader.copied]) hcode

theorem exists_file_differing (hh : readHeader file junk = h) {p q : ℕ} (hqp : q ≠ p)
    (hp52 : 52 ≤ p) (hp : p < file.length) (hq52 : 52 ≤ q) :
    ∃ file' : List UInt8, file'.length = file.length ∧ readHeader file' junk = h ∧
      file'[p]? = some 1 ∧ (q < file.length → file'[q]? = some 0) := by
  refine ⟨(file.set p 1).set q 0, by simp, ?_, ?_, fun hq => ?_⟩
  · rw [readHeader_set hq52, readHeader_set hp52, hh]
  · rw [List.getElem?_set_ne hqp, List.getElem?_set_self hp]
  · rw [List.getElem?_set_self (by simpa using hq)]

theorem readsPlaced_of_images (hh : readHeader file junk = h) (hload : Loadable b h)
    (hbody : ∀ seg ∈ h.copied, 0 < seg.size → 52 ≤ seg.inFileAddr)
    (himg : ∀ file' : List UInt8, file'.length = file.length → readHeader file' junk = h →
      ImageIsProgram raw b file' junk h) (hread : h.Readable) :
    ReadsPlaced b file.length h := by
  intro v f h0 hv hf
  have hint := hh ▸ readHeader_inFileAddr file junk
  refine ⟨fun seg hseg hlo hhi hpos hlt => ?_, fun hzero => ?_⟩
  · set p := seg.inFileAddr + (v - seg.virtualAddr) with hp
    have hp52 : 52 ≤ p := by
      have := hbody seg hseg (by omega)
      omega
    have hdue : ∀ file' : List UInt8, file'.length = file.length → readHeader file' junk = h →
        file'[p.toNat]? = some 1 → f < numPhysPages ∧
          (arrivals file' h (b.freeFrames h.numPages) (f * pageSize + v % pageSize)).getD 0 =
            1 := by
      intro file' hlen hh' hone
      refine (himg file' hlen hh').arrivals hh' hload hread h0 hv hf
        (.inl ⟨seg, hseg, hlo, hhi, ?_⟩)
      rw [fileByte, if_pos hpos, hone]
    -- if the last read is from elsewhere, or there is none, the image may have a zero there
    obtain ⟨file₁, hlen₁, hh₁, hone₁, -⟩ :=
      exists_file_differing hh (p := p.toNat) (q := file.length) (by omega) (by omega) (by omega)
        (by omega)
    obtain ⟨hlow, hbyte₁⟩ := hdue file₁ hlen₁ hh₁ hone₁
    by_cases hex : ∃ q, LandsLast b file.length h q (f * pageSize + v % pageSize)
    · obtain ⟨q, hq⟩ := hex
      obtain ⟨hq52, hqlt⟩ := hq.behind hbody
      by_cases hqp : q = p
      · exact ⟨hlow, hqp ▸ hq⟩
      · obtain ⟨file', hlen, hh', hone, hzero⟩ :=
          exists_file_differing hh (p := p.toNat) (q := q.toNat) (by omega) (by omega) (by omega)
            (by omega)
        have hbyte := (hdue file' hlen hh' hone).2
        rw [arrivals_of_landsLast hload hread hint (hlen ▸ hq), hzero (by omega)] at hbyte
        cases hbyte
    · rw [arrivals_eq_none hload hread hint (hlen₁ ▸ not_exists.mp hex)] at hbyte₁
      cases hbyte₁
  · refine ⟨((himg file rfl hh).arrivals hh hload hread h0 hv hf (.inr ⟨hzero, rfl⟩)).1, ?_⟩
    intro q hq
    obtain ⟨hq52, hqlt⟩ := hq.behind hbody
    have hh' : readHeader (file.set q.toNat 1) junk = h := by
      rw [readHeader_set (by omega), hh]
    have hlen : (file.set q.toNat 1).length = file.length := List.length_set
    have hbyte := ((himg _ hlen hh').arrivals hh' hload hread h0 hv hf (.inr ⟨hzero, rfl⟩)).2
    rw [arrivals_of_landsLast hload hread hint (hlen.symm ▸ hq),
      List.getElem?_set_self (by omega)] at hbyte
    cases hbyte

/-- A program whose reads are all placed right is loaded right.  The condition asks for no
more than it has to: if all files with this header and length are loaded right, and the
copied segments lie behind the header, then the reads are placed right. -/
theorem image_is_program_of_placed (hh : readHeader file junk = h) (hload : Loadable b h) :
    ((h.Readable → ReadsPlaced b file.length h) → ImageIsProgram raw b file junk h) ∧
    ((∀ seg ∈ h.copied, 0 < seg.size → 52 ≤ seg.inFileAddr) →
      (∀ file' : List UInt8, file'.length = file.length → readHeader file' junk = h →
        ImageIsProgram raw b file' junk h) → h.Readable → ReadsPlaced b file.length h) :=
  ⟨imageIsProgram_of_readsPlaced hh hload, readsPlaced_of_images hh hload⟩

/-- With frame 1 in use the byte at virtual address 128 is not the data byte. -/
theorem image_misses_data :
    let b := (Bitmap.new 512).markBit 1
    Loadable b (readHeader splitProgram fun _ => 0) ∧ Due splitProgram splitHeader 128 0xda ∧
    ∃ sp k', (⟨none, 0⟩ : AddrSpace).construct ⟨b, fun _ => 0⟩ (some splitProgram) (fun _ => 0) =
        some (sp, k') ∧
      ∀ m : Machine, m.tlb = none → ∃ m', (sp.restoreState m).translate 128 1 false =
        .done 256 m' ∧ k'.mainMemory 256 = 0xee := by
  obtain ⟨sp, k', hc⟩ := construct_split loadable_split_marked
  refine ⟨readHeader_splitProgram ▸ loadable_split_marked, .inl ⟨splitHeader.initData, ?_⟩,
    sp, k', hc, fun m htlb => ?_⟩
  · refine ⟨by simp [NoffHeader.copied], by decide, by decide, ?_⟩
    decide +kernel
  obtain ⟨-, rfl, hmem⟩ := construct_cases readHeader_splitProgram loadable_split_marked hc
  obtain ⟨f, hf, hiff⟩ :=
    translate_loaded loadable_split_marked (fun _ => 0) htlb (v := 128) (by decide) (by decide)
  -- Page 1 of the space is frame 2.
  have hf2 : f = 2 := by
    rw [freeFrames_marked] at hf
    exact Option.some.inj hf.symm
  obtain ⟨pa, m', htr, rfl⟩ := (hiff fun pa => pa = 256).mpr
    ⟨by rw [hf2]; decide, by rw [hf2]; decide⟩
  refine ⟨m', htr, ?_⟩
  rw [hmem, imageMemory, freeFrames_marked]
  decide +kernel

theorem readsPlaced_split_new :
    ReadsPlaced (Bitmap.new 512) splitProgram.length splitHeader := by
  have hlength : splitProgram.length = 188 := by decide +kernel
  have hpages : splitHeader.numPages = 10 := by decide
  have hframe : ∀ (i : ℕ) (f : Int), ((Bitmap.new 512).freeFrames 10)[i]? = some f ↔
      i < 10 ∧ f = i := by
    intro i f
    rw [freeFrames_new (by omega), List.getElem?_map]
    by_cases hi : i < 10
    · simp [hi, eq_comm]
    · simp [hi]
  -- every read of a segment lands at the distance of the segment from its place in the file
  have hlands : ∀ (seg : Segment) (p a : Int),
      Lands 188 seg ((Bitmap.new 512).freeFrames 10) p a ↔ 0 < seg.size ∧ p < 188 ∧
        0 ≤ p - seg.inFileAddr ∧ p - seg.inFileAddr < 1280 ∧
        a - seg.virtualAddr = p - seg.inFileAddr := by
    intro seg p a
    unfold Lands
    refine and_congr_right fun _ => and_congr_right fun _ => ⟨?_, fun ⟨hlo, hhi, ha⟩ => ?_⟩
    · rintro ⟨i, f, hf, j, hj, rfl, rfl⟩
      obtain ⟨hi, rfl⟩ := (hframe i f).mp hf
      unfold pageSize at *
      omega
    · refine ⟨((p - seg.inFileAddr) / pageSize).toNat, _, (hframe _ _).mpr ⟨?_, rfl⟩,
        ((p - seg.inFileAddr) % pageSize).toNat, ?_, ?_, ?_⟩
      all_goals
        unfold pageSize
        omega
  intro v f h0 hv hf
  rw [hpages] at hv hf
  obtain ⟨hpage, rfl⟩ := (hframe _ f).mp hf
  have ha : ((v / pageSize).toNat : Int) * pageSize + v % pageSize = v := by
    unfold pageSize
    omega
  have hlow : ((v / pageSize).toNat : Int) < numPhysPages := by
    unfold numPhysPages
    omega
  unfold LandsLast NoffHeader.Blank
  simp only [ha, hlow, hlength, hpages, hlands, true_and]
  unfold pageSize userStackSize at *
  refine ⟨fun seg hseg hlo hhi hpos hlt => ?_, fun hzero p => ?_⟩
  · simp only [NoffHeader.copied, List.mem_cons, List.not_mem_nil, or_false] at hseg
    rcases hseg with rfl | rfl
    · refine .inr ⟨?_, fun q => ?_⟩
      all_goals
        simp only [splitHeader] at *
        omega
    · refine .inl ?_
      simp only [splitHeader] at *
      omega
  · simp only [splitHeader] at *
    omega

/-- On an empty bitmap the image of the same program is right. -/
theorem image_is_program_split_new : ∃ sp k', (⟨none, 0⟩ : AddrSpace).construct
    ⟨Bitmap.new 512, fun _ => 0⟩ (some splitProgram) (fun _ => 0) = some (sp, k') ∧
    ∀ m : Machine, m.tlb = none → ∀ (v : Int) (c : UInt8),
      0 ≤ v → v < splitHeader.numPages * pageSize → Due splitProgram splitHeader v c →
      ∃ pa m', (sp.restoreState m).translate v 1 false = .done pa m' ∧ k'.mainMemory pa = c := by
  obtain ⟨sp, k', hc⟩ := construct_split loadable_split_new
  refine ⟨sp, k', hc, ?_⟩
  exact (image_is_program_of_placed readHeader_splitProgram loadable_split_new).1
    (fun _ => readsPlaced_split_new) _ sp k' hc

end Construct

end Nachos
