import Nachos.SpaceSystem

namespace Nachos.SpaceSystem
open GuardedRun Ownership TwosComplement

namespace System

variable {s s' : System} {o : ℕ} {obj : Obj} {mainMemory : Memory}

theorem exec_destroy (os : List ℕ) (h : Owned s) (hh : s.halted = false) (hnd : os.Nodup)
    (hlive : ∀ o ∈ os, ∃ obj, s.objs o = some obj ∧ obj.phase = .live) :
    ∃ s', exec step anyStep s (os.map Act.destroy) = some s' ∧ s'.halted = false ∧ Owned s' ∧
      ∀ o, s'.objs o = if o ∈ os then none else s.objs o := by
  induction os generalizing s with
  | nil => exact ⟨s, rfl, hh, h, by simp⟩
  | cons o os ih =>
    obtain ⟨obj, hobj, hp⟩ := hlive o List.mem_cons_self
    obtain ⟨hno, hnd⟩ := List.nodup_cons.mp hnd
    obtain ⟨b, hb, -⟩ := doDestroy_live h hobj hp
    have hstep : step s (.destroy o) = some (s.doDestroy o obj) := by
      simp [step, hh, hobj, hp]
    have hobjs : (s.doDestroy o obj).objs = Function.update s.objs o none := by rw [hb]
    have hhalt : (s.doDestroy o obj).halted = false := by rwa [hb]
    obtain ⟨s', hexec, hh', howned, hleft⟩ := ih (owned_doDestroy h hobj hp) hhalt hnd (by
      intro p hmem
      have hpo : p ≠ o := by
        rintro rfl
        exact hno hmem
      rw [hobjs, Function.update_of_ne hpo]
      exact hlive p (List.mem_cons_of_mem _ hmem))
    refine ⟨s', ?_, hh', howned, fun p => ?_⟩
    · simp only [List.map_cons, exec, if_true, hstep, Option.bind_some]
      exact hexec
    · rw [hleft, hobjs]
      by_cases hpo : p = o
      · simp [hpo]
      · simp [hpo]

def bssProgram (hi : UInt8) : List UInt8 :=
  [0xad, 0xdf, 0xba, 0] ++ List.replicate 44 0 ++ [0, hi, 0, 0]

theorem readHeader_bssProgram (hi : UInt8) (junk : ℕ → UInt8) :
    readHeader (bssProgram hi) junk =
      ⟨NOFFMAGIC, ⟨0, 0, 0⟩, ⟨0, 0, 0⟩, ⟨0, 0, 0⟩, ⟨0, 0, 256 * hi.toNat⟩⟩ := by
  have hlt := hi.toNat_lt
  have hsize : wrap (256 * (hi.toNat : Int)) = 256 * hi.toNat :=
    wrap_of_range (by omega) (by omega)
  have hzero : wrap 0 = 0 := rfl
  have hmagic : wrap 12246957 = 12246957 := rfl
  simp [readHeader, bssProgram, segmentAt, int32At, NOFFMAGIC, hsize, hzero, hmagic]

theorem numPages_bssProgram (hi : UInt8) (junk : ℕ → UInt8) :
    (readHeader (bssProgram hi) junk).numPages =
      divRoundUp (unsigned (256 * hi.toNat + userStackSize)) pageSize := by
  rw [readHeader_bssProgram, NoffHeader.numPages]
  simp

theorem reach_bssProgram (hi : UInt8) {n : ℕ} (hh : s.halted = false)
    (hlock : s.addrLock = ⟨1, []⟩)
    (hn : divRoundUp (unsigned (256 * hi.toNat + userStackSize)) pageSize = n)
    (hbig : n ≤ numPhysPages) (hroom : n ≤ s.bitmap.freeList.length)
    (hlow : ∀ f ∈ s.bitmap.freeFrames n, Inside f) :
    ∃ s' obj, Reach step anyStep s s' ∧ s'.halted = false ∧ s'.addrLock = ⟨1, []⟩ ∧
      s'.next = s.next + 1 ∧ s'.bitmap.freeList = s.bitmap.freeList.drop n ∧
      s'.objs = Function.update s.objs s.next (some obj) ∧ obj.phase = .live ∧
      obj.space = ⟨some (allocPages s.phys 0 n).1, n⟩ ∧
      obj.frames = s.bitmap.freeFrames n := by
  have hheader := readHeader_bssProgram hi fun _ => 0
  have hpages : (readHeader (bssProgram hi) fun _ => 0).numPages = n := by
    rw [numPages_bssProgram, hn]
  have hfill : (⟨none, 0⟩ : AddrSpace).construct s.phys (some (bssProgram hi)) (fun _ => 0) =
      some (⟨some (allocPages s.phys 0 n).1, n⟩, (allocPages s.phys 0 n).2) := by
    simp only [AddrSpace.construct]
    rw [if_pos (by rw [hheader]), fill_of_room (hpages ▸ hbig)
      (by rwa [hpages, ← Bitmap.length_freeList]), hpages]
    simp [hheader, loadSegment]
  obtain ⟨hfr, hfree, -⟩ := allocPages_bitmap (k := s.phys) 0 hroom
  have hframes : (⟨some (allocPages s.phys 0 n).1, n⟩ : AddrSpace).frames =
      s.bitmap.freeFrames n := by
    rw [frames_allocPages, hfr]
  have hreach := reach_construct hh hlock hfill (by rwa [hpages, ← Bitmap.length_freeList])
    (by rwa [hframes]) (by simp [hheader])
  refine ⟨_, _, hreach, hh, hlock, rfl, hfree, rfl, rfl, rfl, ?_⟩
  rw [Obj.frames_of_assigned rfl, hframes]

/-- In every run, frames have one owner each and the bitmap marks the owned ones, and the
allocation loop always finds a frame.  As long as nothing has ended the run, no constructor
has failed, and destroying all spaces clears the bitmap: frames are too few only after
some outside `mainMemory` have been handed out, and the run ends where they are zeroed. -/
theorem frames_owned (h : Reach step anyStep (init mainMemory) s) :
    (∀ o, (s.frames o).Nodup) ∧
    (∀ o o', o ≠ o' → (s.frames o).Disjoint (s.frames o')) ∧
    (∀ f : Int, (∃ i ∈ s.bitmap.marked, f = (i : Int)) ↔ ∃ o, f ∈ s.frames o) ∧
    (∀ o obj, s.objs o = some obj → obj.phase = .allocating →
      obj.table.length < obj.space.numPages → s.bitmap.findAndSet.2 ≠ -1) ∧
    (s.halted = false → ∀ o obj, s.objs o = some obj → obj.phase.failed = false) ∧
    (∀ os : List ℕ, s.halted = false → os.Nodup →
      (∀ o, o ∈ os ↔ (s.objs o).isSome) →
      (∀ o obj, s.objs o = some obj → obj.phase = .live ∨ obj.phase = .refused) →
      ∃ s', exec step anyStep s (os.map Act.destroy) = some s' ∧ s'.halted = false ∧
        s'.bitmap.marked = ∅) := by
  have hown : Owned s := owned_of_reach h
  refine ⟨hown.exclusive.nodup, hown.exclusive.disjoint, hown.exclusive.used_iff, ?_,
    hown.admitted, ?_⟩
  · intro o obj hobj hp hlt
    obtain ⟨f, -, -, -, hset⟩ := findAndSet_of_room hown hobj hp hlt
    simp [hset]
  · intro os hh hnd hall hdone
    -- as the run goes on, no object is one whose constructor gave up
    have hlive : ∀ o ∈ os, ∃ obj, s.objs o = some obj ∧ obj.phase = .live := by
      intro o ho
      obtain ⟨obj, hobj⟩ := Option.isSome_iff_exists.mp ((hall o).mp ho)
      refine ⟨obj, hobj, (hdone o obj hobj).resolve_right fun hp => ?_⟩
      have := hown.admitted hh o obj hobj
      rw [hp] at this
      cases this
    obtain ⟨s', hexec, hh', hown', hleft⟩ := exec_destroy os hown hh hnd hlive
    refine ⟨s', hexec, hh', ?_⟩
    -- with no object left nobody holds a frame, so no bit is marked
    have hgone : ∀ o, s'.objs o = none := by
      intro o
      rw [hleft]
      split_ifs with ho
      · rfl
      · simpa [hall o] using ho
    have hused := hown'.exclusive.used_eq_empty fun o => by simp [frames, hgone o]
    refine Finset.eq_empty_of_forall_notMem fun i hi => ?_
    have : (i : Int) ∈ s'.used := ⟨i, hi, rfl⟩
    rw [hused] at this
    exact this

theorem inside_freeFrames_init (n : ℕ) (hn : n ≤ numPhysPages) :
    ∀ f ∈ (init mainMemory).bitmap.freeFrames n, Inside f := by
  intro f hf
  simp only [Bitmap.freeFrames, init, bitmap, Bitmap.freeList_new, List.take_range,
    List.mem_map, List.mem_range] at hf
  obtain ⟨i, hi, rfl⟩ := hf
  unfold Inside
  omega

/-- Eight pages are taken by a loaded program and given back by its destructor. -/
theorem frames_owned_one_program : ∃ s, Reach step anyStep (init fun _ => 0) s ∧
    s.frames 0 = [0, 1, 2, 3, 4, 5, 6, 7] ∧ (s.frames 0).Nodup ∧
    ∃ s', exec step anyStep s [.destroy 0] = some s' ∧ s'.bitmap.marked = ∅ := by
  obtain ⟨s, obj, hr, hh, -, -, -, hobjs, hp, -, hframes⟩ :=
    reach_bssProgram (s := init fun _ => 0) 0 (n := 8) rfl rfl rfl (by decide)
      (by simp [init, bitmap]) (inside_freeFrames_init 8 (by decide))
  have hobj : s.objs 0 = some obj := by simp [hobjs, init]
  obtain ⟨hnd, -, -, -, -, hdestroy⟩ := frames_owned hr
  obtain ⟨s', hexec, -, hclear⟩ := hdestroy [0] hh (by simp)
    (by intro o; by_cases ho : o = 0 <;> simp [hobjs, init, ho])
    (by
      intro o q hq
      by_cases ho : o = 0
      · subst ho
        rw [hobj] at hq
        cases hq
        exact .inl hp
      · simp [hobjs, init, ho] at hq)
  refine ⟨s, hr, ?_, hnd 0, s', hexec, hclear⟩
  rw [frames_of_objs hobj, hframes]
  simp [init, bitmap, Bitmap.freeFrames, List.take_range]
  decide

/-- Before a round of the allocation loop one of the first `NumPhysPages` bits is clear. -/
def frameLeft (s : System) : Act → Bool
  | .run o =>
    match s.objs o with
    | some obj =>
      if obj.phase = .allocating ∧ obj.table.length < obj.space.numPages then
        (List.range numPhysPages).any fun i => !s.bitmap.testBit i
      else true
    | none => true
  | _ => true

theorem frames_wake (s : System) (w : Option ℕ) : (s.wake w).frames = s.frames := by
  unfold wake
  cases w with
  | none => rfl
  | some p =>
    dsimp only
    cases hq : s.objs p with
    | none => rfl
    | some q =>
      refine frames_put_of_eq ?_
      rw [frames_of_objs hq]
      cases hph : q.phase <;> simp [Obj.frames, hph, Phase.wake, Phase.assigned]

section Listed
variable {t : System} {p : ℕ} {q : Obj} {f : Int}

/-- An object that lists no more than the one it takes the place of. -/
theorem mem_frames_put (ht : t.objs = (s.put p q).objs) (hq : ∀ g ∈ q.frames, g ∈ s.frames p)
    (hf : f ∈ t.frames o) : f ∈ s.frames o := by
  have hput : t.frames = (s.put p q).frames := by
    unfold frames
    rw [ht]
  rw [hput, frames_put] at hf
  by_cases hop : o = p
  · subst hop
    exact hq f (by simpa using hf)
  · simpa [hop] using hf

theorem mem_frames_phase {ph : Phase} (hobj : s.objs p = some obj)
    (ht : t.objs = (s.put p { obj with phase := ph }).objs)
    (hph : obj.phase.assigned = true ∨ ph.assigned = false) (hf : f ∈ t.frames o) :
    f ∈ s.frames o := by
  refine mem_frames_put ht (fun g hg => ?_) hf
  rcases hph with hph | hph
  · rw [frames_of_objs hobj, Obj.frames_of_assigned hph]
    rw [Obj.frames] at hg
    split_ifs at hg
    · exact hg
    · cases hg
  · rw [Obj.frames_of_not_assigned hph] at hg
    cases hg

theorem mem_frames_doConstruct {raw : AddrSpace} {executable : Option (List UInt8)}
    {junk : ℕ → UInt8} (hf : f ∈ (s.doConstruct raw executable junk).frames o) :
    f ∈ s.frames o := by
  unfold doConstruct at hf
  cases executable with
  | none => exact hf
  | some file =>
    dsimp only at hf
    split_ifs at hf
    · refine mem_frames_put (p := s.next) rfl (fun g hg => ?_) hf
      rw [Obj.frames_of_not_assigned rfl] at hg
      cases hg
    · exact hf

theorem mem_frames_doDestroy (hf : f ∈ (s.doDestroy p obj).frames o) : f ∈ s.frames o := by
  unfold doDestroy at hf
  split at hf
  · exact hf
  split_ifs at hf
  · exact hf
  by_cases hop : o = p
  · simp [frames, hop] at hf
  · simpa [frames, hop] using hf

theorem mem_frames_doCheck (hf : f ∈ (s.doCheck p obj).frames o) : f ∈ s.frames o := by
  unfold doCheck at hf
  dsimp only at hf
  split_ifs at hf
  · exact hf
  · exact mem_frames_put rfl (by simp [Obj.frames, Phase.assigned]) hf
  · exact mem_frames_put rfl (by simp [Obj.frames, AddrSpace.frames]) hf

theorem mem_frames_doCopy {seg : Segment} {i : ℕ} {again after : Phase}
    (hobj : s.objs p = some obj) (hp : obj.phase.assigned = true)
    (hf : f ∈ (s.doCopy p obj seg i again after).frames o) : f ∈ s.frames o := by
  unfold doCopy at hf
  split_ifs at hf
  · split at hf
    · exact hf
    · exact mem_frames_phase hobj rfl (.inl hp) hf
  · exact mem_frames_phase hobj rfl (.inl hp) hf

theorem mem_frames_doUnlock {after : Phase} (hobj : s.objs p = some obj)
    (hp : obj.phase.assigned = true ∨ after.assigned = false)
    (hf : f ∈ (s.doUnlock p obj after).frames o) : f ∈ s.frames o := by
  unfold doUnlock at hf
  rw [frames_wake] at hf
  exact mem_frames_phase hobj rfl hp hf

/-- The frame that a round of the allocation loop finds is the only one to come to a list. -/
theorem mem_frames_doAlloc (hobj : s.objs p = some obj) (hp : obj.phase = .allocating)
    (hf : f ∈ (s.doAlloc p obj).frames o) :
    f ∈ s.frames o ∨
      o = p ∧ obj.table.length < obj.space.numPages ∧ f = s.bitmap.findAndSet.2 := by
  unfold doAlloc at hf
  split_ifs at hf with hlt
  · have hupd : (s.put p { obj with space := { obj.space with
        pageTable := some (obj.table ++ [(allocPage s.phys obj.table.length).1]) } }).frames =
        Function.update s.frames p (obj.frames ++ [s.bitmap.findAndSet.2]) := by
      rw [frames_put, frames_append hp hlt]
      rfl
    have hf' : f ∈ Function.update s.frames p (obj.frames ++ [s.bitmap.findAndSet.2]) o :=
      hupd ▸ hf
    by_cases hop : o = p
    · subst hop
      rw [Function.update_self, ← frames_of_objs hobj, List.mem_append, List.mem_singleton] at hf'
      exact hf'.imp_right fun hnew => ⟨rfl, hlt, hnew⟩
    · exact .inl (by simpa [hop] using hf')
  · exact .inl (mem_frames_phase hobj rfl (.inl (by rw [hp]; rfl)) hf)

theorem mem_frames_step {a : Act} (hs : step s a = some s') (hf : f ∈ s'.frames o) :
    f ∈ s.frames o ∨ ∃ obj, a = .run o ∧ s.objs o = some obj ∧ obj.phase = .allocating ∧
      obj.table.length < obj.space.numPages ∧ f = s.bitmap.findAndSet.2 := by
  unfold step at hs
  split_ifs at hs
  cases a with
  | construct raw executable junk =>
    cases hs
    exact .inl (mem_frames_doConstruct hf)
  | destroy p =>
    obtain ⟨obj, hobj, hs⟩ := Option.bind_eq_some_iff.mp hs
    split_ifs at hs with hp
    cases hs
    exact .inl (mem_frames_doDestroy hf)
  | run p =>
    obtain ⟨obj, hobj, hs⟩ := Option.bind_eq_some_iff.mp hs
    unfold advance at hs
    split at hs <;> cases hs
    · refine .inl (mem_frames_phase hobj rfl (.inr ?_) hf)
      split_ifs <;> rfl
    · exact .inl (mem_frames_doCheck hf)
    · next hp =>
      refine (mem_frames_doAlloc hobj hp hf).imp_right ?_
      rintro ⟨rfl, hlt, hnew⟩
      exact ⟨obj, rfl, hobj, hp, hlt, hnew⟩
    · next hp => exact .inl (mem_frames_doCopy hobj (by rw [hp]; rfl) hf)
    · next hp => exact .inl (mem_frames_doCopy hobj (by rw [hp]; rfl) hf)
    · exact .inl (mem_frames_doUnlock hobj (.inr rfl) hf)
    · next hp => exact .inl (mem_frames_doUnlock hobj (.inl (by rw [hp]; rfl)) hf)

end Listed

theorem frames_lt_of_reach (h : Reach step (fun s a => frameLeft s a = true) (init mainMemory) s) :
    ∀ o, ∀ f ∈ s.frames o, 0 ≤ f ∧ f < numPhysPages := by
  refine h.invariant_of_reach
    (I := fun s => ∀ o, ∀ f ∈ s.frames o, 0 ≤ f ∧ f < (numPhysPages : Int))
    (by simp [frames, init]) ?_
  intro s a s' hr hI hok hs o f hf
  rcases mem_frames_step hs hf with hold | ⟨obj, rfl, hobj, hp, hlt, rfl⟩
  · exact hI o f hold
  · simp only [frameLeft, hobj, hp, hlt, and_self, if_true, List.any_eq_true, List.mem_range,
      Bool.not_eq_true'] at hok
    obtain ⟨i, hi, hclear⟩ := hok
    have hbits : s.bitmap.numBits = 512 := (owned_of_reach hr).numBits
    have hi' : i < s.bitmap.numBits := by
      rw [hbits]
      unfold numPhysPages at hi
      omega
    obtain ⟨g, hgi, -, -, hset⟩ := Bitmap.findAndSet_of_clear hi'
      (by simp [Bitmap.mem_marked, hclear])
    rw [hset]
    exact ⟨by omega, by simp only; omega⟩

/-- In every run in which each round of an allocation loop finds one of the first
`NumPhysPages` bits clear, frames lie in the physical memory, the zeroing of a frame
touches nothing else, and no page of a loaded process gives a bus error. -/
theorem frames_in_memory
    (h : Reach step (fun s a => frameLeft s a = true) (init mainMemory) s)
    (hobj : s.objs o = some obj) :
    (∀ f ∈ obj.frames, 0 ≤ f ∧ f < numPhysPages ∧
      ∀ (mem : Memory) (a : Int), a < 0 ∨ memorySize ≤ a →
        bzero mem (wrap (f * pageSize)) pageSize a = mem a) ∧
    (obj.phase = .live → ∀ m : Machine, m.tlb = none → ∀ virtAddr size writing e m',
      (obj.space.restoreState m).translate virtAddr size writing = .raised e m' →
        e ≠ .busErrorException) := by
  have hlow : ∀ f ∈ obj.frames, 0 ≤ f ∧ f < numPhysPages :=
    frames_of_objs hobj ▸ frames_lt_of_reach h o
  refine ⟨fun f hf => ⟨(hlow f hf).1, (hlow f hf).2, fun mem a ha => ?_⟩, ?_⟩
  · obtain ⟨h0, h1⟩ := hlow f hf
    obtain ⟨i, rfl⟩ := Int.eq_ofNat_of_zero_le h0
    unfold numPhysPages at h1
    rw [bzero_frame (by omega), if_neg]
    unfold memorySize numPhysPages pageSize at ha
    unfold pageSize
    omega
  · intro hp m htlb virtAddr size writing e m' htr
    refine Machine.translate_ne_busError (m := obj.space.restoreState m) htlb ?_ htr
    intro f hf
    rw [frames_restoreState, ← Obj.frames_of_assigned (by rw [hp]; rfl)] at hf
    obtain ⟨h0, h1⟩ := hlow f hf
    unfold numPhysPages at h1 ⊢
    unfold unsigned
    omega

/-- A program of 128 pages and then one of eight: page 0 of the second gets frame 128.  Its
`bzero` starts at the end of `mainMemory`, and `Translate` refuses the page. -/
theorem second_program_outside_memory : ∃ s o obj, Reach step anyStep (init fun _ => 0) s ∧
    s.objs o = some obj ∧ 128 ∈ obj.frames ∧ 0 < obj.space.numPages ∧
    obj.header.numPages ≤ numPhysPages ∧ s.halted = true ∧
    (∀ (mem : Memory) (a : Int), memorySize ≤ a → a < memorySize + pageSize →
      bzero mem (wrap (128 * pageSize)) pageSize a = 0) ∧
    ∀ m : Machine, m.tlb = none → (obj.space.restoreState m).translate 0 4 false =
      .raised .busErrorException (obj.space.restoreState m) := by
  obtain ⟨s₁, -, hr₁, hh₁, hlock₁, -, hfree₁, -⟩ :=
    reach_bssProgram (s := init fun _ => 0) 60 (n := 128) rfl rfl rfl (by decide)
      (by simp [init, bitmap]) (inside_freeFrames_init 128 (by decide))
  have hlist : s₁.bitmap.freeList = 128 :: (List.range 512).drop 129 := by
    rw [hfree₁, List.drop_eq_getElem_cons (by simp [init, bitmap])]
    simp [init, bitmap]
  have hpages : (readHeader (bssProgram 0) fun _ => 0).numPages = 8 := numPages_bssProgram 0 _
  set t : System := { s₁ with addrLock := ⟨0, []⟩, next := s₁.next + 1 }
  have hentered : Reach step anyStep s₁ (t.moved s₁.next ⟨.checking, bssProgram 0,
      readHeader (bssProgram 0) fun _ => 0, ⟨none, 0⟩⟩ s₁.phys) :=
    reach_entered hh₁ hlock₁ (by rw [readHeader_bssProgram])
  have hchecked : Reach step anyStep (t.moved s₁.next ⟨.checking, bssProgram 0,
      readHeader (bssProgram 0) fun _ => 0, ⟨none, 0⟩⟩ s₁.phys) (t.moved s₁.next ⟨.allocating,
      bssProgram 0, readHeader (bssProgram 0) fun _ => 0, ⟨some [],
      (readHeader (bssProgram 0) fun _ => 0).numPages⟩⟩ s₁.phys) :=
    reach_checking hh₁ (by rw [hpages]; decide)
      (by rw [hpages, ← Bitmap.length_freeList]; simp [hlist])
  rw [hpages] at hchecked
  let obj : Obj := ⟨.allocating, bssProgram 0, readHeader (bssProgram 0) fun _ => 0,
    ⟨some [⟨0, 128, true, false, false, false⟩], 8⟩⟩
  have hround : Reach step anyStep (t.moved s₁.next ⟨.allocating, bssProgram 0,
      readHeader (bssProgram 0) fun _ => 0, ⟨some [], 8⟩⟩ s₁.phys)
      (t.moved s₁.next obj (allocPage s₁.phys 0).2).abort := by
    refine .single (a := .run s₁.next) trivial ?_
    have hhalt : t.halted = false := hh₁
    simp [step, hhalt, moved, put, advance, doAlloc, Obj.table, System.abort, obj,
      allocPage_of_freeList hlist, Inside, numPhysPages]
  refine ⟨_, s₁.next, obj, ((hr₁.trans hentered).trans hchecked).trans hround,
    by simp [System.abort, moved, put], by simp [Obj.frames, obj, Phase.assigned, AddrSpace.frames],
    by simp [obj], by rw [hpages]; decide, rfl, ?_, ?_⟩
  · intro mem a hlo hhi
    rw [show (128 : Int) = ((128 : ℕ) : Int) from rfl, bzero_frame (by decide), if_pos]
    unfold memorySize numPhysPages pageSize at *
    omega
  · intro m htlb
    have htable : (obj.space.restoreState m).pageTable =
      some [⟨0, 128, true, false, false, false⟩] := rfl
    have hsize : (obj.space.restoreState m).pageTableSize = 8 := rfl
    rw [Machine.translate_eq (m := obj.space.restoreState m) htlb htable]
    simp [Machine.misaligned, hsize, unsigned, pageSize, numPhysPages]

/-- One program of eight pages on a fresh machine stays low. -/
theorem frames_in_memory_one_program : ∃ s obj,
    Reach step (fun s a => frameLeft s a = true) (init fun _ => 0) s ∧ s.objs 0 = some obj ∧
    obj.frames = [0, 1, 2, 3, 4, 5, 6, 7] ∧ ∀ f ∈ obj.frames, f < numPhysPages := by
  let acts : List Act :=
    .construct ⟨none, 0⟩ (some (bssProgram 0)) (fun _ => 0) :: List.replicate 14 (.run 0)
  have hrun : ((exec step (fun s a => frameLeft s a = true) (init fun _ => 0) acts).bind
      fun s => (s.objs 0).map Obj.frames) = some [0, 1, 2, 3, 4, 5, 6, 7] := by decide +kernel
  obtain ⟨s, hexec, hs⟩ := Option.bind_eq_some_iff.mp hrun
  obtain ⟨obj, hobj, hframes⟩ := Option.map_eq_some_iff.mp hs
  have hr := reach_of_exec acts hexec
  exact ⟨s, obj, hr, hobj, hframes, fun f hf => ((frames_in_memory hr hobj).1 f hf).2.1⟩

theorem inFrame_inj {i j : ℕ} (hi : i < 512) (hj : j < 512) {a : Int}
    (h : Machine.InFrame i a) (h' : Machine.InFrame j a) : i = j := by
  unfold Machine.InFrame unsigned pageSize at h h'
  omega

/-- What one process writes, another process cannot read. -/
theorem write_unseen (h : Reach step anyStep (init mainMemory) s) {o' : ℕ} {A B : Obj}
    (hne : o ≠ o') (hA : s.objs o = some A) (hB : s.objs o' = some B)
    (hAlive : A.phase = .live) (hBlive : B.phase = .live) {m m' : Machine} (htlb : m.tlb = none)
    {addr size value : Int}
    (hw : ((A.space.restoreState m).writeMem addr size value).machine = some m') (a sz : Int) :
    ((B.space.restoreState m').readMem a sz).seen =
      ((B.space.restoreState m).readMem a sz).seen := by
  have hown : Owned s := owned_of_reach h
  have hfA : s.frames o = A.space.frames := by
    rw [frames_of_objs hA, Obj.frames_of_assigned (by rw [hAlive]; rfl)]
  have hfB : s.frames o' = B.space.frames := by
    rw [frames_of_objs hB, Obj.frames_of_assigned (by rw [hBlive]; rfl)]
  -- the write leaves every byte outside the frames of `A` alone
  have hkeep := fun x hx =>
    Machine.writeMem_frame (m := A.space.restoreState m) htlb (a := x) hx hw
  have htlb' : m'.tlb = none := by
    refine (hkeep (-1) fun f _ hin => ?_).1
    have := hin.1
    omega
  have htlb₁ : (B.space.restoreState m').tlb = none := htlb'
  have htlb₂ : (B.space.restoreState m).tlb = none := htlb
  refine Machine.readMem_seen_congr htlb₁ htlb₂ rfl rfl ?_ a sz
  intro f hf x hx
  refine (hkeep x fun g hg hgx => ?_).2
  rw [frames_restoreState, ← hfA] at hg
  rw [frames_restoreState, ← hfB] at hf
  obtain ⟨i, hi, rfl⟩ := hown.mem_frames hf
  obtain ⟨j, hj, rfl⟩ := hown.mem_frames hg
  rw [inFrame_inj hj hi hgx hx] at hg
  exact hown.exclusive.disjoint o o' hne hg hf

/-- Two programs of eight pages: a write by the first through its address 0. -/
theorem write_unseen_two_programs : ∃ s A B, Reach step anyStep (init fun _ => 0) s ∧
    s.objs 0 = some A ∧ s.objs 1 = some B ∧ ∀ m : Machine, m.tlb = none →
    ∃ m', ((A.space.restoreState m).writeMem 0 4 7).machine = some m' ∧
      m'.mainMemory 0 = 7 ∧ ∀ a sz, ((B.space.restoreState m').readMem a sz).seen =
        ((B.space.restoreState m).readMem a sz).seen := by
  obtain ⟨s₁, A, hr₁, hh₁, hlock₁, hnext₁, hfree₁, hobjs₁, hA, hspace, -⟩ :=
    reach_bssProgram (s := init fun _ => 0) 0 (n := 8) rfl rfl rfl (by decide)
      (by simp [init, bitmap]) (inside_freeFrames_init 8 (by decide))
  have hlow : ∀ f ∈ s₁.bitmap.freeFrames 8, Inside f := by
    intro f hf
    rw [Bitmap.freeFrames, hfree₁] at hf
    simp only [init, bitmap, Bitmap.freeList_new, List.take_drop, List.take_range,
      List.mem_map] at hf
    obtain ⟨i, hi, rfl⟩ := hf
    have := List.mem_range.mp (List.mem_of_mem_drop hi)
    unfold Inside numPhysPages
    omega
  obtain ⟨s₂, B, hr₂, -, -, -, -, hobjs₂, hB, -⟩ :=
    reach_bssProgram 0 (n := 8) hh₁ hlock₁ rfl (by decide) (by simp [hfree₁, init, bitmap]) hlow
  have hnext : s₁.next = 1 := hnext₁
  have hobjA : s₂.objs 0 = some A := by simp [hobjs₂, hobjs₁, hnext, init]
  have hobjB : s₂.objs 1 = some B := by simp [hobjs₂, hnext]
  refine ⟨s₂, A, B, hr₁.trans hr₂, hobjA, hobjB, fun m htlb => ?_⟩
  have htable : (A.space.restoreState m).pageTable =
      some (allocPages (init fun _ => 0).phys 0 8).1 := by
    simp [AddrSpace.restoreState, hspace]
  have hlist : (init fun _ => 0).phys.gPhysPageBitMap.freeList =
      0 :: (List.range 511).map Nat.succ := by
    rw [init, Bitmap.freeList_new, ← List.range_succ_eq_map]
  have hentry : (allocPages (init fun _ => 0).phys 0 8).1[0]? =
      some ⟨0, 0, true, false, false, false⟩ := by
    simp [allocPages, allocPage_of_freeList hlist]
  have hsize : (A.space.restoreState m).pageTableSize = 8 := by
    simp [AddrSpace.restoreState, hspace]
  have htr := Machine.translate_eq (m := A.space.restoreState m) htlb htable 0 4 true
  simp [Machine.misaligned, hsize, unsigned, pageSize, hentry, numPhysPages, memorySize] at htr
  have hw : ∃ m', ((A.space.restoreState m).writeMem 0 4 7).machine = some m' ∧
      m'.mainMemory 0 = 7 := by
    simp [Machine.writeMem, htr, Machine.store, Machine.Outcome.machine, Machine.byteOf, unsigned]
  obtain ⟨m', hm', hbyte⟩ := hw
  exact ⟨m', hm', hbyte, write_unseen (hr₁.trans hr₂) (by decide) hobjA hobjB hA hB htlb hm'⟩

end System
end Nachos.SpaceSystem
