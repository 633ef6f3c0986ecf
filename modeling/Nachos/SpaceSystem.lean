import Nachos.Lib.GuardedRun
import Nachos.Lib.Ownership
import Nachos.Semaphore
import Nachos.AddrSpace

namespace Nachos.SpaceSystem
open GuardedRun Ownership

/-- Where the constructor of an object is: at the test in `addrLock->P()`, asleep
there, at the page count, in one of its three loops, at `addrLock->V()`, or done.  Where
frames are too few it goes to another `addrLock->V()` and returns early. -/
inductive Phase where
  | locking | asleep | checking
  | refusing | refused
  | allocating
  | copyingCode (i : ℕ) | copyingData (i : ℕ)
  | unlocking | live
  deriving DecidableEq, Repr

def Phase.holds : Phase → Bool
  | .locking | .asleep | .refused | .live => false
  | _ => true

def Phase.assigned : Phase → Bool
  | .locking | .asleep | .checking | .refusing | .refused => false
  | _ => true

def Phase.failed : Phase → Bool
  | .refusing | .refused => true
  | _ => false

def Phase.wake : Phase → Phase
  | .asleep => .locking
  | p => p

structure Obj where
  phase : Phase
  file : List UInt8
  header : NoffHeader
  space : AddrSpace

def Obj.table (obj : Obj) : List TranslationEntry := obj.space.pageTable.getD []

def Obj.frames (obj : Obj) : List Int := if obj.phase.assigned then obj.space.frames else []

theorem Obj.frames_of_assigned {obj : Obj} (h : obj.phase.assigned = true) :
    obj.frames = obj.space.frames := if_pos h

theorem Obj.frames_of_not_assigned {obj : Obj} (h : obj.phase.assigned = false) :
    obj.frames = [] := if_neg (by simp [h])

/-- Any number of threads run the constructor `AddrSpace(fileName)`, one object each, and
destroy finished objects; they may be interrupted between any two rounds of its loops.
Objects are numbered in the order of their allocation; `none` is not yet allocated or
deleted.  What ends the run sets `halted`: a failed assertion, a byte written outside
`mainMemory`, and `delete []` of a pointer that was never assigned. -/
structure System where
  phys : Phys
  addrLock : Semaphore ℕ
  objs : ℕ → Option Obj
  next : ℕ
  halted : Bool

namespace System

def init (mainMemory : Memory) : System :=
  ⟨⟨Bitmap.new 512, mainMemory⟩, Semaphore.new 1, fun _ => none, 0, false⟩

abbrev bitmap (s : System) : Bitmap := s.phys.gPhysPageBitMap

def abort (s : System) : System := { s with halted := true }

def put (s : System) (o : ℕ) (obj : Obj) : System :=
  { s with objs := Function.update s.objs o (some obj) }

/-- `ReadyToRun` on the thread that `V` took off the queue. -/
def wake (s : System) : Option ℕ → System
  | none => s
  | some o =>
    match s.objs o with
    | none => s
    | some obj => s.put o { obj with phase := obj.phase.wake }

def doConstruct (s : System) (raw : AddrSpace) (executable : Option (List UInt8))
    (junk : ℕ → UInt8) : System :=
  match executable with
  | none => s.abort
  | some file =>
    let header := readHeader file junk
    if header.noffMagic = NOFFMAGIC then
      { s.put s.next ⟨.locking, file, header, raw⟩ with next := s.next + 1 }
    else s.abort

def doLock (s : System) (o : ℕ) (obj : Obj) : System :=
  let r := s.addrLock.P o
  { s.put o { obj with phase := if r.2 then .checking else .asleep } with addrLock := r.1 }

def doCheck (s : System) (o : ℕ) (obj : Obj) : System :=
  let numPages := obj.header.numPages
  if numPages > numPhysPages then s.abort
  else if numPages > s.bitmap.numClear then
    s.put o { obj with phase := .refusing, space := { obj.space with numPages := 0 } }
  else s.put o { obj with phase := .allocating, space := ⟨some [], numPages⟩ }

abbrev Inside (f : Int) : Prop := 0 ≤ f ∧ f < numPhysPages

/-- The entry is stored and the bit marked before `bzero` may leave `mainMemory`. -/
def doAlloc (s : System) (o : ℕ) (obj : Obj) : System :=
  if obj.table.length < obj.space.numPages then
    let r := allocPage s.phys obj.table.length
    let obj := { obj with space := { obj.space with pageTable := some (obj.table ++ [r.1]) } }
    { s.put o obj with
      phys := r.2
      halted := !decide (Inside r.1.physicalPage) }
  else s.put o { obj with phase := .copyingCode 0 }

/-- Whether the bytes that `ReadAt` finds for page `i` of a segment all go to `mainMemory`. -/
def copyInside (file : List UInt8) (frames : List Int) (seg : Segment) (i : ℕ) : Bool :=
  let into := destination seg (frames.getD i 0)
  let count := min pageSize (file.length - (position seg i).toNat)
  decide (count = 0 ∨ 0 ≤ into ∧ into + count ≤ memorySize)

def doCopy (s : System) (o : ℕ) (obj : Obj) (seg : Segment) (i : ℕ) (again after : Phase) :
    System :=
  if seg.size > 0 ∧ i < obj.space.numPages then
    match loadPage obj.file seg obj.space.frames s.phys.mainMemory i with
    | none => s.abort
    | some mem =>
      { s.put o { obj with phase := again } with
        phys := ⟨s.bitmap, mem⟩
        halted := !copyInside obj.file obj.space.frames seg i }
  else s.put o { obj with phase := after }

def doUnlock (s : System) (o : ℕ) (obj : Obj) (after : Phase) : System :=
  let r := s.addrLock.V
  ({ s.put o { obj with phase := after } with addrLock := r.1 } : System).wake r.2

def advance (s : System) (o : ℕ) (obj : Obj) : Option System :=
  match obj.phase with
  | .locking => some (s.doLock o obj)
  | .asleep => none
  | .checking => some (s.doCheck o obj)
  | .allocating => some (s.doAlloc o obj)
  | .copyingCode i =>
    some (s.doCopy o obj obj.header.code i (.copyingCode (i + 1)) (.copyingData 0))
  | .copyingData i => some (s.doCopy o obj obj.header.initData i (.copyingData (i + 1)) .unlocking)
  | .refusing => some (s.doUnlock o obj .refused)
  | .unlocking => some (s.doUnlock o obj .live)
  | .refused | .live => none

/-- `delete space`, which takes no lock.  Where the constructor has returned early,
`delete [] pageTable` is given a pointer that was never assigned. -/
def doDestroy (s : System) (o : ℕ) (obj : Obj) : System :=
  match obj.space.destroy s.bitmap with
  | none => s.abort
  | some b =>
    if obj.phase.failed then s.abort
    else { s with phys := ⟨b, s.phys.mainMemory⟩, objs := Function.update s.objs o none }

inductive Act where
  | construct (raw : AddrSpace) (executable : Option (List UInt8)) (junk : ℕ → UInt8)
  | run (o : ℕ)
  | destroy (o : ℕ)

/-- `none` where the action is not possible in the state. -/
def step (s : System) (a : Act) : Option System :=
  if s.halted then none else
  match a with
  | .construct raw executable junk => some (s.doConstruct raw executable junk)
  | .run o => (s.objs o).bind (s.advance o)
  | .destroy o =>
    (s.objs o).bind fun obj =>
      if obj.phase = .live ∨ obj.phase = .refused then some (s.doDestroy o obj) else none

def frames (s : System) (o : ℕ) : List Int := ((s.objs o).map Obj.frames).getD []

def used (s : System) : Set Int := {f | ∃ i ∈ s.bitmap.marked, f = (i : Int)}

/-- Every frame has one owner and the lock one holder.  As long as the run goes on the
frames are those of `mainMemory`, and so the 512 bits of the bitmap suffice for every
constructor that passes the assertion on `numPages`. -/
structure Owned (s : System) : Prop where
  numBits : s.bitmap.numBits = 512
  exclusive : Exclusive s.frames s.used
  fresh : ∀ o, s.next ≤ o → s.objs o = none
  value : s.addrLock.value = 0 ∨ s.addrLock.value = 1
  locked : ∀ o obj, s.objs o = some obj → obj.phase.holds = true → s.addrLock.value = 0
  alone : ∀ o obj o' obj', s.objs o = some obj → s.objs o' = some obj' →
    obj.phase.holds = true → obj'.phase.holds = true → o = o'
  room : ∀ o obj, s.objs o = some obj → obj.phase = .allocating →
    obj.space.numPages ≤ obj.table.length + s.bitmap.numClear
  low : s.halted = false → ∀ i ∈ s.bitmap.marked, i < numPhysPages
  admitted : s.halted = false → ∀ o obj, s.objs o = some obj → obj.phase.failed = false

variable {s : System} {o : ℕ} {obj obj' : Obj}

theorem frames_of_objs (h : s.objs o = some obj) : s.frames o = obj.frames := by
  simp [frames, h]

theorem frames_put (s : System) (o : ℕ) (obj : Obj) :
    (s.put o obj).frames = Function.update s.frames o obj.frames := by
  ext1 p
  by_cases hp : p = o
  · subst hp
    simp [frames, put]
  · simp [frames, put, hp]

theorem frames_put_of_eq (h : obj'.frames = s.frames o) : (s.put o obj').frames = s.frames := by
  rw [frames_put, h, Function.update_eq_self]

theorem objs_put_of_some {p : ℕ} {q : Obj} (h : (s.put o obj).objs p = some q) :
    (p = o ∧ q = obj) ∨ (p ≠ o ∧ s.objs p = some q) := by
  by_cases hp : p = o
  · subst hp
    exact .inl ⟨rfl, by simpa [put] using h.symm⟩
  · exact .inr ⟨hp, by simpa [put, hp] using h⟩

theorem owned_init (mainMemory : Memory) : Owned (init mainMemory) where
  numBits := Bitmap.numBits_new 512
  exclusive := by
    have : (init mainMemory).used = ∅ := by
      ext f
      simp [used, init, bitmap]
    rw [this]
    exact exclusive_empty
  fresh := fun _ _ => rfl
  value := .inr rfl
  locked := by simp [init]
  alone := by simp [init]
  room := by simp [init]
  low := by simp [init, bitmap]
  admitted := by simp [init]

theorem Owned.abort (h : Owned s) : Owned s.abort :=
  ⟨h.numBits, h.exclusive, h.fresh, h.value, h.locked, h.alone, h.room,
    fun hh => Bool.noConfusion hh, fun hh => Bool.noConfusion hh⟩

theorem Owned.numClear_ge (h : Owned s) (hh : s.halted = false) :
    numPhysPages < s.bitmap.numClear := by
  have hsub : s.bitmap.marked ⊆ Finset.range numPhysPages :=
    fun i hi => Finset.mem_range.mpr (h.low hh i hi)
  have hcard := Finset.card_le_card hsub
  rw [Finset.card_range] at hcard
  rw [Bitmap.numClear_eq, h.numBits]
  unfold numPhysPages at *
  omega

theorem Owned.fresh_put (h : Owned s) (hobj : s.objs o = some obj) :
    ∀ p, s.next ≤ p → (s.put o obj').objs p = none := by
  intro p hp
  have hpo : p ≠ o := by
    rintro rfl
    rw [h.fresh p hp] at hobj
    cases hobj
  exact (Function.update_of_ne hpo _ _).trans (h.fresh p hp)

theorem Owned.admitted_put (h : Owned s) (hrun : s.halted = false)
    (hfail : obj'.phase.failed = false) :
    ∀ p q, (s.put o obj').objs p = some q → q.phase.failed = false := by
  intro p q hq
  rcases objs_put_of_some hq with ⟨rfl, rfl⟩ | ⟨-, hq⟩
  · exact hfail
  · exact h.admitted hrun p q hq

/-- An object may move on inside or outside the critical section as long as its
frames stay and there is room for what it still allocates. -/
theorem Owned.put (h : Owned s) (hobj : s.objs o = some obj) (hf : obj'.frames = obj.frames)
    (hh : obj'.phase.holds = true → obj.phase.holds = true)
    (hr : obj'.phase = .allocating →
      obj'.space.numPages ≤ obj'.table.length + s.bitmap.numClear)
    (hfail : s.halted = false → obj.phase.failed = false → obj'.phase.failed = false) :
    Owned (s.put o obj') where
  numBits := h.numBits
  exclusive := by
    rw [frames_put_of_eq (hf.trans (frames_of_objs hobj).symm)]
    exact h.exclusive
  fresh := h.fresh_put hobj
  value := h.value
  locked := by
    intro p q hq hold
    rcases objs_put_of_some hq with ⟨rfl, rfl⟩ | ⟨-, hq⟩
    · exact h.locked _ _ hobj (hh hold)
    · exact h.locked _ _ hq hold
  alone := by
    intro p q p' q' hq hq' hold hold'
    rcases objs_put_of_some hq with ⟨rfl, rfl⟩ | ⟨-, h₁⟩ <;>
      rcases objs_put_of_some hq' with ⟨rfl, rfl⟩ | ⟨-, h₂⟩
    · rfl
    · exact h.alone _ _ _ _ hobj h₂ (hh hold) hold'
    · exact h.alone _ _ _ _ h₁ hobj hold (hh hold')
    · exact h.alone _ _ _ _ h₁ h₂ hold hold'
  room := by
    intro p q hq hall
    rcases objs_put_of_some hq with ⟨rfl, rfl⟩ | ⟨-, hq⟩
    · exact hr hall
    · exact h.room _ _ hq hall
  low := h.low
  admitted := fun hrun => h.admitted_put hrun (hfail hrun (h.admitted hrun _ _ hobj))

theorem owned_doConstruct (h : Owned s) (raw : AddrSpace) (executable : Option (List UInt8))
    (junk : ℕ → UInt8) : Owned (s.doConstruct raw executable junk) := by
  unfold doConstruct
  cases executable with
  | none => exact h.abort
  | some file =>
    dsimp only
    split_ifs
    swap
    · exact h.abort
    have hnone : s.objs s.next = none := h.fresh _ le_rfl
    -- the new object holds neither the lock nor a frame
    have hold : ∀ p q, (s.put s.next ⟨.locking, file, readHeader file junk, raw⟩).objs p = some q →
        q.phase = .locking ∨ s.objs p = some q := by
      intro p q hq
      rcases objs_put_of_some hq with ⟨-, rfl⟩ | ⟨-, hq⟩
      · exact .inl rfl
      · exact .inr hq
    refine ⟨h.numBits, ?_, ?_, h.value, ?_, ?_, ?_, h.low, ?_⟩
    · have hfr : (s.put s.next ⟨.locking, file, readHeader file junk, raw⟩).frames = s.frames :=
        frames_put_of_eq (by simp [Obj.frames, Phase.assigned, frames, hnone])
      exact (hfr.symm ▸ h.exclusive :)
    · intro p hp
      have hp' : s.next + 1 ≤ p := hp
      have hpn : p ≠ s.next := by omega
      exact (Function.update_of_ne hpn _ _).trans (h.fresh p (by omega))
    · intro p q hq hh
      rcases hold p q hq with hl | hq
      · simp [hl, Phase.holds] at hh
      · exact h.locked p q hq hh
    · intro p q p' q' hq hq' hh hh'
      rcases hold p q hq with hl | hq
      · simp [hl, Phase.holds] at hh
      rcases hold p' q' hq' with hl | hq'
      · simp [hl, Phase.holds] at hh'
      exact h.alone p q p' q' hq hq' hh hh'
    · intro p q hq hall
      rcases hold p q hq with hl | hq
      · simp [hl] at hall
      · exact h.room p q hq hall
    · intro hrun p q hq
      rcases hold p q hq with hl | hq
      · rw [hl]
        rfl
      · exact h.admitted hrun p q hq

theorem owned_doLock (h : Owned s) (hobj : s.objs o = some obj) (hp : obj.phase = .locking) :
    Owned (s.doLock o obj) := by
  have hframes : ∀ p : Phase, p.assigned = false →
      ({ obj with phase := p } : Obj).frames = obj.frames := by
    intro p ha
    rw [Obj.frames_of_not_assigned ha, Obj.frames_of_not_assigned (by rw [hp]; rfl)]
  unfold doLock
  by_cases hz : s.addrLock.value = 0
  · have hput : Owned (s.put o { obj with phase := .asleep }) :=
      h.put hobj (hframes _ rfl) (by simp [Phase.holds]) (by simp) fun _ _ => rfl
    rw [Semaphore.P_of_zero hz]
    exact ⟨hput.numBits, hput.exclusive, hput.fresh, hput.value, hput.locked, hput.alone,
      hput.room, hput.low, hput.admitted⟩
  · -- the lock was free, so nobody else is inside
    have hv : s.addrLock.value = 1 := h.value.resolve_left hz
    have hfree : ∀ p q, s.objs p = some q → q.phase.holds = false := by
      intro p q hq
      by_contra hcon
      exact hz (h.locked p q hq (by simpa using hcon))
    rw [Semaphore.P_of_ne_zero hz]
    have hzero : TwosComplement.wrap (s.addrLock.value - 1) = 0 := by rw [hv]; rfl
    refine ⟨h.numBits, ?_, h.fresh_put hobj, .inl hzero, fun _ _ _ _ => hzero, ?_, ?_, h.low,
      fun hrun => h.admitted_put hrun rfl⟩
    · have hfr : (s.put o { obj with phase := .checking }).frames = s.frames :=
        frames_put_of_eq ((hframes _ rfl).trans (frames_of_objs hobj).symm)
      exact (hfr.symm ▸ h.exclusive :)
    · intro p q p' q' hq hq' hh hh'
      rcases objs_put_of_some hq with ⟨rfl, -⟩ | ⟨-, h₁⟩
      · rcases objs_put_of_some hq' with ⟨rfl, -⟩ | ⟨-, h₂⟩
        · rfl
        · simp [hfree _ _ h₂] at hh'
      · simp [hfree _ _ h₁] at hh
    · intro p q hq hall
      rcases objs_put_of_some hq with ⟨-, rfl⟩ | ⟨-, h₁⟩
      · cases hall
      · exact h.room p q h₁ hall

theorem owned_doCheck (h : Owned s) (hobj : s.objs o = some obj) (hp : obj.phase = .checking) :
    Owned (s.doCheck o obj) := by
  have hnone : obj.frames = [] := Obj.frames_of_not_assigned (by rw [hp]; rfl)
  have hhold : obj.phase.holds = true := by rw [hp]; rfl
  unfold doCheck
  dsimp only
  split_ifs with hbig hfew
  · exact h.abort
  · refine h.put hobj ?_ (fun _ => hhold) (by simp) fun hrun _ => ?_
    · rw [hnone, Obj.frames_of_not_assigned rfl]
    · have := h.numClear_ge hrun
      omega
  · refine h.put hobj ?_ (fun _ => hhold) (fun _ => ?_) fun _ _ => rfl
    · rw [hnone, Obj.frames_of_assigned rfl]
      simp [AddrSpace.frames]
    · simpa [Obj.table] using hfew

/-- A round of the allocation loop gets a frame that nobody lists. -/
theorem findAndSet_of_room (h : Owned s) (hobj : s.objs o = some obj)
    (hp : obj.phase = .allocating) (hlt : obj.table.length < obj.space.numPages) :
    ∃ f, f < 512 ∧ f ∉ s.bitmap.marked ∧ (∀ j < f, j ∈ s.bitmap.marked) ∧
      s.bitmap.findAndSet = (s.bitmap.markBit f, (f : Int)) := by
  have hroom := h.room o obj hobj hp
  rw [← h.numBits]
  exact Bitmap.findAndSet_of_numClear (by omega)

theorem used_markBit {b : Bitmap} {f : ℕ} (hf : f < b.numBits) :
    {g : Int | ∃ i ∈ (b.markBit f).marked, g = (i : Int)} =
      insert (f : Int) {g : Int | ∃ i ∈ b.marked, g = (i : Int)} := by
  ext g
  simp [Bitmap.marked_markBit b hf]

theorem frames_append (hp : obj.phase = .allocating) (hlt : obj.table.length < obj.space.numPages)
    (e : TranslationEntry) :
    ({ obj with space := { obj.space with pageTable := some (obj.table ++ [e]) } } : Obj).frames =
      obj.frames ++ [e.physicalPage] := by
  have h₁ : obj.table.take obj.space.numPages = obj.table := List.take_of_length_le hlt.le
  have h₂ : (obj.table ++ [e]).take obj.space.numPages = obj.table ++ [e] :=
    List.take_of_length_le (by simpa using hlt)
  simp only [Obj.frames, hp, Phase.assigned, if_true, AddrSpace.frames, Option.getD_some, h₂,
    List.map_append, List.map_cons, List.map_nil]
  exact congrArg (fun l => l.map TranslationEntry.physicalPage ++ [e.physicalPage]) h₁.symm

theorem owned_doAlloc (h : Owned s) (hrun : s.halted = false) (hobj : s.objs o = some obj)
    (hp : obj.phase = .allocating) : Owned (s.doAlloc o obj) := by
  have hhold : obj.phase.holds = true := by rw [hp]; rfl
  unfold doAlloc
  split_ifs with hlt
  swap
  · exact h.put hobj (by simp [Obj.frames, hp, Phase.assigned]) (fun _ => hhold) (by simp)
      fun _ _ => rfl
  obtain ⟨f, hf, hc, -, hset⟩ := findAndSet_of_room h hobj hp hlt
  have hfn : f < s.bitmap.numBits := by rw [h.numBits]; exact hf
  simp only [allocPage, hset]
  set obj₁ : Obj := { obj with space := { obj.space with
    pageTable := some (obj.table ++ [⟨obj.table.length, f, true, false, false, false⟩]) } }
  -- the round leaves all phases as they are, so the lock has the holder it had
  have hholders : ∀ p q, (s.put o obj₁).objs p = some q → q.phase.holds = true →
      ∃ q₀, s.objs p = some q₀ ∧ q₀.phase.holds = true := by
    intro p q hq hh
    rcases objs_put_of_some hq with ⟨rfl, -⟩ | ⟨-, h₁⟩
    · exact ⟨obj, hobj, hhold⟩
    · exact ⟨q, h₁, hh⟩
  refine ⟨h.numBits, ?_, h.fresh_put hobj, h.value, ?_, ?_, ?_, ?_,
    fun _ => h.admitted_put hrun (h.admitted hrun o obj hobj)⟩
  · have hnot : (f : Int) ∉ s.used := by
      rintro ⟨i, hi, hfi⟩
      exact hc (by rwa [Int.natCast_inj.mp hfi])
    have hfr : (s.put o obj₁).frames = Function.update s.frames o (s.frames o ++ [(f : Int)]) := by
      rw [frames_put, frames_of_objs hobj]
      exact congrArg _ (frames_append hp hlt _)
    have hex := h.exclusive.acquire o hnot
    rw [← hfr] at hex
    exact ((used_markBit hfn).symm ▸ hex :)
  · intro p q hq hh
    obtain ⟨q₀, hq₀, hh₀⟩ := hholders p q hq hh
    exact h.locked p q₀ hq₀ hh₀
  · intro p q p' q' hq hq' hh hh'
    obtain ⟨q₀, hq₀, hh₀⟩ := hholders p q hq hh
    obtain ⟨q₁, hq₁, hh₁⟩ := hholders p' q' hq' hh'
    exact h.alone p q₀ p' q₁ hq₀ hq₁ hh₀ hh₁
  · intro p q hq hall
    have hpo : p = o := by
      obtain ⟨q₀, hq₀, hh₀⟩ := hholders p q hq (by rw [hall]; rfl)
      exact h.alone p q₀ o obj hq₀ hobj hh₀ hhold
    subst hpo
    have hq₁ : obj₁ = q := by simpa [System.put] using hq
    subst hq₁
    -- one page less is to come, and one frame less is free
    have hroom := h.room p obj hobj hp
    have hcount := Bitmap.numClear_markBit hfn hc
    change obj.space.numPages ≤ (obj.table ++ [_]).length + (s.bitmap.markBit f).numClear
    rw [List.length_append, List.length_singleton]
    omega
  · -- the run goes on only with a frame of the memory
    intro hrun' i hi
    have hlow : Inside (f : Int) := by
      simpa only [Bool.not_eq_eq_eq_not, Bool.not_false, decide_eq_true_eq] using hrun'
    have hi' : i ∈ (s.bitmap.markBit f).marked := hi
    rw [Bitmap.marked_markBit _ hfn, Finset.mem_insert] at hi'
    rcases hi' with rfl | hi'
    · exact Int.ofNat_lt.mp hlow.2
    · exact h.low hrun i hi'

theorem Phase.failed_of_assigned {p : Phase} (h : p.assigned = true) : p.failed = false := by
  cases p <;> first | rfl | cases h

theorem owned_doCopy (h : Owned s) (hrun : s.halted = false) (hobj : s.objs o = some obj)
    (seg : Segment) (i : ℕ) (again after : Phase) (hp : obj.phase.assigned = true)
    (hh : obj.phase.holds = true) (hagain : again.assigned = true ∧ again ≠ .allocating)
    (hafter : after.assigned = true ∧ after ≠ .allocating) :
    Owned (s.doCopy o obj seg i again after) := by
  have hput : ∀ p : Phase, p.assigned = true ∧ p ≠ .allocating →
      Owned (s.put o { obj with phase := p }) := by
    intro p hpp
    exact h.put hobj (by simp [Obj.frames, hpp.1, hp]) (fun _ => hh)
      (fun hal => absurd hal hpp.2) fun _ _ => Phase.failed_of_assigned hpp.1
  unfold doCopy
  split_ifs
  · split
    · exact h.abort
    · have := hput again hagain
      exact ⟨this.numBits, this.exclusive, this.fresh, this.value, this.locked, this.alone,
        this.room, fun _ => this.low hrun, fun _ => this.admitted hrun⟩
  · exact hput after hafter

theorem Owned.wake (h : Owned s) (w : Option ℕ) : Owned (s.wake w) := by
  unfold System.wake
  cases w with
  | none => exact h
  | some p =>
    dsimp only
    cases hq : s.objs p with
    | none => exact h
    | some q =>
      refine h.put hq ?_ ?_ ?_ ?_
      · cases hph : q.phase <;> simp [Obj.frames, hph, Phase.wake, Phase.assigned]
      · cases hph : q.phase <;> simp [Phase.wake, Phase.holds]
      · intro hal
        have : q.phase = .allocating := by
          cases hph : q.phase <;> simp_all [Phase.wake]
        exact h.room p q hq this
      · intro _
        cases hph : q.phase <;> simp [Phase.wake, Phase.failed]

theorem owned_doUnlock (h : Owned s) (hobj : s.objs o = some obj) (hhold : obj.phase.holds = true)
    {after : Phase} (hafter : after.holds = false)
    (hassigned : after.assigned = obj.phase.assigned)
    (hfailed : after.failed = obj.phase.failed) : Owned (s.doUnlock o obj after) := by
  have hput : Owned (s.put o { obj with phase := after }) := by
    refine h.put hobj (by simp [Obj.frames, hassigned]) (by simp [hafter]) ?_ (by simp [hfailed])
    rintro rfl
    cases hafter
  have hfree : ∀ p q, (s.put o { obj with phase := after }).objs p = some q →
      q.phase.holds = false := by
    intro p q hq
    rcases objs_put_of_some hq with ⟨-, rfl⟩ | ⟨hne, h₁⟩
    · exact hafter
    · by_contra hcon
      exact hne (h.alone p q o obj h₁ hobj (by simpa using hcon) hhold)
  have hv : s.addrLock.V.1.value = 1 := by
    rw [Semaphore.V, h.locked o obj hobj hhold]
    rfl
  have hsys : Owned { s.put o { obj with phase := after } with addrLock := s.addrLock.V.1 } := by
    refine ⟨hput.numBits, hput.exclusive, hput.fresh, .inr hv, ?_, hput.alone, hput.room, hput.low,
      hput.admitted⟩
    intro p q hq hh
    rw [hfree p q hq] at hh
    cases hh
  exact hsys.wake _

theorem Owned.mem_frames (h : Owned s) {f : Int} (hf : f ∈ s.frames o) :
    ∃ i : ℕ, i < 512 ∧ f = (i : Int) := by
  obtain ⟨i, hi, rfl⟩ := (h.exclusive.used_iff f).mpr ⟨o, hf⟩
  exact ⟨i, h.numBits ▸ (Bitmap.mem_marked.mp hi).1, rfl⟩

/-- A destructor never fails an assertion of `Clear`. -/
theorem destroy_eq_some (h : Owned s) (hobj : s.objs o = some obj) (hp : obj.phase = .live) :
    ∃ b, obj.space.destroy s.bitmap = some b ∧ b.numBits = 512 ∧
      ∀ i, i ∈ b.marked ↔ i ∈ s.bitmap.marked ∧ (i : Int) ∉ s.frames o := by
  have hfr : s.frames o = obj.space.frames := by
    rw [frames_of_objs hobj, Obj.frames, hp]
    rfl
  rw [hfr, ← h.numBits]
  refine Bitmap.foldlM_clear _ _ fun f hf => ?_
  rw [h.numBits]
  exact h.mem_frames (hfr ▸ hf)

theorem doDestroy_live (h : Owned s) (hobj : s.objs o = some obj) (hp : obj.phase = .live) :
    ∃ b, s.doDestroy o obj =
        { s with phys := ⟨b, s.phys.mainMemory⟩, objs := Function.update s.objs o none } ∧
      b.numBits = 512 ∧ ∀ i, i ∈ b.marked ↔ i ∈ s.bitmap.marked ∧ (i : Int) ∉ s.frames o := by
  obtain ⟨b, hb, hn, hm⟩ := destroy_eq_some h hobj hp
  refine ⟨b, ?_, hn, hm⟩
  simp [doDestroy, hb, hp, Phase.failed]

theorem owned_doDestroy (h : Owned s) (hobj : s.objs o = some obj) (hp : obj.phase = .live) :
    Owned (s.doDestroy o obj) := by
  obtain ⟨b, hb, hn, hm⟩ := doDestroy_live h hobj hp
  have hleft : ∀ p q, Function.update s.objs o none p = some q → s.objs p = some q := by
    intro p q hq
    by_cases hpo : p = o
    · simp [hpo] at hq
    · simpa [hpo] using hq
  rw [hb]
  refine ⟨hn, ?_, ?_, h.value, ?_, ?_, ?_, ?_, fun hrun p q hq => ?_⟩
  · have hex := h.exclusive.release o
    have hfr : ({ s with phys := ⟨b, s.phys.mainMemory⟩, objs := Function.update s.objs o none } :
        System).frames = Function.update s.frames o [] := by
      ext1 p
      by_cases hpo : p = o
      · subst hpo
        simp [frames]
      · simp [frames, hpo]
    have hused : ({ s with phys := ⟨b, s.phys.mainMemory⟩, objs := Function.update s.objs o none } :
        System).used = s.used \ {f | f ∈ s.frames o} := by
      ext f
      simp only [used, Set.mem_ofPred_eq, Set.mem_sdiff, hm]
      constructor
      · rintro ⟨i, ⟨hi, hif⟩, rfl⟩
        exact ⟨⟨i, hi, rfl⟩, hif⟩
      · rintro ⟨⟨i, hi, rfl⟩, hif⟩
        exact ⟨i, ⟨hi, hif⟩, rfl⟩
    rw [hfr, hused]
    exact hex
  · intro p hpn
    by_cases hpo : p = o
    · simp [hpo]
    · exact (Function.update_of_ne hpo _ _).trans (h.fresh p hpn)
  · exact fun p q hq => h.locked p q (hleft p q hq)
  · exact fun p q p' q' hq hq' => h.alone p q p' q' (hleft p q hq) (hleft p' q' hq')
  · intro p q hq hall
    -- bits are only cleared, so there is as much room as before
    have hsub : b.marked.card ≤ s.bitmap.marked.card :=
      Finset.card_le_card fun i hi => ((hm i).mp hi).1
    have hroom := h.room p q (hleft p q hq) hall
    change q.space.numPages ≤ q.table.length + b.numClear
    rw [Bitmap.numClear_eq, h.numBits] at hroom
    rw [Bitmap.numClear_eq, hn]
    omega
  · exact fun hrun i hi => h.low hrun i ((hm i).mp hi).1
  · exact h.admitted hrun p q (hleft p q hq)

theorem owned_step {s' : System} {a : Act} (h : Owned s) (hs : step s a = some s') : Owned s' := by
  unfold step at hs
  split_ifs at hs with hh
  have hrun : s.halted = false := Bool.eq_false_of_not_eq_true hh
  cases a with
  | construct raw executable junk =>
    cases hs
    exact owned_doConstruct h raw executable junk
  | destroy o =>
    obtain ⟨obj, hobj, hs⟩ := Option.bind_eq_some_iff.mp hs
    split_ifs at hs with hp
    cases hs
    rcases hp with hp | hp
    · exact owned_doDestroy h hobj hp
    · have := h.admitted hrun o obj hobj
      rw [hp] at this
      cases this
  | run o =>
    obtain ⟨obj, hobj, hs⟩ := Option.bind_eq_some_iff.mp hs
    unfold advance at hs
    split at hs <;> cases hs
    · next hp => exact owned_doLock h hobj hp
    · next hp => exact owned_doCheck h hobj hp
    · next hp => exact owned_doAlloc h hrun hobj hp
    · next hp =>
      exact owned_doCopy h hrun hobj _ _ _ _ (by rw [hp]; rfl) (by rw [hp]; rfl)
        ⟨rfl, by simp⟩ ⟨rfl, by simp⟩
    · next hp =>
      exact owned_doCopy h hrun hobj _ _ _ _ (by rw [hp]; rfl) (by rw [hp]; rfl)
        ⟨rfl, by simp⟩ ⟨rfl, by simp⟩
    · next hp =>
      exact owned_doUnlock h hobj (by rw [hp]; rfl) rfl (by rw [hp]; rfl) (by rw [hp]; rfl)
    · next hp =>
      exact owned_doUnlock h hobj (by rw [hp]; rfl) rfl (by rw [hp]; rfl) (by rw [hp]; rfl)

/-- The invariant holds along every run, whatever further condition its steps meet. -/
theorem owned_of_reach {ok : System → Act → Prop} {mainMemory : Memory}
    (h : Reach step ok (init mainMemory) s) : Owned s :=
  h.invariant (owned_init mainMemory) fun _ _ _ hi _ hs => owned_step hi hs

abbrev anyStep : System → Act → Prop := fun _ _ => True

/-- Object `o` has moved on to `obj`, and the frames and the memory to `k`. -/
def moved (s : System) (o : ℕ) (obj : Obj) (k : Phys) : System := { s.put o obj with phys := k }

theorem reach_advance {k : Phys} (hh : s.halted = false) (obj₁ : Obj) (k₁ : Phys)
    (hs : (s.moved o obj k).advance o obj = some (s.moved o obj₁ k₁)) :
    Reach step anyStep (s.moved o obj k) (s.moved o obj₁ k₁) := by
  refine .single (a := .run o) trivial ?_
  have hobjs : (s.moved o obj k).objs o = some obj := by simp [moved, put]
  have hhalt : (s.moved o obj k).halted = false := hh
  simp only [step, hhalt, hobjs, Bool.false_eq_true, if_false, Option.bind_some, hs]

variable {file : List UInt8} {header : NoffHeader}

theorem reach_checking {k : Phys} {raw : AddrSpace} (hh : s.halted = false)
    (hbig : ¬header.numPages > numPhysPages)
    (hfew : ¬header.numPages > k.gPhysPageBitMap.numClear) :
    Reach step anyStep (s.moved o ⟨.checking, file, header, raw⟩ k)
      (s.moved o ⟨.allocating, file, header, ⟨some [], header.numPages⟩⟩ k) :=
  reach_advance hh _ _ (by simp [advance, doCheck, hbig, hfew, moved, put])

theorem reach_allocating (hh : s.halted = false) (n : ℕ) (t : List TranslationEntry) (k : Phys)
    (hlow : ∀ e ∈ (allocPages k t.length n).1, Inside e.physicalPage) :
    Reach step anyStep
      (s.moved o ⟨.allocating, file, header, ⟨some t, t.length + n⟩⟩ k)
      (s.moved o ⟨.copyingCode 0, file, header,
        ⟨some (t ++ (allocPages k t.length n).1), t.length + n⟩⟩ (allocPages k t.length n).2) := by
  induction n generalizing t k with
  | zero =>
    refine reach_advance hh _ _ ?_
    simp [advance, doAlloc, Obj.table, allocPages, moved, put]
  | succ n ih =>
    have hlen : t.length + (n + 1) = (t ++ [(allocPage k t.length).1]).length + n := by
      simp
      omega
    rw [allocPages, List.forall_mem_cons] at hlow
    refine Reach.trans (reach_advance hh ⟨.allocating, file, header,
      ⟨some (t ++ [(allocPage k t.length).1]), t.length + (n + 1)⟩⟩
      (allocPage k t.length).2 ?_) ?_
    · simp [advance, doAlloc, Obj.table, moved, put, hlow.1, hh]
    · rw [hlen]
      have hrest := ih (t ++ [(allocPage k t.length).1]) (allocPage k t.length).2
        (by simpa using hlow.2)
      rw [List.append_assoc, List.singleton_append, List.length_append,
        List.length_singleton] at hrest
      rw [List.length_append, List.length_singleton]
      exact hrest

theorem reach_copying (hh : s.halted = false) (seg : Segment) {sp : AddrSpace}
    (phaseAt : ℕ → Phase) (after : Phase)
    (hadv : ∀ (s : System) (i : ℕ), s.advance o ⟨phaseAt i, file, header, sp⟩ =
      some (s.doCopy o ⟨phaseAt i, file, header, sp⟩ seg i (phaseAt (i + 1)) after))
    {k : Phys} {mem : Memory}
    (hload : loadSegment file seg sp.frames sp.numPages k.mainMemory = some mem)
    (hin : 0 < seg.size → ∀ i < sp.numPages, copyInside file sp.frames seg i = true) :
    Reach step anyStep (s.moved o ⟨phaseAt 0, file, header, sp⟩ k)
      (s.moved o ⟨after, file, header, sp⟩ ⟨k.gPhysPageBitMap, mem⟩) := by
  unfold loadSegment at hload
  split_ifs at hload with hsize
  swap
  · cases hload
    refine reach_advance hh _ _ ?_
    simp [hadv, doCopy, hsize, moved, put]
  -- the rounds from `i` on, of which `j` are left
  have hloop : ∀ (j i : ℕ) (k : Phys), i + j = sp.numPages →
      (List.range' i j).foldlM (loadPage file seg sp.frames) k.mainMemory = some mem →
      Reach step anyStep (s.moved o ⟨phaseAt i, file, header, sp⟩ k)
        (s.moved o ⟨after, file, header, sp⟩ ⟨k.gPhysPageBitMap, mem⟩) := by
    intro j
    induction j with
    | zero =>
      intro i k hij hfold
      have hmem : k.mainMemory = mem := by simpa using hfold
      refine reach_advance hh _ _ ?_
      simp [hadv, doCopy, ← hij, moved, put, ← hmem]
    | succ j ih =>
      intro i k hij hfold
      rw [List.range'_succ, List.foldlM_cons] at hfold
      obtain ⟨mem₁, hone, hrest⟩ := Option.bind_eq_some_iff.mp hfold
      refine Reach.trans (reach_advance hh _ _ ?_)
        (ih (i + 1) ⟨k.gPhysPageBitMap, mem₁⟩ (by omega) hrest)
      have hlt : i < sp.numPages := by omega
      simp [hadv, doCopy, hsize, hlt, moved, put, hone, hin hsize i hlt, hh]
  exact hloop sp.numPages 0 k (by omega) (by rwa [← List.range_eq_range'])

/-- What the constructor computes on its own is what the system can reach, where it has room
and stays in the memory. -/
theorem reach_fill (hh : s.halted = false) {k : Phys} {raw sp : AddrSpace} {k' : Phys}
    (hfill : raw.fill k file header = some (sp, k'))
    (hroom : header.numPages ≤ k.gPhysPageBitMap.numClear) (hlow : ∀ f ∈ sp.frames, Inside f)
    (hin : ∀ seg ∈ [header.code, header.initData], 0 < seg.size →
      ∀ i < header.numPages, copyInside file sp.frames seg i = true) :
    Reach step anyStep (s.moved o ⟨.checking, file, header, raw⟩ k)
      (s.moved o ⟨.unlocking, file, header, sp⟩ k') := by
  unfold AddrSpace.fill at hfill
  dsimp only at hfill
  split_ifs at hfill with hbig hfew
  · omega
  · obtain ⟨mem₁, hcode, hfill⟩ := Option.bind_eq_some_iff.mp hfill
    obtain ⟨mem₂, hdata, hfill⟩ := Option.bind_eq_some_iff.mp hfill
    cases hfill
    have hframes := frames_allocPages k header.numPages
    have halloc : Reach step anyStep
        (s.moved o ⟨.allocating, file, header, ⟨some [], header.numPages⟩⟩ k)
        (s.moved o ⟨.copyingCode 0, file, header,
          ⟨some (allocPages k 0 header.numPages).1, header.numPages⟩⟩
          (allocPages k 0 header.numPages).2) := by
      simpa using reach_allocating (o := o) hh header.numPages [] k fun e he =>
        hlow _ (hframes ▸ List.mem_map_of_mem he)
    rw [hframes] at hin
    have hcopy := reach_copying (o := o) hh header.code .copyingCode (.copyingData 0)
      (fun _ _ => rfl) (hframes ▸ hcode) (hframes ▸ hin _ (by simp))
    have hcopy' := reach_copying (o := o) hh header.initData .copyingData .unlocking
      (fun _ _ => rfl) (k := ⟨(allocPages k 0 header.numPages).2.gPhysPageBitMap, mem₁⟩)
      (hframes ▸ hdata) (hframes ▸ hin _ (by simp))
    exact (((reach_checking hh hbig hfew).trans halloc).trans hcopy).trans hcopy'

theorem reach_entered {raw : AddrSpace} {junk : ℕ → UInt8} (hh : s.halted = false)
    (hlock : s.addrLock = ⟨1, []⟩) (hmagic : (readHeader file junk).noffMagic = NOFFMAGIC) :
    Reach step anyStep s (({ s with addrLock := ⟨0, []⟩, next := s.next + 1 } : System).moved s.next
      ⟨.checking, file, readHeader file junk, raw⟩ s.phys) := by
  have hnew : Reach step anyStep s
      { s.put s.next ⟨.locking, file, readHeader file junk, raw⟩ with next := s.next + 1 } :=
    .single (a := .construct raw (some file) junk) trivial (by simp [step, hh, doConstruct, hmagic])
  refine hnew.trans (.single (a := .run s.next) trivial ?_)
  simp [step, hh, put, advance, doLock, hlock, Semaphore.P, moved, TwosComplement.wrap]

/-- A whole constructor, run on its own with the lock free. -/
theorem reach_construct {raw sp : AddrSpace} {k' : Phys} {junk : ℕ → UInt8}
    (hh : s.halted = false) (hlock : s.addrLock = ⟨1, []⟩)
    (hc : raw.construct s.phys (some file) junk = some (sp, k'))
    (hroom : (readHeader file junk).numPages ≤ s.bitmap.numClear)
    (hlow : ∀ f ∈ sp.frames, Inside f)
    (hin : ∀ seg ∈ [(readHeader file junk).code, (readHeader file junk).initData], 0 < seg.size →
      ∀ i < (readHeader file junk).numPages, copyInside file sp.frames seg i = true) :
    Reach step anyStep s
      { s.moved s.next ⟨.live, file, readHeader file junk, sp⟩ k' with next := s.next + 1 } := by
  simp only [AddrSpace.construct] at hc
  split_ifs at hc with hmagic
  set t : System := { s with addrLock := ⟨0, []⟩, next := s.next + 1 }
  have hfill := reach_fill (o := s.next) (show t.halted = false from hh) hc hroom hlow hin
  have hout : Reach step anyStep (t.moved s.next ⟨.unlocking, file, readHeader file junk, sp⟩ k')
      { s.moved s.next ⟨.live, file, readHeader file junk, sp⟩ k' with next := s.next + 1 } := by
    refine .single (a := .run s.next) trivial ?_
    simp [step, hh, put, advance, doUnlock, hlock, Semaphore.V, moved, t, wake,
      TwosComplement.wrap]
  exact ((reach_entered hh hlock hmagic).trans hfill).trans hout

end System
end Nachos.SpaceSystem
