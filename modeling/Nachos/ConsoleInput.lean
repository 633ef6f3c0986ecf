import Nachos.Lock

namespace Nachos
open GuardedRun

namespace ConsoleInput

def eof : Int := -1

/-- A `char` is signed, so that the byte 255 is `EOF`. -/
def charOf (b : UInt8) : Int := if b.toNat < 128 then b.toNat else b.toNat - 256

theorem charOf_eq_eof {b : UInt8} : charOf b = eof ↔ b = 255 := by
  have hlt := b.toNat_lt
  constructor
  · intro h
    apply UInt8.toNat_inj.mp
    show b.toNat = 255
    unfold charOf eof at h
    split_ifs at h
    omega
  · intro h
    rw [h]
    rfl

/-- The statement of `SynchConsoleInput::GetChar` a thread is at. -/
inductive Pc where
  | out
  /-- In `lock->Acquire()`. -/
  | acquire
  /-- At `waitFor->P()`, asleep if the queue has the thread. -/
  | wait
  /-- At `consoleInput->GetChar()`. -/
  | take
  /-- In `lock->Release()`; the call is complete with it. -/
  | release (ch : Int)
  deriving DecidableEq, Repr

/-- The two console objects and their threads.  `keyboard` has the bytes that are still to be
read and `polls` is the number of polling interrupts scheduled.  `read`, `collected` and
`completed` are history: the bytes read, the results of `ConsoleInput::GetChar` and those of
the completed calls. -/
structure System (τ : Type*) where
  locks : Lock.System τ
  waitFor : Semaphore τ
  keyboard : List UInt8
  incoming : Int
  polls : ℕ
  pc : τ → Pc
  aborted : Bool
  read : List UInt8
  collected : List Int
  completed : List Int

/-- `ready` is the result of `PollFile`. -/
inductive Act (τ : Type*) where
  | call (t : τ)
  | run (t : τ)
  | poll (ready : Bool)
  deriving DecidableEq, Repr

variable {τ : Type*}

def start (bytes : List UInt8) : System τ :=
  ⟨Lock.start, .new 0, bytes, eof, 1, fun _ => .out, false, [], [], []⟩

/-- `ConsoleInput::CallBack`, for the interrupt that has just been taken off. -/
def callBack (s : System τ) (ready : Bool) : System τ :=
  if s.incoming ≠ eof then { s with aborted := true }
  else if ready = false then { s with polls := s.polls + 1 }
  else
    match s.keyboard with
    | [] => { s with waitFor := s.waitFor.V.1 }
    | c :: keyboard =>
      { s with
        keyboard := keyboard
        incoming := charOf c
        waitFor := s.waitFor.V.1
        read := s.read ++ [c] }

def getChar (s : System τ) : System τ × Int :=
  ({ s with
      polls := if s.incoming ≠ eof then s.polls + 1 else s.polls
      incoming := eof
      collected := s.collected ++ [s.incoming] }, s.incoming)

def halted (s : System τ) : Bool := s.aborted || s.locks.aborted

section steps
variable [DecidableEq τ]

namespace System

@[simps pc]
def goto (s : System τ) (t : τ) (p : Pc) : System τ := { s with pc := Function.update s.pc t p }

def callAcquire (s : System τ) (t : τ) : System τ :=
  { s with locks := s.locks.goto t .acquiring }

def callRelease (s : System τ) (t : τ) : System τ :=
  { s with locks := s.locks.goto t .releasing }

end System

def run (s : System τ) (t : τ) : Option (System τ) :=
  match s.pc t with
  | .out => none
  | .acquire =>
    (Lock.run s.locks t).map fun l =>
      if l.phase t = .held then { s with locks := l }.goto t .wait else { s with locks := l }
  | .wait =>
    if t ∈ s.waitFor.queue then none
    else
      let p := s.waitFor.P t
      let s' := { s with waitFor := p.1 }
      some (if p.2 then s'.goto t .take else s')
  | .take =>
    let r := getChar s
    some ((r.1.callRelease t).goto t (.release r.2))
  | .release ch =>
    (Lock.run s.locks t).map fun l =>
      if l.phase t = .out then
        { s with locks := l, completed := s.completed ++ [ch] }.goto t .out
      else { s with locks := l }

def step (s : System τ) (a : Act τ) : Option (System τ) :=
  if halted s then none
  else
    match a with
    | .call t => if s.pc t = .out then some ((s.callAcquire t).goto t .acquire) else none
    | .run t => run s t
    | .poll ready =>
      if s.polls = 0 then none else some (callBack { s with polls := s.polls - 1 } ready)

end steps

variable [DecidableEq τ]

/-- All that can happen, with what the step has found. -/
inductive Moves (s : System τ) : System τ → Prop
  | call (t : τ) : s.pc t = .out → Moves s ((s.callAcquire t).goto t .acquire)
  | acquiring (t : τ) (l : Lock.System τ) : s.pc t = .acquire → Lock.run s.locks t = some l →
      l.phase t ≠ .held → Moves s { s with locks := l }
  | enter (t : τ) (l : Lock.System τ) : s.pc t = .acquire → Lock.run s.locks t = some l →
      l.phase t = .held → Moves s ({ s with locks := l }.goto t .wait)
  | sleep (t : τ) : s.pc t = .wait → t ∉ s.waitFor.queue → s.waitFor.value = 0 →
      Moves s { s with waitFor := { s.waitFor with queue := s.waitFor.queue ++ [t] } }
  | wake (t : τ) : s.pc t = .wait → s.waitFor.value ≠ 0 →
      Moves s ({ s with waitFor := { s.waitFor with
        value := TwosComplement.wrap (s.waitFor.value - 1) } }.goto t .take)
  | take (t : τ) : s.pc t = .take →
      Moves s (((getChar s).1.callRelease t).goto t (.release s.incoming))
  | releasing (t : τ) (ch : Int) (l : Lock.System τ) : s.pc t = .release ch →
      Lock.run s.locks t = some l → l.phase t ≠ .out → Moves s { s with locks := l }
  | leave (t : τ) (ch : Int) (l : Lock.System τ) : s.pc t = .release ch →
      Lock.run s.locks t = some l → l.phase t = .out →
      Moves s ({ s with locks := l, completed := s.completed ++ [ch] }.goto t .out)
  | poll (ready : Bool) : s.polls ≠ 0 → Moves s (callBack { s with polls := s.polls - 1 } ready)

variable {s s' : System τ} {t u : τ} {a : Act τ}

theorem run_moves (h : run s t = some s') : Moves s s' := by
  unfold run at h
  split at h
  · cases h
  · next hp =>
    obtain ⟨l, hl, rfl⟩ := Option.map_eq_some_iff.mp h
    by_cases hheld : l.phase t = .held
    · rw [if_pos hheld]
      exact .enter t l hp hl hheld
    · rw [if_neg hheld]
      exact .acquiring t l hp hl hheld
  · next hp =>
    split_ifs at h with hq
    by_cases hv : s.waitFor.value = 0
    · rw [Semaphore.P_of_zero hv] at h
      cases h
      exact .sleep t hp hq hv
    · rw [Semaphore.P_of_ne_zero hv] at h
      cases h
      exact .wake t hp hv
  · next hp =>
    cases h
    exact .take t hp
  · next ch hp =>
    obtain ⟨l, hl, rfl⟩ := Option.map_eq_some_iff.mp h
    by_cases hout : l.phase t = .out
    · rw [if_pos hout]
      exact .leave t ch l hp hl hout
    · rw [if_neg hout]
      exact .releasing t ch l hp hl hout

theorem step_moves (h : step s a = some s') : Moves s s' := by
  unfold step at h
  rw [Option.ite_none_left_eq_some] at h
  replace h := h.2
  cases a with
  | run t => exact run_moves h
  | call t =>
    simp only [Option.ite_none_right_eq_some, Option.some.injEq] at h
    exact h.2 ▸ .call t h.1
  | poll ready =>
    simp only [Option.ite_none_left_eq_some, Option.some.injEq] at h
    exact h.2 ▸ .poll ready h.1

def Signalled (s : System τ) : Prop :=
  (s.waitFor.value = 1 ∧ ∀ t, s.pc t ≠ .take) ∨ s.waitFor.value = 0 ∧ ∃ t, s.pc t = .take

/-- A poll is scheduled, or a character has been read, or the end of the file has been met;
or nothing more will come, because the byte 255 or the end of the file has been collected. -/
inductive Flow (s : System τ) : Prop
  | polling : s.polls = 1 → s.incoming = eof → s.waitFor.value = 0 → (∀ t, s.pc t ≠ .take) →
      s.collected = s.read.map charOf → Flow s
  | full (c : UInt8) (before : List UInt8) : s.polls = 0 → s.incoming = charOf c →
      s.read = before ++ [c] → s.collected = before.map charOf → Signalled s → Flow s
  | ended : s.polls = 0 → s.incoming = eof → s.keyboard = [] →
      s.collected = s.read.map charOf → Signalled s → Flow s
  | mute (before : List UInt8) : s.polls = 0 → s.waitFor.value = 0 → (∀ t, s.pc t ≠ .take) →
      s.read = before ++ [255] → s.collected = s.read.map charOf → Flow s
  | finished : s.polls = 0 → s.waitFor.value = 0 → (∀ t, s.pc t ≠ .take) → s.keyboard = [] →
      s.collected = s.read.map charOf ++ [eof] → Flow s

def LocalAt : Pc → Lock.Phase → Prop
  | .out, f => f = .out
  | .acquire, f => f = .acquiring ∨ f = .passed
  | .wait, f | .take, f => f = .held
  | .release _, f => f = .releasing ∨ f = .clearing ∨ f = .leaving

/-- The calls completed are those that have collected a character, but for one in `Release`. -/
def Completes (s : System τ) : Prop :=
  (s.completed = s.collected ∧ ∀ t ch, s.pc t ≠ .release ch) ∨
    ∃ t ch, s.pc t = .release ch ∧ s.collected = s.completed ++ [ch]

structure Inv (bytes : List UInt8) (s : System τ) : Prop where
  locks : Lock.Exclusive s.locks
  running : s.aborted = false
  place : ∀ t, LocalAt (s.pc t) (s.locks.phase t)
  kept : s.read ++ s.keyboard = bytes
  flow : Flow s
  completes : Completes s

variable {bytes : List UInt8}

omit [DecidableEq τ] in
theorem inv_start : Inv bytes (start bytes : System τ) where
  locks := Lock.exclusive_start
  running := rfl
  place _ := rfl
  kept := rfl
  flow := .polling rfl rfl rfl (fun _ => nofun) rfl
  completes := .inl ⟨rfl, fun _ _ => nofun⟩

omit [DecidableEq τ] in
theorem Inv.at (h : Inv bytes s) {p : Pc} (hp : s.pc t = p) : LocalAt p (s.locks.phase t) :=
  hp ▸ h.place t

def Pc.inLock : Pc → Bool
  | .wait | .take | .release _ => true
  | _ => false

omit [DecidableEq τ] in
theorem Inv.inside (h : Inv bytes s) (ht : (s.pc t).inLock) : (s.locks.phase t).inside := by
  have hplace := h.place t
  cases hp : s.pc t with
  | out | acquire =>
    rw [hp] at ht
    cases ht
  | wait | take =>
    rw [hp] at hplace
    rw [show s.locks.phase t = .held from hplace]
    rfl
  | release ch =>
    rw [hp] at hplace
    rcases hplace with hf | hf | hf <;> rw [hf] <;> rfl

omit [DecidableEq τ] in
theorem Inv.unique (h : Inv bytes s) (ht : (s.pc t).inLock) (hu : (s.pc u).inLock) : t = u :=
  h.locks.unique (h.inside ht) (h.inside hu)

omit [DecidableEq τ] in
theorem Signalled.frame (h : Signalled s) (hpc : ∀ u, s'.pc u = .take ↔ s.pc u = .take)
    (hvalue : s'.waitFor.value = s.waitFor.value) : Signalled s' := by
  unfold Signalled at *
  simp only [ne_eq, hpc, hvalue]
  exact h

omit [DecidableEq τ] in
theorem Flow.frame (h : Flow s) (hpc : ∀ u, s'.pc u = .take ↔ s.pc u = .take)
    (hpolls : s'.polls = s.polls) (hincoming : s'.incoming = s.incoming)
    (hvalue : s'.waitFor.value = s.waitFor.value) (hkeyboard : s'.keyboard = s.keyboard)
    (hread : s'.read = s.read) (hcollected : s'.collected = s.collected) : Flow s' := by
  have hnone : (∀ u, s.pc u ≠ .take) → ∀ u, s'.pc u ≠ .take := fun hs u hu => hs u ((hpc u).mp hu)
  cases h with
  | polling h1 h2 h3 h4 h5 =>
    exact .polling (hpolls.trans h1) (hincoming.trans h2) (hvalue.trans h3) (hnone h4)
      (by rw [hcollected, h5, hread])
  | full c before h1 h2 h3 h4 h5 =>
    exact .full c before (hpolls.trans h1) (hincoming.trans h2) (hread.trans h3)
      (hcollected.trans h4) (h5.frame hpc hvalue)
  | ended h1 h2 h3 h4 h5 =>
    exact .ended (hpolls.trans h1) (hincoming.trans h2) (hkeyboard.trans h3)
      (by rw [hcollected, h4, hread]) (h5.frame hpc hvalue)
  | mute before h1 h2 h3 h4 h5 =>
    exact .mute before (hpolls.trans h1) (hvalue.trans h2) (hnone h3) (hread.trans h4)
      (by rw [hcollected, h5, hread])
  | finished h1 h2 h3 h4 h5 =>
    exact .finished (hpolls.trans h1) (hvalue.trans h2) (hnone h3) (hkeyboard.trans h4)
      (by rw [hcollected, h5, hread])

omit [DecidableEq τ] in
theorem inv_frame (h : Inv bytes s) (hlocks : Lock.Exclusive s'.locks)
    (hrunning : s'.aborted = s.aborted)
    (hother : ∀ u ≠ t, s'.pc u = s.pc u ∧ s'.locks.phase u = s.locks.phase u)
    (hplace : LocalAt (s'.pc t) (s'.locks.phase t))
    (hself : s'.pc t = s.pc t ∨ ∀ p, p = s'.pc t ∨ p = s.pc t → p ≠ .take ∧ ∀ ch, p ≠ .release ch)
    (hvalue : s'.waitFor.value = s.waitFor.value)
    (hsame : s'.polls = s.polls ∧ s'.incoming = s.incoming ∧ s'.keyboard = s.keyboard ∧
      s'.read = s.read ∧ s'.collected = s.collected ∧ s'.completed = s.completed) :
    Inv bytes s' := by
  obtain ⟨hpolls, hincoming, hkeyboard, hread, hcollected, hcompleted⟩ := hsame
  -- the threads at `take` and in `Release` are the same before and after
  have hpc : ∀ p : Pc, (p = .take ∨ ∃ ch, p = .release ch) → ∀ u, s'.pc u = p ↔ s.pc u = p := by
    intro p hp u
    by_cases hut : u = t
    · subst hut
      rcases hself with heq | hno
      · rw [heq]
      · have h1 := hno _ (.inl rfl)
        have h2 := hno _ (.inr rfl)
        rcases hp with rfl | ⟨ch, rfl⟩
        · exact iff_of_false h1.1 h2.1
        · exact iff_of_false (h1.2 ch) (h2.2 ch)
    · rw [(hother u hut).1]
  refine ⟨hlocks, hrunning.trans h.running, fun u => ?_, by rw [hread, hkeyboard, h.kept],
    h.flow.frame (hpc _ (.inl rfl)) hpolls hincoming hvalue hkeyboard hread hcollected, ?_⟩
  · by_cases hut : u = t
    · exact hut ▸ hplace
    · rw [(hother u hut).1, (hother u hut).2]
      exact h.place u
  · unfold Completes
    rw [hcompleted, hcollected]
    refine h.completes.imp (fun ⟨heq, hno⟩ => ⟨heq, fun u ch => ?_⟩) fun ⟨u, ch, hu, heq⟩ =>
      ⟨u, ch, (hpc _ (.inr ⟨ch, rfl⟩) u).mpr hu, heq⟩
    exact fun hu => hno u ch ((hpc _ (.inr ⟨ch, rfl⟩) u).mp hu)

theorem inv_wake (h : Inv bytes s) (hp : s.pc t = .wait) (hv : s.waitFor.value ≠ 0) :
    Inv bytes (({ s with waitFor := { s.waitFor with
      value := TwosComplement.wrap (s.waitFor.value - 1) } } : System τ).goto t .take) := by
  have hsig : Signalled s → Signalled (({ s with waitFor := { s.waitFor with
      value := TwosComplement.wrap (s.waitFor.value - 1) } } : System τ).goto t .take) := by
    intro hs
    refine .inr ⟨?_, t, Function.update_self ..⟩
    show TwosComplement.wrap (s.waitFor.value - 1) = 0
    rw [(hs.resolve_right fun h0 => hv h0.1).1]
    rfl
  have hheld : s.locks.phase t = .held := h.at hp
  refine ⟨h.locks, h.running, (Function.forall_update_iff s.pc fun u p =>
    LocalAt p (s.locks.phase u)).mpr ⟨hheld, fun u _ => h.place u⟩, h.kept, ?_, ?_⟩
  · cases h.flow with
    | full c before h1 h2 h3 h4 h5 => exact .full c before h1 h2 h3 h4 (hsig h5)
    | ended h1 h2 h3 h4 h5 => exact .ended h1 h2 h3 h4 (hsig h5)
    | polling _ _ h0 | mute _ _ h0 | finished _ h0 => exact absurd h0 hv
  · refine h.completes.imp (fun ⟨heq, hno⟩ => ⟨heq, ?_⟩) fun ⟨u, ch, hu, heq⟩ => ⟨u, ch, ?_, heq⟩
    · exact (Function.forall_update_iff s.pc fun _ p => ∀ ch, p ≠ .release ch).mpr
        ⟨fun ch => nofun, fun u _ => hno u⟩
    · have hut : u ≠ t := by
        intro hut
        rw [hut, hp] at hu
        cases hu
      exact (Function.update_of_ne hut ..).trans hu

theorem inv_take (h : Inv bytes s) (hp : s.pc t = .take) :
    Inv bytes (((getChar s).1.callRelease t).goto t (.release s.incoming)) := by
  have hin : (s.pc t).inLock := by
    rw [hp]
    rfl
  have hheld : s.locks.phase t = .held := h.at hp
  have hothers : ∀ u ≠ t, (s.pc u).inLock = false := fun u hu =>
    Bool.eq_false_iff.mpr fun hui => hu (h.unique hui hin)
  have hnone : ∀ u, (((getChar s).1.callRelease t).goto t (.release s.incoming)).pc u ≠ .take := by
    refine (Function.forall_update_iff s.pc fun _ p => p ≠ .take).mpr
      ⟨nofun, fun u hu hpu => ?_⟩
    have hno := hothers u hu
    rw [show s.pc u = .take from hpu] at hno
    cases hno
  -- the thread itself has the token, so there is none in the semaphore
  have hzero : Signalled s → s.waitFor.value = 0 := fun hs =>
    (hs.resolve_left fun hno => hno.2 t hp).1
  refine ⟨Lock.exclusive_moves h.locks (.callRelease hheld), h.running, ?_, h.kept, ?_,
    .inr ⟨t, s.incoming, Function.update_self .., ?_⟩⟩
  · refine (Function.forall_update_iff s.pc fun u p =>
      LocalAt p ((s.locks.goto t .releasing).phase u)).mpr
      ⟨.inl (Lock.goto_phase_self ..), fun u hu => ?_⟩
    rw [Lock.goto_phase_of_ne _ hu]
    exact h.place u
  · cases h.flow with
    | full c before h1 h2 h3 h4 h5 =>
      have hcollected : s.collected ++ [s.incoming] = s.read.map charOf := by
        rw [h4, h2, h3, List.map_append]
        rfl
      by_cases hc : s.incoming = eof
      · -- the byte looks like no character, and nobody polls again
        have h255 : c = 255 := charOf_eq_eof.mp (h2.symm.trans hc)
        refine .mute before ?_ (hzero h5) hnone (h255 ▸ h3) hcollected
        exact (if_neg (not_not.mpr hc)).trans h1
      · refine .polling ?_ rfl (hzero h5) hnone hcollected
        exact (if_pos hc).trans (congrArg (· + 1) h1)
    | ended h1 h2 h3 h4 h5 =>
      refine .finished ?_ (hzero h5) hnone h3 ?_
      · exact (if_neg (not_not.mpr h2)).trans h1
      · show s.collected ++ [s.incoming] = s.read.map charOf ++ [eof]
        rw [h4, h2]
    | polling _ _ _ hno | mute _ _ _ hno | finished _ _ hno => exact absurd hp (hno t)
  · show s.collected ++ [s.incoming] = s.completed ++ [s.incoming]
    rcases h.completes with ⟨heq, -⟩ | ⟨u, ch, hu, -⟩
    · rw [heq]
    · have hut : u = t := h.unique (by rw [hu]; rfl) hin
      rw [hut, hp] at hu
      cases hu

theorem inv_leave (h : Inv bytes s) {ch : Int} (hp : s.pc t = .release ch) {l : Lock.System τ}
    (hl : Lock.run s.locks t = some l) (hout : l.phase t = .out) :
    Inv bytes (({ s with locks := l, completed := s.completed ++ [ch] } : System τ).goto t
      .out) := by
  have hin : (s.pc t).inLock := by
    rw [hp]
    rfl
  refine ⟨Lock.exclusive_moves h.locks (Lock.run_moves hl), h.running, ?_, h.kept, ?_,
    .inl ⟨?_, ?_⟩⟩
  · refine (Function.forall_update_iff s.pc fun u p => LocalAt p (l.phase u)).mpr
      ⟨hout, fun u hu => ?_⟩
    rw [Lock.run_others hl hu]
    exact h.place u
  · refine h.flow.frame (fun u => ?_) rfl rfl rfl rfl rfl rfl
    by_cases hut : u = t
    · rw [hut, System.goto_pc, Function.update_self, hp]
      simp
    · rw [System.goto_pc, Function.update_of_ne hut]
  · show s.completed ++ [ch] = s.collected
    rcases h.completes with ⟨-, hno⟩ | ⟨u, ch', hu, heq⟩
    · exact absurd hp (hno t ch)
    · have hut : u = t := h.unique (by rw [hu]; rfl) hin
      rw [hut, hp] at hu
      cases hu
      exact heq.symm
  · refine (Function.forall_update_iff s.pc fun _ p => ∀ ch, p ≠ .release ch).mpr
      ⟨fun ch => nofun, fun u hu ch' hpu => ?_⟩
    exact hu (h.unique (by rw [show s.pc u = _ from hpu]; rfl) hin)

omit [DecidableEq τ] in
/-- A poll finds nothing, the end of the file or a byte. -/
theorem inv_poll (h : Inv bytes s) (hpolls : s.polls ≠ 0) (ready : Bool) :
    Inv bytes (callBack { s with polls := s.polls - 1 } ready) := by
  cases h.flow with
  | polling h1 h2 h3 h4 h5 =>
    have hone : TwosComplement.wrap (s.waitFor.value + 1) = 1 := by
      rw [h3]
      rfl
    have hzero : s.polls - 1 = 0 := by omega
    unfold callBack
    rw [if_neg (not_not.mpr h2)]
    cases ready with
    | false =>
      rw [if_pos rfl]
      exact ⟨h.locks, h.running, h.place, h.kept,
        .polling (congrArg (· + 1) hzero) h2 h3 h4 h5, h.completes⟩
    | true =>
      rw [if_neg nofun]
      cases hk : s.keyboard with
      | nil =>
        have hkept := h.kept
        rw [hk] at hkept
        exact ⟨h.locks, h.running, h.place, hkept, .ended hzero h2 rfl h5 (.inl ⟨hone, h4⟩),
          h.completes⟩
      | cons c keyboard =>
        refine ⟨h.locks, h.running, h.place, ?_,
          .full c s.read hzero rfl rfl h5 (.inl ⟨hone, h4⟩), h.completes⟩
        show (s.read ++ [c]) ++ keyboard = bytes
        rw [List.append_assoc, ← h.kept, hk]
        rfl
  | full _ _ h0 | ended h0 | mute _ h0 | finished h0 => exact absurd h0 hpolls

theorem inv_moves (h : Inv bytes s) (hm : Moves s s') : Inv bytes s' := by
  cases hm with
  | call t hp =>
    have hout : s.locks.phase t = .out := h.at hp
    refine inv_frame (t := t) h (Lock.exclusive_moves h.locks (.call hout)) rfl
      (fun u hu => ⟨Function.update_of_ne hu .., Lock.goto_phase_of_ne _ hu _⟩) ?_ (.inr ?_) rfl
      ⟨rfl, rfl, rfl, rfl, rfl, rfl⟩
    · rw [System.goto_pc, Function.update_self]
      exact .inl (Lock.goto_phase_self ..)
    · rw [System.goto_pc, Function.update_self, hp]
      simp
  | acquiring t l hp hl hheld =>
    refine inv_frame (t := t) h (Lock.exclusive_moves h.locks (Lock.run_moves hl)) rfl
      (fun u hu => ⟨rfl, Lock.run_others hl hu⟩) ?_ (.inl rfl) rfl ⟨rfl, rfl, rfl, rfl, rfl, rfl⟩
    show LocalAt (s.pc t) (l.phase t)
    rw [hp]
    exact (Lock.run_moves hl).acquiring (h.at hp) hheld
  | enter t l hp hl hheld =>
    refine inv_frame (t := t) h (Lock.exclusive_moves h.locks (Lock.run_moves hl)) rfl
      (fun u hu => ⟨Function.update_of_ne hu .., Lock.run_others hl hu⟩) ?_ (.inr ?_) rfl
      ⟨rfl, rfl, rfl, rfl, rfl, rfl⟩
    · rw [System.goto_pc, Function.update_self]
      exact hheld
    · rw [System.goto_pc, Function.update_self, hp]
      simp
  | sleep t hp hq hv =>
    exact inv_frame (t := t) h h.locks rfl (fun _ _ => ⟨rfl, rfl⟩) (h.place t) (.inl rfl) rfl
      ⟨rfl, rfl, rfl, rfl, rfl, rfl⟩
  | wake t hp hv => exact inv_wake h hp hv
  | take t hp => exact inv_take h hp
  | releasing t ch l hp hl hout =>
    refine inv_frame (t := t) h (Lock.exclusive_moves h.locks (Lock.run_moves hl)) rfl
      (fun u hu => ⟨rfl, Lock.run_others hl hu⟩) ?_ (.inl rfl) rfl ⟨rfl, rfl, rfl, rfl, rfl, rfl⟩
    show LocalAt (s.pc t) (l.phase t)
    rw [hp]
    exact (Lock.run_moves hl).releasing (h.at hp) hout
  | leave t ch l hp hl hout => exact inv_leave h hp hl hout
  | poll ready hpolls => exact inv_poll h hpolls ready

theorem inv_reach (h : Reach step (fun _ _ => True) (start bytes : System τ) s) : Inv bytes s :=
  h.invariant inv_start fun _ _ _ hi _ hs => inv_moves hi (step_moves hs)

/-- No poll finds a character still in `incoming`; the calls give the bytes of the keyboard in
order, none lost and none twice; and while there are bytes that no call has collected, a
poll is scheduled, or a byte is there with its semaphore signalled or a caller about to
collect it. -/
structure Faithful (bytes : List UInt8) (s : System τ) : Prop where
  running : s.aborted = false
  kept : s.read ++ s.keyboard = bytes
  order : ∀ (i : ℕ) c ch, bytes[i]? = some c → s.completed[i]? = some ch → ch = charOf c
  progress : s.collected.length < bytes.length → 0 < s.polls ∨
    s.collected.length < s.read.length ∧ (0 < s.waitFor.value ∨ ∃ t, s.pc t = .take)

omit [DecidableEq τ] in
theorem Signalled.waiting (h : Signalled s) : 0 < s.waitFor.value ∨ ∃ t, s.pc t = .take := by
  rcases h with ⟨hv, -⟩ | ⟨-, ht⟩
  · left
    omega
  · exact .inr ht

omit [DecidableEq τ] in
theorem Completes.prefix_collected (h : Completes s) : s.completed <+: s.collected := by
  rcases h with ⟨heq, -⟩ | ⟨_, ch, -, heq⟩
  · exact heq ▸ List.prefix_refl _
  · exact heq ▸ List.prefix_append ..

omit [DecidableEq τ] in
theorem Inv.collected_of_input (h : Inv bytes s) : s.collected <+: bytes.map charOf ++ [eof] := by
  have hread : s.read.map charOf <+: bytes.map charOf ++ [eof] := by
    rw [← h.kept, List.map_append, List.append_assoc]
    exact List.prefix_append ..
  cases h.flow with
  | polling _ _ _ _ hc | ended _ _ _ hc | mute _ _ _ _ _ hc => rwa [hc]
  | full c before _ _ hr hc =>
    rw [hr, List.map_append] at hread
    rw [hc]
    exact (List.prefix_append ..).trans hread
  | finished _ _ _ hk hc =>
    have hkept := h.kept
    rw [hk, List.append_nil] at hkept
    rw [hc, hkept]

omit [DecidableEq τ] in
theorem Inv.order (h : Inv bytes s) (i : ℕ) (c : UInt8) (ch : Int) (hc : bytes[i]? = some c)
    (hch : s.completed[i]? = some ch) : ch = charOf c := by
  obtain ⟨rest, hrest⟩ := h.completes.prefix_collected.trans h.collected_of_input
  have hi : i < s.completed.length := (List.getElem?_eq_some_iff.mp hch).1
  have hib : i < bytes.length := (List.getElem?_eq_some_iff.mp hc).1
  have hsame : s.completed[i]? = (bytes.map charOf)[i]? := by
    rw [← List.getElem?_append_left hi, hrest, List.getElem?_append_left (by rwa [List.length_map])]
  rw [hch, List.getElem?_map, hc] at hsame
  exact Option.some.inj hsame

omit [DecidableEq τ] in
theorem Inv.progress (h : Inv bytes s) (hbytes : 255 ∉ bytes.dropLast)
    (hlt : s.collected.length < bytes.length) : 0 < s.polls ∨
      s.collected.length < s.read.length ∧ (0 < s.waitFor.value ∨ ∃ t, s.pc t = .take) := by
  have hlen : s.read.length + s.keyboard.length = bytes.length := by
    rw [← h.kept, List.length_append]
  cases h.flow with
  | polling h1 =>
    left
    omega
  | full c before _ _ hr hc hs =>
    refine .inr ⟨?_, hs.waiting⟩
    rw [hr, hc]
    simp
  | ended _ _ hk hc | finished _ _ _ hk hc =>
    rw [hk, List.length_nil] at hlen
    rw [hc] at hlt
    simp only [List.length_map, List.length_append] at hlt
    omega
  | mute before _ _ _ hr hc =>
    rw [hc, List.length_map] at hlt
    -- there are bytes behind the 255, so it is not the last one
    have hne : s.keyboard ≠ [] := by
      intro hk
      rw [hk, List.length_nil] at hlen
      omega
    refine absurd ?_ hbytes
    rw [← h.kept, List.dropLast_append_of_ne_nil hne, hr]
    simp

omit [DecidableEq τ] in
theorem Inv.faithful (h : Inv bytes s) (hbytes : 255 ∉ bytes.dropLast) : Faithful bytes s :=
  ⟨h.running, h.kept, h.order, h.progress hbytes⟩

def atRest (keyboard read : List UInt8) (polls : ℕ) : System τ :=
  { start keyboard with
    polls := polls
    read := read
    collected := read.map charOf
    completed := read.map charOf }

def atTake (t : τ) (c : UInt8) (keyboard read : List UInt8) : System τ :=
  { atRest keyboard read 0 with
    locks := ⟨⟨some t, .new 0⟩, Function.update (fun _ => .out) t .held, false⟩
    incoming := charOf c
    read := read ++ [c]
    pc := Function.update (fun _ => .out) t .take }

theorem deliver_wait (t : τ) (c : UInt8) (keyboard read : List UInt8) :
    exec step (fun _ _ => True) (atRest (c :: keyboard) read 1)
      [.poll true, .call t, .run t, .run t, .run t] = some (atTake t c keyboard read) := by
  have hwrap : TwosComplement.wrap 1 = 1 := rfl
  have hwrap0 : TwosComplement.wrap 0 = 0 := rfl
  simp [exec, step, run, halted, atRest, atTake, start, callBack, Lock.run, Lock.start, Lock.new,
    Semaphore.new, Semaphore.P, Semaphore.V, System.goto, System.callAcquire,
    Lock.System.goto, hwrap, hwrap0]

theorem deliver_take (t : τ) (c : UInt8) (keyboard read : List UInt8) :
    exec step (fun _ _ => True) (atTake t c keyboard read) [.run t, .run t, .run t, .run t] =
      some (atRest keyboard (read ++ [c]) (if c = 255 then 0 else 1) : System τ) := by
  have hwrap : TwosComplement.wrap 1 = 1 := rfl
  simp [exec, step, run, halted, atRest, atTake, start, getChar, Lock.run, Lock.start, Lock.new,
    Semaphore.new, Semaphore.V, System.goto, System.callRelease, Lock.System.goto,
    Lock.isHeldByCurrentThread, charOf_eq_eof, hwrap]

theorem deliver (t : τ) (c : UInt8) (keyboard read : List UInt8) :
    Reach step (fun _ _ => True) (atRest (c :: keyboard) read 1 : System τ)
      (atRest keyboard (read ++ [c]) (if c = 255 then 0 else 1)) :=
  (reach_of_exec _ (deliver_wait t c keyboard read)).trans
    (reach_of_exec _ (deliver_take t c keyboard read))

theorem deliver_all (t : τ) (rest : List UInt8) (before : List UInt8) (h : 255 ∉ before)
    (read : List UInt8) : Reach step (fun _ _ => True)
      (atRest (before ++ rest) read 1 : System τ) (atRest rest (read ++ before) 1) := by
  induction before generalizing read with
  | nil =>
    rw [List.append_nil]
    exact .refl
  | cons c before ih =>
    rw [List.mem_cons, not_or] at h
    have hone := deliver t c (before ++ rest) read
    rw [if_neg (Ne.symm h.1)] at hone
    have hrest := ih h.2 (read ++ [c])
    rw [List.append_assoc] at hrest
    exact hone.trans hrest

/-- With a byte 255 before the last, one thread alone gets to where no poll is left. -/
theorem exists_mute (t : τ) (h : 255 ∈ bytes.dropLast) : ∃ s : System τ,
    Reach step (fun _ _ => True) (start bytes) s ∧ s.collected.length < bytes.length ∧
      s.polls = 0 ∧ s.collected.length = s.read.length := by
  obtain ⟨before, after, heq, hnot⟩ := List.eq_append_cons_of_mem h
  have hne : bytes ≠ [] := by
    intro hnil
    rw [hnil] at h
    cases h
  obtain ⟨last, hbytes⟩ : ∃ last, bytes = before ++ 255 :: (after ++ [last]) := by
    refine ⟨bytes.getLast hne, ?_⟩
    conv_lhs => rw [← List.dropLast_append_getLast hne, heq]
    simp
  have hall := deliver_all t (255 :: (after ++ [last])) before hnot []
  have hmute := deliver t 255 (after ++ [last]) ([] ++ before)
  rw [← hbytes] at hall
  refine ⟨_, hall.trans hmute, ?_, rfl, List.length_map _⟩
  show ((([] ++ before) ++ [255]).map charOf).length < bytes.length
  rw [hbytes]
  simp only [List.nil_append, List.length_map, List.length_append, List.length_cons,
    List.length_nil]
  omega

/-- The input is delivered faithfully in every run exactly if no byte 255 comes before the
last one: it is delivered itself, but after it the keyboard is not polled any more. -/
theorem input_faithful_iff (t : τ) (bytes : List UInt8) :
    (∀ s, Reach step (fun _ _ => True) (start bytes : System τ) s → Faithful bytes s) ↔
      255 ∉ bytes.dropLast := by
  constructor
  · intro hall h255
    obtain ⟨s, hs, hlt, hpolls, hread⟩ := exists_mute t h255
    rcases (hall s hs).progress hlt with hpos | ⟨hmore, -⟩
    · omega
    · omega
  · intro hbytes s hs
    exact (inv_reach hs).faithful hbytes

/-- The bytes 255 and 65: the second is never read. -/
theorem byte_255_ends_input : ∃ s : System ℕ,
    Reach step (fun _ _ => True) (start [255, 65]) s ∧ s.collected = [-1] ∧ s.keyboard = [65] ∧
      s.polls = 0 ∧ ¬Faithful [255, 65] s := by
  refine ⟨_, deliver 1 255 [65] [], rfl, rfl, rfl, fun hf => ?_⟩
  rcases hf.progress (by decide) with hpos | ⟨hmore, -⟩
  · cases hpos
  · exact Nat.lt_irrefl 1 hmore

end ConsoleInput
end Nachos
