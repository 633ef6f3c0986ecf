import Nachos.Lib.GuardedRun
import Nachos.Lib.TwosComplement
import Nachos.Lib.StableOrder

namespace Nachos
open GuardedRun TwosComplement StableOrder
open scoped List

inductive IntStatus where
  | intOff
  | intOn
  deriving DecidableEq, Repr

inductive MachineStatus where
  | idleMode
  | systemMode
  | userMode
  deriving DecidableEq, Repr

inductive IntType where
  | timerInt
  | diskInt
  | consoleWriteInt
  | consoleReadInt
  | networkSendInt
  | networkRecvInt
  deriving DecidableEq, Repr

def userTick : Int := 1
def systemTick : Int := 10

/-- `serial` tells the objects apart, in the order in which they are scheduled. -/
structure PendingInterrupt (η : Type*) where
  callOnInterrupt : η
  when : Int
  type : IntType
  serial : ℕ
  deriving DecidableEq, Repr

def pendingCompare {η : Type*} (x y : PendingInterrupt η) : Int :=
  if x.when < y.when then -1 else if x.when > y.when then 1 else 0

structure Statistics where
  totalTicks : Int
  idleTicks : Int
  systemTicks : Int
  userTicks : Int
  deriving DecidableEq, Repr

namespace Interrupt

/-- What an interrupt handler does with the interrupts. -/
inductive Effect (η : Type*) where
  | schedule (toCall : η) (fromNow : Int) (type : IntType)
  | yieldOnReturn

/-- The handlers, with all they read and change outside of the interrupts in `κ`. -/
structure Handlers (η κ : Type*) where
  callBack : η → Statistics → κ → κ × List (Effect η)
  delayedLoad : κ → κ

structure Firing (η : Type*) where
  interrupt : PendingInterrupt η
  time : Int

/-- `aborted` once an `ASSERT` has failed, `halted` after `Halt`.  `scheduled` and `fired` are
history: the number of interrupts scheduled so far and those that have been called.  Ticks are
kept in `int`s; `overflow` notes that a sum of ticks has left their range. -/
structure System (η κ : Type*) where
  level : IntStatus
  pending : List (PendingInterrupt η)
  inHandler : Bool
  yieldOnReturn : Bool
  status : MachineStatus
  stats : Statistics
  kernel : κ
  aborted : Bool
  halted : Bool
  overflow : Bool
  scheduled : ℕ
  fired : List (Firing η)

variable {η κ : Type*}

def start (kernel : κ) : System η κ :=
  ⟨.intOff, [], false, false, .systemMode, ⟨0, 0, 0, 0⟩, kernel, false, false, false, 0, []⟩

def overflows (a b : Int) : Bool := wrap (a + b) ≠ a + b

namespace System

def abort (s : System η κ) : System η κ := { s with aborted := true }

def addOverflow (s : System η κ) (b : Bool) : System η κ := { s with overflow := s.overflow || b }

def insert (s : System η κ) (toOccur : PendingInterrupt η) : System η κ :=
  if ∃ p ∈ s.pending, p.serial = toOccur.serial then s.abort
  else
    { s with
      pending := s.pending.orderedInsert (fun x y => pendingCompare x y < 0) toOccur
      scheduled := s.scheduled + 1 }

def schedule (s : System η κ) (toCall : η) (fromNow : Int) (type : IntType) : System η κ :=
  let s' := s.addOverflow (overflows s.stats.totalTicks fromNow)
  if 0 < fromNow then
    s'.insert ⟨toCall, wrap (s.stats.totalTicks + fromNow), type, s.scheduled⟩
  else s'.abort

def perform (s : System η κ) : Effect η → System η κ
  | .schedule toCall fromNow type => s.schedule toCall fromNow type
  | .yieldOnReturn => if s.inHandler then { s with yieldOnReturn := true } else s.abort

/-- The effects of a handler one after the other, up to an `ASSERT` that fails. -/
def performAll (s : System η κ) (effects : List (Effect η)) : System η κ :=
  effects.foldl (fun s e => if s.aborted then s else s.perform e) s

def removed (H : Handlers η κ) (s : System η κ) (next : PendingInterrupt η)
    (rest : List (PendingInterrupt η)) : System η κ :=
  { s with
    pending := rest
    kernel := (H.callBack next.callOnInterrupt s.stats s.kernel).1
    fired := s.fired ++ [⟨next, s.stats.totalTicks⟩] }

/-- The body of the loop of `CheckIfDue`. -/
def fire (H : Handlers η κ) (s : System η κ) : System η κ :=
  match s.pending with
  | [] => s.abort
  | next :: rest =>
    (s.removed H next rest).performAll (H.callBack next.callOnInterrupt s.stats s.kernel).2

def isDue (s : System η κ) : Bool :=
  match s.pending with
  | [] => false
  | next :: _ => next.when ≤ s.stats.totalTicks

def enterHandler (H : Handlers η κ) (s : System η κ) : System η κ :=
  { s with kernel := H.delayedLoad s.kernel, inHandler := true }

def leaveHandler (s : System η κ) : System η κ := { s with inHandler := false }

/-- The loop of `CheckIfDue`, of at most `fuel` rounds, and what follows it.  The second
component is the result, and `none` if the function has not come back. -/
def fireAll (H : Handlers η κ) : ℕ → System η κ → System η κ × Option Bool
  | 0, s => (s, none)
  | fuel + 1, s =>
    let s' := s.fire H
    if s'.aborted then (s', none)
    else if s'.isDue then fireAll H fuel s'
    else (s'.leaveHandler, some true)

def advanceTo (s : System η κ) (when : Int) : System η κ :=
  let idle := wrap (when - s.stats.totalTicks)
  { s.addOverflow (overflows when (-s.stats.totalTicks) || overflows s.stats.idleTicks idle) with
    stats := { s.stats with idleTicks := wrap (s.stats.idleTicks + idle), totalTicks := when } }

def checkIfDue (H : Handlers η κ) (fuel : ℕ) (s : System η κ) (advanceClock : Bool) :
    System η κ × Option Bool :=
  if s.level ≠ .intOff then (s.abort, none)
  else
    match s.pending with
    | [] => (s, some false)
    | next :: _ =>
      if next.when > s.stats.totalTicks then
        if advanceClock = false then (s, some false)
        else fireAll H fuel ((s.advanceTo next.when).enterHandler H)
      else fireAll H fuel (s.enterHandler H)

def tick (s : System η κ) : System η κ :=
  if s.status = .systemMode then
    { s.addOverflow (overflows s.stats.totalTicks systemTick ||
        overflows s.stats.systemTicks systemTick) with
      stats := { s.stats with
        totalTicks := wrap (s.stats.totalTicks + systemTick)
        systemTicks := wrap (s.stats.systemTicks + systemTick) } }
  else
    { s.addOverflow (overflows s.stats.totalTicks userTick ||
        overflows s.stats.userTicks userTick) with
      stats := { s.stats with
        totalTicks := wrap (s.stats.totalTicks + userTick)
        userTicks := wrap (s.stats.userTicks + userTick) } }

def changeLevel (s : System η κ) (now : IntStatus) : System η κ := { s with level := now }

def setStatus (s : System η κ) (st : MachineStatus) : System η κ := { s with status := st }

/-- What `OneTick` does after `CheckIfDue`, up to the `Yield` if there is one.  Other threads run
in that, and the assignment `status = oldStatus` behind it is a `setStatus`. -/
def afterCheck (s : System η κ) : System η κ :=
  if s.yieldOnReturn then
    { s.changeLevel .intOn with yieldOnReturn := false, status := .systemMode }
  else s.changeLevel .intOn

/-- The flag says whether the call has come back. -/
def oneTick (H : Handlers η κ) (fuel : ℕ) (s : System η κ) : System η κ × Bool :=
  match checkIfDue H fuel (s.tick.changeLevel .intOff) false with
  | (s', none) => (s', false)
  | (s', some _) => (s'.afterCheck, true)

def idle (H : Handlers η κ) (fuel : ℕ) (s : System η κ) : System η κ × Bool :=
  match checkIfDue H fuel (s.setStatus .idleMode) true with
  | (s', none) => (s', false)
  | (s', some true) => (s'.setStatus .systemMode, true)
  | (s', some false) => ({ s' with halted := true }, true)

def setLevel (H : Handlers η κ) (fuel : ℕ) (s : System η κ) (now : IntStatus) :
    System η κ × Bool :=
  if now = .intOff ∨ s.inHandler = false then
    if now = .intOn ∧ s.level = .intOff then oneTick H fuel (s.changeLevel now)
    else (s.changeLevel now, true)
  else (s.abort, false)

end System

/-- `elsewhere` is what the rest of the kernel does between two calls. -/
inductive Act (η κ : Type*) where
  | schedule (toCall : η) (fromNow : Int) (type : IntType)
  | oneTick
  | idle
  | setLevel (now : IntStatus)
  | setStatus (st : MachineStatus)
  | elsewhere (kernel : κ)

def call (H : Handlers η κ) (fuel : ℕ) (s : System η κ) : Act η κ → System η κ × Bool
  | .schedule toCall fromNow type => (s.schedule toCall fromNow type, true)
  | .oneTick => s.oneTick H fuel
  | .idle => s.idle H fuel
  | .setLevel now => s.setLevel H fuel now
  | .setStatus st => (s.setStatus st, true)
  | .elsewhere kernel => ({ s with kernel := kernel }, true)

/-- A loop of `CheckIfDue` gets one round for each interrupt that is pending. -/
def step (H : Handlers η κ) (s : System η κ) (a : Act η κ) : Option (System η κ) :=
  if s.aborted ∨ s.halted then none
  else
    let r := call H s.pending.length s a
    if r.2 ∨ r.1.aborted then some r.1 else none

theorem pendingCompare_neg (x y : PendingInterrupt η) :
    pendingCompare x y < 0 ↔ x.when < y.when := by
  unfold pendingCompare
  split_ifs with hlt hgt
  · exact iff_of_true (by decide) hlt
  · exact iff_of_false (by decide) hlt
  · exact iff_of_false (by decide) hlt

theorem wrap_of_not_overflows {a b : Int} (h : overflows a b = false) : wrap (a + b) = a + b := by
  simpa [overflows] using h

/-- The order of the queue: by time, and for one time as scheduled. -/
def Sorted (pending : List (PendingInterrupt η)) : Prop :=
  Stable PendingInterrupt.when (fun x y => x.serial < y.serial) pending

structure Inv (s : System η κ) : Prop where
  sorted : Sorted s.pending
  /-- Every interrupt scheduled is pending or has been called, and that once. -/
  once : (s.fired.map (·.interrupt.serial) ++ s.pending.map (·.serial)).Perm
    (List.range s.scheduled)
  notEarly : ∀ f ∈ s.fired, f.interrupt.when ≤ f.time ∧ f.time ≤ s.stats.totalTicks
  order : s.fired.Pairwise fun f f' => f.interrupt.when ≤ f'.interrupt.when
  ahead : ∀ f ∈ s.fired, ∀ p ∈ s.pending, f.interrupt.when ≤ p.when
  ticks : s.stats.totalTicks = s.stats.idleTicks + s.stats.systemTicks + s.stats.userTicks

def System.dueCount (s : System η κ) : ℕ :=
  s.pending.countP fun p => p.when ≤ s.stats.totalTicks

variable {H : Handlers η κ} {s s' : System η κ}

theorem inv_start (kernel : κ) : Inv (start kernel : System η κ) where
  sorted := .nil
  once := .refl _
  notEarly _ h := by cases h
  order := .nil
  ahead _ h := by cases h
  ticks := rfl

theorem Inv.serial_lt (h : Inv s) {p : PendingInterrupt η} (hp : p ∈ s.pending) :
    p.serial < s.scheduled := by
  apply List.mem_range.mp
  apply h.once.mem_iff.mp
  exact List.mem_append_right _ (List.mem_map_of_mem hp)

theorem Inv.of_same (h : Inv s) (hpending : s'.pending = s.pending) (hfired : s'.fired = s.fired)
    (hscheduled : s'.scheduled = s.scheduled) (hlater : s.stats.totalTicks ≤ s'.stats.totalTicks)
    (hticks : s'.stats.totalTicks =
      s'.stats.idleTicks + s'.stats.systemTicks + s'.stats.userTicks) : Inv s' where
  sorted := hpending ▸ h.sorted
  once := by
    rw [hpending, hfired, hscheduled]
    exact h.once
  notEarly f hf := by
    have hearly := h.notEarly f (hfired ▸ hf)
    exact ⟨hearly.1, hearly.2.trans hlater⟩
  order := hfired ▸ h.order
  ahead := by
    rw [hpending, hfired]
    exact h.ahead
  ticks := hticks

/-- What the effects of handlers, and `Schedule` itself, leave alone: the interrupts that are
due, the clock and what has been called. -/
structure SameDue (s s' : System η κ) : Prop where
  inv : Inv s'
  stats : s'.stats = s.stats
  dueCount : s'.dueCount = s.dueCount

theorem SameDue.refl (h : Inv s) : SameDue s s := ⟨h, rfl, rfl⟩

theorem SameDue.trans {s₁ s₂ s₃ : System η κ} (h₁ : SameDue s₁ s₂) (h₂ : SameDue s₂ s₃) :
    SameDue s₁ s₃ :=
  ⟨h₂.inv, h₂.stats.trans h₁.stats, h₂.dueCount.trans h₁.dueCount⟩

theorem sameDue_abort (h : Inv s) : SameDue s s.abort :=
  ⟨h.of_same rfl rfl rfl le_rfl h.ticks, rfl, rfl⟩

theorem sameDue_insert (h : Inv s) {p : PendingInterrupt η}
    (hserial : p.serial = s.scheduled) (hlater : s.stats.totalTicks < p.when) :
    SameDue s (s.insert p) := by
  have hnew : ¬∃ p' ∈ s.pending, p'.serial = p.serial := by
    rintro ⟨p', hp', heq⟩
    have hlt := h.serial_lt hp'
    omega
  have hperm := List.perm_orderedInsert (fun x y => pendingCompare x y < 0) p s.pending
  unfold System.insert
  rw [if_neg hnew]
  refine ⟨⟨?_, ?_, h.notEarly, h.order, ?_, h.ticks⟩, rfl, ?_⟩
  · exact Stable.orderedInsert pendingCompare_neg h.sorted fun p' hp' => hserial ▸ h.serial_lt hp'
  · calc s.fired.map (·.interrupt.serial) ++ (s.pending.orderedInsert _ p).map (·.serial)
      _ ~ s.fired.map (·.interrupt.serial) ++ (p.serial :: s.pending.map (·.serial)) :=
          (hperm.map _).append_left _
      _ ~ p.serial :: (s.fired.map (·.interrupt.serial) ++ s.pending.map (·.serial)) :=
          List.perm_middle
      _ ~ p.serial :: List.range s.scheduled := h.once.cons _
      _ ~ List.range (s.scheduled + 1) := by
          rw [List.range_succ, hserial]
          exact (List.perm_append_singleton _ _).symm
  · intro f hf p' hp'
    rcases (List.mem_orderedInsert _).mp hp' with rfl | hold
    · have hearly := h.notEarly f hf
      omega
    · exact h.ahead f hf p' hold
  · show List.countP _ (s.pending.orderedInsert _ p) = s.dueCount
    rw [hperm.countP_eq, List.countP_cons_of_neg (by simpa using hlater)]
    rfl

theorem insert_overflow (s : System η κ) (p : PendingInterrupt η) :
    (s.insert p).overflow = s.overflow := by
  unfold System.insert
  split_ifs <;> rfl

theorem schedule_overflow {toCall : η} {fromNow : Int} {type : IntType}
    (ho : (s.schedule toCall fromNow type).overflow = false) :
    s.overflow = false ∧ overflows s.stats.totalTicks fromNow = false := by
  unfold System.schedule at ho
  split_ifs at ho
  · rw [insert_overflow] at ho
    exact Bool.or_eq_false_iff.mp ho
  · exact Bool.or_eq_false_iff.mp ho

theorem sameDue_schedule (h : Inv s) {toCall : η} {fromNow : Int} {type : IntType}
    (ho : (s.schedule toCall fromNow type).overflow = false) :
    SameDue s (s.schedule toCall fromNow type) := by
  have hwhen := wrap_of_not_overflows (schedule_overflow ho).2
  have hsame : SameDue s (s.addOverflow (overflows s.stats.totalTicks fromNow)) :=
    ⟨h.of_same rfl rfl rfl le_rfl h.ticks, rfl, rfl⟩
  unfold System.schedule
  by_cases hpos : 0 < fromNow
  · rw [if_pos hpos]
    refine hsame.trans (sameDue_insert hsame.inv rfl ?_)
    show s.stats.totalTicks < wrap (s.stats.totalTicks + fromNow)
    omega
  · rw [if_neg hpos]
    exact hsame.trans (sameDue_abort hsame.inv)

theorem sameDue_perform (h : Inv s) {e : Effect η} (ho : (s.perform e).overflow = false) :
    SameDue s (s.perform e) := by
  cases e with
  | schedule toCall fromNow type => exact sameDue_schedule h ho
  | yieldOnReturn =>
    unfold System.perform
    split_ifs with hin
    · exact ⟨h.of_same rfl rfl rfl le_rfl h.ticks, rfl, rfl⟩
    · exact sameDue_abort h

theorem perform_overflow {e : Effect η} (ho : (s.perform e).overflow = false) :
    s.overflow = false := by
  cases e with
  | schedule toCall fromNow type => exact (schedule_overflow ho).1
  | yieldOnReturn =>
    unfold System.perform at ho
    split_ifs at ho <;> exact ho

theorem performAll_overflow {effects : List (Effect η)}
    (ho : (s.performAll effects).overflow = false) : s.overflow = false := by
  induction effects generalizing s with
  | nil => exact ho
  | cons e effects ih =>
    have hstep : (if s.aborted then s else s.perform e).overflow = false := ih ho
    split_ifs at hstep
    · exact hstep
    · exact perform_overflow hstep

theorem sameDue_performAll (h : Inv s) {effects : List (Effect η)}
    (ho : (s.performAll effects).overflow = false) : SameDue s (s.performAll effects) := by
  induction effects generalizing s with
  | nil => exact .refl h
  | cons e effects ih =>
    have hstep : (if s.aborted then s else s.perform e).overflow = false := performAll_overflow ho
    have hsame : SameDue s (if s.aborted then s else s.perform e) := by
      split_ifs at hstep ⊢
      · exact .refl h
      · exact sameDue_perform h hstep
    exact hsame.trans (ih hsame.inv ho)

/-- One round calls the first of the interrupts that are due, and no new one becomes due. -/
structure Fires (s s' : System η κ) : Prop where
  inv : Inv s'
  stats : s'.stats = s.stats
  dueCount : s'.dueCount + 1 = s.dueCount

theorem isDue_cases (h : s.isDue) :
    ∃ next rest, s.pending = next :: rest ∧ next.when ≤ s.stats.totalTicks := by
  unfold System.isDue at h
  split at h
  · cases h
  · next next rest hp => exact ⟨next, rest, hp, of_decide_eq_true h⟩

theorem dueCount_pos (h : s.isDue) : 0 < s.dueCount := by
  obtain ⟨next, rest, hp, hwhen⟩ := isDue_cases h
  rw [System.dueCount, hp, List.countP_cons_of_pos (by simpa using hwhen)]
  omega

theorem fire_cons {next : PendingInterrupt η} {rest : List (PendingInterrupt η)}
    (hp : s.pending = next :: rest) : s.fire H =
      (s.removed H next rest).performAll (H.callBack next.callOnInterrupt s.stats s.kernel).2 := by
  unfold System.fire
  rw [hp]

theorem inv_removed (h : Inv s) {next : PendingInterrupt η} {rest : List (PendingInterrupt η)}
    (hp : s.pending = next :: rest) (hwhen : next.when ≤ s.stats.totalTicks) :
    Inv (s.removed H next rest) := by
  have hsorted : Sorted (next :: rest) := hp ▸ h.sorted
  have hmem : next ∈ s.pending := by
    rw [hp]
    exact List.mem_cons_self
  refine ⟨hsorted.tail, ?_, ?_, ?_, ?_, h.ticks⟩
  · have honce := h.once
    rw [hp] at honce
    simpa [System.removed] using honce
  · intro f hf
    rcases List.mem_append.mp hf with hold | hnew
    · exact h.notEarly f hold
    · cases List.mem_singleton.mp hnew
      exact ⟨hwhen, le_refl _⟩
  · refine List.pairwise_append.mpr ⟨h.order, List.pairwise_singleton _ _, fun f hf f' hf' => ?_⟩
    cases List.mem_singleton.mp hf'
    exact h.ahead f hf next hmem
  · intro f hf p hpr
    rcases List.mem_append.mp hf with hold | hnew
    · exact h.ahead f hold p (hp ▸ List.mem_cons_of_mem _ hpr)
    · cases List.mem_singleton.mp hnew
      exact hsorted.key_le hpr

theorem fires_fire (h : Inv s) (hdue : s.isDue) (ho : (s.fire H).overflow = false) :
    Fires s (s.fire H) := by
  obtain ⟨next, rest, hp, hwhen⟩ := isDue_cases hdue
  rw [fire_cons hp] at ho ⊢
  have hsame := sameDue_performAll (inv_removed h hp hwhen) ho
  refine ⟨hsame.inv, hsame.stats, ?_⟩
  rw [hsame.dueCount]
  show List.countP _ rest + 1 = List.countP _ s.pending
  rw [hp, List.countP_cons_of_pos (by simpa using hwhen)]
  rfl

theorem Inv.none_due (h : Inv s) (hdue : s.isDue = false) :
    ∀ p ∈ s.pending, s.stats.totalTicks < p.when := by
  unfold System.isDue at hdue
  have hsorted := h.sorted
  cases hp : s.pending with
  | nil => simp
  | cons next rest =>
    rw [hp] at hdue hsorted
    have hnext : s.stats.totalTicks < next.when := not_le.mp (of_decide_eq_false hdue)
    intro p hmem
    rcases List.mem_cons.mp hmem with rfl | hrest
    · exact hnext
    · exact hnext.trans_le (hsorted.key_le hrest)

/-- What is true when a call of `CheckIfDue` comes back, and that it does. -/
structure Checked (s : System η κ) (r : System η κ × Option Bool) : Prop where
  inv : Inv r.1
  later : s.stats.totalTicks ≤ r.1.stats.totalTicks
  returns : r.1.aborted = false → r.2.isSome ∧ ∀ p ∈ r.1.pending, r.1.stats.totalTicks < p.when

theorem fire_overflow (ho : (s.fire H).overflow = false) : s.overflow = false := by
  cases hp : s.pending with
  | nil =>
    unfold System.fire at ho
    rw [hp] at ho
    exact ho
  | cons next rest =>
    rw [fire_cons hp] at ho
    have hremoved := performAll_overflow ho
    exact hremoved

theorem fireAll_succ (fuel : ℕ) : s.fireAll H (fuel + 1) =
    if (s.fire H).aborted then (s.fire H, none)
    else if (s.fire H).isDue then (s.fire H).fireAll H fuel
    else ((s.fire H).leaveHandler, some true) := rfl

theorem fireAll_overflow {fuel : ℕ} (ho : (s.fireAll H fuel).1.overflow = false) :
    s.overflow = false := by
  induction fuel generalizing s with
  | zero => exact ho
  | succ fuel ih =>
    rw [fireAll_succ] at ho
    apply fire_overflow (H := H)
    split_ifs at ho
    · exact ho
    · exact ih ho
    · exact ho

theorem checked_fireAll {fuel : ℕ} (h : Inv s) (hdue : s.isDue) (hfuel : s.dueCount ≤ fuel)
    (ho : (s.fireAll H fuel).1.overflow = false) : Checked s (s.fireAll H fuel) := by
  -- every round takes one interrupt away from those that are due
  induction fuel generalizing s with
  | zero =>
    have hpos := dueCount_pos hdue
    omega
  | succ fuel ih =>
    rw [fireAll_succ] at ho ⊢
    have hfired : (s.fire H).overflow = false := by
      split_ifs at ho
      · exact ho
      · exact fireAll_overflow ho
      · exact ho
    obtain ⟨hinv, hstats, hcount⟩ := fires_fire h hdue hfired
    by_cases habort : (s.fire H).aborted
    · rw [if_pos habort]
      refine ⟨hinv, by rw [hstats], fun hno => ?_⟩
      rw [show (s.fire H).aborted = false from hno] at habort
      cases habort
    · rw [if_neg habort] at ho ⊢
      by_cases hmore : (s.fire H).isDue
      · rw [if_pos hmore] at ho ⊢
        obtain ⟨hinv', hlater, hreturns⟩ := ih hinv hmore (by omega) ho
        exact ⟨hinv', hstats ▸ hlater, hreturns⟩
      · rw [if_neg hmore]
        refine ⟨hinv.of_same rfl rfl rfl le_rfl hinv.ticks, ?_,
          fun _ => ⟨rfl, hinv.none_due (Bool.eq_false_iff.mpr hmore)⟩⟩
        show s.stats.totalTicks ≤ (s.fire H).stats.totalTicks
        rw [hstats]

/-- The ways through `CheckIfDue`. -/
inductive Checks (H : Handlers η κ) (fuel : ℕ) (s : System η κ) : System η κ × Option Bool → Prop
  | enabled : s.level ≠ .intOff → Checks H fuel s (s.abort, none)
  | quiet : s.isDue = false → Checks H fuel s (s, some false)
  | due : s.isDue → Checks H fuel s ((s.enterHandler H).fireAll H fuel)
  | advance (next : PendingInterrupt η) (rest : List (PendingInterrupt η)) :
      s.pending = next :: rest → s.stats.totalTicks < next.when →
      Checks H fuel s (((s.advanceTo next.when).enterHandler H).fireAll H fuel)

theorem checkIfDue_checks (fuel : ℕ) (advanceClock : Bool) :
    Checks H fuel s (s.checkIfDue H fuel advanceClock) := by
  unfold System.checkIfDue
  by_cases hlevel : s.level ≠ .intOff
  · rw [if_pos hlevel]
    exact .enabled hlevel
  · rw [if_neg hlevel]
    split
    · next hp =>
      refine .quiet ?_
      rw [System.isDue, hp]
    · next next rest hp =>
      by_cases hwhen : next.when > s.stats.totalTicks
      · rw [if_pos hwhen]
        by_cases hadvance : advanceClock = false
        · rw [if_pos hadvance]
          refine .quiet ?_
          rw [System.isDue, hp]
          exact decide_eq_false (not_le.mpr hwhen)
        · rw [if_neg hadvance]
          exact .advance next rest hp hwhen
      · rw [if_neg hwhen]
        refine .due ?_
        rw [System.isDue, hp]
        exact decide_eq_true (not_lt.mp hwhen)

theorem checks_overflow {fuel : ℕ} {r : System η κ × Option Bool} (hr : Checks H fuel s r)
    (ho : r.1.overflow = false) : s.overflow = false := by
  cases hr with
  | enabled _ | quiet _ => exact ho
  | due _ =>
    have hs := fireAll_overflow ho
    exact hs
  | advance next rest hp hwhen => exact (Bool.or_eq_false_iff.mp (fireAll_overflow ho)).1

theorem inv_advanceTo (h : Inv s) {when : Int} (hwhen : s.stats.totalTicks < when)
    (ho : (s.advanceTo when).overflow = false) : Inv (s.advanceTo when) := by
  obtain ⟨-, hsums⟩ := Bool.or_eq_false_iff.mp ho
  obtain ⟨hdiff, hidle⟩ := Bool.or_eq_false_iff.mp hsums
  have hdiff : wrap (when - s.stats.totalTicks) = when - s.stats.totalTicks :=
    wrap_of_not_overflows hdiff
  have hidle := wrap_of_not_overflows hidle
  have hticks := h.ticks
  refine h.of_same rfl rfl rfl hwhen.le ?_
  show when = wrap (s.stats.idleTicks + wrap (when - s.stats.totalTicks)) +
    s.stats.systemTicks + s.stats.userTicks
  rw [hidle, hdiff]
  omega

theorem checked_of_checks {fuel : ℕ} (h : Inv s) (hfuel : s.pending.length ≤ fuel)
    {r : System η κ × Option Bool} (hr : Checks H fuel s r) (ho : r.1.overflow = false) :
    Checked s r := by
  cases hr with
  | enabled _ => exact ⟨h.of_same rfl rfl rfl le_rfl h.ticks, le_rfl, fun hno => by cases hno⟩
  | quiet hdue => exact ⟨h, le_rfl, fun _ => ⟨rfl, h.none_due hdue⟩⟩
  | due hdue =>
    have hinv : Inv (s.enterHandler H) := h.of_same rfl rfl rfl le_rfl h.ticks
    have hcount : (s.enterHandler H).dueCount ≤ fuel := List.countP_le_length.trans hfuel
    obtain ⟨hinv', hlater, hreturns⟩ := checked_fireAll hinv hdue hcount ho
    exact ⟨hinv', hlater, hreturns⟩
  | advance next rest hp hwhen =>
    have hflag := fireAll_overflow ho
    have hclock := inv_advanceTo h hwhen hflag
    have hinv : Inv ((s.advanceTo next.when).enterHandler H) :=
      hclock.of_same rfl rfl rfl le_rfl hclock.ticks
    have hdue : ((s.advanceTo next.when).enterHandler H).isDue := by
      rw [System.isDue,
        show ((s.advanceTo next.when).enterHandler H).pending = next :: rest from hp]
      exact decide_eq_true le_rfl
    have hcount : ((s.advanceTo next.when).enterHandler H).dueCount ≤ fuel :=
      List.countP_le_length.trans hfuel
    obtain ⟨hinv', hlater, hreturns⟩ := checked_fireAll hinv hdue hcount ho
    exact ⟨hinv', hwhen.le.trans hlater, hreturns⟩

theorem tick_spec (h : Inv s) (ho : s.tick.overflow = false) :
    Inv s.tick ∧ s.stats.totalTicks ≤ s.tick.stats.totalTicks := by
  have hticks := h.ticks
  unfold System.tick at ho ⊢
  split_ifs at ho ⊢
  · obtain ⟨-, hsums⟩ := Bool.or_eq_false_iff.mp ho
    obtain ⟨htotal, hsystem⟩ := Bool.or_eq_false_iff.mp hsums
    have htotal := wrap_of_not_overflows htotal
    have hsystem := wrap_of_not_overflows hsystem
    have hle : s.stats.totalTicks ≤ wrap (s.stats.totalTicks + systemTick) := by
      rw [htotal, systemTick]
      omega
    refine ⟨h.of_same rfl rfl rfl hle ?_, hle⟩
    show wrap (s.stats.totalTicks + systemTick) =
      s.stats.idleTicks + wrap (s.stats.systemTicks + systemTick) + s.stats.userTicks
    rw [htotal, hsystem]
    omega
  · obtain ⟨-, hsums⟩ := Bool.or_eq_false_iff.mp ho
    obtain ⟨htotal, huser⟩ := Bool.or_eq_false_iff.mp hsums
    have htotal := wrap_of_not_overflows htotal
    have huser := wrap_of_not_overflows huser
    have hle : s.stats.totalTicks ≤ wrap (s.stats.totalTicks + userTick) := by
      rw [htotal, userTick]
      omega
    refine ⟨h.of_same rfl rfl rfl hle ?_, hle⟩
    show wrap (s.stats.totalTicks + userTick) =
      s.stats.idleTicks + s.stats.systemTicks + wrap (s.stats.userTicks + userTick)
    rw [htotal, huser]
    omega

theorem tick_overflow (ho : s.tick.overflow = false) : s.overflow = false := by
  unfold System.tick at ho
  split_ifs at ho <;> exact (Bool.or_eq_false_iff.mp ho).1

theorem tick_pending (s : System η κ) : s.tick.pending = s.pending := by
  unfold System.tick
  split_ifs <;> rfl

def NoneDue (s : System η κ) : Prop := ∀ p ∈ s.pending, s.stats.totalTicks < p.when

/-- What is true of every call: the state after it is in order and not earlier, and the call
comes back unless an `ASSERT` fails; with `check` also that no interrupt is due then. -/
structure Returns (s : System η κ) (check : Prop) (r : System η κ × Bool) : Prop where
  inv : Inv r.1
  later : s.stats.totalTicks ≤ r.1.stats.totalTicks
  returns : r.1.aborted = false → r.2 = true ∧ (check → NoneDue r.1)

structure SameQueue (s s' : System η κ) : Prop where
  pending : s'.pending = s.pending
  fired : s'.fired = s.fired
  scheduled : s'.scheduled = s.scheduled
  stats : s'.stats = s.stats
  overflow : s'.overflow = s.overflow
  aborted : s'.aborted = s.aborted

theorem sameQueue_afterCheck (s : System η κ) : SameQueue s s.afterCheck := by
  unfold System.afterCheck
  split_ifs <;> exact ⟨rfl, rfl, rfl, rfl, rfl, rfl⟩

theorem Inv.of_sameQueue (h : Inv s) (hs : SameQueue s s') : Inv s' :=
  h.of_same hs.pending hs.fired hs.scheduled (by rw [hs.stats]) (by rw [hs.stats, h.ticks])

theorem returns_of_checked {s₁ s₂ : System η κ} {back : Option Bool} {r : System η κ × Bool}
    (h : Checked s₁ (s₂, back)) (hlater : s.stats.totalTicks ≤ s₁.stats.totalTicks)
    (hsame : SameQueue s₂ r.1) (hback : r.2 = back.isSome) : Returns s True r := by
  refine ⟨h.inv.of_sameQueue hsame, ?_, fun hno => ?_⟩
  · rw [hsame.stats]
    exact hlater.trans h.later
  · obtain ⟨hsome, hnone⟩ := h.returns (hsame.aborted.symm.trans hno)
    refine ⟨hback.trans hsome, fun _ => ?_⟩
    unfold NoneDue
    rw [hsame.pending, hsame.stats]
    exact hnone

theorem oneTick_sameQueue (fuel : ℕ) : ∃ s₂ back,
    Checks H fuel (s.tick.changeLevel .intOff) (s₂, back) ∧
      SameQueue s₂ (s.oneTick H fuel).1 ∧ (s.oneTick H fuel).2 = back.isSome := by
  have hchecks : Checks H fuel (s.tick.changeLevel .intOff) _ := checkIfDue_checks fuel false
  unfold System.oneTick
  generalize System.checkIfDue H fuel (s.tick.changeLevel .intOff) false = r at hchecks ⊢
  obtain ⟨s₂, back⟩ := r
  refine ⟨s₂, back, hchecks, ?_⟩
  cases back with
  | none => exact ⟨⟨rfl, rfl, rfl, rfl, rfl, rfl⟩, rfl⟩
  | some b => exact ⟨sameQueue_afterCheck s₂, rfl⟩

theorem idle_sameQueue (fuel : ℕ) : ∃ s₂ back,
    Checks H fuel (s.setStatus .idleMode) (s₂, back) ∧
      SameQueue s₂ (s.idle H fuel).1 ∧ (s.idle H fuel).2 = back.isSome := by
  have hchecks : Checks H fuel (s.setStatus .idleMode) _ := checkIfDue_checks fuel true
  unfold System.idle
  generalize System.checkIfDue H fuel (s.setStatus .idleMode) true = r at hchecks ⊢
  obtain ⟨s₂, back⟩ := r
  refine ⟨s₂, back, hchecks, ?_⟩
  rcases back with _ | _ | _ <;> exact ⟨⟨rfl, rfl, rfl, rfl, rfl, rfl⟩, rfl⟩

theorem oneTick_overflow {fuel : ℕ} (ho : (s.oneTick H fuel).1.overflow = false) :
    s.overflow = false := by
  obtain ⟨s₂, back, hchecks, hsame, -⟩ := oneTick_sameQueue (H := H) (s := s) fuel
  have htick := checks_overflow hchecks (hsame.overflow.symm.trans ho)
  exact tick_overflow htick

theorem returns_oneTick {fuel : ℕ} (h : Inv s) (hfuel : s.pending.length ≤ fuel)
    (ho : (s.oneTick H fuel).1.overflow = false) : Returns s True (s.oneTick H fuel) := by
  obtain ⟨s₂, back, hchecks, hsame, hback⟩ := oneTick_sameQueue (H := H) (s := s) fuel
  have hflag := hsame.overflow.symm.trans ho
  have htick := checks_overflow hchecks hflag
  obtain ⟨hinv, hlater⟩ := tick_spec h htick
  have hpending : s.tick.pending.length ≤ fuel := by rwa [tick_pending]
  have hinv₁ : Inv (s.tick.changeLevel .intOff) := hinv.of_sameQueue ⟨rfl, rfl, rfl, rfl, rfl, rfl⟩
  exact returns_of_checked (checked_of_checks hinv₁ hpending hchecks hflag) hlater hsame hback

theorem returns_idle {fuel : ℕ} (h : Inv s) (hfuel : s.pending.length ≤ fuel)
    (ho : (s.idle H fuel).1.overflow = false) : Returns s True (s.idle H fuel) := by
  obtain ⟨s₂, back, hchecks, hsame, hback⟩ := idle_sameQueue (H := H) (s := s) fuel
  have hflag := hsame.overflow.symm.trans ho
  have hinv : Inv (s.setStatus .idleMode) := h.of_sameQueue ⟨rfl, rfl, rfl, rfl, rfl, rfl⟩
  exact returns_of_checked (checked_of_checks hinv hfuel hchecks hflag) le_rfl hsame hback

theorem Returns.of_sameQueue (h : Inv s) {check : Prop} (hcheck : ¬check) (hs : SameQueue s s') :
    Returns s check (s', true) :=
  ⟨h.of_sameQueue hs, by rw [hs.stats], fun _ => ⟨rfl, fun hc => absurd hc hcheck⟩⟩

theorem returns_setLevel {fuel : ℕ} (h : Inv s) (hfuel : s.pending.length ≤ fuel)
    {now : IntStatus} (ho : (s.setLevel H fuel now).1.overflow = false) :
    Returns s False (s.setLevel H fuel now) := by
  have hsame : SameQueue s (s.changeLevel now) := ⟨rfl, rfl, rfl, rfl, rfl, rfl⟩
  unfold System.setLevel at ho ⊢
  split_ifs at ho ⊢
  · obtain ⟨hinv, hlater, hreturns⟩ := returns_oneTick (h.of_sameQueue hsame) hfuel ho
    exact ⟨hinv, hlater, fun hno => ⟨(hreturns hno).1, False.elim⟩⟩
  · exact .of_sameQueue h id hsame
  · exact ⟨h.of_same rfl rfl rfl le_rfl h.ticks, le_rfl, fun hno => by cases hno⟩

theorem returns_call {fuel : ℕ} (h : Inv s) (hfuel : s.pending.length ≤ fuel) (a : Act η κ)
    (ho : (call H fuel s a).1.overflow = false) :
    Returns s (a = .oneTick ∨ a = .idle) (call H fuel s a) := by
  cases a with
  | schedule toCall fromNow type =>
    have hsame := sameDue_schedule h ho
    refine ⟨hsame.inv, ?_, fun _ => ⟨rfl, by simp⟩⟩
    show s.stats.totalTicks ≤ (s.schedule toCall fromNow type).stats.totalTicks
    rw [hsame.stats]
  | oneTick =>
    obtain ⟨hinv, hlater, hreturns⟩ := returns_oneTick h hfuel ho
    exact ⟨hinv, hlater, fun hno => (hreturns hno).imp_right fun hnone _ => hnone trivial⟩
  | idle =>
    obtain ⟨hinv, hlater, hreturns⟩ := returns_idle h hfuel ho
    exact ⟨hinv, hlater, fun hno => (hreturns hno).imp_right fun hnone _ => hnone trivial⟩
  | setLevel now =>
    obtain ⟨hinv, hlater, hreturns⟩ := returns_setLevel h hfuel ho
    exact ⟨hinv, hlater, fun hno => ⟨(hreturns hno).1, by simp⟩⟩
  | setStatus st => exact .of_sameQueue h (by simp) ⟨rfl, rfl, rfl, rfl, rfl, rfl⟩
  | elsewhere kernel => exact .of_sameQueue h (by simp) ⟨rfl, rfl, rfl, rfl, rfl, rfl⟩

theorem call_overflow {fuel : ℕ} {a : Act η κ} (ho : (call H fuel s a).1.overflow = false) :
    s.overflow = false := by
  cases a with
  | schedule toCall fromNow type => exact (schedule_overflow ho).1
  | oneTick => exact oneTick_overflow ho
  | idle =>
    obtain ⟨s₂, back, hchecks, hsame, -⟩ := idle_sameQueue (H := H) (s := s) fuel
    have hs := checks_overflow hchecks (hsame.overflow.symm.trans ho)
    exact hs
  | setLevel now =>
    have ho : (s.setLevel H fuel now).1.overflow = false := ho
    unfold System.setLevel at ho
    split_ifs at ho
    · have hs := oneTick_overflow ho
      exact hs
    · exact ho
    · exact ho
  | setStatus st | elsewhere kernel => exact ho

theorem step_call {a : Act η κ} (hs : step H s a = some s') :
    s' = (call H s.pending.length s a).1 := by
  simp only [step, Option.ite_none_left_eq_some, Option.ite_none_right_eq_some, Option.some.injEq]
    at hs
  exact hs.2.2.symm

theorem inv_reach {kernel : κ} (h : Reach (step H) (fun _ _ => True) (start kernel) s)
    (ho : s.overflow = false) : Inv s := by
  refine h.invariant (I := fun s => s.overflow = false → Inv s) (fun _ => inv_start kernel) ?_ ho
  intro s a s' hi _ hs ho'
  rw [step_call hs] at ho' ⊢
  exact (returns_call (hi (call_overflow ho')) le_rfl a ho').inv

/-- As long as no count of ticks overflows: the queue is in the order of the times, and for one
time in that of the calls of `Schedule`; every interrupt scheduled is either pending or has
been called once, not before its time and in the order of the times; the ticks add up; and
every call of the simulation ends, the loop of `CheckIfDue` having as many rounds as there
are interrupts, without going back in time, with no interrupt due after `OneTick` and
`Idle`. -/
theorem interrupts_in_order {kernel : κ}
    (h : Reach (step H) (fun _ _ => True) (start kernel) s) (ho : s.overflow = false) :
    Sorted s.pending ∧
      (s.fired.map (·.interrupt.serial) ++ s.pending.map (·.serial)).Perm
        (List.range s.scheduled) ∧
      (∀ f ∈ s.fired, f.interrupt.when ≤ f.time) ∧
      s.fired.Pairwise (fun f f' => f.interrupt.when ≤ f'.interrupt.when) ∧
      s.stats.totalTicks = s.stats.idleTicks + s.stats.systemTicks + s.stats.userTicks ∧
      ∀ fuel a, s.pending.length ≤ fuel → (call H fuel s a).1.overflow = false →
        s.stats.totalTicks ≤ (call H fuel s a).1.stats.totalTicks ∧
        ((call H fuel s a).1.aborted = false → (call H fuel s a).2 = true ∧
          (a = .oneTick ∨ a = .idle → NoneDue (call H fuel s a).1)) := by
  have hi := inv_reach h ho
  refine ⟨hi.sorted, hi.once, fun f hf => (hi.notEarly f hf).1, hi.order, hi.ticks, ?_⟩
  intro fuel a hfuel hcall
  have hreturns := returns_call hi hfuel a hcall
  exact ⟨hreturns.later, hreturns.returns⟩

def periodic : Handlers Unit ℕ where
  callBack _ _ calls := (calls + 1, [.schedule () 100 .timerInt, .yieldOnReturn])
  delayedLoad := id

/-- Two interrupts for the same time and an earlier one; the clock then jumps to the first of
the new ones. -/
theorem interrupts_in_order_periodic : ∃ s : System Unit ℕ,
    Reach (step periodic) (fun _ _ => True) (start 0) s ∧ s.overflow = false ∧
      s.fired.map (fun f => (f.interrupt.serial, f.interrupt.when, f.time)) =
        [(2, 5, 10), (0, 15, 20), (1, 15, 20), (3, 110, 110)] ∧
      Sorted s.pending ∧ s.stats.totalTicks = s.stats.idleTicks + s.stats.systemTicks +
        s.stats.userTicks := by
  have hrun : (exec (step periodic) (fun _ _ => True) (start 0) [.schedule () 15 .diskInt,
      .schedule () 15 .timerInt, .schedule () 5 .consoleReadInt, .setLevel .intOn, .oneTick,
      .setLevel .intOff, .idle]).map (fun s => (s.overflow, s.fired.map fun f =>
        (f.interrupt.serial, f.interrupt.when, f.time))) =
      some (false, [(2, 5, 10), (0, 15, 20), (1, 15, 20), (3, 110, 110)]) := by
    decide +kernel
  obtain ⟨s, hs, hfacts⟩ := Option.map_eq_some_iff.mp hrun
  have hr := reach_of_exec _ hs
  have ho := congrArg Prod.fst hfacts
  have hall := interrupts_in_order hr ho
  exact ⟨s, hr, ho, congrArg Prod.snd hfacts, hall.1, hall.2.2.2.2.1⟩

end Interrupt
end Nachos
