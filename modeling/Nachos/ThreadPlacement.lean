import Nachos.Lib.Ownership
import Nachos.Lib.Programs
import Nachos.Scheduler

namespace Nachos.Scheduler
open GuardedRun Ownership
open Programs (except_ok_bind)

/-- The lists a thread may be on: the ready list (`none`) and, inside `P`, the queue of
the semaphore. -/
def PC.WaitsOn : PC → Option Addr → Prop
  | .threadRoot, none | .inYield, none | .inP _, none => True
  | .inP σ, some σ' => σ = σ'
  | _, _ => False

theorem PC.WaitsOn.onReadyList {pc : PC} {k : Option Addr} (h : pc.WaitsOn k) :
    pc.WaitsOn none := by
  cases pc <;> cases k <;> trivial

/-- What the decisions of the scheduler depend on: how far each thread has come and which lists
it is on. -/
structure View where
  current : Addr
  mode : Mode
  pc : Addr → Option PC
  queues : Option Addr → List Addr
  sems : Set Addr
  destroyed : Option Addr

namespace View

def waiting (v : View) : Set Addr := {t | ∃ k, t ∈ v.queues k}

/-- Where a thread is, by how far it has come.  A suspended thread is on a list, or has
just been given the processor; only a thread idling in `Sleep` is both current and on a
list. -/
def At (v : View) (t : Addr) : PC → Prop
  | .created => t ≠ v.current
  | .body => t = v.current ∧ v.mode = .running
  | .finishing => (t = v.current ∧ v.mode = .idling) ∨ (t ≠ v.current ∧ v.destroyed = some t)
  | .threadRoot | .inYield | .inP _ =>
    (t ∈ v.waiting ∧ (t = v.current → v.mode = .idling)) ∨
      (t = v.current ∧ t ∉ v.waiting ∧ (v.mode = .switched ∨ v.mode = .testing))

structure Ok (v : View) : Prop where
  /-- No thread is on two lists, or twice on one. -/
  exclusive : Exclusive v.queues v.waiting
  waits : ∀ k, ∀ t ∈ v.queues k, ∃ pc, v.pc t = some pc ∧ pc.WaitsOn k
  placed : ∀ t pc, v.pc t = some pc → v.At t pc
  current : ∃ pc, v.pc v.current = some pc
  destroyed : ∀ t, v.destroyed = some t → v.mode = .switched ∧ v.pc t = some .finishing
  testing : v.mode = .testing → ∃ σ, v.pc v.current = some (.inP σ)
  alive : ∀ t σ, v.pc t = some (.inP σ) → σ ∈ v.sems

def setPC (v : View) (t : Addr) (pc : PC) : View :=
  { v with pc := Function.update v.pc t (some pc) }

def enqueue (v : View) (k : Option Addr) (t : Addr) : View :=
  { v with queues := Function.update v.queues k (v.queues k ++ [t]) }

def idle (v : View) : View := { v with mode := .idling }

def suspend (v : View) (k : Option Addr) (pc : PC) : View :=
  ((v.setPC v.current pc).enqueue k v.current).idle

def finish (v : View) : View := (v.setPC v.current .finishing).idle

/-- The processor goes to `t`, the first on the ready list. -/
def dispatch (v : View) (t : Addr) (rest : List Addr) (finishing : Bool) : View :=
  { v with
    current := t
    mode := .switched
    queues := Function.update v.queues none rest
    destroyed := if finishing then some v.current else v.destroyed }

def clean (v : View) : View :=
  { v with
    pc := fun t => if v.destroyed = some t then none else v.pc t
    destroyed := none }

def proceed (v : View) : View := { v.setPC v.current .body with mode := .running }

/-- The first thread on the queue of `σ` becomes ready. -/
def wakeup (v : View) (σ t : Addr) (rest : List Addr) : View :=
  { v with queues := Function.update v.queues (some σ) rest }.enqueue none t

section Moves
variable {v : View}

@[simp, grind =]
theorem setPC_pc (t u : Addr) (pc : PC) :
    (v.setPC t pc).pc u = if u = t then some pc else v.pc u := Function.update_apply ..

theorem Ok.pc_of_waiting (h : v.Ok) {t : Addr} (ht : t ∈ v.waiting) :
    ∃ pc, v.pc t = some pc ∧ pc.WaitsOn none := by
  obtain ⟨k, hk⟩ := ht
  obtain ⟨pc, hpc, hw⟩ := h.waits k t hk
  exact ⟨pc, hpc, hw.onReadyList⟩

theorem Ok.not_waiting_of_pc (h : v.Ok) {t : Addr}
    (hpc : ∀ pc, v.pc t = some pc → ¬ pc.WaitsOn none) : t ∉ v.waiting := by
  intro ht
  obtain ⟨pc, hpc', hw⟩ := h.pc_of_waiting ht
  exact hpc pc hpc' hw

theorem Ok.idling_of_waiting (h : v.Ok) (hw : v.current ∈ v.waiting) : v.mode = .idling := by
  obtain ⟨pc, hpc, hon⟩ := h.pc_of_waiting hw
  have hat := h.placed _ pc hpc
  cases pc <;> grind [At, PC.WaitsOn]

/-- While a thread runs with interrupts on, it is in its own code. -/
theorem Ok.pc_running (h : v.Ok) (hm : v.mode = .running) : v.pc v.current = some .body := by
  obtain ⟨pc, hpc⟩ := h.current
  have hat := h.placed _ pc hpc
  have hnd := h.destroyed v.current
  cases pc <;> grind [At]

theorem Ok.destroyed_eq_none (h : v.Ok) (hm : v.mode ≠ .switched) : v.destroyed = none := by
  cases hd : v.destroyed with
  | none => rfl
  | some t => exact absurd (h.destroyed t hd).1 hm

theorem Ok.waiting_enqueue (h : v.Ok) (k : Option Addr) {t : Addr} (ht : t ∉ v.waiting) :
    (v.enqueue k t).waiting = insert t v.waiting := by
  ext u
  exact ((h.exclusive.acquire k ht).used_iff u).symm

/-- A thread object that is new, or that was deleted and is new again. -/
theorem Ok.spawn (h : v.Ok) {t : Addr} (ht : v.pc t = none) : (v.setPC t .created).Ok := by
  have hcur := h.current
  have hwaits := h.waits
  constructor
  case exclusive => exact h.exclusive
  case waits =>
    intro k u hu
    have := h.waits k u hu
    grind
  case placed =>
    intro u pc hu
    change v.At u pc
    have := h.placed u pc
    grind [At]
  case current =>
    change ∃ pc, (v.setPC t .created).pc v.current = some pc
    grind
  case destroyed =>
    intro u hu
    have := h.destroyed u hu
    exact ⟨this.1, by grind⟩
  case testing =>
    intro hm
    have := h.testing hm
    change ∃ σ, (v.setPC t .created).pc v.current = some (.inP σ)
    grind
  case alive =>
    intro u σ hu
    apply h.alive u σ
    grind

theorem Ok.enqueue_waits (h : v.Ok) {k : Option Addr} {t : Addr} {pc : PC} (ht : t ∉ v.waiting)
    (hpc : pc.WaitsOn k) : ∀ j, ∀ u ∈ ((v.setPC t pc).enqueue k t).queues j,
      ∃ pc', (v.setPC t pc).pc u = some pc' ∧ pc'.WaitsOn j := by
  intro j u hu
  rcases mem_acquire.mp hu with hold | ⟨rfl, rfl⟩
  · have hne : u ≠ t := by
      rintro rfl
      exact ht ⟨j, hold⟩
    simpa only [setPC_pc, if_neg hne] using h.waits j u hold
  · exact ⟨pc, by simp, hpc⟩

/-- `Fork`: a new thread goes to the end of the ready list. -/
theorem Ok.fork (h : v.Ok) {t : Addr} (hm : v.mode = .running) (ht : v.pc t = some .created) :
    ((v.setPC t .threadRoot).enqueue none t).Ok := by
  have hwait : t ∉ v.waiting := h.not_waiting_of_pc (by rw [ht]; rintro _ ⟨⟩ hw; exact hw)
  have hcur := h.pc_running hm
  have hdest := h.destroyed_eq_none (by simp [hm])
  have hins : ((v.setPC t .threadRoot).enqueue none t).waiting = insert t v.waiting :=
    h.waiting_enqueue none hwait
  constructor
  case exclusive => exact (h.exclusive.acquire none hwait).of_holders
  case waits => exact h.enqueue_waits hwait trivial
  case placed =>
    intro u pc hu
    have hat := h.placed u pc
    change (v.setPC t .threadRoot).pc u = some pc at hu
    cases pc <;> simp only [At, hins, Set.mem_insert_iff] at hat ⊢ <;>
      grind [View.setPC, View.enqueue]
  case current => exact ⟨.body, by change (v.setPC t .threadRoot).pc v.current = _; grind⟩
  case destroyed => exact fun u hu => nomatch hdest.symm.trans hu
  case testing => exact fun hc => nomatch hm.symm.trans hc
  case alive =>
    intro u σ hu
    change (v.setPC t .threadRoot).pc u = _ at hu
    exact h.alive u σ (by grind)

theorem Ok.suspend (h : v.Ok) (k : Option Addr) (pc : PC)
    (hm : v.mode = .running ∨ v.mode = .testing) (hpc : pc.WaitsOn k)
    (hsem : ∀ σ, pc = .inP σ → σ ∈ v.sems) : (v.suspend k pc).Ok := by
  have hwait : v.current ∉ v.waiting := by
    intro hw
    have := h.idling_of_waiting hw
    simp [this] at hm
  have hdest := h.destroyed_eq_none (by rcases hm with hm | hm <;> simp [hm])
  have hins : (v.suspend k pc).waiting = insert v.current v.waiting := h.waiting_enqueue k hwait
  have hon := hpc.onReadyList
  constructor
  case exclusive => exact (h.exclusive.acquire k hwait).of_holders
  case waits => exact h.enqueue_waits hwait hpc
  case placed =>
    intro u pc' hu
    have hat := h.placed u pc'
    change (v.setPC v.current pc).pc u = some pc' at hu
    cases pc' <;> simp only [At, hins, Set.mem_insert_iff] at hat ⊢ <;>
      grind [View.suspend, View.setPC, View.enqueue, View.idle, PC.WaitsOn]
  case current => exact ⟨pc, by change (v.setPC v.current pc).pc v.current = _; simp⟩
  case destroyed => exact fun u hu => nomatch hdest.symm.trans hu
  case testing => exact fun hc => nomatch hc
  case alive =>
    intro u σ hu
    change (v.setPC v.current pc).pc u = _ at hu
    have := h.alive u σ
    have := hsem σ
    change σ ∈ v.sems
    grind

theorem Ok.finish (h : v.Ok) (hm : v.mode = .running) : v.finish.Ok := by
  have hcur := h.pc_running hm
  have hwait : v.current ∉ v.waiting :=
    h.not_waiting_of_pc (by rw [hcur]; rintro _ ⟨⟩ hw; exact hw)
  have hdest := h.destroyed_eq_none (by simp [hm])
  constructor
  case exclusive => exact h.exclusive
  case waits =>
    intro k u hu
    have hold := h.waits k u hu
    have hne : u ≠ v.current := by
      rintro rfl
      exact hwait ⟨k, hu⟩
    change ∃ pc, (v.setPC v.current .finishing).pc u = some pc ∧ _
    simpa only [setPC_pc, if_neg hne] using hold
  case placed =>
    intro u pc hu
    have hat := h.placed u pc
    have hsame : v.finish.waiting = v.waiting := rfl
    change (v.setPC v.current .finishing).pc u = some pc at hu
    cases pc <;> simp only [At, hsame] at hat ⊢ <;> grind [View.finish, View.setPC, View.idle]
  case current => exact ⟨.finishing, by change (v.setPC v.current _).pc v.current = _; simp⟩
  case destroyed => exact fun u hu => nomatch hdest.symm.trans hu
  case testing => exact fun hc => nomatch hc
  case alive =>
    intro u σ hu
    change (v.setPC v.current .finishing).pc u = _ at hu
    exact h.alive u σ (by grind)

/-- `Run`: the first thread of the ready list gets the processor, and a finishing thread
is left for the next one to delete. -/
theorem Ok.dispatch (h : v.Ok) (hm : v.mode = .idling) {t : Addr} {rest : List Addr}
    (hq : v.queues none = t :: rest) {b : Bool} (hb : b = true ↔ v.pc v.current = some .finishing) :
    (v.dispatch t rest b).Ok := by
  have hdest := h.destroyed_eq_none (by simp [hm])
  have hmem : t ∈ v.waiting := ⟨none, by rw [hq]; exact List.mem_cons_self⟩
  obtain ⟨pct, hpct, hon⟩ := h.pc_of_waiting hmem
  have hrest : (v.dispatch t rest b).waiting = v.waiting \ {t} := by
    ext u
    exact ((h.exclusive.pop hq).used_iff u).symm
  have hpc : (v.dispatch t rest b).pc = v.pc := rfl
  have hcur : (v.dispatch t rest b).current = t := rfl
  have hmode : (v.dispatch t rest b).mode = .switched := rfl
  have hd : (v.dispatch t rest b).destroyed = if b then some v.current else none := by
    simp only [View.dispatch, hdest]
  constructor
  case exclusive => exact (h.exclusive.pop hq).of_holders
  case waits => exact fun k u hu => h.waits k u ((h.exclusive.mem_pop hq).mp hu).1
  case placed =>
    intro u pc hu
    have hat := h.placed u pc hu
    have hcase : v.current = t → v.pc v.current ≠ some .finishing := by
      rintro rfl hc
      rw [hpct, Option.some.injEq] at hc
      subst hc
      exact hon
    cases pc <;> simp only [At, hrest, hcur, hmode, hd, Set.mem_sdiff, Set.mem_singleton_iff]
      at hat ⊢ <;> grind [PC.WaitsOn]
  case current => exact ⟨pct, hpct⟩
  case destroyed =>
    intro u hu
    rw [hd] at hu
    exact ⟨rfl, by rw [hpc]; grind⟩
  case testing => exact fun hc => nomatch hc
  case alive => exact h.alive

theorem Ok.clean (h : v.Ok) : v.clean.Ok := by
  have hpc : ∀ u, v.clean.pc u = if v.destroyed = some u then none else v.pc u := fun _ => rfl
  -- the thread that is deleted is not the current one, and is on no list
  have hcur : v.destroyed ≠ some v.current := by
    intro hd
    have hat := h.placed _ _ (h.destroyed _ hd).2
    have := (h.destroyed _ hd).1
    simp only [At] at hat
    grind
  have hne : ∀ u pc, v.pc u = some pc → pc.WaitsOn none → v.destroyed ≠ some u := by
    intro u pc hu hw hd
    have := (h.destroyed u hd).2
    rw [hu, Option.some.injEq] at this
    subst this
    exact hw
  constructor
  case exclusive => exact h.exclusive
  case waits =>
    intro k u hu
    obtain ⟨pc, hupc, hw⟩ := h.waits k u hu
    exact ⟨pc, by rw [hpc, if_neg (hne u pc hupc hw.onReadyList), hupc], hw⟩
  case placed =>
    intro u pc hu
    rw [hpc] at hu
    have hat := h.placed u pc
    have hsame : v.clean.waiting = v.waiting := rfl
    cases pc <;> simp only [At, hsame] at hat ⊢ <;> grind [View.clean]
  case current =>
    obtain ⟨pc, h'⟩ := h.current
    exact ⟨pc, by change v.clean.pc v.current = _; rw [hpc, if_neg hcur, h']⟩
  case destroyed => exact fun u hu => nomatch hu
  case testing =>
    intro hm
    obtain ⟨σ, hσ⟩ := h.testing hm
    exact ⟨σ, by change v.clean.pc v.current = _; rw [hpc, if_neg hcur, hσ]⟩
  case alive =>
    intro u σ hu
    rw [hpc] at hu
    exact h.alive u σ (by grind)

theorem Ok.proceed (h : v.Ok) (hm : v.mode ≠ .idling) (hd : v.destroyed = none) :
    v.proceed.Ok := by
  have hwait : v.current ∉ v.waiting := fun hw => hm (h.idling_of_waiting hw)
  constructor
  case exclusive => exact h.exclusive
  case waits =>
    intro k u hu
    have hold := h.waits k u hu
    have hne : u ≠ v.current := by
      rintro rfl
      exact hwait ⟨k, hu⟩
    change ∃ pc, (v.setPC v.current .body).pc u = some pc ∧ _
    simpa only [setPC_pc, if_neg hne] using hold
  case placed =>
    intro u pc hu
    have hat := h.placed u pc
    have hsame : v.proceed.waiting = v.waiting := rfl
    change (v.setPC v.current .body).pc u = some pc at hu
    cases pc <;> simp only [At, hsame] at hat ⊢ <;> grind [View.proceed, View.setPC]
  case current => exact ⟨.body, by change (v.setPC v.current _).pc v.current = _; simp⟩
  case destroyed => exact fun u hu => nomatch hd.symm.trans hu
  case testing => exact fun hc => nomatch hc
  case alive =>
    intro u σ hu
    change (v.setPC v.current .body).pc u = _ at hu
    exact h.alive u σ (by grind)

theorem Ok.test (h : v.Ok) (hm : v.mode = .switched) (hd : v.destroyed = none) {σ : Addr}
    (hpc : v.pc v.current = some (.inP σ)) : ({ v with mode := .testing } : View).Ok := by
  constructor
  case exclusive => exact h.exclusive
  case waits => exact h.waits
  case placed =>
    intro u pc hu
    have hat := h.placed u pc hu
    have hsame : ({ v with mode := .testing } : View).waiting = v.waiting := rfl
    cases pc <;> simp only [At, hsame] at hat ⊢ <;> grind
  case current => exact h.current
  case destroyed => exact fun u hu => nomatch hd.symm.trans hu
  case testing => exact fun _ => ⟨σ, hpc⟩
  case alive => exact h.alive

/-- `V`: the first thread on the queue goes to the end of the ready list. -/
theorem Ok.wakeup (h : v.Ok) {σ t : Addr} {rest : List Addr} (hq : v.queues (some σ) = t :: rest) :
    (v.wakeup σ t rest).Ok := by
  have hmem : t ∈ v.waiting := ⟨some σ, by rw [hq]; exact List.mem_cons_self⟩
  obtain ⟨pct, hpct, hon⟩ := h.pc_of_waiting hmem
  have hpop := h.exclusive.pop hq
  have hnot : t ∉ v.waiting \ {t} := fun hc => hc.2 rfl
  have hsame : (v.wakeup σ t rest).waiting = v.waiting := by
    ext u
    refine ((hpop.acquire none hnot).used_iff u).symm.trans ?_
    rw [Set.mem_insert_iff, Set.mem_sdiff, Set.mem_singleton_iff]
    by_cases hut : u = t
    · simp [hut, hmem]
    · simp [hut]
  constructor
  case exclusive => exact (hpop.acquire none hnot).of_holders
  case waits =>
    intro k u hu
    rcases mem_acquire.mp hu with hold | ⟨rfl, rfl⟩
    · exact h.waits k u ((h.exclusive.mem_pop hq).mp hold).1
    · exact ⟨pct, hpct, hon⟩
  case placed =>
    intro u pc hu
    have hat := h.placed u pc hu
    cases pc <;> simp only [At, hsame] at hat ⊢ <;> exact hat
  case current => exact h.current
  case destroyed => exact h.destroyed
  case testing => exact h.testing
  case alive => exact h.alive

theorem Ok.setSems (h : v.Ok) {S : Set Addr} (hS : ∀ t σ, v.pc t = some (.inP σ) → σ ∈ S) :
    ({ v with sems := S } : View).Ok :=
  ⟨h.exclusive, h.waits, h.placed, h.current, h.destroyed, h.testing, hS⟩

theorem Ok.queue_eq_nil (h : v.Ok) {σ : Addr} (hσ : ∀ t, v.pc t ≠ some (.inP σ)) :
    v.queues (some σ) = [] := by
  apply List.eq_nil_iff_forall_not_mem.mpr
  intro t ht
  obtain ⟨pc, hpc, hw⟩ := h.waits _ t ht
  cases pc <;> simp only [PC.WaitsOn] at hw
  exact hσ t (hw ▸ hpc)

end Moves
end View

namespace State

def queues (s : State) : Option Addr → List Addr
  | none => s.readyList
  | some σ => ((s.sems σ).map Semaphore.queue).getD []

def view (s : State) : View where
  current := s.currentThread
  mode := s.mode
  pc := fun t => (s.threads t).map Thread.pc
  queues := s.queues
  sems := {σ | s.sems σ ≠ none}
  destroyed := s.toBeDestroyed

variable {s s' : State} {t σ : Addr} {θ : Thread}

theorem view_pc (h : s.threads t = some θ) : s.view.pc t = some θ.pc := by
  simp [view, h]

theorem view_setThread (s : State) (t : Addr) (θ : Thread) :
    (s.setThread t θ).view = s.view.setPC t θ.pc := by
  have hpc : (fun u => (Function.update s.threads t (some θ) u).map Thread.pc) =
      Function.update (fun u => (s.threads u).map Thread.pc) t (some θ.pc) := by
    funext u
    by_cases hu : u = t <;> simp [hu]
  simp only [view, setThread, View.setPC, hpc]
  rfl

theorem view_setThread_of_pc (h : s.threads t = some θ) (θ' : Thread) (hpc : θ'.pc = θ.pc) :
    (s.setThread t θ').view = s.view := by
  rw [view_setThread, View.setPC, hpc, ← view_pc h, Function.update_eq_self]

theorem queues_setReadyList (s : State) (l : List Addr) :
    ({ s with readyList := l } : State).queues = Function.update s.queues none l := by
  funext k
  cases k <;> rfl

theorem queues_setSems (s : State) (σ : Addr) (o : Option (Semaphore Addr)) :
    ({ s with sems := Function.update s.sems σ o } : State).queues =
      Function.update s.queues (some σ) ((o.map Semaphore.queue).getD []) := by
  funext k
  cases k with
  | none => rfl
  | some σ' => by_cases hσ : σ' = σ <;> simp [queues, hσ]

theorem view_setSems {o : Option (Semaphore Addr)}
    (hq : (o.map Semaphore.queue).getD [] = s.queues (some σ)) :
    ({ s with sems := Function.update s.sems σ o } : State).view =
      { s.view with sems := {σ' | Function.update s.sems σ o σ' ≠ none} } := by
  simp only [view, queues_setSems, hq, Function.update_eq_self]

theorem sems_setSem {S₀ : Semaphore Addr} (h : s.sems σ = some S₀) (S : Semaphore Addr) :
    {σ' | (s.setSem σ S).sems σ' ≠ none} = {σ' | s.sems σ' ≠ none} := by
  ext σ'
  by_cases hσ : σ' = σ <;> simp [setSem, Function.update_apply, hσ, h]

theorem view_setSem {S₀ : Semaphore Addr} (h : s.sems σ = some S₀) (S : Semaphore Addr) :
    (s.setSem σ S).view = { s.view with
      queues := Function.update s.view.queues (some σ) S.queue } := by
  simp only [setSem] at *
  simp only [view, queues_setSems, Option.map_some, Option.getD_some]
  rw [show {σ' | Function.update s.sems σ (some S) σ' ≠ none} = _ from sems_setSem h S]

theorem queues_some {S : Semaphore Addr} (h : s.sems σ = some S) :
    s.queues (some σ) = S.queue := by
  simp [queues, h]

theorem view_setSem_of_queue {S₀ S : Semaphore Addr} (h : s.sems σ = some S₀)
    (hq : S.queue = S₀.queue) : (s.setSem σ S).view = s.view := by
  have hsame : Function.update s.view.queues (some σ) S.queue = s.view.queues := by
    rw [hq, ← queues_some h]
    exact Function.update_eq_self ..
  rw [view_setSem h, hsame]

/-- The process id of a thread, whether it has a space, and whether it is finishing. -/
def cores (s : State) (t : Addr) : Option (Int × Bool × Bool) :=
  (s.threads t).map fun θ => (θ.processID, θ.space.isSome, θ.pc == .finishing)

/-- A slot of the process table names a thread of that process which is not finishing,
and a thread with a space is the one its slot names. -/
structure Registered (pcb : Int → Option Addr) (cores : Addr → Option (Int × Bool × Bool)) :
    Prop where
  slot : ∀ i t, pcb i = some t → ∃ b, cores t = some (i, b, false)
  space : ∀ i t b, cores t = some (i, true, b) → pcb i = some t

/-- What a move of the scheduler leaves alone. -/
structure SameProcesses (s s' : State) : Prop where
  pcb : s'.pcb = s.pcb
  cores : s'.cores = s.cores
  failed : s'.failed = s.failed

theorem SameProcesses.trans {s'' : State} (h : SameProcesses s s') (h' : SameProcesses s' s'') :
    SameProcesses s s'' :=
  ⟨h'.pcb.trans h.pcb, h'.cores.trans h.cores, h'.failed.trans h.failed⟩

theorem cores_setThread (s : State) (t : Addr) (θ : Thread) :
    (s.setThread t θ).cores =
      Function.update s.cores t (some (θ.processID, θ.space.isSome, θ.pc == .finishing)) := by
  funext u
  by_cases hu : u = t <;> simp [cores, setThread, hu]

theorem cores_of_thread (h : s.threads t = some θ) :
    s.cores t = some (θ.processID, θ.space.isSome, θ.pc == .finishing) := by
  simp [cores, h]

theorem sameProcesses_setThread (h : s.threads t = some θ) (θ' : Thread)
    (hid : θ'.processID = θ.processID) (hsp : θ'.space.isSome = θ.space.isSome)
    (hpc : (θ'.pc == .finishing) = (θ.pc == .finishing)) : SameProcesses s (s.setThread t θ') := by
  refine ⟨rfl, ?_, rfl⟩
  rw [cores_setThread, hid, hsp, hpc, ← cores_of_thread h, Function.update_eq_self]

theorem thread_of_pc {pc : PC} (h : s.view.pc t = some pc) :
    ∃ θ, s.threads t = some θ ∧ θ.pc = pc := Option.map_eq_some_iff.mp h

theorem current_thread (h : ∃ pc, s.view.pc s.currentThread = some pc) :
    ∃ θ, s.threads s.currentThread = some θ := by
  obtain ⟨pc, hpc⟩ := h
  obtain ⟨θ, hθ, -⟩ := thread_of_pc hpc
  exact ⟨θ, hθ⟩

theorem thread_eq (h : s.threads t = some θ) : s.thread t = .ok θ := by
  simp only [thread, h]

theorem readyToRun_spec (hθ : s.threads t = some θ) (ht : t ∉ s.readyList) :
    ∃ s', s.readyToRun t = .ok s' ∧ s'.view = s.view.enqueue none t ∧ SameProcesses s s' := by
  refine ⟨{ s.setThread t { θ with status := .ready } with readyList := s.readyList ++ [t] },
    ?_, ?_, ?_⟩
  · simp only [readyToRun, thread_eq hθ, append, if_neg ht, except_ok_bind]
    rfl
  · have hview := view_setThread_of_pc hθ { θ with status := .ready } rfl
    have hq := queues_setReadyList (s.setThread t { θ with status := .ready }) (s.readyList ++ [t])
    rw [← hview]
    simp only [view, View.enqueue, hq]
    rfl
  · have hsame := sameProcesses_setThread hθ { θ with status := .ready } rfl rfl rfl
    exact ⟨rfl, hsame.cores, rfl⟩

theorem run_spec {ν : Thread} {nextThread : Addr} (finishing : Bool)
    (hθ : s.threads s.currentThread = some θ) (hν : s.threads nextThread = some ν)
    (hdest : finishing = true → s.toBeDestroyed = none) :
    ∃ s', s.run nextThread finishing = .ok s' ∧ s'.view = { s.view with
        current := nextThread
        mode := .switched
        destroyed := if finishing then some s.currentThread else s.view.destroyed } ∧
      SameProcesses s s' := by
  have hif : (finishing && s.toBeDestroyed.isSome) = false := by
    cases finishing with
    | false => rfl
    | true => simp [hdest rfl]
  set θ' := if θ.space.isSome then θ.saveUserState s.cpu else θ with hθ'
  have hold : θ'.pc = θ.pc ∧ θ'.processID = θ.processID ∧ θ'.space = θ.space := by
    rw [hθ']
    split <;> exact ⟨rfl, rfl, rfl⟩
  -- the next thread may be the old one, whose registers have just been saved
  obtain ⟨ν', hν', hpc⟩ : ∃ ν', (s.setThread s.currentThread θ').threads nextThread = some ν' ∧
      ν'.pc = ν.pc := by
    by_cases hn : nextThread = s.currentThread
    · subst hn
      refine ⟨θ', by simp [setThread], ?_⟩
      rw [hold.1, Option.some.inj (hθ.symm.trans hν)]
    · exact ⟨ν, by simp [setThread, hn, hν], rfl⟩
  refine ⟨{ (s.setThread s.currentThread θ').setThread nextThread
      { ν' with status := .running } with
    currentThread := nextThread
    toBeDestroyed := if finishing then some s.currentThread else s.toBeDestroyed
    mode := .switched }, ?_, ?_, ?_⟩
  · simp only [run, hif, thread_eq hθ, Bool.false_eq_true, if_false, except_ok_bind, ← hθ',
      thread_eq hν']
    rfl
  · have h₁ := view_setThread_of_pc hθ θ' hold.1
    have h₂ := view_setThread_of_pc hν' { ν' with status := .running } rfl
    rw [← h₁, ← h₂]
    rfl
  · have h₁ := sameProcesses_setThread hθ θ' hold.2.1 (by rw [hold.2.2]) (by rw [hold.1])
    have h₂ := sameProcesses_setThread hν' { ν' with status := .running } rfl rfl rfl
    exact ⟨rfl, (h₁.trans h₂).cores, rfl⟩

/-- The loop in `Sleep`, entered with the current thread on a list or finishing. -/
theorem sleepLoop_spec {b : Bool} (h : s.view.idle.Ok)
    (hb : b = true ↔ s.view.pc s.currentThread = some .finishing) :
    ∃ s', s.sleepLoop b = .ok s' ∧ s'.view.Ok ∧ SameProcesses s s' := by
  cases hl : s.readyList with
  | nil =>
    refine ⟨{ s with mode := .idling }, ?_, h, rfl, rfl, rfl⟩
    simp only [sleepLoop, findNextToRun, hl]
  | cons n rest =>
    obtain ⟨θ, hθ⟩ := current_thread h.current
    obtain ⟨pcn, hpcn, -⟩ := h.waits none n (by
      change n ∈ s.readyList
      rw [hl]
      exact List.mem_cons_self)
    obtain ⟨ν, hν, -⟩ := thread_of_pc hpcn
    have hdest : s.toBeDestroyed = none := h.destroyed_eq_none nofun
    obtain ⟨s', hs', hview, hsame⟩ := run_spec (s := { s with readyList := rest })
      b hθ hν fun _ => hdest
    refine ⟨s', ?_, ?_, hsame.pcb, hsame.cores, hsame.failed⟩
    · simpa only [sleepLoop, findNextToRun, hl] using hs'
    · have hnext := h.dispatch rfl hl hb
      have hq := queues_setReadyList s rest
      rw [hview]
      simp only [view, hq]
      exact hnext

theorem sleep_spec {b : Bool} (h : s.view.idle.Ok)
    (hb : b = true ↔ s.view.pc s.currentThread = some .finishing) :
    ∃ s', s.sleep b = .ok s' ∧ s'.view.Ok ∧ SameProcesses s s' := by
  obtain ⟨θ, hθ⟩ := current_thread h.current
  have hview := view_setThread_of_pc hθ { θ with status := .blocked } rfl
  have hsame := sameProcesses_setThread hθ { θ with status := .blocked } rfl rfl rfl
  obtain ⟨s', hs', hok, hsame'⟩ := sleepLoop_spec
    (s := s.setThread s.currentThread { θ with status := .blocked }) (b := b)
    (by rw [hview]; exact h) (by rw [hview]; exact hb)
  refine ⟨s', ?_, hok, hsame.trans hsame'⟩
  simp only [sleep, thread_eq hθ, except_ok_bind]
  exact hs'

theorem fork_spec (h : s.view.Ok) (hm : s.mode = .running) (hθ : s.threads t = some θ)
    (hpc : θ.pc = .created) :
    ∃ s', s.fork t = .ok s' ∧ s'.view.Ok ∧ SameProcesses s s' := by
  have hok := h.fork hm ((view_pc hθ).trans (by rw [hpc]))
  have hnot : t ∉ s.readyList := by
    intro ht
    obtain ⟨pc, hpc', hw⟩ := h.waits none t ht
    rw [view_pc hθ, hpc, Option.some.injEq] at hpc'
    subst hpc'
    exact hw
  have hsame := sameProcesses_setThread hθ { θ with pc := .threadRoot } rfl rfl
    (by rw [hpc]; rfl)
  obtain ⟨s', hs', hview, hsame'⟩ := readyToRun_spec
    (s := s.setThread t { θ with pc := .threadRoot }) (t := t)
    (θ := { θ with pc := .threadRoot }) (by simp [setThread]) hnot
  refine ⟨s', ?_, ?_, hsame.trans hsame'⟩
  · simp only [fork, thread_eq hθ, except_ok_bind]
    exact hs'
  · rw [hview, view_setThread]
    exact hok

theorem yield_cons {n : Addr} {rest : List Addr} (hl : s.readyList = n :: rest)
    (hθ : s.threads s.currentThread = some θ) :
    s.yield = ((({ s with readyList := rest } : State).setThread s.currentThread
      { θ with pc := .inYield }).readyToRun s.currentThread >>= fun s'' => s''.run n false) := by
  unfold yield findNextToRun
  rw [hl]
  dsimp only
  rw [thread_eq (s := { s with readyList := rest }) hθ]
  rfl

theorem yield_spec (h : s.view.Ok) (hm : s.mode = .running) :
    ∃ s', s.yield = .ok s' ∧ s'.view.Ok ∧ SameProcesses s s' := by
  cases hl : s.readyList with
  | nil =>
    refine ⟨s, ?_, h, rfl, rfl, rfl⟩
    simp only [yield, findNextToRun, hl]
  | cons n rest =>
    obtain ⟨θ, hθ⟩ := current_thread h.current
    have hbody := h.pc_running hm
    have hpc : θ.pc = .body := Option.some.inj ((view_pc hθ).symm.trans hbody)
    have hdest : s.view.destroyed = none := h.destroyed_eq_none (by simp [view, hm])
    -- giving up the processor at the end of the list, and then taking its first thread
    have hok := h.suspend none .inYield (.inl hm) trivial nofun
    have hqueue : (s.view.suspend none .inYield).queues none =
        n :: (rest ++ [s.currentThread]) := by
      simp [View.suspend, View.idle, View.enqueue, View.setPC, view, queues, hl]
    have hnext := hok.dispatch rfl hqueue (b := false) (by
      simp [View.suspend, View.idle, View.enqueue, View.setPC, view])
    set s₁ : State := { s with readyList := rest }
    set φ : Thread := { θ with pc := .inYield }
    have hnot : s.currentThread ∉ rest := by
      intro hc
      have := h.idling_of_waiting ⟨none, by
        change s.currentThread ∈ s.readyList
        rw [hl]
        exact List.mem_cons_of_mem n hc⟩
      simp [view, hm] at this
    have hsame₁ := sameProcesses_setThread (s := s₁) hθ φ rfl rfl (by rw [hpc]; rfl)
    obtain ⟨s₂, hs₂, hview₂, hsame₂⟩ := readyToRun_spec (s := s₁.setThread s.currentThread φ)
      (θ := φ) (by simp [setThread]) hnot
    have hpc₂ : s₂.view.pc = (s.view.setPC s.currentThread .inYield).pc := by
      rw [hview₂, view_setThread]
      rfl
    have hcur₂ : s₂.currentThread = s.currentThread := congrArg View.current hview₂
    obtain ⟨φ', hφ'⟩ := current_thread (s := s₂) ⟨.inYield, by simp [hpc₂, hcur₂]⟩
    obtain ⟨pcn, hpcn, -⟩ := hok.waits none n (by rw [hqueue]; exact List.mem_cons_self)
    obtain ⟨ν, hν, -⟩ := thread_of_pc (s := s₂) (hpc₂ ▸ hpcn)
    obtain ⟨s₃, hs₃, hview₃, hsame₃⟩ := run_spec false hφ' hν nofun
    refine ⟨s₃, ?_, ?_, ?_⟩
    · rw [yield_cons hl hθ, hs₂]
      exact hs₃
    · have heq : s₃.view =
          (s.view.suspend none .inYield).dispatch n (rest ++ [s.currentThread]) false := by
        rw [hview₃, hview₂, view_setThread]
        simp only [View.suspend, View.idle, View.enqueue, View.dispatch, View.setPC, view]
        simp [s₁, φ, queues_setReadyList, queues, hl]
      rw [heq]
      exact hnext
    · exact ⟨hsame₃.pcb.trans hsame₂.pcb, hsame₃.cores.trans (hsame₂.cores.trans hsame₁.cores),
        hsame₃.failed.trans hsame₂.failed⟩

/-- `Finish` by the current thread. -/
theorem finish_spec (h : s.view.Ok) (hm : s.mode = .running)
    (hθ : s.threads s.currentThread = some θ) :
    ∃ s', s.finish s.currentThread = .ok s' ∧ s'.view.Ok ∧ s'.pcb = s.pcb ∧
      s'.cores = Function.update s.cores s.currentThread
        (some (θ.processID, θ.space.isSome, true)) ∧ s'.failed = s.failed := by
  set φ : Thread := { θ with pc := .finishing }
  have hview := view_setThread s s.currentThread φ
  obtain ⟨s', hs', hok, hsame⟩ := sleep_spec (s := s.setThread s.currentThread φ) (b := true)
    (by rw [hview]; exact h.finish hm) (by rw [hview]; simp [φ, setThread])
  refine ⟨s', ?_, hok, hsame.pcb, ?_, hsame.failed⟩
  · simp only [finish, ne_eq, not_true_eq_false, if_false, thread_eq hθ, except_ok_bind]
    exact hs'
  · rw [hsame.cores, cores_setThread]
    rfl

theorem checkToBeDestroyed_spec (h : s.view.Ok) :
    ∃ s', s.checkToBeDestroyed = .ok s' ∧ s'.view = s.view.clean ∧ s'.pcb = s.pcb ∧
      s'.cores = (fun t => if s.toBeDestroyed = some t then none else s.cores t) ∧
      s'.failed = s.failed ∧ s'.threads s.currentThread = s.threads s.currentThread := by
  cases hd : s.toBeDestroyed with
  | none =>
    refine ⟨s, by simp only [checkToBeDestroyed, hd], ?_, rfl, by simp, rfl, rfl⟩
    simp [View.clean, view, hd]
  | some u =>
    obtain ⟨hm, hpc⟩ := h.destroyed u hd
    obtain ⟨υ, hυ, -⟩ := thread_of_pc hpc
    have hne : u ≠ s.currentThread := by
      rintro rfl
      have hat := h.placed _ _ hpc
      simp only [View.At] at hat
      rcases hat with ⟨-, hi⟩ | ⟨hc, -⟩
      · rw [hm] at hi
        cases hi
      · exact hc rfl
    have hupdate : ∀ {α : Type} (f : Thread → α) (t : Addr),
        (Function.update s.threads u none t).map f =
          if some u = some t then none else (s.threads t).map f := by
      intro α f t
      by_cases ht : t = u
      · simp [ht]
      · simp [ht, Ne.symm ht]
    refine ⟨{ s with threads := Function.update s.threads u none, toBeDestroyed := none },
      ?_, ?_, rfl, ?_, rfl, ?_⟩
    · simp only [checkToBeDestroyed, hd, if_neg hne, hυ]
    · simp only [View.clean, view, hd, hupdate]
      rfl
    · funext t
      exact hupdate _ t
    · simp [Ne.symm hne]

theorem view_proceed (s : State) (φ : Thread) (hφ : φ.pc = .body) (c : Cpu) :
    ({ s.setThread s.currentThread φ with cpu := c, mode := .running } : State).view =
      s.view.proceed := by
  change { (s.setThread s.currentThread φ).view with mode := .running } = _
  rw [view_setThread, hφ]
  rfl

theorem pc_of_switched (h : s.view.Ok) (hm : s.mode = .switched)
    (hθ : s.threads s.currentThread = some θ) : θ.pc.WaitsOn none := by
  have hat := h.placed _ _ (view_pc hθ)
  have hmode : s.view.mode = .switched := hm
  cases hpc : θ.pc <;> simp only [hpc, View.At, hmode] at hat <;>
    first | trivial | exact absurd rfl hat | simp [view] at hat

theorem resume_spec (h : s.view.Ok) (hm : s.mode = .switched) :
    ∃ s', s.resume = .ok s' ∧ s'.view.Ok ∧ s'.pcb = s.pcb ∧
      s'.cores = (fun t => if s.toBeDestroyed = some t then none else s.cores t) ∧
      s'.failed = s.failed := by
  obtain ⟨θ, hθ⟩ := current_thread h.current
  have hwaits := pc_of_switched h hm hθ
  obtain ⟨s₁, hs₁, hview, hpcb, hcores, hfail, hthr⟩ := checkToBeDestroyed_spec h
  have hok : s₁.view.Ok := hview ▸ h.clean
  have hcur : s₁.currentThread = s.currentThread := congrArg View.current hview
  have hmode : s₁.mode = .switched := (congrArg View.mode hview).trans hm
  have hdest : s₁.view.destroyed = none := by rw [hview]; rfl
  have hθ₁ : s₁.threads s₁.currentThread = some θ := by rw [hcur, hthr, hθ]
  have hproceed := hok.proceed (by simp [view, hmode]) hdest
  have hbody : (s₁.setThread s₁.currentThread { θ with pc := .body }).cores = s₁.cores := by
    refine (sameProcesses_setThread hθ₁ { θ with pc := .body } rfl rfl ?_).cores
    cases hpc : θ.pc <;> first | rfl | exact (hpc ▸ hwaits).elim
  simp only [resume, thread_eq hθ, except_ok_bind, hs₁]
  cases hpc : θ.pc with
  | threadRoot =>
    refine ⟨_, rfl, ?_, hpcb, hbody.trans hcores, hfail⟩
    exact view_proceed s₁ { θ with pc := .body } rfl s₁.cpu ▸ hproceed
  | inYield =>
    refine ⟨_, rfl, ?_, hpcb, hbody.trans hcores, hfail⟩
    exact view_proceed s₁ { θ with pc := .body } rfl _ ▸ hproceed
  | inP σ =>
    refine ⟨_, rfl, ?_, hpcb, hcores, hfail⟩
    exact hok.test hmode hdest (σ := σ) (by rw [← hpc]; exact view_pc hθ₁)
  | created | body | finishing => exact (hpc ▸ hwaits).elim

/-- One test in `P`: the thread gets through, or waits at the end of the queue. -/
theorem testP_spec {S : Semaphore Addr} (h : s.view.Ok)
    (hm : s.mode = .running ∨ s.mode = .testing) (hS : s.sems σ = some S) :
    ∃ s', s.testP σ = .ok s' ∧ s'.view.Ok ∧ SameProcesses s s' := by
  obtain ⟨θ, hθ⟩ := current_thread h.current
  have hfin : θ.pc ≠ .finishing := by
    intro hf
    have hat := h.placed _ _ (view_pc hθ)
    have hdest := h.destroyed_eq_none (by rcases hm with hm | hm <;> simp [view, hm])
    simp only [hf, View.At, hdest] at hat
    rcases hm with hm | hm <;> simp [view, hm] at hat
  simp only [testP, hS, thread_eq hθ, except_ok_bind]
  cases hpass : (S.P s.currentThread).2 with
  | true =>
    have hview := view_setSem_of_queue (s := s.setThread s.currentThread { θ with pc := .body })
      hS (Semaphore.P_pass_queue hpass)
    have hok := h.proceed (by rcases hm with hm | hm <;> simp [view, hm])
      (h.destroyed_eq_none (by rcases hm with hm | hm <;> simp [view, hm]))
    have hsame := sameProcesses_setThread hθ { θ with pc := .body } rfl rfl (by simpa using hfin)
    refine ⟨_, rfl, ?_, rfl, hsame.cores, rfl⟩
    rw [← view_proceed s { θ with pc := .body } rfl s.cpu] at hok
    change ({ ((s.setThread s.currentThread { θ with pc := .body }).setSem σ
      (S.P s.currentThread).1).view with mode := .running } : View).Ok
    rw [hview]
    exact hok
  | false =>
    obtain ⟨-, hP⟩ := Semaphore.P_sleep hpass
    -- the current thread runs, so it is on no list and `Append` takes it
    have hnot : s.currentThread ∉ S.queue := by
      intro hc
      have := h.idling_of_waiting ⟨some σ, by
        rw [show s.view.queues (some σ) = _ from queues_some hS]
        exact hc⟩
      rcases hm with hm | hm <;> simp [view, hm] at this
    set φ : Thread := { θ with pc := .inP σ }
    set s₁ := (s.setThread s.currentThread φ).setSem σ
      { S with queue := S.queue ++ [s.currentThread] }
    have hview : s₁.view.idle = s.view.suspend (some σ) (.inP σ) := by
      rw [view_setSem (s := s.setThread s.currentThread φ) hS, view_setThread]
      simp only [View.suspend, View.enqueue, View.setPC]
      rw [show s.view.queues (some σ) = S.queue from queues_some hS]
      rfl
    have hok := h.suspend (some σ) (.inP σ) hm rfl (by
      intro σ' hσ'
      rw [← PC.inP.inj hσ']
      simp [view, hS])
    obtain ⟨s', hs', hok', hsame'⟩ := sleep_spec (s := s₁) (b := false) (hview ▸ hok) (by
      simp [s₁, φ, view, setThread, setSem])
    have hsame := sameProcesses_setThread hθ φ rfl rfl (by simpa [φ] using hfin)
    refine ⟨s', ?_, hok', hsame'.pcb, hsame'.cores.trans hsame.cores, hsame'.failed⟩
    simp only [append, if_neg hnot, hP]
    exact hs'

/-- `V`, by a thread or a handler. -/
theorem callV_spec {S : Semaphore Addr} (h : s.view.Ok) (hS : s.sems σ = some S) :
    ∃ s', s.callV σ = .ok s' ∧ s'.view.Ok ∧ SameProcesses s s' := by
  cases hq : S.queue with
  | nil =>
    have hview := view_setSem_of_queue (S := S.V.1) hS (by simp [Semaphore.V, hq])
    refine ⟨s.setSem σ S.V.1, ?_, hview ▸ h, rfl, rfl, rfl⟩
    simp [callV, hS, Semaphore.V, hq]
  | cons t rest =>
    have hqueue : s.view.queues (some σ) = t :: rest := (queues_some hS).trans hq
    obtain ⟨pc, hpc, -⟩ := h.waits _ t (hqueue ▸ List.mem_cons_self)
    obtain ⟨θ, hθ, -⟩ := thread_of_pc hpc
    have hnot : t ∉ s.readyList := by
      intro ht
      have htq : t ∈ s.view.queues (some σ) := hqueue ▸ List.mem_cons_self
      have htr : t ∈ s.view.queues none := ht
      cases h.exclusive.eq_of_mem htq htr
    obtain ⟨s', hs', hview, hsame⟩ := readyToRun_spec (s := s.setSem σ S.V.1) hθ hnot
    refine ⟨s', ?_, ?_, hsame.pcb, hsame.cores, hsame.failed⟩
    · simpa [callV, hS, Semaphore.V, hq] using hs'
    · rw [hview, view_setSem hS]
      have : S.V.1.queue = rest := by simp [Semaphore.V, hq]
      rw [this]
      exact h.wakeup hqueue

section Processes
variable {pcb : Int → Option Addr} {cores : Addr → Option (Int × Bool × Bool)} {id : Int}

theorem Registered.newThread (h : Registered pcb cores) (ht : cores t = none) (id : Int) :
    Registered pcb (Function.update cores t (some (id, false, false))) := by
  have hslot := h.slot
  have hspace := h.space
  constructor <;> grind [Function.update_apply]

theorem Registered.exec (h : Registered pcb cores) (ht : cores t = none) (hid : pcb id = none) :
    Registered (Function.update pcb id (some t))
      (Function.update cores t (some (id, false, false))) := by
  have hnew := h.newThread ht id
  constructor
  case slot =>
    have hslot := hnew.slot
    grind [Function.update_apply]
  case space =>
    intro i u b hu
    have hold := hnew.space i u b hu
    have hi : i ≠ id := by
      rintro rfl
      rw [hid] at hold
      cases hold
    rw [Function.update_of_ne hi, hold]

theorem Registered.execute (h : Registered pcb cores) (hid : pcb id = some t) :
    Registered pcb (Function.update cores t (some (id, true, false))) := by
  have hslot := h.slot
  have hspace := h.space
  constructor <;> grind [Function.update_apply]

theorem Registered.finish (h : Registered pcb cores) {b : Bool}
    (ht : cores t = some (id, b, false)) (hid : pcb id ≠ some t) :
    Registered pcb (Function.update cores t (some (id, b, true))) := by
  have hslot := h.slot
  have hspace := h.space
  constructor <;> grind [Function.update_apply]

/-- A process gives up its slot, and its thread its space. -/
theorem Registered.remove (h : Registered pcb cores) {b : Bool}
    (ht : cores t = some (id, b, false)) (hid : pcb id = some t) :
    Registered (Function.update pcb id none)
      (Function.update cores t (some (id, false, true))) := by
  have hslot := h.slot
  have hspace := h.space
  constructor <;> grind [Function.update_apply]

theorem Registered.clean (h : Registered pcb cores) {d : Option Addr}
    (hd : ∀ u, d = some u → ∃ i b, cores u = some (i, b, true)) :
    Registered pcb (fun u => if d = some u then none else cores u) := by
  have hslot := h.slot
  have hspace := h.space
  constructor <;> grind

end Processes

structure Inv (s : State) : Prop where
  ok : s.view.Ok
  registered : Registered s.pcb s.cores
  failed : s.failed = none

theorem Inv.of_same (h : s.Inv) (hok : s'.view.Ok) (hsame : SameProcesses s s') : s'.Inv :=
  ⟨hok, by rw [hsame.pcb, hsame.cores]; exact h.registered, hsame.failed.trans h.failed⟩

/-- `~PCB` finds the current thread in the slot of its process. -/
theorem remove_spec (h : s.Inv) (hm : s.mode = .running)
    (hθ : s.threads s.currentThread = some θ) (hsp : θ.space.isSome = true) :
    ∃ s', s.remove θ.processID = .ok s' ∧ s'.Inv := by
  have hcore := cores_of_thread hθ
  have hbody : θ.pc = .body :=
    Option.some.inj ((view_pc hθ).symm.trans (h.ok.pc_running hm))
  rw [hsp, hbody] at hcore
  have hslot := h.registered.space _ _ _ hcore
  set φ : Thread := { θ with space := none }
  set s₁ : State := { s with pcb := Function.update s.pcb θ.processID none }
  have hview : (s₁.setThread s.currentThread φ).view = s.view :=
    view_setThread_of_pc (s := s₁) hθ φ rfl
  obtain ⟨s', hs', hok, hpcb, hcores, hfail⟩ := finish_spec
    (s := s₁.setThread s.currentThread φ) (θ := φ) (hview ▸ h.ok) hm (by simp [setThread, s₁])
  refine ⟨s', ?_, hok, ?_, hfail.trans h.failed⟩
  · simp only [remove, hslot]
    change (s₁.thread s.currentThread >>= fun υ => s₁.thread s.currentThread >>= fun θ' => _) = _
    simp only [show s₁.thread s.currentThread = .ok θ from thread_eq hθ, except_ok_bind, if_true]
    exact hs'
  · rw [hpcb, hcores, cores_setThread]
    change Registered _ (Function.update (Function.update s.cores s.currentThread _)
      s.currentThread (some (θ.processID, false, true)))
    rw [Function.update_idem]
    exact h.registered.remove hcore hslot

theorem act_inv (h : s.Inv) (hm : s.mode = .running) (hθ : s.threads s.currentThread = some θ)
    {a : Act} (hok : s.NotWaitedOn a) {r : Except Fault State} (hr : s.act θ a = some r) :
    ∃ s', r = .ok s' ∧ s'.Inv := by
  have hbody : θ.pc = .body :=
    Option.some.inj ((view_pc hθ).symm.trans (h.ok.pc_running hm))
  have hnone : ∀ {t}, s.threads t = none → s.view.pc t = none ∧ s.cores t = none := by
    intro t ht
    exact ⟨by simp [view, ht], by simp [cores, ht]⟩
  cases a with
  | newThread t processID junk =>
    simp only [act] at hr
    split_ifs at hr with ht
    cases hr
    refine ⟨_, rfl, ?_, ?_, h.failed⟩
    · rw [State.newThread, view_setThread]
      exact h.ok.spawn (hnone ht).1
    · rw [State.newThread, cores_setThread]
      exact h.registered.newThread (hnone ht).2 processID
  | exec id t junk =>
    simp only [act] at hr
    split_ifs at hr with ht
    cases hr
    refine ⟨_, rfl, ?_, ?_, h.failed⟩
    · change (s.newThread t id junk).view.Ok
      rw [State.newThread, view_setThread]
      exact h.ok.spawn (hnone ht.1).1
    · change Registered _ (s.newThread t id junk).cores
      rw [State.newThread, cores_setThread]
      exact h.registered.exec (hnone ht.1).2 ht.2
  | fork t =>
    simp only [act] at hr
    split_ifs at hr with ht
    cases hr
    obtain ⟨φ, hφ, hpc⟩ := Option.any_eq_true .. |>.mp ht
    obtain ⟨s', hs', hok', hsame⟩ := fork_spec h.ok hm hφ (by simpa using hpc)
    exact ⟨s', hs', h.of_same hok' hsame⟩
  | yield =>
    cases hr
    obtain ⟨s', hs', hok', hsame⟩ := yield_spec h.ok hm
    exact ⟨s', hs', h.of_same hok' hsame⟩
  | newSem σ initialValue =>
    simp only [act] at hr
    split_ifs at hr with hσ
    cases hr
    refine ⟨_, rfl, ?_, h.registered, h.failed⟩
    rw [setSem, view_setSems (by simp [queues, hσ, Semaphore.new])]
    apply h.ok.setSems
    intro t σ' ht
    have halive : s.sems σ' ≠ none := h.ok.alive t σ' ht
    by_cases hσ' : σ' = σ
    · simp [hσ']
    · simpa [hσ'] using halive
  | deleteSem σ =>
    simp only [act] at hr
    split_ifs at hr with hσ
    cases hr
    -- by the guard nobody is inside `P`, so the queue that goes is empty
    have hfree : ∀ t, s.view.pc t ≠ some (.inP σ) := by
      intro t ht
      obtain ⟨φ, hφ, hpc⟩ := thread_of_pc ht
      exact hok σ rfl t φ hφ hpc
    refine ⟨_, rfl, ?_, h.registered, h.failed⟩
    rw [view_setSems (o := none) (h.ok.queue_eq_nil hfree).symm]
    apply h.ok.setSems
    intro t σ' ht
    have hσ' : σ' ≠ σ := by
      rintro rfl
      exact hfree t ht
    have halive : s.sems σ' ≠ none := h.ok.alive t σ' ht
    simpa [hσ'] using halive
  | callP σ =>
    simp only [act] at hr
    split_ifs at hr with hσ
    cases hr
    obtain ⟨S, hS⟩ := Option.ne_none_iff_exists'.mp hσ
    obtain ⟨s', hs', hok', hsame⟩ := testP_spec h.ok (.inl hm) hS
    exact ⟨s', hs', h.of_same hok' hsame⟩
  | callV σ =>
    simp only [act] at hr
    split_ifs at hr with hσ
    cases hr
    obtain ⟨S, hS⟩ := Option.ne_none_iff_exists'.mp hσ
    obtain ⟨s', hs', hok', hsame⟩ := callV_spec h.ok hS
    exact ⟨s', hs', h.of_same hok' hsame⟩
  | finish =>
    simp only [act] at hr
    split_ifs at hr with hid
    cases hr
    obtain ⟨s', hs', hok', hpcb, hcores, hfail⟩ := finish_spec h.ok hm hθ
    -- `Finish` is called here without a slot in the process table, so there is no space to lose
    have hcore := cores_of_thread hθ
    rw [hbody] at hcore
    refine ⟨s', hs', hok', ?_, hfail.trans h.failed⟩
    rw [hpcb, hcores]
    exact h.registered.finish hcore hid
  | execute sp =>
    simp only [act] at hr
    split_ifs at hr with hid
    cases hr
    simp only [execute, thread_eq hθ, except_ok_bind]
    refine ⟨_, rfl, ?_, ?_, h.failed⟩
    · change (s.setThread s.currentThread { θ with space := some sp }).view.Ok
      rw [view_setThread_of_pc hθ { θ with space := some sp } rfl]
      exact h.ok
    · change Registered _ (s.setThread s.currentThread { θ with space := some sp }).cores
      rw [cores_setThread, hbody]
      exact h.registered.execute hid
  | instruction registers =>
    simp only [act] at hr
    split_ifs at hr with hsp
    cases hr
    exact ⟨_, rfl, h.ok, h.registered, h.failed⟩
  | exit =>
    simp only [act] at hr
    split_ifs at hr with hsp
    cases hr
    exact remove_spec h hm hθ hsp.1
  | interrupt | handlerV _ | wake | resume | retest => simp [act] at hr

theorem interruptAct_inv (h : s.Inv) {a : Act} {r : Except Fault State}
    (hr : s.interruptAct a = some r) : ∃ s', r = .ok s' ∧ s'.Inv := by
  cases a with
  | interrupt =>
    cases hr
    exact ⟨_, rfl, h.ok, h.registered, h.failed⟩
  | handlerV σ =>
    simp only [interruptAct] at hr
    split_ifs at hr with hσ
    cases hr
    obtain ⟨S, hS⟩ := Option.ne_none_iff_exists'.mp hσ
    obtain ⟨s', hs', hok', hsame⟩ := callV_spec h.ok hS
    exact ⟨s', hs', h.of_same hok' hsame⟩
  | _ => simp [interruptAct] at hr

theorem next_inv (h : s.Inv) (hθ : s.threads s.currentThread = some θ) {a : Act}
    (hok : s.NotWaitedOn a) {r : Except Fault State} (hr : s.next θ a = some r) :
    ∃ s', r = .ok s' ∧ s'.Inv := by
  cases hm : s.mode with
  | running =>
    simp only [next, hm, Option.or_eq_some_iff] at hr
    rcases hr with hr | ⟨-, hr⟩
    · exact interruptAct_inv h hr
    · exact act_inv h hm hθ hok hr
  | idling =>
    simp only [next, hm] at hr
    split at hr
    · cases hr
      have hb : (θ.pc == .finishing) = true ↔ s.view.pc s.currentThread = some .finishing := by
        rw [view_pc hθ, beq_iff_eq, Option.some.injEq]
      have hidle : s.view.idle = s.view := by
        simp only [View.idle, view, hm]
      obtain ⟨s', hs', hok', hsame⟩ := sleepLoop_spec (hidle ▸ h.ok) hb
      exact ⟨s', hs', h.of_same hok' hsame⟩
    · exact interruptAct_inv h hr
  | switched =>
    simp only [next, hm] at hr
    split at hr
    · cases hr
      obtain ⟨s', hs', hok', hpcb, hcores, hfail⟩ := resume_spec h.ok hm
      refine ⟨s', hs', hok', ?_, hfail.trans h.failed⟩
      rw [hpcb, hcores]
      -- the thread that is deleted here has finished, so no slot names it
      apply h.registered.clean
      intro u hu
      obtain ⟨υ, hυ, hpc⟩ := thread_of_pc (h.ok.destroyed u hu).2
      exact ⟨_, _, by rw [cores_of_thread hυ, hpc]; rfl⟩
    · cases hr
  | testing =>
    simp only [next, hm] at hr
    split at hr
    · next σ hpc =>
      cases hr
      have hσ := h.ok.alive _ σ (hpc ▸ view_pc hθ)
      obtain ⟨S, hS⟩ := Option.ne_none_iff_exists'.mp hσ
      obtain ⟨s', hs', hok', hsame⟩ := testP_spec h.ok (.inr hm) hS
      exact ⟨s', hs', h.of_same hok' hsame⟩
    · cases hr

theorem step_inv {a : Act} (h : s.Inv) (hok : s.NotWaitedOn a) (hs : s.step a = some s') :
    s'.Inv := by
  simp only [step, h.failed, Option.isSome_none, Bool.false_eq_true, if_false] at hs
  split at hs
  · cases hs
  · next θ hθ =>
    obtain ⟨r, hr, hs⟩ := Option.map_eq_some_iff.mp hs
    obtain ⟨s'', rfl, hinv⟩ := next_inv h hθ hok hr
    exact hs ▸ hinv

theorem inv_init (main : Addr) (pageTableSize : ℕ) (junk : ℕ → Int) :
    (init main pageTableSize junk).Inv := by
  have hpc : ∀ t, (init main pageTableSize junk).view.pc t =
      if t = main then some .body else none := by
    intro t
    by_cases ht : t = main <;> simp [view, init, ht]
  have hqueues : ∀ k, (init main pageTableSize junk).view.queues k = [] := by
    intro k
    cases k <;> rfl
  refine ⟨⟨⟨fun k => ?_, fun k _ _ => ?_, fun _ => Iff.rfl⟩, ?_, ?_, ⟨.body, ?_⟩, nofun, nofun, ?_⟩,
    ⟨?_, ?_⟩, rfl⟩
  · simp [hqueues]
  · simp [hqueues]
  · simp [hqueues]
  · intro t pc ht
    rw [hpc] at ht
    split_ifs at ht with hm
    cases ht
    exact ⟨hm, rfl⟩
  · exact (hpc _).trans (if_pos rfl)
  · intro t σ ht
    rw [hpc] at ht
    split_ifs at ht
    cases ht
  · intro i t ht
    simp only [init] at ht
    split_ifs at ht with hi
    cases ht
    exact ⟨false, by simp [cores, init, hi]⟩
  · intro i t b ht
    by_cases hm : t = main <;> simp [cores, init, hm] at ht

/-- Once on the ready list, and on no semaphore's queue. -/
def OnReadyList (s : State) (t : Addr) : Prop :=
  s.readyList.count t = 1 ∧ ∀ σ S, s.sems σ = some S → t ∉ S.queue

/-- Once on the queue of one semaphore, and on no other list. -/
def OnOneQueue (s : State) (t : Addr) : Prop :=
  t ∉ s.readyList ∧ ∃ σ S, s.sems σ = some S ∧ S.queue.count t = 1 ∧
    ∀ σ' S', s.sems σ' = some S' → t ∈ S'.queue → σ' = σ

def OnNoList (s : State) (t : Addr) : Prop :=
  t ∉ s.readyList ∧ ∀ σ S, s.sems σ = some S → t ∉ S.queue

/-- The current thread is on no list, and any other on exactly one; so is the current
thread while it idles in `Sleep`. -/
def InOnePlace (s : State) (t : Addr) : Prop :=
  (t = s.currentThread ∧ s.mode ≠ .idling ∧ s.OnNoList t) ∨
    ((t ≠ s.currentThread ∨ s.mode = .idling) ∧ (s.OnReadyList t ∨ s.OnOneQueue t))

theorem mem_queue_iff {S : Semaphore Addr} (hS : s.sems σ = some S) :
    t ∈ S.queue ↔ t ∈ s.view.queues (some σ) := by
  rw [show s.view.queues (some σ) = _ from queues_some hS]

theorem onNoList_of_not_waiting (h : t ∉ s.view.waiting) : s.OnNoList t := by
  refine ⟨fun ht => h ⟨none, ht⟩, fun σ S hS ht => h ⟨some σ, ?_⟩⟩
  exact (mem_queue_iff hS).mp ht

theorem onOneList_of_waiting (h : s.view.Ok) (ht : t ∈ s.view.waiting) :
    s.OnReadyList t ∨ s.OnOneQueue t := by
  obtain ⟨k, hk⟩ := ht
  cases k with
  | none =>
    refine .inl ⟨List.count_eq_one_of_mem (h.exclusive.nodup none) hk, fun σ S hS hq => ?_⟩
    cases h.exclusive.eq_of_mem hk ((mem_queue_iff hS).mp hq)
  | some σ =>
    obtain ⟨pc, hpc, hw⟩ := h.waits _ t hk
    cases hS : s.sems σ with
    | none => simp [view, queues, hS] at hk
    | some S =>
      refine .inr ⟨fun hr => ?_, σ, S, hS, ?_, fun σ' S' hS' hq => ?_⟩
      · cases h.exclusive.eq_of_mem (o := none) hr hk
      · exact List.count_eq_one_of_mem (queues_some hS ▸ h.exclusive.nodup (some σ))
          ((mem_queue_iff hS).mpr hk)
      · exact Option.some.inj (h.exclusive.eq_of_mem ((mem_queue_iff hS').mp hq) hk)

theorem inOnePlace (h : s.view.Ok) (hθ : s.threads t = some θ) (hforked : θ.pc ≠ .created)
    (hunfinished : θ.pc ≠ .finishing) : s.InOnePlace t := by
  have hat := h.placed t θ.pc (view_pc hθ)
  cases hpc : θ.pc with
  | created => exact absurd hpc hforked
  | finishing => exact absurd hpc hunfinished
  | body =>
    rw [hpc] at hat
    have hwait : t ∉ s.view.waiting := by
      apply h.not_waiting_of_pc
      rw [view_pc hθ, hpc]
      rintro _ ⟨⟩ hw
      exact hw
    exact .inl ⟨hat.1, by rw [show s.mode = _ from hat.2]; simp, onNoList_of_not_waiting hwait⟩
  | threadRoot | inYield | inP σ =>
    rw [hpc] at hat
    rcases hat with ⟨hw, hidle⟩ | ⟨hc, hw, hm⟩
    · refine .inr ⟨?_, onOneList_of_waiting h hw⟩
      by_cases hc : t = s.currentThread
      · exact .inr (hidle hc)
      · exact .inl hc
    · refine .inl ⟨hc, ?_, onNoList_of_not_waiting hw⟩
      rcases hm with hm | hm <;> rw [show s.mode = _ from hm] <;> simp

/-- In every state a run reaches, every forked and unfinished thread is in exactly one
place, and no assertion has failed. -/
theorem thread_in_one_place {main : Addr} {pageTableSize : ℕ} {junk : ℕ → Int}
    (h : Reach step NotWaitedOn (init main pageTableSize junk) s) :
    (∀ t θ, s.threads t = some θ → θ.pc ≠ .created → θ.pc ≠ .finishing → s.InOnePlace t) ∧
      s.failed = none := by
  have hinv : s.Inv := h.invariant (inv_init _ _ _) fun _ _ _ hi hok hs => step_inv hi hok hs
  exact ⟨fun t θ hθ hforked hunfinished => inOnePlace hinv.ok hθ hforked hunfinished, hinv.failed⟩

/-- The main thread waits on a semaphore with nothing else to run, and a handler wakes it:
it is current and on the ready list, and then switches to itself. -/
theorem thread_in_one_place_idling : ∃ s, Reach step NotWaitedOn (init 0 0 fun _ => 0) s ∧
    s.mode = .idling ∧ s.currentThread = 0 ∧ s.readyList = [0] ∧ s.InOnePlace 0 ∧
      s.failed = none := by
  have hrun : Reach step NotWaitedOn (init 0 0 fun _ => 0) _ :=
    ((Reach.refl.tail (a := .newSem 5 0) nofun rfl).tail (a := .callP 5) nofun rfl).tail
      (a := .handlerV 5) nofun rfl
  exact ⟨_, hrun, rfl, rfl, rfl, (thread_in_one_place hrun).1 0 _ rfl nofun nofun,
    (thread_in_one_place hrun).2⟩

end State
end Nachos.Scheduler
