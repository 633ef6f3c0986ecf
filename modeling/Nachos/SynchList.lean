import Nachos.Condition

namespace Nachos
open GuardedRun

namespace SynchList

/-- The statement a thread is at.  The flag of a consumer tells that it is back from `Wait`. -/
inductive Pc (α : Type*) where
  /-- In none of the calls. -/
  | out
  /-- `Append`: the lock, `list->Append(item)`, `listEmpty->Signal(lock)`, the lock again. -/
  | appendAcquire (item : α)
  | appendList (item : α)
  | appendSignal
  | appendRelease
  /-- `RemoveFront`: the lock, the test of the loop, `listEmpty->Wait(lock)`,
  `list->RemoveFront()`, the lock again. -/
  | removeAcquire
  | removeTest (back : Bool)
  | removeWait
  | removeTake (back : Bool)
  | removeRelease (item : α)
  deriving DecidableEq, Repr

/-- The list with its lock and condition and all its threads.  `appended` and `removed` are
history: the items put on the list and taken off it, in that order. -/
structure System (τ α : Type*) where
  mon : Condition.System τ
  list : List α
  pc : τ → Pc α
  aborted : Bool
  appended : List α
  removed : List α

inductive Act (τ α : Type*) where
  | append (t : τ) (item : α)
  | removeFront (t : τ)
  | run (t : τ)
  deriving DecidableEq, Repr

variable {τ α : Type*}

def Act.thread : Act τ α → τ
  | .append t _ | .removeFront t | .run t => t

def start : System τ α := ⟨Condition.start, [], fun _ => .out, false, [], []⟩

section steps
variable [DecidableEq τ]

namespace System

@[simps pc]
def goto (s : System τ α) (t : τ) (p : Pc α) : System τ α :=
  { s with pc := Function.update s.pc t p }

def abort (s : System τ α) : System τ α := { s with aborted := true }

def callAcquire (s : System τ α) (t : τ) : System τ α := { s with mon := s.mon.callAcquire t }

def callRelease (s : System τ α) (t : τ) : System τ α := { s with mon := s.mon.callRelease t }

end System

/-- A statement inside a call of the lock or the condition; once `done` holds the call is
over, and `next` follows. -/
def runMon (s : System τ α) (t : τ) (done : Condition.System τ → Bool)
    (next : System τ α → System τ α) : Option (System τ α) :=
  (Condition.run s.mon t).map fun m =>
    let s' := { s with mon := m }
    if done m then next s' else s'

def holds (t : τ) (m : Condition.System τ) : Bool := m.locks.phase t = .held

def isOut (t : τ) (m : Condition.System τ) : Bool := m.locks.phase t = .out

def isBack (t : τ) (m : Condition.System τ) : Bool :=
  match m.pc t with
  | .user => true
  | _ => false

variable [DecidableEq α]

def run (s : System τ α) (t : τ) : Option (System τ α) :=
  match s.pc t with
  | .out => none
  | .appendAcquire item => runMon s t (holds t) (·.goto t (.appendList item))
  | .appendList item =>
    some (if item ∈ s.list then s.abort
      else { s with
        list := s.list ++ [item]
        appended := s.appended ++ [item]
        mon := s.mon.callSignal t }.goto t .appendSignal)
  | .appendSignal => runMon s t (isBack t) fun s' => (s'.callRelease t).goto t .appendRelease
  | .appendRelease => runMon s t (isOut t) (·.goto t .out)
  | .removeAcquire => runMon s t (holds t) (·.goto t (.removeTest false))
  | .removeTest back =>
    some (if s.list = [] then { s with mon := s.mon.callWait t }.goto t .removeWait
      else s.goto t (.removeTake back))
  | .removeWait => runMon s t (isBack t) (·.goto t (.removeTest true))
  | .removeTake _ =>
    match s.list with
    | [] => some s.abort
    | item :: list =>
      some (({ s with list := list, removed := s.removed ++ [item] }.callRelease t).goto t
        (.removeRelease item))
  | .removeRelease _ => runMon s t (isOut t) (·.goto t .out)

def halted (s : System τ α) : Bool := s.aborted || Condition.halted s.mon

def step (s : System τ α) (a : Act τ α) : Option (System τ α) :=
  if halted s then none
  else
    match a with
    | .append t item =>
      if s.pc t = .out then some ((s.callAcquire t).goto t (.appendAcquire item)) else none
    | .removeFront t =>
      if s.pc t = .out then some ((s.callAcquire t).goto t .removeAcquire) else none
    | .run t => run s t

def Pc.puts : Pc α → Option α
  | .appendList item => some item
  | _ => none

/-- No item is put on the list that is in it. -/
def Fresh (s : System τ α) : Act τ α → Prop
  | .run t => ∀ item ∈ (s.pc t).puts, item ∉ s.list
  | _ => True

instance (s : System τ α) (a : Act τ α) : Decidable (Fresh s a) :=
  match a with
  | .run t => inferInstanceAs (Decidable (∀ item ∈ (s.pc t).puts, item ∉ s.list))
  | .append _ _ | .removeFront _ => inferInstanceAs (Decidable True)

end steps

theorem isBack_iff {t : τ} {m : Condition.System τ} : isBack t m ↔ m.pc t = .user := by
  unfold isBack
  split <;> simp_all

/-- The failures: an item that is in the list already, and an empty list. -/
inductive Fails (s : System τ α) (t : τ) : Prop
  | append (item : α) : s.pc t = .appendList item → item ∈ s.list → Fails s t
  | remove (back : Bool) : s.pc t = .removeTake back → s.list = [] → Fails s t

def Pc.done [DecidableEq τ] (t : τ) (m : Condition.System τ) : Pc α → Bool
  | .appendAcquire _ | .removeAcquire => holds t m
  | .appendSignal | .removeWait => isBack t m
  | .appendRelease | .removeRelease _ => isOut t m
  | _ => false

def Pc.calls : Pc α → Bool
  | .out | .appendList _ | .removeTest _ | .removeTake _ => false
  | _ => true

def Pc.after : Pc α → Pc α
  | .appendAcquire item => .appendList item
  | .removeAcquire => .removeTest false
  | .appendSignal => .appendRelease
  | .removeWait => .removeTest true
  | _ => .out

section moves
variable [DecidableEq τ]

/-- All a thread can do, with what the step has found. -/
inductive Moves (s : System τ α) (t : τ) : System τ α → Prop
  | fail : Fails s t → Moves s t s.abort
  | callAppend (item : α) : s.pc t = .out →
      Moves s t ((s.callAcquire t).goto t (.appendAcquire item))
  | callRemove : s.pc t = .out → Moves s t ((s.callAcquire t).goto t .removeAcquire)
  | inside (m : Condition.System τ) : Condition.run s.mon t = some m → (s.pc t).calls →
      (s.pc t).done t m = false → Moves s t { s with mon := m }
  | signalled (m : Condition.System τ) : s.pc t = .appendSignal → Condition.run s.mon t = some m →
      isBack t m → Moves s t (({ s with mon := m }.callRelease t).goto t .appendRelease)
  | ended (m : Condition.System τ) : s.pc t ≠ .appendSignal → Condition.run s.mon t = some m →
      (s.pc t).done t m → Moves s t ({ s with mon := m }.goto t (s.pc t).after)
  | append (item : α) : s.pc t = .appendList item → item ∉ s.list →
      Moves s t ({ s with list := s.list ++ [item], appended := s.appended ++ [item],
                          mon := s.mon.callSignal t }.goto t .appendSignal)
  | empty (back : Bool) : s.pc t = .removeTest back → s.list = [] →
      Moves s t ({ s with mon := s.mon.callWait t }.goto t .removeWait)
  | found (back : Bool) : s.pc t = .removeTest back → s.list ≠ [] →
      Moves s t (s.goto t (.removeTake back))
  | take (back : Bool) (item : α) (list : List α) : s.pc t = .removeTake back →
      s.list = item :: list → Moves s t
        (({ s with list := list, removed := s.removed ++ [item] }.callRelease t).goto t
          (.removeRelease item))

variable {s s' : System τ α} {t u : τ} {a : Act τ α}

theorem runMon_cases {done : Condition.System τ → Bool} {next : System τ α → System τ α}
    (h : runMon s t done next = some s') : ∃ m, Condition.run s.mon t = some m ∧
      ((done m ∧ s' = next { s with mon := m }) ∨ done m = false ∧ s' = { s with mon := m }) := by
  unfold runMon at h
  obtain ⟨m, hm, rfl⟩ := Option.map_eq_some_iff.mp h
  refine ⟨m, hm, ?_⟩
  by_cases hd : done m
  · exact .inl ⟨hd, if_pos hd⟩
  · exact .inr ⟨Bool.eq_false_iff.mpr hd, if_neg hd⟩

theorem moves_of_runMon (hne : s.pc t ≠ .appendSignal) (hcall : (s.pc t).calls)
    (h : runMon s t (fun m => (s.pc t).done t m) (·.goto t (s.pc t).after) = some s') :
    Moves s t s' := by
  obtain ⟨m, hm, ⟨hd, rfl⟩ | ⟨hd, rfl⟩⟩ := runMon_cases h
  · exact .ended m hne hm hd
  · exact .inside m hm hcall hd

variable [DecidableEq α]

theorem run_moves (h : run s t = some s') : Moves s t s' := by
  unfold run at h
  split at h
  · cases h
  · next item hp => exact moves_of_runMon (by simp [hp]) (by rw [hp]; rfl) (by rw [hp]; exact h)
  · next item hp =>
    rw [Option.some.injEq] at h
    split_ifs at h with hq <;> subst h
    · exact .fail (.append item hp hq)
    · exact .append item hp hq
  · next hp =>
    obtain ⟨m, hm, ⟨hd, rfl⟩ | ⟨hd, rfl⟩⟩ := runMon_cases h
    · exact .signalled m hp hm hd
    · exact .inside m hm (by rw [hp]; rfl) (by rw [hp]; exact hd)
  · next hp => exact moves_of_runMon (by simp [hp]) (by rw [hp]; rfl) (by rw [hp]; exact h)
  · next hp => exact moves_of_runMon (by simp [hp]) (by rw [hp]; rfl) (by rw [hp]; exact h)
  · next back hp =>
    rw [Option.some.injEq] at h
    split_ifs at h with hq <;> subst h
    · exact .empty back hp hq
    · exact .found back hp hq
  · next hp => exact moves_of_runMon (by simp [hp]) (by rw [hp]; rfl) (by rw [hp]; exact h)
  · next back hp =>
    split at h
    · next hq =>
      cases h
      exact .fail (.remove back hp hq)
    · next item list hq =>
      cases h
      exact .take back item list hp hq
  · next item hp => exact moves_of_runMon (by simp [hp]) (by rw [hp]; rfl) (by rw [hp]; exact h)

theorem step_moves (h : step s a = some s') : Moves s a.thread s' := by
  unfold step at h
  split_ifs at h
  cases a with
  | run t => exact run_moves h
  | append t item =>
    simp only [Option.ite_none_right_eq_some, Option.some.injEq] at h
    exact h.2 ▸ .callAppend item h.1
  | removeFront t =>
    simp only [Option.ite_none_right_eq_some, Option.some.injEq] at h
    exact h.2 ▸ .callRemove h.1

end moves

variable {s s' : System τ α} {t u : τ}

/-- What is the case for a thread at statement `p`: where it is in the condition and at the
lock, and what it knows of the list. -/
def LocalAt (p : Pc α) (q : Condition.Pc τ) (f : Lock.Phase) (list : List α) : Prop :=
  match p with
  | .out => q = .user ∧ f = .out
  | .appendAcquire _ | .removeAcquire => q = .user ∧ (f = .acquiring ∨ f = .passed)
  | .appendList _ | .removeTest _ => q = .user ∧ f = .held
  | .appendSignal => q.inSignal ∧ f = .held
  | .appendRelease | .removeRelease _ =>
      q = .user ∧ (f = .releasing ∨ f = .clearing ∨ f = .leaving)
  | .removeWait => q.waiting ∨ q.entering ∧ f = .held ∧ list = []
  | .removeTake _ => q = .user ∧ f = .held ∧ list ≠ []

/-- A producer between its `list->Append` and the end of its `Signal`, and a consumer between
its return from `Wait` and its `list->RemoveFront`. -/
def Pc.exposed : Pc α → Bool
  | .appendSignal | .removeTest true | .removeTake true => true
  | _ => false

/-- While anybody waits without a signal, there are as many signals on their way as items,
but for the one item of an exposed thread. -/
def Covered (s : System τ α) : Prop :=
  s.mon.tickets.released < s.mon.tickets.arrived →
    s.list.length + s.mon.tickets.returned.length ≤ s.mon.tickets.released ∨
      (∃ t, (s.pc t).exposed) ∧
        s.list.length + s.mon.tickets.returned.length ≤ s.mon.tickets.released + 1

structure Inv (s : System τ α) : Prop where
  mon : Condition.Inv s.mon
  running : s.aborted = false
  place : ∀ t, LocalAt (s.pc t) (s.mon.pc t) (s.mon.locks.phase t) s.list
  fifo : s.appended = s.removed ++ s.list
  covered : Covered s

theorem inv_start : Inv (start : System τ α) where
  mon := Condition.inv_start
  running := rfl
  place _ := ⟨rfl, rfl⟩
  fifo := rfl
  covered h := by cases h

theorem Inv.not_halted (h : Inv s) : halted s = false := by
  simp [halted, Condition.halted, h.running, h.mon.running, h.mon.locks.running]

theorem LocalAt.of_not_held {p : Pc α} {q : Condition.Pc τ} {f : Lock.Phase} {l l' : List α}
    (h : LocalAt p q f l) (hf : f ≠ .held) : LocalAt p q f l' := by
  cases p <;> simp_all [LocalAt]

theorem Inv.at (h : Inv s) {p : Pc α} (hp : s.pc t = p) :
    LocalAt p (s.mon.pc t) (s.mon.locks.phase t) s.list := hp ▸ h.place t

theorem Inv.held_of_exposed (h : Inv s) (ht : (s.pc t).exposed) :
    s.mon.locks.phase t = .held := by
  have hloc := h.place t
  cases hp : s.pc t <;> simp_all [LocalAt, Pc.exposed]

theorem Inv.tight (h : Inv s) (hf : s.mon.locks.phase t = .held) (hp : (s.pc t).exposed = false)
    (hw : s.mon.tickets.released < s.mon.tickets.arrived) :
    s.list.length + s.mon.tickets.returned.length ≤ s.mon.tickets.released := by
  refine (h.covered hw).resolve_right fun ⟨⟨u, hu⟩, _⟩ => ?_
  have hut : u = t := by
    by_contra hne
    exact h.mon.held_unique hf hne (h.held_of_exposed hu)
  rw [hut, hp] at hu
  cases hu

theorem returned_le {q : TicketQueue τ} (h : q.Ok) : q.returned.length ≤ q.released := by
  have := h.ncard_freed
  omega

variable [DecidableEq τ]

theorem inv_of (h : Inv s) (hmon : Condition.Inv s'.mon) (hrun : s'.aborted = s.aborted)
    (hpc : ∀ u ≠ t, s'.pc u = s.pc u)
    (hothers : ∀ u ≠ t, s'.mon.pc u = s.mon.pc u ∧ s'.mon.locks.phase u = s.mon.locks.phase u)
    (hlist : s'.list = s.list ∨ s.mon.locks.phase t = .held)
    (hself : LocalAt (s'.pc t) (s'.mon.pc t) (s'.mon.locks.phase t) s'.list)
    (hfifo : s'.appended = s'.removed ++ s'.list) (hcovered : Covered s') : Inv s' where
  mon := hmon
  running := hrun.trans h.running
  place u := by
    by_cases hu : u = t
    · exact hu ▸ hself
    · rw [hpc u hu, (hothers u hu).1, (hothers u hu).2]
      rcases hlist with hl | hf
      · exact hl ▸ h.place u
      · exact (h.place u).of_not_held (h.mon.held_unique hf hu)
  fifo := hfifo
  covered := hcovered

omit [DecidableEq τ] in
theorem covered_same (h : Covered s) (hlist : s'.list = s.list)
    (htickets : s'.mon.tickets = s.mon.tickets)
    (hpc : ∀ u, (s.pc u).exposed → (s'.pc u).exposed) : Covered s' := by
  unfold Covered
  rw [hlist, htickets]
  exact fun hw => (h hw).imp_right fun ⟨⟨u, hu⟩, hle⟩ => ⟨⟨u, hpc u hu⟩, hle⟩

omit [DecidableEq τ] in
theorem Inv.loose (h : Inv s) (hw : s.mon.tickets.released < s.mon.tickets.arrived) :
    s.list.length + s.mon.tickets.returned.length ≤ s.mon.tickets.released + 1 := by
  rcases h.covered hw with hle | ⟨-, hle⟩
  · exact Nat.le_succ_of_le hle
  · exact hle

theorem exposed_goto {p : Pc α} (hp : (s.pc t).exposed → p.exposed) (u : τ)
    (hu : (s.pc u).exposed) : ((s.goto t p).pc u).exposed := by
  by_cases hut : u = t
  · subst hut
    rw [System.goto_pc, Function.update_self]
    exact hp hu
  · rwa [System.goto_pc, Function.update_of_ne hut]

theorem inv_call (h : Inv s) (hp : s.pc t = .out) {p : Pc α}
    (hlocal : ∀ q f l, q = .user ∧ (f = .acquiring ∨ f = .passed) → LocalAt (τ := τ) p q f l) :
    Inv ((s.callAcquire t).goto t p) := by
  obtain ⟨hq, hf⟩ := h.at hp
  have hmoves : Condition.Moves s.mon t (s.mon.callAcquire t) := .lock _ hq (.call hf)
  refine inv_of h (Condition.inv_moves h.mon hmoves) rfl (fun u hu => Function.update_of_ne hu ..)
    (fun u hu => hmoves.others hu) (.inl rfl) ?_ h.fifo
    (covered_same h.covered rfl rfl (exposed_goto (by simp [hp, Pc.exposed])))
  rw [System.goto_pc, Function.update_self]
  exact hlocal _ _ _ ⟨hq, .inl (Lock.goto_phase_self ..)⟩

theorem inv_inside (h : Inv s) {m : Condition.System τ} (hm : Condition.run s.mon t = some m)
    (hcall : (s.pc t).calls) (hd : (s.pc t).done t m = false) : Inv { s with mon := m } := by
  have hmoves := Condition.run_moves hm
  have hinv := Condition.inv_moves h.mon hmoves
  suffices hself : LocalAt (s.pc t) (m.pc t) (m.locks.phase t) s.list ∧
      Covered { s with mon := m } from
    inv_of h hinv rfl (fun _ _ => rfl) (fun u hu => hmoves.others hu) (.inl rfl) hself.1 h.fifo
      hself.2
  -- statements that arrive nowhere and release nobody leave the signals as they are
  have hsame : m.tickets = s.mon.tickets → Covered { s with mon := m } := fun ht =>
    covered_same h.covered rfl ht fun _ hu => hu
  cases hp : s.pc t with
  | out | appendList _ | removeTest _ | removeTake _ =>
    rw [hp] at hcall
    cases hcall
  | appendAcquire _ | removeAcquire =>
    rw [hp] at hd
    obtain ⟨hq, hf⟩ := h.at hp
    obtain ⟨l, hl, rfl⟩ := Condition.run_user hq hm
    exact ⟨⟨hq, hl.acquiring hf (of_decide_eq_false hd)⟩, hsame rfl⟩
  | appendRelease | removeRelease _ =>
    rw [hp] at hd
    obtain ⟨hq, hf⟩ := h.at hp
    obtain ⟨l, hl, rfl⟩ := Condition.run_user hq hm
    exact ⟨⟨hq, hl.releasing hf (of_decide_eq_false hd)⟩, hsame rfl⟩
  | appendSignal =>
    rw [hp] at hd
    rcases h.mon.run_signal (h.at hp).1 hm with ⟨hsig, ht⟩ | ⟨huser, -⟩
    · exact ⟨⟨hsig, hinv.held_of_inSignal hsig⟩, hsame ht⟩
    · simp [Pc.done, isBack, huser] at hd
  | removeWait =>
    rw [hp] at hd
    have hloc := h.at hp
    have hwait : (s.mon.pc t).entering ∨ (s.mon.pc t).waiting := hloc.symm.imp_left And.left
    rcases h.mon.run_wait hwait hm with ⟨he, he', hf, ht⟩ | ⟨he, hw', ht⟩ | ⟨-, hw', ht⟩ |
        ⟨-, huser, -⟩
    · refine ⟨.inr ⟨he', hf, ?_⟩, hsame ht⟩
      rcases hloc with hw | hl
      · exact absurd hw (Condition.Pc.not_waiting_of_entering he)
      · exact hl.2.2
    · -- it has found the list empty and kept the lock, so the list is empty still
      have hnil : s.list = [] := by
        rcases hloc with hw | hl
        · exact absurd hw (Condition.Pc.not_waiting_of_entering he)
        · exact hl.2.2
      refine ⟨.inl hw', fun _ => .inl ?_⟩
      have hle := returned_le hinv.tickets
      rw [show ({ s with mon := m } : System τ α).list = [] from hnil]
      simpa using hle
    · exact ⟨.inl hw', hsame ht⟩
    · simp [Pc.done, isBack, huser] at hd

theorem inv_signalled (h : Inv s) {m : Condition.System τ} (hp : s.pc t = .appendSignal)
    (hm : Condition.run s.mon t = some m) (hd : isBack t m) :
    Inv (({ s with mon := m }.callRelease t).goto t .appendRelease) := by
  have hmoves := Condition.run_moves hm
  have hinv := Condition.inv_moves h.mon hmoves
  rcases h.mon.run_signal (h.at hp).1 hm with ⟨hsig, -⟩ | ⟨huser, hf, htickets⟩
  · rw [isBack_iff.mp hd] at hsig
    cases hsig
  · have hmoves' : Condition.Moves m t (m.callRelease t) := .lock _ huser (.callRelease hf)
    refine inv_of h (Condition.inv_moves hinv hmoves') rfl (fun u hu => Function.update_of_ne hu ..)
      (fun u hu => ?_) (.inl rfl) ?_ h.fifo ?_
    · obtain ⟨hpc, hphase⟩ := hmoves.others hu
      obtain ⟨hpc', hphase'⟩ := hmoves'.others hu
      exact ⟨hpc'.trans hpc, hphase'.trans hphase⟩
    · rw [System.goto_pc, Function.update_self]
      exact ⟨huser, .inl (Lock.goto_phase_self ..)⟩
    · intro hw
      have hw : m.tickets.released < m.tickets.arrived := hw
      show s.list.length + m.tickets.returned.length ≤ m.tickets.released ∨ _
      rcases htickets with ⟨ht, hall⟩ | ⟨hr, ha, hk⟩
      · rw [ht] at hw
        omega
      · have hle := h.loose (by omega)
        left
        rw [hk, hr]
        exact hle

theorem inv_ended (h : Inv s) {m : Condition.System τ} (hne : s.pc t ≠ .appendSignal)
    (hm : Condition.run s.mon t = some m) (hd : (s.pc t).done t m) :
    Inv ({ s with mon := m }.goto t (s.pc t).after) := by
  have hmoves := Condition.run_moves hm
  have hinv := Condition.inv_moves h.mon hmoves
  -- the other threads do not notice; what is left is the thread itself and the count of signals
  suffices hself : LocalAt (s.pc t).after (m.pc t) (m.locks.phase t) s.list ∧
      Covered ({ s with mon := m }.goto t (s.pc t).after) by
    refine inv_of h hinv rfl (fun u hu => Function.update_of_ne hu ..)
      (fun u hu => hmoves.others hu) (.inl rfl) ?_ h.fifo hself.2
    rw [System.goto_pc, Function.update_self]
    exact hself.1
  cases hp : s.pc t with
  | out | appendList _ | removeTest _ | removeTake _ =>
    rw [hp] at hd
    cases hd
  | appendSignal => exact absurd hp hne
  | appendAcquire _ | removeAcquire =>
    rw [hp] at hd
    obtain ⟨hq, hf⟩ := h.at hp
    obtain ⟨l, hl, rfl⟩ := Condition.run_user hq hm
    exact ⟨⟨hq, of_decide_eq_true hd⟩, covered_same h.covered rfl rfl
      (exposed_goto (by simp [hp, Pc.exposed]))⟩
  | appendRelease | removeRelease _ =>
    rw [hp] at hd
    obtain ⟨hq, hf⟩ := h.at hp
    obtain ⟨l, hl, rfl⟩ := Condition.run_user hq hm
    exact ⟨⟨hq, of_decide_eq_true hd⟩, covered_same h.covered rfl rfl
      (exposed_goto (by simp [hp, Pc.exposed]))⟩
  | removeWait =>
    rw [hp] at hd
    have huser := isBack_iff.mp hd
    have hwait : (s.mon.pc t).entering ∨ (s.mon.pc t).waiting := (h.at hp).symm.imp_left And.left
    rcases h.mon.run_wait hwait hm with ⟨-, he', -⟩ | ⟨-, hw', -⟩ | ⟨-, hw', -⟩ |
        ⟨hdel, -, hf, ht⟩
    · rw [huser] at he'
      cases he'
    · rw [huser] at hw'
      cases hw'
    · rw [huser] at hw'
      cases hw'
    · -- one signal less is on its way, and the thread itself is exposed now
      refine ⟨⟨huser, hf⟩,
        fun hw => .inr ⟨⟨t, by rw [System.goto_pc, Function.update_self]; rfl⟩, ?_⟩⟩
      have hw : m.tickets.released < m.tickets.arrived := hw
      rw [ht] at hw
      have hle := h.tight (h.mon.at hdel).1 (by rw [hp]; rfl) hw
      show s.list.length + m.tickets.returned.length ≤ m.tickets.released + 1
      rw [ht]
      show s.list.length + (s.mon.tickets.returned.length + 1) ≤ s.mon.tickets.released + 1
      omega

theorem inv_append (h : Inv s) {item : α} (hp : s.pc t = .appendList item) :
    Inv (({ s with list := s.list ++ [item], appended := s.appended ++ [item],
                   mon := s.mon.callSignal t } : System τ α).goto t .appendSignal) := by
  obtain ⟨hq, hf⟩ := h.at hp
  have hmoves : Condition.Moves s.mon t (s.mon.callSignal t) := .callSignal hq hf
  refine inv_of h (Condition.inv_moves h.mon hmoves) rfl (fun u hu => Function.update_of_ne hu ..)
    (fun u hu => hmoves.others hu) (.inr hf) ?_ ?_ ?_
  · rw [System.goto_pc, Function.update_self]
    refine ⟨?_, hf⟩
    show ((s.mon.callSignal t).pc t).inSignal
    rw [show (s.mon.callSignal t).pc t = _ from Function.update_self ..]
    rfl
  · show s.appended ++ [item] = s.removed ++ (s.list ++ [item])
    rw [h.fifo, List.append_assoc]
  · intro hw
    have hle := h.tight hf (by rw [hp]; rfl) hw
    refine .inr ⟨⟨t, by rw [System.goto_pc, Function.update_self]; rfl⟩, ?_⟩
    show (s.list ++ [item]).length + s.mon.tickets.returned.length ≤ s.mon.tickets.released + 1
    rw [List.length_append, List.length_singleton]
    omega

theorem inv_empty (h : Inv s) {back : Bool} (hp : s.pc t = .removeTest back) (hl : s.list = []) :
    Inv (({ s with mon := s.mon.callWait t } : System τ α).goto t .removeWait) := by
  obtain ⟨hq, hf⟩ := h.at hp
  have hmoves : Condition.Moves s.mon t (s.mon.callWait t) := .callWait hq hf
  refine inv_of h (Condition.inv_moves h.mon hmoves) rfl (fun u hu => Function.update_of_ne hu ..)
    (fun u hu => hmoves.others hu) (.inl rfl) ?_ h.fifo fun _ => .inl ?_
  · rw [System.goto_pc, Function.update_self]
    refine .inr ⟨?_, hf, hl⟩
    show ((s.mon.callWait t).pc t).entering
    rw [show (s.mon.callWait t).pc t = _ from Function.update_self ..]
    rfl
  · have hle := returned_le h.mon.tickets
    show s.list.length + s.mon.tickets.returned.length ≤ s.mon.tickets.released
    rw [hl]
    simpa using hle

theorem inv_take (h : Inv s) {back : Bool} {item : α} {list : List α}
    (hp : s.pc t = .removeTake back) (hl : s.list = item :: list) :
    Inv ((({ s with list := list, removed := s.removed ++ [item] } : System τ α).callRelease t).goto
      t (.removeRelease item)) := by
  obtain ⟨hq, hf, -⟩ := h.at hp
  have hmoves : Condition.Moves s.mon t (s.mon.callRelease t) := .lock _ hq (.callRelease hf)
  refine inv_of h (Condition.inv_moves h.mon hmoves) rfl (fun u hu => Function.update_of_ne hu ..)
    (fun u hu => hmoves.others hu) (.inr hf) ?_ ?_ fun hw => .inl ?_
  · rw [System.goto_pc, Function.update_self]
    exact ⟨hq, .inl (Lock.goto_phase_self ..)⟩
  · show s.appended = (s.removed ++ [item]) ++ list
    rw [h.fifo, hl, List.append_assoc]
    rfl
  · have hle := h.loose hw
    rw [hl, List.length_cons] at hle
    show list.length + s.mon.tickets.returned.length ≤ s.mon.tickets.released
    omega

theorem inv_moves (h : Inv s) (hfresh : ∀ item, s.pc t = .appendList item → item ∉ s.list)
    (hm : Moves s t s') : Inv s' := by
  cases hm with
  | fail hf =>
    cases hf with
    | append item hp hmem => exact absurd hmem (hfresh item hp)
    | remove back hp hl => exact absurd hl (h.at hp).2.2
  | callAppend item hp => exact inv_call h hp fun _ _ _ hqf => hqf
  | callRemove hp => exact inv_call h hp fun _ _ _ hqf => hqf
  | inside m hm hcall hd => exact inv_inside h hm hcall hd
  | signalled m hp hm hd => exact inv_signalled h hp hm hd
  | ended m hne hm hd => exact inv_ended h hne hm hd
  | append item hp _ => exact inv_append h hp
  | empty back hp hl => exact inv_empty h hp hl
  | found back hp hl =>
    obtain ⟨hq, hf⟩ := h.at hp
    refine inv_of h h.mon rfl (fun u hu => Function.update_of_ne hu ..) (fun _ _ => ⟨rfl, rfl⟩)
      (.inl rfl) ?_ h.fifo (covered_same h.covered rfl rfl (exposed_goto ?_))
    · rw [System.goto_pc, Function.update_self]
      exact ⟨hq, hf, hl⟩
    · rw [hp]
      cases back <;> exact id
  | take back item list hp hl => exact inv_take h hp hl

variable [DecidableEq α] {a : Act τ α}

theorem inv_step (h : Inv s) (hfresh : Fresh s a) (hs : step s a = some s') : Inv s' := by
  have hm := step_moves hs
  cases a with
  | run t =>
    exact inv_moves h (fun item hp => hfresh item (by rw [show s.pc t = _ from hp]; rfl)) hm
  | append t item =>
    simp only [step, Option.ite_none_left_eq_some, Option.ite_none_right_eq_some] at hs
    exact inv_moves h (fun item' hp => by rw [show s.pc t = _ from hp] at hs; cases hs.2.1) hm
  | removeFront t =>
    simp only [step, Option.ite_none_left_eq_some, Option.ite_none_right_eq_some] at hs
    exact inv_moves h (fun item' hp => by rw [show s.pc t = _ from hp] at hs; cases hs.2.1) hm

theorem inv_reach (h : Reach step Fresh (start : System τ α) s) : Inv s :=
  h.invariant inv_start fun _ _ _ hi hok hs => inv_step hi hok hs

/-- In every interleaving: the items come off the list in the order in which they were put
on it, none lost and none twice; no statement fails, so none takes an item off an empty
list; and while a consumer waits without a signal, there are no more items than consumers
with a signal that are not back yet, one more being possible as long as a thread is between
its `list->Append` and the end of its `Signal` or between its return from `Wait` and its
`list->RemoveFront`. -/
theorem synchList_fifo (h : Reach step Fresh (start : System τ α) s) :
    s.appended = s.removed ++ s.list ∧ halted s = false ∧
      ∀ u, Condition.Unsignalled s.mon u →
        s.list.length ≤ {v | Condition.Signalled s.mon v}.ncard ∨
          (∃ t, (s.pc t).exposed) ∧
            s.list.length ≤ {v | Condition.Signalled s.mon v}.ncard + 1 := by
  have hi := inv_reach h
  have hcount : {v | Condition.Signalled s.mon v}.ncard + s.mon.tickets.returned.length =
      s.mon.tickets.released := by
    rw [← hi.mon.tickets.ncard_freed]
    simp only [hi.mon.signalled_iff]
  refine ⟨hi.fifo, hi.not_halted, fun u hu => ?_⟩
  · have hticket := hi.mon.tickets.ticket_of_inLine (hi.mon.unsignalled_iff.mp hu)
    rcases hi.covered (by omega) with hle | ⟨he, hle⟩
    · left
      omega
    · exact .inr ⟨he, by omega⟩

/-- Consumers 1 and 3 wait, and producer 2 has put 7 on the list and signalled: consumer 3
has no signal, and the one item is covered by the one of consumer 1. -/
theorem synchList_fifo_signalled : ∃ s : System ℕ ℕ, Reach step Fresh start s ∧ s.list = [7] ∧
    Condition.Unsignalled s.mon 3 ∧ s.appended = s.removed ++ s.list ∧
      (s.list.length ≤ {v | Condition.Signalled s.mon v}.ncard ∨ (∃ t, (s.pc t).exposed) ∧
        s.list.length ≤ {v | Condition.Signalled s.mon v}.ncard + 1) := by
  have hrun : (exec step Fresh (start : System ℕ ℕ) [.removeFront 1, .run 1, .run 1, .run 1, .run 1,
      .run 1, .run 1, .run 1, .run 1, .run 1, .run 1, .removeFront 3, .run 3, .run 3, .run 3,
      .run 3, .run 3, .run 3, .run 3, .run 3, .run 3, .run 3, .append 2 7, .run 2, .run 2, .run 2,
      .run 2, .run 2, .run 2, .run 2]).map (fun s => (s.list, s.mon.tickets.stage 3)) =
        some ([7], .inLine) := by
    decide +kernel
  obtain ⟨s, hs, hfacts⟩ := Option.map_eq_some_iff.mp hrun
  have hr : Reach step Fresh start s := reach_of_exec _ hs
  have hu := (inv_reach hr).mon.unsignalled_iff.mpr (congrArg Prod.snd hfacts)
  exact ⟨s, hr, congrArg Prod.fst hfacts, hu, (synchList_fifo hr).1, (synchList_fifo hr).2.2 3 hu⟩

/-- Consumer 1 waits; producer 2 has put its item on the list and not signalled yet. -/
theorem item_before_its_signal : ∃ s : System ℕ ℕ, Reach step Fresh start s ∧
    Condition.Unsignalled s.mon 1 ∧ {v | Condition.Signalled s.mon v}.ncard < s.list.length := by
  have hrun : (exec step Fresh (start : System ℕ ℕ) [.removeFront 1, .run 1, .run 1, .run 1, .run 1,
      .run 1, .run 1, .run 1, .run 1, .run 1, .run 1, .append 2 7, .run 2, .run 2, .run 2]).map
        (fun s => (s.list, s.mon.tickets.released, s.mon.tickets.stage 1)) =
      some ([7], 0, .inLine) := by
    decide +kernel
  obtain ⟨s, hs, hfacts⟩ := Option.map_eq_some_iff.mp hrun
  have hi := inv_reach (reach_of_exec _ hs)
  simp only [Prod.mk.injEq] at hfacts
  obtain ⟨hlist, hreleased, hstage⟩ := hfacts
  refine ⟨s, reach_of_exec _ hs, hi.mon.unsignalled_iff.mpr hstage, ?_⟩
  have hcount := hi.mon.tickets.ncard_freed
  simp only [hi.mon.signalled_iff, hlist, List.length_singleton]
  omega

/-- How far a call has come: whether its item is on the list, or which one it has taken off. -/
inductive Progress (α : Type*) where
  | out
  | adding (item : α)
  | added
  | removing
  | removed (item : α)
  deriving DecidableEq, Repr

def Pc.progress : Pc α → Progress α
  | .out => .out
  | .appendAcquire item | .appendList item => .adding item
  | .appendSignal | .appendRelease => .added
  | .removeAcquire | .removeTest _ | .removeWait | .removeTake _ => .removing
  | .removeRelease item => .removed item

/-- What one statement of a call does to the list: nothing, or the one thing the call is for. -/
inductive Effect (s : System τ α) (t : τ) (s' : System τ α) : Prop
  | same : (s'.pc t).progress = (s.pc t).progress → s'.appended = s.appended →
      s'.removed = s.removed → Effect s t s'
  | append (item : α) : (s.pc t).progress = .adding item → (s'.pc t).progress = .added →
      s'.appended = s.appended ++ [item] → s'.removed = s.removed → Effect s t s'
  | remove (item : α) : (s.pc t).progress = .removing → (s'.pc t).progress = .removed item →
      s'.appended = s.appended → s'.removed = s.removed ++ [item] → Effect s t s'
  | ended : ((s.pc t).progress = .added ∨ ∃ item, (s.pc t).progress = .removed item) →
      (s'.pc t).progress = .out → s'.appended = s.appended → s'.removed = s.removed → Effect s t s'

omit [DecidableEq α] in
theorem Moves.pc_other (h : Moves s t s') (hu : u ≠ t) : s'.pc u = s.pc u := by
  cases h with
  | fail _ | inside _ _ _ _ => rfl
  | _ => exact Function.update_of_ne hu ..

omit [DecidableEq α] in
theorem Moves.effect (h : Moves s t s') (hne : s.pc t ≠ .out) : Effect s t s' := by
  cases h with
  | fail _ => exact .same rfl rfl rfl
  | callAppend item hp => exact absurd hp hne
  | callRemove hp => exact absurd hp hne
  | inside m hm hcall hd => exact .same rfl rfl rfl
  | signalled m hp hm hd =>
    refine .same ?_ rfl rfl
    rw [System.goto_pc, Function.update_self, hp]
    rfl
  | ended m hsig hm hd =>
    cases hp : s.pc t with
    | out => exact absurd hp hne
    | appendSignal => exact absurd hp hsig
    | appendList _ | removeTest _ | removeTake _ =>
      rw [hp] at hd
      cases hd
    | appendAcquire _ | removeAcquire | removeWait =>
      refine .same ?_ rfl rfl
      rw [System.goto_pc, Function.update_self, hp]
      rfl
    | appendRelease =>
      refine .ended (.inl (by rw [hp]; rfl)) ?_ rfl rfl
      rw [System.goto_pc, Function.update_self]
      rfl
    | removeRelease item =>
      refine .ended (.inr ⟨item, by rw [hp]; rfl⟩) ?_ rfl rfl
      rw [System.goto_pc, Function.update_self]
      rfl
  | append item hp hmem =>
    refine .append item (by rw [hp]; rfl) ?_ rfl rfl
    rw [System.goto_pc, Function.update_self]
    rfl
  | empty back hp hl | found back hp hl =>
    refine .same ?_ rfl rfl
    rw [System.goto_pc, Function.update_self, hp]
    rfl
  | take back item list hp hl =>
    refine .remove item (by rw [hp]; rfl) ?_ rfl rfl
    rw [System.goto_pc, Function.update_self]
    rfl

/-- What the caller of a list may count on after a step of its thread. -/
structure After (s : System τ α) (t : τ) (s' : System τ α) : Prop where
  inv : Inv s'
  others : ∀ u ≠ t, s'.pc u = s.pc u

theorem after_step (h : Inv s) (hfresh : Fresh s a) (hs : step s a = some s') :
    After s a.thread s' :=
  ⟨inv_step h hfresh hs, fun _ hu => (step_moves hs).pc_other hu⟩

theorem append_spec (h : Inv s) {item : α} (hs : step s (.append t item) = some s') :
    After s t s' ∧ (s'.pc t).progress = .adding item ∧ s'.appended = s.appended ∧
      s'.removed = s.removed := by
  refine ⟨after_step (a := .append t item) h trivial hs, ?_⟩
  simp only [step, Option.ite_none_left_eq_some, Option.ite_none_right_eq_some,
    Option.some.injEq] at hs
  rw [← hs.2.2, System.goto_pc, Function.update_self]
  exact ⟨rfl, rfl, rfl⟩

theorem removeFront_spec (h : Inv s) (hs : step s (.removeFront t) = some s') :
    After s t s' ∧ (s'.pc t).progress = .removing ∧ s'.appended = s.appended ∧
      s'.removed = s.removed := by
  refine ⟨after_step (a := .removeFront t) h trivial hs, ?_⟩
  simp only [step, Option.ite_none_left_eq_some, Option.ite_none_right_eq_some,
    Option.some.injEq] at hs
  rw [← hs.2.2, System.goto_pc, Function.update_self]
  exact ⟨rfl, rfl, rfl⟩

theorem run_spec (h : Inv s) (hfresh : ∀ item, (s.pc t).progress = .adding item → item ∉ s.list)
    (hs : step s (.run t) = some s') : After s t s' ∧ Effect s t s' := by
  have hnew : Fresh s (.run t) := by
    intro item hitem
    apply hfresh
    cases hp : s.pc t <;> rw [hp] at hitem <;> cases hitem
    rfl
  refine ⟨after_step h hnew hs, (step_moves hs).effect fun hout => ?_⟩
  simp only [step, Option.ite_none_left_eq_some, run] at hs
  rw [show s.pc t = .out from hout] at hs
  cases hs.2

end SynchList
end Nachos
