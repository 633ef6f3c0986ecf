import Nachos.Lib.Programs
import Nachos.Scheduler

namespace Nachos.Scheduler
open Programs (except_bind_ok)

namespace State
variable {s s₁ s' : State} {t : Addr} {θ : Thread}

/-- What an action does to the ready list: threads are appended, and if the processor changes
hands, the first one gets it. -/
inductive Serves (s s' : State) : Prop
  | keeps (added : List Addr) : s'.readyList = s.readyList ++ added → s'.mode ≠ .switched →
      Serves s s'
  | hands (rest added : List Addr) : s.readyList = s'.currentThread :: rest →
      s'.readyList = rest ++ added → s'.mode = .switched → Serves s s'

/-- The thread that gets the processor in a step. -/
def dispatched (s s' : State) : List Addr :=
  if s.mode ≠ .switched ∧ s'.mode = .switched then [s'.currentThread] else []

/-- A run of the actions, with the threads that get the processor in it. -/
def play (s : State) : List Act → Option (List Addr × State)
  | [] => some ([], s)
  | a :: as => do
    let s' ← s.step a
    let (ds, s'') ← s'.play as
    return (s.dispatched s' ++ ds, s'')

theorem Serves.of_list (h : Serves s₁ s') (hl : s₁.readyList = s.readyList) : Serves s s' := by
  cases h with
  | keeps added hl' hm => exact .keeps added (hl ▸ hl') hm
  | hands rest added hl' hl'' hm => exact .hands rest added (hl ▸ hl') hl'' hm

theorem serves_same (hl : s'.readyList = s.readyList) (hm : s'.mode ≠ .switched) : Serves s s' :=
  .keeps [] (by rw [hl, List.append_nil]) hm

theorem readyToRun_appends (h : s.readyToRun t = .ok s') :
    s'.readyList = s.readyList ++ [t] ∧ s'.mode = s.mode := by
  obtain ⟨θ, -, h⟩ := except_bind_ok h
  obtain ⟨l, hl, h⟩ := except_bind_ok h
  obtain rfl := Except.ok.inj h
  unfold append at hl
  split_ifs at hl
  exact ⟨(Except.ok.inj hl).symm, rfl⟩

theorem run_hands {n : Addr} {b : Bool} (h : s.run n b = .ok s') :
    s'.readyList = s.readyList ∧ s'.currentThread = n ∧ s'.mode = .switched := by
  unfold run at h
  dsimp only at h
  split at h
  · cases h
  · obtain ⟨θ, -, h⟩ := except_bind_ok h
    obtain ⟨ν, -, h⟩ := except_bind_ok h
    obtain rfl := Except.ok.inj h
    exact ⟨rfl, rfl, rfl⟩

theorem sleepLoop_serves {b : Bool} (h : s.sleepLoop b = .ok s') : Serves s s' := by
  unfold sleepLoop findNextToRun at h
  cases hl : s.readyList with
  | nil =>
    simp only [hl] at h
    obtain rfl := Except.ok.inj h
    exact serves_same hl.symm nofun
  | cons n rest =>
    simp only [hl] at h
    obtain ⟨hlist, hcurrent, hm⟩ := run_hands h
    exact .hands rest [] (by rw [hl, hcurrent]) (by rw [hlist, List.append_nil]) hm

theorem sleep_serves {b : Bool} (h : s.sleep b = .ok s') : Serves s s' := by
  obtain ⟨θ, -, h⟩ := except_bind_ok h
  exact (sleepLoop_serves h).of_list rfl

theorem finish_serves (h : s.finish t = .ok s') : Serves s s' := by
  unfold finish at h
  split_ifs at h
  obtain ⟨θ, -, h⟩ := except_bind_ok h
  exact (sleep_serves h).of_list rfl

theorem callV_serves {σ : Addr} (hm : s.mode ≠ .switched) (h : s.callV σ = .ok s') :
    Serves s s' := by
  unfold callV at h
  split at h
  · cases h
  · dsimp only at h
    split at h
    · obtain rfl := Except.ok.inj h
      exact serves_same rfl hm
    · obtain ⟨hl, hm'⟩ := readyToRun_appends h
      exact .keeps _ hl (hm' ▸ hm)

theorem testP_serves {σ : Addr} (h : s.testP σ = .ok s') : Serves s s' := by
  unfold testP at h
  split at h
  · cases h
  · obtain ⟨θ, -, h⟩ := except_bind_ok h
    dsimp only at h
    split_ifs at h
    · obtain rfl := Except.ok.inj h
      exact serves_same rfl nofun
    · obtain ⟨queue, -, h⟩ := except_bind_ok h
      exact (sleep_serves h).of_list rfl

theorem yield_serves (hm : s.mode ≠ .switched) (h : s.yield = .ok s') : Serves s s' := by
  unfold yield findNextToRun at h
  cases hl : s.readyList with
  | nil =>
    simp only [hl] at h
    obtain rfl := Except.ok.inj h
    exact serves_same rfl hm
  | cons n rest =>
    simp only [hl] at h
    obtain ⟨θ, -, h⟩ := except_bind_ok h
    obtain ⟨s₁, hready, h⟩ := except_bind_ok h
    obtain ⟨hlist, hcurrent, hm'⟩ := run_hands h
    exact .hands rest _ (by rw [hl, hcurrent]) (hlist.trans (readyToRun_appends hready).1) hm'

theorem remove_serves {id : Int} (hm : s.mode ≠ .switched) (h : s.remove id = .ok s') :
    Serves s s' := by
  unfold remove at h
  split at h
  · obtain rfl := Except.ok.inj h
    exact serves_same rfl hm
  · obtain ⟨υ, -, h⟩ := except_bind_ok h
    obtain ⟨θ, -, h⟩ := except_bind_ok h
    split_ifs at h
    · exact (finish_serves h).of_list rfl
    · obtain rfl := Except.ok.inj h
      exact serves_same rfl hm

theorem act_serves {a : Act} (hm : s.mode = .running) (h : s.act θ a = some (.ok s')) :
    Serves s s' := by
  have hm' : s.mode ≠ .switched := by rw [hm]; nofun
  cases a <;> simp only [act, Option.ite_none_right_eq_some, Option.ite_none_left_eq_some,
    Option.some.injEq, reduceCtorEq] at h
  case fork t =>
    obtain ⟨φ, -, h⟩ := except_bind_ok h.2
    obtain ⟨hl, hready⟩ := readyToRun_appends h
    exact .keeps _ hl (hready ▸ hm')
  case yield => exact yield_serves hm' h
  case callP => exact testP_serves h.2
  case callV => exact callV_serves hm' h.2
  case finish => exact finish_serves h.2
  case exit => exact remove_serves hm' h.2
  case execute =>
    obtain ⟨φ, -, h⟩ := except_bind_ok h.2
    cases h
    exact serves_same rfl hm'
  all_goals
    obtain ⟨-, h⟩ := h
    cases h
    exact serves_same rfl hm'

theorem interruptAct_serves {a : Act} (hm : s.mode ≠ .switched)
    (h : s.interruptAct a = some (.ok s')) : Serves s s' := by
  cases a <;> simp only [interruptAct, Option.ite_none_left_eq_some, Option.some.injEq,
    reduceCtorEq] at h
  case interrupt =>
    cases h
    exact serves_same rfl hm
  case handlerV => exact callV_serves hm h.2

theorem resume_list (h : s.resume = .ok s') :
    s'.readyList = s.readyList ∧ s'.mode ≠ .switched := by
  obtain ⟨θ, -, h⟩ := except_bind_ok h
  obtain ⟨s₁, hcheck, h⟩ := except_bind_ok h
  have hlist : s₁.readyList = s.readyList := by
    unfold checkToBeDestroyed at hcheck
    repeat' split at hcheck
    all_goals cases hcheck
    all_goals rfl
  split at h <;> cases h <;> exact ⟨hlist, nofun⟩

theorem Serves.queue (h : Serves s s') (hm : s.mode = .switched → s'.mode ≠ .switched) :
    s.readyList <+: s.dispatched s' ++ s'.readyList := by
  unfold dispatched
  cases h with
  | keeps added hl hm' => exact ⟨added, by rw [if_neg (fun hand => hm' hand.2), hl]; rfl⟩
  | hands rest added hl hl' hm' =>
    refine ⟨added, ?_⟩
    rw [if_pos ⟨fun hs => hm hs hm', hm'⟩, hl, hl']
    rfl

theorem next_queue {a : Act} (h : s.next θ a = some (.ok s')) :
    s.readyList <+: s.dispatched s' ++ s'.readyList := by
  unfold next at h
  cases hm : s.mode with
  | running =>
    simp only [hm] at h
    refine Serves.queue ?_ (by simp [hm])
    rcases Option.or_eq_some_iff.mp h with h | ⟨-, h⟩
    · exact interruptAct_serves (by simp [hm]) h
    · exact act_serves hm h
  | idling =>
    simp only [hm] at h
    refine Serves.queue ?_ (by simp [hm])
    split at h
    · exact sleepLoop_serves (Option.some.inj h)
    · exact interruptAct_serves (by simp [hm]) h
  | switched =>
    simp only [hm] at h
    split at h
    · obtain ⟨hl, hm'⟩ := resume_list (Option.some.inj h)
      exact (serves_same hl hm').queue fun _ => hm'
    · cases h
  | testing =>
    simp only [hm] at h
    refine Serves.queue ?_ (by simp [hm])
    split at h
    · exact testP_serves (Option.some.inj h)
    · cases h

theorem step_queue {a : Act} (h : s.step a = some s') :
    s.readyList <+: s.dispatched s' ++ s'.readyList := by
  unfold step at h
  split at h
  · cases h
  · split at h
    · cases h
    · obtain ⟨r, hr, rfl⟩ := Option.map_eq_some_iff.mp h
      cases r with
      | error f => simp [dispatched]
      | ok s₁ => exact next_queue hr

/-- Whatever happens, the threads of the ready list get the processor in their order and before
all others, or are still waiting in that order. -/
theorem threads_run_in_order {as : List Act} {ds : List Addr} (h : s.play as = some (ds, s')) :
    s.readyList <+: ds ++ s'.readyList := by
  induction as generalizing s ds with
  | nil =>
    cases h
    exact List.prefix_rfl
  | cons a as ih =>
    obtain ⟨s₁, hs, h⟩ := Option.bind_eq_some_iff.mp h
    obtain ⟨r, hplay, h⟩ := Option.bind_eq_some_iff.mp h
    cases h
    calc s.readyList <+: s.dispatched s₁ ++ s₁.readyList := step_queue hs
      _ <+: s.dispatched s₁ ++ (r.1 ++ r.2.readyList) :=
        (List.prefix_append_right_inj _).mpr (ih hplay)
      _ = s.dispatched s₁ ++ r.1 ++ r.2.readyList := (List.append_assoc ..).symm

/-- The main thread forks two others and yields. -/
theorem forked_threads_run_in_order : ∃ s ds s', (init 1 128 fun _ => 0).play
      [.newThread 2 0 fun _ => 0, .fork 2, .newThread 3 0 fun _ => 0, .fork 3] = some ([], s) ∧
    s.readyList = [2, 3] ∧ s.play [.yield, .resume] = some (ds, s') ∧
    s.readyList <+: ds ++ s'.readyList :=
  ⟨_, _, _, rfl, rfl, rfl, @threads_run_in_order _ _ [.yield, .resume] _ rfl⟩

end State
end Nachos.Scheduler
