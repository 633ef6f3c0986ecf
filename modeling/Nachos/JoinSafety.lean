import Nachos.ProcessTree

namespace Nachos.PTable
open GuardedRun

def Phase.joins : Phase → Option Int
  | .joining id | .waiting id _ | .collecting id | .releasing id _ _ => some id
  | _ => none

def Phase.fetched : Phase → Option Addr
  | .waiting _ a | .releasing _ a _ => some a
  | _ => none

def Phase.sleeps : Phase → Bool
  | .waiting _ _ | .leavingAt _ => true
  | _ => false

def PC.returning : PC → Option Int
  | .joinRet id _ => some id
  | _ => none

/-- The pid in a `JoinUpdate` that is past the validity check. -/
def PC.joinOf : PC → Option Int
  | .joinMutex id _ | .joinInc id _ | .joinWait id | .joinP id _ | .joinRead id
  | .joinV id _ _ | .joinRet id _ => some id
  | _ => none

theorem PC.joinOf_cases {pc : PC} {id : Int} (h : pc.joinOf = some id) :
    pc.phase.joins = some id ∨ ∃ e, pc.phase = .joined id e := by
  cases pc <;> simp_all [PC.joinOf, PC.phase, Phase.joins]

namespace Core

/-- Thread `t` of process `p` is entitled to the process `a` in slot `id`. -/
structure Joiner (c : Core) (t : Addr) (p id : Int) (a : Addr) : Prop where
  target : c.hist.target t = some a
  slot : c.slot id = some a
  parent : ∃ q, c.proc a = some q ∧ q.parentID = p
  unreleased : c.hist.released a = false

/-- Every joiner is entitled to its child, and only those who wait are on a queue. -/
structure Joining (c : Core) : Prop where
  joiner : ∀ t p φ id, c.thr t = some (p, φ) → φ.joins = some id →
    ∃ a, Joiner c t p id a ∧ ∀ b, φ.fetched = some b → b = a
  joinQueue : ∀ a q u, c.proc a = some q → u ∈ q.joinsem.queue →
    ∃ p id, c.thr u = some (p, .waiting id a)
  exitQueue : ∀ a q u, c.proc a = some q → u ∈ q.exitsem.queue →
    ∃ p, c.thr u = some (p, .leavingAt a)

variable {c c' : Core} {t u a b : Addr} {p p' id id' : Int} {φ ψ : Phase} {q q' : Proc}

theorem Joiner.eq (hwf : Wf c) (ht : c.thr t = some (p, φ)) (hu : c.thr u = some (p', ψ))
    (h : Joiner c t p id a) (h' : Joiner c u p' id' a) : t = u := by
  obtain ⟨q, hq, rfl⟩ := h.parent
  obtain ⟨q', hq', rfl⟩ := h'.parent
  obtain rfl : q = q' := Option.some.inj (hq.symm.trans hq')
  exact hwf.pid_inj ht hu

theorem Joining.awake (h : Joining c) (ht : c.thr t = some (p, φ))
    (hj : ∀ id a q, φ = .waiting id a → c.proc a = some q → t ∉ q.joinsem.queue)
    (he : ∀ a q, φ = .leavingAt a → c.proc a = some q → t ∉ q.exitsem.queue) :
    ∀ b r, c.proc b = some r → t ∉ r.joinsem.queue ∧ t ∉ r.exitsem.queue := by
  intro b r hr
  constructor
  · intro hmem
    obtain ⟨p', id, ht'⟩ := h.joinQueue b r t hr hmem
    cases ht.symm.trans ht'
    exact hj id b r rfl hr hmem
  · intro hmem
    obtain ⟨p', ht'⟩ := h.exitQueue b r t hr hmem
    cases ht.symm.trans ht'
    exact he b r rfl hr hmem

theorem Joining.awake_of_phase (h : Joining c) (ht : c.thr t = some (p, φ))
    (hφ : φ.sleeps = false) :
    ∀ b r, c.proc b = some r → t ∉ r.joinsem.queue ∧ t ∉ r.exitsem.queue := by
  refine h.awake ht ?_ ?_
  · rintro id a q rfl
    cases hφ
  · rintro a q rfl
    cases hφ

theorem Joining.setThr (h : Joining c) {x : Option (Int × Phase)}
    (hnew : ∀ p ψ id, x = some (p, ψ) → ψ.joins = some id →
      ∃ a, Joiner c t p id a ∧ ∀ b, ψ.fetched = some b → b = a)
    (hawake : ∀ b r, c.proc b = some r → t ∉ r.joinsem.queue ∧ t ∉ r.exitsem.queue) :
    Joining { c with thr := Function.update c.thr t x } where
  joiner := by
    intro u p' φ' id hu hid
    have hold : ∃ a, Joiner c u p' id a ∧ ∀ b, φ'.fetched = some b → b = a := by
      by_cases hut : u = t
      · subst hut
        exact hnew p' φ' id (by simpa using hu) hid
      · exact h.joiner u p' φ' id (by simpa [hut] using hu) hid
    obtain ⟨a, ⟨h1, h2, h3, h4⟩, hb⟩ := hold
    exact ⟨a, ⟨h1, h2, h3, h4⟩, hb⟩
  joinQueue := by
    intro b r u hr hu
    have hut : u ≠ t := by
      rintro rfl
      exact (hawake b r hr).1 hu
    simpa [hut] using h.joinQueue b r u hr hu
  exitQueue := by
    intro b r u hr hu
    have hut : u ≠ t := by
      rintro rfl
      exact (hawake b r hr).2 hu
    simpa [hut] using h.exitQueue b r u hr hu

theorem Joining.goto (h : Joining c)
    (hnew : ∀ id, ψ.joins = some id →
      ∃ a, Joiner c t p id a ∧ ∀ b, ψ.fetched = some b → b = a)
    (hawake : ∀ b r, c.proc b = some r → t ∉ r.joinsem.queue ∧ t ∉ r.exitsem.queue) :
    Joining (c.goto t p ψ) := by
  refine h.setThr ?_ hawake
  intro p' ψ' id hx hid
  cases hx
  exact hnew id hid

theorem Joining.goto_plain (h : Joining c) (ht : c.thr t = some (p, φ))
    (hφ : φ.sleeps = false) (hψ : ψ.joins = none) : Joining (c.goto t p ψ) := by
  refine h.goto ?_ (h.awake_of_phase ht hφ)
  intro id hid
  rw [hψ] at hid
  cases hid

theorem Joining.setProc (h : Joining c)
    (hpar : ∀ q, c.proc a = some q → q'.parentID = q.parentID)
    (hj : ∀ u ∈ q'.joinsem.queue, ∃ p id, c.thr u = some (p, .waiting id a))
    (he : ∀ u ∈ q'.exitsem.queue, ∃ p, c.thr u = some (p, .leavingAt a)) :
    Joining (c.setProc a q') where
  joiner := by
    intro u p φ id hu hid
    obtain ⟨b, hb, hf⟩ := h.joiner u p φ id hu hid
    refine ⟨b, ⟨hb.target, hb.slot, ?_, hb.unreleased⟩, hf⟩
    obtain ⟨r, hr, hp⟩ := hb.parent
    by_cases hba : b = a
    · subst hba
      exact ⟨q', proc_setProc_self .., (hpar r hr).trans hp⟩
    · exact ⟨r, (proc_setProc_of_ne hba).trans hr, hp⟩
  joinQueue := by
    intro b r u hr hu
    rcases proc_setProc_cases hr with ⟨rfl, rfl⟩ | ⟨-, hr⟩
    · exact hj u hu
    · exact h.joinQueue b r u hr hu
  exitQueue := by
    intro b r u hr hu
    rcases proc_setProc_cases hr with ⟨rfl, rfl⟩ | ⟨-, hr⟩
    · exact he u hu
    · exact h.exitQueue b r u hr hu

theorem Joining.setSlot (h : Joining c) {slot : Int → Option Addr} {next : Addr}
    (hkeep : ∀ id a, c.slot id = some a → c.hist.released a = false → slot id = some a) :
    Joining { c with slot := slot, next := next } where
  joiner := by
    intro u p φ id hu hid
    obtain ⟨b, hb, hf⟩ := h.joiner u p φ id hu hid
    exact ⟨b, ⟨hb.target, hkeep id b hb.slot hb.unreleased, hb.parent, hb.unreleased⟩, hf⟩
  joinQueue := h.joinQueue
  exitQueue := h.exitQueue

theorem Joining.record (h : Joining c) {hist : History}
    (hkeep : ∀ t p φ id a, c.thr t = some (p, φ) → φ.joins = some id → Joiner c t p id a →
      hist.target t = c.hist.target t ∧ hist.released a = false) : Joining (c.record hist) where
  joiner := by
    intro u p φ id hu hid
    obtain ⟨b, hb, hf⟩ := h.joiner u p φ id hu hid
    obtain ⟨htarget, hrel⟩ := hkeep u p φ id b hu hid hb
    exact ⟨b, ⟨htarget.trans hb.target, hb.slot, hb.parent, hrel⟩, hf⟩
  joinQueue := h.joinQueue
  exitQueue := h.exitQueue

theorem Joining.record_same (h : Joining c) {hist : History}
    (htarget : hist.target = c.hist.target) (hrel : hist.released = c.hist.released) :
    Joining (c.record hist) :=
  h.record fun t _ _ _ _ _ _ hj => ⟨congrFun htarget t, (congrFun hrel _).trans hj.unreleased⟩

theorem mem_queue_P {σ : Semaphore Addr} (h : u ∈ (σ.P t).1.queue) :
    u ∈ σ.queue ∨ (u = t ∧ (σ.P t).2 = false) := by
  cases hb : (σ.P t).2 with
  | true =>
    rw [Semaphore.P_pass_queue hb] at h
    exact .inl h
  | false =>
    rw [(Semaphore.P_sleep hb).2] at h
    rcases List.mem_append.mp h with h | h
    · exact .inl h
    · exact .inr ⟨List.mem_singleton.mp h, rfl⟩

theorem joining_create (hwf : Wf c) (h : Joining c) {i ec : Int}
    (ht : c.thr t = some (p, .running)) (hi : c.slot i = none) :
    Joining { (c.setProc c.next ⟨i, p, ec, .new 0, .new 0, false⟩).goto t p (.creating c.next) with
      slot := Function.update c.slot i (some c.next)
      next := c.next + 1
      hist := c.hist.create t c.next } := by
  have hgo : Joining (c.goto t p (.creating c.next)) :=
    h.goto_plain ht rfl rfl
  have hset : Joining ((c.goto t p (.creating c.next)).setProc c.next
      ⟨i, p, ec, .new 0, .new 0, false⟩) := by
    refine hgo.setProc ?_ (by simp [Semaphore.new]) (by simp [Semaphore.new])
    intro q hq
    exact absurd rfl (hwf.ne_next hq)
  have hrec : Joining (((c.goto t p (.creating c.next)).setProc c.next
      ⟨i, p, ec, .new 0, .new 0, false⟩).record (c.hist.create t c.next)) :=
    hset.record_same rfl rfl
  refine hrec.setSlot ?_
  intro id a hid _
  have hne : id ≠ i := by
    rintro rfl
    exact absurd (hi.symm.trans hid) (by simp)
  exact (Function.update_of_ne hne ..).trans hid

theorem joining_finish (hwf : Wf c) (h : Joining c) (ht : c.thr t = some (p, .removing))
    (hslot : c.slot p = some t) (hq : c.proc t = some q) :
    Joining { c.setProc t { q with deleted := true } with
      slot := Function.update c.slot p none
      thr := Function.update c.thr t none } := by
  have hthr : Joining { c with thr := Function.update c.thr t none } :=
    h.setThr (by simp) (h.awake_of_phase ht rfl)
  have hset : Joining (Core.setProc { c with thr := Function.update c.thr t none } t
      { q with deleted := true }) :=
    hthr.setProc (by simp [hq]) (fun u hu => hthr.joinQueue t q u hq hu)
      fun u hu => hthr.exitQueue t q u hq hu
  refine hset.setSlot ?_
  intro id a hid hrel
  -- a process that gets this far was released
  have hne : id ≠ p := by
    rintro rfl
    obtain rfl : t = a := Option.some.inj (hslot.symm.trans hid)
    obtain ⟨q, hq, hd, -⟩ := hwf.thr_proc t id _ ht
    exact (hwf.unreleased t q hq hd hrel).2 id ht
  exact (Function.update_of_ne hne ..).trans hid

/-- The invariant is kept by every step but a join of a child that was released before. -/
theorem joining_step {l : Label} (hwf : Wf c) (h : Joining c) (hs : Step c l c')
    (hok : ∀ t p φ id a q, l = .join t id → c.thr t = some (p, φ) → c.slot id = some a →
      c.proc a = some q → q.parentID = p → c.hist.released a = false) : Joining c' := by
  cases hs with
  | silent => exact h
  | create ht hi h0 h1 => exact joining_create hwf h ht hi
  | @fork t a p q ht hq =>
    have hgo : Joining (c.goto t p (.created a)) :=
      h.goto_plain ht rfl rfl
    have hnone := (hwf.creating t p a ht).2.1
    refine hgo.goto (by simp [Phase.joins]) fun b r hr => ⟨fun hu => ?_, fun hu => ?_⟩
    · obtain ⟨p', id, ha⟩ := h.joinQueue b r a hr hu
      exact absurd (hnone.symm.trans ha) (by simp)
    · obtain ⟨p', ha⟩ := h.exitQueue b r a hr hu
      exact absurd (hnone.symm.trans ha) (by simp)
  | execReturn ht hq =>
    exact (h.goto_plain ht rfl rfl).record_same rfl rfl
  | joinFail ht hbad => exact h.record_same rfl rfl
  | @joinCall t a p id q ht hslot hq hp =>
    have hrel := hok t p _ id a q rfl ht hslot hq hp
    have hrec : Joining (c.record (c.hist.joinCall t id a)) := by
      refine h.record ?_
      intro u p' φ' id' b hu hid hb
      have hut : u ≠ t := by
        rintro rfl
        cases ht.symm.trans hu
        cases hid
      exact ⟨Function.update_of_ne hut .., hb.unreleased⟩
    refine hrec.goto ?_ (h.awake_of_phase ht rfl)
    intro id' hid
    cases hid
    exact ⟨a, ⟨Function.update_self .., hslot, ⟨q, hq, hp⟩, hrel⟩, by simp [Phase.fetched]⟩
  | @joinEval t a p id ht hslot =>
    refine h.goto ?_ (h.awake_of_phase ht rfl)
    intro id' hid
    cases hid
    obtain ⟨b, hb, -⟩ := h.joiner t p _ id ht rfl
    refine ⟨b, hb, fun b' hb' => ?_⟩
    cases hb'
    exact Option.some.inj (hslot.symm.trans hb.slot)
  | @joinTest t a p id q ht hq hd hawake =>
    have hset : Joining (c.setProc a { q with joinsem := (q.joinsem.P t).1 }) := by
      refine h.setProc (by simp [hq]) ?_ fun u hu => h.exitQueue a q u hq hu
      intro u hu
      rcases mem_queue_P hu with hu | ⟨rfl, -⟩
      · exact h.joinQueue a q u hq hu
      · exact ⟨p, id, ht⟩
    split_ifs with hpass
    · refine hset.goto ?_ (hset.awake ht ?_ (by simp))
      · intro id' hid
        cases hid
        obtain ⟨b, hb, -⟩ := hset.joiner t p _ id ht rfl
        exact ⟨b, hb, by simp [Phase.fetched]⟩
      · intro id' a' r hx hr
        cases hx
        obtain rfl : { q with joinsem := (q.joinsem.P t).1 } = r :=
          Option.some.inj ((proc_setProc_self ..).symm.trans hr)
        rwa [Semaphore.P_pass_queue hpass]
    · rw [goto_self (c := c.setProc a _) ht]
      exact hset
  | @joinRead t a p id q ht hslot hq =>
    refine h.goto ?_ (h.awake_of_phase ht rfl)
    intro id' hid
    cases hid
    obtain ⟨b, hb, -⟩ := h.joiner t p _ id ht rfl
    refine ⟨b, hb, fun b' hb' => ?_⟩
    cases hb'
    exact Option.some.inj (hslot.symm.trans hb.slot)
  | @release t a p id ec q ht hq hd =>
    have hset : Joining (c.setProc a { q with exitsem := q.exitsem.V.1 }) := by
      refine h.setProc (by simp [hq]) (fun u hu => h.joinQueue a q u hq hu) ?_
      exact fun u hu => h.exitQueue a q u hq (List.mem_of_mem_tail hu)
    have hgo := hset.goto_plain (ψ := .joined id ec) ht rfl rfl
    refine hgo.record ?_
    intro u p' φ' id' b hu hid hb
    refine ⟨rfl, ?_⟩
    rcases thr_goto_cases hu with ⟨-, hx⟩ | ⟨hut, hu⟩
    · cases hx
      cases hid
    -- nobody else joins the process that is being released
    obtain ⟨b', hb', hf⟩ := h.joiner t p _ id ht rfl
    obtain ⟨b'', hb'', -⟩ := h.joiner u p' _ id' hu hid
    obtain rfl : a = b' := hf a rfl
    obtain rfl : b'' = b := Option.some.inj (hb''.target.symm.trans hb.target)
    have hne : b'' ≠ a := by
      rintro rfl
      exact hut (hb''.eq hwf hu ht hb')
    exact (Function.update_of_ne hne ..).trans hb.unreleased
  | joinReturn ht =>
    exact (h.goto_plain ht rfl rfl).record_same rfl rfl
  | @exitCall t a p ec q ht hslot hq hd =>
    have hset : Joining (c.setProc a { q with exitcode := ec }) :=
      h.setProc (by simp [hq]) (fun u hu => h.joinQueue a q u hq hu)
        fun u hu => h.exitQueue a q u hq hu
    exact (hset.goto_plain ht rfl rfl).record_same
      rfl rfl
  | @joinRelease t a p q ht hslot hq hd =>
    have hset : Joining (c.setProc a { q with joinsem := q.joinsem.V.1 }) :=
      h.setProc (by simp [hq]) (fun u hu => h.joinQueue a q u hq (List.mem_of_mem_tail hu))
        fun u hu => h.exitQueue a q u hq hu
    exact hset.goto_plain ht rfl rfl
  | exitEval ht hslot => exact h.goto_plain ht rfl rfl
  | @exitTest t a p q ht hq hd hawake =>
    have hset : Joining (c.setProc a { q with exitsem := (q.exitsem.P t).1 }) := by
      refine h.setProc (by simp [hq]) (fun u hu => h.joinQueue a q u hq hu) ?_
      intro u hu
      rcases mem_queue_P hu with hu | ⟨rfl, -⟩
      · exact h.exitQueue a q u hq hu
      · exact ⟨p, ht⟩
    split_ifs with hpass
    · refine hset.goto (by simp [Phase.joins]) (hset.awake ht (by simp) ?_)
      intro a' r hx hr
      cases hx
      obtain rfl : { q with exitsem := (q.exitsem.P t).1 } = r :=
        Option.some.inj ((proc_setProc_self ..).symm.trans hr)
      rwa [Semaphore.P_pass_queue hpass]
    · rw [goto_self (c := c.setProc a _) ht]
      exact hset
  | finish ht hslot hq => exact joining_finish hwf h ht hslot hq
  | removeOther ht hslot hne hq =>
    exact absurd (hwf.eq_of_slot ht hslot).symm hne
  | removeNone ht hslot => exact absurd hslot (hwf.slot_ne_none ht)

/-- Between the release and the return the child is still in its slot. -/
def Held (c : Core) : Prop :=
  ∀ t p id e, c.thr t = some (p, .joined id e) →
    ∃ a, c.hist.target t = some a ∧ c.slot id = some a

theorem Held.of_same (h : Held c) (hslot : c'.slot = c.slot)
    (hthr : ∀ u p id e, c'.thr u = some (p, .joined id e) →
      c.thr u = some (p, .joined id e) ∧ c'.hist.target u = c.hist.target u) : Held c' := by
  intro u p id e hu
  obtain ⟨hu, htarget⟩ := hthr u p id e hu
  rw [htarget, hslot]
  exact h u p id e hu

theorem joined_of_goto {e : Int} (hψ : ∀ id e, ψ ≠ .joined id e)
    (hu : (c.goto t p ψ).thr u = some (p', .joined id e)) :
    u ≠ t ∧ c.thr u = some (p', .joined id e) := by
  rcases thr_goto_cases hu with ⟨-, hx⟩ | hu
  · cases hx
    exact absurd rfl (hψ id e)
  · exact hu

theorem Held.goto (h : Held c) (hψ : ∀ id e, ψ ≠ .joined id e) (hslot : c'.slot = c.slot)
    (hthr : c'.thr = (c.goto t p ψ).thr) (htarget : ∀ u, u ≠ t →
      c'.hist.target u = c.hist.target u) : Held c' := by
  refine h.of_same hslot fun u p' id e hu => ?_
  rw [hthr] at hu
  obtain ⟨hut, hu⟩ := joined_of_goto hψ hu
  exact ⟨hu, htarget u hut⟩

/-- The child of a joiner stays up to the return, if it is not removed just before. -/
theorem held_step {l : Label} (hwf : Wf c) (hj : Joining c) (h : Held c) (hs : Step c l c')
    (hok : ∀ t p φ, l = .remove t → c.thr t = some (p, φ) →
      ∀ u p' e, c.thr u ≠ some (p', .joined p e)) : Held c' := by
  cases hs with
  | silent => exact h
  | execReturn | joinEval | joinRead | joinReturn | exitCall | joinRelease | exitEval =>
    exact h.goto (by simp) rfl rfl fun _ _ => rfl
  | @create t p i ec ht hi h0 h1 =>
    intro u p' id e hu
    obtain ⟨-, hu⟩ := joined_of_goto (c := c) (by simp) hu
    obtain ⟨a, htarget, hid⟩ := h u p' id e hu
    -- a slot in use is not given to a new process
    have hne : id ≠ i := by
      rintro rfl
      exact absurd (hi.symm.trans hid) (by simp)
    exact ⟨a, htarget, (Function.update_of_ne hne ..).trans hid⟩
  | @fork t a p q ht hq =>
    refine h.of_same rfl fun u p' id e hu => ?_
    obtain ⟨-, hu⟩ := joined_of_goto (by simp) hu
    exact ⟨(joined_of_goto (by simp) hu).2, rfl⟩
  | joinFail ht hbad => exact h.of_same rfl fun _ _ _ _ hu => ⟨hu, rfl⟩
  | joinCall ht hslot hq hp =>
    exact h.goto (by simp) rfl rfl fun u hut => Function.update_of_ne hut ..
  | joinTest | exitTest =>
    refine h.goto (fun _ _ => ?_) rfl rfl fun _ _ => rfl
    split_ifs <;> simp
  | @release t a p id ec q ht hq hd =>
    intro u p' id' e hu
    rcases thr_goto_cases (c := c) hu with ⟨rfl, hx⟩ | ⟨-, hu⟩
    · cases hx
      obtain ⟨b, hb, -⟩ := hj.joiner u p _ id ht rfl
      exact ⟨b, hb.target, hb.slot⟩
    · exact h u p' id' e hu
  | @finish t p q ht hslot hq =>
    intro u p' id e hu
    obtain ⟨-, hold⟩ := thr_of_remove hu
    obtain ⟨a, htarget, hid⟩ := h u p' id e hold
    -- by the guard nobody that is on its way back has joined the process that goes
    have hne : id ≠ p := by
      rintro rfl
      exact hok t id _ rfl ht u p' e hold
    exact ⟨a, htarget, (Function.update_of_ne hne ..).trans hid⟩
  | removeOther ht hslot hne hq =>
    exact absurd (hwf.eq_of_slot ht hslot).symm hne
  | removeNone ht hslot => exact absurd hslot (hwf.slot_ne_none ht)

theorem queues_of_deleted (hwf : Wf c) (h : Joining c) (hq : c.proc a = some q)
    (hd : q.deleted = true) : q.joinsem.queue = [] ∧ q.exitsem.queue = [] := by
  constructor
  · refine List.eq_nil_iff_forall_not_mem.mpr fun u hu => ?_
    obtain ⟨p, id, hthr⟩ := h.joinQueue a q u hq hu
    obtain ⟨b, hb, hf⟩ := h.joiner u p _ id hthr rfl
    obtain rfl : a = b := hf a rfl
    obtain ⟨r, hr, hlive, -⟩ := hwf.slot_proc id a hb.slot
    cases hq.symm.trans hr
    exact absurd (hd.symm.trans hlive) (by simp)
  · refine List.eq_nil_iff_forall_not_mem.mpr fun u hu => ?_
    obtain ⟨p, hthr⟩ := h.exitQueue a q u hq hu
    obtain rfl : a = u := hwf.leavingAt u p a hthr
    obtain ⟨r, hr, hlive, -⟩ := hwf.thr_proc a p _ hthr
    cases hq.symm.trans hr
    exact absurd (hd.symm.trans hlive) (by simp)

end Core

namespace State

variable {s s' : State} {t : Addr} {θ : Thread} {fresh : Addr → Int × Int}

/-- A `JoinUpdate` that passes the validity check does so on a child that no earlier
`JoinUpdate` has released. -/
def joinsUnreleased (s : State) : Act → Bool
  | .call t (.join id) =>
    match s.thr t, s.pcb id with
    | some θ, some a =>
      match s.heap a with
      | some p => p.parentID != θ.processID || !s.hist.released a
      | none => true
    | _, _ => true
  | _ => true

/-- A process is not removed while the `JoinUpdate` that released it has yet to return. -/
def removesReturned (s : State) : Act → Bool
  | .run t =>
    match s.thr t with
    | some θ =>
      if θ.pc = .remove then
        (List.range s.next).all fun u => (s.thr u).all fun θ' =>
          θ'.pc.returning != some θ.processID
      else true
    | none => true
  | .call _ _ => true

def undisturbed (s : State) (act : Act) : Bool := s.joinsUnreleased act && s.removesReturned act

theorem joining_init (fresh : Addr → Int × Int) : (init fresh).abs.Joining := by
  have hproc : ∀ a q, (init fresh).abs.proc a = some q →
      q.joinsem.queue = [] ∧ q.exitsem.queue = [] := by
    intro a q hq
    by_cases h0 : a = 0
    · subst h0
      cases hq
      exact ⟨rfl, rfl⟩
    · simp [abs, init, h0] at hq
  refine ⟨?_, ?_, ?_⟩
  · intro t p φ id ht hid
    cases (thr_init ht).2
    cases hid
  · intro a q u hq hu
    rw [(hproc a q hq).1] at hu
    cases hu
  · intro a q u hq hu
    rw [(hproc a q hq).2] at hu
    cases hu

theorem unreleased_of_joinsUnreleased {act : Act} {l : Label}
    (hok : s.joinsUnreleased act = true) (hshow : Shows s act l) :
    ∀ t p φ id a q, l = .join t id → s.abs.thr t = some (p, φ) → s.abs.slot id = some a →
      s.abs.proc a = some q → q.parentID = p → s.abs.hist.released a = false := by
  rintro t p φ id a q rfl ht hslot hq hp
  obtain rfl : act = .call t (.join id) := hshow
  obtain ⟨θ, hθ, hx⟩ := Option.map_eq_some_iff.mp ht
  obtain ⟨pcb, hpcb, rfl⟩ := Option.map_eq_some_iff.mp hq
  cases hx
  have hslot : s.pcb id = some a := hslot
  have hp : pcb.parentID = θ.processID := hp
  have hrel : s.hist.released a = false := by
    simpa [joinsUnreleased, hθ, hslot, hpcb, hp] using hok
  exact hrel

theorem not_joined_of_removesReturned {act : Act} {l : Label} (hwf : s.abs.Wf)
    (hok : s.removesReturned act = true) (hshow : Shows s act l) :
    ∀ t p φ, l = .remove t → s.abs.thr t = some (p, φ) →
      ∀ u p' e, s.abs.thr u ≠ some (p', .joined p e) := by
  rintro t p φ rfl ht u p' e hu
  obtain ⟨rfl, θ, hθ, hpc⟩ := hshow
  cases (abs_thr hθ).symm.trans ht
  obtain ⟨θ', hθ', hx⟩ := Option.map_eq_some_iff.mp hu
  -- the threads there are have numbers below `next`
  have hlt : u < s.next := by
    by_contra hge
    obtain ⟨q, hq, -⟩ := hwf.thr_proc u _ _ hu
    exact absurd ((hwf.fresh u (not_lt.mp hge)).1.symm.trans hq) (by simp)
  simp only [removesReturned, hθ, hpc, if_true, List.all_eq_true, List.mem_range] at hok
  have hne := hok u hlt
  have hphase : θ'.pc.phase = .joined θ.processID e := (Prod.mk.inj hx).2
  simp only [hθ', Option.all_some, bne_iff_ne] at hne
  refine hne ?_
  cases hpc' : θ'.pc <;> simp_all [PC.phase, PC.returning]

theorem joining_of_reach (h : Reach step (fun s act => s.undisturbed act = true) (init fresh) s) :
    s.abs.Joining ∧ s.abs.Held := by
  refine h.invariant_of_reach (I := fun s => s.abs.Joining ∧ s.abs.Held) ?_
    fun s act s' hr hi hok hs => ?_
  · refine ⟨joining_init fresh, fun t p id e ht => ?_⟩
    cases (thr_init ht).2
  obtain ⟨l, hshow, hstep⟩ := simulated_step hs
  have hwf := wf_of_reach hr
  obtain ⟨hunreleased, hreturned⟩ := Bool.and_eq_true_iff.mp hok
  exact ⟨Core.joining_step hwf hi.1 hstep (unreleased_of_joinsUnreleased hunreleased hshow),
    Core.held_step hwf hi.1 hi.2 hstep (not_joined_of_removesReturned hwf hreturned hshow)⟩

/-- `JoinUpdate` refuses and leaves the table alone, or goes on with a child of the caller. -/
theorem joinUpdate_cases (hwf : s.abs.Wf) (ht : s.thr t = some θ) (id : Int) :
    (s.joinUpdate t θ id = (s.ret t θ (-1)).record (s.hist.joinFail t id)) ∨
    ∃ a p, s.pcb id = some a ∧ s.heap a = some p ∧ p.deleted = false ∧
      p.parentID = θ.processID ∧ (s.joinUpdate t θ id).hist.target t = some a := by
  unfold joinUpdate
  dsimp only
  split_ifs with hid
  · exact .inl rfl
  cases hs : s.pcb id with
  | none => exact .inl rfl
  | some a =>
    obtain ⟨q, hq, hd, -⟩ := hwf.slot_proc id a hs
    obtain ⟨p, hp, rfl⟩ := Option.map_eq_some_iff.mp hq
    simp only [hp]
    split_ifs with hparent
    · exact .inl rfl
    · have hpar : p.parentID = θ.processID := not_ne_iff.mp hparent
      have hself : s.pcb p.parentID = some t := hpar ▸ hwf.slot_self (abs_thr ht)
      refine .inr ⟨a, p, rfl, hp, hd, hpar, ?_⟩
      simp only [hself]
      exact Function.update_self ..

/-- In every run in which no child is joined again after its release, nor removed
between its release and the joiner's return: a thread in `JoinUpdate` finds the PCB
that it checked in its slot, nobody sleeps on a deleted PCB, and a `JoinUpdate` is
either refused or acts on a child that nobody has joined yet. -/
theorem joiner_keeps_child
    (h : Reach step (fun s act => s.undisturbed act = true) (init fresh) s) :
    (∀ t θ id, s.thr t = some θ → θ.pc.joinOf = some id → ∃ a p, s.hist.target t = some a ∧
      s.pcb id = some a ∧ s.heap a = some p ∧ p.deleted = false) ∧
    (∀ a p, s.heap a = some p → p.deleted = true →
      p.joinsem.queue = [] ∧ p.exitsem.queue = []) ∧
    (∀ t θ id, s.thr t = some θ → s.undisturbed (.call t (.join id)) = true →
      (s.joinUpdate t θ id = (s.ret t θ (-1)).record (s.hist.joinFail t id)) ∨
      ∃ a p, s.pcb id = some a ∧ s.heap a = some p ∧ p.deleted = false ∧
        p.parentID = θ.processID ∧ s.hist.released a = false ∧
        (s.joinUpdate t θ id).hist.target t = some a) := by
  have hwf := wf_of_reach h
  obtain ⟨hj, hheld⟩ := joining_of_reach h
  refine ⟨?_, ?_, ?_⟩
  · intro t θ id ht hid
    have hslot : ∃ a, s.hist.target t = some a ∧ s.pcb id = some a := by
      rcases PC.joinOf_cases hid with hid | ⟨e, he⟩
      · obtain ⟨a, ha, -⟩ := hj.joiner t _ _ id (abs_thr ht) hid
        exact ⟨a, ha.target, ha.slot⟩
      · exact hheld t θ.processID id e (he ▸ abs_thr ht)
    obtain ⟨a, htarget, hs⟩ := hslot
    obtain ⟨q, hq, hd, -⟩ := hwf.slot_proc id a hs
    obtain ⟨p, hp, rfl⟩ := Option.map_eq_some_iff.mp hq
    exact ⟨a, p, htarget, hs, hp, hd⟩
  · intro a p hp hd
    exact Core.queues_of_deleted hwf hj (abs_proc hp) hd
  · intro t θ id ht hok
    rcases joinUpdate_cases hwf ht id with hrefuse | ⟨a, p, hs, hp, hd, hpar, htarget⟩
    · exact .inl hrefuse
    · refine .inr ⟨a, p, hs, hp, hd, hpar, ?_, htarget⟩
      have hunreleased := (Bool.and_eq_true_iff.mp hok).1
      exact unreleased_of_joinsUnreleased hunreleased (show Shows s _ (.join t id) from rfl)
        t _ _ id a p.core rfl (abs_thr ht) hs (abs_proc hp) hpar

/-- A join that waits for its child: the child has not exited yet and the PCB is there. -/
theorem joiner_keeps_child_waiting : ∃ s,
    Reach step (fun s act => s.undisturbed act = true) (init fun _ => (0, 0)) s ∧
    (s.thr 0).map Thread.pc = some (.joinP 1 1) ∧
    (s.heap 1).map (fun p => p.joinsem.queue) = some [0] ∧ s.pcb 1 = s.hist.target 0 := by
  let acts : List Act :=
    [execActs 0 [1], [.call 0 (.join 1), .run 0, .run 0, .run 0, .run 0]].flatten
  have hrun : (exec step (fun s act => s.undisturbed act = true) (init fun _ => (0, 0)) acts).map
      (fun s => ((s.thr 0).map Thread.pc, (s.heap 1).map (fun p => p.joinsem.queue))) =
      some (some (.joinP 1 1), some [0]) := by decide +kernel
  obtain ⟨s, hexec, hs⟩ := Option.map_eq_some_iff.mp hrun
  have hr := reach_of_exec acts hexec
  simp only [Prod.mk.injEq] at hs
  obtain ⟨θ, hθ, hpc⟩ := Option.map_eq_some_iff.mp hs.1
  obtain ⟨a, p, htarget, hslot, -⟩ := (joiner_keeps_child hr).1 0 θ 1 hθ (by rw [hpc]; rfl)
  exact ⟨s, hr, hs.1, hs.2, hslot.trans htarget.symm⟩

/-- Process 0 joins process 1 and, before that one has run again, joins it a second
time: it passes the check and sleeps on the PCB, which is then removed under it. -/
theorem second_join_loses_child : ∃ s, Reach step (fun _ _ => True) (init fun _ => (0, 0)) s ∧
    (s.thr 0).map Thread.pc = some (.joinP 1 1) ∧ s.pcb 1 = none ∧
    (s.heap 1).map PCB.deleted = some true ∧
    (s.heap 1).map (fun p => p.joinsem.queue) = some [0] := by
  let acts : List Act := [execActs 0 [1], [.run 1], exitActs 1 7, joinActs 0 1,
    [.call 0 (.join 1), .run 0, .run 0, .run 0, .run 0, .run 1, .run 1]].flatten
  have hrun : (exec step (fun _ _ => True) (init fun _ => (0, 0)) acts).map
      (fun s => ((s.thr 0).map Thread.pc, s.pcb 1, (s.heap 1).map PCB.deleted,
        (s.heap 1).map (fun p => p.joinsem.queue))) =
      some (some (.joinP 1 1), none, some true, some [0]) := by decide +kernel
  obtain ⟨s, hexec, hs⟩ := Option.map_eq_some_iff.mp hrun
  simp only [Prod.mk.injEq] at hs
  exact ⟨s, reach_of_exec acts hexec, hs.1, hs.2.1, hs.2.2.1, hs.2.2.2⟩

/-- The one join of process 0 has let process 1 go, which removes its PCB before that join has
returned. -/
theorem join_loses_child_before_return :
    ∃ s, Reach step (fun _ _ => True) (init fun _ => (0, 0)) s ∧
      (s.thr 0).map Thread.pc = some (.joinRet 1 7) ∧ s.hist.target 0 = some 1 ∧
      s.pcb 1 = none ∧ (s.heap 1).map PCB.deleted = some true := by
  -- `joinActs` up to the last step, which is the return
  let acts : List Act := [execActs 0 [1], [.run 1], exitActs 1 7, (joinActs 0 1).dropLast,
    [.run 1, .run 1]].flatten
  have hrun : (exec step (fun _ _ => True) (init fun _ => (0, 0)) acts).map
      (fun s => ((s.thr 0).map Thread.pc, s.hist.target 0, s.pcb 1,
        (s.heap 1).map PCB.deleted)) =
      some (some (.joinRet 1 7), some 1, none, some true) := by decide +kernel
  obtain ⟨s, hexec, hs⟩ := Option.map_eq_some_iff.mp hrun
  simp only [Prod.mk.injEq] at hs
  exact ⟨s, reach_of_exec acts hexec, hs.1, hs.2.1, hs.2.2.1, hs.2.2.2⟩

end State
end Nachos.PTable
