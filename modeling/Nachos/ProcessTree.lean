import Nachos.ProcessCore

namespace Nachos.PTable
open GuardedRun

def Phase.left : Phase → Bool
  | .leaving | .leavingAt _ | .removing => true
  | _ => false

def Phase.exited : Phase → Bool
  | .exiting | .leaving | .leavingAt _ | .removing => true
  | _ => false

namespace Core

/-- What holds in every run: slots and live PCBs point at each other, every thread has
its PCB, an unreleased process waits in `ExitWait` at the latest, a token in `joinsem`
means that the exit code is set. -/
structure Wf (c : Core) : Prop where
  slot_proc : ∀ i a, c.slot i = some a →
    ∃ q, c.proc a = some q ∧ q.deleted = false ∧ q.processID = i
  range : ∀ i a, c.slot i = some a → 0 ≤ i ∧ i < maxProcess
  proc_slot : ∀ a q, c.proc a = some q → q.deleted = false → c.slot q.processID = some a
  thr_proc : ∀ t p φ, c.thr t = some (p, φ) →
    ∃ q, c.proc t = some q ∧ q.deleted = false ∧ q.processID = p
  fresh : ∀ a, c.next ≤ a → c.proc a = none ∧ c.hist.released a = false
  creating : ∀ t p a, c.thr t = some (p, .creating a) →
    c.hist.creator a = t ∧ c.thr a = none ∧ ∃ q, c.proc a = some q ∧ q.deleted = false
  unreleased : ∀ a q, c.proc a = some q → q.deleted = false → c.hist.released a = false →
    q.exitsem.value = 0 ∧ ∀ p, c.thr a ≠ some (p, .removing)
  leavingAt : ∀ t p a, c.thr t = some (p, .leavingAt a) → a = t
  joinsem : ∀ a q, c.proc a = some q → q.deleted = false → q.joinsem.value ≠ 0 →
    ∃ p φ, c.thr a = some (p, φ) ∧ φ.left = true
  exitArg : ∀ a q p φ, c.proc a = some q → c.thr a = some (p, φ) → φ.exited = true →
    c.hist.exitArg a = some q.exitcode

variable {c c' : Core} {t u a b : Addr} {p : Int} {φ ψ : Phase} {q q' : Proc}

@[simp] theorem thr_goto_self (c : Core) (t : Addr) (p : Int) (φ : Phase) :
    (c.goto t p φ).thr t = some (p, φ) := Function.update_self ..

@[simp] theorem thr_goto_of_ne (h : u ≠ t) : (c.goto t p φ).thr u = c.thr u :=
  Function.update_of_ne h ..

@[simp] theorem proc_setProc_self (c : Core) (a : Addr) (q : Proc) :
    (c.setProc a q).proc a = some q := Function.update_self ..

@[simp] theorem proc_setProc_of_ne (h : b ≠ a) : (c.setProc a q).proc b = c.proc b :=
  Function.update_of_ne h ..

theorem thr_goto_cases {x : Int × Phase} (h : (c.goto t p φ).thr u = some x) :
    (u = t ∧ x = (p, φ)) ∨ (u ≠ t ∧ c.thr u = some x) := by
  by_cases hu : u = t
  · subst hu
    exact .inl ⟨rfl, by simpa using h.symm⟩
  · exact .inr ⟨hu, by simpa [hu] using h⟩

theorem thr_of_remove {x : Int × Phase} (h : Function.update c.thr t none u = some x) :
    u ≠ t ∧ c.thr u = some x := by
  by_cases hu : u = t
  · simp [hu] at h
  · exact ⟨hu, by simpa [hu] using h⟩

theorem proc_setProc_cases (h : (c.setProc a q).proc b = some q') :
    (b = a ∧ q' = q) ∨ (b ≠ a ∧ c.proc b = some q') := by
  by_cases hb : b = a
  · subst hb
    exact .inl ⟨rfl, by simpa using h.symm⟩
  · exact .inr ⟨hb, by simpa [hb] using h⟩

theorem Wf.slot_self (h : Wf c) (ht : c.thr t = some (p, φ)) : c.slot p = some t := by
  obtain ⟨q, hq, hd, rfl⟩ := h.thr_proc t p φ ht
  exact h.proc_slot t q hq hd

theorem Wf.eq_of_slot (h : Wf c) (ht : c.thr t = some (p, φ)) (hs : c.slot p = some a) : t = a :=
  Option.some.inj ((h.slot_self ht).symm.trans hs)

/-- A process finds itself in its slot, so `Remove` always ends the caller. -/
theorem Wf.slot_ne_none (h : Wf c) (ht : c.thr t = some (p, φ)) : c.slot p ≠ none := by
  simp [h.slot_self ht]

theorem Wf.pid_inj (h : Wf c) (ht : c.thr t = some (p, φ)) (hu : c.thr u = some (p, ψ)) :
    t = u := h.eq_of_slot ht (h.slot_self hu)

theorem Wf.goto (h : Wf c) (ht : c.thr t = some (p, φ))
    (hcreating : ∀ a, ψ = .creating a → φ = .creating a)
    (hremoving : ψ = .removing → c.hist.released t = true ∨ φ = .removing)
    (hleaving : ∀ a, ψ = .leavingAt a → a = t) (hleft : φ.left = true → ψ.left = true)
    (hexited : ψ.exited = true → φ.exited = true ∨
      ∀ q, c.proc t = some q → c.hist.exitArg t = some q.exitcode) : Wf (c.goto t p ψ) where
  slot_proc := h.slot_proc
  range := h.range
  proc_slot := h.proc_slot
  thr_proc := by
    intro u p' φ' hu
    rcases thr_goto_cases hu with ⟨rfl, hx⟩ | ⟨-, hu⟩
    · cases hx
      exact h.thr_proc u p φ ht
    · exact h.thr_proc u p' φ' hu
  fresh := h.fresh
  creating := by
    intro u p' a hu
    have hold : ∃ p', c.thr u = some (p', .creating a) := by
      rcases thr_goto_cases hu with ⟨rfl, hx⟩ | ⟨-, hu⟩
      · cases hx
        exact ⟨p, (hcreating a rfl) ▸ ht⟩
      · exact ⟨p', hu⟩
    obtain ⟨p₀, hu₀⟩ := hold
    obtain ⟨hc, hnone, hq⟩ := h.creating u p₀ a hu₀
    refine ⟨hc, ?_, hq⟩
    have hat : a ≠ t := by
      rintro rfl
      rw [hnone] at ht
      cases ht
    simpa [hat] using hnone
  unreleased := by
    -- only a released process may get as far as `Remove`
    intro a q hq hd hr
    obtain ⟨hv, hn⟩ := h.unreleased a q hq hd hr
    refine ⟨hv, fun p' hp' => ?_⟩
    rcases thr_goto_cases hp' with ⟨rfl, hx⟩ | ⟨-, ha⟩
    · cases hx
      rcases hremoving rfl with hr' | rfl
      · have : c.hist.released a = false := hr
        rw [this] at hr'
        cases hr'
      · exact hn p ht
    · exact hn p' ha
  leavingAt := by
    intro u p' a hu
    rcases thr_goto_cases hu with ⟨rfl, hx⟩ | ⟨-, hu⟩
    · cases hx
      exact hleaving a rfl
    · exact h.leavingAt u p' a hu
  joinsem := by
    intro a q hq hd hv
    obtain ⟨p', φ', ha, hl⟩ := h.joinsem a q hq hd hv
    by_cases hat : a = t
    · subst hat
      rw [ht] at ha
      cases ha
      exact ⟨p, ψ, thr_goto_self .., hleft hl⟩
    · exact ⟨p', φ', (thr_goto_of_ne hat).trans ha, hl⟩
  exitArg := by
    intro a q p' φ' hq ha he
    rcases thr_goto_cases ha with ⟨rfl, hx⟩ | ⟨-, ha⟩
    · cases hx
      rcases hexited he with hφ | hnew
      · exact h.exitArg a q p φ hq ht hφ
      · exact hnew q hq
    · exact h.exitArg a q p' φ' hq ha he

theorem Wf.goto_plain (h : Wf c) (ht : c.thr t = some (p, φ)) (hφ : φ.exited = false)
    (hψ : ψ.exited = false) (hcreating : ∀ a, ψ ≠ .creating a) : Wf (c.goto t p ψ) := by
  refine h.goto ht (fun a ha => absurd ha (hcreating a)) ?_ ?_ ?_ ?_
  · rintro rfl
    cases hψ
  · rintro a rfl
    cases hψ
  · cases φ <;> simp_all [Phase.left, Phase.exited]
  · intro he
    rw [hψ] at he
    cases he

theorem Wf.setProc (h : Wf c) (hq : c.proc a = some q) (hid : q'.processID = q.processID)
    (hdel : q'.deleted = q.deleted)
    (hexit : c.hist.released a = false → q.deleted = false → q'.exitsem.value = 0)
    (hjoin : q.deleted = false → q'.joinsem.value ≠ 0 →
      ∃ p φ, c.thr a = some (p, φ) ∧ φ.left = true)
    (hcode : ∀ p φ, c.thr a = some (p, φ) → φ.exited = true → q'.exitcode = q.exitcode) :
    Wf (c.setProc a q') where
  slot_proc := by
    intro i b hi
    obtain ⟨r, hr, hd, hi'⟩ := h.slot_proc i b hi
    by_cases hba : b = a
    · subst hba
      obtain rfl : q = r := Option.some.inj (hq.symm.trans hr)
      exact ⟨q', proc_setProc_self .., hdel.trans hd, hid.trans hi'⟩
    · exact ⟨r, (proc_setProc_of_ne hba).trans hr, hd, hi'⟩
  range := h.range
  proc_slot := by
    intro b r hr hd
    rcases proc_setProc_cases hr with ⟨rfl, rfl⟩ | ⟨-, hr⟩
    · have := h.proc_slot b q hq (hdel.symm.trans hd)
      exact hid ▸ this
    · exact h.proc_slot b r hr hd
  thr_proc := by
    intro u p φ hu
    obtain ⟨r, hr, hd, hp⟩ := h.thr_proc u p φ hu
    by_cases hua : u = a
    · subst hua
      obtain rfl : q = r := Option.some.inj (hq.symm.trans hr)
      exact ⟨q', proc_setProc_self .., hdel.trans hd, hid.trans hp⟩
    · exact ⟨r, (proc_setProc_of_ne hua).trans hr, hd, hp⟩
  fresh := by
    intro b hb
    obtain ⟨hnone, hrel⟩ := h.fresh b hb
    refine ⟨?_, hrel⟩
    have hba : b ≠ a := by
      rintro rfl
      rw [hnone] at hq
      cases hq
    exact (proc_setProc_of_ne hba).trans hnone
  creating := by
    intro u p b hu
    obtain ⟨hc, hnone, r, hr, hd⟩ := h.creating u p b hu
    refine ⟨hc, hnone, ?_⟩
    by_cases hba : b = a
    · subst hba
      obtain rfl : q = r := Option.some.inj (hq.symm.trans hr)
      exact ⟨q', proc_setProc_self .., hdel.trans hd⟩
    · exact ⟨r, (proc_setProc_of_ne hba).trans hr, hd⟩
  unreleased := by
    intro b r hr hd hrel
    rcases proc_setProc_cases hr with ⟨rfl, rfl⟩ | ⟨-, hr⟩
    · exact ⟨hexit hrel (hdel.symm.trans hd), (h.unreleased b q hq (hdel.symm.trans hd) hrel).2⟩
    · exact h.unreleased b r hr hd hrel
  leavingAt := h.leavingAt
  joinsem := by
    intro b r hr hd hv
    rcases proc_setProc_cases hr with ⟨rfl, rfl⟩ | ⟨-, hr⟩
    · exact hjoin (hdel.symm.trans hd) hv
    · exact h.joinsem b r hr hd hv
  exitArg := by
    intro b r p φ hr hb he
    rcases proc_setProc_cases hr with ⟨rfl, rfl⟩ | ⟨-, hr⟩
    · rw [hcode p φ hb he]
      exact h.exitArg b q p φ hq hb he
    · exact h.exitArg b r p φ hr hb he

theorem Wf.record (h : Wf c) {hist : History} (hc : hist.creator = c.hist.creator)
    (hr : ∀ a, hist.released a = false → c.hist.released a = false)
    (hr' : ∀ a, c.proc a = none → c.hist.released a = false → hist.released a = false)
    (he : ∀ a p φ, c.thr a = some (p, φ) → φ.exited = true → hist.exitArg a = c.hist.exitArg a) :
    Wf (c.record hist) where
  slot_proc := h.slot_proc
  range := h.range
  proc_slot := h.proc_slot
  thr_proc := h.thr_proc
  fresh := fun a ha => ⟨(h.fresh a ha).1, hr' a (h.fresh a ha).1 (h.fresh a ha).2⟩
  creating := by
    intro u p a hu
    have := h.creating u p a hu
    rwa [← hc] at this
  unreleased := fun a q hq hd hrel => h.unreleased a q hq hd (hr a hrel)
  leavingAt := h.leavingAt
  joinsem := h.joinsem
  exitArg := fun a q p φ hq ha hex => (he a p φ ha hex).trans (h.exitArg a q p φ hq ha hex)

theorem Wf.ne_next (h : Wf c) (hq : c.proc a = some q) : a ≠ c.next := by
  rintro rfl
  rw [(h.fresh c.next le_rfl).1] at hq
  cases hq

theorem Wf.thr_next (h : Wf c) : c.thr c.next = none := by
  cases hn : c.thr c.next with
  | none => rfl
  | some x =>
    obtain ⟨q, hq, -⟩ := h.thr_proc c.next x.1 x.2 hn
    exact absurd rfl (h.ne_next hq)

theorem wf_create (h : Wf c) {i ec : Int} (ht : c.thr t = some (p, .running))
    (hi : c.slot i = none) (h0 : 0 ≤ i) (h1 : i < maxProcess) :
    Wf { (c.setProc c.next ⟨i, p, ec, .new 0, .new 0, false⟩).goto t p (.creating c.next) with
      slot := Function.update c.slot i (some c.next)
      next := c.next + 1
      hist := c.hist.create t c.next } := by
  set q₀ : Proc := ⟨i, p, ec, .new 0, .new 0, false⟩
  have hnext := h.thr_next
  have htn : t ≠ c.next := by
    rintro rfl
    rw [hnext] at ht
    cases ht
  -- a PCB other than the new one is an old one
  have hproc : ∀ b r, (c.setProc c.next q₀).proc b = some r →
      (b = c.next ∧ r = q₀) ∨ (b ≠ c.next ∧ c.proc b = some r) := fun b r => proc_setProc_cases
  have hkeep : ∀ b r, c.proc b = some r → (c.setProc c.next q₀).proc b = some r := by
    intro b r hr
    exact (proc_setProc_of_ne (h.ne_next hr)).trans hr
  constructor
  case slot_proc =>
    intro j b hj
    by_cases hji : j = i
    · subst hji
      obtain rfl : c.next = b := by simpa using hj
      exact ⟨q₀, proc_setProc_self .., rfl, rfl⟩
    · obtain ⟨r, hr, hd, hp⟩ := h.slot_proc j b (by simpa [hji] using hj)
      exact ⟨r, hkeep b r hr, hd, hp⟩
  case range =>
    intro j b hj
    by_cases hji : j = i
    · subst hji
      exact ⟨h0, h1⟩
    · exact h.range j b (by simpa [hji] using hj)
  case proc_slot =>
    intro b r hr hd
    rcases hproc b r hr with ⟨rfl, rfl⟩ | ⟨-, hr⟩
    · exact Function.update_self ..
    · have hs := h.proc_slot b r hr hd
      have hne : r.processID ≠ i := by
        rintro rfl
        rw [hi] at hs
        cases hs
      exact (Function.update_of_ne hne ..).trans hs
  case thr_proc =>
    intro u p' φ' hu
    have hold : ∃ φ', c.thr u = some (p', φ') := by
      rcases thr_goto_cases (c := c) hu with ⟨rfl, hx⟩ | ⟨-, hu⟩
      · cases hx
        exact ⟨_, ht⟩
      · exact ⟨_, hu⟩
    obtain ⟨φ₀, hu₀⟩ := hold
    obtain ⟨r, hr, hd, hp⟩ := h.thr_proc u p' φ₀ hu₀
    exact ⟨r, hkeep u r hr, hd, hp⟩
  case fresh =>
    intro b hb
    have hlt : c.next < b := hb
    have hbn : b ≠ c.next := hlt.ne'
    obtain ⟨hn, hr⟩ := h.fresh b hlt.le
    exact ⟨(proc_setProc_of_ne hbn).trans hn, hr⟩
  case creating =>
    intro u p' b hu
    rcases thr_goto_cases (c := c) hu with ⟨rfl, hx⟩ | ⟨hut, hu⟩
    · cases hx
      exact ⟨Function.update_self .., (thr_goto_of_ne (c := c) (Ne.symm htn)).trans hnext, q₀,
        proc_setProc_self .., rfl⟩
    · obtain ⟨hc, hb, r, hr, hd⟩ := h.creating u p' b hu
      have hbn : b ≠ c.next := h.ne_next hr
      have hbt : b ≠ t := by
        rintro rfl
        rw [ht] at hb
        cases hb
      exact ⟨(Function.update_of_ne hbn ..).trans hc, (thr_goto_of_ne (c := c) hbt).trans hb, r,
        hkeep b r hr, hd⟩
  case unreleased =>
    intro b r hr hd hrel
    rcases hproc b r hr with ⟨rfl, rfl⟩ | ⟨hbn, hr⟩
    · refine ⟨rfl, fun p' hp' => ?_⟩
      rcases thr_goto_cases (c := c) hp' with ⟨hnt, -⟩ | ⟨-, hp'⟩
      · exact htn hnt.symm
      · rw [hnext] at hp'
        cases hp'
    · obtain ⟨hv, hn⟩ := h.unreleased b r hr hd hrel
      refine ⟨hv, fun p' hp' => ?_⟩
      rcases thr_goto_cases (c := c) hp' with ⟨-, hx⟩ | ⟨-, hp'⟩
      · cases hx
      · exact hn p' hp'
  case leavingAt =>
    intro u p' b hu
    rcases thr_goto_cases (c := c) hu with ⟨-, hx⟩ | ⟨-, hu⟩
    · cases hx
    · exact h.leavingAt u p' b hu
  case joinsem =>
    intro b r hr hd hv
    rcases hproc b r hr with ⟨rfl, rfl⟩ | ⟨-, hr⟩
    · exact absurd rfl hv
    · obtain ⟨p', φ', hb, hl⟩ := h.joinsem b r hr hd hv
      have hbt : b ≠ t := by
        rintro rfl
        rw [ht] at hb
        cases hb
        cases hl
      exact ⟨p', φ', (thr_goto_of_ne (c := c) hbt).trans hb, hl⟩
  case exitArg =>
    intro b r p' φ' hr hb he
    rcases thr_goto_cases (c := c) hb with ⟨-, hx⟩ | ⟨-, hb⟩
    · cases hx
      cases he
    · rcases hproc b r hr with ⟨rfl, rfl⟩ | ⟨-, hr⟩
      · rw [hnext] at hb
        cases hb
      · exact h.exitArg b r p' φ' hr hb he

theorem wf_fork (h : Wf c) (ht : c.thr t = some (p, .creating a)) (hq : c.proc a = some q) :
    Wf ((c.goto t p (.created a)).goto a q.processID .running) := by
  obtain ⟨-, hnone, q₀, hq₀, hd₀⟩ := h.creating t p a ht
  obtain rfl : q = q₀ := Option.some.inj (hq.symm.trans hq₀)
  have h' : Wf (c.goto t p (.created a)) :=
    h.goto_plain ht rfl rfl (fun _ => by simp)
  have hat : a ≠ t := by
    rintro rfl
    rw [hnone] at ht
    cases ht
  have hnone' : (c.goto t p (.created a)).thr a = none := (thr_goto_of_ne hat).trans hnone
  constructor
  case slot_proc => exact h'.slot_proc
  case range => exact h'.range
  case proc_slot => exact h'.proc_slot
  case fresh => exact h'.fresh
  case thr_proc =>
    intro u p' φ' hu
    rcases thr_goto_cases hu with ⟨rfl, hx⟩ | ⟨-, hu⟩
    · cases hx
      exact ⟨q, hq, hd₀, rfl⟩
    · exact h'.thr_proc u p' φ' hu
  case creating =>
    intro u p' b hu
    rcases thr_goto_cases hu with ⟨-, hx⟩ | ⟨-, hu⟩
    · cases hx
    · obtain ⟨hc, hb, hex⟩ := h'.creating u p' b hu
      refine ⟨hc, ?_, hex⟩
      -- only `t` was creating `a`
      have hba : b ≠ a := by
        rintro rfl
        have hut : u ≠ t := by
          rintro rfl
          simp at hu
        have hu₀ : c.thr u = some (p', .creating b) := by simpa [hut] using hu
        exact hut ((h.creating u p' b hu₀).1.symm.trans (h.creating t p b ht).1)
      exact (thr_goto_of_ne hba).trans hb
  case unreleased =>
    intro b r hr hd hrel
    obtain ⟨hv, hn⟩ := h'.unreleased b r hr hd hrel
    refine ⟨hv, fun p' hp' => ?_⟩
    rcases thr_goto_cases hp' with ⟨-, hx⟩ | ⟨-, hp'⟩
    · cases hx
    · exact hn p' hp'
  case leavingAt =>
    intro u p' b hu
    rcases thr_goto_cases hu with ⟨-, hx⟩ | ⟨-, hu⟩
    · cases hx
    · exact h'.leavingAt u p' b hu
  case joinsem =>
    intro b r hr hd hv
    obtain ⟨p', φ', hb, hl⟩ := h'.joinsem b r hr hd hv
    have hba : b ≠ a := by
      rintro rfl
      rw [hnone'] at hb
      cases hb
    exact ⟨p', φ', (thr_goto_of_ne hba).trans hb, hl⟩
  case exitArg =>
    intro b r p' φ' hr hb he
    rcases thr_goto_cases hb with ⟨-, hx⟩ | ⟨-, hb⟩
    · cases hx
      cases he
    · exact h'.exitArg b r p' φ' hr hb he

theorem wf_finish (h : Wf c) (ht : c.thr t = some (p, .removing)) (hq : c.proc t = some q) :
    Wf { c.setProc t { q with deleted := true } with
      slot := Function.update c.slot p none
      thr := Function.update c.thr t none } := by
  have hslot := h.slot_self ht
  have hqp : q.processID = p := by
    obtain ⟨q₀, hq₀, -, hp₀⟩ := h.thr_proc t p _ ht
    rw [Option.some.inj (hq.symm.trans hq₀)]
    exact hp₀
  -- what is still there is another process
  have hproc : ∀ b r, (c.setProc t { q with deleted := true }).proc b = some r →
      r.deleted = false → b ≠ t ∧ c.proc b = some r := by
    intro b r hr hd
    rcases proc_setProc_cases hr with ⟨-, rfl⟩ | hr
    · cases hd
    · exact hr
  have hkeep : ∀ b r, b ≠ t → c.proc b = some r →
      (c.setProc t { q with deleted := true }).proc b = some r :=
    fun b r hb hr => (proc_setProc_of_ne hb).trans hr
  constructor
  case slot_proc =>
    intro j b hj
    by_cases hjp : j = p
    · simp [hjp] at hj
    · have hj : c.slot j = some b := by simpa [hjp] using hj
      obtain ⟨r, hr, hd, hr'⟩ := h.slot_proc j b hj
      have hbt : b ≠ t := by
        rintro rfl
        rw [hq] at hr
        cases hr
        exact hjp (hr'.symm.trans hqp)
      exact ⟨r, hkeep b r hbt hr, hd, hr'⟩
  case range =>
    intro j b hj
    by_cases hjp : j = p
    · simp [hjp] at hj
    · exact h.range j b (by simpa [hjp] using hj)
  case proc_slot =>
    intro b r hr hd
    obtain ⟨hbt, hr⟩ := hproc b r hr hd
    have hs := h.proc_slot b r hr hd
    have hne : r.processID ≠ p := by
      intro heq
      rw [heq, hslot] at hs
      exact hbt (Option.some.inj hs).symm
    exact (Function.update_of_ne hne ..).trans hs
  case thr_proc =>
    intro u p' φ' hu
    obtain ⟨hut, hu⟩ := thr_of_remove hu
    obtain ⟨r, hr, hd, hp⟩ := h.thr_proc u p' φ' hu
    exact ⟨r, hkeep u r hut hr, hd, hp⟩
  case fresh =>
    intro b hb
    obtain ⟨hn, hr⟩ := h.fresh b hb
    have hbt : b ≠ t := by
      rintro rfl
      rw [hq] at hn
      cases hn
    exact ⟨(proc_setProc_of_ne hbt).trans hn, hr⟩
  case creating =>
    intro u p' b hu
    obtain ⟨hut, hu⟩ := thr_of_remove hu
    obtain ⟨hc, hb, r, hr, hd⟩ := h.creating u p' b hu
    have hbt : b ≠ t := by
      rintro rfl
      rw [ht] at hb
      cases hb
    exact ⟨hc, (Function.update_of_ne hbt ..).trans hb, r, hkeep b r hbt hr, hd⟩
  case unreleased =>
    intro b r hr hd hrel
    obtain ⟨hbt, hr⟩ := hproc b r hr hd
    obtain ⟨hv, hn⟩ := h.unreleased b r hr hd hrel
    exact ⟨hv, fun p' hp' => hn p' (thr_of_remove hp').2⟩
  case leavingAt =>
    intro u p' b hu
    exact h.leavingAt u p' b (thr_of_remove hu).2
  case joinsem =>
    intro b r hr hd hv
    obtain ⟨hbt, hr⟩ := hproc b r hr hd
    obtain ⟨p', φ', hb, hl⟩ := h.joinsem b r hr hd hv
    exact ⟨p', φ', (Function.update_of_ne hbt ..).trans hb, hl⟩
  case exitArg =>
    intro b r p' φ' hr hb he
    obtain ⟨hbt, hb⟩ := thr_of_remove hb
    rcases proc_setProc_cases hr with ⟨hbt', -⟩ | ⟨-, hr⟩
    · exact absurd hbt' hbt
    · exact h.exitArg b r p' φ' hr hb he

theorem P_value_ne_zero {σ : Semaphore Addr} (h : (σ.P t).1.value ≠ 0) : σ.value ≠ 0 := by
  intro hz
  rw [Semaphore.P_of_zero hz] at h
  exact h hz

theorem wf_step {l : Label} (h : Wf c) (hs : Step c l c') : Wf c' := by
  cases hs with
  | silent => exact h
  | create ht hi h0 h1 => exact wf_create h ht hi h0 h1
  | fork ht hq => exact wf_fork h ht hq
  | execReturn ht hq =>
    exact (h.goto_plain ht rfl rfl fun _ => by simp).record rfl (fun _ => id) (fun _ _ => id)
      fun _ _ _ _ _ => rfl
  | joinFail ht hbad => exact h.record rfl (fun _ => id) (fun _ _ => id) fun _ _ _ _ _ => rfl
  | joinCall ht hslot hq hp =>
    exact (h.goto_plain ht rfl rfl fun _ => by simp).record rfl (fun _ => id) (fun _ _ => id)
      fun _ _ _ _ _ => rfl
  | joinEval ht hslot => exact h.goto_plain ht rfl rfl fun _ => by simp
  | @joinTest t a p id q ht hq hd hawake =>
    have hset : Wf (c.setProc a { q with joinsem := (q.joinsem.P t).1 }) := by
      refine h.setProc hq rfl rfl (fun hr hd => (h.unreleased a q hq hd hr).1) ?_ fun _ _ _ _ => rfl
      exact fun hd hv => h.joinsem a q hq hd (P_value_ne_zero hv)
    refine hset.goto_plain ht rfl ?_ fun _ => ?_
    · split_ifs <;> rfl
    · split_ifs <;> simp
  | joinRead ht hslot hq => exact h.goto_plain ht rfl rfl fun _ => by simp
  | @release t a p id ec q ht hq hd =>
    have hrec : Wf (c.record (c.hist.release a)) := by
      refine h.record rfl ?_ ?_ fun _ _ _ _ _ => rfl
      · intro b hb
        by_cases hba : b = a
        · simp [History.release, hba] at hb
        · simpa [History.release, hba] using hb
      · intro b hnone hb
        have hba : b ≠ a := by
          rintro rfl
          rw [hq] at hnone
          cases hnone
        simpa [History.release, hba] using hb
    have hset : Wf ((c.record (c.hist.release a)).setProc a
        { q with exitsem := q.exitsem.V.1 }) := by
      refine hrec.setProc hq rfl rfl ?_ (fun hd hv => h.joinsem a q hq hd hv) fun _ _ _ _ => rfl
      intro hr
      simp [record, History.release] at hr
    exact hset.goto_plain ht rfl rfl fun _ => by simp
  | joinReturn ht =>
    exact (h.goto_plain ht rfl rfl fun _ => by simp).record rfl (fun _ => id) (fun _ _ => id)
      fun _ _ _ _ _ => rfl
  | @exitCall t a p ec q ht hslot hq hd =>
    obtain rfl : t = a := h.eq_of_slot ht hslot
    have hset : Wf (c.setProc t { q with exitcode := ec }) := by
      refine h.setProc hq rfl rfl (fun hr hd => (h.unreleased t q hq hd hr).1)
        (fun hd hv => h.joinsem t q hq hd hv) ?_
      intro p' φ' ht' he
      rw [ht] at ht'
      cases ht'
      cases he
    have hrec : Wf ((c.setProc t { q with exitcode := ec }).record (c.hist.exitCall t ec)) := by
      refine hset.record rfl (fun _ => id) (fun _ _ => id) ?_
      intro b p' φ' hb he
      have hbt : b ≠ t := by
        rintro rfl
        rw [show c.thr b = some (p', φ') from hb] at ht
        cases ht
        cases he
      exact Function.update_of_ne hbt ..
    refine hrec.goto ht (fun _ h => by cases h) (fun h => by cases h) (fun _ h => by cases h)
      (fun h => by cases h) fun _ => .inr fun r hr => ?_
    obtain rfl : { q with exitcode := ec } = r := by simpa [record] using hr
    exact Function.update_self ..
  | @joinRelease t a p q ht hslot hq hd =>
    obtain rfl : t = a := h.eq_of_slot ht hslot
    have hgo : Wf (c.goto t p .leaving) :=
      h.goto ht (fun _ h => by cases h) (fun h => by cases h) (fun _ h => by cases h)
        (fun h => by cases h) fun _ => .inl rfl
    exact hgo.setProc hq rfl rfl (fun hr hd => (h.unreleased t q hq hd hr).1)
      (fun _ _ => ⟨p, .leaving, thr_goto_self .., rfl⟩) fun _ _ _ _ => rfl
  | @exitEval t a p ht hslot =>
    obtain rfl : t = a := h.eq_of_slot ht hslot
    exact h.goto ht (fun _ h => by cases h) (fun h => by cases h) (fun _ h => by cases h; rfl)
      (fun _ => rfl) fun _ => .inl rfl
  | @exitTest t a p q ht hq hd hawake =>
    obtain rfl : a = t := h.leavingAt t p a ht
    have hset : Wf (c.setProc a { q with exitsem := (q.exitsem.P a).1 }) := by
      refine h.setProc hq rfl rfl ?_ (fun hd hv => h.joinsem a q hq hd hv) fun _ _ _ _ => rfl
      intro hr hd
      have hz := (h.unreleased a q hq hd hr).1
      rw [Semaphore.P_of_zero hz]
      exact hz
    -- the token that lets a process go was put there by a release
    have hreleased : (q.exitsem.P a).2 = true → c.hist.released a = true := by
      intro hpass
      by_contra hr
      have hz := (h.unreleased a q hq hd (by simpa using hr)).1
      rw [Semaphore.P_of_zero hz] at hpass
      cases hpass
    split_ifs with hpass
    · exact hset.goto ht (fun _ h => by cases h) (fun _ => .inl (hreleased hpass))
        (fun _ h => by cases h) (fun _ => rfl) fun _ => .inl rfl
    · exact hset.goto ht (fun _ h => by cases h) (fun h => by cases h)
        (fun _ h => by cases h; rfl) (fun _ => rfl) fun _ => .inl rfl
  | finish ht hslot hq => exact wf_finish h ht hq
  | removeOther ht hslot hne hq =>
    exact absurd (h.eq_of_slot ht hslot).symm hne
  | removeNone ht hslot => exact absurd hslot (h.slot_ne_none ht)

/-- Every process but the first has its creator in the slot of its parent's pid. -/
def Tree (c : Core) : Prop :=
  ∀ i a q, c.slot i = some a → 0 < i → c.proc a = some q →
    c.slot q.parentID = some (c.hist.creator a)

theorem Tree.of_same (h : Tree c) (hs : c'.slot = c.slot)
    (hc : c'.hist.creator = c.hist.creator)
    (hp : ∀ a q', c'.proc a = some q' → ∃ q, c.proc a = some q ∧ q.parentID = q'.parentID) :
    Tree c' := by
  intro i a q' hi h0 hq'
  obtain ⟨q, hq, hpar⟩ := hp a q' hq'
  rw [hs] at hi ⊢
  rw [hc, ← hpar]
  exact h i a q hi h0 hq

theorem exists_parentID_setProc (hq : c.proc a = some q) (hpar : q'.parentID = q.parentID) :
    ∀ b r', (c.setProc a q').proc b = some r' →
      ∃ r, c.proc b = some r ∧ r.parentID = r'.parentID := by
  intro b r' hr'
  rcases proc_setProc_cases hr' with ⟨rfl, rfl⟩ | ⟨-, hr'⟩
  · exact ⟨q, hq, hpar.symm⟩
  · exact ⟨r', hr', rfl⟩

/-- The tree is kept by every step but the removal of a process that still has children. -/
theorem tree_step {l : Label} (hwf : Wf c) (h : Tree c) (hs : Step c l c')
    (hok : ∀ t p φ, l = .remove t → c.thr t = some (p, φ) →
      ∀ i a q, c.slot i = some a → c.proc a = some q → q.parentID ≠ p) : Tree c' := by
  -- only `create`, which adds a child of its caller, and the removal of a process change the tree
  have hid : ∀ a q', c.proc a = some q' → ∃ q, c.proc a = some q ∧ q.parentID = q'.parentID :=
    fun a q' hq' => ⟨q', hq', rfl⟩
  cases hs with
  | silent => exact h
  | @create t p i ec ht hi h0 h1 =>
    intro j a r hj hj0 hr
    have hself := hwf.slot_self ht
    have hkeep : ∀ k b, c.slot k = some b →
        Function.update c.slot i (some c.next) k = some b := by
      intro k b hk
      have hki : k ≠ i := by
        rintro rfl
        rw [hi] at hk
        cases hk
      exact (Function.update_of_ne hki ..).trans hk
    by_cases hji : j = i
    · subst hji
      obtain rfl : c.next = a := by simpa using hj
      obtain rfl := Option.some.inj ((proc_setProc_self c c.next _).symm.trans hr)
      refine (hkeep p t hself).trans (congrArg some ?_)
      exact (Function.update_self c.next t c.hist.creator).symm
    · have hj : c.slot j = some a := by simpa [hji] using hj
      obtain ⟨q, hq, -⟩ := hwf.slot_proc j a hj
      have han : a ≠ c.next := hwf.ne_next hq
      have hr : c.proc a = some r := (proc_setProc_of_ne han).symm.trans hr
      refine (hkeep _ _ (h j a r hj hj0 hr)).trans (congrArg some ?_)
      exact (Function.update_of_ne han ..).symm
  | fork | execReturn | joinFail | joinCall | joinEval | joinRead | joinReturn | exitEval =>
    exact h.of_same rfl rfl hid
  | joinTest _ hq | release _ hq | exitCall _ _ hq | joinRelease _ _ hq | exitTest _ hq =>
    exact h.of_same rfl rfl (exists_parentID_setProc hq rfl)
  | @finish t p q ht hslot hq =>
    intro j a r hj hj0 hr
    have hjp : j ≠ p := by
      rintro rfl
      simp at hj
    have hj : c.slot j = some a := by simpa [hjp] using hj
    obtain ⟨r₀, hr₀, hpar⟩ := exists_parentID_setProc hq
      (show ({ q with deleted := true } : Proc).parentID = q.parentID from rfl) a r hr
    -- whoever stays is no child of the process that is removed
    have hne := hok t p _ rfl ht j a r₀ hj hr₀
    rw [hpar] at hne
    refine (Function.update_of_ne hne ..).trans ?_
    rw [← hpar]
    exact h j a r₀ hj hj0 hr₀
  | removeOther ht hslot hne hq =>
    exact absurd (hwf.eq_of_slot ht hslot).symm hne
  | removeNone ht hslot => exact absurd hslot (hwf.slot_ne_none ht)

end Core

namespace State

variable {s s' : State} {t : Addr} {θ : Thread} {fresh : Addr → Int × Int}

theorem thr_init {x : Int × Phase} (h : (init fresh).abs.thr t = some x) :
    t = 0 ∧ x = (0, .running) := by
  by_cases h0 : t = 0
  · exact ⟨h0, by simpa [abs, init, h0, eq_comm, PC.phase] using h⟩
  · simp [abs, init, h0] at h

theorem wf_init (fresh : Addr → Int × Int) : (init fresh).abs.Wf := by
  have hslot : ∀ i a, (init fresh).abs.slot i = some a → i = 0 ∧ a = 0 := by
    intro i a hi
    by_cases h0 : i = 0
    · exact ⟨h0, by simpa [abs, init, h0, eq_comm] using hi⟩
    · simp [abs, init, h0] at hi
  have hproc : ∀ a q, (init fresh).abs.proc a = some q →
      a = 0 ∧ q = (newPCB 0 (-1) mainThread (fresh 0)).core := by
    intro a q hq
    by_cases h0 : a = 0
    · exact ⟨h0, by simpa [abs, init, h0, eq_comm] using hq⟩
    · simp [abs, init, h0] at hq
  constructor
  case slot_proc =>
    intro i a hi
    obtain ⟨rfl, rfl⟩ := hslot i a hi
    exact ⟨_, rfl, rfl, rfl⟩
  case range =>
    intro i a hi
    obtain ⟨rfl, rfl⟩ := hslot i a hi
    simp [maxProcess]
  case proc_slot =>
    intro a q hq _
    obtain ⟨rfl, rfl⟩ := hproc a q hq
    rfl
  case thr_proc =>
    intro t p φ ht
    obtain ⟨rfl, hx⟩ := thr_init ht
    cases hx
    exact ⟨_, rfl, rfl, rfl⟩
  case fresh =>
    intro a ha
    have ha : 0 < a := ha
    exact ⟨by simp [abs, init, ha.ne'], rfl⟩
  case creating =>
    intro t p a ht
    cases (thr_init ht).2
  case unreleased =>
    intro a q hq _ _
    obtain ⟨rfl, rfl⟩ := hproc a q hq
    refine ⟨rfl, fun p hp => ?_⟩
    cases (thr_init hp).2
  case leavingAt =>
    intro t p a ht
    cases (thr_init ht).2
  case joinsem =>
    intro a q hq _ hv
    obtain ⟨rfl, rfl⟩ := hproc a q hq
    exact absurd rfl hv
  case exitArg =>
    intro a q p φ _ ha he
    cases (thr_init ha).2
    cases he

theorem wf_of_reach {ok : State → Act → Prop} (h : Reach step ok (init fresh) s) : s.abs.Wf := by
  refine h.invariant (I := fun s => s.abs.Wf) (wf_init fresh) fun s act s' hi _ hs => ?_
  obtain ⟨l, -, hstep⟩ := simulated_step hs
  exact Core.wf_step hi hstep

/-- Nobody is removed whose pid is the `parentID` of a process in the table. -/
def childless (s : State) : Act → Bool
  | .run t =>
    match s.thr t with
    | some θ =>
      if θ.pc = .remove then
        (List.range 10).all fun i : ℕ =>
          match (s.pcb (i : Int)).bind s.heap with
          | some p => p.parentID != θ.processID
          | none => true
      else true
    | none => true
  | .call _ _ => true

theorem tree_of_reach (h : Reach step (fun s act => s.childless act = true) (init fresh) s) :
    s.abs.Tree := by
  refine h.invariant_of_reach (I := fun s => s.abs.Tree) ?_ fun s act s' hr hi hok hs => ?_
  · intro i a q hi h0
    have : i ≠ 0 := h0.ne'
    simp [abs, init, this] at hi
  obtain ⟨l, hshow, hstep⟩ := simulated_step hs
  have hwf := wf_of_reach hr
  refine Core.tree_step hwf hi hstep ?_
  rintro t p φ rfl ht i a q hslot hq
  obtain ⟨rfl, θ, hθ, hpc⟩ := hshow
  rw [abs_thr hθ] at ht
  cases ht
  obtain ⟨h0, h1⟩ := hwf.range i a hslot
  obtain ⟨j, rfl⟩ := Int.eq_ofNat_of_zero_le h0
  obtain ⟨pcb, hpcb, rfl⟩ := Option.map_eq_some_iff.mp hq
  have hj : j < 10 := by
    unfold maxProcess at h1
    omega
  have hslot : s.pcb (j : Int) = some a := hslot
  simp only [childless, hθ, hpc, if_true, List.all_eq_true, List.mem_range] at hok
  have hne := hok j hj
  simp only [hslot, Option.bind_some, hpcb, bne_iff_ne] at hne
  exact hne

/-- In every run in which no process is removed before its children, every process but
the first finds its creator in the slot of its parent's pid, and so do `ExitUpdate` and
`JoinUpdate` when they go through `pcb[pcb[id]->parentID]`. -/
theorem parents_in_place
    (h : Reach step (fun s act => s.childless act = true) (init fresh) s) :
    (∀ i a, 0 < i → s.pcb i = some a → ∃ p p', s.heap a = some p ∧
      s.pcb p.parentID = some (s.hist.creator a) ∧
      s.heap (s.hist.creator a) = some p' ∧ p'.deleted = false) ∧
    (∀ t θ, s.thr t = some θ → θ.processID ≠ 0 → ∃ p, s.pcb θ.processID = some t ∧
      s.heap t = some p ∧ s.pcb p.parentID = some (s.hist.creator t)) ∧
    (∀ t θ id a p, s.thr t = some θ → 0 < id → s.pcb id = some a → s.heap a = some p →
      p.parentID = θ.processID → s.pcb p.parentID = some t ∧ s.hist.creator a = t) := by
  have hwf := wf_of_reach h
  have htree := tree_of_reach h
  have hparent : ∀ i a, 0 < i → s.pcb i = some a → ∃ p, s.heap a = some p ∧
      s.pcb p.parentID = some (s.hist.creator a) := by
    intro i a h0 hi
    obtain ⟨q, hq, -⟩ := hwf.slot_proc i a hi
    obtain ⟨p, hp, rfl⟩ := Option.map_eq_some_iff.mp hq
    exact ⟨p, hp, htree i a _ hi h0 hq⟩
  refine ⟨?_, ?_, ?_⟩
  · intro i a h0 hi
    obtain ⟨p, hp, hpar⟩ := hparent i a h0 hi
    obtain ⟨q', hq', hd, -⟩ := hwf.slot_proc _ _ hpar
    obtain ⟨p', hp', rfl⟩ := Option.map_eq_some_iff.mp hq'
    exact ⟨p, p', hp, hpar, hp', hd⟩
  · intro t θ ht hne
    have hself := hwf.slot_self (abs_thr ht)
    obtain ⟨p, hp, hpar⟩ := hparent θ.processID t
      (lt_of_le_of_ne (hwf.range _ _ hself).1 hne.symm) hself
    exact ⟨p, hself, hp, hpar⟩
  · intro t θ id a p ht h0 hs hp hpar
    have hself := hwf.slot_self (abs_thr ht)
    obtain ⟨p₀, hp₀, hpar₀⟩ := hparent id a h0 hs
    obtain rfl : p = p₀ := Option.some.inj (hp.symm.trans hp₀)
    have hown : s.pcb p.parentID = some t := hpar ▸ hself
    exact ⟨hown, Option.some.inj (hpar₀.symm.trans hown)⟩

/-- A whole call of `ExecUpdate` that finds the locks free. -/
def execActs (t : Addr) (name : Name) : List Act :=
  .call t (.exec (.execUpdate (some name))) :: List.replicate 6 (.run t)

/-- `ExitUpdate` up to the wait in `ExitWait`. -/
def exitActs (t : Addr) (exitcode : Int) : List Act :=
  .call t (.exit exitcode) :: List.replicate 4 (.run t)

/-- A whole call of `JoinUpdate` on a child that is waiting to leave. -/
def joinActs (t : Addr) (id : Int) : List Act :=
  .call t (.join id) :: List.replicate 7 (.run t)

/-- A child that is joined and removed before it had children leaves the tree intact. -/
theorem parents_in_place_leaf : ∃ s,
    Reach step (fun s act => s.childless act = true) (init fun _ => (0, 0)) s ∧
    s.pcb 1 = none ∧ s.pcb 2 = some 2 ∧ s.pcb 0 = some (s.hist.creator 2) := by
  let acts : List Act := [execActs 0 [1], execActs 0 [2], [.run 1], exitActs 1 7, joinActs 0 1,
    [.run 1, .run 1]].flatten
  have hrun : (exec step (fun s act => s.childless act = true) (init fun _ => (0, 0)) acts).map
      (fun s => (s.pcb 1, s.pcb 2, (s.heap 2).map PCB.parentID)) =
      some (none, some 2, some 0) := by decide +kernel
  obtain ⟨s, hexec, hs⟩ := Option.map_eq_some_iff.mp hrun
  have hr := reach_of_exec acts hexec
  simp only [Prod.mk.injEq] at hs
  obtain ⟨p, -, hp, hpar, -⟩ := (parents_in_place hr).1 2 2 (by decide) hs.2.1
  have hzero : p.parentID = 0 := by simpa [hp] using hs.2.2
  exact ⟨s, hr, hs.1, hs.2.1, hzero ▸ hpar⟩

/-- Process 1 creates process 2, exits and is joined: process 2 is left with the pid of
an empty slot as its parent, and its own exit goes through a null pointer. -/
theorem orphan_exit_faults : ∃ s, Reach step (fun _ _ => True) (init fun _ => (0, 0)) s ∧
    s.pcb 2 = some 2 ∧ (s.heap 2).map PCB.parentID = some 1 ∧ s.hist.creator 2 = 1 ∧
    s.pcb 1 = none ∧ (step s (.call 2 (.exit 0))).map State.status = some .fault := by
  let acts : List Act := [execActs 0 [1], [.run 1], execActs 1 [2], [.run 2], exitActs 1 7,
    joinActs 0 1, [.run 1, .run 1]].flatten
  have hrun : (exec step (fun _ _ => True) (init fun _ => (0, 0)) acts).map
      (fun s => (s.pcb 2, (s.heap 2).map PCB.parentID, s.hist.creator 2, s.pcb 1,
        (step s (.call 2 (.exit 0))).map State.status)) =
      some (some 2, some 1, 1, none, some .fault) := by decide +kernel
  obtain ⟨s, hexec, hs⟩ := Option.map_eq_some_iff.mp hrun
  simp only [Prod.mk.injEq] at hs
  exact ⟨s, reach_of_exec acts hexec, hs.1, hs.2.1, hs.2.2.1, hs.2.2.2.1, hs.2.2.2.2⟩

end State
end Nachos.PTable
