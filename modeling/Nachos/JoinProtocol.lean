import Nachos.JoinSafety

namespace Nachos.PTable
open GuardedRun

def Phase.child : Phase → Option Addr
  | .creating a | .created a => some a
  | _ => none

def Phase.value : Phase → Option Int
  | .releasing _ _ e | .joined _ e => some e
  | _ => none

def Phase.collects : Phase → Option Int
  | .collecting id => some id
  | _ => none

/-- What a step may do to a PCB. -/
structure Proc.Evolves (q q' : Proc) (unreleased exited : Prop) : Prop where
  processID : q'.processID = q.processID
  parentID : q'.parentID = q.parentID
  deleted : unreleased → q'.deleted = q.deleted
  exitcode : exited → q'.exitcode = q.exitcode

theorem Proc.Evolves.refl (q : Proc) (unreleased exited : Prop) :
    q.Evolves q unreleased exited := ⟨rfl, rfl, fun _ => rfl, fun _ => rfl⟩

namespace Core

variable {c c' : Core} {t u a b : Addr} {p p' id id' e : Int} {φ φ' ψ : Phase}
  {q q' : Proc} {l : Label}

structure Once (c : Core) : Prop where
  proc : ∀ a, c.hist.exitArg a ≠ none → ∃ q, c.proc a = some q
  creating : ∀ t p a, c.thr t = some (p, .creating a) → c.hist.exitArg a = none
  running : ∀ a p φ, c.thr a = some (p, φ) → φ.exited = false → c.hist.exitArg a = none

theorem Once.goto (h : Once c) (ht : c.thr t = some (p, φ))
    (hcreating : ∀ a, ψ = .creating a → φ = .creating a)
    (hexited : ψ.exited = false → φ.exited = false) : Once (c.goto t p ψ) where
  proc := h.proc
  creating := by
    intro u p' a hu
    rcases thr_goto_cases hu with ⟨rfl, hx⟩ | ⟨-, hu⟩
    · cases hx
      exact h.creating u p a ((hcreating a rfl) ▸ ht)
    · exact h.creating u p' a hu
  running := by
    intro u p' φ' hu hφ'
    rcases thr_goto_cases hu with ⟨rfl, hx⟩ | ⟨-, hu⟩
    · cases hx
      exact h.running u p φ ht (hexited hφ')
    · exact h.running u p' φ' hu hφ'

theorem Once.setProc (h : Once c) : Once (c.setProc a q) where
  proc := by
    intro b hb
    by_cases hba : b = a
    · exact ⟨q, hba ▸ proc_setProc_self ..⟩
    · obtain ⟨r, hr⟩ := h.proc b hb
      exact ⟨r, (proc_setProc_of_ne hba).trans hr⟩
  creating := h.creating
  running := h.running

theorem Once.record (h : Once c) {hist : History} (hhist : hist.exitArg = c.hist.exitArg) :
    Once (c.record hist) where
  proc := fun a ha => h.proc a (by rwa [← congrFun hhist a])
  creating := fun t p a ht => (congrFun hhist a).trans (h.creating t p a ht)
  running := fun a p φ ha hφ => (congrFun hhist a).trans (h.running a p φ ha hφ)

theorem once_create (hwf : Wf c) (h : Once c) {i ec : Int}
    (ht : c.thr t = some (p, .running)) :
    Once { (c.setProc c.next ⟨i, p, ec, .new 0, .new 0, false⟩).goto t p (.creating c.next) with
      slot := Function.update c.slot i (some c.next)
      next := c.next + 1
      hist := c.hist.create t c.next } where
  proc := h.setProc.proc
  creating := by
    intro u p' a hu
    rcases thr_goto_cases (c := c) hu with ⟨-, hx⟩ | ⟨-, hu⟩
    · cases hx
      by_contra hne
      obtain ⟨q, hq⟩ := h.proc c.next hne
      exact hwf.ne_next hq rfl
    · exact h.creating u p' a hu
  running := by
    intro u p' φ' hu hφ'
    rcases thr_goto_cases (c := c) hu with ⟨rfl, -⟩ | ⟨-, hu⟩
    · exact h.running u p _ ht rfl
    · exact h.running u p' φ' hu hφ'

theorem once_exitCall (hwf : Wf c) (h : Once c) {ec : Int}
    (ht : c.thr t = some (p, .running)) :
    Once ((c.goto t p .exiting).record (c.hist.exitCall t ec)) where
  proc := by
    intro b hb
    by_cases hbt : b = t
    · obtain ⟨q, hq, -⟩ := hwf.thr_proc t p _ ht
      exact ⟨q, hbt ▸ hq⟩
    · exact h.proc b (by simpa [record, History.exitCall, hbt] using hb)
  creating := by
    intro u p' b hu
    rcases thr_goto_cases hu with ⟨-, hx⟩ | ⟨-, hold⟩
    · cases hx
    · have hbt : b ≠ t := by
        rintro rfl
        exact absurd ((hwf.creating u p' b hold).2.1.symm.trans ht) (by simp)
      exact (Function.update_of_ne hbt ..).trans (h.creating u p' b hold)
  running := by
    intro u p' φ' hu hφ'
    rcases thr_goto_cases hu with ⟨-, hx⟩ | ⟨hut, hu⟩
    · cases hx
      cases hφ'
    · exact (Function.update_of_ne hut ..).trans (h.running u p' φ' hu hφ')

theorem once_step (hwf : Wf c) (h : Once c) (hs : Step c l c') : Once c' := by
  cases hs with
  | silent => exact h
  | create ht hi h0 h1 => exact once_create hwf h ht
  | @fork t a p q ht hq =>
    have hgo : Once (c.goto t p (.created a)) := h.goto ht (by simp) (by simp [Phase.exited])
    refine ⟨hgo.proc, ?_, ?_⟩
    · intro u p' b hu
      rcases thr_goto_cases hu with ⟨-, hx⟩ | ⟨-, hu⟩
      · cases hx
      · exact hgo.creating u p' b hu
    · intro u p' φ' hu hφ'
      rcases thr_goto_cases hu with ⟨rfl, -⟩ | ⟨-, hu⟩
      · exact h.creating t p u ht
      · exact hgo.running u p' φ' hu hφ'
  | execReturn ht | joinCall ht | joinReturn ht =>
    exact (h.goto ht (by simp) (by simp [Phase.exited])).record rfl
  | joinFail ht hbad => exact h.record rfl
  | joinEval ht | joinRead ht | exitEval ht => exact h.goto ht (by simp) (by simp [Phase.exited])
  | joinTest ht hq hd hawake =>
    refine h.setProc.goto ht (fun _ => ?_) (by simp [Phase.exited])
    split_ifs <;> simp
  | release ht hq hd => exact (h.setProc.goto ht (by simp) (by simp [Phase.exited])).record rfl
  | @exitCall t a p ec q ht hslot hq hd => exact (once_exitCall hwf h ht).setProc
  | joinRelease ht hslot hq hd => exact h.setProc.goto ht (by simp) (by simp [Phase.exited])
  | exitTest ht hq hd hawake =>
    refine h.setProc.goto ht (fun _ => ?_) ?_ <;> split_ifs <;> simp [Phase.exited]
  | @finish t p q ht hslot hq =>
    exact ⟨h.setProc.proc, fun u p' b hu => h.creating u p' b ((thr_of_remove hu).2),
      fun u p' φ' hu => h.running u p' φ' ((thr_of_remove hu).2)⟩
  | removeOther ht hslot hne hq =>
    exact absurd (hwf.eq_of_slot ht hslot).symm hne
  | removeNone ht hslot => exact absurd hslot (hwf.slot_ne_none ht)

/-- A PCB keeps its ids; it is not deleted before it is released, nor its exit code set
a second time. -/
def Evolving (c c' : Core) : Prop :=
  ∀ b r, c.proc b = some r → ∃ r', c'.proc b = some r' ∧
    r.Evolves r' (c.hist.released b = false) (c.hist.exitArg b ≠ none)

theorem evolving_same (h : c'.proc = c.proc) : Evolving c c' := by
  intro b r hr
  exact ⟨r, by rw [h, hr], .refl ..⟩

theorem evolving_setProc (hq : c.proc a = some q) (h : c'.proc = (c.setProc a q').proc)
    (hev : q.Evolves q' (c.hist.released a = false) (c.hist.exitArg a ≠ none)) :
    Evolving c c' := by
  intro b r hr
  rw [h]
  by_cases hba : b = a
  · subst hba
    obtain rfl : q = r := Option.some.inj (hq.symm.trans hr)
    exact ⟨q', proc_setProc_self .., hev⟩
  · exact ⟨r, (proc_setProc_of_ne hba).trans hr, .refl ..⟩

theorem evolving_step (hwf : Wf c) (honce : Once c) (hs : Step c l c') : Evolving c c' := by
  cases hs with
  | silent | fork | execReturn | exitEval => exact evolving_same rfl
  | joinFail | joinCall | joinEval | joinRead | joinReturn => exact evolving_same rfl
  | create ht hi h0 h1 =>
    intro b r hr
    exact ⟨r, (proc_setProc_of_ne (hwf.ne_next hr)).trans hr, .refl ..⟩
  | joinTest _ hq | release _ hq | joinRelease _ _ hq | exitTest _ hq =>
    exact evolving_setProc hq rfl ⟨rfl, rfl, fun _ => rfl, fun _ => rfl⟩
  | @exitCall t a p ec q ht hslot hq hd =>
    obtain rfl : t = a := hwf.eq_of_slot ht hslot
    refine evolving_setProc hq rfl ⟨rfl, rfl, fun _ => rfl, fun hex => ?_⟩
    exact absurd (honce.running t p _ ht rfl) hex
  | @finish t p q ht hslot hq =>
    refine evolving_setProc hq rfl ⟨rfl, rfl, fun hrel => ?_, fun _ => rfl⟩
    obtain ⟨r, hr, hd, -⟩ := hwf.thr_proc t p _ ht
    exact absurd ht ((hwf.unreleased t r hr hd hrel).2 p)
  | removeOther ht hslot hne hq =>
    exact absurd (hwf.eq_of_slot ht hslot).symm hne
  | removeNone ht hslot => exact absurd hslot (hwf.slot_ne_none ht)

/-- Who created a process, and what it has passed to `ExitUpdate`, does not change. -/
theorem hist_step (hwf : Wf c) (honce : Once c) (hs : Step c l c') (hq : c.proc a = some q) :
    c'.hist.creator a = c.hist.creator a ∧
      (c.hist.exitArg a ≠ none → c'.hist.exitArg a = c.hist.exitArg a) := by
  cases hs with
  | create ht hi h0 h1 => exact ⟨Function.update_of_ne (hwf.ne_next hq) .., fun _ => rfl⟩
  | @exitCall t b p ec r ht hslot hr hd =>
    refine ⟨rfl, fun hex => ?_⟩
    have hat : a ≠ t := by
      rintro rfl
      exact hex (honce.running a p _ ht rfl)
    exact Function.update_of_ne hat ..
  | _ => exact ⟨rfl, fun _ => rfl⟩

/-- `a` is a child that `t` has created and not released. -/
structure Owner (c : Core) (t a : Addr) : Prop where
  creator : c.hist.creator a = t
  unreleased : c.hist.released a = false
  child : ∃ q r, c.proc a = some q ∧ q.deleted = false ∧ c.proc t = some r ∧
    q.parentID = r.processID

/-- How `t` can be tied to `a`: it is creating it, has its pid, or is joining it. -/
inductive Tied (c : Core) (t a : Addr) : Prop
  | made {p : Int} {φ : Phase} (ht : c.thr t = some (p, φ)) (hφ : φ.child = some a)
  | pending {id : Int} (hmem : (id, a) ∈ c.hist.pending t)
  | asked {p id : Int} {φ : Phase} (ht : c.thr t = some (p, φ)) (hφ : φ.joins = some id)
      (hasked : c.hist.asked t = some a)

/-- Nobody is tied to a process but its creator, and that in one way at a time. -/
structure Protocol (c : Core) : Prop where
  owner : ∀ t a, Tied c t a → Owner c t a
  made : ∀ t p φ a, c.thr t = some (p, φ) → φ.child = some a → ∀ id, (id, a) ∉ c.hist.pending t
  slot : ∀ t id a, (id, a) ∈ c.hist.pending t → c.slot id = some a
  nodup : ∀ t, ((c.hist.pending t).map Prod.snd).Nodup
  asked : ∀ t p φ id, c.thr t = some (p, φ) → φ.joins = some id →
    ∃ a, c.hist.asked t = some a ∧ c.hist.target t = some a ∧ ∀ id', (id', a) ∉ c.hist.pending t

theorem owner_step (hwf : Wf c) (honce : Once c) (hs : Step c l c') (h : Owner c t a)
    (hrel : c'.hist.released a = false) : Owner c' t a := by
  obtain ⟨hcreator, hunrel, q, r, hq, hd, hr, hpar⟩ := h
  obtain ⟨q', hq', hevq⟩ := evolving_step hwf honce hs a q hq
  obtain ⟨r', hr', hevr⟩ := evolving_step hwf honce hs t r hr
  refine ⟨(hist_step hwf honce hs hq).1.trans hcreator, hrel, q', r', hq',
    (hevq.deleted hunrel).trans hd, hr', ?_⟩
  rw [hevq.parentID, hevr.processID, hpar]

theorem slot_step (hwf : Wf c) (honce : Once c) (hs : Step c l c') (h : c.slot id = some a)
    (hrel : c.hist.released a = false) : c'.slot id = some a := by
  obtain ⟨q, hq, hd, rfl⟩ := hwf.slot_proc id a h
  obtain ⟨q', hq', hev⟩ := evolving_step hwf honce hs a q hq
  rw [← hev.processID]
  exact (wf_step hwf hs).proc_slot a q' hq' ((hev.deleted hrel).trans hd)

theorem phase_of_goto {β : Type} (f : Phase → Option β) (ht : c.thr t = some (p, φ))
    (hψ : ∀ x, f ψ = some x → f φ = some x) {x : β}
    (hu : (c.goto t p ψ).thr u = some (p', φ')) (hx : f φ' = some x) :
    ∃ p φ, c.thr u = some (p, φ) ∧ f φ = some x := by
  rcases thr_goto_cases hu with ⟨rfl, heq⟩ | ⟨-, hu⟩
  · cases heq
    exact ⟨p, φ, ht, hψ x hx⟩
  · exact ⟨p', φ', hu, hx⟩

theorem Protocol.of_step (hwf : Wf c) (honce : Once c) (h : Protocol c) (hs : Step c l c')
    (hchild : ∀ u p φ b, c'.thr u = some (p, φ) → φ.child = some b →
      ∃ p φ, c.thr u = some (p, φ) ∧ φ.child = some b)
    (hjoins : ∀ u p φ id, c'.thr u = some (p, φ) → φ.joins = some id →
      ∃ p φ, c.thr u = some (p, φ) ∧ φ.joins = some id)
    (hpending : c'.hist.pending = c.hist.pending) (hasked : c'.hist.asked = c.hist.asked)
    (htarget : c'.hist.target = c.hist.target)
    (hrel : ∀ u b, Tied c' u b → Owner c u b → c'.hist.released b = false) : Protocol c' := by
  -- nobody is tied to more than before
  have htied : ∀ u b, Tied c' u b → Tied c u b := by
    intro u b hc
    cases hc with
    | made hu hφ =>
      obtain ⟨p, φ, hu, hφ⟩ := hchild u _ _ b hu hφ
      exact .made hu hφ
    | pending hmem => exact .pending (hpending ▸ hmem)
    | asked hu hφ ha =>
      obtain ⟨p, φ, hu, hφ⟩ := hjoins u _ _ _ hu hφ
      exact .asked hu hφ (hasked ▸ ha)
  constructor
  case owner =>
    intro u b hc
    have ho := h.owner u b (htied u b hc)
    exact owner_step hwf honce hs ho (hrel u b hc ho)
  case made =>
    intro u p φ b hu hφ
    obtain ⟨p, φ, hu, hφ⟩ := hchild u p φ b hu hφ
    rw [hpending]
    exact h.made u p φ b hu hφ
  case slot =>
    intro u id b hmem
    rw [hpending] at hmem
    exact slot_step hwf honce hs (h.slot u id b hmem) (h.owner u b (.pending hmem)).unreleased
  case nodup =>
    intro u
    rw [hpending]
    exact h.nodup u
  case asked =>
    intro u p φ id hu hφ
    obtain ⟨p, φ, hu, hφ⟩ := hjoins u p φ id hu hφ
    rw [hpending, hasked, htarget]
    exact h.asked u p φ id hu hφ

theorem Protocol.goto (hwf : Wf c) (honce : Once c) (h : Protocol c) (hs : Step c l c')
    (ht : c.thr t = some (p, φ)) (hthr : c'.thr = (c.goto t p ψ).thr)
    (hchild : ∀ b, ψ.child = some b → φ.child = some b)
    (hjoins : ∀ id, ψ.joins = some id → φ.joins = some id)
    (hpending : c'.hist.pending = c.hist.pending) (hasked : c'.hist.asked = c.hist.asked)
    (htarget : c'.hist.target = c.hist.target)
    (hrel : ∀ u b, Tied c' u b → Owner c u b → c'.hist.released b = false) : Protocol c' := by
  refine h.of_step hwf honce hs ?_ ?_ hpending hasked htarget hrel
  · intro u p' φ' b hu hφ
    rw [hthr] at hu
    exact phase_of_goto Phase.child ht hchild hu hφ
  · intro u p' φ' id hu hφ
    rw [hthr] at hu
    exact phase_of_goto Phase.joins ht hjoins hu hφ

theorem not_mem_eraseP {l : List (Int × Addr)} (hnodup : (l.map Prod.snd).Nodup)
    (hmem : (id, a) ∈ l) (huniq : ∀ b, (id, b) ∈ l → b = a) :
    l.find? (·.1 == id) = some (id, a) ∧ ∀ id', (id', a) ∉ l.eraseP (·.1 == id) := by
  induction l with
  | nil => cases hmem
  | cons x l ih =>
    obtain ⟨i, b⟩ := x
    rw [List.map_cons, List.nodup_cons] at hnodup
    by_cases hi : i = id
    · subst hi
      obtain rfl : b = a := huniq b List.mem_cons_self
      refine ⟨by simp, fun id' hmem' => hnodup.1 ?_⟩
      rw [List.eraseP_cons_of_pos (by simp)] at hmem'
      exact List.mem_map.mpr ⟨(id', b), hmem', rfl⟩
    · have hin : (id, a) ∈ l := by
        rcases List.mem_cons.mp hmem with heq | hmem
        · cases heq
          exact absurd rfl hi
        · exact hmem
      obtain ⟨hfind, hnot⟩ := ih hnodup.2 hin fun b' hb' => huniq b' (List.mem_cons_of_mem _ hb')
      refine ⟨by rw [List.find?_cons_of_neg (by simpa using hi), hfind], fun id' hmem' => ?_⟩
      rw [List.eraseP_cons_of_neg (by simpa using hi)] at hmem'
      rcases List.mem_cons.mp hmem' with heq | hmem'
      · cases heq
        exact hnodup.1 (List.mem_map.mpr ⟨(id, a), hin, rfl⟩)
      · exact hnot id' hmem'

theorem protocol_create (hwf : Wf c) (honce : Once c) (h : Protocol c) {i ec : Int}
    (ht : c.thr t = some (p, .running))
    (hs : Step c .tau { (c.setProc c.next ⟨i, p, ec, .new 0, .new 0, false⟩).goto t p
        (.creating c.next) with
      slot := Function.update c.slot i (some c.next)
      next := c.next + 1
      hist := c.hist.create t c.next }) :
    Protocol { (c.setProc c.next ⟨i, p, ec, .new 0, .new 0, false⟩).goto t p
        (.creating c.next) with
      slot := Function.update c.slot i (some c.next)
      next := c.next + 1
      hist := c.hist.create t c.next } := by
  -- the new process is tied to nobody but the caller, as its number is fresh
  obtain ⟨r, hr, -, hrp⟩ := hwf.thr_proc t p _ ht
  have hold : ∀ u b, Tied c u b → c.hist.released b = false := fun u b hc =>
    (h.owner u b hc).unreleased
  constructor
  case nodup => exact h.nodup
  case owner =>
    intro u b hc
    cases hc with
    | made hu hφ =>
      rcases thr_goto_cases (c := c) hu with ⟨rfl, hx⟩ | ⟨-, hu⟩
      · cases hx
        cases hφ
        exact ⟨Function.update_self .., (hwf.fresh c.next le_rfl).2, _, r, proc_setProc_self ..,
          rfl, (proc_setProc_of_ne (hwf.ne_next hr)).trans hr, hrp.symm⟩
      · have hc : Tied c u b := .made hu hφ
        exact owner_step hwf honce hs (h.owner u b hc) (hold u b hc)
    | pending hmem =>
      have hc : Tied c u b := .pending hmem
      exact owner_step hwf honce hs (h.owner u b hc) (hold u b hc)
    | asked hu hφ ha =>
      rcases thr_goto_cases (c := c) hu with ⟨-, hx⟩ | ⟨-, hu⟩
      · cases hx
        cases hφ
      · have hc : Tied c u b := .asked hu hφ ha
        exact owner_step hwf honce hs (h.owner u b hc) (hold u b hc)
  case made =>
    intro u p' φ' b hu hφ
    rcases thr_goto_cases (c := c) hu with ⟨-, hx⟩ | ⟨-, hu⟩
    · cases hx
      cases hφ
      intro id hmem
      obtain ⟨q, -, hq, -⟩ := (h.owner u c.next (.pending hmem)).child
      exact hwf.ne_next hq rfl
    · exact h.made u p' φ' b hu hφ
  case slot =>
    intro u id b hmem
    exact slot_step hwf honce hs (h.slot u id b hmem) (hold u b (.pending hmem))
  case asked =>
    intro u p' φ' id hu hφ
    rcases thr_goto_cases (c := c) hu with ⟨-, hx⟩ | ⟨-, hu⟩
    · cases hx
      cases hφ
    · exact h.asked u p' φ' id hu hφ

theorem protocol_execReturn (hwf : Wf c) (honce : Once c) (h : Protocol c)
    (ht : c.thr t = some (p, .created a)) (hq : c.proc a = some q)
    (hs : Step c .tau ((c.goto t p .running).record (c.hist.execReturn t q.processID a))) :
    Protocol ((c.goto t p .running).record (c.hist.execReturn t q.processID a)) := by
  have hmine : Tied c t a := .made ht rfl
  have hpending : ∀ u, u ≠ t →
      (c.hist.execReturn t q.processID a).pending u = c.hist.pending u :=
    fun u hut => Function.update_of_ne hut ..
  -- the entries there are now: those from before, and the new one
  have hmem : ∀ u id b, (id, b) ∈ (c.hist.execReturn t q.processID a).pending u →
      (u = t ∧ id = q.processID ∧ b = a) ∨ (id, b) ∈ c.hist.pending u := by
    intro u id b hm
    by_cases hut : u = t
    · subst hut
      have hm : (id, b) ∈ (q.processID, a) :: c.hist.pending u := by
        simpa [History.execReturn] using hm
      rcases List.mem_cons.mp hm with heq | hm
      · cases heq
        exact .inl ⟨rfl, rfl, rfl⟩
      · exact .inr hm
    · exact .inr (hpending u hut ▸ hm)
  have hkeep : ∀ u b, Tied c u b →
      Owner ((c.goto t p .running).record (c.hist.execReturn t q.processID a)) u b :=
    fun u b hc => owner_step hwf honce hs (h.owner u b hc) (h.owner u b hc).unreleased
  constructor
  case owner =>
    intro u b hc
    cases hc with
    | made hu hφ =>
      rcases thr_goto_cases hu with ⟨-, hx⟩ | ⟨-, hu⟩
      · cases hx
        cases hφ
      · exact hkeep u b (.made hu hφ)
    | pending hm =>
      rcases hmem u _ b hm with ⟨rfl, -, rfl⟩ | hm
      · exact hkeep u b hmine
      · exact hkeep u b (.pending hm)
    | asked hu hφ ha =>
      rcases thr_goto_cases hu with ⟨-, hx⟩ | ⟨-, hu⟩
      · cases hx
        cases hφ
      · exact hkeep u b (.asked hu hφ ha)
  case made =>
    intro u p' φ' b hu hφ id
    rcases thr_goto_cases hu with ⟨-, hx⟩ | ⟨hut, hu⟩
    · cases hx
      cases hφ
    · exact (hpending u hut).symm ▸ h.made u p' φ' b hu hφ id
  case slot =>
    intro u id b hm
    rcases hmem u id b hm with ⟨-, rfl, rfl⟩ | hm
    · obtain ⟨q₀, -, hq₀, hd, -⟩ := (h.owner t b hmine).child
      cases hq.symm.trans hq₀
      exact hwf.proc_slot b q hq hd
    · exact h.slot u id b hm
  case nodup =>
    intro u
    by_cases hut : u = t
    · subst hut
      have hnew : a ∉ (c.hist.pending u).map Prod.snd := by
        intro hin
        obtain ⟨⟨id, b⟩, hm, rfl⟩ := List.mem_map.mp hin
        exact h.made u p _ b ht rfl id hm
      simpa [record, History.execReturn] using ⟨by simpa using hnew, h.nodup u⟩
    · exact (hpending u hut).symm ▸ h.nodup u
  case asked =>
    intro u p' φ' id hu hφ
    rcases thr_goto_cases hu with ⟨-, hx⟩ | ⟨hut, hu⟩
    · cases hx
      cases hφ
    · obtain ⟨b, hasked, htarget, hnot⟩ := h.asked u p' φ' id hu hφ
      exact ⟨b, hasked, htarget, (hpending u hut).symm ▸ hnot⟩

theorem protocol_joinCall (hwf : Wf c) (honce : Once c) (h : Protocol c)
    (ht : c.thr t = some (p, .running)) (hslot : c.slot id = some a)
    (hmine : ∃ b, (id, b) ∈ c.hist.pending t)
    (hs : Step c l ((c.goto t p (.joining id)).record (c.hist.joinCall t id a))) :
    Protocol ((c.goto t p (.joining id)).record (c.hist.joinCall t id a)) := by
  -- the slot of the pid still holds the child it was returned for, so the pid is passed on for that
  -- child and taken off the list of the caller
  have huniq : ∀ b, (id, b) ∈ c.hist.pending t → b = a := fun b hb =>
    Option.some.inj ((h.slot t id b hb).symm.trans hslot)
  have hmem : (id, a) ∈ c.hist.pending t := by
    obtain ⟨b, hb⟩ := hmine
    exact huniq b hb ▸ hb
  obtain ⟨hfind, hnot⟩ := not_mem_eraseP (h.nodup t) hmem huniq
  have hasked : (c.hist.joinCall t id a).asked t = some a := by
    simp [History.joinCall, History.ask, hfind]
  have hpending : (c.hist.joinCall t id a).pending t = (c.hist.pending t).eraseP (·.1 == id) :=
    Function.update_self ..
  have hother : ∀ u, u ≠ t → (c.hist.joinCall t id a).pending u = c.hist.pending u ∧
      (c.hist.joinCall t id a).asked u = c.hist.asked u ∧
      (c.hist.joinCall t id a).target u = c.hist.target u := fun u hut =>
    ⟨Function.update_of_ne hut .., Function.update_of_ne hut .., Function.update_of_ne hut ..⟩
  have hsub : ∀ u x, x ∈ (c.hist.joinCall t id a).pending u → x ∈ c.hist.pending u := by
    intro u x hx
    by_cases hut : u = t
    · subst hut
      rw [hpending] at hx
      exact List.mem_of_mem_eraseP hx
    · exact (hother u hut).1 ▸ hx
  have hkeep : ∀ u b, Tied c u b →
      Owner ((c.goto t p (.joining id)).record (c.hist.joinCall t id a)) u b :=
    fun u b hc => owner_step hwf honce hs (h.owner u b hc) (h.owner u b hc).unreleased
  constructor
  case owner =>
    intro u b hc
    cases hc with
    | made hu hφ =>
      rcases thr_goto_cases hu with ⟨-, hx⟩ | ⟨-, hu⟩
      · cases hx
        cases hφ
      · exact hkeep u b (.made hu hφ)
    | pending hm => exact hkeep u b (.pending (hsub u _ hm))
    | asked hu hφ ha =>
      rcases thr_goto_cases hu with ⟨rfl, -⟩ | ⟨hut, hu⟩
      · obtain rfl : a = b := Option.some.inj (hasked.symm.trans ha)
        exact hkeep u a (.pending hmem)
      · exact hkeep u b (.asked hu hφ ((hother u hut).2.1 ▸ ha))
  case made =>
    intro u p' φ' b hu hφ id' hm
    rcases thr_goto_cases hu with ⟨-, hx⟩ | ⟨-, hu⟩
    · cases hx
      cases hφ
    · exact h.made u p' φ' b hu hφ id' (hsub u _ hm)
  case slot =>
    intro u id' b hm
    exact h.slot u id' b (hsub u _ hm)
  case nodup =>
    intro u
    by_cases hut : u = t
    · subst hut
      refine List.Nodup.sublist ?_ (h.nodup u)
      exact (hpending ▸ List.eraseP_sublist).map Prod.snd
    · exact (hother u hut).1.symm ▸ h.nodup u
  case asked =>
    intro u p' φ' id' hu hφ
    rcases thr_goto_cases hu with ⟨rfl, -⟩ | ⟨hut, hu⟩
    · exact ⟨a, hasked, Function.update_self .., fun id' => hpending.symm ▸ hnot id'⟩
    · obtain ⟨b, hb, htarget, hnot⟩ := h.asked u p' φ' id' hu hφ
      obtain ⟨h1, h2, h3⟩ := hother u hut
      exact ⟨b, h2.trans hb, h3.trans htarget, h1.symm ▸ hnot⟩

theorem protocol_release (hwf : Wf c) (honce : Once c) (hj : Joining c) (h : Protocol c)
    (ht : c.thr t = some (p, .releasing id a e))
    (hs : Step c l (((c.setProc a q').goto t p (.joined id e)).record (c.hist.release a))) :
    Protocol (((c.setProc a q').goto t p (.joined id e)).record (c.hist.release a)) := by
  obtain ⟨b, hb, hf⟩ := hj.joiner t p _ id ht rfl
  obtain rfl : a = b := hf a rfl
  obtain ⟨b', hasked, htarget, hnot⟩ := h.asked t p _ id ht rfl
  obtain rfl : a = b' := Option.some.inj (hb.target.symm.trans htarget)
  refine h.goto hwf honce hs ht rfl (by simp [Phase.child]) (by simp [Phase.joins]) rfl rfl rfl ?_
  intro u b hc ho
  have hne : b ≠ a := by
    rintro rfl
    obtain rfl : t = u := (h.owner t b (.asked ht rfl hasked)).creator.symm.trans ho.creator
    cases hc with
    | made hu hφ =>
      cases (thr_goto_self c t p (.joined id e)).symm.trans hu
      cases hφ
    | pending hm => exact hnot _ hm
    | asked hu hφ ha =>
      cases (thr_goto_self c t p (.joined id e)).symm.trans hu
      cases hφ
  exact (Function.update_of_ne hne ..).trans ho.unreleased

/-- A pid that its owner has yet to pass on passes the validity check. -/
theorem Protocol.entitled (hwf : Wf c) (h : Protocol c) (ht : c.thr t = some (p, φ))
    (hmem : (id, a) ∈ c.hist.pending t) :
    c.slot id = some a ∧ c.hist.released a = false ∧ ∃ q, c.proc a = some q ∧ q.parentID = p := by
  have ho := h.owner t a (.pending hmem)
  obtain ⟨q, r, hq, -, hr, hpar⟩ := ho.child
  obtain ⟨r', hr', -, hp⟩ := hwf.thr_proc t p _ ht
  cases hr.symm.trans hr'
  exact ⟨h.slot t id a hmem, ho.unreleased, q, hq, hpar.trans hp⟩

theorem Protocol.not_joinFail (hwf : Wf c) (h : Protocol c) (ht : c.thr t = some (p, φ))
    (hmine : ∃ a, (id, a) ∈ c.hist.pending t)
    (hbad : 0 ≤ id → id < maxProcess → ∀ a q, c.slot id = some a → c.proc a = some q →
      q.parentID ≠ p) : False := by
  obtain ⟨a, hmem⟩ := hmine
  obtain ⟨hslot, -, q, hq, hpar⟩ := h.entitled hwf ht hmem
  obtain ⟨h0, h1⟩ := hwf.range id a hslot
  exact hbad h0 h1 a q hslot hq hpar

theorem protocol_step (hwf : Wf c) (honce : Once c) (hj : Joining c) (h : Protocol c)
    (hs : Step c l c')
    (hok : ∀ t id, l = .join t id → ∃ a, (id, a) ∈ c.hist.pending t) : Protocol c' := by
  have hstep := hs
  have hown : ∀ u b, Tied c' u b → Owner c u b → c.hist.released b = false :=
    fun _ _ _ ho => ho.unreleased
  cases hs with
  | silent => exact h
  | create ht hi h0 h1 => exact protocol_create hwf honce h ht hstep
  | @fork t a p q ht hq =>
    refine h.of_step hwf honce hstep ?_ ?_ rfl rfl rfl hown
    · intro u p' φ' b hu hφ
      rcases thr_goto_cases hu with ⟨-, hx⟩ | ⟨-, hu⟩
      · cases hx
        cases hφ
      · exact phase_of_goto Phase.child ht (by simp [Phase.child]) hu hφ
    · intro u p' φ' id hu hφ
      rcases thr_goto_cases hu with ⟨-, hx⟩ | ⟨-, hu⟩
      · cases hx
        cases hφ
      · exact phase_of_goto Phase.joins ht (by simp [Phase.joins]) hu hφ
  | execReturn ht hq => exact protocol_execReturn hwf honce h ht hq hstep
  | @joinFail t p id ht hbad =>
    exact (h.not_joinFail hwf ht (hok t id rfl) hbad).elim
  | @joinCall t a p id q ht hslot hq hp =>
    exact protocol_joinCall hwf honce h ht hslot (hok t id rfl) hstep
  | joinEval ht | joinRead ht | joinReturn ht | exitCall ht | joinRelease ht | exitEval ht =>
    exact h.goto hwf honce hstep ht rfl (by simp [Phase.child]) (by simp [Phase.joins])
      rfl rfl rfl hown
  | joinTest ht | exitTest ht =>
    refine h.goto hwf honce hstep ht rfl (fun _ => ?_) (fun _ => ?_) rfl rfl rfl hown
    · split_ifs <;> simp [Phase.child]
    · split_ifs <;> simp [Phase.joins]
  | release ht hq hd => exact protocol_release hwf honce hj h ht hstep
  | @finish t p q ht hslot hq =>
    exact h.of_step hwf honce hstep (fun u p' φ' b hu hφ => ⟨p', φ', (thr_of_remove hu).2, hφ⟩)
      (fun u p' φ' id hu hφ => ⟨p', φ', (thr_of_remove hu).2, hφ⟩) rfl rfl rfl hown
  | removeOther ht hslot hne hq =>
    exact absurd (hwf.eq_of_slot ht hslot).symm hne
  | removeNone ht hslot => exact absurd hslot (hwf.slot_ne_none ht)

def Settled (c : Core) (t a : Addr) (e : Int) : Prop :=
  c.hist.creator a = t ∧ c.hist.exitArg a = some e

/-- Whoever is let through `joinsem` reads what its child has passed to `ExitUpdate`, and
returns that. -/
structure Values (c : Core) : Prop where
  collecting : ∀ t p φ id a, c.thr t = some (p, φ) → φ.collects = some id →
    c.hist.target t = some a → ∃ q, c.proc a = some q ∧ c.hist.exitArg a = some q.exitcode
  read : ∀ t p φ e, c.thr t = some (p, φ) → φ.value = some e →
    ∃ a, c.hist.asked t = some a ∧ Settled c t a e
  returned : ∀ t x e, (t, x, e) ∈ c.hist.returned → ∃ a, x = some a ∧ Settled c t a e

theorem settled_step (hwf : Wf c) (honce : Once c) (hs : Step c l c') (h : Settled c t a e) :
    Settled c' t a e := by
  have hex : c.hist.exitArg a ≠ none := by simp [h.2]
  obtain ⟨q, hq⟩ := honce.proc a hex
  obtain ⟨hcreator, hexit⟩ := hist_step hwf honce hs hq
  exact ⟨hcreator.trans h.1, (hexit hex).trans h.2⟩

theorem exitcode_step (hwf : Wf c) (honce : Once c) (hs : Step c l c') (hq : c.proc a = some q)
    (h : c.hist.exitArg a = some q.exitcode) :
    ∃ q', c'.proc a = some q' ∧ c'.hist.exitArg a = some q'.exitcode := by
  have hex : c.hist.exitArg a ≠ none := by simp [h]
  obtain ⟨q', hq', hev⟩ := evolving_step hwf honce hs a q hq
  refine ⟨q', hq', ?_⟩
  rw [(hist_step hwf honce hs hq).2 hex, hev.exitcode hex, h]

theorem Values.of_step (hwf : Wf c) (honce : Once c) (h : Values c) (hs : Step c l c')
    (hcollects : ∀ u p φ id, c'.thr u = some (p, φ) → φ.collects = some id →
      (∃ p φ, c.thr u = some (p, φ) ∧ φ.collects = some id) ∧
        c'.hist.target u = c.hist.target u)
    (hvalue : ∀ u p φ e, c'.thr u = some (p, φ) → φ.value = some e →
      (∃ p φ, c.thr u = some (p, φ) ∧ φ.value = some e) ∧ c'.hist.asked u = c.hist.asked u)
    (hreturned : c'.hist.returned = c.hist.returned) : Values c' := by
  constructor
  case collecting =>
    intro u p φ id a hu hφ htarget
    obtain ⟨⟨p, φ, hu, hφ⟩, heq⟩ := hcollects u p φ id hu hφ
    obtain ⟨q, hq, hcode⟩ := h.collecting u p φ id a hu hφ (heq ▸ htarget)
    exact exitcode_step hwf honce hs hq hcode
  case read =>
    intro u p φ e hu hφ
    obtain ⟨⟨p, φ, hu, hφ⟩, heq⟩ := hvalue u p φ e hu hφ
    obtain ⟨a, hasked, hsettled⟩ := h.read u p φ e hu hφ
    exact ⟨a, heq.trans hasked, settled_step hwf honce hs hsettled⟩
  case returned =>
    intro u x e hmem
    rw [hreturned] at hmem
    obtain ⟨a, rfl, hsettled⟩ := h.returned u x e hmem
    exact ⟨a, rfl, settled_step hwf honce hs hsettled⟩

theorem Values.goto (hwf : Wf c) (honce : Once c) (h : Values c) (hs : Step c l c')
    (ht : c.thr t = some (p, φ)) (hthr : c'.thr = (c.goto t p ψ).thr)
    (hcollects : ∀ id, ψ.collects = some id → φ.collects = some id)
    (hvalue : ∀ e, ψ.value = some e → φ.value = some e)
    (hasked : c'.hist.asked = c.hist.asked) (htarget : c'.hist.target = c.hist.target)
    (hreturned : c'.hist.returned = c.hist.returned) : Values c' := by
  refine h.of_step hwf honce hs ?_ ?_ hreturned
  · intro u p' φ' id hu hφ
    rw [hthr] at hu
    exact ⟨phase_of_goto Phase.collects ht hcollects hu hφ, congrFun htarget u⟩
  · intro u p' φ' e hu hφ
    rw [hthr] at hu
    exact ⟨phase_of_goto Phase.value ht hvalue hu hφ, congrFun hasked u⟩

theorem exitArg_of_pass (hwf : Wf c) (hq : c.proc a = some q) (hd : q.deleted = false)
    (hpass : (q.joinsem.P t).2 = true) : c.hist.exitArg a = some q.exitcode := by
  have hv : q.joinsem.value ≠ 0 := by
    intro hz
    rw [Semaphore.P_of_zero hz] at hpass
    cases hpass
  obtain ⟨p, φ, ha, hleft⟩ := hwf.joinsem a q hq hd hv
  refine hwf.exitArg a q p φ hq ha ?_
  cases φ <;> simp_all [Phase.left, Phase.exited]

theorem values_joinTest (hwf : Wf c) (honce : Once c) (hj : Joining c) (h : Values c)
    (ht : c.thr t = some (p, .waiting id a)) (hq : c.proc a = some q) (hd : q.deleted = false)
    (hs : Step c l ((c.setProc a { q with joinsem := (q.joinsem.P t).1 }).goto t p
      (if (q.joinsem.P t).2 then .collecting id else .waiting id a))) :
    Values ((c.setProc a { q with joinsem := (q.joinsem.P t).1 }).goto t p
      (if (q.joinsem.P t).2 then .collecting id else .waiting id a)) := by
  split_ifs at hs ⊢ with hpass
  · refine ⟨?_, ?_, fun u x e => h.returned u x e⟩
    · intro u p' φ' id' b hu hφ htarget
      rcases thr_goto_cases (c := c) hu with ⟨rfl, -⟩ | ⟨-, hu⟩
      · obtain ⟨a', ha', hf⟩ := hj.joiner u p _ id ht rfl
        obtain rfl : a = a' := hf a rfl
        obtain rfl : a = b := Option.some.inj (ha'.target.symm.trans htarget)
        have hcode : c.hist.exitArg a = some q.exitcode := exitArg_of_pass hwf hq hd hpass
        exact ⟨_, proc_setProc_self .., hcode⟩
      · obtain ⟨r, hr, hcode⟩ := h.collecting u p' φ' id' b hu hφ htarget
        exact exitcode_step hwf honce hs hr hcode
    · intro u p' φ' e hu hφ
      obtain ⟨p', φ', hu, hφ⟩ := phase_of_goto (c := c) Phase.value ht (by simp [Phase.value]) hu hφ
      exact h.read u p' φ' e hu hφ
  · exact h.goto hwf honce hs ht rfl (by simp [Phase.collects]) (by simp [Phase.value]) rfl rfl rfl

theorem values_joinRead (hj : Joining c) (hp : Protocol c) (h : Values c)
    (ht : c.thr t = some (p, .collecting id)) (hslot : c.slot id = some a)
    (hq : c.proc a = some q) : Values (c.goto t p (.releasing id a q.exitcode)) := by
  constructor
  case returned => exact h.returned
  case collecting =>
    intro u p' φ' id' b hu hφ htarget
    obtain ⟨p', φ', hu, hφ⟩ := phase_of_goto Phase.collects ht (by simp [Phase.collects]) hu hφ
    exact h.collecting u p' φ' id' b hu hφ htarget
  case read =>
    intro u p' φ' e hu hφ
    rcases thr_goto_cases hu with ⟨rfl, hx⟩ | ⟨-, hu⟩
    · cases hx
      cases hφ
      obtain ⟨b, hb, -⟩ := hj.joiner u p _ id ht rfl
      obtain rfl : a = b := Option.some.inj (hslot.symm.trans hb.slot)
      obtain ⟨b', hasked, htarget, -⟩ := hp.asked u p _ id ht rfl
      obtain rfl : a = b' := Option.some.inj (hb.target.symm.trans htarget)
      obtain ⟨r, hr, hcode⟩ := h.collecting u p _ id a ht rfl htarget
      cases hq.symm.trans hr
      exact ⟨a, hasked, (hp.owner u a (.asked ht rfl hasked)).creator, hcode⟩
    · exact h.read u p' φ' e hu hφ

theorem values_joinReturn (h : Values c) (ht : c.thr t = some (p, .joined id e)) :
    Values ((c.goto t p .running).record (c.hist.joinReturn t e)) := by
  constructor
  case collecting =>
    intro u p' φ' id' b hu hφ htarget
    obtain ⟨p', φ', hu, hφ⟩ := phase_of_goto Phase.collects ht (by simp [Phase.collects]) hu hφ
    exact h.collecting u p' φ' id' b hu hφ htarget
  case read =>
    intro u p' φ' e' hu hφ
    obtain ⟨p', φ', hu, hφ⟩ := phase_of_goto Phase.value ht (by simp [Phase.value]) hu hφ
    exact h.read u p' φ' e' hu hφ
  case returned =>
    intro u x e' hmem
    rcases List.mem_cons.mp hmem with heq | hmem
    · cases heq
      exact h.read t p _ e ht rfl
    · exact h.returned u x e' hmem

theorem values_step (hwf : Wf c) (honce : Once c) (hj : Joining c) (hp : Protocol c)
    (h : Values c) (hs : Step c l c')
    (hok : ∀ t id, l = .join t id → ∃ a, (id, a) ∈ c.hist.pending t) : Values c' := by
  have hstep := hs
  cases hs with
  | silent => exact h
  | create ht | execReturn ht | joinEval ht | release ht | exitCall ht | joinRelease ht
  | exitEval ht =>
    exact h.goto hwf honce hstep ht rfl (by simp [Phase.collects]) (by simp [Phase.value])
      rfl rfl rfl
  | @fork t a p q ht hq =>
    refine h.of_step hwf honce hstep ?_ ?_ rfl
    · intro u p' φ' id hu hφ
      rcases thr_goto_cases hu with ⟨-, hx⟩ | ⟨-, hu⟩
      · cases hx
        cases hφ
      · exact ⟨phase_of_goto Phase.collects ht (by simp [Phase.collects]) hu hφ, rfl⟩
    · intro u p' φ' e hu hφ
      rcases thr_goto_cases hu with ⟨-, hx⟩ | ⟨-, hu⟩
      · cases hx
        cases hφ
      · exact ⟨phase_of_goto Phase.value ht (by simp [Phase.value]) hu hφ, rfl⟩
  | @joinFail t p id ht hbad => exact (hp.not_joinFail hwf ht (hok t id rfl) hbad).elim
  | @joinCall t a p id q ht hslot hq hpar =>
    -- the caller has read nothing yet, and what the others have asked for stays
    refine h.of_step hwf honce hstep ?_ ?_ rfl
    · intro u p' φ' id' hu hφ
      rcases thr_goto_cases hu with ⟨-, hx⟩ | ⟨hut, hu⟩
      · cases hx
        cases hφ
      · exact ⟨⟨p', φ', hu, hφ⟩, Function.update_of_ne hut ..⟩
    · intro u p' φ' e hu hφ
      rcases thr_goto_cases hu with ⟨-, hx⟩ | ⟨hut, hu⟩
      · cases hx
        cases hφ
      · exact ⟨⟨p', φ', hu, hφ⟩, Function.update_of_ne hut ..⟩
  | joinTest ht hq hd hawake => exact values_joinTest hwf honce hj h ht hq hd hstep
  | joinRead ht hslot hq => exact values_joinRead hj hp h ht hslot hq
  | joinReturn ht => exact values_joinReturn h ht
  | exitTest ht hq hd hawake =>
    refine h.goto hwf honce hstep ht rfl (fun _ => ?_) (fun _ => ?_) rfl rfl rfl
    · split_ifs <;> simp [Phase.collects]
    · split_ifs <;> simp [Phase.value]
  | @finish t p q ht hslot hq =>
    exact h.of_step hwf honce hstep
      (fun u p' φ' b hu hφ => ⟨⟨p', φ', (thr_of_remove hu).2, hφ⟩, rfl⟩)
      (fun u p' φ' id hu hφ => ⟨⟨p', φ', (thr_of_remove hu).2, hφ⟩, rfl⟩) rfl
  | removeOther ht hslot hne hq =>
    exact absurd (hwf.eq_of_slot ht hslot).symm hne
  | removeNone ht hslot => exact absurd hslot (hwf.slot_ne_none ht)

end Core

namespace State

variable {s s' : State} {t : Addr} {θ : Thread} {fresh : Addr → Int × Int}

/-- A pid passed to `JoinUpdate` was returned to the caller and not passed on since. -/
def joinsOwn (s : State) : Act → Bool
  | .call t (.join id) => (s.hist.pending t).any (·.1 == id)
  | _ => true

/-- What holds while everybody keeps to its own children. -/
structure Orderly (s : State) : Prop where
  once : s.abs.Once
  joining : s.abs.Joining
  protocol : s.abs.Protocol
  values : s.abs.Values

theorem orderly_init (fresh : Addr → Int × Int) : (init fresh).Orderly := by
  refine ⟨⟨fun _ ha => absurd rfl ha, fun _ _ _ _ => rfl, fun _ _ _ _ _ => rfl⟩, joining_init fresh,
    ⟨?_, ?_, ?_, fun _ => List.nodup_nil, ?_⟩, ?_, ?_, ?_⟩
  · intro t a hc
    cases hc with
    | made ht hφ =>
      cases (thr_init ht).2
      cases hφ
    | pending hmem => cases hmem
    | asked ht hφ ha => cases ha
  · intro t p φ a ht hφ
    cases (thr_init ht).2
    cases hφ
  · intro t id a hmem
    cases hmem
  · intro t p φ id ht hφ
    cases (thr_init ht).2
    cases hφ
  · intro t p φ id a ht hφ
    cases (thr_init ht).2
    cases hφ
  · intro t p φ e ht hφ
    cases (thr_init ht).2
    cases hφ
  · intro t x e hmem
    cases hmem

theorem orderly_of_reach (h : Reach step (fun s act => s.joinsOwn act = true) (init fresh) s) :
    s.Orderly := by
  refine h.invariant_of_reach (orderly_init fresh) fun s act s' hr hi hok hs => ?_
  obtain ⟨l, hshow, hstep⟩ := simulated_step hs
  have hwf := wf_of_reach hr
  have hmine : ∀ t id, l = .join t id → ∃ a, (id, a) ∈ s.abs.hist.pending t := by
    rintro t id rfl
    obtain rfl : act = .call t (.join id) := hshow
    obtain ⟨⟨i, a⟩, hmem, hi⟩ := List.any_eq_true.mp hok
    obtain rfl : i = id := by simpa using hi
    exact ⟨a, hmem⟩
  refine ⟨Core.once_step hwf hi.once hstep, Core.joining_step hwf hi.joining hstep ?_,
    Core.protocol_step hwf hi.once hi.joining hi.protocol hstep hmine,
    Core.values_step hwf hi.once hi.joining hi.protocol hi.values hstep hmine⟩
  -- a child that its owner has yet to join is not released
  intro t p φ id a q hl ht hslot _ _
  obtain ⟨b, hmem⟩ := hmine t id hl
  obtain ⟨hslot', hrel, -⟩ := hi.protocol.entitled hwf ht hmem
  cases hslot.symm.trans hslot'
  exact hrel

/-- In every run in which every process joins only its own children, and each once: a
pid that `ExecUpdate` or `ExecV` has returned is that of no other process, and its slot
holds the child until the creator has released it; what `JoinUpdate` reads and returns is
what the child it was asked for has passed to `ExitUpdate`. -/
theorem join_delivers_exitcode
    (h : Reach step (fun s act => s.joinsOwn act = true) (init fresh) s) :
    (∀ t id a, (id, a) ∈ s.hist.pending t → s.hist.creator a = t ∧ s.pcb id = some a ∧
      s.hist.released a = false ∧
      (∀ b p, s.heap b = some p → p.deleted = false → p.processID = id → b = a) ∧
      ∀ u θ, s.thr u = some θ → θ.processID = id → u = a) ∧
    (∀ t θ id, s.thr t = some θ → θ.pc.joinOf = some id → θ.pc.returning = none →
      ∃ a, s.hist.asked t = some a ∧ s.hist.creator a = t ∧ s.pcb id = some a ∧
        s.hist.released a = false) ∧
    (∀ t θ id a e, s.thr t = some θ → θ.pc = .joinV id a e →
      s.hist.asked t = some a ∧ s.hist.exitArg a = some e) ∧
    ∀ t x e, (t, x, e) ∈ s.hist.returned →
      ∃ a, x = some a ∧ s.hist.creator a = t ∧ s.hist.exitArg a = some e := by
  have hwf := wf_of_reach h
  obtain ⟨-, hj, hprot, hval⟩ := orderly_of_reach h
  refine ⟨?_, ?_, ?_, fun t x e hmem => hval.returned t x e hmem⟩
  · intro t id a hmem
    have ho := hprot.owner t a (.pending hmem)
    have hslot : s.pcb id = some a := hprot.slot t id a hmem
    refine ⟨ho.creator, hslot, ho.unreleased, ?_, ?_⟩
    · rintro b p hp hd rfl
      exact Option.some.inj ((hwf.proc_slot b p.core (abs_proc hp) hd).symm.trans hslot)
    · rintro u θ hu rfl
      exact Option.some.inj ((hwf.slot_self (abs_thr hu)).symm.trans hslot)
  · intro t θ id ht hid hret
    have hjoins : θ.pc.phase.joins = some id := by
      rcases PC.joinOf_cases hid with hid | ⟨e, he⟩
      · exact hid
      · cases hpc : θ.pc <;> simp_all [PC.phase, PC.returning]
    -- the process that the joiner acts on is the one that it has asked for
    obtain ⟨a, ha, -⟩ := hj.joiner t _ _ id (abs_thr ht) hjoins
    obtain ⟨b, hasked, htarget, -⟩ := hprot.asked t _ _ id (abs_thr ht) hjoins
    obtain rfl : a = b := Option.some.inj (ha.target.symm.trans htarget)
    have ho := hprot.owner t a (.asked (abs_thr ht) hjoins hasked)
    exact ⟨a, hasked, ho.creator, ha.slot, ho.unreleased⟩
  · intro t θ id a e ht hpc
    have hthr : s.abs.thr t = some (θ.processID, .releasing id a e) := by
      rw [abs_thr ht, hpc]
      rfl
    obtain ⟨a', ha', hf⟩ := hj.joiner t _ _ id hthr rfl
    obtain rfl : a = a' := hf a rfl
    obtain ⟨b, hasked, htarget, -⟩ := hprot.asked t _ _ id hthr rfl
    obtain rfl : a = b := Option.some.inj (ha'.target.symm.trans htarget)
    obtain ⟨b, hasked', -, hexit⟩ := hval.read t _ _ e hthr rfl
    obtain rfl : a = b := Option.some.inj (hasked.symm.trans hasked')
    exact ⟨hasked, hexit⟩

/-- The child exits first, is joined and removed, and its slot is used again by another
child, which is joined before it exits. -/
theorem join_delivers_exitcode_reused : ∃ s,
    Reach step (fun s act => s.joinsOwn act = true) (init fun _ => (0, 0)) s ∧
    (0, some 1, 7) ∈ s.hist.returned ∧ (0, some 2, 9) ∈ s.hist.returned ∧
    s.hist.exitArg 1 = some 7 ∧ s.hist.exitArg 2 = some 9 := by
  let acts : List Act := [execActs 0 [1], [.run 1], exitActs 1 7, joinActs 0 1, [.run 1, .run 1],
    execActs 0 [2], [.call 0 (.join 1), .run 0, .run 0, .run 0, .run 0, .run 2],
    exitActs 2 9, [.run 0, .run 0, .run 0, .run 0]].flatten
  have hrun : (exec step (fun s act => s.joinsOwn act = true) (init fun _ => (0, 0)) acts).map
      (fun s => s.hist.returned) = some [(0, some 2, 9), (0, some 1, 7)] := by decide +kernel
  obtain ⟨s, hexec, hs⟩ := Option.map_eq_some_iff.mp hrun
  have hr := reach_of_exec acts hexec
  have h1 : (0, some 1, 7) ∈ s.hist.returned := by simp [hs]
  have h2 : (0, some 2, 9) ∈ s.hist.returned := by simp [hs]
  obtain ⟨-, -, -, hret⟩ := join_delivers_exitcode hr
  obtain ⟨a, ha, -, hexit⟩ := hret 0 _ _ h1
  obtain ⟨b, hb, -, hexit'⟩ := hret 0 _ _ h2
  cases ha
  cases hb
  exact ⟨s, hr, h1, h2, hexit, hexit'⟩

end State
end Nachos.PTable
