import Nachos.Lock

namespace Nachos
open GuardedRun

/-- `prepare` is what a call does before `lock->Acquire()`, `request` the request to the
device with its `ASSERT`s, and `callBack` what the device does at its interrupt before it
calls the driver.  A request gives the data that are in the caller's buffer afterwards. -/
structure Driver (α ρ δ ω ε : Type*) where
  prepare : α → Except ε ρ
  request : δ → ρ → Except ε (δ × ω)
  callBack : δ → δ

namespace Driver

/-- The statement a call is at.  From the acquisition of the lock on it has a number, and
after the request also its data. -/
inductive Pc (ρ ω : Type*) where
  | out
  /-- In `lock->Acquire()`. -/
  | acquire (r : ρ)
  /-- At the request. -/
  | request (i : ℕ) (r : ρ)
  /-- At `semaphore->P()`, asleep if the queue has the thread. -/
  | wait (i : ℕ) (w : ω)
  /-- In `lock->Release()`. -/
  | release (i : ℕ) (w : ω)
  deriving DecidableEq, Repr

/-- A driver with its device and all its threads.  `pending` has the interrupts that are
scheduled, by the number of their request.  `log`, `fired` and `returned` are history: the
calls in the order in which they got the lock, the interrupts that have come, and the calls
that have returned with their data. -/
structure System (τ ρ δ ω ε : Type*) where
  locks : Lock.System τ
  semaphore : Semaphore τ
  device : δ
  pending : List ℕ
  pc : τ → Pc ρ ω
  fault : Option ε
  log : List (τ × ρ)
  fired : List ℕ
  returned : List (τ × ℕ × ω)

inductive Act (τ α : Type*) where
  | call (t : τ) (a : α)
  | run (t : τ)
  | interrupt (i : ℕ)
  deriving DecidableEq, Repr

variable {τ α ρ δ ω ε : Type*}

def start (device : δ) : System τ ρ δ ω ε :=
  ⟨Lock.start, .new 0, device, [], fun _ => .out, none, [], [], []⟩

def halted (s : System τ ρ δ ω ε) : Bool := s.fault.isSome || s.locks.aborted

def isOut (s : System τ ρ δ ω ε) (t : τ) : Bool :=
  match s.pc t with
  | .out => true
  | _ => false

section steps
variable [DecidableEq τ]

namespace System

@[simps pc]
def goto (s : System τ ρ δ ω ε) (t : τ) (p : Pc ρ ω) : System τ ρ δ ω ε :=
  { s with pc := Function.update s.pc t p }

def callAcquire (s : System τ ρ δ ω ε) (t : τ) : System τ ρ δ ω ε :=
  { s with locks := s.locks.goto t .acquiring }

def callRelease (s : System τ ρ δ ω ε) (t : τ) : System τ ρ δ ω ε :=
  { s with locks := s.locks.goto t .releasing }

end System

def run (D : Driver α ρ δ ω ε) (s : System τ ρ δ ω ε) (t : τ) : Option (System τ ρ δ ω ε) :=
  match s.pc t with
  | .out => none
  | .acquire r =>
    (Lock.run s.locks t).map fun l =>
      if l.phase t = .held then
        { s with locks := l, log := s.log ++ [(t, r)] }.goto t (.request s.log.length r)
      else { s with locks := l }
  | .request i r =>
    match D.request s.device r with
    | .error e => some { s with fault := some e }
    | .ok (d, w) => some ({ s with device := d, pending := s.pending ++ [i] }.goto t (.wait i w))
  | .wait i w =>
    if t ∈ s.semaphore.queue then none
    else
      let p := s.semaphore.P t
      let s' := { s with semaphore := p.1 }
      some (if p.2 then (s'.callRelease t).goto t (.release i w) else s')
  | .release i w =>
    (Lock.run s.locks t).map fun l =>
      if l.phase t = .out then
        { s with locks := l, returned := s.returned ++ [(t, i, w)] }.goto t .out
      else { s with locks := l }

/-- The interrupt of request `i`: `callBack` of the device and then of the driver. -/
def interrupt (D : Driver α ρ δ ω ε) (s : System τ ρ δ ω ε) (i : ℕ) : System τ ρ δ ω ε :=
  { s with
    device := D.callBack s.device
    pending := s.pending.erase i
    semaphore := s.semaphore.V.1
    fired := s.fired ++ [i] }

def step (D : Driver α ρ δ ω ε) (s : System τ ρ δ ω ε) (a : Act τ α) :
    Option (System τ ρ δ ω ε) :=
  if halted s then none
  else
    match a with
    | .call t a =>
      if isOut s t then
        match D.prepare a with
        | .error e => some { s with fault := some e }
        | .ok r => some ((s.callAcquire t).goto t (.acquire r))
      else none
    | .run t => run D s t
    | .interrupt i => if i ∈ s.pending then some (interrupt D s i) else none

end steps

theorem isOut_iff {s : System τ ρ δ ω ε} {t : τ} : isOut s t ↔ s.pc t = .out := by
  unfold isOut
  split <;> simp_all

variable [DecidableEq τ]

/-- All that can happen, with what the step has found. -/
inductive Moves (D : Driver α ρ δ ω ε) (s : System τ ρ δ ω ε) :
    Act τ α → System τ ρ δ ω ε → Prop
  | refuse (t : τ) (a : α) (e : ε) : s.pc t = .out → D.prepare a = .error e →
      Moves D s (.call t a) { s with fault := some e }
  | call (t : τ) (a : α) (r : ρ) : s.pc t = .out → D.prepare a = .ok r →
      Moves D s (.call t a) ((s.callAcquire t).goto t (.acquire r))
  | acquiring (t : τ) (r : ρ) (l : Lock.System τ) : s.pc t = .acquire r →
      Lock.run s.locks t = some l → l.phase t ≠ .held → Moves D s (.run t) { s with locks := l }
  | enter (t : τ) (r : ρ) (l : Lock.System τ) : s.pc t = .acquire r →
      Lock.run s.locks t = some l → l.phase t = .held →
      Moves D s (.run t)
        ({ s with locks := l, log := s.log ++ [(t, r)] }.goto t (.request s.log.length r))
  | fail (t : τ) (i : ℕ) (r : ρ) (e : ε) : s.pc t = .request i r →
      D.request s.device r = .error e → Moves D s (.run t) { s with fault := some e }
  | ask (t : τ) (i : ℕ) (r : ρ) (d : δ) (w : ω) : s.pc t = .request i r →
      D.request s.device r = .ok (d, w) →
      Moves D s (.run t)
        ({ s with device := d, pending := s.pending ++ [i] }.goto t (.wait i w))
  | sleep (t : τ) (i : ℕ) (w : ω) : s.pc t = .wait i w → t ∉ s.semaphore.queue →
      s.semaphore.value = 0 →
      Moves D s (.run t)
        { s with semaphore := { s.semaphore with queue := s.semaphore.queue ++ [t] } }
  | wake (t : τ) (i : ℕ) (w : ω) : s.pc t = .wait i w → s.semaphore.value ≠ 0 →
      Moves D s (.run t) (({ s with semaphore := { s.semaphore with
        value := TwosComplement.wrap (s.semaphore.value - 1) } }.callRelease t).goto t
          (.release i w))
  | releasing (t : τ) (i : ℕ) (w : ω) (l : Lock.System τ) : s.pc t = .release i w →
      Lock.run s.locks t = some l → l.phase t ≠ .out → Moves D s (.run t) { s with locks := l }
  | leave (t : τ) (i : ℕ) (w : ω) (l : Lock.System τ) : s.pc t = .release i w →
      Lock.run s.locks t = some l → l.phase t = .out →
      Moves D s (.run t)
        ({ s with locks := l, returned := s.returned ++ [(t, i, w)] }.goto t .out)
  | fire (i : ℕ) : i ∈ s.pending → Moves D s (.interrupt i) (interrupt D s i)

variable {D : Driver α ρ δ ω ε} {s s' : System τ ρ δ ω ε} {t u : τ} {a : Act τ α}

theorem run_moves (h : run D s t = some s') : Moves D s (.run t) s' := by
  unfold run at h
  split at h
  · cases h
  · next r hp =>
    obtain ⟨l, hl, rfl⟩ := Option.map_eq_some_iff.mp h
    by_cases hheld : l.phase t = .held
    · rw [if_pos hheld]
      exact .enter t r l hp hl hheld
    · rw [if_neg hheld]
      exact .acquiring t r l hp hl hheld
  · next i r hp =>
    split at h
    · next e he =>
      cases h
      exact .fail t i r e hp he
    · next d w hd =>
      cases h
      exact .ask t i r d w hp hd
  · next i w hp =>
    split_ifs at h with hq
    by_cases hv : s.semaphore.value = 0
    · rw [Semaphore.P_of_zero hv] at h
      cases h
      exact .sleep t i w hp hq hv
    · rw [Semaphore.P_of_ne_zero hv] at h
      cases h
      exact .wake t i w hp hv
  · next i w hp =>
    obtain ⟨l, hl, rfl⟩ := Option.map_eq_some_iff.mp h
    by_cases hout : l.phase t = .out
    · rw [if_pos hout]
      exact .leave t i w l hp hl hout
    · rw [if_neg hout]
      exact .releasing t i w l hp hl hout

theorem step_moves (h : step D s a = some s') : Moves D s a s' := by
  unfold step at h
  split_ifs at h
  cases a with
  | run t => exact run_moves h
  | interrupt i =>
    simp only [Option.ite_none_right_eq_some, Option.some.injEq] at h
    exact h.2 ▸ .fire i h.1
  | call t a =>
    simp only [Option.ite_none_right_eq_some] at h
    obtain ⟨hout, h⟩ := h
    split at h
    · next e he =>
      cases h
      exact .refuse t a e (isOut_iff.mp hout) he
    · next r hr =>
      cases h
      exact .call t a r (isOut_iff.mp hout) hr

def Pc.asked : Pc ρ ω → Option ρ
  | .acquire r | .request _ r => some r
  | _ => none

theorem Moves.asked (hm : Moves D s a s') {P : ρ → Prop}
    (hcall : ∀ t x r, a = .call t x → D.prepare x = .ok r → P r)
    (h : ∀ t, ∀ r ∈ (s.pc t).asked, P r) : ∀ t, ∀ r ∈ (s'.pc t).asked, P r := by
  have hsame : ∀ {t : τ} {p q : Pc ρ ω}, s.pc t = p → q.asked = p.asked ∨ q.asked = none →
      ∀ r ∈ q.asked, P r := by
    intro t p q hp hq r hr
    rcases hq with heq | hnone
    · exact h t r (by rw [hp, ← heq]; exact hr)
    · rw [hnone] at hr
      cases hr
  have hgoto : ∀ {t : τ} {p : Pc ρ ω}, (∀ r ∈ p.asked, P r) →
      ∀ u, ∀ r ∈ (Function.update s.pc t p u).asked, P r := fun hp =>
    (Function.forall_update_iff s.pc fun _ p => ∀ r ∈ p.asked, P r).mpr ⟨hp, fun u _ => h u⟩
  cases hm with
  | refuse t x e hp he => exact h
  | call t x r hp hr =>
    refine hgoto fun r' hr' => ?_
    cases hr'
    exact hcall t x r rfl hr
  | acquiring t r l hp hl hheld => exact h
  | enter t r l hp hl hheld =>
    exact hgoto (hsame hp (.inl rfl))
  | fail t i r e hp he => exact h
  | ask t i r d w hp hd =>
    exact hgoto (hsame hp (.inr rfl))
  | sleep t i w hp hq hv => exact h
  | wake t i w hp hv =>
    exact hgoto (hsame hp (.inr rfl))
  | releasing t i w l hp hl hout => exact h
  | leave t i w l hp hl hout =>
    exact hgoto (hsame hp (.inr rfl))
  | fire i hi => exact h

/-- What a device does with the requests it takes: `content` is what there is besides its
busy flag, changed by a request as `apply` says.  The device is `idle` after every
interrupt, and when it is idle no request the driver has prepared fails for its being
`busy`. -/
structure Meaning (D : Driver α ρ δ ω ε) (γ : Type*) where
  content : δ → γ
  idle : δ → Prop
  busy : ε → Prop
  prepared : ρ → Prop
  apply : γ → ρ → γ
  prepare_ok : ∀ {a r}, D.prepare a = .ok r → prepared r
  prepare_error : ∀ {a e}, D.prepare a = .error e → ¬busy e
  request_ok : ∀ {d r d' w}, D.request d r = .ok (d', w) → content d' = apply (content d) r
  request_error : ∀ {d r e}, idle d → prepared r → D.request d r = .error e → ¬busy e
  idle_callBack : ∀ d, idle (D.callBack d)
  content_callBack : ∀ d, content (D.callBack d) = content d

section meaning
variable {γ : Type*} (M : Meaning D γ) (g : γ)

/-- The content after the requests of a log, from `g`. -/
def Meaning.after (log : List (τ × ρ)) : γ := log.foldl (fun c x => M.apply c x.2) g

/-- The data are those of the thread's own request, made when the device had just dealt with
all requests before it in the log. -/
def Answered (log : List (τ × ρ)) (t : τ) (i : ℕ) (w : ω) : Prop :=
  ∃ r d d', log[i]? = some (t, r) ∧ M.content d = M.after g (log.take i) ∧
    D.request d r = .ok (d', w)

def Pc.asks : Pc ρ ω → Bool
  | .request _ _ | .wait _ _ => true
  | _ => false

/-- The four states a request passes through, with the interrupt on its way in the third
and the semaphore's token there in the fourth. -/
inductive Flow (s : System τ ρ δ ω ε) : Prop
  | quiet : (∀ t, (s.pc t).asks = false) → s.pending = [] → s.semaphore.value = 0 →
      s.fired = List.range s.log.length → M.idle s.device →
      M.content s.device = M.after g s.log → Flow s
  | asking (t : τ) (r : ρ) (before : List (τ × ρ)) : s.pc t = .request before.length r →
      s.log = before ++ [(t, r)] → s.pending = [] → s.semaphore.value = 0 →
      s.fired = List.range before.length → M.idle s.device →
      M.content s.device = M.after g before → Flow s
  | waiting (t : τ) (i : ℕ) (w : ω) : s.pc t = .wait i w → s.log.length = i + 1 →
      s.pending = [i] → s.semaphore.value = 0 → s.fired = List.range i →
      M.content s.device = M.after g s.log → Flow s
  | signalled (t : τ) (i : ℕ) (w : ω) : s.pc t = .wait i w → s.log.length = i + 1 →
      s.pending = [] → s.semaphore.value = 1 → s.fired = List.range (i + 1) → M.idle s.device →
      M.content s.device = M.after g s.log → Flow s

def LocalAt : Pc ρ ω → Lock.Phase → Prop
  | .out, f => f = .out
  | .acquire _, f => f = .acquiring ∨ f = .passed
  | .request _ _, f | .wait _ _, f => f = .held
  | .release _ _, f => f = .releasing ∨ f = .clearing ∨ f = .leaving

/-- What a thread has in hand: its request, then its data, and past `P` its interrupt. -/
def InHand (log : List (τ × ρ)) (fired : List ℕ) (t : τ) : Pc ρ ω → Prop
  | .acquire r | .request _ r => M.prepared r
  | .wait i w => Answered M g log t i w
  | .release i w => i ∈ fired ∧ Answered M g log t i w
  | _ => True

structure Inv (s : System τ ρ δ ω ε) : Prop where
  locks : Lock.Exclusive s.locks
  fault : ∀ e, s.fault = some e → ¬M.busy e
  place : ∀ t, LocalAt (s.pc t) (s.locks.phase t)
  flow : Flow M g s
  inHand : ∀ t, InHand M g s.log s.fired t (s.pc t)
  returned : ∀ t i w, (t, i, w) ∈ s.returned → i ∈ s.fired ∧ Answered M g s.log t i w

variable {M g}

omit [DecidableEq τ] in
theorem inv_start {d : δ} (hidle : M.idle d) (hg : M.content d = g) :
    Inv M g (start d : System τ ρ δ ω ε) where
  locks := Lock.exclusive_start
  fault _ h := by cases h
  place _ := rfl
  flow := .quiet (fun _ => rfl) rfl rfl rfl hidle hg
  inHand _ := trivial
  returned _ _ _ h := by cases h

omit [DecidableEq τ] in
theorem Answered.append {log : List (τ × ρ)} {i : ℕ} {w : ω} (h : Answered M g log t i w)
    (more : List (τ × ρ)) : Answered M g (log ++ more) t i w := by
  obtain ⟨r, d, d', hr, hd, hw⟩ := h
  have hi : i < log.length := (List.getElem?_eq_some_iff.mp hr).1
  refine ⟨r, d, d', ?_, ?_, hw⟩
  · rwa [List.getElem?_append_left hi]
  · rwa [List.take_append_of_le_length hi.le]

omit [DecidableEq τ] in
theorem InHand.mono {log more : List (τ × ρ)} {fired later : List ℕ} {p : Pc ρ ω}
    (h : InHand M g log fired t p) : InHand M g (log ++ more) (fired ++ later) t p := by
  cases p with
  | wait i w => exact Answered.append h more
  | release i w => exact ⟨List.mem_append_left _ h.1, h.2.append more⟩
  | out => trivial
  | acquire r | request i r => exact h

omit [DecidableEq τ] in
theorem Inv.at (h : Inv M g s) {p : Pc ρ ω} (hp : s.pc t = p) : LocalAt p (s.locks.phase t) :=
  hp ▸ h.place t

omit [DecidableEq τ] in
theorem Inv.held_of_asks (h : Inv M g s) (ht : (s.pc t).asks) : s.locks.phase t = .held := by
  have hplace := h.place t
  cases hp : s.pc t <;> simp_all [LocalAt, Pc.asks]

omit [DecidableEq τ] in
theorem Inv.asks_unique (h : Inv M g s) (ht : (s.pc t).asks) (hu : (s.pc u).asks) : t = u := by
  apply h.locks.unique
  · rw [h.held_of_asks ht]
    rfl
  · rw [h.held_of_asks hu]
    rfl

omit [DecidableEq τ] in
theorem Flow.value_le (h : Flow M g s) : s.semaphore.value ≤ 1 := by
  cases h with
  | quiet _ _ hv
  | asking _ _ _ _ _ _ hv
  | waiting _ _ _ _ _ _ hv
  | signalled _ _ _ _ _ _ hv => omega

omit [DecidableEq τ] in
theorem Flow.frame (h : Flow M g s) (hpc : ∀ u, (s.pc u).asks → s'.pc u = s.pc u)
    (hasks : ∀ u, (s'.pc u).asks → (s.pc u).asks) (hdevice : s'.device = s.device)
    (hpending : s'.pending = s.pending) (hvalue : s'.semaphore.value = s.semaphore.value)
    (hlog : s'.log = s.log) (hfired : s'.fired = s.fired) : Flow M g s' := by
  cases h with
  | quiet hall h1 h2 h3 h4 h5 =>
    refine .quiet (fun u => Bool.eq_false_iff.mpr fun hu => ?_) (by rw [hpending, h1])
      (by rw [hvalue, h2]) (by rw [hfired, h3, hlog]) (by rw [hdevice]; exact h4)
      (by rw [hdevice, h5, hlog])
    exact Bool.eq_false_iff.mp (hall u) (hasks u hu)
  | asking t r before hp h1 h2 h3 h4 h5 h6 =>
    exact .asking t r before ((hpc t (by rw [hp]; rfl)).trans hp) (by rw [hlog, h1])
      (by rw [hpending, h2]) (by rw [hvalue, h3]) (by rw [hfired, h4]) (by rw [hdevice]; exact h5)
      (by rw [hdevice, h6])
  | waiting t i w hp h1 h2 h3 h4 h5 =>
    exact .waiting t i w ((hpc t (by rw [hp]; rfl)).trans hp) (by rw [hlog, h1])
      (by rw [hpending, h2]) (by rw [hvalue, h3]) (by rw [hfired, h4]) (by rw [hdevice, h5, hlog])
  | signalled t i w hp h1 h2 h3 h4 h5 h6 =>
    exact .signalled t i w ((hpc t (by rw [hp]; rfl)).trans hp) (by rw [hlog, h1])
      (by rw [hpending, h2]) (by rw [hvalue, h3]) (by rw [hfired, h4]) (by rw [hdevice]; exact h5)
      (by rw [hdevice, h6, hlog])

omit [DecidableEq τ] in
theorem inv_frame (h : Inv M g s) (hlocks : Lock.Exclusive s'.locks)
    (hfault : ∀ e, s'.fault = some e → ¬M.busy e)
    (hother : ∀ u ≠ t, s'.pc u = s.pc u ∧ s'.locks.phase u = s.locks.phase u)
    (hplace : LocalAt (s'.pc t) (s'.locks.phase t))
    (hasks : s'.pc t = s.pc t ∨ (s.pc t).asks = false ∧ (s'.pc t).asks = false)
    (hhand : InHand M g s.log s.fired t (s'.pc t))
    (hsame : s'.device = s.device ∧ s'.pending = s.pending ∧
      s'.semaphore.value = s.semaphore.value ∧ s'.log = s.log ∧ s'.fired = s.fired)
    (hreturned : ∀ u i w, (u, i, w) ∈ s'.returned → i ∈ s.fired ∧ Answered M g s.log u i w) :
    Inv M g s' := by
  obtain ⟨hdevice, hpending, hvalue, hlog, hfired⟩ := hsame
  refine ⟨hlocks, hfault, fun u => ?_, h.flow.frame (fun u hu => ?_) (fun u hu => ?_) hdevice
    hpending hvalue hlog hfired, fun u => ?_, by rwa [hlog, hfired]⟩
  · by_cases hut : u = t
    · exact hut ▸ hplace
    · rw [(hother u hut).1, (hother u hut).2]
      exact h.place u
  · by_cases hut : u = t
    · subst hut
      refine hasks.resolve_right fun hno => ?_
      rw [hno.1] at hu
      cases hu
    · exact (hother u hut).1
  · by_cases hut : u = t
    · subst hut
      rcases hasks with heq | ⟨-, hno⟩
      · rwa [← heq]
      · rw [hno] at hu
        cases hu
    · rwa [← (hother u hut).1]
  · rw [hlog, hfired]
    by_cases hut : u = t
    · exact hut ▸ hhand
    · rw [(hother u hut).1]
      exact h.inHand u

theorem Inv.quiet_of_held (h : Inv M g s) {r : ρ} (hp : s.pc t = .acquire r) {l : Lock.System τ}
    (hl : Lock.run s.locks t = some l) (hheld : l.phase t = .held) (u : τ) :
    (s.pc u).asks = false := by
  refine Bool.eq_false_iff.mpr fun hu => ?_
  have hut : u ≠ t := by
    intro heq
    rw [heq, hp] at hu
    cases hu
  refine hut ((Lock.exclusive_moves h.locks (Lock.run_moves hl)).unique ?_ ?_)
  · rw [Lock.run_others hl hut, h.held_of_asks hu]
    rfl
  · rw [hheld]
    rfl

theorem inv_enter (h : Inv M g s) {r : ρ} (hp : s.pc t = .acquire r) {l : Lock.System τ}
    (hl : Lock.run s.locks t = some l) (hheld : l.phase t = .held) :
    Inv M g (({ s with locks := l, log := s.log ++ [(t, r)] } : System τ ρ δ ω ε).goto t
      (.request s.log.length r)) := by
  have hquiet := h.quiet_of_held hp hl hheld
  have hhand := h.inHand t
  rw [hp] at hhand
  refine ⟨Lock.exclusive_moves h.locks (Lock.run_moves hl), h.fault, ?_, ?_, ?_,
    fun u i w hmem => ⟨(h.returned u i w hmem).1, (h.returned u i w hmem).2.append _⟩⟩
  · refine (Function.forall_update_iff s.pc fun u p => LocalAt p (l.phase u)).mpr
      ⟨hheld, fun u hu => ?_⟩
    rw [Lock.run_others hl hu]
    exact h.place u
  · cases h.flow with
    | quiet _ h1 h2 h3 h4 h5 =>
      exact .asking t r s.log (Function.update_self ..) rfl h1 h2 h3 h4 h5
    | asking u _ _ hu | waiting u _ _ hu | signalled u _ _ hu =>
      have hno := hquiet u
      rw [hu] at hno
      cases hno
  · refine (Function.forall_update_iff s.pc (InHand M g (s.log ++ [(t, r)]) s.fired)).mpr
      ⟨hhand, fun u _ => ?_⟩
    show InHand M g (s.log ++ [(t, r)]) s.fired u (s.pc u)
    rw [← List.append_nil s.fired]
    exact (h.inHand u).mono

theorem inv_ask (h : Inv M g s) {i : ℕ} {r : ρ} (hp : s.pc t = .request i r) {d : δ} {w : ω}
    (hd : D.request s.device r = .ok (d, w)) :
    Inv M g (({ s with device := d, pending := s.pending ++ [i] } : System τ ρ δ ω ε).goto t
      (.wait i w)) := by
  have hasks : (s.pc t).asks := by
    rw [hp]
    rfl
  -- the flow is at the request of this very call
  cases h.flow with
  | asking u r' before hu h1 h2 h3 h4 h5 h6 =>
    have hut : u = t := h.asks_unique (by rw [hu]; rfl) hasks
    subst hut
    rw [hp] at hu
    cases hu
    have hanswered : Answered M g s.log u before.length w := by
      refine ⟨r, s.device, d, ?_, ?_, hd⟩
      · rw [h1]
        exact List.getElem?_concat_length
      · rw [h6, h1, List.take_left]
    refine ⟨h.locks, h.fault, ?_, ?_, ?_, h.returned⟩
    · exact (Function.forall_update_iff s.pc fun v p => LocalAt p (s.locks.phase v)).mpr
        ⟨h.held_of_asks hasks, fun v _ => h.place v⟩
    · refine .waiting u before.length w (Function.update_self ..) ?_ ?_ h3 h4 ?_
      · show s.log.length = before.length + 1
        rw [h1, List.length_append, List.length_singleton]
      · show s.pending ++ [before.length] = [before.length]
        rw [h2]
        rfl
      · show M.content d = M.after g s.log
        rw [M.request_ok hd, h6, h1, Meaning.after, Meaning.after, List.foldl_append]
        rfl
    · exact (Function.forall_update_iff s.pc (InHand M g s.log s.fired)).mpr
        ⟨hanswered, fun v _ => h.inHand v⟩
  | quiet hall =>
    rw [hall t] at hasks
    cases hasks
  | waiting u _ _ hu | signalled u _ _ hu =>
    have hut : u = t := h.asks_unique (by rw [hu]; rfl) hasks
    rw [hut, hp] at hu
    cases hu

theorem inv_wake (h : Inv M g s) {i : ℕ} {w : ω} (hp : s.pc t = .wait i w)
    (hv : s.semaphore.value ≠ 0) :
    Inv M g ((({ s with semaphore := { s.semaphore with
      value := TwosComplement.wrap (s.semaphore.value - 1) } } : System τ ρ δ ω ε).callRelease
        t).goto t (.release i w)) := by
  have hasks : (s.pc t).asks := by
    rw [hp]
    rfl
  have hheld := h.held_of_asks hasks
  -- the token is that of this call, as no other one is past its request
  cases h.flow with
  | signalled u j w' hu h1 h2 h3 h4 h5 h6 =>
    have hut : u = t := h.asks_unique (by rw [hu]; rfl) hasks
    subst hut
    rw [hp] at hu
    cases hu
    have hhand := h.inHand u
    rw [hp] at hhand
    have hfired : i ∈ s.fired := by
      rw [h4]
      exact List.mem_range.mpr (Nat.lt_succ_self i)
    refine ⟨Lock.exclusive_moves h.locks (.callRelease hheld), h.fault, ?_, ?_, ?_, h.returned⟩
    · refine (Function.forall_update_iff s.pc fun v p =>
        LocalAt p ((s.locks.goto u .releasing).phase v)).mpr
        ⟨.inl (Lock.goto_phase_self ..), fun v hvu => ?_⟩
      rw [Lock.goto_phase_of_ne _ hvu]
      exact h.place v
    · refine .quiet ?_ h2 ?_ ?_ h5 h6
      · refine (Function.forall_update_iff s.pc fun _ p => p.asks = false).mpr
          ⟨rfl, fun v hvu => ?_⟩
        exact Bool.eq_false_iff.mpr fun hv' => hvu (h.asks_unique hv' hasks)
      · show TwosComplement.wrap (s.semaphore.value - 1) = 0
        rw [h3]
        rfl
      · show s.fired = List.range s.log.length
        rw [h4, h1]
    · exact (Function.forall_update_iff s.pc (InHand M g s.log s.fired)).mpr
        ⟨⟨hfired, hhand⟩, fun v _ => h.inHand v⟩
  | quiet _ _ h0 | asking _ _ _ _ _ _ h0 | waiting _ _ _ _ _ _ h0 => exact absurd h0 hv

omit [DecidableEq τ] in
theorem inv_fire (h : Inv M g s) {i : ℕ} (hi : i ∈ s.pending) : Inv M g (interrupt D s i) := by
  refine ⟨h.locks, h.fault, h.place, ?_, fun t => ?_, fun t j w hmem =>
    ⟨List.mem_append_left _ (h.returned t j w hmem).1, (h.returned t j w hmem).2⟩⟩
  · cases h.flow with
    | waiting t j w hp h1 h2 h3 h4 h5 =>
      rw [h2, List.mem_singleton] at hi
      subst hi
      refine .signalled t i w hp h1 ?_ ?_ ?_ (M.idle_callBack _) ((M.content_callBack _).trans h5)
      · show s.pending.erase i = []
        rw [h2, List.erase_cons_head]
      · show TwosComplement.wrap (s.semaphore.value + 1) = 1
        rw [h3]
        rfl
      · show s.fired ++ [i] = List.range (i + 1)
        rw [h4, List.range_succ]
    | quiet _ h0 | asking _ _ _ _ _ h0 | signalled _ _ _ _ _ h0 =>
      rw [h0] at hi
      cases hi
  · show InHand M g s.log (s.fired ++ [i]) t (s.pc t)
    rw [← List.append_nil s.log]
    exact (h.inHand t).mono

theorem inv_moves (h : Inv M g s) (hm : Moves D s a s') : Inv M g s' := by
  cases hm with
  | refuse t a e hp he =>
    refine inv_frame (t := t) h h.locks ?_ (fun _ _ => ⟨rfl, rfl⟩) (h.place t) (.inl rfl)
      (h.inHand t) ⟨rfl, rfl, rfl, rfl, rfl⟩ h.returned
    intro e' he'
    cases he'
    exact M.prepare_error he
  | call t a r hp hr =>
    have hout : s.locks.phase t = .out := h.at hp
    refine inv_frame (t := t) h (Lock.exclusive_moves h.locks (.call hout)) h.fault
      (fun u hu => ⟨Function.update_of_ne hu .., Lock.goto_phase_of_ne _ hu _⟩) ?_ ?_ ?_
      ⟨rfl, rfl, rfl, rfl, rfl⟩ h.returned
    · rw [System.goto_pc, Function.update_self]
      exact .inl (Lock.goto_phase_self ..)
    · rw [System.goto_pc, Function.update_self, hp]
      exact .inr ⟨rfl, rfl⟩
    · rw [System.goto_pc, Function.update_self]
      exact M.prepare_ok hr
  | acquiring t r l hp hl hheld =>
    refine inv_frame (t := t) h (Lock.exclusive_moves h.locks (Lock.run_moves hl)) h.fault
      (fun u hu => ⟨rfl, Lock.run_others hl hu⟩) ?_ (.inl rfl) (h.inHand t)
      ⟨rfl, rfl, rfl, rfl, rfl⟩ h.returned
    show LocalAt (s.pc t) (l.phase t)
    rw [hp]
    exact (Lock.run_moves hl).acquiring (h.at hp) hheld
  | enter t r l hp hl hheld => exact inv_enter h hp hl hheld
  | fail t i r e hp he =>
    refine inv_frame (t := t) h h.locks ?_ (fun _ _ => ⟨rfl, rfl⟩) (h.place t) (.inl rfl)
      (h.inHand t) ⟨rfl, rfl, rfl, rfl, rfl⟩ h.returned
    intro e' he'
    cases he'
    have hasks : (s.pc t).asks := by
      rw [hp]
      rfl
    have hprepared := h.inHand t
    rw [hp] at hprepared
    -- only a busy device refuses, and then another call than this one would be at its request
    cases h.flow with
    | quiet _ _ _ _ hidle => exact M.request_error hidle hprepared he
    | asking _ _ _ _ _ _ _ _ hidle => exact M.request_error hidle hprepared he
    | waiting u _ _ hu | signalled u _ _ hu =>
      have hut : u = t := h.asks_unique (by rw [hu]; rfl) hasks
      rw [hut, hp] at hu
      cases hu
  | ask t i r d w hp hd => exact inv_ask h hp hd
  | sleep t i w hp hq hv =>
    exact inv_frame (t := t) h h.locks h.fault (fun _ _ => ⟨rfl, rfl⟩) (h.place t) (.inl rfl)
      (h.inHand t) ⟨rfl, rfl, rfl, rfl, rfl⟩ h.returned
  | wake t i w hp hv => exact inv_wake h hp hv
  | releasing t i w l hp hl hout =>
    refine inv_frame (t := t) h (Lock.exclusive_moves h.locks (Lock.run_moves hl)) h.fault
      (fun u hu => ⟨rfl, Lock.run_others hl hu⟩) ?_ (.inl rfl) (h.inHand t)
      ⟨rfl, rfl, rfl, rfl, rfl⟩ h.returned
    show LocalAt (s.pc t) (l.phase t)
    rw [hp]
    exact (Lock.run_moves hl).releasing (h.at hp) hout
  | leave t i w l hp hl hout =>
    have hhand := h.inHand t
    rw [hp] at hhand
    refine inv_frame (t := t) h (Lock.exclusive_moves h.locks (Lock.run_moves hl)) h.fault
      (fun u hu => ⟨Function.update_of_ne hu .., Lock.run_others hl hu⟩) ?_ ?_ ?_
      ⟨rfl, rfl, rfl, rfl, rfl⟩ ?_
    · rw [System.goto_pc, Function.update_self]
      exact hout
    · rw [System.goto_pc, Function.update_self, hp]
      exact .inr ⟨rfl, rfl⟩
    · rw [System.goto_pc, Function.update_self]
      trivial
    · intro u j v hmem
      rcases List.mem_append.mp hmem with hold | hnew
      · exact h.returned u j v hold
      · cases List.mem_singleton.mp hnew
        exact hhand
  | fire i hi => exact inv_fire h hi

/-- What every driver has in common: no request finds the device busy, the semaphore has at
most one token, and a call is past its `P` only after the interrupt of its own request,
which has come once. -/
structure OneRequest (busy : ε → Prop) (s : System τ ρ δ ω ε) : Prop where
  fault : ∀ e, s.fault = some e → ¬busy e
  value : s.semaphore.value ≤ 1
  fired : s.fired.Nodup
  own : ∀ t i w, s.pc t = .release i w ∨ (t, i, w) ∈ s.returned →
    i ∈ s.fired ∧ ∃ r, s.log[i]? = some (t, r)

omit [DecidableEq τ] in
theorem Flow.nodup (h : Flow M g s) : s.fired.Nodup := by
  cases h with
  | quiet _ _ _ hf | asking _ _ _ _ _ _ _ hf | waiting _ _ _ _ _ _ _ hf
  | signalled _ _ _ _ _ _ _ hf =>
    rw [hf]
    exact List.nodup_range

omit [DecidableEq τ] in
theorem Flow.content_eq (h : Flow M g s) : M.content s.device = M.after g s.log ∨
    ∃ t r before, s.pc t = .request before.length r ∧ s.log = before ++ [(t, r)] ∧
      M.content s.device = M.after g before := by
  cases h with
  | asking t r before hp hlog _ _ _ _ hc => exact .inr ⟨t, r, before, hp, hlog, hc⟩
  | quiet _ _ _ _ _ hc | waiting _ _ _ _ _ _ _ _ hc => exact .inl hc
  | signalled _ _ _ _ _ _ _ _ _ hc => exact .inl hc

omit [DecidableEq τ] in
theorem Inv.oneRequest (h : Inv M g s) : OneRequest M.busy s where
  fault := h.fault
  value := h.flow.value_le
  fired := h.flow.nodup
  own t i w hiw := by
    have hdone : i ∈ s.fired ∧ Answered M g s.log t i w := by
      rcases hiw with hp | hmem
      · have hhand := h.inHand t
        rwa [hp] at hhand
      · exact h.returned t i w hmem
    obtain ⟨hi, r, -, -, hr, -⟩ := hdone
    exact ⟨hi, r, hr⟩

theorem inv_step (h : Inv M g s) (hs : step D s a = some s') : Inv M g s' :=
  inv_moves h (step_moves hs)

end meaning

end Driver
end Nachos
