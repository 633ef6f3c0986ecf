import Nachos.Semaphore

namespace Nachos.STable
open GuardedRun TwosComplement

abbrev Name := List UInt8

def maxSemaphore : ℕ := 10
def maxLengthProcessName : ℕ := 32

/-- `User2System` on the characters before the terminating NUL: the copy ends at
the limit or at the first NUL. -/
def user2System : ℕ → Name → Name
  | 0, _ => []
  | _ + 1, [] => []
  | limit + 1, c :: s => if c = 0 then [] else c :: user2System limit s

/-- The string the handlers of the three calls pass to the table. -/
def kernelName (n : Name) : Name := user2System (maxLengthProcessName + 1) n

structure Sem where
  name : Name
  sem : Semaphore ℕ
  deriving DecidableEq, Repr

abbrev Table := Fin maxSemaphore → Option Sem

def hasName (name : Name) (e : Option Sem) : Bool := e.any fun s => s.name == name

/-- The scan with `strcmp` that `Create`, `Wait` and `Signal` start with. -/
def find (T : Table) (name : Name) : Option (Fin maxSemaphore) :=
  (List.finRange maxSemaphore).find? fun i => hasName name (T i)

def findFreeSlot (T : Table) : Option (Fin maxSemaphore) :=
  (List.finRange maxSemaphore).find? fun i => (T i).isNone

/-- The new table and the returned value. -/
def create (T : Table) (name : Name) (init : Int) : Table × Int :=
  match find T name with
  | some _ => (T, -1)
  | none =>
    match findFreeSlot T with
    | none => (T, -1)
    | some id => (Function.update T id (some ⟨name, .new init⟩), 0)

theorem find_eq_some {T : Table} {name : Name} {i : Fin maxSemaphore} (h : find T name = some i) :
    ∃ e, T i = some e ∧ e.name = name := by
  have := List.find?_some h
  simp only [hasName, Option.any_eq_true, beq_iff_eq] at this
  exact this

theorem find_eq_none {T : Table} {name : Name} (h : find T name = none)
    {i : Fin maxSemaphore} {e : Sem} (he : T i = some e) : e.name ≠ name := by
  have := List.find?_eq_none.mp h i (List.mem_finRange i)
  simpa [hasName, he] using this

theorem findFreeSlot_eq_some {T : Table} {i : Fin maxSemaphore} (h : findFreeSlot T = some i) :
    T i = none := by
  have := List.find?_some h
  simpa using this

/-- `inside p` is the slot and the user's string of the `Wait` that `p` is in, asleep
or woken.  The last three components are history: the value a name was created with,
the `Wait`s that returned 0, and the `Signal`s made. -/
structure System where
  table : Table
  inside : ℕ → Option (Fin maxSemaphore × Name)
  r2 : ℕ → Int
  created : Name → Option Int
  returned : Name → ℕ
  signalled : Name → ℕ

def start : System :=
  ⟨fun _ => none, fun _ => none, fun _ => 0, fun _ => none, fun _ => 0, fun _ => 0⟩

/-- The value of `CreateSemaphore` is the 32-bit content of register 5. -/
inductive Act where
  | create (p : ℕ) (n : Name) (v : BitVec 32)
  | wait (p : ℕ) (n : Name)
  | signal (p : ℕ) (n : Name)
  | resume (p : ℕ)

def setR2 (s : System) (p : ℕ) (v : Int) : System := { s with r2 := Function.update s.r2 p v }

def test (s : System) (p : ℕ) (i : Fin maxSemaphore) (n : Name) (e : Sem) : System :=
  let r := e.sem.P p
  let s' := { s with table := Function.update s.table i (some { e with sem := r.1 }) }
  if r.2 then
    setR2 { s' with
      inside := Function.update s'.inside p none
      returned := Function.update s'.returned n (s'.returned n + 1) } p 0
  else { s' with inside := Function.update s'.inside p (some (i, n)) }

def doCreate (s : System) (p : ℕ) (n : Name) (v : BitVec 32) : System :=
  let r := create s.table (kernelName n) v.toInt
  setR2 { s with
    table := r.1
    created := if r.2 = 0 then Function.update s.created n (some v.toInt) else s.created } p r.2

def doWait (s : System) (p : ℕ) (n : Name) : System :=
  match find s.table (kernelName n) with
  | none => setR2 s p (-1)
  | some i =>
    match s.table i with
    | none => s
    | some e => test s p i n e

def doSignal (s : System) (p : ℕ) (n : Name) : System :=
  let s' := { s with signalled := Function.update s.signalled n (s.signalled n + 1) }
  match find s.table (kernelName n) with
  | none => setR2 s' p (-1)
  | some i =>
    match s.table i with
    | none => s'
    | some e =>
      setR2 { s' with table := Function.update s.table i (some { e with sem := e.sem.V.1 }) } p 0

/-- A process inside `Wait` makes no call; it runs again once it is off the queue. -/
def step (s : System) : Act → Option System
  | .create p n v => if s.inside p = none then some (doCreate s p n v) else none
  | .wait p n => if s.inside p = none then some (doWait s p n) else none
  | .signal p n => if s.inside p = none then some (doSignal s p n) else none
  | .resume p =>
    match s.inside p with
    | none => none
    | some (i, n) =>
      match s.table i with
      | none => none
      | some e => if p ∈ e.sem.queue then none else some (test s p i n e)

/-- A semaphore that is put into the table has no negative value.  A `Signal` does not find the
value at its maximum, nor a semaphore that was created under another name with the same copy
in the kernel. -/
def Proper (s : System) : Act → Prop
  | .create _ n v => (create s.table (kernelName n) v.toInt).2 = 0 → 0 ≤ v.toInt
  | .signal _ n => ∀ i, find s.table (kernelName n) = some i →
      (s.created n).isSome ∧ ∀ e ∈ s.table i, e.sem.value ≠ intMax
  | .wait _ _ | .resume _ => True

instance (s : System) (a : Act) : Decidable (Proper s a) :=
  match a with
  | .create _ n v => inferInstanceAs (Decidable ((create s.table (kernelName n) v.toInt).2 = 0 → _))
  | .signal _ n => inferInstanceAs (Decidable (∀ i, find s.table (kernelName n) = some i → _ ∧ _))
  | .wait _ _ | .resume _ => inferInstanceAs (Decidable True)

/-- The tokens given and the `Wait`s that went through, for a semaphore created with `v`. -/
structure Bound (v : Int) (value : Int) (returned signalled : ℕ) : Prop where
  init : 0 ≤ v
  nonneg : 0 ≤ value
  bounded : value ≤ intMax
  gate : value + returned ≤ v + signalled

/-- Every semaphore in the table was created under one name, and has its copy. -/
structure Keyed (T : Table) (created : Name → Option Int) : Prop where
  distinct : ∀ i j e e', T i = some e → T j = some e' → e.name = e'.name → i = j
  slot : ∀ i e, T i = some e → ∃ n, (created n).isSome ∧ kernelName n = e.name
  named : ∀ n, (created n).isSome → ∃ i e, T i = some e ∧ e.name = kernelName n
  injective : ∀ m n, (created m).isSome → (created n).isSome → kernelName m = kernelName n → m = n

/-- The counters of the name that a semaphore was created under bound its value.  A `Wait` may be
made under another name with the same copy. -/
structure Gated (s : System) : Prop where
  keyed : Keyed s.table s.created
  bound : ∀ i e n v, s.table i = some e → s.created n = some v → kernelName n = e.name →
    Bound v e.sem.value (s.returned n) (s.signalled n)
  inside : ∀ p i n, s.inside p = some (i, n) → ∃ e, s.table i = some e ∧ e.name = kernelName n
  quiet : ∀ n, (∀ i e, s.table i = some e → e.name ≠ kernelName n) → s.returned n = 0

theorem keyed_start : Keyed start.table start.created where
  distinct := by simp [start]
  slot := by simp [start]
  named := by simp [start]
  injective := by simp [start]

theorem gated_start : Gated start where
  keyed := keyed_start
  bound := by simp [start]
  inside := by simp [start]
  quiet := by simp [start]

section Keyed
variable {T T' : Table} {created : Name → Option Int} {i : Fin maxSemaphore} {e : Sem} {n : Name}

theorem exists_of_name_eq (hname : (T' i).map Sem.name = (T i).map Sem.name) (he : T i = some e) :
    ∃ e', T' i = some e' ∧ e'.name = e.name := by
  rw [he, Option.map_some] at hname
  exact Option.map_eq_some_iff.mp hname

theorem name_update (he : T i = some e) (σ : Semaphore ℕ) (j : Fin maxSemaphore) :
    (Function.update T i (some { e with sem := σ }) j).map Sem.name = (T j).map Sem.name := by
  by_cases hj : j = i
  · rw [hj, Function.update_self, he]
    rfl
  · rw [Function.update_of_ne hj]

theorem Keyed.congr (h : Keyed T created)
    (hnames : ∀ j, (T' j).map Sem.name = (T j).map Sem.name) : Keyed T' created := by
  refine ⟨fun i j e e' he he' hname => ?_, fun i e he => ?_, fun n hn => ?_, h.injective⟩
  · obtain ⟨x, hx, hxn⟩ := exists_of_name_eq (hnames i).symm he
    obtain ⟨x', hx', hxn'⟩ := exists_of_name_eq (hnames j).symm he'
    exact h.distinct i j x x' hx hx' (hxn.trans (hname.trans hxn'.symm))
  · obtain ⟨x, hx, hxn⟩ := exists_of_name_eq (hnames i).symm he
    exact hxn ▸ h.slot i x hx
  · obtain ⟨i, e, he, hname⟩ := h.named n hn
    obtain ⟨e', he', hname'⟩ := exists_of_name_eq (hnames i) he
    exact ⟨i, e', he', hname'.trans hname⟩

theorem Keyed.not_created (h : Keyed T created) (hfind : find T (kernelName n) = none) :
    ¬(created n).isSome := by
  intro hn
  obtain ⟨i, e, he, hname⟩ := h.named n hn
  exact find_eq_none hfind he hname

variable {id : Fin maxSemaphore} {v : Int}

theorem update_of_entry (hid : T id = none) (o : Option Sem) (he : T i = some e) :
    Function.update T id o i = some e := by
  have hne : i ≠ id := by
    rintro rfl
    rw [hid] at he
    cases he
  rw [Function.update_of_ne hne, he]

theorem entry_of_update {x : Sem} (h : Function.update T id (some x) i = some e) :
    (i = id ∧ e = x) ∨ T i = some e := by
  by_cases hi : i = id
  · rw [hi, Function.update_self] at h
    exact .inl ⟨hi, (Option.some.inj h).symm⟩
  · rw [Function.update_of_ne hi] at h
    exact .inr h

theorem isSome_update_created {m : Name} :
    (Function.update created n (some v) m).isSome ↔ m = n ∨ (created m).isSome := by
  by_cases hmn : m = n
  · simp [hmn]
  · simp [hmn]

theorem Keyed.insert (h : Keyed T created) (hfind : find T (kernelName n) = none)
    (hid : T id = none) : Keyed (Function.update T id (some ⟨kernelName n, .new v⟩))
      (Function.update created n (some v)) := by
  -- nothing in the table has the copy of the new name
  have hfresh : ∀ {m}, (created m).isSome → kernelName m ≠ kernelName n := by
    intro m hm heq
    obtain ⟨j, x, hx, hxm⟩ := h.named m hm
    exact find_eq_none hfind hx (hxm.trans heq)
  refine ⟨fun i j e e' he he' hname => ?_, fun i e he => ?_, fun m hm => ?_,
    fun m m' hm hm' heq => ?_⟩
  · rcases entry_of_update he with ⟨rfl, rfl⟩ | hold <;>
      rcases entry_of_update he' with ⟨rfl, rfl⟩ | hold'
    · rfl
    · exact absurd hname.symm (find_eq_none hfind hold')
    · exact absurd hname (find_eq_none hfind hold)
    · exact h.distinct i j e e' hold hold' hname
  · rcases entry_of_update he with ⟨-, rfl⟩ | he
    · exact ⟨n, isSome_update_created.mpr (.inl rfl), rfl⟩
    · obtain ⟨m, hm, hname⟩ := h.slot i e he
      exact ⟨m, isSome_update_created.mpr (.inr hm), hname⟩
  · rcases isSome_update_created.mp hm with rfl | hm
    · exact ⟨id, _, Function.update_self .., rfl⟩
    · obtain ⟨i, e, he, hname⟩ := h.named m hm
      exact ⟨i, e, update_of_entry hid _ he, hname⟩
  · rcases isSome_update_created.mp hm with hmn | hm <;>
      rcases isSome_update_created.mp hm' with hmn' | hm'
    · exact hmn.trans hmn'.symm
    · exact absurd (hmn ▸ heq.symm) (hfresh hm')
    · exact absurd (hmn' ▸ heq) (hfresh hm)
    · exact h.injective m m' hm hm' heq

end Keyed

variable {s : System} {n : Name}

theorem gated_setR2 (h : Gated s) (p : ℕ) (v : Int) : Gated (setR2 s p v) :=
  ⟨h.keyed, h.bound, h.inside, h.quiet⟩

theorem gated_signalled (h : Gated s) (n : Name) :
    Gated { s with signalled := Function.update s.signalled n (s.signalled n + 1) } where
  keyed := h.keyed
  bound := by
    intro i e m v he hm hk
    have hb := h.bound i e m v he hm hk
    refine ⟨hb.init, hb.nonneg, hb.bounded, ?_⟩
    have hg := hb.gate
    by_cases hmn : m = n
    · subst hmn
      simp only [Function.update_self]
      push_cast
      omega
    · simpa only [Function.update_of_ne hmn] using hg
  inside := h.inside
  quiet := h.quiet

/-- A `P` or `V` on the semaphore of slot `i`, in a call with the name `n` that finds it. -/
theorem gated_update (h : Gated s) {i : Fin maxSemaphore} {e : Sem} (he : s.table i = some e)
    (hk : kernelName n = e.name) {σ : Semaphore ℕ} {r g : ℕ}
    {f : ℕ → Option (Fin maxSemaphore × Name)}
    (hb : ∀ m v, s.created m = some v → kernelName m = e.name →
      Bound v e.sem.value (s.returned m) (s.signalled m) →
      Bound v σ.value (Function.update s.returned n r m) (Function.update s.signalled n g m))
    (hin : ∀ p j m, f p = some (j, m) → s.inside p = some (j, m) ∨ (j, m) = (i, n)) :
    Gated { s with
      table := Function.update s.table i (some { e with sem := σ })
      inside := f
      returned := Function.update s.returned n r
      signalled := Function.update s.signalled n g } := by
  have hnames := name_update he σ
  refine ⟨h.keyed.congr hnames, ?_, ?_, ?_⟩
  · intro j x m v hx hm hkm
    by_cases hji : j = i
    · subst hji
      simp only [Function.update_self, Option.some.injEq] at hx
      subst hx
      exact hb m v hm hkm (h.bound j e m v he hm hkm)
    · simp only [Function.update_of_ne hji] at hx
      -- the counters of `n` count for slot `i` only
      have hmn : m ≠ n := by
        rintro rfl
        exact hji (h.keyed.distinct j i x e hx he (hkm.symm.trans hk))
      simpa only [Function.update_of_ne hmn] using h.bound j x m v hx hm hkm
  · intro p j m hp
    rcases hin p j m hp with hp | hp
    · obtain ⟨x, hx, hxn⟩ := h.inside p j m hp
      obtain ⟨x', hx', hxn'⟩ := exists_of_name_eq (hnames j) hx
      exact ⟨x', hx', hxn'.trans hxn⟩
    · cases hp
      exact ⟨_, Function.update_self .., hk.symm⟩
  · intro m hm
    have hold : ∀ j x, s.table j = some x → x.name ≠ kernelName m := by
      intro j x hx
      obtain ⟨x', hx', hxn'⟩ := exists_of_name_eq (hnames j) hx
      exact hxn' ▸ hm j x' hx'
    have hmn : m ≠ n := by
      rintro rfl
      exact hold i e he hk.symm
    simpa only [Function.update_of_ne hmn] using h.quiet m hold

theorem gated_test (h : Gated s) {i : Fin maxSemaphore} {e : Sem} (he : s.table i = some e)
    (hk : kernelName n = e.name) (p : ℕ) : Gated (test s p i n e) := by
  cases hb : (e.sem.P p).2 with
  | true =>
    simp only [test, hb, if_true]
    apply gated_setR2
    have hg := gated_update (σ := (e.sem.P p).1) (r := s.returned n + 1) (g := s.signalled n)
      (f := Function.update s.inside p none) h he hk ?_ ?_
    · simpa only [Function.update_eq_self] using hg
    · intro m v _ _ hv
      obtain ⟨hpos, hval⟩ := Semaphore.P_pass_value hv.nonneg hv.bounded hb
      have hg := hv.gate
      have hm := hv.bounded
      rw [Function.update_eq_self]
      refine ⟨hv.init, ?_, ?_, ?_⟩ <;> rw [hval]
      · omega
      · omega
      · -- a token is taken, also where the call is under another name
        by_cases hmn : m = n
        · subst hmn
          rw [Function.update_self]
          push_cast
          omega
        · rw [Function.update_of_ne hmn]
          omega
    · intro q j m hq
      by_cases hqp : q = p
      · simp [hqp] at hq
      · exact .inl (by rwa [Function.update_of_ne hqp] at hq)
  | false =>
    obtain ⟨hz, hs⟩ := Semaphore.P_sleep hb
    simp only [test, hb, Bool.false_eq_true, if_false]
    have hg := gated_update (σ := (e.sem.P p).1) (r := s.returned n) (g := s.signalled n)
      (f := Function.update s.inside p (some (i, n))) h he hk ?_ ?_
    · simpa only [Function.update_eq_self] using hg
    · intro m v _ _ hv
      rw [hs, Function.update_eq_self, Function.update_eq_self]
      exact ⟨hv.init, hv.nonneg, hv.bounded, hv.gate⟩
    · intro q j m hq
      by_cases hqp : q = p
      · right
        simpa [hqp, eq_comm] using hq
      · exact .inl (by rwa [Function.update_of_ne hqp] at hq)

theorem gated_insert (h : Gated s) {id : Fin maxSemaphore} (hid : s.table id = none)
    (hf : find s.table (kernelName n) = none) {v : Int} (hv : 0 ≤ v) (hmax : v ≤ intMax) :
    Gated { s with
      table := Function.update s.table id (some ⟨kernelName n, .new v⟩)
      created := Function.update s.created n (some v) } := by
  refine ⟨h.keyed.insert hf hid, ?_, ?_, ?_⟩
  · intro j x m u hx hm hk
    have hm : Function.update s.created n (some v) m = some u := hm
    rcases entry_of_update hx with ⟨-, rfl⟩ | hold
    · obtain rfl : m = n := (h.keyed.insert hf hid).injective m n (Option.isSome_of_eq_some hm)
        (isSome_update_created.mpr (.inl rfl)) hk
      rw [Function.update_self] at hm
      cases hm
      -- no `Wait` has found a semaphore for this name before
      refine ⟨hv, hv, hmax, ?_⟩
      rw [h.quiet m fun j x hx => find_eq_none hf hx]
      simp only [Semaphore.new]
      omega
    · have hmn : m ≠ n := by
        rintro rfl
        exact find_eq_none hf hold hk.symm
      rw [Function.update_of_ne hmn] at hm
      exact h.bound j x m u hold hm hk
  · intro q j m hq
    obtain ⟨x, hx, hxn⟩ := h.inside q j m hq
    exact ⟨x, update_of_entry hid _ hx, hxn⟩
  · intro m hm
    exact h.quiet m fun j x hx => hm j x (update_of_entry hid _ hx)

theorem gated_doCreate (h : Gated s) (p : ℕ) {v : BitVec 32}
    (hv : (create s.table (kernelName n) v.toInt).2 = 0 → 0 ≤ v.toInt) :
    Gated (doCreate s p n v) := by
  apply gated_setR2
  unfold create at hv ⊢
  cases hf : find s.table (kernelName n) with
  | some i => exact h
  | none =>
    cases hfree : findFreeSlot s.table with
    | none => exact h
    | some id =>
      have hmax : v.toInt ≤ intMax := by
        have := BitVec.toInt_lt (x := v)
        unfold intMax
        omega
      simp only [hf, hfree, forall_const] at hv
      exact gated_insert h (findFreeSlot_eq_some hfree) hf hv hmax

theorem gated_doWait (h : Gated s) (p : ℕ) (n : Name) : Gated (doWait s p n) := by
  unfold doWait
  cases hf : find s.table (kernelName n) with
  | none => exact gated_setR2 h p (-1)
  | some i =>
    obtain ⟨e, he, hen⟩ := find_eq_some hf
    simp only [he]
    exact gated_test h he hen.symm p

theorem gated_doSignal (h : Gated s)
    (hok : ∀ i, find s.table (kernelName n) = some i →
      (s.created n).isSome ∧ ∀ e ∈ s.table i, e.sem.value ≠ intMax) (p : ℕ) :
    Gated (doSignal s p n) := by
  unfold doSignal
  cases hf : find s.table (kernelName n) with
  | none => exact gated_setR2 (gated_signalled h n) p (-1)
  | some i =>
    obtain ⟨e, he, hen⟩ := find_eq_some hf
    obtain ⟨hsome, hmax⟩ := hok i hf
    simp only [he]
    apply gated_setR2
    have hg := gated_update (σ := e.sem.V.1) (r := s.returned n) (g := s.signalled n + 1)
      (f := s.inside) h he hen.symm ?_ fun q j m hq => .inl hq
    · simpa only [Function.update_eq_self] using hg
    · intro m v hm hkm hv
      obtain rfl : m = n := h.keyed.injective m n (Option.isSome_of_eq_some hm) hsome
        (hkm.trans hen)
      have hlt : e.sem.value < intMax := lt_of_le_of_ne hv.bounded (hmax e he)
      have hval := Semaphore.V_value hv.nonneg hlt
      have hnn := hv.nonneg
      have hgate := hv.gate
      rw [Function.update_self, Function.update_self]
      refine ⟨hv.init, ?_, ?_, ?_⟩ <;> rw [hval]
      · omega
      · omega
      · push_cast
        omega

theorem gated_step {s' : System} {a : Act} (h : Gated s) (hok : Proper s a)
    (hs : step s a = some s') : Gated s' := by
  cases a with
  | create p n v =>
    simp only [step, Option.ite_none_right_eq_some, Option.some.injEq] at hs
    exact hs.2 ▸ gated_doCreate h p hok
  | wait p n =>
    simp only [step, Option.ite_none_right_eq_some, Option.some.injEq] at hs
    exact hs.2 ▸ gated_doWait h p n
  | signal p n =>
    simp only [step, Option.ite_none_right_eq_some, Option.some.injEq] at hs
    exact hs.2 ▸ gated_doSignal h hok p
  | resume p =>
    simp only [step] at hs
    split at hs
    · cases hs
    · next i n hin =>
      obtain ⟨e, he, hen⟩ := h.inside p i n hin
      simp only [he, Option.ite_none_left_eq_some, Option.some.injEq] at hs
      exact hs.2 ▸ gated_test h he hen.symm p

/-- In every run of proper calls no semaphore value is negative, and no more `Wait`s
on a name return 0 than its initial value and its `Signal`s allow. -/
theorem semaphores_gate (h : Reach step Proper start s) :
    (∀ i e, s.table i = some e → 0 ≤ e.sem.value) ∧
      ∀ n v, s.created n = some v → (s.returned n : Int) ≤ max v 0 + s.signalled n := by
  have hg : Gated s := h.invariant gated_start fun _ _ _ hi hok hs => gated_step hi hok hs
  constructor
  · intro i e he
    obtain ⟨n, hn, hk⟩ := hg.keyed.slot i e he
    obtain ⟨v, hv⟩ := Option.isSome_iff_exists.mp hn
    exact (hg.bound i e n v he hv hk).nonneg
  · intro n v hv
    obtain ⟨i, e, he, hen⟩ := hg.keyed.named n (Option.isSome_of_eq_some hv)
    have hb := hg.bound i e n v he hv hen.symm
    have := hb.gate
    have := hb.nonneg
    omega

/-- Process 2 sleeps in `Wait` until process 1 signals. -/
theorem semaphores_gate_handover :
    ∃ s, exec step Proper start [.create 1 [115] 1, .wait 1 [115], .wait 2 [115],
        .signal 1 [115], .resume 2] = some s ∧ s.returned [115] = 2 ∧
      ((∀ i e, s.table i = some e → 0 ≤ e.sem.value) ∧
        ∀ n v, s.created n = some v → (s.returned n : Int) ≤ max v 0 + s.signalled n) :=
  ⟨_, rfl, rfl, semaphores_gate (reach_of_exec [.create 1 [115] 1, .wait 1 [115], .wait 2 [115],
    .signal 1 [115], .resume 2] rfl)⟩

/-- A semaphore created with -1 is in the table with that value, and lets a `Wait`
through that nothing has paid for. -/
theorem negative_semaphore_does_not_gate :
    ∃ s, Reach step (fun _ _ => True) start s ∧
      ¬ ((∀ i e, s.table i = some e → 0 ≤ e.sem.value) ∧
        ∀ n v, s.created n = some v → (s.returned n : Int) ≤ max v 0 + s.signalled n) := by
  refine ⟨_, reach_of_exec [.create 1 [115] (-1), .wait 1 [115]] rfl, fun h => ?_⟩
  exact absurd (h.2 [115] (-1) rfl) (by decide)

end Nachos.STable
