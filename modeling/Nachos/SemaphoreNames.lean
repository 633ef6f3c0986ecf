import Mathlib.Data.Set.Card
import Nachos.STable
import Nachos.UserStrings

namespace Nachos
open GuardedRun TwosComplement Programs

namespace STable

theorem user2System_eq_take {name : Name} (hname : ∀ c ∈ name, c ≠ 0) (limit : ℕ) :
    user2System limit name = name.take limit := by
  induction limit generalizing name with
  | zero => rfl
  | succ limit ih =>
    cases name with
    | nil => rfl
    | cons c rest =>
      rw [user2System, if_neg (hname c List.mem_cons_self), List.take_succ_cons,
        ih fun d hd => hname d (List.mem_cons_of_mem c hd)]

end STable

namespace Sys
variable {κ : Type} {k : Kernel κ} {env : Env} {name : Name}

/-- The handlers of `CreateSemaphore`, `Wait` and `Signal` hand the table the kernel's copy of
the string that stands in the memory of the caller. -/
theorem semCall_string (f : Name → κ → Except Stop (Int × κ)) (htlb : k.machine.tlb = none)
    (h : k.machine.HoldsString (regs k 4) name) :
    ∃ m', m'.registers = k.machine.registers ∧ semCall env f k =
      (do ret (← service (f (STable.kernelName name))) : Sys κ Unit) { k with machine := m' } := by
  obtain ⟨b, m', hread, hstr, -, hregs⟩ := user2System_take env 33 htlb h (by decide)
  refine ⟨m', hregs, ?_⟩
  have hname : b.str = STable.kernelName name :=
    hstr.trans (STable.user2System_eq_take h.ne_zero 33).symm
  rw [← hname]
  exact (bind_of_ok (a := regs k 4) rfl).trans (bind_of_ok hread)

end Sys

/-- A partial map from strings to semaphores, with the process that is inside a `Wait` and the
results of the calls. -/
@[ext]
structure SemaphoreMap where
  sem : STable.Name → Option (Semaphore ℕ)
  inside : ℕ → Option STable.Name
  r2 : ℕ → Int

namespace SemaphoreMap
open STable (Name Act maxSemaphore)

def empty : SemaphoreMap := ⟨fun _ => none, fun _ => none, fun _ => 0⟩

def bound (M : SemaphoreMap) : Set Name := {n | (M.sem n).isSome}

def setR2 (M : SemaphoreMap) (p : ℕ) (v : Int) : SemaphoreMap :=
  { M with r2 := Function.update M.r2 p v }

open Classical in
/-- A string is bound once, and not more than `MAX_SEMAPHORE` of them. -/
noncomputable def create (M : SemaphoreMap) (p : ℕ) (n : Name) (v : Int) : SemaphoreMap :=
  if M.sem n = none ∧ M.bound.ncard < maxSemaphore then
    { M with sem := Function.update M.sem n (some (.new v)) }.setR2 p 0
  else M.setR2 p (-1)

def test (M : SemaphoreMap) (p : ℕ) (n : Name) (σ : Semaphore ℕ) : SemaphoreMap :=
  if (σ.P p).2 then
    { M with
      sem := Function.update M.sem n (some (σ.P p).1)
      inside := Function.update M.inside p none }.setR2 p 0
  else
    { M with
      sem := Function.update M.sem n (some (σ.P p).1)
      inside := Function.update M.inside p (some n) }

def wait (M : SemaphoreMap) (p : ℕ) (n : Name) : SemaphoreMap :=
  match M.sem n with
  | none => M.setR2 p (-1)
  | some σ => M.test p n σ

def signal (M : SemaphoreMap) (p : ℕ) (n : Name) : SemaphoreMap :=
  match M.sem n with
  | none => M.setR2 p (-1)
  | some σ => { M with sem := Function.update M.sem n (some σ.V.1) }.setR2 p 0

def resume (M : SemaphoreMap) (p : ℕ) : Option SemaphoreMap :=
  match M.inside p with
  | none => none
  | some n =>
    match M.sem n with
    | none => none
    | some σ => if p ∈ σ.queue then none else some (M.test p n σ)

noncomputable def step (M : SemaphoreMap) : Act → Option SemaphoreMap
  | .create p n v => if M.inside p = none then some (M.create p n v.toInt) else none
  | .wait p n => if M.inside p = none then some (M.wait p n) else none
  | .signal p n => if M.inside p = none then some (M.signal p n) else none
  | .resume p => M.resume p

end SemaphoreMap

namespace STable
variable {s s' : System} {n m : Name} {p : ℕ}

def semOf (T : Table) (name : Name) : Option (Semaphore ℕ) :=
  (find T name).bind fun i => (T i).map Sem.sem

/-- What the table is for its users: the strings they have created, each with the semaphore that
the table finds for it. -/
def System.map (s : System) : SemaphoreMap where
  sem n := (s.created n).bind fun _ => semOf s.table (kernelName n)
  inside p := (s.inside p).map Prod.snd
  r2 := s.r2

/-- Another string that was created has the same copy. -/
def Clash (s : System) (n : Name) : Prop :=
  ∃ m, m ≠ n ∧ (s.created m).isSome ∧ kernelName m = kernelName n

/-- No call is made with a string that clashes, unless it is a `Create` on a full table. -/
def Safe (s : System) : Act → Prop
  | .create _ n _ => Clash s n → findFreeSlot s.table = none
  | .wait _ n | .signal _ n => ¬Clash s n
  | .resume _ => True

/-- While no call is made with a string that clashes, a process waits under a string that was
created. -/
structure Owned (s : System) : Prop extends Keyed s.table s.created where
  inside : ∀ p i n, s.inside p = some (i, n) → (s.created n).isSome ∧
    ∃ e, s.table i = some e ∧ e.name = kernelName n

theorem owned_start : Owned start := ⟨keyed_start, by simp [start]⟩

theorem find_of_distinct {T : Table} {i : Fin maxSemaphore} {e : Sem} (he : T i = some e)
    (hd : ∀ j e', T j = some e' → e'.name = e.name → j = i) : find T e.name = some i := by
  cases hf : find T e.name with
  | none => exact absurd rfl (find_eq_none hf he)
  | some j =>
    obtain ⟨e', he', hname⟩ := find_eq_some hf
    rw [hd j e' he' hname]

theorem Owned.find_eq (h : Owned s) {i : Fin maxSemaphore} {e : Sem} (he : s.table i = some e)
    (hname : e.name = kernelName n) : find s.table (kernelName n) = some i := by
  rw [← hname]
  exact find_of_distinct he fun j e' he' hn => h.distinct j i e' e he' he hn

theorem Owned.semOf_eq (h : Owned s) {i : Fin maxSemaphore} {e : Sem} (he : s.table i = some e)
    (hname : e.name = kernelName n) : semOf s.table (kernelName n) = some e.sem := by
  unfold semOf
  rw [h.find_eq he hname, Option.bind_some, he, Option.map_some]

theorem Owned.sem_eq (h : Owned s) (hn : (s.created n).isSome) {i : Fin maxSemaphore} {e : Sem}
    (he : s.table i = some e) (hname : e.name = kernelName n) : s.map.sem n = some e.sem := by
  obtain ⟨v, hv⟩ := Option.isSome_iff_exists.mp hn
  show (s.created n).bind _ = _
  rw [hv, Option.bind_some, h.semOf_eq he hname]

theorem sem_none (hn : ¬(s.created n).isSome) : s.map.sem n = none := by
  show (s.created n).bind _ = none
  rw [Option.not_isSome_iff_eq_none.mp hn, Option.bind_none]

theorem Owned.bound_iff (h : Owned s) : n ∈ s.map.bound ↔ (s.created n).isSome := by
  constructor
  · intro hb
    by_contra hn
    have hb : (s.map.sem n).isSome := hb
    rw [sem_none hn] at hb
    cases hb
  · intro hn
    obtain ⟨i, e, he, hname⟩ := h.named n hn
    show (s.map.sem n).isSome
    rw [h.sem_eq hn he hname]
    rfl

theorem findFreeSlot_eq_none {T : Table} :
    findFreeSlot T = none ↔ ∀ i, (T i).isSome := by
  simp [findFreeSlot, Option.isSome_iff_ne_none]

theorem Owned.ncard_bound (h : Owned s) :
    s.map.bound.ncard = {i | (s.table i).isSome}.ncard := by
  have hinj : Set.InjOn (fun n => find s.table (kernelName n)) s.map.bound := by
    intro m hm n hn heq
    rw [h.bound_iff] at hm hn
    obtain ⟨i, e, he, hname⟩ := h.named m hm
    have heq : find s.table (kernelName m) = find s.table (kernelName n) := heq
    rw [h.find_eq he hname] at heq
    obtain ⟨e', he', hname'⟩ := find_eq_some heq.symm
    rw [he] at he'
    cases he'
    exact h.injective m n hm hn (hname.symm.trans hname')
  have himage : (fun n => find s.table (kernelName n)) '' s.map.bound =
      some '' {i | (s.table i).isSome} := by
    ext o
    constructor
    · rintro ⟨n, hn, rfl⟩
      obtain ⟨i, e, he, hname⟩ := h.named n (h.bound_iff.mp hn)
      exact ⟨i, Option.isSome_of_eq_some he, (h.find_eq he hname).symm⟩
    · rintro ⟨i, hi, rfl⟩
      obtain ⟨e, he⟩ := Option.isSome_iff_exists.mp hi
      obtain ⟨n, hn, hname⟩ := h.slot i e he
      exact ⟨n, h.bound_iff.mpr hn, h.find_eq he hname.symm⟩
  rw [← hinj.ncard_image, himage]
  exact Set.ncard_image_of_injective _ (Option.some_injective _)

theorem Owned.room_iff (h : Owned s) :
    s.map.bound.ncard < maxSemaphore ↔ findFreeSlot s.table ≠ none := by
  rw [h.ncard_bound, Ne, findFreeSlot_eq_none]
  have hcard : (Set.univ : Set (Fin maxSemaphore)).ncard = maxSemaphore := by
    rw [Set.ncard_univ, Nat.card_fin]
  constructor
  · intro hlt hall
    rw [Set.eq_univ_of_forall (s := {i | (s.table i).isSome}) hall, hcard] at hlt
    exact lt_irrefl _ hlt
  · intro hnot
    refine lt_of_lt_of_eq (Set.ncard_lt_ncard (Set.ssubset_univ_iff.mpr fun heq => hnot ?_)) hcard
    exact fun i => Set.eq_univ_iff_forall.mp heq i

theorem Owned.congr (h : Owned s)
    (hnames : ∀ j, (s'.table j).map Sem.name = (s.table j).map Sem.name)
    (hcreated : s'.created = s.created)
    (hinside : ∀ p i n, s'.inside p = some (i, n) → (s.created n).isSome ∧
      ∃ e, s.table i = some e ∧ e.name = kernelName n) : Owned s' := by
  refine ⟨hcreated ▸ h.toKeyed.congr hnames, fun p i n hp => ?_⟩
  obtain ⟨hn, e, he, hname⟩ := hinside p i n hp
  obtain ⟨e', he', hname'⟩ := exists_of_name_eq (hnames i) he
  exact ⟨hcreated ▸ hn, e', he', hname'.trans hname⟩

theorem Owned.setSem (h : Owned s) (hn : (s.created n).isSome) {i : Fin maxSemaphore} {e : Sem}
    (he : s.table i = some e) (hname : e.name = kernelName n) {σ : Semaphore ℕ}
    (htable : s'.table = Function.update s.table i (some { e with sem := σ }))
    (hcreated : s'.created = s.created)
    (hinside : ∀ p j m, s'.inside p = some (j, m) → s.inside p = some (j, m) ∨ (j, m) = (i, n)) :
    Owned s' ∧ s'.map.sem = Function.update s.map.sem n (some σ) := by
  have howned : Owned s' := by
    refine h.congr (fun j => ?_) hcreated fun p j m hp => ?_
    · rw [htable]
      exact name_update he σ j
    · rcases hinside p j m hp with hold | heq
      · exact h.inside p j m hold
      · cases heq
        exact ⟨hn, e, he, hname⟩
  refine ⟨howned, ?_⟩
  funext m
  by_cases hmn : m = n
  · rw [hmn, Function.update_self]
    refine howned.sem_eq (hcreated ▸ hn) (i := i) (e := { e with sem := σ }) ?_ hname
    rw [htable, Function.update_self]
  · rw [Function.update_of_ne hmn]
    by_cases hm : (s.created m).isSome
    · obtain ⟨j, x, hx, hxm⟩ := h.named m hm
      have hji : j ≠ i := by
        rintro rfl
        rw [he] at hx
        cases hx
        exact hmn (h.injective m n hm hn (hxm.symm.trans hname))
      rw [h.sem_eq hm hx hxm]
      refine howned.sem_eq (hcreated ▸ hm) (i := j) ?_ hxm
      rw [htable, Function.update_of_ne hji, hx]
    · rw [sem_none hm, sem_none (hcreated ▸ hm)]

theorem Owned.insert (h : Owned s) (hfind : find s.table (kernelName n) = none)
    {id : Fin maxSemaphore} (hid : s.table id = none) {v : Int}
    (htable : s'.table = Function.update s.table id (some ⟨kernelName n, .new v⟩))
    (hcreated : s'.created = Function.update s.created n (some v))
    (hinside : s'.inside = s.inside) :
    Owned s' ∧ s'.map.sem = Function.update s.map.sem n (some (.new v)) := by
  have hkeep : ∀ {j x}, s.table j = some x → s'.table j = some x := by
    intro j x hx
    rw [htable]
    exact update_of_entry hid _ hx
  have hbound : ∀ {m}, (s'.created m).isSome ↔ m = n ∨ (s.created m).isSome := by
    intro m
    rw [hcreated]
    exact isSome_update_created
  have howned : Owned s' := by
    refine ⟨htable ▸ hcreated ▸ h.toKeyed.insert hfind hid, fun p i m hp => ?_⟩
    rw [hinside] at hp
    obtain ⟨hm, e, he, hname⟩ := h.inside p i m hp
    exact ⟨hbound.mpr (.inr hm), e, hkeep he, hname⟩
  refine ⟨howned, ?_⟩
  -- the map gets the new string, and the others keep their slots
  funext m
  by_cases hmn : m = n
  · have hself : s'.table id = some ⟨kernelName n, .new v⟩ := by
      rw [htable, Function.update_self]
    rw [hmn, Function.update_self]
    exact howned.sem_eq (hbound.mpr (.inl rfl)) hself rfl
  · rw [Function.update_of_ne hmn]
    by_cases hm : (s.created m).isSome
    · obtain ⟨j, x, hx, hxm⟩ := h.named m hm
      rw [h.sem_eq hm hx hxm]
      exact howned.sem_eq (hbound.mpr (.inr hm)) (hkeep hx) hxm
    · rw [sem_none hm]
      exact sem_none fun hm' => (hbound.mp hm').elim hmn hm

theorem Owned.unbound (h : Owned s) (hclash : Clash s n) : ¬(s.created n).isSome := by
  obtain ⟨m, hne, hm, heq⟩ := hclash
  exact fun hn => hne (h.injective m n hm hn heq)

theorem Owned.found (h : Owned s) (hclash : ¬Clash s n) {i : Fin maxSemaphore} {e : Sem}
    (he : s.table i = some e) (hname : e.name = kernelName n) : (s.created n).isSome := by
  obtain ⟨m, hm, hkm⟩ := h.slot i e he
  by_contra hn
  refine hclash ⟨m, ?_, hm, hkm.trans hname⟩
  rintro rfl
  exact hn hm

theorem map_inside_none : s.map.inside p = none ↔ s.inside p = none := Option.map_eq_none_iff

theorem map_inside_update (s : System) (p : ℕ) (o : Option (Fin maxSemaphore × Name)) (q : ℕ) :
    (Function.update s.inside p o q).map Prod.snd =
      Function.update s.map.inside p (o.map Prod.snd) q := by
  by_cases hq : q = p
  · rw [hq, Function.update_self, Function.update_self]
  · rw [Function.update_of_ne hq, Function.update_of_ne hq]
    rfl

section test
variable (s p n) (i : Fin maxSemaphore) (e : Sem)

theorem test_table : (test s p i n e).table =
    Function.update s.table i (some { e with sem := (e.sem.P p).1 }) := by
  unfold test
  dsimp only
  split_ifs <;> rfl

theorem test_created : (test s p i n e).created = s.created := by
  unfold test
  dsimp only
  split_ifs <;> rfl

theorem test_inside : (test s p i n e).inside =
    Function.update s.inside p (if (e.sem.P p).2 then none else some (i, n)) := by
  unfold test
  dsimp only
  split_ifs <;> rfl

theorem test_r2 : (test s p i n e).r2 =
    if (e.sem.P p).2 then Function.update s.r2 p 0 else s.r2 := by
  unfold test
  dsimp only
  split_ifs <;> rfl

end test

/-- `Wait` from its test on is that of the map. -/
theorem Owned.test (h : Owned s) {i : Fin maxSemaphore} {e : Sem} (hn : (s.created n).isSome)
    (he : s.table i = some e) (hname : e.name = kernelName n) :
    Owned (test s p i n e) ∧ (test s p i n e).map = s.map.test p n e.sem := by
  have hinside : ∀ q j m, (STable.test s p i n e).inside q = some (j, m) →
      s.inside q = some (j, m) ∨ (j, m) = (i, n) := by
    intro q j m hq
    rw [test_inside] at hq
    by_cases hqp : q = p
    · rw [hqp, Function.update_self] at hq
      split_ifs at hq
      cases hq
      exact .inr rfl
    · rw [Function.update_of_ne hqp] at hq
      exact .inl hq
  obtain ⟨howned, hsem⟩ := h.setSem hn he hname (test_table s n p i e) (test_created s n p i e)
    hinside
  refine ⟨howned, ?_⟩
  have hin : ∀ q, (STable.test s p i n e).map.inside q =
      Function.update s.map.inside p (if (e.sem.P p).2 then none else some n) q := by
    intro q
    show ((STable.test s p i n e).inside q).map Prod.snd = _
    rw [test_inside, map_inside_update, apply_ite (Option.map Prod.snd)]
    rfl
  have hr2 : (STable.test s p i n e).map.r2 =
      if (e.sem.P p).2 then Function.update s.map.r2 p 0 else s.map.r2 := test_r2 s n p i e
  unfold SemaphoreMap.test
  split_ifs at hin hr2 ⊢ with hpass
  · exact SemaphoreMap.ext hsem (funext hin) hr2
  · exact SemaphoreMap.ext hsem (funext hin) hr2

theorem doCreate_map (h : Owned s) (hsafe : Clash s n → findFreeSlot s.table = none)
    (v : BitVec 32) :
    Owned (doCreate s p n v) ∧ (doCreate s p n v).map = s.map.create p n v.toInt := by
  unfold SemaphoreMap.create doCreate create
  cases hfind : find s.table (kernelName n) with
  | some i =>
    have hno : ¬(s.map.sem n = none ∧ s.map.bound.ncard < maxSemaphore) := by
      rintro ⟨hsem, hroom⟩
      obtain ⟨e, he, hname⟩ := find_eq_some hfind
      rw [h.room_iff] at hroom
      have hn := h.found (fun hclash => hroom (hsafe hclash)) he hname
      rw [h.sem_eq hn he hname] at hsem
      cases hsem
    rw [if_neg hno]
    exact ⟨h.congr (fun _ => rfl) rfl h.inside, rfl⟩
  | none =>
    have hn := h.not_created hfind
    cases hfree : findFreeSlot s.table with
    | none =>
      have hno : ¬(s.map.sem n = none ∧ s.map.bound.ncard < maxSemaphore) := by
        rintro ⟨-, hroom⟩
        exact h.room_iff.mp hroom hfree
      rw [if_neg hno]
      exact ⟨h.congr (fun _ => rfl) rfl h.inside, rfl⟩
    | some id =>
      have hroom : findFreeSlot s.table ≠ none := by
        rw [hfree]
        nofun
      rw [if_pos ⟨sem_none hn, h.room_iff.mpr hroom⟩]
      have hid := findFreeSlot_eq_some hfree
      have hnew : Owned (STable.setR2 { s with
          table := Function.update s.table id (some ⟨kernelName n, .new v.toInt⟩)
          created := Function.update s.created n (some v.toInt) } p 0) ∧ _ :=
        h.insert hfind hid rfl rfl rfl
      exact ⟨hnew.1, SemaphoreMap.ext hnew.2 rfl rfl⟩

theorem doWait_map (h : Owned s) (hsafe : ¬Clash s n) :
    Owned (doWait s p n) ∧ (doWait s p n).map = s.map.wait p n := by
  unfold doWait SemaphoreMap.wait
  cases hfind : find s.table (kernelName n) with
  | none =>
    rw [sem_none (h.not_created hfind)]
    exact ⟨h.congr (fun _ => rfl) rfl h.inside, rfl⟩
  | some i =>
    obtain ⟨e, he, hname⟩ := find_eq_some hfind
    have hn := h.found hsafe he hname
    simp only [he, h.sem_eq hn he hname]
    exact h.test hn he hname

theorem doSignal_map (h : Owned s) (hsafe : ¬Clash s n) :
    Owned (doSignal s p n) ∧ (doSignal s p n).map = s.map.signal p n := by
  unfold doSignal SemaphoreMap.signal
  cases hfind : find s.table (kernelName n) with
  | none =>
    rw [sem_none (h.not_created hfind)]
    exact ⟨h.congr (fun _ => rfl) rfl h.inside, rfl⟩
  | some i =>
    obtain ⟨e, he, hname⟩ := find_eq_some hfind
    have hn := h.found hsafe he hname
    simp only [he, h.sem_eq hn he hname]
    have hset : Owned (STable.setR2 { s with
        table := Function.update s.table i (some { e with sem := e.sem.V.1 })
        signalled := Function.update s.signalled n (s.signalled n + 1) } p 0) ∧ _ :=
      h.setSem hn he hname rfl rfl fun _ _ _ hq => .inl hq
    exact ⟨hset.1, SemaphoreMap.ext hset.2 rfl rfl⟩

theorem call_map {x : System} {M : SemaphoreMap} (hx : Owned x ∧ x.map = M) (s : System) (p : ℕ) :
    (if s.map.inside p = none then some M else none) =
        (if s.inside p = none then some x else none).map System.map ∧
      ∀ s', (if s.inside p = none then some x else none) = some s' → Owned s' := by
  obtain ⟨howned, rfl⟩ := hx
  by_cases hp : s.inside p = none
  · rw [if_pos hp, if_pos (map_inside_none.mpr hp)]
    refine ⟨rfl, fun s' hs' => ?_⟩
    cases hs'
    exact howned
  · rw [if_neg hp, if_neg (mt map_inside_none.mp hp)]
    exact ⟨rfl, fun s' hs' => by cases hs'⟩

/-- Safe calls are those of the map, and the map has no others. -/
theorem step_map {a : Act} (h : Owned s) (hsafe : Safe s a) :
    s.map.step a = (step s a).map System.map ∧ ∀ s', step s a = some s' → Owned s' := by
  cases a with
  | create p n v => exact call_map (doCreate_map h hsafe v) s p
  | wait p n => exact call_map (doWait_map h hsafe) s p
  | signal p n => exact call_map (doSignal_map h hsafe) s p
  | resume p =>
    show s.map.resume p = _ ∧ _
    unfold SemaphoreMap.resume
    cases hp : s.inside p with
    | none =>
      simp only [map_inside_none.mpr hp, step, hp]
      exact ⟨rfl, fun s' hs' => by cases hs'⟩
    | some x =>
      obtain ⟨i, n⟩ := x
      obtain ⟨hn, e, he, hname⟩ := h.inside p i n hp
      have hin : s.map.inside p = some n := by
        show (s.inside p).map Prod.snd = some n
        rw [hp]
        rfl
      simp only [hin, h.sem_eq hn he hname, step, hp, he]
      by_cases hq : p ∈ e.sem.queue
      · rw [if_pos hq, if_pos hq]
        exact ⟨rfl, fun s' hs' => by cases hs'⟩
      · rw [if_neg hq, if_neg hq]
        obtain ⟨howned, hmap⟩ := h.test (p := p) hn he hname
        refine ⟨by rw [Option.map_some, hmap], fun s' hs' => ?_⟩
        cases hs'
        exact howned

theorem Owned.clash_slot (h : Owned s) (hclash : Clash s n) :
    ∃ i e, find s.table (kernelName n) = some i ∧ s.table i = some e := by
  obtain ⟨m, -, hm, heq⟩ := hclash
  obtain ⟨i, e, he, hname⟩ := h.named m hm
  exact ⟨i, e, h.find_eq he (hname.trans heq), he⟩

theorem doCreate_clash (h : Owned s) (hclash : Clash s n) (hfree : findFreeSlot s.table ≠ none)
    (v : BitVec 32) : s.map.create p n v.toInt ≠ (doCreate s p n v).map := by
  intro hmap
  obtain ⟨i, e, hfind, he⟩ := h.clash_slot hclash
  unfold SemaphoreMap.create doCreate create at hmap
  rw [if_pos ⟨sem_none (h.unbound hclash), h.room_iff.mpr hfree⟩, hfind] at hmap
  have hr2 : Function.update s.r2 p (0 : Int) p = Function.update s.r2 p (-1) p :=
    congrFun (congrArg SemaphoreMap.r2 hmap) p
  rw [Function.update_self, Function.update_self] at hr2
  cases hr2

theorem doWait_clash (h : Owned s) (hclash : Clash s n) (hp : s.inside p = none) :
    s.map.wait p n ≠ (doWait s p n).map := by
  intro hmap
  obtain ⟨i, e, hfind, he⟩ := h.clash_slot hclash
  unfold SemaphoreMap.wait doWait at hmap
  simp only [sem_none (h.unbound hclash), hfind, he] at hmap
  -- The process is through with 0, or it is inside.
  have hr2 : Function.update s.r2 p (-1) p = (test s p i n e).r2 p :=
    congrFun (congrArg SemaphoreMap.r2 hmap) p
  have hin : s.map.inside p = ((test s p i n e).inside p).map Prod.snd :=
    congrFun (congrArg SemaphoreMap.inside hmap) p
  rw [test_r2, Function.update_self] at hr2
  rw [test_inside, Function.update_self, map_inside_none.mpr hp] at hin
  split_ifs at hr2 hin with hpass
  · rw [Function.update_self] at hr2
    cases hr2
  · cases hin

theorem doSignal_clash (h : Owned s) (hclash : Clash s n) :
    s.map.signal p n ≠ (doSignal s p n).map := by
  intro hmap
  obtain ⟨i, e, hfind, he⟩ := h.clash_slot hclash
  unfold SemaphoreMap.signal doSignal at hmap
  simp only [sem_none (h.unbound hclash), hfind, he] at hmap
  have hr2 : Function.update s.r2 p (-1) p = Function.update s.r2 p (0 : Int) p :=
    congrFun (congrArg SemaphoreMap.r2 hmap) p
  rw [Function.update_self, Function.update_self] at hr2
  cases hr2

theorem call_some {x : System} (hs : (if s.inside p = none then some x else none) = some s') :
    s.inside p = none ∧ x = s' := by
  obtain ⟨hp, hx⟩ := Option.ite_none_right_eq_some.mp hs
  exact ⟨hp, Option.some.inj hx⟩

theorem call_clash {x : System} {M : SemaphoreMap} (hne : s.inside p = none → M ≠ x.map)
    (hs : (if s.inside p = none then some x else none) = some s') :
    (if s.map.inside p = none then some M else none) ≠ some s'.map := by
  obtain ⟨hp, rfl⟩ := call_some hs
  rw [if_pos (map_inside_none.mpr hp)]
  exact fun hmap => hne hp (Option.some.inj hmap)

/-- A call that is not safe does what the map does not. -/
theorem step_clash {a : Act} (h : Owned s) (hrisky : ¬Safe s a) (hs : step s a = some s') :
    s.map.step a ≠ some s'.map := by
  cases a with
  | create p n v =>
    obtain ⟨hclash, hfree⟩ := Classical.not_imp.mp hrisky
    exact call_clash (fun _ => doCreate_clash h hclash hfree v) hs
  | wait p n => exact call_clash (doWait_clash h (not_not.mp hrisky)) hs
  | signal p n => exact call_clash (fun _ => doSignal_clash h (not_not.mp hrisky)) hs
  | resume p => exact absurd trivial hrisky

theorem owned_reach (h : Reach step Safe start s) : Owned s :=
  h.invariant owned_start fun _ _ s' hi hsafe hs => (step_map hi hsafe).2 s' hs

theorem reach_map (h : Reach step Safe start s) :
    Reach SemaphoreMap.step (fun _ _ => True) .empty s.map := by
  induction h with
  | refl => exact .refl
  | @tail s s' a hr hsafe hs ih =>
    have hmap : s.map.step a = some s'.map := by
      rw [(step_map (owned_reach hr) hsafe).1, hs, Option.map_some]
    exact .tail ih trivial hmap

def Act.UserString : Act → Prop
  | .create _ n _ | .wait _ n | .signal _ n => ∀ c ∈ n, c ≠ 0
  | .resume _ => True

/-- Another string that was created has the same first characters as `n`. -/
def Alike (s : System) (n : Name) : Prop :=
  ∃ m, m ≠ n ∧ (s.created m).isSome ∧
    m.take (maxLengthProcessName + 1) = n.take (maxLengthProcessName + 1)

/-- No call is made with a string that begins like another one, unless it is a `Create` and all
slots are in use. -/
def Apart (s : System) : Act → Prop
  | .create _ n _ => Alike s n → ∀ i, (s.table i).isSome
  | .wait _ n | .signal _ n => ¬Alike s n
  | .resume _ => True

theorem doWait_created (s : System) (p : ℕ) (n : Name) : (doWait s p n).created = s.created := by
  unfold doWait
  split
  · rfl
  · split
    · rfl
    · exact test_created ..

theorem doSignal_created (s : System) (p : ℕ) (n : Name) :
    (doSignal s p n).created = s.created := by
  unfold doSignal
  dsimp only
  split
  · rfl
  · split <;> rfl

/-- Only a `Create` binds a string, and it binds its own. -/
theorem step_created {a : Act} (hs : step s a = some s') (hm : (s'.created m).isSome) :
    (s.created m).isSome ∨ ∃ p v, a = .create p m v := by
  cases a with
  | create p n v =>
    obtain ⟨-, rfl⟩ := call_some hs
    by_cases hmn : m = n
    · exact .inr ⟨p, v, by rw [hmn]⟩
    · simp only [doCreate, setR2] at hm
      split_ifs at hm
      · rw [Function.update_of_ne hmn] at hm
        exact .inl hm
      · exact .inl hm
  | wait p n =>
    obtain ⟨-, rfl⟩ := call_some hs
    exact .inl (doWait_created s p n ▸ hm)
  | signal p n =>
    obtain ⟨-, rfl⟩ := call_some hs
    exact .inl (doSignal_created s p n ▸ hm)
  | resume p =>
    simp only [step] at hs
    split at hs
    · cases hs
    · split at hs
      · cases hs
      · split_ifs at hs
        cases hs
        exact .inl (test_created .. ▸ hm)

theorem clash_iff (hcreated : ∀ m, (s.created m).isSome → ∀ c ∈ m, c ≠ 0)
    (hn : ∀ c ∈ n, c ≠ 0) : Clash s n ↔ Alike s n := by
  refine exists_congr fun m => and_congr_right fun _ => and_congr_right fun hm => ?_
  unfold kernelName
  rw [user2System_eq_take (hcreated m hm), user2System_eq_take hn]

theorem safe_iff {a : Act} (hcreated : ∀ m, (s.created m).isSome → ∀ c ∈ m, c ≠ 0)
    (ha : a.UserString) : Safe s a ↔ Apart s a := by
  cases a with
  | create p n v => exact imp_congr (clash_iff hcreated ha) findFreeSlot_eq_none
  | wait p n => exact not_congr (clash_iff hcreated ha)
  | signal p n => exact not_congr (clash_iff hcreated ha)
  | resume p => exact Iff.rfl

theorem safe_reach (h : Reach step (fun s a => a.UserString ∧ Apart s a) start s) :
    Reach step Safe start s ∧ ∀ m, (s.created m).isSome → ∀ c ∈ m, c ≠ 0 := by
  induction h with
  | refl => exact ⟨.refl, nofun⟩
  | tail _ hok hs ih =>
    obtain ⟨hr, hcreated⟩ := ih
    refine ⟨hr.tail ((safe_iff hcreated hok.1).mpr hok.2) hs, fun m hm => ?_⟩
    rcases step_created hs hm with hold | ⟨p, v, rfl⟩
    · exact hcreated m hold
    · exact hok.1

/-- As long as no call is made with a string whose first characters are those of another one, the
table is the map that its users expect and different strings have different slots; a further
call is that of the map exactly if it is made with no such string. -/
theorem semaphore_names_map_iff
    (h : Reach step (fun s a => a.UserString ∧ Apart s a) start s) :
    Reach SemaphoreMap.step (fun _ _ => True) .empty s.map ∧
      (∀ m n i, (s.created m).isSome → (s.created n).isSome →
        find s.table (kernelName m) = some i → find s.table (kernelName n) = some i → m = n) ∧
      (∀ a, a.UserString → Apart s a → s.map.step a = (step s a).map System.map) ∧
      ∀ a s', a.UserString → step s a = some s' →
        (s.map.step a = some s'.map ↔ Apart s a) := by
  obtain ⟨hr, hcreated⟩ := safe_reach h
  have howned := owned_reach hr
  refine ⟨reach_map hr, fun m n i hm hn hfm hfn => ?_, fun a ha hapart => ?_,
    fun a s' ha hs => ?_⟩
  · obtain ⟨e, he, hname⟩ := find_eq_some hfm
    obtain ⟨e', he', hname'⟩ := find_eq_some hfn
    rw [he] at he'
    cases he'
    exact howned.injective m n hm hn (hname.symm.trans hname')
  · exact (step_map howned ((safe_iff hcreated ha).mpr hapart)).1
  · rw [← safe_iff hcreated ha]
    constructor
    · intro hmap
      by_contra hrisky
      exact step_clash howned hrisky hs hmap
    · intro hsafe
      rw [(step_map howned hsafe).1, hs, Option.map_some]

def letters (k : ℕ) (c : UInt8) : Name := List.replicate k 97 ++ [c]

theorem letters_ne_zero (k : ℕ) {c : UInt8} (hc : c ≠ 0) : ∀ d ∈ letters k c, d ≠ 0 := by
  intro d hd
  rcases List.mem_append.mp hd with ha | hlast
  · rw [List.eq_of_mem_replicate ha]
    decide
  · rw [List.mem_singleton.mp hlast]
    exact hc

/-- Two strings of 33 characters that differ in the last one. -/
theorem semaphore_names_map_iff_last :
    ∃ s s', Reach step (fun s a => a.UserString ∧ Apart s a) start s ∧
      step s (.create 0 (letters 32 99) 1) = some s' ∧
      s'.r2 0 = 0 ∧ s.map.step (.create 0 (letters 32 99) 1) = some s'.map := by
  have huser : ∀ c ∈ letters 32 98, c ≠ 0 := letters_ne_zero 32 (by decide)
  have huser' : ∀ c ∈ letters 32 99, c ≠ 0 := letters_ne_zero 32 (by decide)
  have hfirst : step start (.create 0 (letters 32 98) 1) =
      some (doCreate start 0 (letters 32 98) 1) := rfl
  have hr : Reach step (fun s a => a.UserString ∧ Apart s a) start
      (doCreate start 0 (letters 32 98) 1) :=
    .single (a := .create 0 (letters 32 98) 1) ⟨huser, fun ⟨m, _, hm, _⟩ => by cases hm⟩ hfirst
  refine ⟨_, _, hr, rfl, by decide +kernel,
    ((semaphore_names_map_iff hr).2.2.2 (.create 0 (letters 32 99) 1) _ huser' rfl).mpr ?_⟩
  rintro ⟨m, -, hm, htake⟩
  -- Only the first string has been created.
  rcases step_created hfirst hm with hold | ⟨p, v, hm⟩
  · cases hold
  · cases hm
    exact absurd htake (by decide +kernel)

/-- A `Signal` raises the semaphore of another string, and a `Create` of a new string is refused
though slots are free: the strings differ only after 33 characters. -/
theorem signal_raises_other_semaphore :
    (exec step (fun _ _ => True) start
        [.create 0 (letters 33 98) 1, .signal 0 (letters 33 99)]).map (fun s =>
          (s.created (letters 33 99), s.r2 0, (s.table ⟨0, by decide⟩).map fun e => e.sem.value)) =
      some (none, 0, some 2) ∧
    (exec step (fun _ _ => True) start
        [.create 0 (letters 33 98) 1, .create 0 (letters 33 99) 1]).map (fun s =>
          (s.r2 0, s.table ⟨1, by decide⟩)) =
      some (-1, none) := by
  decide +kernel

end STable
end Nachos
