import Nachos.Lib.GuardedRun
import Nachos.SyscallReturn

namespace Nachos
open TwosComplement Programs GuardedRun

namespace Host
variable {h : Host} {fd n o : ℕ}

theorem setFd_self {d : Option Descriptor} (hfd : h.fds fd = d) : h.setFd fd d = h := by
  rw [setFd, ← hfd, Function.update_eq_self]

theorem newFd_free {env : Env} (hfd : h.newFd env = some fd) : h.fds fd = none := by
  simpa using (Option.filter_eq_some_iff.mp hfd).2

theorem openRW_cases (h : Host) (env : Env) (name : Name) : h.openRW env name = (none, h) ∨
    ∃ fd n, h.fds fd = none ∧ ((h.data n).length : Int) ≤ intMax ∧
      h.openRW env name = (some fd, h.setFd fd (some (.file n 0))) := by
  unfold openRW
  split
  · next fd n hfd _ =>
    split_ifs with hlen
    · exact .inr ⟨fd, n, newFd_free hfd, hlen, rfl⟩
    · exact .inl rfl
  · exact .inl rfl

theorem fds_setFd (d : Option Descriptor) : (h.setFd fd d).fds fd = d := Function.update_self ..

theorem lseek_cur (hfd : h.fds fd = some (.file n o)) (ho : (o : Int) ≤ intMax) :
    h.lseek fd 0 1 = ((o : Int), h) := by
  simp only [lseek, hfd, whenceBase, one_ne_zero, if_false, if_true, add_zero]
  rw [if_pos ⟨Int.natCast_nonneg o, ho⟩, Int.toNat_natCast, setFd_self hfd]

theorem lseek_set (hfd : h.fds fd = some (.file n o)) {p : Int} (hp : 0 ≤ p) (hp' : p ≤ intMax) :
    h.lseek fd p 0 = (p, h.setFd fd (some (.file n p.toNat))) := by
  simp only [lseek, hfd, whenceBase, if_true, Nat.cast_zero, zero_add]
  rw [if_pos ⟨hp, hp'⟩]

theorem lseek_set_neg (hfd : h.fds fd = some (.file n o)) {p : Int} (hp : p < 0) :
    h.lseek fd p 0 = (-1, h) := by
  simp only [lseek, hfd, whenceBase, if_true, Nat.cast_zero, zero_add]
  rw [if_neg fun hc => absurd hc.1 (not_le.mpr hp)]

theorem lseek_end (hfd : h.fds fd = some (.file n o)) (hlen : ((h.data n).length : Int) ≤ intMax) :
    h.lseek fd 0 2 =
      (((h.data n).length : Int), h.setFd fd (some (.file n (h.data n).length))) := by
  have h0 : (2 : Int) ≠ 0 := by decide
  have h1 : (2 : Int) ≠ 1 := by decide
  simp only [lseek, hfd, whenceBase, if_neg h0, if_neg h1, if_true, add_zero]
  rw [if_pos ⟨Int.natCast_nonneg _, hlen⟩, Int.toNat_natCast]

/-- A read from a file fails, or moves the offset by what it has read. -/
theorem read_file (hfd : h.fds fd = some (.file n o)) (env : Env) (count : Int) :
    h.read env fd count = (-1, [], h) ∨ ∃ bytes, bytes <+: (h.data n).drop o ∧
      h.read env fd count =
        ((bytes.length : Int), bytes, h.setFd fd (some (.file n (o + bytes.length)))) := by
  unfold read
  rw [hfd]
  cases env.limit with
  | none => exact .inl rfl
  | some limit => exact .inr ⟨_, List.take_prefix _ _, rfl⟩

theorem length_overwrite (data : List UInt8) (o : ℕ) (bytes : List UInt8) :
    (overwrite data o bytes).length = max data.length (o + bytes.length) := by
  simp only [overwrite, List.length_append, List.length_take, List.length_replicate,
    List.length_drop]
  omega

/-- A write to a file changes nothing, or moves the offset by what it has written.  All
that `WriteFile` asserts is that the result is the count. -/
theorem write_file (hfd : h.fds fd = some (.file n o)) (ho : (o : Int) ≤ intMax) (env : Env)
    (bytes : ℕ → UInt8) {count : Int} (hres : (h.write env fd bytes count).1 = count) :
    (count ≤ 0 ∧ (h.write env fd bytes count).2 = h) ∨
      0 < count ∧ o + count ≤ intMax ∧ (h.write env fd bytes count).2 = { h with
        data := Function.update h.data n
          (overwrite (h.data n) o ((List.range count.toNat).map bytes))
        fds := Function.update h.fds fd (some (.file n (o + count.toNat))) } := by
  unfold write at hres ⊢
  rw [hfd] at hres ⊢
  cases hl : env.limit with
  | none =>
    simp only [hl] at hres
    exact .inl ⟨by omega, rfl⟩
  | some limit =>
    simp only [hl] at hres ⊢
    split_ifs at hres ⊢ with h1 h2 h3
    · exact .inl ⟨by omega, rfl⟩
    · exact .inl ⟨by omega, rfl⟩
    · exact .inl ⟨by omega, rfl⟩
    · -- the count is what the host was able to take
      have hn : min (min limit (unsigned count)) (intMax.toNat - o) = count.toNat := by
        omega
      rw [hn] at h2 ⊢
      refine .inr ⟨by omega, ?_, rfl⟩
      unfold intMax at *
      omega

/-- The descriptor behind an open file is of the kind its type says, with an offset and a
length that `off_t` can express. -/
def Backs (h : Host) (f : OpenFile) : Prop :=
  match h.fds f.file with
  | some .socket => f.type = 2
  | some (.file n o) => f.type ≠ 2 ∧ (o : Int) ≤ intMax ∧ ((h.data n).length : Int) ≤ intMax
  | none => False

theorem Backs.file {f : OpenFile} (hb : h.Backs f) (hf : f.type ≠ 2) :
    ∃ n o, h.fds f.file = some (.file n o) ∧ (o : Int) ≤ intMax ∧
      ((h.data n).length : Int) ≤ intMax := by
  unfold Backs at hb
  split at hb
  · exact absurd hb hf
  · next n o hfd => exact ⟨n, o, hfd, hb.2.1, hb.2.2⟩
  · cases hb

theorem Backs.socket {f : OpenFile} (hb : h.Backs f) (hf : f.type = 2) :
    h.fds f.file = some .socket := by
  unfold Backs at hb
  split at hb
  · next hfd => exact hfd
  · exact absurd hf hb.1
  · cases hb

end Host

/-- What of an open file never changes. -/
def OpenFile.core (f : OpenFile) : ℕ × Int × Bool := (f.file, f.type, f.socketH)

namespace Files
variable {x x' x'' : Files} {i : Fin 20} {o : ℕ}

structure Ok (x : Files) : Prop where
  stdin : (x.1.openfile 0).isSome
  stdout : (x.1.openfile 1).isSome
  named : ∀ i, (x.1.openfile i).isSome ↔ x.1.filename i ≠ []
  typed : ∀ i f, x.1.openfile i = some f → f.type = 0 ∨ f.type = 1 ∨ f.type = 2
  derived : ∀ i f, x.1.openfile i = some f → (f.socketH = true ↔ f.type = 2)
  backed : ∀ i f, x.1.openfile i = some f → x.2.Backs f
  distinct : ∀ i j f g, x.1.openfile i = some f → x.1.openfile j = some g →
    f.file = g.file → i = j

theorem Ok.user_slot (hx : Ok x) (hi : x.1.openfile i = none) : (2 : ℕ) ≤ i := by
  have h0 : i ≠ 0 := by
    rintro rfl
    cases (congrArg Option.isSome hi).symm.trans hx.stdin
  have h1 : i ≠ 1 := by
    rintro rfl
    cases (congrArg Option.isSome hi).symm.trans hx.stdout
  omega

/-- The same slots are taken, by the same files under the same names. -/
structure SameTable (x x' : Files) : Prop where
  filename : x'.1.filename = x.1.filename
  core : ∀ i, (x'.1.openfile i).map OpenFile.core = (x.1.openfile i).map OpenFile.core
  within : ∀ n, ((x.2.data n).length : Int) ≤ intMax → ((x'.2.data n).length : Int) ≤ intMax

/-- No descriptor has changed either. -/
structure Quiet (x x' : Files) : Prop extends SameTable x x' where
  fds : x'.2.fds = x.2.fds

/-- The offset of the file in slot `i`, and no other, has changed. -/
structure Moved (i : Fin 20) (o : ℕ) (x x' : Files) : Prop extends SameTable x x' where
  bound : (o : Int) ≤ intMax
  fds : ∃ f n o₀, x.1.openfile i = some f ∧ x.2.fds f.file = some (.file n o₀) ∧
    x'.2.fds = Function.update x.2.fds f.file (some (.file n o))

theorem SameTable.refl (x : Files) : SameTable x x := ⟨rfl, fun _ => rfl, fun _ h => h⟩

theorem SameTable.trans (h : SameTable x x') (h' : SameTable x' x'') : SameTable x x'' :=
  ⟨h'.filename.trans h.filename, fun i => (h'.core i).trans (h.core i),
    fun n hn => h'.within n (h.within n hn)⟩

theorem Quiet.refl (x : Files) : Quiet x x := ⟨.refl x, rfl⟩

theorem Quiet.trans (h : Quiet x x') (h' : Quiet x' x'') : Quiet x x'' :=
  ⟨h.toSameTable.trans h'.toSameTable, h'.fds.trans h.fds⟩

theorem SameTable.before (h : SameTable x x') {f' : OpenFile} (hf : x'.1.openfile i = some f') :
    ∃ f, x.1.openfile i = some f ∧ f.core = f'.core := by
  have hc := h.core i
  rw [hf, Option.map_some] at hc
  obtain ⟨f, hf, hcore⟩ := Option.map_eq_some_iff.mp hc.symm
  exact ⟨f, hf, hcore⟩

theorem SameTable.after (h : SameTable x x') {f : OpenFile} (hf : x.1.openfile i = some f) :
    ∃ f', x'.1.openfile i = some f' ∧ f'.core = f.core := by
  have hc := h.core i
  rw [hf, Option.map_some] at hc
  obtain ⟨f', hf', hcore⟩ := Option.map_eq_some_iff.mp hc
  exact ⟨f', hf', hcore⟩

theorem Quiet.moved (h : Quiet x x') (h' : Moved i o x' x'') : Moved i o x x'' := by
  obtain ⟨f, n, o₀, hf, hfd, hfds⟩ := h'.fds
  obtain ⟨g, hg, hcore⟩ := h.before hf
  have hfile : g.file = f.file := congrArg Prod.fst hcore
  refine ⟨h.toSameTable.trans h'.toSameTable, h'.bound, g, n, o₀, hg, ?_, ?_⟩
  · rw [hfile, ← h.fds]
    exact hfd
  · rw [hfds, hfile, h.fds]

theorem Moved.quiet (h : Moved i o x x') (h' : Quiet x' x'') : Moved i o x x'' := by
  obtain ⟨f, n, o₀, hf, hfd, hfds⟩ := h.fds
  exact ⟨h.toSameTable.trans h'.toSameTable, h.bound, f, n, o₀, hf, hfd, h'.fds.trans hfds⟩

theorem Moved.moved {o' : ℕ} (h : Moved i o x x') (h' : Moved i o' x' x'') :
    Moved i o' x x'' := by
  obtain ⟨f, n, o₀, hf, hfd, hfds⟩ := h.fds
  obtain ⟨f', n', o₁, hf', hfd', hfds'⟩ := h'.fds
  obtain ⟨g, hg, hcore⟩ := h.before hf'
  obtain rfl : g = f := Option.some.inj (hg.symm.trans hf)
  have hfile : f'.file = g.file := (congrArg Prod.fst hcore).symm
  rw [hfds, hfile, Function.update_self] at hfd'
  cases hfd'
  refine ⟨h.toSameTable.trans h'.toSameTable, h'.bound, g, n, o₀, hf, hfd, ?_⟩
  rw [hfds', hfds, hfile, Function.update_idem]

theorem isSome_eq (h : SameTable x x') (i : Fin 20) :
    (x'.1.openfile i).isSome = (x.1.openfile i).isSome := by
  have hc := congrArg Option.isSome (h.core i)
  rwa [Option.isSome_map, Option.isSome_map] at hc

/-- Whoever keeps the table and backs its files keeps the invariant. -/
theorem Ok.of_sameTable (hx : Ok x) (h : SameTable x x')
    (hb : ∀ i f, x.1.openfile i = some f → x'.2.Backs f) : Ok x' where
  stdin := (isSome_eq h 0).trans hx.stdin
  stdout := (isSome_eq h 1).trans hx.stdout
  named i := by
    rw [isSome_eq h, h.filename]
    exact hx.named i
  typed i f' hf' := by
    obtain ⟨f, hf, hcore⟩ := h.before hf'
    have ht : f.type = f'.type := congrArg (·.2.1) hcore
    exact ht ▸ hx.typed i f hf
  derived i f' hf' := by
    obtain ⟨f, hf, hcore⟩ := h.before hf'
    have ht : f.type = f'.type := congrArg (·.2.1) hcore
    have hs : f.socketH = f'.socketH := congrArg (·.2.2) hcore
    exact ht ▸ hs ▸ hx.derived i f hf
  backed i f' hf' := by
    obtain ⟨f, hf, hcore⟩ := h.before hf'
    have hfile : f.file = f'.file := congrArg Prod.fst hcore
    have ht : f.type = f'.type := congrArg (·.2.1) hcore
    have := hb i f hf
    unfold Host.Backs at this ⊢
    rwa [hfile, ht] at this
  distinct i j f' g' hf' hg' hfile := by
    obtain ⟨f, hf, hfcore⟩ := h.before hf'
    obtain ⟨g, hg, hgcore⟩ := h.before hg'
    have hfe : f.file = f'.file := congrArg Prod.fst hfcore
    have hge : g.file = g'.file := congrArg Prod.fst hgcore
    exact hx.distinct i j f g hf hg (hfe.trans (hfile.trans hge.symm))

theorem backs_of_fds {f : OpenFile} (hb : x.2.Backs f) (h : SameTable x x')
    (hfd : x'.2.fds f.file = x.2.fds f.file) : x'.2.Backs f := by
  unfold Host.Backs at hb ⊢
  rw [hfd]
  split at hb
  · exact hb
  · exact ⟨hb.1, hb.2.1, h.within _ hb.2.2⟩
  · exact hb

theorem Ok.quiet (hx : Ok x) (h : Quiet x x') : Ok x' :=
  hx.of_sameTable h.toSameTable fun i f hf =>
    backs_of_fds (hx.backed i f hf) h.toSameTable (congrFun h.fds f.file)

theorem Ok.moved (hx : Ok x) (h : Moved i o x x') : Ok x' := by
  obtain ⟨g, n, o₀, hg, hgd, hfds⟩ := h.fds
  refine hx.of_sameTable h.toSameTable fun j f hf => ?_
  by_cases hij : j = i
  · -- the file that has moved: only its offset is new
    subst hij
    rw [hg] at hf
    cases hf
    have hb := hx.backed j g hg
    unfold Host.Backs at hb ⊢
    rw [hgd] at hb
    rw [hfds, Function.update_self]
    exact ⟨hb.1, h.bound, h.within n hb.2.2⟩
  · have hne : f.file ≠ g.file := fun hfile => hij (hx.distinct j i f g hf hg hfile)
    apply backs_of_fds (hx.backed j f hf) h.toSameTable
    rw [hfds, Function.update_of_ne hne]

/-- A free slot has been given to a new file. -/
structure Opened (i : Fin 20) (f : OpenFile) (name : Name) (x x' : Files) : Prop where
  free : x.1.openfile i = none
  table : x'.1 = (x.1.setFile i (some f)).setName i name
  name : name ≠ []
  typed : f.type = 0 ∨ f.type = 1 ∨ f.type = 2
  derived : f.socketH = true ↔ f.type = 2
  fresh : x.2.fds f.file = none
  data : x'.2.data = x.2.data
  fds : ∃ d, x'.2.fds = Function.update x.2.fds f.file d
  backed : x'.2.Backs f

/-- A slot that is not the console's has been given back. -/
structure Closed (i : Fin 20) (x x' : Files) : Prop where
  user : (2 : ℕ) ≤ i
  table : x'.1 = (x.1.setName i []).setFile i none
  data : x'.2.data = x.2.data
  fds : ∃ f, x.1.openfile i = some f ∧ x'.2.fds = Function.update x.2.fds f.file none

theorem backs_of_data {h h' : Host} {f : OpenFile} (hb : h.Backs f) (hdata : h'.data = h.data)
    (hfd : h'.fds f.file = h.fds f.file) : h'.Backs f := by
  unfold Host.Backs at hb ⊢
  rwa [hfd, hdata]

theorem Opened.other {f : OpenFile} {name : Name} (h : Opened i f name x x') {j : Fin 20}
    (hj : j ≠ i) : x'.1.openfile j = x.1.openfile j ∧ x'.1.filename j = x.1.filename j := by
  rw [h.table]
  exact ⟨Function.update_of_ne hj _ _, Function.update_of_ne hj _ _⟩

theorem Opened.self {f : OpenFile} {name : Name} (h : Opened i f name x x') :
    x'.1.openfile i = some f ∧ x'.1.filename i = name := by
  rw [h.table]
  exact ⟨Function.update_self .., Function.update_self ..⟩

theorem Closed.other (h : Closed i x x') {j : Fin 20} (hj : j ≠ i) :
    x'.1.openfile j = x.1.openfile j ∧ x'.1.filename j = x.1.filename j := by
  rw [h.table]
  exact ⟨Function.update_of_ne hj _ _, Function.update_of_ne hj _ _⟩

theorem Closed.self (h : Closed i x x') :
    x'.1.openfile i = none ∧ x'.1.filename i = [] := by
  rw [h.table]
  exact ⟨Function.update_self .., Function.update_self ..⟩

theorem Ok.opened {f : OpenFile} {name : Name} (hx : Ok x) (h : Opened i f name x x') : Ok x' := by
  obtain ⟨d, hfds⟩ := h.fds
  have hne : ∀ {j g}, x.1.openfile j = some g → j ≠ i := by
    rintro j g hg rfl
    cases h.free.symm.trans hg
  have hfile : ∀ {j g}, x.1.openfile j = some g → g.file ≠ f.file := by
    intro j g hg heq
    have hb := hx.backed j g hg
    unfold Host.Backs at hb
    rw [heq, h.fresh] at hb
    exact hb
  -- a file of the new table is the new one or one of the old table
  have hcases : ∀ {j g}, x'.1.openfile j = some g →
      (j = i ∧ g = f) ∨ (j ≠ i ∧ x.1.openfile j = some g) := by
    intro j g hg
    by_cases hj : j = i
    · subst hj
      rw [h.self.1] at hg
      exact .inl ⟨rfl, (Option.some.inj hg).symm⟩
    · exact .inr ⟨hj, (h.other hj).1 ▸ hg⟩
  constructor
  · obtain ⟨g, hg⟩ := Option.isSome_iff_exists.mp hx.stdin
    rw [(h.other (hne hg)).1]
    exact hx.stdin
  · obtain ⟨g, hg⟩ := Option.isSome_iff_exists.mp hx.stdout
    rw [(h.other (hne hg)).1]
    exact hx.stdout
  · intro j
    by_cases hj : j = i
    · subst hj
      rw [h.self.1, h.self.2]
      exact iff_of_true rfl h.name
    · rw [(h.other hj).1, (h.other hj).2]
      exact hx.named j
  · intro j g hg
    rcases hcases hg with ⟨-, rfl⟩ | ⟨-, hg⟩
    · exact h.typed
    · exact hx.typed j g hg
  · intro j g hg
    rcases hcases hg with ⟨-, rfl⟩ | ⟨-, hg⟩
    · exact h.derived
    · exact hx.derived j g hg
  · intro j g hg
    rcases hcases hg with ⟨-, rfl⟩ | ⟨-, hg⟩
    · exact h.backed
    · apply backs_of_data (hx.backed j g hg) h.data
      rw [hfds, Function.update_of_ne (hfile hg)]
  · intro j l g g' hg hg' heq
    rcases hcases hg with ⟨rfl, rfl⟩ | ⟨-, hg⟩ <;> rcases hcases hg' with ⟨rfl, rfl⟩ | ⟨-, hg'⟩
    · rfl
    · exact absurd heq.symm (hfile hg')
    · exact absurd heq (hfile hg)
    · exact hx.distinct j l g g' hg hg' heq

theorem Ok.closed (hx : Ok x) (h : Closed i x x') : Ok x' := by
  obtain ⟨f, hf, hfds⟩ := h.fds
  have hcases : ∀ {j g}, x'.1.openfile j = some g → j ≠ i ∧ x.1.openfile j = some g := by
    intro j g hg
    have hj : j ≠ i := by
      rintro rfl
      cases h.self.1.symm.trans hg
    exact ⟨hj, (h.other hj).1 ▸ hg⟩
  constructor
  · rw [(h.other (fun h0 => absurd h.user (h0 ▸ by decide))).1]
    exact hx.stdin
  · rw [(h.other (fun h1 => absurd h.user (h1 ▸ by decide))).1]
    exact hx.stdout
  · intro j
    by_cases hj : j = i
    · subst hj
      rw [h.self.1, h.self.2]
      exact iff_of_false nofun fun hne => hne rfl
    · rw [(h.other hj).1, (h.other hj).2]
      exact hx.named j
  · intro j g hg
    exact hx.typed j g (hcases hg).2
  · intro j g hg
    exact hx.derived j g (hcases hg).2
  · intro j g hg
    obtain ⟨hj, hg⟩ := hcases hg
    apply backs_of_data (hx.backed j g hg) h.data
    rw [hfds, Function.update_of_ne fun heq => hj (hx.distinct j i g f hg hf heq)]
  · intro j l g g' hg hg' heq
    exact hx.distinct j l g g' (hcases hg).2 (hcases hg').2 heq

end Files
end Nachos
