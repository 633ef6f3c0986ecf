import Nachos.FileRuns

namespace Nachos
open TwosComplement Programs GuardedRun

namespace Files
variable {x x' : Files} {i j : Fin 20} {o : ℕ}

theorem offset_free (hf : x.1.openfile i = none) : x.offset i = none := by
  simp only [offset, hf, Option.bind_none]

theorem Opened.offset_other {f : OpenFile} {name : Name} (hx : Ok x) (h : Opened j f name x x')
    (hij : i ≠ j) : x'.offset i = x.offset i := by
  obtain ⟨d, hfds⟩ := h.fds
  unfold offset
  rw [(h.other hij).1, hfds]
  cases hg : x.1.openfile i with
  | none => rfl
  | some g =>
    have hne : g.file ≠ f.file := by
      intro heq
      have hb := hx.backed i g hg
      unfold Host.Backs at hb
      rw [heq, h.fresh] at hb
      exact hb
    simp only [Option.bind_some, Function.update_of_ne hne]

theorem Closed.offset_other (hx : Ok x) (h : Closed j x x') (hij : i ≠ j) :
    x'.offset i = x.offset i := by
  obtain ⟨f, hf, hfds⟩ := h.fds
  unfold offset
  rw [(h.other hij).1, hfds]
  cases hg : x.1.openfile i with
  | none => rfl
  | some g =>
    have hne : g.file ≠ f.file := fun heq => hij (hx.distinct i j g f hg hf heq)
    simp only [Option.bind_some, Function.update_of_ne hne]

theorem offset_of_fileLength {l : ℕ} (h : x.fileLength i = some l) : ∃ o, x.offset i = some o := by
  unfold fileLength contents at h
  unfold offset
  split at h
  · exact ⟨_, rfl⟩
  · cases h

end Files

namespace World
variable {κ : Type} {svc : Services κ} {w w' : World κ} {c : Call} {i j : Fin 20}

/-- The file in slot `i`, if there is one, is at the position that has been noted. -/
def At (w : World κ) (i : Fin 20) : Prop := ∀ o, w.files.offset i = some o → w.position i = o

/-- The call is not a `Seek` on slot `i` past the end of a file that is not at its end. -/
def SeekWithin (w : World κ) (c : Call) (i : Fin 20) : Prop :=
  c.machine.registers 2 = 9 → c.machine.registers 5 = (i : ℕ) →
    ∀ l : ℕ, w.files.fileLength i = some l →
      c.machine.registers 4 ≤ l ∨ w.files.offset i = some l

theorem seekWithin_of_ne (h : c.machine.registers 2 ≠ 9) : SeekWithin w c i := fun h9 => absurd h9 h

theorem at_same (h : At w i) (hoffset : w'.files.offset i = w.files.offset i)
    (hpos : w'.position i = w.position i) : At w' i := by
  intro o ho
  rw [hpos]
  exact h o (hoffset ▸ ho)

theorem at_none (hoffset : w'.files.offset i = none) : At w' i := by
  intro o ho
  cases hoffset.symm.trans ho

theorem at_moved {o : ℕ} (hoffset : w'.files.offset i = some o) : At w' i ↔ w'.position i = o := by
  constructor
  · intro h
    exact h o hoffset
  · intro h o' ho'
    cases hoffset.symm.trans ho'
    exact h

theorem position_failed {l p : ℕ} : c.position (-1) i l p = p := by
  have h : ¬(-1 : Int) = (i : ℕ) := by omega
  simp [Call.position, h]

theorem position_other {r2 : Int} {l p : ℕ} (h6 : c.machine.registers 2 = 6 → r2 ≠ (i : ℕ))
    (h78 : c.machine.registers 2 = 7 ∨ c.machine.registers 2 = 8 →
      c.machine.registers 6 ≠ (i : ℕ))
    (h9 : c.machine.registers 2 = 9 → c.machine.registers 5 ≠ (i : ℕ)) :
    c.position r2 i l p = p := by
  unfold Call.position
  rw [if_neg fun h => h6 h.1 h.2, if_neg fun h => h78 h.1 h.2.1, if_neg fun h => h9 h.1 h.2.1]

theorem position_opened {l p : ℕ} (h6 : c.machine.registers 2 = 6) :
    c.position (i : ℕ) i l p = 0 := if_pos ⟨h6, rfl⟩

theorem position_transferred {r2 : Int} {l p : ℕ}
    (h78 : c.machine.registers 2 = 7 ∨ c.machine.registers 2 = 8)
    (hid : c.machine.registers 6 = (i : ℕ)) (hr2 : 0 < r2) :
    c.position r2 i l p = p + r2.toNat := by
  unfold Call.position
  rw [if_neg fun h => by omega, if_pos ⟨h78, hid, by omega⟩]

theorem position_sought {r2 : Int} {l p : ℕ} (h9 : c.machine.registers 2 = 9)
    (hid : c.machine.registers 5 = (i : ℕ))
    (hr2 : r2 = if c.machine.registers 4 = -1 then (l : Int) else c.machine.registers 4)
    (hnonneg : 0 ≤ r2) : c.position r2 i l p = r2.toNat := by
  unfold Call.position
  rw [if_neg fun h => by omega, if_neg fun h => by omega, if_pos ⟨h9, hid, by omega⟩]
  split_ifs at hr2 ⊢ <;> omega

/-- A file at its position is there again after a call, unless the call is a `Seek` past
its end. -/
theorem at_step (hx : w.files.Ok) (hi : (2 : ℕ) ≤ i) (h : At w i) (hs : step svc w c = some w') :
    At w' i ↔ SeekWithin w c i := by
  -- the effect of a call says which file has moved, the noted position which one should have
  obtain ⟨heffect, -, hpos⟩ := step_effect hx hs
  have hpos := hpos i
  cases heffect with
  | opens h6 htakes hmode =>
    refine iff_of_true ?_ (seekWithin_of_ne (by omega))
    rcases htakes with ⟨hr2, hfiles⟩ | ⟨j, f, name, hr2, -, hopened, hzero⟩
    · rw [hr2, position_failed] at hpos
      exact at_same h (by rw [hfiles]) hpos
    · by_cases hij : i = j
      · subst hij
        rw [hr2, position_opened h6] at hpos
        exact (at_moved (hzero (by omega))).mpr hpos
      · rw [position_other (fun _ h => hij (Fin.ext (by omega))) (by omega) (by omega)] at hpos
        exact at_same h (hopened.offset_other hx hij) hpos
  | sockets h50 htakes =>
    refine iff_of_true ?_ (seekWithin_of_ne (by omega))
    rw [position_other (by omega) (by omega) (by omega)] at hpos
    rcases htakes with ⟨-, hfiles⟩ | ⟨j, f, name, -, htype, hopened, -⟩
    · exact at_same h (by rw [hfiles]) hpos
    · by_cases hij : i = j
      · subst hij
        exact at_none ((hx.opened hopened).offset_socket hopened.self.1 htype)
      · exact at_same h (hopened.offset_other hx hij) hpos
  | closes h10 hcloses =>
    refine iff_of_true ?_ (seekWithin_of_ne (by omega))
    rw [position_other (by omega) (by omega) (by omega)] at hpos
    rcases hcloses with ⟨-, hfiles⟩ | ⟨j, -, -, hclosed⟩
    · exact at_same h (by rw [hfiles]) hpos
    · by_cases hij : i = j
      · subst hij
        exact at_none (Files.offset_free hclosed.self.1)
      · exact at_same h (hclosed.offset_other hx hij) hpos
  | transfers h78 htransfers =>
    refine iff_of_true ?_ (seekWithin_of_ne (by omega))
    cases htransfers with
    | none hq hr =>
      by_cases hid : c.machine.registers 6 = (i : ℕ)
      · rcases hr with hr2 | hlt | hnone
        · rw [hr2, position_failed] at hpos
          exact at_same h (hq.offset i) hpos
        · omega
        · exact at_none ((hq.offset i).trans (hnone i (by omega)))
      · rw [position_other (by omega) (fun _ => hid) (by omega)] at hpos
        exact at_same h (hq.offset i) hpos
    | some j o hj ho hr2 hm _ =>
      by_cases hij : i = j
      · subst hij
        rw [position_transferred h78 (by omega) hr2, h o ho] at hpos
        exact (at_moved hm.offset_self).mpr hpos
      · rw [position_other (by omega) (fun _ h => hij (Fin.ext (by omega))) (by omega)] at hpos
        exact at_same h (hm.offset_other hx hij) hpos
  | seeks h9 hseeks =>
    cases hseeks with
    | refused hq hr2 hid =>
      rw [hr2, position_failed] at hpos
      refine iff_of_true (at_same h (hq.offset i) hpos) fun _ h5 l hl => ?_
      cases (hid i hi (by omega)).symm.trans hl
    | beyond j l hj hl hlt hr2 hm =>
      rw [hr2, position_failed] at hpos
      by_cases hij : i = j
      · subst hij
        -- `Length` has left the offset at the end, so the file is in place only if it was there
        -- before
        obtain ⟨o, ho⟩ := Files.offset_of_fileLength hl
        rw [at_moved hm.offset_self, hpos, h o ho]
        constructor
        · intro hol _ _ l' hl'
          cases hl.symm.trans hl'
          exact .inr (hol ▸ ho)
        · intro hwithin
          rcases hwithin h9 (by omega) l hl with hle | hol
          · omega
          · exact Option.some.inj (ho.symm.trans hol)
      · refine iff_of_true (at_same h (hm.offset_other hx hij) hpos) fun _ h5 => ?_
        exact absurd (Fin.ext (by omega)) hij
    | done j l hj hl hr2 hnonneg hle hm =>
      by_cases hij : i = j
      · subst hij
        rw [hl, Option.getD_some, position_sought h9 (by omega) hr2 hnonneg] at hpos
        refine iff_of_true ((at_moved hm.offset_self).mpr hpos) fun _ _ l' hl' => .inl ?_
        cases hl.symm.trans hl'
        split_ifs at hr2 <;> omega
      · have hid : c.machine.registers 5 ≠ (i : ℕ) := fun h => hij (Fin.ext (by omega))
        rw [position_other (by omega) (by omega) (fun _ => hid)] at hpos
        exact iff_of_true (at_same h (hm.offset_other hx hij) hpos) fun _ h5 => absurd h5 hid
  | other hne hq =>
    simp only [List.mem_cons, List.not_mem_nil, or_false, not_or] at hne
    rw [position_other (by omega) (by omega) (by omega)] at hpos
    exact iff_of_true (at_same h (hq.offset i) hpos) (seekWithin_of_ne (by omega))

/-- The bytes that a `Read` or a `Write` on slot `i` has moved are those of the file from
position `p` on. -/
def ActsAt (w : World κ) (c : Call) (w' : World κ) (i : Fin 20) (p : ℕ) : Prop :=
  (c.machine.registers 2 = 7 → Sys.Delivered i p (c.enter w.kernel) w'.kernel) ∧
    (c.machine.registers 2 = 8 →
      Sys.Wrote i p (w'.kernel.machine.registers 2).toNat w.files w'.files)

theorem actsAt_step (hx : w.files.Ok) (hi : (2 : ℕ) ≤ i) (hs : step svc w c = some w') {o : ℕ}
    (ho : w.files.offset i = some o) (hid : c.machine.registers 6 = (i : ℕ))
    (hr2 : w'.kernel.machine.registers 2 ≠ -1) : ActsAt w c w' i o := by
  unfold step at hs
  split at hs
  · cases hs
  · next k' hk' =>
    cases hs
    have hk' : Sys.syscall svc c.env (c.machine.registers 2) (c.enter w.kernel) =
        .ok ((), k') := hk'
    have hsome : ∀ {A : Fin 20 → ℕ → Prop},
        Sys.Transfers A (c.machine.registers 6) (k'.machine.registers 2) w.files
          (Sys.files k') → A i o := by
      intro A h
      cases h with
      | none _ hr =>
        rcases hr with hr | hr | hr
        · exact absurd hr hr2
        · omega
        · cases (hr i (by omega)).symm.trans ho
      | some j o' hj ho' _ _ hA =>
        obtain rfl : i = j := Fin.ext (by omega)
        cases ho.symm.trans ho'
        exact hA
    constructor
    · intro h7
      rw [h7] at hk'
      exact hsome (Sys.scRead_spec (k := c.enter w.kernel) hx hk')
    · intro h8
      rw [h8] at hk'
      exact hsome (Sys.scWrite_spec (k := c.enter w.kernel) hx hk')

def SeeksWithin (w : World κ) (c : Call) : Prop := ∀ i : Fin 20, (2 : ℕ) ≤ i → SeekWithin w c i

/-- In a run without a `Seek` past the end every open file is at the position noted, and
each transfer takes place there; and a call leaves all files at their positions exactly if
it is not such a `Seek`. -/
theorem positions_kept {k : Kernel κ} (hk : Started k)
    (hw : Reach (step svc) SeeksWithin (start k) w) :
    (∀ i : Fin 20, (2 : ℕ) ≤ i → At w i) ∧
      ∀ c w', step svc w c = some w' →
        (∀ i : Fin 20, (2 : ℕ) ≤ i → (w.files.offset i).isSome →
          c.machine.registers 6 = (i : ℕ) → w'.kernel.machine.registers 2 ≠ -1 →
          ActsAt w c w' i (w.position i)) ∧
        ((∀ i : Fin 20, (2 : ℕ) ≤ i → At w' i) ↔ SeeksWithin w c) := by
  have hat : ∀ i : Fin 20, (2 : ℕ) ≤ i → At w i := by
    refine (hw.invariant (I := fun w => w.files.Ok ∧ ∀ i : Fin 20, (2 : ℕ) ≤ i → At w i)
      ⟨hk.ok.1, fun i hi => at_none (Files.offset_free (x := (start k).files) (hk.ok.2 i hi))⟩
      ?_).2
    intro w c w' ⟨hx, hat⟩ hwithin hs
    refine ⟨(step_effect hx hs).1.ok hx, fun i hi => ?_⟩
    exact (at_step hx hi (hat i hi) hs).mpr (hwithin i hi)
  have hx := files_ok hk hw
  refine ⟨hat, fun c w' hs => ⟨fun i hi hlive hid hr2 => ?_, ?_⟩⟩
  · obtain ⟨o, ho⟩ := Option.isSome_iff_exists.mp hlive
    rw [hat i hi o ho]
    exact actsAt_step hx hi hs ho hid hr2
  · exact forall₂_congr fun i hi => at_step hx hi (hat i hi) hs

instance (w : World κ) (c : Call) (i : Fin 20) : Decidable (SeekWithin w c i) :=
  inferInstanceAs (Decidable (c.machine.registers 2 = 9 → c.machine.registers 5 = (i : ℕ) →
    ∀ l ∈ w.files.fileLength i, c.machine.registers 4 ≤ l ∨ w.files.offset i = some l))

instance (w : World κ) (c : Call) : Decidable (SeeksWithin w c) :=
  inferInstanceAs (Decidable (∀ i : Fin 20, (2 : ℕ) ≤ i → SeekWithin w c i))

/-- `Open("a", 0)`, `Seek(1, 2)` and a `Read` of two of the remaining bytes. -/
theorem positions_kept_read : ∃ w : World Unit,
    Reach (step Sys.zeroServices) SeeksWithin (start smallKernel) w ∧
      w.files.offset 2 = some 3 ∧ w.position 2 = 3 := by
  have hrun : ((exec (step Sys.zeroServices) SeeksWithin (start smallKernel)
      [smallCall 6 0 0 0 (grant 5), smallCall 9 1 2 0 Sys.noEnv,
        smallCall 7 10 2 2 (grant 0)]).map fun w => w.files.offset 2) = some (some 3) := by
    decide +kernel
  obtain ⟨w, hw, hoffset⟩ := Option.map_eq_some_iff.mp hrun
  have hreach := reach_of_exec _ hw
  exact ⟨w, hreach, hoffset, (positions_kept smallKernel_started hreach).1 2 le_rfl 3 hoffset⟩

/-- `Open("a", 0)`, a `Seek(10, 2)` past the end of the four bytes, which returns -1, and a
`Read` of two bytes: it finds the file at its end instead of its beginning, and returns
-1. -/
theorem seek_past_end_moves :
    let run := exec (step Sys.zeroServices) (fun _ _ => True) (start smallKernel)
    let opened := smallCall 6 0 0 0 (grant 5)
    let seek := smallCall 9 10 2 0 Sys.noEnv
    let read := smallCall 7 10 2 2 (grant 0)
    ((run [opened, seek]).map fun w =>
        (w.kernel.machine.registers 2, w.files.offset 2, w.position 2)) =
      some (-1, some 4, 0) ∧
    ((run [opened, seek, read]).map fun w => w.kernel.machine.registers 2) = some (-1) ∧
    ((run [opened, read]).map fun w => w.kernel.machine.registers 2) = some 2 := by
  decide +kernel

end World
end Nachos
