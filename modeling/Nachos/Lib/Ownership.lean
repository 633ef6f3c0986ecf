import Mathlib.Data.Set.Basic
import Mathlib.Tactic

namespace Ownership

variable {ι α : Type*}

/-- Nobody holds a resource twice or together with somebody else, and those in use are held. -/
structure Exclusive (held : ι → List α) (used : Set α) : Prop where
  nodup : ∀ o, (held o).Nodup
  disjoint : ∀ o o', o ≠ o' → (held o).Disjoint (held o')
  used_iff : ∀ a, a ∈ used ↔ ∃ o, a ∈ held o

theorem exclusive_empty : Exclusive (fun _ : ι => ([] : List α)) ∅ :=
  ⟨fun _ => List.nodup_nil, fun _ _ _ => List.disjoint_nil_left _, by simp⟩

variable {held : ι → List α} {used : Set α}

theorem Exclusive.eq_of_mem (h : Exclusive held used) {o o' : ι} {a : α}
    (ha : a ∈ held o) (ha' : a ∈ held o') : o = o' := by
  by_contra hne
  exact h.disjoint o o' hne ha ha'

theorem Exclusive.used_eq_empty (h : Exclusive held used) (hnone : ∀ o, held o = []) :
    used = ∅ := by
  ext a
  simp [h.used_iff, hnone]

/-- The resources in use are those that somebody holds. -/
theorem Exclusive.of_holders (h : Exclusive held used) :
    Exclusive held {a | ∃ o, a ∈ held o} :=
  ⟨h.nodup, h.disjoint, fun _ => Iff.rfl⟩

variable [DecidableEq ι]

theorem mem_acquire {o p : ι} {a b : α} :
    b ∈ Function.update held o (held o ++ [a]) p ↔ b ∈ held p ∨ (p = o ∧ b = a) := by
  by_cases hp : p = o
  · subst hp
    simp
  · simp [hp]

theorem Exclusive.acquire (h : Exclusive held used) (o : ι) {a : α} (ha : a ∉ used) :
    Exclusive (Function.update held o (held o ++ [a])) (insert a used) := by
  have hfree : ∀ p, a ∉ held p := fun p hp => ha ((h.used_iff a).mpr ⟨p, hp⟩)
  refine ⟨fun p => ?_, fun p q hpq b hb hb' => ?_, fun b => ?_⟩
  · by_cases hp : p = o
    · subst hp
      simpa [List.nodup_append, h.nodup p] using fun b hb (hba : b = a) => hfree p (hba ▸ hb)
    · simpa [Function.update_of_ne hp] using h.nodup p
  · rw [mem_acquire] at hb hb'
    rcases hb with hb | ⟨rfl, rfl⟩ <;> rcases hb' with hb' | ⟨rfl, hb'⟩
    · exact h.disjoint p q hpq hb hb'
    · exact hfree p (hb' ▸ hb)
    · exact hfree q hb'
    · exact hpq rfl
  · simp only [Set.mem_insert_iff, h.used_iff, mem_acquire]
    constructor
    · rintro (rfl | ⟨p, hp⟩)
      · exact ⟨o, .inr ⟨rfl, rfl⟩⟩
      · exact ⟨p, .inl hp⟩
    · rintro ⟨p, hp | ⟨-, rfl⟩⟩
      · exact .inr ⟨p, hp⟩
      · exact .inl rfl

theorem Exclusive.acquireAll (h : Exclusive held used) (o : ι) {l : List α} (hl : l.Nodup)
    (hfree : ∀ a ∈ l, a ∉ used) :
    Exclusive (Function.update held o (held o ++ l)) {a | a ∈ used ∨ a ∈ l} := by
  induction l generalizing held used with
  | nil => simpa using h
  | cons a l ih =>
    obtain ⟨ha, hl⟩ := List.nodup_cons.mp hl
    have hrest : ∀ b ∈ l, b ∉ insert a used := by
      rintro b hb (rfl | hused)
      · exact ha hb
      · exact hfree b (List.mem_cons_of_mem _ hb) hused
    have h' := ih (h.acquire o (hfree a List.mem_cons_self)) hl hrest
    rw [Function.update_idem, Function.update_self, List.append_assoc, List.singleton_append] at h'
    convert h' using 1
    ext b
    simp only [Set.mem_ofPred_eq, Set.mem_insert_iff, List.mem_cons]
    tauto

/-- An owner lets go of everything it holds. -/
theorem Exclusive.release (h : Exclusive held used) (o : ι) :
    Exclusive (Function.update held o []) (used \ {a | a ∈ held o}) := by
  have hmem : ∀ p b, b ∈ Function.update held o [] p ↔ p ≠ o ∧ b ∈ held p := by
    intro p b
    by_cases hp : p = o
    · subst hp
      simp
    · simp [hp]
  refine ⟨fun p => ?_, fun p q hpq b hb hb' => ?_, fun b => ?_⟩
  · by_cases hp : p = o
    · subst hp
      simp
    · simpa [Function.update_of_ne hp] using h.nodup p
  · exact h.disjoint p q hpq ((hmem p b).mp hb).2 ((hmem q b).mp hb').2
  · simp only [Set.mem_sdiff, Set.mem_ofPred_eq, h.used_iff, hmem]
    constructor
    · rintro ⟨⟨p, hp⟩, hb⟩
      refine ⟨p, ?_, hp⟩
      rintro rfl
      exact hb hp
    · rintro ⟨p, hpo, hp⟩
      exact ⟨⟨p, hp⟩, fun hb => hpo (h.eq_of_mem hp hb)⟩

theorem Exclusive.mem_pop (h : Exclusive held used) {o p : ι} {a b : α} {l : List α}
    (hl : held o = a :: l) : b ∈ Function.update held o l p ↔ b ∈ held p ∧ b ≠ a := by
  have ha : a ∉ l := (List.nodup_cons.mp (hl ▸ h.nodup o)).1
  by_cases hp : p = o
  · subst hp
    rw [Function.update_self, hl, List.mem_cons]
    constructor
    · intro hb
      refine ⟨.inr hb, ?_⟩
      rintro rfl
      exact ha hb
    · intro hb
      exact hb.1.resolve_left hb.2
  · rw [Function.update_of_ne hp]
    refine ⟨fun hb => ⟨hb, ?_⟩, fun hb => hb.1⟩
    rintro rfl
    exact hp (h.eq_of_mem hb (by rw [hl]; exact List.mem_cons_self))

/-- An owner lets go of the first thing it holds. -/
theorem Exclusive.pop (h : Exclusive held used) {o : ι} {a : α} {l : List α}
    (hl : held o = a :: l) : Exclusive (Function.update held o l) (used \ {a}) := by
  refine ⟨fun p => ?_, fun p q hpq b hb hb' => ?_, fun b => ?_⟩
  · by_cases hp : p = o
    · subst hp
      simpa using (List.nodup_cons.mp (hl ▸ h.nodup p)).2
    · simpa [Function.update_of_ne hp] using h.nodup p
  · exact h.disjoint p q hpq ((h.mem_pop hl).mp hb).1 ((h.mem_pop hl).mp hb').1
  · simp only [Set.mem_sdiff, Set.mem_singleton_iff, h.used_iff, h.mem_pop hl]
    constructor
    · rintro ⟨⟨p, hp⟩, hb⟩
      exact ⟨p, hp, hb⟩
    · rintro ⟨p, hp, hb⟩
      exact ⟨⟨p, hp⟩, hb⟩

end Ownership
