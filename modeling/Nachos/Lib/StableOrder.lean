import Mathlib.Tactic
import Mathlib.Data.List.Sort

namespace StableOrder

variable {α β : Type*} [LinearOrder β] {key : α → β} {before : α → α → Prop}

/-- The keys ascend, and the items of one key are in the order `before`, such as that of their
arrival. -/
def Stable (key : α → β) (before : α → α → Prop) (l : List α) : Prop :=
  l.Pairwise fun x y => key x < key y ∨ key x = key y ∧ before x y

theorem Stable.tail {x : α} {l : List α} (h : Stable key before (x :: l)) : Stable key before l :=
  (List.pairwise_cons.mp h).2

theorem Stable.key_le {x y : α} {l : List α} (h : Stable key before (x :: l)) (hy : y ∈ l) :
    key x ≤ key y := by
  rcases (List.pairwise_cons.mp h).1 y hy with hlt | ⟨heq, -⟩
  · exact hlt.le
  · exact heq.le

theorem Stable.orderedInsert {r : α → α → Prop} [DecidableRel r]
    (hr : ∀ x y, r x y ↔ key x < key y) {l : List α} (h : Stable key before l) {a : α}
    (ha : ∀ x ∈ l, before x a) : Stable key before (l.orderedInsert r a) := by
  induction l with
  | nil => exact List.pairwise_singleton _ _
  | cons x l ih =>
    rw [List.orderedInsert_cons]
    by_cases hax : r a x
    · rw [if_pos hax]
      have hlt := (hr a x).mp hax
      refine List.pairwise_cons.mpr ⟨fun y hy => .inl ?_, h⟩
      rcases List.mem_cons.mp hy with rfl | hyl
      · exact hlt
      · exact hlt.trans_le (h.key_le hyl)
    · rw [if_neg hax]
      have hxa : key x ≤ key a := not_lt.mp fun hlt => hax ((hr a x).mpr hlt)
      refine List.pairwise_cons.mpr ⟨fun y hy => ?_, ih h.tail fun z hz =>
        ha z (List.mem_cons_of_mem _ hz)⟩
      rcases (List.mem_orderedInsert r).mp hy with rfl | hyl
      · exact hxa.lt_or_eq.imp_right fun heq => ⟨heq, ha x List.mem_cons_self⟩
      · exact (List.pairwise_cons.mp h).1 y hyl

section Preorder
variable {α : Type*} {le lt : α → α → Prop} [DecidableRel lt]

/-- An item that is inserted before the first greater one has all smaller and equal items in
front of it and only greater ones behind. -/
theorem orderedInsert_split (htrans : ∀ x y z, le x y → le y z → le x z)
    (hlt : ∀ x y, lt x y ↔ ¬le y x) {l : List α} (hl : l.Pairwise le) (a : α) :
    ∃ pre post, l = pre ++ post ∧ l.orderedInsert lt a = pre ++ a :: post ∧
      (∀ x ∈ pre, le x a) ∧ ∀ x ∈ post, lt a x := by
  induction l with
  | nil => exact ⟨[], [], rfl, rfl, by simp, by simp⟩
  | cons x l ih =>
    obtain ⟨hx, hl⟩ := List.pairwise_cons.mp hl
    rw [List.orderedInsert_cons]
    by_cases hax : lt a x
    · rw [if_pos hax]
      refine ⟨[], x :: l, rfl, rfl, by simp, ?_⟩
      intro y hy
      rcases List.mem_cons.mp hy with rfl | hyl
      · exact hax
      · rw [hlt] at hax ⊢
        exact fun hya => hax (htrans x y a (hx y hyl) hya)
    · rw [if_neg hax]
      obtain ⟨pre, post, rfl, hinsert, hpre, hpost⟩ := ih hl
      refine ⟨x :: pre, post, rfl, by rw [hinsert]; rfl, ?_, hpost⟩
      intro y hy
      rcases List.mem_cons.mp hy with rfl | hyl
      · rw [hlt] at hax
        exact not_not.mp hax
      · exact hpre y hyl

theorem pairwise_orderedInsert (htrans : ∀ x y z, le x y → le y z → le x z)
    (htotal : ∀ x y, le x y ∨ le y x) (hlt : ∀ x y, lt x y ↔ ¬le y x) {l : List α}
    (hl : l.Pairwise le) (a : α) : (l.orderedInsert lt a).Pairwise le := by
  obtain ⟨pre, post, rfl, hinsert, hpre, hpost⟩ := orderedInsert_split htrans hlt hl a
  obtain ⟨hl₁, hl₂, hl₁₂⟩ := List.pairwise_append.mp hl
  have hle : ∀ y ∈ post, le a y := by
    intro y hy
    have hnot := (hlt a y).mp (hpost y hy)
    exact (htotal a y).resolve_right hnot
  rw [hinsert]
  apply List.pairwise_append.mpr
  refine ⟨hl₁, List.pairwise_cons.mpr ⟨hle, hl₂⟩, ?_⟩
  intro x hx y hy
  rcases List.mem_cons.mp hy with rfl | hyl
  · exact hpre x hx
  · exact hl₁₂ x hx y hyl

end Preorder

end StableOrder
