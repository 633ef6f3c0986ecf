import Mathlib.Data.Set.Card
import Mathlib.Tactic

/-- Where a waiter is: not here, in the line, or released and not gone yet. -/
inductive Stage where
  | out
  | inLine
  | freed
  deriving DecidableEq, Repr

/-- Who arrives gets the next number and joins the line; who has been released leaves. -/
structure TicketQueue (τ : Type*) where
  arrived : ℕ
  released : ℕ
  ticket : τ → ℕ
  line : List τ
  stage : τ → Stage
  returned : List ℕ

namespace TicketQueue

variable {τ : Type*}

def empty : TicketQueue τ := ⟨0, 0, fun _ => 0, [], fun _ => .out, []⟩

section ops
variable [DecidableEq τ]

def arrive (q : TicketQueue τ) (t : τ) : TicketQueue τ :=
  { q with
    arrived := q.arrived + 1
    ticket := Function.update q.ticket t q.arrived
    line := q.line ++ [t]
    stage := Function.update q.stage t .inLine }

/-- The first of the line, if there is one, may go. -/
def release (q : TicketQueue τ) : TicketQueue τ :=
  match q.line with
  | [] => q
  | u :: line =>
    { q with released := q.released + 1, line := line, stage := Function.update q.stage u .freed }

def leave (q : TicketQueue τ) (t : τ) : TicketQueue τ :=
  { q with stage := Function.update q.stage t .out, returned := q.ticket t :: q.returned }

end ops

structure Ok (q : TicketQueue τ) : Prop where
  le : q.released ≤ q.arrived
  order : q.line.map q.ticket = List.range' q.released (q.arrived - q.released)
  inLine : ∀ u, q.stage u = .inLine ↔ u ∈ q.line
  freed : ∀ u, q.stage u = .freed → q.ticket u < q.released
  distinct : ∀ u v, q.stage u = .freed → q.stage v = .freed → q.ticket u = q.ticket v → u = v
  nodup : q.returned.Nodup
  returned : ∀ k ∈ q.returned, k < q.released ∧ ∀ u, q.stage u = .freed → q.ticket u ≠ k
  kept : ∀ k < q.released, k ∈ q.returned ∨ ∃ u, q.stage u = .freed ∧ q.ticket u = k

variable {q : TicketQueue τ} {t u : τ}

theorem ok_empty : Ok (empty : TicketQueue τ) where
  le := le_rfl
  order := rfl
  inLine := by simp [empty]
  freed := by simp [empty]
  distinct := by simp [empty]
  nodup := List.nodup_nil
  returned := by simp [empty]
  kept := by simp [empty]

theorem Ok.length_line (h : Ok q) : q.line.length = q.arrived - q.released := by
  simpa using congrArg List.length h.order

theorem Ok.line_eq_nil_iff (h : Ok q) : q.line = [] ↔ q.released = q.arrived := by
  have hlen := h.length_line
  have hle := h.le
  rw [← List.length_eq_zero_iff]
  omega

theorem Ok.ticket_of_inLine (h : Ok q) (hu : q.stage u = .inLine) :
    q.released ≤ q.ticket u ∧ q.ticket u < q.arrived := by
  have hmem : q.ticket u ∈ q.line.map q.ticket := List.mem_map_of_mem ((h.inLine u).mp hu)
  rw [h.order, List.mem_range'_1] at hmem
  have hle := h.le
  omega

/-- The tickets tell who has been released and who has not. -/
theorem Ok.freed_iff (h : Ok q) (hu : q.stage u ≠ .out) :
    q.stage u = .freed ↔ q.ticket u < q.released := by
  refine ⟨h.freed u, fun hlt => ?_⟩
  cases hs : q.stage u with
  | out => exact absurd hs hu
  | freed => rfl
  | inLine =>
    have hge := (h.ticket_of_inLine hs).1
    omega

/-- The first of the line has the smallest ticket of all in it. -/
theorem Ok.head (h : Ok q) {line : List τ} (hq : q.line = u :: line) :
    q.ticket u = q.released ∧ line.map q.ticket =
      List.range' (q.released + 1) (q.arrived - (q.released + 1)) := by
  have hlen := h.length_line
  have horder := h.order
  rw [hq, List.length_cons] at hlen
  obtain ⟨n, hn⟩ : ∃ n, q.arrived - q.released = n + 1 := ⟨line.length, hlen.symm⟩
  rw [hq, hn, List.range'_succ, List.map_cons, List.cons.injEq] at horder
  exact ⟨horder.1, by rw [horder.2]; congr 1; omega⟩

variable [DecidableEq τ]

theorem Ok.arrive (h : Ok q) (ht : q.stage t = .out) : Ok (q.arrive t) := by
  have hnot : t ∉ q.line := fun hmem => by
    have := (h.inLine t).mpr hmem
    rw [ht] at this
    cases this
  have hfreed : ∀ u, (q.arrive t).stage u = .freed → u ≠ t ∧ q.stage u = .freed := by
    intro u hu
    by_cases hut : u = t
    · subst hut
      simp [TicketQueue.arrive] at hu
    · exact ⟨hut, by simpa [TicketQueue.arrive, Function.update_of_ne hut] using hu⟩
  have hticket : ∀ u, u ≠ t → (q.arrive t).ticket u = q.ticket u := fun u hut =>
    Function.update_of_ne hut ..
  constructor
  · exact Nat.le_succ_of_le h.le
  · have hmap : q.line.map (Function.update q.ticket t q.arrived) = q.line.map q.ticket :=
      List.map_congr_left fun u hu =>
        Function.update_of_ne (fun he : u = t => hnot (he ▸ hu)) ..
    -- the new ticket is the number of arrivals, the next one in the line
    have hsub : q.arrived + 1 - q.released = (q.arrived - q.released) + 1 := by
      have := h.le
      omega
    show (q.line ++ [t]).map (Function.update q.ticket t q.arrived) = _
    rw [List.map_append, hmap, h.order, List.map_singleton, Function.update_self]
    show _ = List.range' q.released (q.arrived + 1 - q.released)
    have hlast : q.released + 1 * (q.arrived - q.released) = q.arrived := by
      have := h.le
      omega
    rw [hsub, List.range'_concat, hlast]
  · intro u
    by_cases hut : u = t
    · subst hut
      simp [TicketQueue.arrive]
    · simp [TicketQueue.arrive, h.inLine u, hut]
  · intro u hu
    obtain ⟨hut, hu⟩ := hfreed u hu
    rw [hticket u hut]
    exact h.freed u hu
  · intro u v hu hv huv
    obtain ⟨hut, hu⟩ := hfreed u hu
    obtain ⟨hvt, hv⟩ := hfreed v hv
    rw [hticket u hut, hticket v hvt] at huv
    exact h.distinct u v hu hv huv
  · exact h.nodup
  · intro k hk
    refine ⟨(h.returned k hk).1, fun u hu => ?_⟩
    obtain ⟨hut, hu⟩ := hfreed u hu
    rw [hticket u hut]
    exact (h.returned k hk).2 u hu
  · intro k hk
    rcases h.kept k hk with hr | ⟨u, hu, huk⟩
    · exact .inl hr
    · have hut : u ≠ t := by
        intro he
        rw [he, ht] at hu
        cases hu
      exact .inr ⟨u, (Function.update_of_ne hut ..).trans hu, (hticket u hut).trans huk⟩

theorem release_cons {line : List τ} (hq : q.line = u :: line) : q.release =
    { q with released := q.released + 1, line := line,
             stage := Function.update q.stage u .freed } := by
  unfold release
  split
  · next h => simp [h] at hq
  · next v l h =>
    rw [h] at hq
    cases hq
    rfl

theorem release_stage_self {line : List τ} (hq : q.line = u :: line) :
    q.release.stage u = .freed := by
  rw [release_cons hq]
  exact Function.update_self ..

theorem release_stage_of_ne {v : τ} {line : List τ} (hq : q.line = u :: line) (hv : v ≠ u) :
    q.release.stage v = q.stage v := by
  rw [release_cons hq]
  exact Function.update_of_ne hv ..

theorem Ok.release (h : Ok q) {line : List τ} (hq : q.line = u :: line) : Ok q.release := by
  obtain ⟨hhead, htail⟩ := h.head hq
  have hlen := h.length_line
  rw [hq, List.length_cons] at hlen
  have hnot : u ∉ line := fun hmem => by
    have := List.mem_map_of_mem (f := q.ticket) hmem
    rw [htail, List.mem_range'_1] at this
    omega
  have hfreed : ∀ v, Function.update q.stage u .freed v = .freed → v = u ∨ q.stage v = .freed := by
    intro v hv
    by_cases hvu : v = u
    · exact .inl hvu
    · exact .inr (by rwa [Function.update_of_ne hvu] at hv)
  rw [release_cons hq]
  constructor
  · show q.released + 1 ≤ q.arrived
    omega
  · exact htail
  · intro v
    by_cases hvu : v = u
    · subst hvu
      simp [hnot]
    · simp [h.inLine v, hq, hvu]
  · intro v hv
    show q.ticket v < q.released + 1
    rcases hfreed v hv with rfl | hv
    · omega
    · exact Nat.lt_succ_of_lt (h.freed v hv)
  · intro v w hv hw hvw
    -- `u` has the ticket that no one released before has
    have hvw : q.ticket v = q.ticket w := hvw
    rcases hfreed v hv with hvu | hv' <;> rcases hfreed w hw with hwu | hw'
    · exact hvu.trans hwu.symm
    · have := h.freed w hw'
      rw [hvu] at hvw
      omega
    · have := h.freed v hv'
      rw [hwu] at hvw
      omega
    · exact h.distinct v w hv' hw' hvw
  · exact h.nodup
  · intro k hk
    refine ⟨Nat.lt_succ_of_lt (h.returned k hk).1, fun v hv => ?_⟩
    rcases hfreed v hv with rfl | hv
    · have := (h.returned k hk).1
      simp only
      omega
    · exact (h.returned k hk).2 v hv
  · intro k hk
    by_cases hku : k = q.released
    · exact .inr ⟨u, Function.update_self .., hhead.trans hku.symm⟩
    · rcases h.kept k (lt_of_le_of_ne (Nat.lt_succ_iff.mp hk) hku) with hr | ⟨v, hv, hvk⟩
      · exact .inl hr
      · refine .inr ⟨v, ?_, hvk⟩
        by_cases hvu : v = u
        · rw [hvu]
          exact Function.update_self ..
        · exact (Function.update_of_ne hvu ..).trans hv

theorem Ok.leave (h : Ok q) (ht : q.stage t = .freed) : Ok (q.leave t) := by
  have hfreed : ∀ u, (q.leave t).stage u = .freed → u ≠ t ∧ q.stage u = .freed := by
    intro u hu
    by_cases hut : u = t
    · subst hut
      simp [TicketQueue.leave] at hu
    · exact ⟨hut, by simpa [TicketQueue.leave, Function.update_of_ne hut] using hu⟩
  constructor
  · exact h.le
  · exact h.order
  · intro u
    by_cases hut : u = t
    · subst hut
      have hnot : u ∉ q.line := fun hmem => by
        have := (h.inLine u).mpr hmem
        rw [ht] at this
        cases this
      simp [TicketQueue.leave, hnot]
    · simpa [TicketQueue.leave, Function.update_of_ne hut] using h.inLine u
  · exact fun u hu => h.freed u (hfreed u hu).2
  · exact fun u v hu hv => h.distinct u v (hfreed u hu).2 (hfreed v hv).2
  · exact List.nodup_cons.mpr ⟨fun hmem => (h.returned _ hmem).2 t ht rfl, h.nodup⟩
  · intro k hk
    rcases List.mem_cons.mp hk with rfl | hk
    · refine ⟨h.freed t ht, fun u hu he => ?_⟩
      exact (hfreed u hu).1 (h.distinct u t (hfreed u hu).2 ht he)
    · exact ⟨(h.returned k hk).1, fun u hu => (h.returned k hk).2 u (hfreed u hu).2⟩
  · intro k hk
    rcases h.kept k hk with hr | ⟨u, hu, huk⟩
    · exact .inl (List.mem_cons_of_mem _ hr)
    · by_cases hut : u = t
      · exact .inl (by rw [← huk, hut]; exact List.mem_cons_self)
      · exact .inr ⟨u, (Function.update_of_ne hut ..).trans hu, huk⟩

omit [DecidableEq τ] in
/-- Released and not gone are as many as there are releases without a return. -/
theorem Ok.ncard_freed (h : Ok q) :
    {u | q.stage u = .freed}.ncard + q.returned.length = q.released := by
  have himage : Set.image q.ticket {u | q.stage u = .freed} =
      ((Finset.range q.released \ q.returned.toFinset : Finset ℕ) : Set ℕ) := by
    ext k
    rw [Set.mem_image, Finset.mem_coe, Finset.mem_sdiff, Finset.mem_range, List.mem_toFinset]
    constructor
    · rintro ⟨u, hu, rfl⟩
      exact ⟨h.freed u hu, fun hmem => (h.returned _ hmem).2 u hu rfl⟩
    · rintro ⟨hk, hnot⟩
      exact (h.kept k hk).resolve_left hnot
  have hinj : Set.InjOn q.ticket {u | q.stage u = .freed} := fun u hu v hv => h.distinct u v hu hv
  have hsub : q.returned.toFinset ⊆ Finset.range q.released := fun k hk =>
    Finset.mem_range.mpr (h.returned k (List.mem_toFinset.mp hk)).1
  have hcard : {u | q.stage u = .freed}.ncard = q.released - q.returned.length := by
    rw [← hinj.ncard_image, himage, Set.ncard_coe_finset, Finset.card_sdiff_of_subset hsub,
      Finset.card_range, List.toFinset_card_of_nodup h.nodup]
  have hle := Finset.card_le_card hsub
  rw [List.toFinset_card_of_nodup h.nodup, Finset.card_range] at hle
  omega

end TicketQueue
