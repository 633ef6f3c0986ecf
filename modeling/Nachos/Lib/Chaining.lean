import Mathlib.Data.Finmap
import Mathlib.Tactic

namespace Chaining
variable {Key T : Type*}

abbrev Map (Key T : Type*) := Finmap fun _ : Key => T

theorem card_empty : (∅ : Map Key T).keys.card = 0 := by
  rw [Finmap.keys_empty, Finset.card_empty]

variable [DecidableEq Key] {getKey : T → Key} {slot : Key → ℕ}

/-- Chain `i` has the items of the map whose keys have slot `i`, each once. -/
structure Stores (getKey : T → Key) (slot : Key → ℕ) (chains : ℕ → List T) (m : Map Key T) :
    Prop where
  keyed : ∀ k x, m.lookup k = some x → getKey x = k
  placed : ∀ i x, x ∈ chains i ↔ m.lookup (getKey x) = some x ∧ slot (getKey x) = i
  nodup : ∀ i, ((chains i).map getKey).Nodup

theorem Stores.empty : Stores getKey slot (fun _ => []) ∅ :=
  ⟨fun _ _ h => (Option.some_ne_none _ (h.symm.trans (Finmap.lookup_empty _))).elim,
    fun _ _ => by simp, fun _ => List.nodup_nil⟩

variable {chains : ℕ → List T} {m : Map Key T}

namespace Stores

/-- An item at the end of the chain for its key. -/
theorem append (hs : Stores getKey slot chains m) {x : T} (hx : m.lookup (getKey x) = none)
    {i : ℕ} (hi : slot (getKey x) = i) :
    Stores getKey slot (Function.update chains i (chains i ++ [x])) (m.insert (getKey x) x) := by
  -- no chain has an item with the key yet
  have hnew : ∀ j, ∀ y ∈ chains j, getKey y ≠ getKey x := by
    intro j y hy heq
    rw [hs.placed, heq, hx] at hy
    exact Option.some_ne_none _ hy.1.symm
  refine ⟨fun k y hy => ?_, fun j y => ?_, fun j => ?_⟩
  · by_cases hk : k = getKey x
    · subst hk
      rw [Finmap.lookup_insert] at hy
      rw [Option.some.inj hy]
    · rw [Finmap.lookup_insert_of_ne _ hk] at hy
      exact hs.keyed k y hy
  · have hmem : y ∈ Function.update chains i (chains i ++ [x]) j ↔
        y ∈ chains j ∨ j = i ∧ y = x := by
      by_cases hj : j = i
      · subst hj
        simp
      · simp [hj]
    rw [hmem]
    by_cases hk : getKey y = getKey x
    · rw [hk, Finmap.lookup_insert, hi]
      constructor
      · rintro (hy | ⟨rfl, rfl⟩)
        · exact absurd hk (hnew j y hy)
        · exact ⟨rfl, rfl⟩
      · rintro ⟨hy, rfl⟩
        exact .inr ⟨rfl, (Option.some.inj hy).symm⟩
    · rw [Finmap.lookup_insert_of_ne _ hk, ← hs.placed]
      refine or_iff_left ?_
      rintro ⟨-, rfl⟩
      exact hk rfl
  · by_cases hj : j = i
    · subst hj
      rw [Function.update_self, List.map_append]
      refine (hs.nodup j).append (List.nodup_singleton _) fun k hk hkx => ?_
      obtain ⟨y, hy, rfl⟩ := List.mem_map.mp hk
      exact hnew j y hy (List.mem_singleton.mp hkx)
    · rw [Function.update_of_ne hj]
      exact hs.nodup j

/-- An item taken out of its chain. -/
theorem erase (hs : Stores getKey slot chains m) {x : T} {i : ℕ} {pre rest : List T}
    (hi : chains i = pre ++ x :: rest) :
    Stores getKey slot (Function.update chains i (pre ++ rest)) (m.erase (getKey x)) := by
  have hnodup := hs.nodup i
  rw [hi, List.map_append, List.map_cons, List.nodup_middle, List.nodup_cons,
    ← List.map_append] at hnodup
  -- the key of the item is in its chain only once
  obtain ⟨hgone, hrest⟩ := hnodup
  have hx : x ∈ chains i := by simp [hi]
  obtain ⟨hlookup, hslot⟩ := (hs.placed i x).mp hx
  refine ⟨fun k y hy => ?_, fun j y => ?_, fun j => ?_⟩
  · by_cases hk : k = getKey x
    · rw [hk, Finmap.lookup_erase] at hy
      cases hy
    · rw [Finmap.lookup_erase_ne hk] at hy
      exact hs.keyed k y hy
  · by_cases hk : getKey y = getKey x
    · rw [hk, Finmap.lookup_erase]
      refine ⟨fun hy => ?_, fun hy => (Option.some_ne_none _ hy.1.symm).elim⟩
      by_cases hj : j = i
      · subst hj
        rw [Function.update_self] at hy
        exact absurd (List.mem_map.mpr ⟨y, hy, hk⟩) hgone
      · rw [Function.update_of_ne hj, hs.placed, hk, hslot] at hy
        exact absurd hy.2.symm hj
    · rw [Finmap.lookup_erase_ne hk, ← hs.placed]
      by_cases hj : j = i
      · subst hj
        have hyx : y ≠ x := by
          rintro rfl
          exact hk rfl
        simp [hi, hyx]
      · rw [Function.update_of_ne hj]
  · by_cases hj : j = i
    · subst hj
      rwa [Function.update_self]
    · rw [Function.update_of_ne hj]
      exact hs.nodup j

/-- A search through the chain for the key. -/
theorem find_eq (hs : Stores getKey slot chains m) (k : Key) :
    (chains (slot k)).find? (fun x => k = getKey x) = m.lookup k := by
  cases hk : m.lookup k with
  | none =>
    rw [List.find?_eq_none]
    intro x hx heq
    rw [hs.placed, ← of_decide_eq_true heq, hk] at hx
    exact Option.some_ne_none _ hx.1.symm
  | some x =>
    obtain rfl := hs.keyed k x hk
    have hx : x ∈ chains (slot (getKey x)) := (hs.placed _ x).mpr ⟨hk, rfl⟩
    cases hfind : (chains (slot (getKey x))).find? (fun y => getKey x = getKey y) with
    | none => exact absurd (decide_eq_true rfl) (List.find?_eq_none.mp hfind x hx)
    | some y =>
      have hy := (hs.placed _ y).mp (List.mem_of_find?_eq_some hfind)
      have hkey : getKey x = getKey y := by simpa using List.find?_some hfind
      rw [← hkey, hk] at hy
      exact hy.1.symm

theorem mem_flatMap (hs : Stores getKey slot chains m) {n : ℕ} (hn : ∀ k, slot k < n) (x : T) :
    x ∈ (List.range n).flatMap chains ↔ m.lookup (getKey x) = some x := by
  simp only [List.mem_flatMap, List.mem_range, hs.placed]
  constructor
  · rintro ⟨i, -, hx, -⟩
    exact hx
  · intro hx
    exact ⟨_, hn _, hx, rfl⟩

theorem nodup_flatMap (hs : Stores getKey slot chains m) (n : ℕ) :
    (((List.range n).flatMap chains).map getKey).Nodup := by
  rw [List.map_flatMap, List.nodup_flatMap]
  refine ⟨fun i _ => hs.nodup i, List.nodup_range.imp fun {i j} hij k hk hk' => hij ?_⟩
  obtain ⟨x, hx, rfl⟩ := List.mem_map.mp hk
  obtain ⟨y, hy, heq⟩ := List.mem_map.mp hk'
  rw [← ((hs.placed i x).mp hx).2, ← heq, ((hs.placed j y).mp hy).2]

theorem length_flatMap (hs : Stores getKey slot chains m) {n : ℕ} (hn : ∀ k, slot k < n) :
    ((List.range n).flatMap chains).length = m.keys.card := by
  rw [← List.length_map getKey, ← List.toFinset_card_of_nodup (hs.nodup_flatMap n)]
  congr 1
  ext k
  simp only [List.mem_toFinset, List.mem_map, hs.mem_flatMap hn, Finmap.mem_keys, Finmap.mem_iff]
  constructor
  · rintro ⟨x, hx, rfl⟩
    exact ⟨x, hx⟩
  · rintro ⟨x, hx⟩
    obtain rfl := hs.keyed k x hx
    exact ⟨x, hx, rfl⟩

theorem eq_empty (hs : Stores getKey slot chains m) (hnone : ∀ k, chains (slot k) = []) :
    m = ∅ := by
  refine Finmap.ext_lookup fun k => ?_
  rw [← hs.find_eq k, hnone, Finmap.lookup_empty]
  rfl

end Stores

theorem card_insert {k : Key} (hk : m.lookup k = none) (x : T) :
    (m.insert k x).keys.card = m.keys.card + 1 := by
  have hkeys : (m.insert k x).keys = insert k m.keys := by
    ext j
    simp [Finmap.mem_keys, Finmap.mem_insert]
  rw [hkeys, Finset.card_insert_of_notMem]
  rwa [Finmap.mem_keys, ← Finmap.lookup_eq_none]

theorem card_erase {k : Key} {x : T} (hk : m.lookup k = some x) :
    (m.erase k).keys.card + 1 = m.keys.card := by
  rw [Finmap.keys_erase]
  exact Finset.card_erase_add_one (Finmap.mem_keys.mpr (Finmap.mem_of_lookup_eq_some hk))

section Move
variable {m₁ m₂ : Map Key T} {k : Key} {x : T}

theorem union_move (hd : m₁.Disjoint m₂) (hx : m₂.lookup k = some x) :
    m₁.insert k x ∪ m₂.erase k = m₁ ∪ m₂ := by
  have hk : k ∉ m₁ := fun hmem => hd k hmem (Finmap.mem_of_lookup_eq_some hx)
  refine Finmap.ext_lookup fun j => ?_
  by_cases hj : j = k
  · subst hj
    rw [Finmap.lookup_union_left (Finmap.mem_insert.mpr (.inl rfl)), Finmap.lookup_insert,
      Finmap.lookup_union_right hk, hx]
  · by_cases hmem : j ∈ m₁
    · rw [Finmap.lookup_union_left (Finmap.mem_insert.mpr (.inr hmem)),
        Finmap.lookup_insert_of_ne _ hj, Finmap.lookup_union_left hmem]
    · have hnot : j ∉ m₁.insert k x := by simp [Finmap.mem_insert, hj, hmem]
      rw [Finmap.lookup_union_right hnot, Finmap.lookup_erase_ne hj,
        Finmap.lookup_union_right hmem]

theorem disjoint_move (hd : m₁.Disjoint m₂) : (m₁.insert k x).Disjoint (m₂.erase k) := by
  intro j hj hmem
  obtain ⟨hne, hmem⟩ := Finmap.mem_erase.mp hmem
  exact hd j ((Finmap.mem_insert.mp hj).resolve_left hne) hmem

end Move
end Chaining
