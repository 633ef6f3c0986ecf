import Mathlib.Algebra.BigOperators.Group.Finset.Basic
import Mathlib.Tactic

namespace NamedFiles
variable {ν β : Type*}

/-- `src` written over `data` from `p` on, as far as `data` goes. -/
def overwrite (data : List β) (p : ℕ) (src : List β) : List β :=
  data.take p ++ (src.take (data.length - p) ++ data.drop (p + src.length))

theorem length_overwrite (data : List β) (p : ℕ) (src : List β) :
    (overwrite data p src).length = data.length := by
  simp only [overwrite, List.length_append, List.length_take, List.length_drop]
  omega

theorem getElem?_overwrite (data : List β) (p : ℕ) (src : List β) {k : ℕ} (hk : k < data.length) :
    (overwrite data p src)[k]? =
      if p ≤ k ∧ k < p + src.length then src[k - p]? else data[k]? := by
  unfold overwrite
  by_cases hp : k < p
  · rw [List.getElem?_append_left (by rw [List.length_take]; omega),
      List.getElem?_take_of_lt hp, if_neg (by omega)]
  · have hlen : (data.take p).length = p := by
      rw [List.length_take]
      omega
    rw [List.getElem?_append_right (by omega), hlen]
    by_cases hs : k < p + src.length
    · rw [List.getElem?_append_left (by rw [List.length_take]; omega),
        List.getElem?_take_of_lt (by omega), if_pos ⟨by omega, hs⟩]
    · rw [List.getElem?_append_right (by rw [List.length_take]; omega), List.getElem?_drop,
        if_neg (by omega), List.length_take]
      congr 1
      omega

theorem forall₂_set {α : Type*} {R : α → β → Prop} {l : List α} {l' : List β}
    (h : List.Forall₂ R l l') (k : ℕ) {a : α} {b : β} (hab : R a b) :
    List.Forall₂ R (l.set k a) (l'.set k b) := by
  induction h generalizing k with
  | nil => exact .nil
  | cons hxy hrest ih =>
    cases k with
    | zero => exact .cons hab hrest
    | succ k => exact .cons hxy (ih k)

/-- The name goes when the file is removed. -/
structure Handle (ν : Type*) where
  name : Option ν
  position : ℕ

def Handle.forget [DecidableEq ν] (nm : ν) (h : Handle ν) : Handle ν :=
  if h.name = some nm then { h with name := none } else h

structure Volume (ν β : Type*) where
  files : ν → Option (List β)
  names : Finset ν
  mem_names : ∀ nm, nm ∈ names ↔ (files nm).isSome
  handles : List (Handle ν)

namespace Volume

def empty : Volume ν β := ⟨fun _ => none, ∅, by simp, []⟩

theorem mem_names_of_files {v : Volume ν β} {nm : ν} {data : List β} (h : v.files nm = some data) :
    nm ∈ v.names := by
  rw [v.mem_names, h]
  rfl

def move (v : Volume ν β) (k : ℕ) (h : Handle ν) : Volume ν β :=
  { v with handles := v.handles.set k h }

variable [DecidableEq ν]

theorem mem_names_update {v : Volume ν β} (nm : ν) (data : Option (List β)) (x : ν) :
    (x = nm ∧ data.isSome ∨ x ≠ nm ∧ x ∈ v.names) ↔
      (Function.update v.files nm data x).isSome := by
  by_cases hx : x = nm
  · rw [hx, Function.update_self]
    simp
  · rw [Function.update_of_ne hx, v.mem_names]
    simp [hx]

/-- The file gets these contents; it is made if it is not there. -/
def put (v : Volume ν β) (nm : ν) (data : List β) : Volume ν β where
  files := Function.update v.files nm (some data)
  names := insert nm v.names
  mem_names x := by
    rw [← mem_names_update, Finset.mem_insert]
    by_cases hx : x = nm <;> simp [hx]
  handles := v.handles

def erase (v : Volume ν β) (nm : ν) : Volume ν β where
  files := Function.update v.files nm none
  names := v.names.erase nm
  mem_names x := by
    rw [← mem_names_update, Finset.mem_erase]
    simp
  handles := v.handles.map (Handle.forget nm)

/-- What the files take up together. -/
def total (v : Volume ν β) (cost : ℕ → ℕ) : ℕ :=
  ∑ nm ∈ v.names, cost ((v.files nm).getD []).length

variable {v : Volume ν β} {nm : ν} {data : List β} (cost : ℕ → ℕ)

theorem sum_rest (data : Option (List β)) :
    ∑ x ∈ v.names.erase nm, cost ((Function.update v.files nm data x).getD []).length =
      ∑ x ∈ v.names.erase nm, cost ((v.files x).getD []).length := by
  apply Finset.sum_congr rfl
  intro x hx
  rw [Function.update_of_ne (Finset.mem_erase.mp hx).1]

theorem total_put_new (h : nm ∉ v.names) :
    (v.put nm data).total cost = v.total cost + cost data.length := by
  have hrest := @sum_rest _ _ _ v nm cost (some data)
  rw [Finset.erase_eq_of_notMem h] at hrest
  unfold total put
  dsimp only
  rw [Finset.sum_insert h, Function.update_self, Option.getD_some, hrest, Nat.add_comm]

theorem total_erase (h : v.files nm = some data) :
    (v.erase nm).total cost + cost data.length = v.total cost := by
  unfold total erase
  dsimp only
  rw [sum_rest, ← Finset.sum_erase_add _ _ (mem_names_of_files h), h, Option.getD_some]

theorem total_put_same {data' : List β} (h : v.files nm = some data)
    (hlen : data'.length = data.length) : (v.put nm data').total cost = v.total cost := by
  have hmem := mem_names_of_files h
  unfold total put
  dsimp only
  rw [Finset.insert_eq_self.mpr hmem, ← Finset.sum_erase_add _ _ hmem, sum_rest,
    Function.update_self, Option.getD_some, hlen, ← Finset.sum_erase_add _ _ hmem, h,
    Option.getD_some]

end Volume
end NamedFiles
