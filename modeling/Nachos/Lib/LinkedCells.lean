import Mathlib.Data.List.AList
import Mathlib.Tactic

namespace LinkedCells
variable {α : Type*}

structure Cell (α : Type*) where
  item : α
  next : Option ℕ
  deriving DecidableEq, Repr

abbrev Heap (α : Type*) := AList fun _ : ℕ => Cell α

/-- The choice of an address for a new cell. -/
structure Allocator (α : Type*) where
  addr : Heap α → ℕ
  fresh : ∀ h, addr h ∉ h

def addresses (cells : List (ℕ × α)) : List ℕ := cells.map Prod.fst

def items (cells : List (ℕ × α)) : List α := cells.map Prod.snd

/-- From `p` the cells follow each other up to `q`, with the items given. -/
def Linked (h : Heap α) : Option ℕ → List (ℕ × α) → Option ℕ → Prop
  | p, [], q => p = q
  | p, (a, x) :: cells, q =>
    p = some a ∧ ∃ next, h.lookup a = some ⟨x, next⟩ ∧ Linked h next cells q

/-- The pointer after `n` links from `p`. -/
def follow (h : Heap α) : ℕ → Option ℕ → Option ℕ
  | 0, p => p
  | n + 1, p => follow h n ((p.bind h.lookup).bind Cell.next)

@[simp] theorem addresses_nil : addresses ([] : List (ℕ × α)) = [] := rfl
@[simp] theorem items_nil : items ([] : List (ℕ × α)) = [] := rfl

@[simp] theorem addresses_cons (a : ℕ) (x : α) (cells : List (ℕ × α)) :
    addresses ((a, x) :: cells) = a :: addresses cells := rfl

@[simp] theorem items_cons (a : ℕ) (x : α) (cells : List (ℕ × α)) :
    items ((a, x) :: cells) = x :: items cells := rfl

theorem items_singleton (a : ℕ) (x : α) : items [(a, x)] = [x] := rfl

@[simp] theorem addresses_append (cells cells' : List (ℕ × α)) :
    addresses (cells ++ cells') = addresses cells ++ addresses cells' := List.map_append

@[simp] theorem items_append (cells cells' : List (ℕ × α)) :
    items (cells ++ cells') = items cells ++ items cells' := List.map_append

@[simp] theorem length_addresses (cells : List (ℕ × α)) :
    (addresses cells).length = cells.length := List.length_map ..

@[simp] theorem length_items (cells : List (ℕ × α)) : (items cells).length = cells.length :=
  List.length_map ..

theorem mem_of_lookup {h : Heap α} {a : ℕ} {c : Cell α} (hc : h.lookup a = some c) : a ∈ h :=
  AList.lookup_isSome.mp (by rw [hc]; rfl)

theorem next_eq {h : Heap α} {a : ℕ} {x y : α} {p q : Option ℕ} (hp : h.lookup a = some ⟨x, p⟩)
    (hq : h.lookup a = some ⟨y, q⟩) : p = q :=
  congrArg Cell.next (Option.some.inj (hp.symm.trans hq))

section Lists
variable {h h' : Heap α} {p q : Option ℕ} {cells rest : List (ℕ × α)} {a b : ℕ} {x y : α}

theorem Linked.mem (hl : Linked h p cells q) (ha : a ∈ addresses cells) : a ∈ h := by
  induction cells generalizing p with
  | nil => cases ha
  | cons c cells ih =>
    obtain ⟨-, next, hc, hrest⟩ := hl
    rcases List.mem_cons.mp ha with rfl | hmem
    · exact mem_of_lookup hc
    · exact ih hrest hmem

/-- A list depends on its own cells only. -/
theorem Linked.congr (hl : Linked h p cells q)
    (hsame : ∀ a ∈ addresses cells, h'.lookup a = h.lookup a) : Linked h' p cells q := by
  induction cells generalizing p with
  | nil => exact hl
  | cons c cells ih =>
    obtain ⟨hp, next, hc, hrest⟩ := hl
    refine ⟨hp, next, ?_, ih hrest fun a ha => hsame a (List.mem_cons_of_mem _ ha)⟩
    rw [hsame c.1 List.mem_cons_self, hc]

theorem linked_append : Linked h p (cells ++ rest) q ↔
    ∃ r, Linked h p cells r ∧ Linked h r rest q := by
  induction cells generalizing p with
  | nil => simp [Linked]
  | cons c cells ih =>
    obtain ⟨a, x⟩ := c
    simp only [List.cons_append, Linked, ih]
    constructor
    · rintro ⟨hp, next, hc, r, hcells, hrest⟩
      exact ⟨r, ⟨hp, next, hc, hcells⟩, hrest⟩
    · rintro ⟨r, ⟨hp, next, hc, hcells⟩, hrest⟩
      exact ⟨hp, next, hc, r, hcells, hrest⟩

theorem Linked.length_le (hl : Linked h p cells q) (hnodup : (addresses cells).Nodup) :
    cells.length ≤ h.keys.length := by
  rw [← length_addresses]
  exact (List.subperm_of_subset hnodup fun a ha => AList.mem_keys.mp (hl.mem ha)).length_le

theorem follow_none (h : Heap α) (n : ℕ) : follow h n none = none := by
  induction n with
  | zero => rfl
  | succ n ih => exact ih

theorem Linked.follow_eq (hl : Linked h p cells none) (n : ℕ) :
    follow h n p = (addresses cells)[n]? := by
  induction cells generalizing n p with
  | nil =>
    obtain rfl : p = none := hl
    rw [follow_none, addresses_nil, List.getElem?_nil]
  | cons c cells ih =>
    obtain ⟨rfl, next, hc, hrest⟩ := hl
    cases n with
    | zero => rfl
    | succ n =>
      rw [follow, Option.bind_some, hc]
      exact ih hrest n

/-- A fresh cell in front of the others. -/
theorem Linked.cons_fresh (hl : Linked h p cells q) (ha : a ∉ h) (x : α) :
    Linked (h.insert a ⟨x, p⟩) (some a) ((a, x) :: cells) q := by
  refine ⟨rfl, p, AList.lookup_insert _, hl.congr fun c hc => AList.lookup_insert_ne ?_⟩
  rintro rfl
  exact ha (hl.mem hc)

/-- A fresh cell behind the cell `b`. -/
theorem Linked.link (hl : Linked h p (cells ++ (b, y) :: rest) q)
    (hnodup : (addresses (cells ++ (b, y) :: rest)).Nodup) (ha : a ∉ h) {next : Option ℕ}
    (hnext : h.lookup b = some ⟨y, next⟩) :
    Linked ((h.insert a ⟨x, next⟩).insert b ⟨y, some a⟩) p (cells ++ (b, y) :: (a, x) :: rest)
      q := by
  have hmem : ∀ c ∈ addresses (cells ++ (b, y) :: rest), c ≠ a := by
    rintro c hc rfl
    exact ha (hl.mem hc)
  simp only [addresses_append, addresses_cons, List.nodup_append, List.nodup_cons,
    List.mem_cons] at hnodup
  obtain ⟨-, ⟨hbrest, -⟩, hcells⟩ := hnodup
  rw [linked_append] at hl ⊢
  obtain ⟨r, hpre, rfl, next', hb, hrest⟩ := hl
  obtain rfl := next_eq hnext hb
  -- Neither cell is before `b` nor behind it.
  have hsame : ∀ c, c ≠ b → c ≠ a →
      ((h.insert a ⟨x, next⟩).insert b ⟨y, some a⟩).lookup c = h.lookup c := by
    intro c hcb hca
    rw [AList.lookup_insert_ne hcb, AList.lookup_insert_ne hca]
  have hba : b ≠ a := hmem b (by simp)
  refine ⟨some b, hpre.congr fun c hc => hsame c ?_ ?_, rfl, some a, AList.lookup_insert _, rfl,
    next, ?_, hrest.congr fun c hc => hsame c ?_ ?_⟩
  · exact hcells c hc b (.inl rfl)
  · exact hmem c (by simp [hc])
  · rw [AList.lookup_insert_ne hba.symm, AList.lookup_insert]
  · rintro rfl
    exact hbrest hc
  · exact hmem c (by simp [hc])

/-- A cell taken out behind another one. -/
theorem Linked.unlink (hl : Linked h p (cells ++ (b, y) :: (a, x) :: rest) q)
    (hnodup : (addresses (cells ++ (b, y) :: (a, x) :: rest)).Nodup) {next : Option ℕ}
    (hnext : h.lookup a = some ⟨x, next⟩) :
    Linked ((h.insert b ⟨y, next⟩).erase a) p (cells ++ (b, y) :: rest) q := by
  simp only [addresses_append, addresses_cons, List.nodup_append, List.nodup_cons,
    List.mem_cons, not_or] at hnodup
  obtain ⟨-, ⟨⟨hba, hbrest⟩, harest, -⟩, hcells⟩ := hnodup
  rw [linked_append] at hl ⊢
  obtain ⟨r, hpre, rfl, n, hb, hn, next', ha, hrest⟩ := hl
  obtain rfl := next_eq hnext ha
  -- Neither cell is before `b` nor behind `a`.
  have hsame : ∀ c, c ≠ b → c ≠ a →
      ((h.insert b ⟨y, next⟩).erase a).lookup c = h.lookup c := by
    intro c hcb hca
    rw [AList.lookup_erase_ne hca, AList.lookup_insert_ne hcb]
  refine ⟨some b, hpre.congr fun c hc => hsame c ?_ ?_, rfl, next, ?_, hrest.congr fun c hc =>
    hsame c ?_ ?_⟩
  · exact hcells c hc b (.inl rfl)
  · exact hcells c hc a (.inr (.inl rfl))
  · rw [AList.lookup_erase_ne hba, AList.lookup_insert]
  · rintro rfl
    exact hbrest hc
  · rintro rfl
    exact harest hc

end Lists

/-- From `h` to `h'` the list `cells` becomes `cells'`, and no other cell changes. -/
structure Local (h h' : Heap α) (cells cells' : List (ℕ × α)) : Prop where
  keeps : ∀ a ∈ h, a ∉ addresses cells → h'.lookup a = h.lookup a
  owns : ∀ a ∈ addresses cells', a ∈ addresses cells ∨ a ∉ h

section Local
variable {h h' : Heap α} {p q : Option ℕ} {cells cells' other : List (ℕ × α)}

theorem Local.linked (hloc : Local h h' cells cells') (hl : Linked h p other q)
    (hapart : (addresses cells).Disjoint (addresses other)) : Linked h' p other q :=
  hl.congr fun a ha => hloc.keeps a (hl.mem ha) fun hmem => hapart hmem ha

theorem Local.disjoint (hloc : Local h h' cells cells') (hl : Linked h p other q)
    (hapart : (addresses cells).Disjoint (addresses other)) :
    (addresses cells').Disjoint (addresses other) := by
  intro a ha hother
  rcases hloc.owns a ha with hmem | hfresh
  · exact hapart hmem hother
  · exact hfresh (hl.mem hother)

/-- An operation that takes one fresh cell and changes cells of the list only. -/
theorem Local.of_fresh {a : ℕ} {x : α} (ha : a ∉ h) (hcells : cells'.Perm ((a, x) :: cells))
    (hsame : ∀ c, c ≠ a → c ∉ addresses cells → h'.lookup c = h.lookup c) :
    Local h h' cells cells' := by
  refine ⟨fun c hc hmem => hsame c ?_ hmem, fun c hc => ?_⟩
  · rintro rfl
    exact ha hc
  · rw [addresses, (hcells.map Prod.fst).mem_iff] at hc
    rcases List.mem_cons.mp hc with rfl | hmem
    · exact .inr ha
    · exact .inl hmem

theorem Local.refl (h : Heap α) (cells : List (ℕ × α)) : Local h h cells cells :=
  ⟨fun _ _ _ => rfl, fun _ ha => .inl ha⟩

theorem Local.trans {h'' : Heap α} {cells'' : List (ℕ × α)} (hloc : Local h h' cells cells')
    (hloc' : Local h' h'' cells' cells'') : Local h h'' cells cells'' := by
  have hkept : ∀ a ∈ h, a ∉ addresses cells → a ∈ h' := by
    intro a ha hmem
    rw [← AList.lookup_isSome, hloc.keeps a ha hmem, AList.lookup_isSome]
    exact ha
  refine ⟨fun a ha hmem => ?_, fun a ha => ?_⟩
  · have hmem' : a ∉ addresses cells' := fun hc => (hloc.owns a hc).elim hmem (· ha)
    rw [hloc'.keeps a (hkept a ha hmem) hmem', hloc.keeps a ha hmem]
  · rcases hloc'.owns a ha with hc | hfresh
    · exact hloc.owns a hc
    · by_contra! hcon
      exact hfresh (hkept a hcon.2 hcon.1)

end Local
end LinkedCells
