import Nachos.ExecCalls

namespace Nachos
open TwosComplement Programs

namespace Machine
variable {m m' : Machine} {addr : Int} {name n : Name}

/-- The characters of `name` stand at an address; what follows them is left open. -/
def StartsWith (m : Machine) : Int → Name → Prop
  | _, [] => True
  | addr, c :: rest => c ≠ 0 ∧ (m.readMem addr 1).seen = some (.inr (charToInt c)) ∧
      m.StartsWith (wrap (addr + 1)) rest

theorem StartsWith.of_image (htlb : m.tlb = none) (himage : m'.image = m.image)
    (h : m.StartsWith addr name) : m'.StartsWith addr name := by
  induction name generalizing addr with
  | nil => trivial
  | cons c rest ih =>
    exact ⟨h.1, (readMem_seen_image htlb himage addr 1).trans h.2.1, ih h.2.2⟩

theorem StartsWith.ne_zero (h : m.StartsWith addr name) : ∀ c ∈ name, c ≠ 0 := by
  induction name generalizing addr with
  | nil => nofun
  | cons c rest ih => exact List.forall_mem_cons.mpr ⟨h.1, ih h.2.2⟩

theorem HoldsString.startsWith (h : m.HoldsString addr name) : m.StartsWith addr name := by
  induction name generalizing addr with
  | nil => trivial
  | cons c rest ih => exact ⟨h.1, h.2.1, ih h.2.2⟩

theorem charToInt_inj {c d : UInt8} (h : charToInt c = charToInt d) : c = d := by
  rw [← ofNat_charToInt c, h, ofNat_charToInt]

theorem StartsWith.eq_of_length (h : m.StartsWith addr name) (hn : m.StartsWith addr n)
    (hlen : name.length = n.length) : name = n := by
  induction name generalizing addr n with
  | nil => exact (List.length_eq_zero_iff.mp hlen.symm).symm
  | cons c rest ih =>
    cases n with
    | nil => cases hlen
    | cons d rest' =>
      have heq := Option.some.inj (h.2.1.symm.trans hn.2.1)
      rw [charToInt_inj (Sum.inr.inj heq), ih h.2.2 hn.2.2 (Nat.succ.inj hlen)]

theorem HoldsString.starts_within (h : m.HoldsString addr name) (hn : m.StartsWith addr n) :
    n <+: name := by
  induction n generalizing addr name with
  | nil => exact List.nil_prefix
  | cons c rest ih =>
    obtain ⟨hc, hseen, hrest⟩ := hn
    cases name with
    | nil =>
      have heq := Option.some.inj (h.symm.trans hseen)
      exact absurd (Sum.inr.inj heq).symm (Sys.charToInt_ne_zero hc)
    | cons d rest' =>
      have heq := Option.some.inj (h.2.1.symm.trans hseen)
      rw [charToInt_inj (Sum.inr.inj heq)]
      exact List.prefix_cons_inj c |>.mpr (ih h.2.2 hrest)

/-- At an address stands one string at most. -/
theorem HoldsString.eq (h : m.HoldsString addr name) (hn : m.HoldsString addr n) : n = name := by
  have hle := (hn.starts_within h.startsWith).length_le
  exact (h.starts_within hn.startsWith).eq_of_length_le hle

end Machine

namespace Sys
variable {κ : Type} {k k' : Kernel κ} {env : Env} {addr : Int} {name : Name}

theorem readMem_ok {v : Option Int} (h : readMem addr 1 k = .ok (v, k')) :
    ∃ c, v = some (charToInt c) ∧
      (k.machine.readMem addr 1).seen = some (.inr (charToInt c)) ∧
      k'.machine.image = k.machine.image := by
  rw [readMem_eq] at h
  cases hm : k.machine.readMem addr 1 with
  | raised e m =>
    rw [hm] at h
    cases h
  | abort =>
    rw [hm] at h
    cases h
  | done w m =>
    rw [hm] at h
    cases h
    have hseen := Machine.readMem_seen k.machine addr 1
    rw [hm] at hseen
    cases ht : (k.machine.translate addr 1 false).seen with
    | none =>
      rw [ht] at hseen
      cases hseen
    | some r =>
      rw [ht] at hseen
      cases r with
      | inl e => cases hseen
      | inr pa =>
        have hload : w = charToInt (k.machine.mainMemory pa) :=
          Sum.inr.inj (Option.some.inj hseen)
        cases hload
        exact ⟨_, rfl, rfl, Machine.readMem_image hm⟩

/-- What the loop of `User2System` has copied stands at the address, with its NUL unless the
limit has ended the loop. -/
theorem copyIn_ok {oneChar : Int} {n : ℕ} {chars : List UInt8} (htlb : k.machine.tlb = none)
    (h : copyIn addr oneChar n k = .ok (chars, k')) :
    k.machine.StartsWith addr chars ∧ chars.length ≤ n ∧
      (chars.length < n → k.machine.HoldsString addr chars) := by
  induction n generalizing addr oneChar chars k with
  | zero =>
    cases h
    exact ⟨trivial, le_rfl, fun hlt => absurd hlt (lt_irrefl 0)⟩
  | succ n ih =>
    obtain ⟨v, k₁, hread, h⟩ := bind_ok h
    obtain ⟨c, rfl, hseen, himage⟩ := readMem_ok hread
    rw [Option.getD_some] at h
    rcases ite_ok h with ⟨hzero, h⟩ | ⟨hne, h⟩
    · cases h
      exact ⟨trivial, Nat.zero_le _, fun _ => by rw [hzero] at hseen; exact hseen⟩
    · obtain ⟨rest, k₂, hrest, h⟩ := bind_ok h
      cases h
      have htlb₁ : k₁.machine.tlb = none := Machine.tlb_of_layout htlb (congrArg Prod.fst himage)
      obtain ⟨hstarts, hlen, hholds⟩ := ih htlb₁ hrest
      have hc : c ≠ 0 := by
        rintro rfl
        exact hne rfl
      rw [ofNat_charToInt]
      refine ⟨⟨hc, hseen, hstarts.of_image htlb₁ himage.symm⟩, Nat.succ_le_succ hlen,
        fun hlt => ⟨hc, hseen, ?_⟩⟩
      exact (hholds (Nat.lt_of_succ_lt_succ hlt)).of_image htlb₁ himage.symm

theorem user2System_ok {limit : ℕ} {b : Buffer} (htlb : k.machine.tlb = none)
    (hlimit : (limit : Int) < intMax) (h : user2System env addr limit k = .ok (b, k')) :
    k.machine.StartsWith addr b.str ∧ b.str.length ≤ limit ∧
      (b.str.length < limit → k.machine.HoldsString addr b.str) := by
  have hsize : wrap ((limit : Int) + 1) = limit + 1 := by
    unfold intMax at hlimit
    exact wrap_of_range (by omega) (by omega)
  obtain ⟨b₀, k₁, hnew, h⟩ := bind_ok h
  rw [hsize, newBuffer, if_neg (by omega)] at hnew
  cases hnew
  obtain ⟨chars, k₂, hcopy, h⟩ := bind_ok h
  cases h
  have hok := copyIn_ok htlb hcopy
  have hlen : chars.length ≤ limit := hok.2.1
  rw [str_of_bytes (fun i hi => if_pos hi) hok.1.ne_zero]
  · exact hok
  · show chars.length < ((limit : Int) + 1).toNat
    omega

end Sys

end Nachos
