import Nachos.ExecCalls
import Nachos.VirtualMemory

namespace Nachos
open TwosComplement Programs Buffers

namespace Machine
variable {m m' : Machine} {addr : Int}

/-- Only bits that record accesses differ. -/
def Alike (m m' : Machine) : Prop := m'.image = m.image ∧ m'.registers = m.registers

theorem inSpace_byte {n : ℕ} (h : unsigned addr < n) : InSpace n addr .byte :=
  ⟨Nat.mod_one _, h⟩

section Byte
variable (hp : m.Paged)
include hp

theorem Paged.spaceSize_le : m.spaceSize ≤ memorySize := by
  have hsub : m.frames.toFinset ⊆ Finset.Ico (0 : Int) numPhysPages := by
    intro f hf
    exact Finset.mem_Ico.mpr (hp.inMemory f (List.mem_toFinset.mp hf))
  have hcard := Finset.card_le_card hsub
  rw [List.toFinset_card_of_nodup hp.distinct, hp.length_frames, Int.card_Ico, sub_zero,
    Int.toNat_natCast] at hcard
  exact Nat.mul_le_mul_right pageSize hcard

theorem Paged.readMem_byte (h : unsigned addr < m.spaceSize) :
    ∃ m', m.readMem addr 1 = .done (charToInt (m.virtualByte (unsigned addr))) m' ∧
      m.Alike m' := by
  obtain ⟨v, m', hr, himage, hload, -⟩ := hp.readMem_inSpace (inSpace_byte h)
  have hv : v = charToInt (m.virtualByte (unsigned addr)) := (Option.some.inj hload).symm
  exact ⟨m', hv ▸ hr, himage, readMem_registers hr⟩

theorem Paged.writeMem_byte (h : unsigned addr < m.spaceSize) (c : UInt8) :
    ∃ m', m.writeMem addr 1 (charToInt c) = .done () m' ∧ m'.layout = m.layout ∧
      m'.registers = m.registers ∧
      ∀ a < m.spaceSize, m'.virtualByte a = if a = unsigned addr then c else m.virtualByte a := by
  obtain ⟨m', hw, hlayout, hbytes⟩ := hp.writeMem_inSpace (inSpace_byte h) (charToInt c)
  refine ⟨m', hw, hlayout, writeMem_registers hw, ?_⟩
  intro a ha
  rw [hbytes a ha, bcopy, Width.size]
  by_cases heq : a = unsigned addr
  · subst heq
    rw [if_pos (by omega), if_pos rfl, Nat.sub_self, byteOf, pow_zero, Nat.div_one]
    exact ofNat_charToInt c
  · rw [if_neg (by omega), if_neg heq]

end Byte

theorem Paged.unsigned_next (hp : m.Paged) (h : unsigned addr < m.spaceSize) :
    unsigned (wrap (addr + 1)) = unsigned addr + 1 := by
  have hle := hp.spaceSize_le
  unfold memorySize numPhysPages pageSize at hle
  unfold unsigned wrap at *
  omega

end Machine

namespace Sys
variable {κ : Type} {k : Kernel κ} {addr : Int}

theorem charToInt_eq_zero {c : UInt8} : charToInt c = 0 ↔ c = 0 := by
  constructor
  · intro h
    by_contra hc
    exact charToInt_ne_zero hc h
  · rintro rfl
    rfl

/-- The loop of `User2System` reads a string. -/
theorem copyIn_paged (oneChar : Int) {n : ℕ} (hp : k.machine.Paged)
    (h : unsigned addr + n ≤ k.machine.spaceSize) : ∃ m', k.machine.Alike m' ∧
      copyIn addr oneChar n k =
        .ok (cString (shift k.machine.virtualByte (unsigned addr)) n,
          { k with machine := m' }) := by
  induction n generalizing k addr oneChar with
  | zero => exact ⟨k.machine, ⟨rfl, rfl⟩, rfl⟩
  | succ n ih =>
    have hlt : unsigned addr < k.machine.spaceSize := by omega
    obtain ⟨m₁, hr, himage, hregs⟩ := hp.readMem_byte hlt
    have hread : readMem addr 1 k =
        .ok (some (charToInt (k.machine.virtualByte (unsigned addr))),
          { k with machine := m₁ }) := by
      rw [readMem_eq, hr]
    have hlayout : m₁.layout = k.machine.layout := congrArg Prod.fst himage
    have hnext := hp.unsigned_next hlt
    rw [copyIn, bind_of_ok hread, Option.getD_some, cString_succ, shift, add_zero]
    by_cases hc : k.machine.virtualByte (unsigned addr) = 0
    · rw [if_pos (charToInt_eq_zero.mpr hc), if_pos hc]
      exact ⟨m₁, ⟨himage, hregs⟩, rfl⟩
    · rw [if_neg (mt charToInt_eq_zero.mp hc), if_neg hc]
      have hin : unsigned (wrap (addr + 1)) + n ≤ m₁.spaceSize := by
        rw [hnext, Machine.spaceSize_of_layout hlayout]
        omega
      obtain ⟨m₂, ⟨himage₂, hregs₂⟩, hrest⟩ := ih (k := { k with machine := m₁ })
        (charToInt (k.machine.virtualByte (unsigned addr))) (hp.of_layout hlayout) hin
      refine ⟨m₂, ⟨himage₂.trans himage, hregs₂.trans hregs⟩, ?_⟩
      rw [bind_of_ok hrest, ofNat_charToInt, hnext, Machine.virtualByte_of_image himage]
      have hshift : shift k.machine.virtualByte (unsigned addr + 1) =
          shift (shift k.machine.virtualByte (unsigned addr)) 1 := by
        funext i
        simp only [shift, add_assoc]
      rw [hshift]
      rfl

/-- `User2System` on a buffer of the program: the bytes up to a NUL, then zeros. -/
theorem user2System_paged (env : Env) (limit : ℕ) (hp : k.machine.Paged)
    (h : unsigned addr + limit ≤ k.machine.spaceSize) : ∃ b m', k.machine.Alike m' ∧
      user2System env addr limit k = .ok (b, { k with machine := m' }) ∧ b.size = limit + 1 ∧
      ∀ j < limit, b.byte j = if BehindNul (shift k.machine.virtualByte (unsigned addr)) j then 0
        else k.machine.virtualByte (unsigned addr + j) := by
  have hle := hp.spaceSize_le
  unfold memorySize numPhysPages pageSize at hle
  have hsize : wrap ((limit : Int) + 1) = limit + 1 := wrap_of_range (by omega) (by omega)
  have hnew : newBuffer (wrap ((limit : Int) + 1)) env.junk k =
      .ok (⟨limit + 1, env.junk⟩, k) := by
    rw [newBuffer, hsize, if_neg (by omega)]
    rfl
  obtain ⟨m', halike, hcopy⟩ := copyIn_paged 0 hp h
  refine ⟨⟨limit + 1, fun i => if i < limit + 1 then
    (cString (shift k.machine.virtualByte (unsigned addr)) limit).getD i 0 else env.junk i⟩, m',
    halike, ?_, rfl, ?_⟩
  · rw [user2System, bind_of_ok hnew, Int.toNat_natCast, bind_of_ok hcopy]
    rfl
  · intro j hj
    dsimp only
    rw [if_pos (by omega), getD_cString hj, shift]

/-- The loop of `System2User` writes the bytes up to and with the first NUL. -/
theorem copyOut_paged (buffer : ℕ → UInt8) (i : ℕ) {n : ℕ} (hp : k.machine.Paged)
    (h : unsigned addr + n ≤ k.machine.spaceSize) : ∃ r m', m'.layout = k.machine.layout ∧
      m'.registers = k.machine.registers ∧
      copyOut addr buffer i n k = .ok (r, { k with machine := m' }) ∧
      ∀ a < k.machine.spaceSize, m'.virtualByte a =
        copyString (shift buffer i) k.machine.virtualByte (unsigned addr) n a := by
  -- on the bytes that may still be copied; each round writes one and goes on to the next address
  induction n generalizing k addr i with
  | zero =>
    refine ⟨i, k.machine, rfl, rfl, rfl, ?_⟩
    intro a _
    rw [copyString, if_neg (by omega)]
  | succ n ih =>
    have hlt : unsigned addr < k.machine.spaceSize := by omega
    obtain ⟨m₁, hw, hlayout, hregs, hbytes⟩ := hp.writeMem_byte hlt (buffer i)
    have hwrite : writeMem addr 1 (charToInt (buffer i)) k =
        .ok ((), { k with machine := m₁ }) := by
      rw [writeMem_eq, hw]
    have hupdate : ∀ a < k.machine.spaceSize, m₁.virtualByte a =
        Function.update k.machine.virtualByte (unsigned addr) (buffer i) a := by
      intro a ha
      rw [hbytes a ha, Function.update_apply]
    have hnext := hp.unsigned_next hlt
    simp only [copyString_succ, show shift buffer i 0 = buffer i from rfl]
    rw [copyOut, bind_of_ok hwrite]
    by_cases hc : buffer i = 0
    · rw [if_pos (charToInt_eq_zero.mpr hc)]
      simp only [if_pos hc]
      exact ⟨_, m₁, hlayout, hregs, rfl, hupdate⟩
    · rw [if_neg (mt charToInt_eq_zero.mp hc)]
      simp only [if_neg hc]
      have hsize := Machine.spaceSize_of_layout hlayout
      have hin : unsigned (wrap (addr + 1)) + n ≤ m₁.spaceSize := by
        rw [hnext, hsize]
        omega
      obtain ⟨r, m₂, hlayout₂, hregs₂, hrest, hbytes₂⟩ :=
        ih (k := { k with machine := m₁ }) (i + 1) (hp.of_layout hlayout) hin
      refine ⟨r, m₂, hlayout₂.trans hlayout, hregs₂.trans hregs, hrest, ?_⟩
      intro a ha
      have hshift : shift (shift buffer i) 1 = shift buffer (i + 1) := by
        funext j
        simp only [shift, add_assoc]
      rw [hbytes₂ a (hsize ▸ ha), hnext, hshift]
      exact copyString_congr hupdate ha

theorem system2User_paged (buffer : Buffer) (n : ℕ) (hp : k.machine.Paged)
    (h : unsigned addr + n ≤ k.machine.spaceSize) : ∃ r m', m'.layout = k.machine.layout ∧
      m'.registers = k.machine.registers ∧
      system2User addr n buffer k = .ok (r, { k with machine := m' }) ∧
      ∀ a < k.machine.spaceSize, m'.virtualByte a =
        copyString buffer.byte k.machine.virtualByte (unsigned addr) n a := by
  rw [system2User, if_neg (by omega)]
  by_cases hn : n = 0
  · subst hn
    refine ⟨0, k.machine, rfl, rfl, rfl, ?_⟩
    intro a _
    rw [copyString, if_neg (by omega)]
  · rw [if_neg (by omega), Int.toNat_natCast]
    obtain ⟨r, m', hlayout, hregs, hcopy, hbytes⟩ := copyOut_paged buffer.byte 0 hp h
    have hshift : shift buffer.byte 0 = buffer.byte := by
      funext j
      rw [shift, zero_add]
    rw [hshift] at hbytes
    exact ⟨r, m', hlayout, hregs, hcopy, hbytes⟩

end Sys
end Nachos
