import Mathlib.Tactic

namespace Paging

def phys (size : ℕ) (frame : ℕ → ℕ) (a : ℕ) : ℕ := frame (a / size) * size + a % size

variable {size : ℕ} {frame : ℕ → ℕ} {a b k n : ℕ}

theorem div_add_inside (h : a % size + k < size) : (a + k) / size = a / size := by
  have hpos : 0 < size := by omega
  rw [Nat.add_div hpos, Nat.mod_eq_of_lt (show k < size by omega), if_neg (by omega),
    Nat.div_eq_of_lt (show k < size by omega), add_zero, add_zero]

/-- Inside a page the physical address moves along with the virtual one. -/
theorem phys_add (h : a % size + k < size) : phys size frame (a + k) = phys size frame a + k := by
  have hmod : (a + k) % size = a % size + k := by
    rw [Nat.add_mod, Nat.mod_eq_of_lt (show k < size by omega), Nat.mod_eq_of_lt h]
  rw [phys, div_add_inside h, hmod, phys, add_assoc]

theorem phys_div (hpos : 0 < size) : phys size frame a / size = frame (a / size) := by
  rw [phys, Nat.mul_comm, Nat.mul_add_div hpos, Nat.div_eq_of_lt (Nat.mod_lt a hpos), add_zero]

theorem phys_mod : phys size frame a % size = a % size := by
  rw [phys, Nat.mul_comm, Nat.mul_add_mod, Nat.mod_mod]

theorem phys_inj (hpos : 0 < size) (hinj : Set.InjOn frame {p | p < n}) (ha : a / size < n)
    (hb : b / size < n) (h : phys size frame a = phys size frame b) : a = b := by
  have hpage : a / size = b / size := by
    apply hinj ha hb
    have hdiv := congrArg (· / size) h
    simpa only [phys_div hpos] using hdiv
  have hoff : a % size = b % size := by
    have hmod := congrArg (· % size) h
    simpa only [phys_mod] using hmod
  rw [← Nat.div_add_mod a size, hpage, hoff, Nat.div_add_mod]

/-- A range inside one page covers the physical address of another byte of the mapped pages only
where it covers the byte itself. -/
theorem phys_mem_iff (hinj : Set.InjOn frame {p | p < n}) (ha : a / size < n) (hb : b / size < n)
    (hin : a % size + k ≤ size) :
    phys size frame a ≤ phys size frame b ∧ phys size frame b < phys size frame a + k ↔
      a ≤ b ∧ b < a + k := by
  constructor
  · rintro ⟨hle, hlt⟩
    obtain ⟨j, hj⟩ := Nat.exists_eq_add_of_le hle
    have hpos : 0 < size := by omega
    have hadd : phys size frame (a + j) = phys size frame b := by
      rw [phys_add (by omega), hj]
    have hpage : (a + j) / size < n := by
      rw [div_add_inside (by omega)]
      exact ha
    have := phys_inj hpos hinj hpage hb hadd
    omega
  · rintro ⟨hle, hlt⟩
    obtain ⟨j, rfl⟩ := Nat.exists_eq_add_of_le hle
    rw [phys_add (by omega)]
    omega

end Paging
