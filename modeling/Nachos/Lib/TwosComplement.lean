import Mathlib.Tactic

namespace TwosComplement

def intMin : Int := -2147483648
def intMax : Int := 2147483647

/-- A 32-bit `int` is the integer it denotes; the result of an operation is brought back into the
range. -/
def wrap (x : Int) : Int := (x + 2147483648) % 4294967296 - 2147483648

def unsigned (x : Int) : Nat := (x % 4294967296).toNat

theorem wrap_of_range {x : Int} (h : -2147483648 ≤ x) (h' : x ≤ 2147483647) : wrap x = x := by
  unfold wrap
  omega

theorem wrap_mem_range (x : Int) : intMin ≤ wrap x ∧ wrap x ≤ intMax := by
  unfold wrap intMin intMax
  omega

end TwosComplement
