import Mathlib.Algebra.Group.Int.Defs
import Mathlib.Algebra.Group.Nat.Defs
import Mathlib.Data.Int.Notation
import Mathlib.Data.Nat.Notation
import Mathlib.Tactic.Common

/-! Arithmetic on `i64` and `u64` that stops where the result does not fit. -/
namespace Adwarden

def i64Fits (z : ℤ) : Option ℤ := if -2 ^ 63 ≤ z ∧ z < 2 ^ 63 then some z else none

def i64Add (a b : ℤ) : Option ℤ := i64Fits (a + b)

def i64Sub (a b : ℤ) : Option ℤ := i64Fits (a - b)

def i64Mul (a b : ℤ) : Option ℤ := i64Fits (a * b)

def u64Add (a b : ℕ) : Option ℕ := if a + b < 2 ^ 64 then some (a + b) else none

def u64Sub (a b : ℕ) : Option ℕ := if b ≤ a then some (a - b) else none

def u64Mul (a b : ℕ) : Option ℕ := if a * b < 2 ^ 64 then some (a * b) else none

/-- `z as u64`. -/
def i64AsU64 (z : ℤ) : ℕ := (z % 2 ^ 64).toNat

/-- `n as i64`. -/
def u64AsI64 (n : ℕ) : ℤ := if n < 2 ^ 63 then n else n - 2 ^ 64

/-- `n as u32`. -/
def u64AsU32 (n : ℕ) : ℕ := n % 2 ^ 32

theorem i64Fits_of {z : ℤ} (h : -2 ^ 63 ≤ z ∧ z < 2 ^ 63) : i64Fits z = some z := if_pos h

theorem u64Add_of {a b : ℕ} (h : a + b < 2 ^ 64) : u64Add a b = some (a + b) := if_pos h

theorem u64Sub_of {a b : ℕ} (h : b ≤ a) : u64Sub a b = some (a - b) := if_pos h

theorem u64Mul_of {a b : ℕ} (h : a * b < 2 ^ 64) : u64Mul a b = some (a * b) := if_pos h

theorem i64AsU64_of {z : ℤ} (h : 0 ≤ z ∧ z < 2 ^ 64) : i64AsU64 z = z.toNat := by
  rw [i64AsU64, Int.emod_eq_of_lt h.1 h.2]

theorem u64AsI64_of {n : ℕ} (h : n < 2 ^ 63) : u64AsI64 n = n := if_pos h

theorem u64AsU32_of {n : ℕ} (h : n < 2 ^ 32) : u64AsU32 n = n := Nat.mod_eq_of_lt h

end Adwarden
