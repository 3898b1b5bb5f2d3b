import Adwarden.Rust.Bytes

/-! `usize` arithmetic and slicing, with the panics they raise. -/
namespace Adwarden

/-- How the crate was built: overflow checks are on in `debug` and off in `release`. -/
inductive Profile where
  | debug
  | release
deriving DecidableEq

inductive Panic where
  | addOverflow
  | sliceOutOfRange
deriving DecidableEq

@[simp] theorem Except.ok_bind {ε α β : Type} (a : α) (f : α → Except ε β) :
    ((Except.ok a : Except ε α) >>= f) = f a := rfl

@[simp] theorem Except.error_bind {ε α β : Type} (e : ε) (f : α → Except ε β) :
    ((Except.error e : Except ε α) >>= f) = Except.error e := rfl

theorem Except.of_bind_ok {ε α β : Type} {x : Except ε α} {f : α → Except ε β} {b : β}
    (h : (x >>= f) = Except.ok b) : ∃ a, x = Except.ok a ∧ f a = Except.ok b := by
  cases x with
  | error e => cases h
  | ok a => exact ⟨a, rfl, h⟩

/-- `a + b` on `usize`. -/
def usizeAdd (p : Profile) (a b : ℕ) : Except Panic ℕ :=
  if a + b < usizeSize then .ok (a + b)
  else match p with
    | .debug => .error .addOverflow
    | .release => .ok ((a + b) % usizeSize)

/-- The two sides of a cut at `n`, as `drain(..n)`, `b[..n]` and `b[n..]` take them. -/
def splitAt (b : Bytes) (n : ℕ) : Except Panic (Bytes × Bytes) :=
  if n ≤ b.length then .ok (b.take n, b.drop n) else .error .sliceOutOfRange

theorem usizeAdd_of_lt {p : Profile} {a b : ℕ} (h : a + b < usizeSize) :
    usizeAdd p a b = .ok (a + b) := by simp [usizeAdd, h]

theorem usizeAdd_debug {a b : ℕ} (h : usizeSize ≤ a + b) :
    usizeAdd .debug a b = .error .addOverflow := by simp [usizeAdd, Nat.not_lt.mpr h]

/-- A sum that wraps falls below its first summand. -/
theorem usizeAdd_release {a b : ℕ} (h : usizeSize ≤ a + b) (hb : b < usizeSize) :
    ∃ n, usizeAdd .release a b = .ok n ∧ n < a := by
  refine ⟨(a + b) % usizeSize, by simp [usizeAdd, Nat.not_lt.mpr h], ?_⟩
  by_cases ha : a < usizeSize
  · rw [Nat.mod_eq_sub_mod h, Nat.mod_eq_of_lt (by omega)]
    omega
  · exact Nat.lt_of_lt_of_le (Nat.mod_lt _ (by simp [usizeSize, usizeBits])) (Nat.not_lt.mp ha)

theorem splitAt_of_le {b : Bytes} {n : ℕ} (h : n ≤ b.length) :
    splitAt b n = .ok (b.take n, b.drop n) := by simp [splitAt, h]

theorem splitAt_of_lt {b : Bytes} {n : ℕ} (h : b.length < n) :
    splitAt b n = .error .sliceOutOfRange := by simp [splitAt, Nat.not_le.mpr h]

end Adwarden
