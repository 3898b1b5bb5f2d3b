import Adwarden.Rust.Bytes
import Mathlib.Tactic.NormNum

/-! Machine words as bytes, in either order. -/
namespace Adwarden

/-- `n.to_be_bytes()` of a `u16`. -/
def beBytes16 (n : UInt16) : Bytes := [(n >>> 8).toUInt8, n.toUInt8]

@[simp] theorem beBytes16_length (n : UInt16) : (beBytes16 n).length = 2 := rfl

theorem join16_toNat (hi lo : UInt8) :
    (hi.toUInt16 <<< 8 ||| lo.toUInt16).toNat = hi.toNat * 256 + lo.toNat := by
  have hhi := hi.toNat_lt
  have hlo := lo.toNat_lt
  have hshift : (hi.toUInt16 <<< 8).toNat = hi.toNat <<< 8 := by
    rw [UInt16.toNat_shiftLeft]
    have h8 : (8 : UInt16).toNat % 16 = 8 := rfl
    rw [h8, UInt8.toNat_toUInt16, Nat.shiftLeft_eq]
    omega
  rw [UInt16.toNat_or, hshift, UInt8.toNat_toUInt16, ← Nat.shiftLeft_add_eq_or_of_lt hlo,
    Nat.shiftLeft_eq]

theorem join16_beBytes (n : UInt16) :
    (n >>> 8).toUInt8.toUInt16 <<< 8 ||| n.toUInt8.toUInt16 = n := by
  have hn := n.toNat_lt
  apply UInt16.toNat_inj.mp
  have h8 : (8 : UInt16).toNat % 16 = 8 := rfl
  rw [join16_toNat, UInt16.toNat_toUInt8, UInt16.toNat_toUInt8, UInt16.toNat_shiftRight, h8,
    Nat.shiftRight_eq_div_pow]
  omega

/-- The low byte taken by a mask. -/
theorem join16_masked (n : UInt16) :
    (n >>> 8).toUInt8.toUInt16 <<< 8 ||| (n &&& 0xFF).toUInt8.toUInt16 = n := by
  have hlow : (n &&& 0xFF).toUInt8 = n.toUInt8 := by
    apply UInt8.toNat_inj.mp
    rw [UInt16.toNat_toUInt8, UInt16.toNat_toUInt8, UInt16.toNat_and]
    have hmask : n.toNat &&& (0xFF : UInt16).toNat = n.toNat % 256 :=
      Nat.and_two_pow_sub_one_eq_mod n.toNat 8
    rw [hmask, Nat.mod_mod]
  rw [hlow, join16_beBytes]

private theorem or_low {a b m : ℕ} (k : ℕ) (hm : 2 ^ k = m) (hb : b < m) :
    a * m ||| b = a * m + b := by
  subst hm
  rw [← Nat.shiftLeft_eq, Nat.shiftLeft_add_eq_or_of_lt hb]

private theorem join32_nat {a b c d : ℕ} (ha : a < 256) (hb : b < 256) (hc : c < 256)
    (hd : d < 256) : a * 16777216 % 4294967296 ||| b * 65536 % 4294967296 |||
      c * 256 % 4294967296 ||| d = ((a * 256 + b) * 256 + c) * 256 + d := by
  have hab : a * 16777216 + b * 65536 = (a * 256 + b) * 65536 := by
    simp only [Nat.add_mul, Nat.mul_assoc, Nat.reduceMul]
  have habc : (a * 256 + b) * 65536 + c * 256 = ((a * 256 + b) * 256 + c) * 256 := by
    simp only [Nat.add_mul, Nat.mul_assoc, Nat.reduceMul]
  rw [Nat.mod_eq_of_lt (by omega : a * 16777216 < 4294967296),
    Nat.mod_eq_of_lt (by omega : b * 65536 < 4294967296),
    Nat.mod_eq_of_lt (by omega : c * 256 < 4294967296), or_low 24 (by norm_num) (by omega), hab,
    or_low 16 (by norm_num) (by omega), habc, or_low 8 (by norm_num) hd]

/-- A `u32` from the bytes of `n.to_be_bytes()`. -/
theorem join32_beBytes (n : UInt32) :
    (n >>> 24).toUInt8.toUInt32 <<< 24 ||| (n >>> 16).toUInt8.toUInt32 <<< 16 |||
      (n >>> 8).toUInt8.toUInt32 <<< 8 ||| n.toUInt8.toUInt32 = n := by
  have hn : n.toNat < 4294967296 := n.toNat_lt
  apply UInt32.toNat_inj.mp
  simp only [UInt32.toNat_or, UInt32.toNat_shiftLeft, UInt8.toNat_toUInt32, UInt32.toNat_toUInt8,
    UInt32.toNat_shiftRight, Nat.shiftRight_eq_div_pow, Nat.shiftLeft_eq, UInt32.reduceToNat,
    Nat.reduceMod, Nat.reducePow]
  have hbyte : ∀ x, x % 256 < 256 := fun x => Nat.mod_lt x (by decide)
  rw [join32_nat (hbyte _) (hbyte _) (hbyte _) (hbyte _)]
  omega
/-- The `k` lowest bytes of `n`, least significant first, as `n.to_le_bytes()` gives them. -/
def leBytes : (k n : ℕ) → Bytes
  | 0, _ => []
  | k + 1, n => .ofNat n :: leBytes k (n / 256)

def leNat : Bytes → ℕ
  | [] => 0
  | b :: rest => b.toNat + 256 * leNat rest

@[simp] theorem leBytes_length (k n : ℕ) : (leBytes k n).length = k := by
  induction k generalizing n with
  | zero => rfl
  | succ k ih => simp [leBytes, ih]

theorem leNat_leBytes (k n : ℕ) : leNat (leBytes k n) = n % 256 ^ k := by
  induction k generalizing n with
  | zero => simp [leBytes, leNat, Nat.mod_one]
  | succ k ih =>
    have hbyte : (UInt8.ofNat n).toNat = n % 256 := UInt8.toNat_ofNat'
    rw [leBytes, leNat, ih, hbyte, pow_succ, Nat.mul_comm (256 ^ k), Nat.mod_mul]

end Adwarden
