import Adwarden.Core.Proxy
import Adwarden.Tls.Pem

/-! The base64 of proxy credentials, and the agreement of the encoders and decoders. -/
namespace Adwarden.Core
open Lib.Base64

private theorem base64Char_eq {i : UInt8} {v : Fin 64} (h : i.toNat = v) :
    base64Char i = standard v := by
  have key : ∀ v : Fin 64, base64Table.getD v 0 = standard v := by decide +kernel
  rw [base64Char, h, key]

private theorem low_toNat (b : UInt8) {m : UInt8} {k : ℕ} (hm : m.toNat = 2 ^ k - 1) :
    (b &&& m).toNat = b.toNat % 2 ^ k := by
  rw [UInt8.toNat_and, hm, Nat.and_two_pow_sub_one_eq_mod]

private theorem high_toNat (b : UInt8) {k : UInt8} (hk : k.toNat < 8) :
    (b >>> k).toNat = b.toNat / 2 ^ k.toNat := by
  rw [UInt8.toNat_shiftRight, Nat.mod_eq_of_lt hk, Nat.shiftRight_eq_div_pow]

private theorem joined_toNat {a b : UInt8} {w k : ℕ} {s : UInt8} (hs : s.toNat = w) (hw : w < 8)
    (ha : a.toNat < 2 ^ k) (hk : k + w ≤ 8) (hb : b.toNat < 2 ^ w) :
    (a <<< s ||| b).toNat = a.toNat * 2 ^ w + b.toNat := by
  have hlt : a.toNat * 2 ^ w < 2 ^ 8 := by
    calc a.toNat * 2 ^ w < 2 ^ k * 2 ^ w := Nat.mul_lt_mul_of_pos_right ha (Nat.two_pow_pos w)
      _ = 2 ^ (k + w) := (Nat.pow_add 2 k w).symm
      _ ≤ 2 ^ 8 := Nat.pow_le_pow_right (by omega) hk
  have hshift : (a <<< s).toNat = a.toNat <<< w := by
    rw [UInt8.toNat_shiftLeft, hs, Nat.mod_eq_of_lt hw, Nat.shiftLeft_eq, Nat.mod_eq_of_lt hlt]
  rw [UInt8.toNat_or, hshift, ← Nat.shiftLeft_add_eq_or_of_lt hb, Nat.shiftLeft_eq]

theorem base64Char_first (a : UInt8) : base64Char (a >>> 2) = standard (first a) :=
  base64Char_eq (by rw [high_toNat a (by decide)]; rfl)

theorem base64Char_second (a b : UInt8) :
    base64Char ((a &&& 0x03) <<< 4 ||| b >>> 4) = standard (second a b) := by
  have hb := b.toNat_lt
  have hlow := @low_toNat a 0x03 2 rfl
  have hhigh := @high_toNat b 4 (by decide)
  have h := @joined_toNat (a &&& 0x03) (b >>> 4) 4 2 4 rfl (by omega) (by omega) (by omega)
    (by rw [hhigh]; change b.toNat / 2 ^ 4 < 2 ^ 4; omega)
  exact base64Char_eq (by rw [h, hlow, hhigh]; rfl)

theorem base64Char_third (b c : UInt8) :
    base64Char ((b &&& 0x0F) <<< 2 ||| c >>> 6) = standard (third b c) := by
  have hc := c.toNat_lt
  have hlow := @low_toNat b 0x0F 4 rfl
  have hhigh := @high_toNat c 6 (by decide)
  have h := @joined_toNat (b &&& 0x0F) (c >>> 6) 2 4 2 rfl (by omega) (by omega) (by omega)
    (by rw [hhigh]; change c.toNat / 2 ^ 6 < 2 ^ 2; omega)
  exact base64Char_eq (by rw [h, hlow, hhigh]; rfl)

theorem base64Char_fourth (c : UInt8) : base64Char (c &&& 0x3F) = standard (fourth c) :=
  base64Char_eq (@low_toNat c 0x3F 6 rfl)

theorem base64Encode_encodes (x : Bytes) : Encodes standard x (base64Encode x) := by
  induction x using base64Encode.induct with
  | case1 => exact .nil standard
  | case2 a =>
    have hlast := base64Char_second a 0
    rw [UInt8.zero_shiftRight, UInt8.or_zero] at hlast
    rw [base64Encode, base64Char_first, hlast]
    exact .one standard a
  | case3 a b =>
    have hlast := base64Char_third b 0
    rw [UInt8.zero_shiftRight, UInt8.or_zero] at hlast
    rw [base64Encode, base64Char_first, base64Char_second, hlast]
    exact .two standard a b
  | case4 a b c x ih =>
    rw [base64Encode, base64Char_first, base64Char_second, base64Char_third, base64Char_fourth]
    exact ih.three a b c

/-- The two encoders write the standard encoding, and the decoders read the data back: over lines
and white space, out of a PEM text, and in the URL-safe alphabet with padding or without. -/
theorem base64_agree (x : Bytes) :
    Tls.base64Encode x = base64Encode x ∧
      (∀ text, Encodes standard x text ↔ text = Tls.base64Encode x) ∧
      (∀ s : Str, (Str.toBytes s).filter (fun c => !isAsciiWhitespace c) = Tls.base64Encode x →
        Tls.base64Decode s = some x) ∧
      (x ≠ [] → ∀ (body : List Str) (rest : Str),
        Tls.significant body.flatten = Tls.base64Encode x → (∀ line ∈ body, '\n' ∉ line) →
        Tls.pemToDer (Tls.beginMarker ++ '\n' ::
          (body.flatMap (fun line => line ++ ['\n']) ++ (Tls.endMarker ++ '\n' :: rest))) =
            some x) ∧
      (∃! text, EncodesUnpadded urlSafe x text) ∧ (∃! text, Encodes urlSafe x text) ∧
      (x ≠ [] → ∀ s : Str,
        EncodesUnpadded urlSafe x (Str.toBytes s) ∨ Encodes urlSafe x (Str.toBytes s) →
        Tls.b64urlDecode s = some x) := by
  have henc := Tls.base64Encode_encodes x
  refine ⟨henc.unique (base64Encode_encodes x), ?_, ?_, ?_, encodesUnpadded_existsUnique urlSafe x,
    encodes_existsUnique urlSafe x, ?_⟩
  · intro text
    constructor
    · intro h
      exact h.unique henc
    · rintro rfl
      exact henc
  · intro s hs
    exact Tls.base64Decode_encodes henc hs
  · intro hx body rest hbody hlf
    exact Tls.pemToDer_lines hx (hbody ▸ henc) hlf rest
  · rintro hx s (⟨vs, hvs, hs⟩ | ⟨vs, p, hvs, -, -, hs⟩)
    · have hs' : Str.toBytes s = vs.map urlSafe ++ List.replicate 0 pad := by
        rw [hs, List.replicate_zero, List.append_nil]
      exact Tls.b64urlDecode_grouped hvs hx hs'
    · exact Tls.b64urlDecode_grouped hvs hx hs

theorem base64_agree_two_bytes :
    base64Encode [0xFB, 0xFF] = ascii "+/8=" ∧
      Tls.base64Decode (Str.lit "+/\r\n8=\n") = some [0xFB, 0xFF] ∧
      Tls.pemToDer (Str.lit
        "-----BEGIN CERTIFICATE-----\n+/\n8=\n-----END CERTIFICATE-----\n") =
          some [0xFB, 0xFF] ∧
      Tls.b64urlDecode (Str.lit "-_8") = some [0xFB, 0xFF] ∧
      Tls.b64urlDecode (Str.lit "-_8=") = some [0xFB, 0xFF] := by
  have hgroups : Grouped [0xFB, 0xFF] [62, 63, 60] := .two 0xFB 0xFF
  obtain ⟨hsame, hstandard, hdecode, hpem, -, -, hurl⟩ := base64_agree [0xFB, 0xFF]
  refine ⟨?_, ?_, ?_, ?_, ?_⟩
  · have htext := (hstandard (ascii "+/8=")).mp
      ⟨_, 1, hgroups, by decide, by decide, by decide +kernel⟩
    exact hsame.symm.trans htext.symm
  · exact hdecode _ (by decide +kernel)
  · exact hpem (by decide) [Str.lit "+/", Str.lit "8="] [] (by decide +kernel) (by decide +kernel)
  · exact hurl (by decide) _ (.inl ⟨_, hgroups, by decide +kernel⟩)
  · exact hurl (by decide) _ (.inr ⟨_, 1, hgroups, by decide, by decide, by decide +kernel⟩)

end Adwarden.Core
