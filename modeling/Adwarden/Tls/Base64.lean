import Adwarden.Lib.Base64
import Adwarden.Rust.Utf8
import Adwarden.Tls.DohQuery

/-! The base64 codecs of the interception crate: the encoder of captured bodies, the decoder of PEM
bodies and the decoder of DoH queries. -/
namespace Adwarden.Tls
open Lib.Base64

def base64Alphabet : Bytes :=
  ascii "ABCDEFGHIJKLMNOPQRSTUVWXYZabcdefghijklmnopqrstuvwxyz0123456789+/"

def base64Digit (n : UInt32) : UInt8 := base64Alphabet.getD n.toNat 0

/-- The four characters of a chunk of at most three bytes. -/
def base64Chunk (chunk : Bytes) : Bytes :=
  let b0 := (chunk.getD 0 0).toUInt32
  let b1 := (chunk.getD 1 0).toUInt32
  let b2 := (chunk.getD 2 0).toUInt32
  let n := b0 <<< 16 ||| b1 <<< 8 ||| b2
  [base64Digit (n >>> 18 &&& 63), base64Digit (n >>> 12 &&& 63),
    if 1 < chunk.length then base64Digit (n >>> 6 &&& 63) else 61,
    if 2 < chunk.length then base64Digit (n &&& 63) else 61]

/-- Standard-alphabet base64 without line breaks. -/
def base64Encode : Bytes → Bytes
  | [] => []
  | [b0] => base64Chunk [b0]
  | [b0, b1] => base64Chunk [b0, b1]
  | b0 :: b1 :: b2 :: rest => base64Chunk [b0, b1, b2] ++ base64Encode rest

def base64Val (c : UInt8) : Option UInt32 :=
  if 65 ≤ c ∧ c ≤ 90 then some (c - 65).toUInt32
  else if 97 ≤ c ∧ c ≤ 122 then some (c - 97 + 26).toUInt32
  else if 48 ≤ c ∧ c ≤ 57 then some (c - 48 + 52).toUInt32
  else if c = 43 then some 62
  else if c = 47 then some 63
  else none

def base64Loop : Bytes → UInt32 → UInt32 → Option Bytes
  | [], _, _ => some []
  | c :: rest, acc, bits =>
    if c = 61 ∨ isAsciiWhitespace c then base64Loop rest acc bits
    else do
      let v ← base64Val c
      let acc := acc <<< 6 ||| v
      let bits := bits + 6
      if 8 ≤ bits then
        let out ← base64Loop rest acc (bits - 8)
        some ((acc >>> (bits - 8)).toUInt8 :: out)
      else base64Loop rest acc bits

/-- The decoder of PEM bodies. -/
def base64Decode (input : Str) : Option Bytes := base64Loop (Str.toBytes input) 0 0

/-- What both decoders read off the groups. -/
def collectOctets : List (Fin 64) → UInt32 → UInt32 → Bytes
  | [], _, _ => []
  | v :: vs, acc, bits =>
    let acc := acc <<< 6 ||| UInt32.ofNat v
    let bits := bits + 6
    if 8 ≤ bits then (acc >>> (bits - 8)).toUInt8 :: collectOctets vs acc (bits - 8)
    else collectOctets vs acc bits

theorem b64urlLoop_map (vs : List (Fin 64)) (acc bits : UInt32) :
    b64urlLoop (vs.map urlSafe) acc bits = some (collectOctets vs acc bits) := by
  have hval : ∀ v : Fin 64, b64urlVal (urlSafe v) = some (UInt32.ofNat v) := by decide
  induction vs generalizing acc bits with
  | nil => rfl
  | cons v vs ih =>
    simp only [List.map_cons, b64urlLoop, hval, collectOctets, Option.bind_eq_bind,
      Option.bind_some, ih]
    split_ifs <;> rfl

theorem base64Loop_map (vs : List (Fin 64)) (acc bits : UInt32) :
    base64Loop (vs.map standard) acc bits = some (collectOctets vs acc bits) := by
  have hval : ∀ v : Fin 64, base64Val (standard v) = some (UInt32.ofNat v) ∧
      ¬(standard v = 61 ∨ isAsciiWhitespace (standard v)) := by decide
  induction vs generalizing acc bits with
  | nil => rfl
  | cons v vs ih =>
    simp only [List.map_cons, base64Loop, if_neg (hval v).2, (hval v).1, collectOctets,
      Option.bind_eq_bind, Option.bind_some, ih]
    split_ifs <;> rfl

/-- Padding and white space are passed over. -/
theorem base64Loop_filter (p : UInt8 → Bool)
    (hp : ∀ c, p c = false → c = 61 ∨ isAsciiWhitespace c = true) (text : Bytes)
    (acc bits : UInt32) : base64Loop (text.filter p) acc bits = base64Loop text acc bits := by
  induction text generalizing acc bits with
  | nil => rfl
  | cons c text ih =>
    cases hc : p c with
    | false => rw [List.filter_cons_of_neg (by simp [hc]), ih, base64Loop, if_pos (hp c hc)]
    | true =>
      rw [List.filter_cons_of_pos hc]
      simp only [base64Loop, ih]

theorem shifted_in (acc : UInt32) (v : Fin 64) {k : ℕ} (hk : k ≤ 26) :
    bits (k + 6) (acc <<< 6 ||| UInt32.ofNat v).toNat = bits k acc.toNat ++ bits 6 v := by
  have hv : (UInt32.ofNat v).toNat = v := by
    rw [UInt32.toNat_ofNat']
    omega
  have hacc : (acc <<< 6).toNat = (acc.toNat % 2 ^ 26) * 2 ^ 6 := by
    rw [UInt32.toNat_shiftLeft]
    change acc.toNat <<< 6 % 2 ^ 32 = _
    rw [Nat.shiftLeft_eq]
    omega
  have hor : (acc <<< 6 ||| UInt32.ofNat v).toNat = (acc.toNat % 2 ^ 26) * 2 ^ 6 + v := by
    rw [UInt32.toNat_or, hacc, hv, ← Nat.shiftLeft_eq, Nat.shiftLeft_add_eq_or_of_lt v.isLt]
  rw [bits_add, hor]
  congr 1
  · rw [bits_eq_iff, show (acc.toNat % 2 ^ 26 * 2 ^ 6 + v) / 2 ^ 6 = acc.toNat % 2 ^ 26 by omega]
    exact Nat.mod_mod_of_dvd _ (Nat.pow_dvd_pow 2 hk)
  · rw [bits_eq_iff]
    omega

theorem shifted_out (acc : UInt32) {k : UInt32} (hk : k.toNat < 32) :
    bits (8 + k.toNat) acc.toNat =
      bits 8 (acc >>> k).toUInt8.toNat ++ bits k.toNat acc.toNat := by
  rw [bits_add]
  congr 1
  rw [bits_eq_iff, UInt32.toNat_toUInt8, UInt32.toNat_shiftRight, Nat.mod_eq_of_lt hk,
    Nat.shiftRight_eq_div_pow, Nat.mod_mod]

/-- The octets are the bits of the groups, less than eight of them left over. -/
theorem collectOctets_bits (vs : List (Fin 64)) {acc k : UInt32} (hk : k.toNat < 8) :
    ∃ rest, rest.length < 8 ∧
      octets (collectOctets vs acc k) ++ rest = bits k.toNat acc.toNat ++ sextets vs := by
  induction vs generalizing acc k with
  | nil =>
    refine ⟨bits k.toNat acc.toNat, by simpa using hk, ?_⟩
    simp [collectOctets, octets, sextets]
  | cons v vs ih =>
    have hsix : (k + 6).toNat = k.toNat + 6 := by
      rw [UInt32.toNat_add]
      change (k.toNat + 6) % 2 ^ 32 = _
      omega
    have hin := @shifted_in acc v k.toNat (by omega)
    simp only [collectOctets]
    split_ifs with h8
    · have h8' : 8 ≤ k.toNat + 6 := by
        have h := UInt32.le_iff_toNat_le.mp h8
        rw [hsix] at h
        exact h
      have hsub : (k + 6 - 8).toNat = k.toNat + 6 - 8 := by
        rw [UInt32.toNat_sub_of_le _ _ h8, hsix]
        rfl
      obtain ⟨rest, hrest, hbits⟩ := @ih (acc <<< 6 ||| UInt32.ofNat v) (k + 6 - 8) (by omega)
      refine ⟨rest, hrest, ?_⟩
      have hout := @shifted_out (acc <<< 6 ||| UInt32.ofNat v) (k + 6 - 8) (by omega)
      rw [octets_cons, List.append_assoc, hbits, ← List.append_assoc, ← hout, hsub,
        show 8 + (k.toNat + 6 - 8) = k.toNat + 6 by omega, hin, sextets_cons, List.append_assoc]
    · have h8' : k.toNat + 6 < 8 := by
        have h := UInt32.lt_iff_toNat_lt.mp (UInt32.not_le.mp h8)
        rw [hsix] at h
        exact h
      obtain ⟨rest, hrest, hbits⟩ := @ih (acc <<< 6 ||| UInt32.ofNat v) (k + 6) (by omega)
      refine ⟨rest, hrest, ?_⟩
      rw [hbits, hsix, hin, sextets_cons, List.append_assoc]

theorem collectOctets_grouped {x : Bytes} {vs : List (Fin 64)} (h : Grouped x vs) :
    collectOctets vs 0 0 = x := by
  obtain ⟨rest, hrest, hbits⟩ := @collectOctets_bits vs 0 0 (by decide)
  exact h.decoded hrest hbits

theorem base64Decode_encodes {x text : Bytes} (h : Encodes standard x text) {s : Str}
    (hs : (Str.toBytes s).filter (fun c => !isAsciiWhitespace c) = text) :
    base64Decode s = some x := by
  obtain ⟨vs, p, hvs, -, -, rfl⟩ := h
  have hdigit : ∀ v : Fin 64, standard v ≠ 61 := by decide
  have hkeep : (vs.map standard).filter (fun c => c != 61) = vs.map standard := by
    apply List.filter_eq_self.mpr
    intro c hc
    obtain ⟨v, -, rfl⟩ := List.mem_map.mp hc
    exact bne_iff_ne.mpr (hdigit v)
  have hdrop : (List.replicate p pad).filter (fun c => c != 61) = [] := by
    apply List.filter_eq_nil_iff.mpr
    intro c hc
    rw [List.eq_of_mem_replicate hc]
    decide
  have hpad := base64Loop_filter (fun c => c != 61)
    (fun c hc => Or.inl (by simpa using hc)) (vs.map standard ++ List.replicate p pad) 0 0
  have hblank := base64Loop_filter (fun c => !isAsciiWhitespace c)
    (fun c hc => Or.inr (by simpa using hc)) (Str.toBytes s) 0 0
  rw [base64Decode, ← hblank, hs, ← hpad, List.filter_append, hkeep, hdrop, List.append_nil,
    base64Loop_map, collectOctets_grouped hvs]

private theorem urlSafe_ascii (v : Fin 64) :
    urlSafe v < 0x80 ∧ Char.ofNat (urlSafe v).toNat ≠ '=' := by
  revert v
  decide

/-- The decoder of DoH queries, on an encoding with or without padding. -/
theorem b64urlDecode_grouped {x : Bytes} {vs : List (Fin 64)} (h : Grouped x vs) (hx : x ≠ [])
    {s : Str} {p : ℕ} (hs : Str.toBytes s = vs.map urlSafe ++ List.replicate p pad) :
    b64urlDecode s = some x := by
  have hdigits : IsAscii (vs.map urlSafe) := by
    intro c hc
    obtain ⟨v, -, rfl⟩ := List.mem_map.mp hc
    exact (urlSafe_ascii v).1
  have hpads : IsAscii (List.replicate p pad) := by
    intro c hc
    rw [List.eq_of_mem_replicate hc]
    decide
  have hascii : IsAscii (vs.map urlSafe ++ List.replicate p pad) := by
    intro c hc
    rcases List.mem_append.mp hc with hc | hc
    · exact hdigits c hc
    · exact hpads c hc
  have hstr : s = asciiStr (vs.map urlSafe) ++ List.replicate p '=' := by
    have hof := Str.fromUtf8_ascii hascii
    rw [← hs, Str.fromUtf8_toBytes, hs, Str.asciiStr_append] at hof
    rw [Option.some.inj hof]
    congr 1
    rw [asciiStr, List.map_replicate]
    rfl
  have hlast : ∀ c ∈ (asciiStr (vs.map urlSafe)).reverse.head?, (c == '=') = false := by
    intro c hc
    have hmem := List.mem_reverse.mp (List.mem_of_mem_head? hc)
    rw [asciiStr, List.map_map] at hmem
    obtain ⟨v, -, rfl⟩ := List.mem_map.mp hmem
    exact beq_eq_false_iff_ne.mpr (urlSafe_ascii v).2
  have htrim : (s.reverse.dropWhile fun c => c == '=').reverse = asciiStr (vs.map urlSafe) := by
    rw [hstr, List.reverse_append, List.reverse_replicate, List.dropWhile_append_of_pos,
      Str.dropWhile_of_head hlast, List.reverse_reverse]
    intro c hc
    rw [List.eq_of_mem_replicate hc]
    rfl
  have hne : asciiStr (vs.map urlSafe) ≠ [] := by
    rw [asciiStr, ne_eq, List.map_eq_nil_iff, List.map_eq_nil_iff]
    exact h.ne_nil hx
  have hbytes := Str.toBytes_of_fromUtf8 (Str.fromUtf8_ascii hdigits)
  rw [b64urlDecode]
  simp only [htrim, if_neg hne]
  rw [hbytes, b64urlLoop_map, collectOctets_grouped h]

private theorem base64Digit_eq {n : UInt32} {v : Fin 64} (h : n.toNat = v) :
    base64Digit n = standard v := by
  have key : ∀ v : Fin 64, base64Alphabet.getD v 0 = standard v := by decide +kernel
  rw [base64Digit, h, key]

private theorem base64Chunk_toNat (a b c : UInt8) :
    (a.toUInt32 <<< 16 ||| b.toUInt32 <<< 8 ||| c.toUInt32).toNat =
      a.toNat * 65536 + b.toNat * 256 + c.toNat := by
  have ha := a.toNat_lt
  have hb := b.toNat_lt
  have hc := c.toNat_lt
  have hhi : (a.toUInt32 <<< 16).toNat = a.toNat <<< 8 <<< 8 := by
    rw [UInt32.toNat_shiftLeft, UInt8.toNat_toUInt32]
    change a.toNat <<< 16 % 2 ^ 32 = _
    rw [Nat.shiftLeft_eq, Nat.shiftLeft_eq, Nat.shiftLeft_eq]
    omega
  have hmid : (b.toUInt32 <<< 8).toNat = b.toNat <<< 8 := by
    rw [UInt32.toNat_shiftLeft, UInt8.toNat_toUInt32]
    change b.toNat <<< 8 % 2 ^ 32 = _
    rw [Nat.shiftLeft_eq]
    omega
  rw [UInt32.toNat_or, UInt32.toNat_or, hhi, hmid, UInt8.toNat_toUInt32,
    ← Nat.shiftLeft_or_distrib, ← Nat.shiftLeft_add_eq_or_of_lt hb,
    ← Nat.shiftLeft_add_eq_or_of_lt hc, Nat.shiftLeft_eq, Nat.shiftLeft_eq]
  omega

private theorem sixBits_toNat (n : UInt32) {k : UInt32} (hk : k.toNat < 32) :
    (n >>> k &&& 63).toNat = n.toNat / 2 ^ k.toNat % 64 := by
  rw [UInt32.toNat_and, UInt32.toNat_shiftRight, Nat.mod_eq_of_lt hk, Nat.shiftRight_eq_div_pow]
  exact Nat.and_two_pow_sub_one_eq_mod _ 6

theorem base64Chunk_three (a b c : UInt8) :
    base64Chunk [a, b, c] =
      [standard (first a), standard (second a b), standard (third b c), standard (fourth c)] := by
  have ha := a.toNat_lt
  have hb := b.toNat_lt
  have hc := c.toNat_lt
  have hn := base64Chunk_toNat a b c
  simp only [base64Chunk, List.getD_cons_zero, List.getD_cons_succ, List.length_cons,
    List.length_nil]
  generalize a.toUInt32 <<< 16 ||| b.toUInt32 <<< 8 ||| c.toUInt32 = n at hn ⊢
  have h1 : base64Digit (n >>> 18 &&& 63) = standard (first a) :=
    base64Digit_eq (by rw [sixBits_toNat n (by decide), hn]; simp [first]; omega)
  have h2 : base64Digit (n >>> 12 &&& 63) = standard (second a b) :=
    base64Digit_eq (by rw [sixBits_toNat n (by decide), hn]; simp [second]; omega)
  have h3 : base64Digit (n >>> 6 &&& 63) = standard (third b c) :=
    base64Digit_eq (by rw [sixBits_toNat n (by decide), hn]; simp [third]; omega)
  have h4 : base64Digit (n &&& 63) = standard (fourth c) := by
    have h := @sixBits_toNat n 0 (by decide)
    rw [UInt32.shiftRight_zero] at h
    exact base64Digit_eq (by rw [h, hn]; simp [fourth]; omega)
  rw [h1, h2, h3, h4]
  rfl

/-- A shorter chunk is one filled up with zeros, whose last characters are the padding. -/
private theorem base64Chunk_short (a b : UInt8) :
    base64Chunk [a] = (base64Chunk [a, 0, 0]).take 2 ++ [pad, pad] ∧
      base64Chunk [a, b] = (base64Chunk [a, b, 0]).take 3 ++ [pad] := ⟨rfl, rfl⟩

theorem base64Encode_encodes (x : Bytes) : Encodes standard x (base64Encode x) := by
  induction x using base64Encode.induct with
  | case1 => exact .nil standard
  | case2 a =>
    rw [base64Encode, (base64Chunk_short a 0).1, base64Chunk_three]
    exact .one standard a
  | case3 a b =>
    rw [base64Encode, (base64Chunk_short a b).2, base64Chunk_three]
    exact .two standard a b
  | case4 a b c x ih =>
    rw [base64Encode, base64Chunk_three]
    exact ih.three a b c

end Adwarden.Tls
