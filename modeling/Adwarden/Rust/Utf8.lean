import Adwarden.Rust.Ascii

/-! Strings as UTF-8 and back. -/
namespace Adwarden.Str

section Decode

variable {b c d e : UInt8} {n : ℕ}

private theorem decodeStep_two (hb : b.toNat = n / 64 % 32 + 0xc0) (hc : c.toNat = n % 64 + 0x80)
    (h1 : ¬ n ≤ 0x7f) (h2 : n ≤ 0x7ff) (x : Bytes) :
    decodeStep b (c :: x) = (some (Char.ofNat n), 1) := by
  simp only [decodeStep, contByte, UInt8.lt_iff_toNat_lt, UInt8.le_iff_toNat_le, UInt8.reduceToNat,
    hb, hc, Bool.and_eq_true, decide_eq_true_eq]
  rw [if_neg (by omega), if_pos (by omega), if_pos (by omega)]
  have hn : (n / 64 % 32 + 0xc0) % 32 * 64 + (n % 64 + 0x80) % 64 = n := by omega
  rw [hn]

private theorem decodeStep_three (hb : b.toNat = n / 4096 % 16 + 0xe0)
    (hc : c.toNat = n / 64 % 64 + 0x80) (hd : d.toNat = n % 64 + 0x80) (h1 : ¬ n ≤ 0x7ff)
    (h2 : n ≤ 0xffff) (hv : n < 0xd800 ∨ 0xdfff < n) (x : Bytes) :
    decodeStep b (c :: d :: x) = (some (Char.ofNat n), 2) := by
  simp only [decodeStep, contByte, UInt8.lt_iff_toNat_lt, UInt8.le_iff_toNat_le, UInt8.reduceToNat,
    ← UInt8.toNat_inj, hb, hc, hd, Bool.and_eq_true, Bool.and_eq_false_iff, decide_eq_true_eq,
    decide_eq_false_iff_not]
  rw [if_neg (by omega), if_neg (by omega), if_pos (by omega), if_neg (by omega), if_pos (by omega)]
  have hn : (n / 4096 % 16 + 0xe0) % 16 * 4096 + (n / 64 % 64 + 0x80) % 64 * 64 +
      (n % 64 + 0x80) % 64 = n := by omega
  rw [hn]

private theorem decodeStep_four (hb : b.toNat = n / 262144 % 8 + 0xf0)
    (hc : c.toNat = n / 4096 % 64 + 0x80) (hd : d.toNat = n / 64 % 64 + 0x80)
    (he : e.toNat = n % 64 + 0x80) (h1 : ¬ n ≤ 0xffff) (h2 : n < 0x110000) (x : Bytes) :
    decodeStep b (c :: d :: e :: x) = (some (Char.ofNat n), 3) := by
  simp only [decodeStep, contByte, UInt8.lt_iff_toNat_lt, UInt8.le_iff_toNat_le, UInt8.reduceToNat,
    ← UInt8.toNat_inj, hb, hc, hd, he, Bool.and_eq_true, Bool.and_eq_false_iff, decide_eq_true_eq,
    decide_eq_false_iff_not]
  rw [if_neg (by omega), if_neg (by omega), if_neg (by omega), if_pos (by omega),
    if_neg (by omega), if_pos (by omega), if_pos (by omega)]
  have hn : (n / 262144 % 8 + 0xf0) % 8 * 262144 + (n / 4096 % 64 + 0x80) % 64 * 4096 +
      (n / 64 % 64 + 0x80) % 64 * 64 + (n % 64 + 0x80) % 64 = n := by omega
  rw [hn]

end Decode

theorem toNat_ofNat_lt {n : ℕ} (h : n < 256) : (UInt8.ofNat n).toNat = n := by
  simp [Nat.mod_eq_of_lt h]

theorem ofNat_val {n : ℕ} (hv : n < 0xd800 ∨ (0xdfff < n ∧ n < 0x110000)) :
    (Char.ofNat n).val.toNat = n := by
  have hn : n.isValidChar := hv
  rw [Char.ofNat, dif_pos hn]
  rfl

private theorem byte_eq {n : ℕ} (b : UInt8) (h : n = b.toNat) : UInt8.ofNat n = b := by
  rw [h, UInt8.ofNat_toNat]

/-- A decoded scalar value is encoded by the bytes it was decoded from. -/
theorem encode_decodeStep {b : UInt8} {rest : Bytes} {c : Char} {k : ℕ}
    (h : decodeStep b rest = (some c, k)) : String.utf8EncodeChar c = b :: rest.take k := by
  have hlt := b.toNat_lt
  simp only [decodeStep, contByte, UInt8.lt_iff_toNat_lt, UInt8.le_iff_toNat_le, UInt8.reduceToNat,
    ← UInt8.toNat_inj, Bool.and_eq_true, Bool.and_eq_false_iff, decide_eq_true_eq,
    decide_eq_false_iff_not] at h
  split_ifs at h with h1 h2 h3 h4
  · obtain ⟨hc, rfl⟩ := Prod.mk.inj h
    obtain rfl := Option.some.inj hc
    have hval := @ofNat_val (b.toNat) (by omega)
    unfold String.utf8EncodeChar
    rw [hval, if_pos (by omega), byte_eq b rfl, List.take_zero]
  · cases rest with
    | nil => cases h
    | cons c1 rest =>
      dsimp only at h
      split_ifs at h with hcont
      · obtain ⟨hc, rfl⟩ := Prod.mk.inj h
        obtain rfl := Option.some.inj hc
        have hval := @ofNat_val (b.toNat % 32 * 64 + c1.toNat % 64) (by omega)
        unfold String.utf8EncodeChar
        rw [hval, if_neg (by omega), if_pos (by omega), byte_eq b (by omega), byte_eq c1 (by omega)]
        rfl
      · cases h
  · rcases rest with _ | ⟨c1, _ | ⟨c2, rest⟩⟩
    · cases h
    · dsimp only at h
      split_ifs at h
      · cases h
      · cases h
    · dsimp only at h
      split_ifs at h with hbad hcont
      · cases h
      · obtain ⟨hc, rfl⟩ := Prod.mk.inj h
        obtain rfl := Option.some.inj hc
        have hval := @ofNat_val (b.toNat % 16 * 4096 + c1.toNat % 64 * 64 + c2.toNat % 64)
          (by omega)
        unfold String.utf8EncodeChar
        rw [hval, if_neg (by omega), if_neg (by omega), if_pos (by omega), byte_eq b (by omega),
          byte_eq c1 (by omega), byte_eq c2 (by omega)]
        rfl
      · cases h
  · rcases rest with _ | ⟨c1, _ | ⟨c2, _ | ⟨c3, rest⟩⟩⟩
    · cases h
    · dsimp only at h
      split_ifs at h
      · cases h
      · cases h
    · dsimp only at h
      split_ifs at h
      · cases h
      · cases h
      · cases h
    · dsimp only at h
      split_ifs at h with hbad hcont hcont'
      · cases h
      · obtain ⟨hc, rfl⟩ := Prod.mk.inj h
        obtain rfl := Option.some.inj hc
        have hval := @ofNat_val (b.toNat % 8 * 262144 + c1.toNat % 64 * 4096 +
          c2.toNat % 64 * 64 + c3.toNat % 64) (by omega)
        unfold String.utf8EncodeChar
        rw [hval, if_neg (by omega), if_neg (by omega), if_neg (by omega), byte_eq b (by omega),
          byte_eq c1 (by omega), byte_eq c2 (by omega), byte_eq c3 (by omega)]
        rfl
      · cases h
      · cases h
  · cases h

/-- The front of an encoded string is read back as its first character. -/
theorem decodeStep_encode (c : Char) : ∃ b rest, String.utf8EncodeChar c = b :: rest ∧
    ∀ x, decodeStep b (rest ++ x) = (some c, rest.length) := by
  have hc : Char.ofNat c.val.toNat = c := Char.ofNat_toNat c
  have hv : c.val.toNat < 0xd800 ∨ (0xdfff < c.val.toNat ∧ c.val.toNat < 0x110000) := c.valid
  unfold String.utf8EncodeChar
  generalize c.val.toNat = n at hc hv
  dsimp only
  split_ifs with h1 h2 h3
  · refine ⟨_, _, rfl, fun x => ?_⟩
    have hb := toNat_ofNat_lt (show n < 256 by omega)
    have hlt : UInt8.ofNat n < 0x80 := by
      rw [UInt8.lt_iff_toNat_lt, hb]
      exact Nat.lt_of_le_of_lt h1 (by decide)
    rw [decodeStep_ascii hlt, hb, hc]
    rfl
  · refine ⟨_, _, rfl, fun x => ?_⟩
    rw [← hc]
    exact decodeStep_two (toNat_ofNat_lt (by omega)) (toNat_ofNat_lt (by omega)) h1 h2 x
  · refine ⟨_, _, rfl, fun x => ?_⟩
    rw [← hc]
    exact decodeStep_three (toNat_ofNat_lt (by omega)) (toNat_ofNat_lt (by omega))
      (toNat_ofNat_lt (by omega)) h2 h3 (by omega) x
  · refine ⟨_, _, rfl, fun x => ?_⟩
    rw [← hc]
    exact decodeStep_four (toNat_ofNat_lt (by omega)) (toNat_ofNat_lt (by omega))
      (toNat_ofNat_lt (by omega)) (toNat_ofNat_lt (by omega)) h3 (by omega) x

theorem toBytes_cons (c : Char) (s : Str) :
    toBytes (c :: s) = String.utf8EncodeChar c ++ toBytes s := rfl

theorem toBytes_append (s t : Str) : toBytes (s ++ t) = toBytes s ++ toBytes t :=
  List.flatMap_append

theorem decodeChunks_encode (s : Str) {n : ℕ} (hn : (toBytes s).length ≤ n) :
    decodeChunks n (toBytes s) = s.map some := by
  induction s generalizing n with
  | nil => cases n <;> rfl
  | cons c s ih =>
    obtain ⟨b, rest, hb, hstep⟩ := decodeStep_encode c
    rw [toBytes_cons, hb] at hn ⊢
    obtain ⟨n, rfl⟩ : ∃ m, n = m + 1 := ⟨n - 1, by simp at hn; omega⟩
    rw [List.cons_append, decodeChunks, hstep, List.drop_left, List.map_cons]
    rw [ih (by simp at hn; omega)]

theorem fromUtf8_toBytes (s : Str) : fromUtf8 (toBytes s) = some s := by
  have h := allSome_map_some s []
  rw [List.append_nil] at h
  rw [fromUtf8, decodeChunks_encode s (Nat.le_refl _), h]
  simp [List.allSome]

theorem fromUtf8Lossy_toBytes (s : Str) : fromUtf8Lossy (toBytes s) = s := by
  rw [fromUtf8Lossy, decodeChunks_encode s (Nat.le_refl _), List.map_map]
  exact List.map_id _

theorem eq_map_of_allSome {α : Type} {l : List (Option α)} {s : List α} (h : l.allSome = some s) :
    l = s.map some := by
  induction l generalizing s with
  | nil =>
    obtain rfl : [] = s := by simpa [List.allSome] using h
    rfl
  | cons x l ih =>
    cases x with
    | none => simp [List.allSome, List.mapM_cons] at h
    | some c =>
      simp only [List.allSome, List.mapM_cons, id, Option.bind_eq_bind, Option.bind_some,
        Option.bind_eq_some_iff, Option.pure_def, Option.some.injEq] at h
      obtain ⟨t, ht, rfl⟩ := h
      rw [ih ht, List.map_cons]

theorem toBytes_of_fromUtf8 {b : Bytes} {s : Str} (h : fromUtf8 b = some s) : toBytes s = b := by
  have key : ∀ (n : ℕ) (b : Bytes) (s : Str), b.length ≤ n → decodeChunks n b = s.map some →
      toBytes s = b := by
    intro n
    induction n with
    | zero =>
      intro b s hn hd
      obtain rfl := List.eq_nil_of_length_eq_zero (Nat.le_zero.mp hn)
      obtain rfl : s = [] := by simpa [decodeChunks] using hd.symm
      rfl
    | succ n ih =>
      intro b s hn hd
      cases b with
      | nil =>
        obtain rfl : s = [] := by simpa [decodeChunks] using hd.symm
        rfl
      | cons x rest =>
        rw [decodeChunks] at hd
        cases s with
        | nil => cases hd
        | cons c s =>
          obtain ⟨hc, hs⟩ := List.cons.inj hd
          have hstep : decodeStep x rest = (some c, (decodeStep x rest).2) := by
            rw [← hc]
          have hlen : (rest.drop (decodeStep x rest).2).length ≤ n := by
            rw [List.length_drop]
            simp only [List.length_cons] at hn
            omega
          rw [toBytes_cons, encode_decodeStep hstep, ih _ s hlen hs, List.cons_append,
            List.take_append_drop]
  exact key b.length b s le_rfl (eq_map_of_allSome h)

theorem fromUtf8Lossy_of_fromUtf8 {b : Bytes} {s : Str} (h : fromUtf8 b = some s) :
    fromUtf8Lossy b = s := by
  rw [fromUtf8Lossy, eq_map_of_allSome h, List.map_map]
  exact List.map_id _

/-- Without the replacement character nothing was replaced. -/
theorem fromUtf8_of_fromUtf8Lossy {b : Bytes} (h : Char.ofNat 0xFFFD ∉ fromUtf8Lossy b) :
    fromUtf8 b = some (fromUtf8Lossy b) := by
  have hall : decodeChunks b.length b = (fromUtf8Lossy b).map some := by
    rw [fromUtf8Lossy, List.map_map]
    refine (List.map_id _).symm.trans (List.map_congr_left ?_)
    intro x hx
    cases x with
    | none => exact absurd (List.mem_map.mpr ⟨none, hx, rfl⟩) h
    | some c => rfl
  have hsome := allSome_map_some (fromUtf8Lossy b) []
  rw [List.append_nil] at hsome
  rw [fromUtf8, hall, hsome]
  simp [List.allSome]

private theorem decodeStep_lf {b : UInt8} {rest : Bytes} (h : (decodeStep b rest).1 = some '\n') :
    b = LF := by
  have hstep : decodeStep b rest = (some '\n', (decodeStep b rest).2) := by rw [← h]
  have henc : [LF] = b :: rest.take (decodeStep b rest).2 := encode_decodeStep hstep
  exact (List.cons.inj henc).1.symm

/-- A line feed in the decoded text was one in the bytes. -/
theorem lf_mem_of_mem_fromUtf8Lossy {b : Bytes} (h : '\n' ∈ fromUtf8Lossy b) : LF ∈ b := by
  obtain ⟨x, hx, hlf⟩ := List.mem_map.mp h
  have hsome : x = some '\n' := by
    cases x with
    | none => exact absurd hlf (by decide)
    | some c => exact congrArg some hlf
  have key : ∀ n : ℕ, ∀ b : Bytes, some '\n' ∈ decodeChunks n b → LF ∈ b := by
    intro n
    induction n with
    | zero => simp [decodeChunks]
    | succ n ih =>
      intro b hm
      cases b with
      | nil => simp [decodeChunks] at hm
      | cons c rest =>
        rw [decodeChunks] at hm
        rcases List.mem_cons.mp hm with hm | hm
        · rw [decodeStep_lf hm.symm]
          exact List.mem_cons_self ..
        · exact List.mem_cons_of_mem _ (List.mem_of_mem_drop (ih _ hm))
  exact key _ b (hsome ▸ hx)

private theorem ascii_ne_ofNat {x : UInt8} (hx : x.toNat < 0x80) {n : ℕ} (hlo : 0x80 ≤ n)
    (hhi : n < 256) : x ≠ UInt8.ofNat n := by
  intro h
  have hn := congrArg UInt8.toNat h
  rw [toNat_ofNat_lt hhi] at hn
  omega

theorem encode_ascii {x : UInt8} (hx : x.toNat < 0x80) :
    String.utf8EncodeChar (Char.ofNat x.toNat) = [x] := by
  have hv := @ofNat_val (x.toNat) (by omega)
  unfold String.utf8EncodeChar
  rw [hv, if_pos (by omega), byte_eq x rfl]

/-- An ASCII byte encodes its own character only. -/
theorem ascii_mem_encode {x : UInt8} (hx : x.toNat < 0x80) {c : Char} :
    x ∈ String.utf8EncodeChar c ↔ c = Char.ofNat x.toNat := by
  constructor
  · intro h
    have hc : Char.ofNat c.val.toNat = c := Char.ofNat_toNat c
    unfold String.utf8EncodeChar at h
    generalize c.val.toNat = n at hc h
    dsimp only at h
    split_ifs at h with h1 h2 h3
    · have hn := congrArg UInt8.toNat (List.mem_singleton.mp h)
      rw [toNat_ofNat_lt (by omega)] at hn
      rw [hn, hc]
    all_goals
      exfalso
      simp only [List.mem_cons, List.not_mem_nil, or_false] at h
    · rcases h with h | h <;> exact ascii_ne_ofNat hx (by omega) (by omega) h
    · rcases h with h | h | h <;> exact ascii_ne_ofNat hx (by omega) (by omega) h
    · rcases h with h | h | h | h <;> exact ascii_ne_ofNat hx (by omega) (by omega) h
  · intro h
    rw [h, encode_ascii hx]
    exact List.mem_singleton_self x

theorem ascii_mem_toBytes {x : UInt8} (hx : x.toNat < 0x80) {s : Str} :
    x ∈ toBytes s ↔ Char.ofNat x.toNat ∈ s := by
  simp [toBytes, List.mem_flatMap, ascii_mem_encode hx]

theorem lf_mem_toBytes {s : Str} : LF ∈ toBytes s ↔ '\n' ∈ s :=
  ascii_mem_toBytes (by decide)

private theorem contByte_ascii {x : UInt8} (hx : x < 0x80) : contByte x = false := by
  rw [contByte, Bool.and_eq_false_iff]
  left
  exact decide_eq_false (UInt8.not_le.mpr hx)

/-- An ASCII byte is no part of the sequence before it. -/
private theorem decodeStep_append_ascii {x : UInt8} (hx : x < 0x80) (b : UInt8) (rest : Bytes) :
    decodeStep b (rest ++ [x]) = decodeStep b rest ∧ (decodeStep b rest).2 ≤ rest.length := by
  have hcont := contByte_ascii hx
  rcases rest with _ | ⟨c, _ | ⟨d, _ | ⟨e, rest⟩⟩⟩
  all_goals
    simp only [decodeStep, List.nil_append, List.cons_append, hcont]
    split_ifs
    all_goals simp_all

private theorem decodeChunks_append_ascii {x : UInt8} (hx : x < 0x80) {n : ℕ} {b : Bytes}
    (hn : b.length ≤ n) :
    decodeChunks (n + 1) (b ++ [x]) = decodeChunks n b ++ [some (Char.ofNat x.toNat)] := by
  induction n generalizing b with
  | zero =>
    obtain rfl := List.eq_nil_of_length_eq_zero (Nat.le_zero.mp hn)
    simp [decodeChunks, decodeStep_ascii hx]
  | succ n ih =>
    cases b with
    | nil => simp [decodeChunks, decodeStep_ascii hx]
    | cons c b =>
      obtain ⟨hstep, hlen⟩ := decodeStep_append_ascii hx c b
      rw [List.cons_append, decodeChunks, hstep, List.drop_append_of_le_length hlen, ih,
        decodeChunks, List.cons_append]
      rw [List.length_drop]
      simp only [List.length_cons] at hn
      omega

theorem fromUtf8Lossy_append_ascii {x : UInt8} (hx : x < 0x80) (b : Bytes) :
    fromUtf8Lossy (b ++ [x]) = fromUtf8Lossy b ++ [Char.ofNat x.toNat] := by
  rw [fromUtf8Lossy, List.length_append, List.length_singleton,
    decodeChunks_append_ascii hx (Nat.le_refl _), List.map_append]
  rfl

private theorem encode_toAsciiLower (c : Char) :
    String.utf8EncodeChar (if 65 ≤ c.toNat ∧ c.toNat ≤ 90 then Char.ofNat (c.toNat + 32) else c) =
      (String.utf8EncodeChar c).map toAsciiLower := by
  have key : ∀ x : UInt8, x < 0x80 → ∀ d, d = Char.ofNat x.toNat →
      String.utf8EncodeChar (if 65 ≤ d.toNat ∧ d.toNat ≤ 90 then Char.ofNat (d.toNat + 32) else d) =
        (String.utf8EncodeChar d).map toAsciiLower := by
    intro x hx d hd
    subst hd
    exact forall_byte (P := fun x => x < 0x80 → String.utf8EncodeChar
      (if 65 ≤ (Char.ofNat x.toNat).toNat ∧ (Char.ofNat x.toNat).toNat ≤ 90 then
        Char.ofNat ((Char.ofNat x.toNat).toNat + 32) else Char.ofNat x.toNat) =
        (String.utf8EncodeChar (Char.ofNat x.toNat)).map toAsciiLower) (by decide +kernel) x hx
  by_cases hc : c.toNat < 0x80
  · have hx : (UInt8.ofNat c.toNat).toNat = c.toNat := toNat_ofNat_lt (by omega)
    refine key (UInt8.ofNat c.toNat) ?_ c ?_
    · rw [UInt8.lt_iff_toNat_lt, hx]
      exact hc
    · rw [hx]
      exact (Char.ofNat_toNat c).symm
  · rw [if_neg (by omega)]
    refine (List.map_id _).symm.trans (List.map_congr_left ?_)
    intro b hb
    have hhigh : 0x80 ≤ b.toNat := by
      by_contra hlow
      have hbc := (ascii_mem_encode (Nat.not_le.mp hlow)).mp hb
      have hval := @ofNat_val b.toNat (by omega)
      rw [← hbc] at hval
      have hval' : c.toNat = b.toNat := hval
      omega
    rw [toAsciiLower, if_neg]
    · rfl
    · rintro ⟨-, hle⟩
      have hle' := UInt8.le_iff_toNat_le.mp hle
      exact absurd (Nat.le_trans hhigh hle') (by decide)

/-- Case folding of text is case folding of its bytes. -/
theorem toBytes_toAsciiLowercase (s : Str) :
    toBytes (toAsciiLowercase s) = (toBytes s).map toAsciiLower := by
  induction s with
  | nil => rfl
  | cons c s ih =>
    rw [toBytes_cons, List.map_append, ← ih, ← encode_toAsciiLower]
    rfl

end Adwarden.Str
