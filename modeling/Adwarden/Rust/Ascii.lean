import Adwarden.Rust.Str

/-! Decoding of ASCII bytes and of numbers written in digits. -/
namespace Adwarden

/-- The characters of ASCII bytes. -/
def asciiStr (b : Bytes) : Str := b.map fun x => Char.ofNat x.toNat

def IsAscii (b : Bytes) : Prop := ∀ x ∈ b, x < 0x80

/-- Checking a property of bytes by running through them. -/
theorem forall_byte {P : UInt8 → Prop} (h : ∀ n : Fin 256, P (UInt8.ofNat n)) (b : UInt8) :
    P b := by
  simpa using h ⟨b.toNat, b.toNat_lt⟩

namespace Str

theorem decodeStep_ascii {b : UInt8} (h : b < 0x80) (rest : Bytes) :
    decodeStep b rest = (some (Char.ofNat b.toNat), 0) := by simp [decodeStep, h]

theorem decodeChunks_ascii {a : Bytes} (ha : IsAscii a) (n : ℕ) (b : Bytes) :
    decodeChunks (a.length + n) (a ++ b) = (asciiStr a).map some ++ decodeChunks n b := by
  induction a with
  | nil => simp [asciiStr]
  | cons x a ih =>
    have hx := decodeStep_ascii (ha x (by simp)) (a ++ b)
    rw [List.length_cons, Nat.add_right_comm, List.cons_append, decodeChunks, hx]
    simp [ih fun y hy => ha y (by simp [hy]), asciiStr]

theorem allSome_map_some {α : Type} (s : List α) (l : List (Option α)) :
    (s.map some ++ l).allSome = l.allSome.map (s ++ ·) := by
  unfold List.allSome
  induction s with
  | nil => simp
  | cons c s ih => cases hl : l.mapM id <;> simp_all [List.mapM_cons]

theorem allSome_append {α : Type} (a b : List (Option α)) :
    (a ++ b).allSome = a.allSome.bind fun x => b.allSome.map (x ++ ·) := by
  unfold List.allSome
  rw [List.mapM_append]
  cases a.mapM id <;> cases b.mapM id <;> rfl

theorem fromUtf8_ascii_append {a : Bytes} (ha : IsAscii a) (b : Bytes) :
    fromUtf8 (a ++ b) = (fromUtf8 b).map (asciiStr a ++ ·) := by
  rw [fromUtf8, List.length_append, decodeChunks_ascii ha, allSome_map_some, fromUtf8]

theorem fromUtf8_ascii {a : Bytes} (ha : IsAscii a) : fromUtf8 a = some (asciiStr a) := by
  have h := fromUtf8_ascii_append ha []
  rw [List.append_nil] at h
  rw [h]
  simp [fromUtf8, decodeChunks, List.allSome]

theorem fromUtf8Lossy_ascii {a : Bytes} (ha : IsAscii a) : fromUtf8Lossy a = asciiStr a := by
  have h := decodeChunks_ascii ha 0 []
  rw [List.append_nil, Nat.add_zero] at h
  rw [fromUtf8Lossy, h, decodeChunks, List.append_nil, List.map_map]
  exact List.map_id _

theorem asciiStr_append (a b : Bytes) : asciiStr (a ++ b) = asciiStr a ++ asciiStr b :=
  List.map_append

theorem toNat_asciiChar {b : UInt8} (h : b < 0x80) : (Char.ofNat b.toNat).toNat = b.toNat := by
  have hb : b.toNat < 128 := by simpa [UInt8.lt_iff_toNat_lt] using h
  have hv : b.toNat.isValidChar := Or.inl (by omega)
  rw [Char.ofNat, dif_pos hv]
  rfl

theorem dropWhile_of_head {p : Char → Bool} {s : Str} (h : ∀ c ∈ s.head?, p c = false) :
    s.dropWhile p = s := by
  cases s with
  | nil => rfl
  | cons c s => simp [h c (by simp)]

/-- Text without blanks at its ends is its own trim. -/
theorem trim_eq_self {s : Str} (hh : ∀ c ∈ s.head?, isWhitespace c = false)
    (hl : ∀ c ∈ s.getLast?, isWhitespace c = false) : trim s = s := by
  rw [trim, trimStart, dropWhile_of_head hh, trimEnd, dropWhile_of_head (by simpa using hl),
    List.reverse_reverse]

private theorem head_dropWhile {p : Char → Bool} (s : Str) :
    ∀ c ∈ (s.dropWhile p).head?, p c = false := by
  intro c hc
  have hne : s.dropWhile p ≠ [] := fun h => by simp [h] at hc
  rw [List.head?_eq_some_head hne] at hc
  obtain rfl := Option.some.inj hc
  simpa using List.head_dropWhile_not p hne

theorem trim_trim (s : Str) : trim (trim s) = trim s := by
  refine trim_eq_self ?_ ?_
  · intro c hc
    obtain ⟨u, hu⟩ : trim s <+: trimStart s := by
      rw [trim, trimEnd, ← List.reverse_suffix, List.reverse_reverse]
      exact List.dropWhile_suffix _
    refine head_dropWhile s c ?_
    rw [← trimStart, ← hu, List.head?_append, Option.mem_def.mp hc]
    rfl
  · intro c hc
    rw [trim, trimEnd, List.getLast?_reverse] at hc
    exact head_dropWhile _ c hc

/-- A character of the trimmed text is one of the text. -/
theorem mem_of_mem_trim {c : Char} {s : Str} (h : c ∈ trim s) : c ∈ s := by
  rw [trim, trimEnd, List.mem_reverse] at h
  have h' := List.mem_reverse.mp ((List.dropWhile_suffix _).subset h)
  exact (List.dropWhile_suffix _).subset h'

theorem trim_cons_blank {c : Char} (h : isWhitespace c = true) (s : Str) :
    trim (c :: s) = trim s := by
  rw [trim, trimStart, List.dropWhile_cons_of_pos h, trim, trimStart]

theorem trim_append_blank {c : Char} (h : isWhitespace c = true) (s : Str) :
    trim (s ++ [c]) = trim s := by
  have hend : ∀ t : Str, trimEnd (t ++ [c]) = trimEnd t := by
    intro t
    rw [trimEnd, List.reverse_append, List.reverse_singleton, List.singleton_append,
      List.dropWhile_cons_of_pos h, trimEnd]
  rw [trim, trim, trimStart, List.dropWhile_append]
  split_ifs with hs
  · rw [trimStart, List.isEmpty_iff.mp hs, List.dropWhile_cons_of_pos h]
    rfl
  · rw [hend, trimStart]

theorem trim_of_forall {s : Str} (h : ∀ c ∈ s, isWhitespace c = false) : trim s = s :=
  trim_eq_self (fun c hc => h c (List.mem_of_mem_head? hc))
    (fun c hc => h c (List.mem_of_mem_getLast? hc))

/-- The number written in `cs`, most significant digit first. -/
def digitsValue (radix : ℕ) (cs : Str) : ℕ :=
  cs.foldl (fun n c => n * radix + (digitVal c).getD 0) 0

/-- A nonempty run of digits below `radix`. -/
structure IsDigits (radix : ℕ) (cs : Str) : Prop where
  nonempty : cs ≠ []
  digits : ∀ c ∈ cs, ∃ d, digitVal c = some d ∧ d < radix

theorem digit_not_blank {c : Char} {d : ℕ} (h : digitVal c = some d) : isWhitespace c = false := by
  simp only [digitVal] at h
  simp only [isWhitespace, Bool.or_eq_false_iff, Bool.and_eq_false_iff, beq_eq_false_iff_ne,
    decide_eq_false_iff_not]
  split_ifs at h <;> omega

theorem IsDigits.trim {radix : ℕ} {cs : Str} (h : IsDigits radix cs) : trim cs = cs :=
  trim_of_forall fun c hc => by
    obtain ⟨d, hd, -⟩ := h.digits c hc
    exact digit_not_blank hd

theorem foldl_pushDigit {radix : ℕ} {cs : Str}
    (h : ∀ c ∈ cs, ∃ d, digitVal c = some d ∧ d < radix) (n : ℕ) :
    cs.foldl (pushDigit radix) (some n) =
      some (cs.foldl (fun n c => n * radix + (digitVal c).getD 0) n) := by
  induction cs generalizing n with
  | nil => rfl
  | cons c cs ih =>
    obtain ⟨d, hd, hlt⟩ := h c (by simp)
    simp only [List.foldl_cons, pushDigit, hd, hlt, if_true, Option.getD_some]
    exact ih (fun c hc => h c (by simp [hc])) _

theorem IsDigits.stripPlus {radix : ℕ} {cs : Str} (h : IsDigits radix cs) : stripPlus cs = cs := by
  unfold Str.stripPlus
  split
  · next rest =>
    obtain ⟨d, hd, -⟩ := h.digits '+' (by simp)
    simp [digitVal] at hd
  · rfl

theorem fromStrRadix_digits {bits radix : ℕ} {cs : Str} (h : IsDigits radix cs)
    (hv : digitsValue radix cs < 2 ^ bits) :
    fromStrRadix bits radix cs = some (digitsValue radix cs) := by
  rw [fromStrRadix, h.stripPlus, if_neg h.nonempty, foldl_pushDigit h.digits]
  simpa [Option.filter, digitsValue] using hv

theorem digitVal_digitChar : ∀ d : Fin 16, digitVal (Nat.digitChar d) = some d.val := by decide

theorem digitsValue_append_singleton (radix : ℕ) (cs : Str) (c : Char) :
    digitsValue radix (cs ++ [c]) = digitsValue radix cs * radix + (digitVal c).getD 0 := by
  simp [digitsValue, List.foldl_append]

/-- A number written in digits is read back. -/
theorem toDigits_digits {radix : ℕ} (hlo : 1 < radix) (hhi : radix ≤ 16) (n : ℕ) :
    (∀ c ∈ Nat.toDigits radix n, ∃ d : Fin 16, d.val < radix ∧ c = Nat.digitChar d) ∧
      digitsValue radix (Nat.toDigits radix n) = n := by
  induction n using Nat.strongRecOn with
  | ind n ih =>
    rw [Nat.toDigits_eq_if hlo]
    split_ifs with hn
    · refine ⟨?_, ?_⟩
      · simp only [List.mem_singleton, forall_eq]
        exact ⟨⟨n, by omega⟩, hn, rfl⟩
      · simp [digitsValue, digitVal_digitChar ⟨n, by omega⟩]
    · obtain ⟨hmem, hval⟩ := ih (n / radix) (Nat.div_lt_self (by omega) hlo)
      have hlt : n % radix < radix := Nat.mod_lt _ (by omega)
      refine ⟨?_, ?_⟩
      · intro c hc
        rcases List.mem_append.mp hc with hc | hc
        · exact hmem c hc
        · exact ⟨⟨n % radix, by omega⟩, hlt, List.mem_singleton.mp hc⟩
      · rw [digitsValue_append_singleton, hval, digitVal_digitChar ⟨n % radix, by omega⟩,
          Option.getD_some, Nat.div_add_mod']

theorem toDigits_isDigits {radix : ℕ} (hlo : 1 < radix) (hhi : radix ≤ 16) (n : ℕ) :
    IsDigits radix (Nat.toDigits radix n) := by
  refine ⟨Nat.toDigits_ne_nil, fun c hc => ?_⟩
  obtain ⟨d, hd, rfl⟩ := (toDigits_digits hlo hhi n).1 c hc
  exact ⟨d, digitVal_digitChar d, hd⟩

theorem parseUsize_ofNat {n : ℕ} (hn : n < usizeSize) :
    parseUsize (trim (ofNat n)) = some n := by
  have hd := toDigits_isDigits (by omega : 1 < 10) (by omega) n
  have hval := (toDigits_digits (by omega : 1 < 10) (by omega) n).2
  rw [ofNat, hd.trim, parseUsize, fromStrRadix_digits hd (by rw [hval]; exact hn), hval]

/-- The bytes of a number written in digits. -/
theorem toBytes_digits {cs : Str} (h : ∀ c ∈ cs, ∃ d : Fin 16, c = Nat.digitChar d) :
    asciiStr (toBytes cs) = cs ∧
      ∀ b ∈ toBytes cs, ∃ d : Fin 16, b = UInt8.ofNat (Nat.digitChar d).toNat := by
  have key : ∀ d : Fin 16, String.utf8EncodeChar (Nat.digitChar d) =
      [UInt8.ofNat (Nat.digitChar d).toNat] ∧
      Char.ofNat (UInt8.ofNat (Nat.digitChar d).toNat).toNat = Nat.digitChar d := by decide
  induction cs with
  | nil => simp [toBytes, asciiStr]
  | cons c cs ih =>
    obtain ⟨d, rfl⟩ := h c (by simp)
    obtain ⟨h1, h2⟩ := ih fun c hc => h c (by simp [hc])
    have hcons : toBytes (Nat.digitChar d :: cs) =
        UInt8.ofNat (Nat.digitChar d).toNat :: toBytes cs := by
      rw [toBytes, List.flatMap_cons, (key d).1]
      rfl
    rw [hcons]
    refine ⟨?_, ?_⟩
    · rw [asciiStr, List.map_cons, (key d).2]
      exact congrArg _ h1
    · intro b hb
      rcases List.mem_cons.mp hb with rfl | hb
      · exact ⟨d, rfl⟩
      · exact h2 b hb

/-- Case folding of ASCII bytes and of their characters. -/
theorem toAsciiLowercase_asciiStr {b : Bytes} (h : IsAscii b) :
    toAsciiLowercase (asciiStr b) = asciiStr (b.map toAsciiLower) := by
  have key : ∀ x : UInt8, x < 0x80 →
      (if 65 ≤ (Char.ofNat x.toNat).toNat ∧ (Char.ofNat x.toNat).toNat ≤ 90 then
        Char.ofNat ((Char.ofNat x.toNat).toNat + 32) else Char.ofNat x.toNat) =
      Char.ofNat (toAsciiLower x).toNat :=
    forall_byte (by decide +kernel)
  simp only [toAsciiLowercase, asciiStr, List.map_map]
  exact List.map_congr_left fun x hx => key x (h x hx)

theorem asciiStr_injective {a b : Bytes} (ha : IsAscii a) (hb : IsAscii b)
    (h : asciiStr a = asciiStr b) : a = b := by
  induction a generalizing b with
  | nil =>
    cases b with
    | nil => rfl
    | cons y b => simp [asciiStr] at h
  | cons x a ih =>
    cases b with
    | nil => simp [asciiStr] at h
    | cons y b =>
      simp only [asciiStr, List.map_cons, List.cons.injEq] at h
      have hxy : x = y := by
        have h1 := toNat_asciiChar (ha x (by simp))
        rw [h.1, toNat_asciiChar (hb y (by simp))] at h1
        exact (UInt8.toNat_inj.mp h1).symm
      rw [hxy, ih (fun z hz => ha z (by simp [hz])) (fun z hz => hb z (by simp [hz])) h.2]

/-- One name is not another. -/
theorem eqIgnoreAsciiCase_of_ne {name a b : Str} (hne : a.toAsciiLowercase ≠ b.toAsciiLowercase)
    (h : name.eqIgnoreAsciiCase a = true) : name.eqIgnoreAsciiCase b = false := by
  rw [Str.eqIgnoreAsciiCase, beq_iff_eq] at h
  rw [Str.eqIgnoreAsciiCase, beq_eq_false_iff_ne, h]
  exact hne

theorem isAscii_lower {b : Bytes} (h : IsAscii b) : IsAscii (b.map toAsciiLower) := by
  have key : ∀ x : UInt8, x < 0x80 → toAsciiLower x < 0x80 := forall_byte (by decide +kernel)
  simp only [IsAscii, List.mem_map]
  rintro _ ⟨x, hx, rfl⟩
  exact key x (h x hx)

/-- Names compare alike as bytes and as text. -/
theorem eqIgnoreAsciiCase_asciiStr {a b : Bytes} (ha : IsAscii a) (hb : IsAscii b) :
    Str.eqIgnoreAsciiCase (asciiStr a) (asciiStr b) = Adwarden.eqIgnoreAsciiCase a b := by
  rw [Str.eqIgnoreAsciiCase, toAsciiLowercase_asciiStr ha, toAsciiLowercase_asciiStr hb,
    Adwarden.eqIgnoreAsciiCase, Bool.eq_iff_iff, beq_iff_eq, beq_iff_eq]
  exact ⟨asciiStr_injective (isAscii_lower ha) (isAscii_lower hb), fun h => by rw [h]⟩

end Str

end Adwarden
