import Mathlib.Data.Int.Notation
import Adwarden.Lib.JsonRead

/-! Documents, as a serializer takes them, and what it writes for them. -/
namespace Adwarden.Lib.Json

inductive Doc where
  | null
  | bool (b : Bool)
  | number (n : ℤ)
  | string (s : List Char)
  | array (items : List Doc)
  | object (members : List (List Char × Doc))

def intText (n : ℤ) : List Char :=
  if n < 0 then '-' :: Nat.toDigits 10 n.natAbs else Nat.toDigits 10 n.natAbs

theorem digits_toDigits (n : ℕ) : Digits (Nat.toDigits 10 n) := by
  refine ⟨Nat.toDigits_ne_nil, fun c hc => ?_⟩
  have h := Nat.isDigit_of_mem_toDigits (by decide) (Nat.le_refl 10) hc
  have hc' : c.val ≥ 48 ∧ c.val ≤ 57 := by simpa [Char.isDigit] using h
  rw [isDigit, Bool.and_eq_true, decide_eq_true_eq, decide_eq_true_eq]
  exact hc'

theorem intPart_toDigits (n : ℕ) : IntPart (Nat.toDigits 10 n) := by
  refine ⟨digits_toDigits n, ?_⟩
  induction n using Nat.strongRecOn with
  | ind n ih =>
    intro h
    rcases Nat.lt_or_ge n 10 with hn | hn
    · rw [Nat.toDigits_of_lt_base hn] at h ⊢
      rw [List.head?_cons] at h
      rw [Option.some.inj h]
    · rw [Nat.toDigits_of_base_le (by decide) hn,
        List.head?_append_of_ne_nil _ Nat.toDigits_ne_nil] at h
      have hzero := ih (n / 10) (by omega) h
      have hback := @Nat.ofDigitChars_ten_toDigits (n / 10)
      rw [hzero] at hback
      have h0 : Nat.ofDigitChars 10 ['0'] 0 = 0 := by decide
      omega

theorem number_intText (n : ℤ) : Number (intText n) := by
  unfold intText
  split_ifs
  · refine ⟨['-'], _, [], [], .inr rfl, intPart_toDigits n.natAbs, .inl rfl, .inl rfl, ?_⟩
    simp
  · refine ⟨[], _, [], [], .inl rfl, intPart_toDigits n.natAbs, .inl rfl, .inl rfl, ?_⟩
    simp

private theorem toDigits_injective : Function.Injective (Nat.toDigits 10) := by
  intro m n h
  rw [← @Nat.ofDigitChars_ten_toDigits m, h, Nat.ofDigitChars_ten_toDigits]

private theorem toDigits_sign (n : ℕ) (s : List Char) : Nat.toDigits 10 n ≠ '-' :: s := by
  intro h
  have hmem : '-' ∈ Nat.toDigits 10 n := by
    rw [h]
    exact List.mem_cons_self ..
  exact absurd ((digits_toDigits n).2 _ hmem) (by decide)

theorem intText_injective : Function.Injective intText := by
  intro m n h
  unfold intText at h
  split_ifs at h with hm hn hn
  · have := toDigits_injective (List.cons.inj h).2
    omega
  · exact absurd h.symm (toDigits_sign _ _)
  · exact absurd h (toDigits_sign _ _)
  · have := toDigits_injective h
    omega

namespace Doc

mutual

/-- What a document stands for. -/
def value : Doc → Value
  | .null => .null
  | .bool b => .bool b
  | .number n => .number (intText n)
  | .string s => .string (unitsOf s)
  | .array items => .array (itemValues items)
  | .object members => .object (memberValues members)

def itemValues : List Doc → List Value
  | [] => []
  | d :: ds => d.value :: itemValues ds

def memberValues : List (List Char × Doc) → List (List ℕ × Value)
  | [] => []
  | (k, d) :: ms => (unitsOf k, d.value) :: memberValues ms

end

mutual

theorem value_inj : ∀ {d e : Doc}, d.value = e.value → d = e
  | .null, e, h => by
    cases e <;> simp only [value, reduceCtorEq] at h ⊢
  | .bool b, e, h => by
    cases e <;> simp only [value, reduceCtorEq, Value.bool.injEq] at h ⊢
    rw [h]
  | .number n, e, h => by
    cases e <;> simp only [value, reduceCtorEq, Value.number.injEq] at h ⊢
    rw [intText_injective h]
  | .string s, e, h => by
    cases e <;> simp only [value, reduceCtorEq, Value.string.injEq] at h ⊢
    rw [unitsOf_injective h]
  | .array ds, e, h => by
    cases e <;> simp only [value, reduceCtorEq, Value.array.injEq] at h ⊢
    rw [itemValues_inj h]
  | .object ms, e, h => by
    cases e <;> simp only [value, reduceCtorEq, Value.object.injEq] at h ⊢
    rw [memberValues_inj h]

theorem itemValues_inj : ∀ {ds es : List Doc}, itemValues ds = itemValues es → ds = es
  | [], [], _ => rfl
  | [], e :: es, h => by simp only [itemValues, reduceCtorEq] at h
  | d :: ds, [], h => by simp only [itemValues, reduceCtorEq] at h
  | d :: ds, e :: es, h => by
    simp only [itemValues, List.cons.injEq] at h
    rw [value_inj h.1, itemValues_inj h.2]

theorem memberValues_inj : ∀ {ms ns : List (List Char × Doc)},
    memberValues ms = memberValues ns → ms = ns
  | [], [], _ => rfl
  | [], (k, e) :: ns, h => by simp only [memberValues, reduceCtorEq] at h
  | (k, d) :: ms, [], h => by simp only [memberValues, reduceCtorEq] at h
  | (k, d) :: ms, (l, e) :: ns, h => by
    simp only [memberValues, List.cons.injEq, Prod.mk.injEq] at h
    rw [unitsOf_injective h.1.1, value_inj h.1.2, memberValues_inj h.2]

end

end Doc

/-- A serializer: for every document it writes a JSON text of that document. -/
structure Writer where
  write : Doc → List Char
  text : ∀ d, IsText d.value (write d)

namespace Writer

variable (w : Writer)

/-- The text of a document tells the document. -/
theorem write_injective : Function.Injective w.write := by
  intro d e h
  have hd := w.text d
  rw [h] at hd
  exact Doc.value_inj (hd.unique (w.text e))

end Writer

/-- The character after the backslash. -/
def shortEscape (c : Char) : Option Char :=
  if c = '"' then some '"'
  else if c = '\\' then some '\\'
  else if c = '\x08' then some 'b'
  else if c = '\t' then some 't'
  else if c = '\n' then some 'n'
  else if c = '\x0c' then some 'f'
  else if c = '\r' then some 'r'
  else none

def escaped (c : Char) : List Char :=
  match shortEscape c with
  | some e => ['\\', e]
  | none =>
    if c.toNat < 0x20 then
      ['\\', 'u', '0', '0', Nat.digitChar (c.toNat / 16), Nat.digitChar (c.toNat % 16)]
    else [c]

def quoted (s : List Char) : List Char := '"' :: s.flatMap escaped ++ ['"']

namespace Doc

mutual

/-- A document without space in it. -/
def compact : Doc → List Char
  | .null => ['n', 'u', 'l', 'l']
  | .bool true => ['t', 'r', 'u', 'e']
  | .bool false => ['f', 'a', 'l', 's', 'e']
  | .number n => intText n
  | .string s => quoted s
  | .array items => '[' :: compactItems items ++ [']']
  | .object members => '\x7b' :: compactMembers members ++ ['\x7d']

def compactItems : List Doc → List Char
  | [] => []
  | [d] => d.compact
  | d :: ds => d.compact ++ ',' :: compactItems ds

def compactMembers : List (List Char × Doc) → List Char
  | [] => []
  | [(k, d)] => quoted k ++ ':' :: d.compact
  | (k, d) :: ms => quoted k ++ ':' :: d.compact ++ ',' :: compactMembers ms

end

end Doc

private theorem shortEscape_mem {c e : Char} (h : shortEscape c = some e) :
    (e, c.toNat) ∈ escapes ∧ units c = [c.toNat] := by
  unfold shortEscape at h
  split_ifs at h with h1 h2 h3 h4 h5 h6 h7 <;> subst c <;> obtain rfl := Option.some.inj h <;>
    decide

private theorem shortEscape_none {c : Char} (h : shortEscape c = none) : c ≠ '"' ∧ c ≠ '\\' := by
  constructor
  · rintro rfl
    cases h
  · rintro rfl
    cases h

private theorem control_hex : ∀ n : Fin 0x20,
    hexDigit (Nat.digitChar (n.val / 16)) = some (n.val / 16) ∧
      hexDigit (Nat.digitChar (n.val % 16)) = some (n.val % 16) := by decide

theorem content_escaped {us : List ℕ} {s : List Char} (c : Char) (h : Content us s) :
    Content (units c ++ us) (escaped c ++ s) := by
  unfold escaped
  split
  · next e he =>
    obtain ⟨hmem, hunits⟩ := shortEscape_mem he
    rw [hunits]
    exact .escape e _ hmem h
  · next hnone =>
    obtain ⟨hquote, hslash⟩ := shortEscape_none hnone
    split_ifs with hc
    · obtain ⟨hhi, hlo⟩ := control_hex ⟨c.toNat, hc⟩
      have hunits : units c = [((0 * 16 + 0) * 16 + c.toNat / 16) * 16 + c.toNat % 16] := by
        rw [units, if_pos (by omega)]
        congr 1
        omega
      rw [hunits]
      exact .hex _ _ _ _ 0 0 _ _ (by decide) (by decide) hhi hlo h
    · exact .plain c (by omega) hquote hslash h

theorem content_quoted (s : List Char) : Content (unitsOf s) (s.flatMap escaped) := by
  induction s with
  | nil => exact .nil
  | cons c s ih => exact content_escaped c ih

namespace Doc

mutual

theorem compact_isValue : ∀ d : Doc, IsValue d.value d.compact
  | .null => .null
  | .bool true => .true
  | .bool false => .false
  | .number n => .number (number_intText n)
  | .string s => .string (content_quoted s)
  | .array ds => by
    by_cases h : ds = []
    · rw [h]
      exact .noItems spaces_nil
    · exact .array (compactItems_isItems ds h)
  | .object ms => by
    by_cases h : ms = []
    · rw [h]
      exact .noMembers spaces_nil
    · exact .object (compactMembers_isMembers ms h)

theorem compactItems_isItems : ∀ ds : List Doc, ds ≠ [] → IsItems (itemValues ds) (compactItems ds)
  | [], h => absurd rfl h
  | [d], _ => by
    have h := IsItems.last spaces_nil (compact_isValue d) spaces_nil
    rwa [List.nil_append, List.append_nil] at h
  | d :: e :: ds, _ => by
    have h := IsItems.more spaces_nil (compact_isValue d) spaces_nil
      (compactItems_isItems (e :: ds) (List.cons_ne_nil _ _))
    rwa [List.nil_append, List.append_nil] at h

theorem compactMembers_isMembers : ∀ ms : List (List Char × Doc), ms ≠ [] →
    IsMembers (memberValues ms) (compactMembers ms)
  | [], h => absurd rfl h
  | [(k, d)], _ => by
    have h := IsMember.compact (content_quoted k) (compact_isValue d)
    rw [compactMembers, quoted, List.append_assoc]
    exact .last h
  | (k, d) :: (l, e) :: ms, _ => by
    have h := IsMember.compact (content_quoted k) (compact_isValue d)
    have hmore := IsMembers.more h (compactMembers_isMembers ((l, e) :: ms) (List.cons_ne_nil _ _))
    simp only [compactMembers, quoted, List.append_assoc, List.cons_append,
      List.nil_append] at hmore ⊢
    exact hmore

end

end Doc

/-- The serializer that writes no space. -/
def compactWriter : Writer where
  write := Doc.compact
  text d := ⟨[], d.compact, [], spaces_nil, d.compact_isValue, spaces_nil, by simp⟩

end Adwarden.Lib.Json
