import Mathlib.Data.List.Basic
import Mathlib.Data.Nat.Notation
import Mathlib.Tactic.Common

/-! The grammar of JSON texts, with the value that a text stands for. The content of a string is the
sequence of UTF-16 code units that it denotes. -/
namespace Adwarden.Lib.Json

inductive Value where
  | null
  | bool (b : Bool)
  /-- A number, as it is written. -/
  | number (text : List Char)
  | string (units : List ℕ)
  | array (items : List Value)
  | object (members : List (List ℕ × Value))

/-- The UTF-16 code units of a character. -/
def units (c : Char) : List ℕ :=
  if c.toNat < 0x10000 then [c.toNat]
  else [0xD800 + (c.toNat - 0x10000) / 0x400, 0xDC00 + (c.toNat - 0x10000) % 0x400]

def unitsOf (s : List Char) : List ℕ := s.flatMap units

def isSpace (c : Char) : Bool := c == ' ' || c == '\t' || c == '\n' || c == '\r'

def Spaces (s : List Char) : Prop := ∀ c ∈ s, isSpace c = true

def isDigit (c : Char) : Bool := '0' ≤ c && c ≤ '9'

def Digits (s : List Char) : Prop := s ≠ [] ∧ ∀ c ∈ s, isDigit c = true

/-- `int`: no superfluous zeros in front. -/
def IntPart (s : List Char) : Prop := Digits s ∧ (s.head? = some '0' → s = ['0'])

def FracPart (s : List Char) : Prop := s = [] ∨ ∃ ds, Digits ds ∧ s = '.' :: ds

def ExpPart (s : List Char) : Prop :=
  s = [] ∨ ∃ e sign ds, (e = 'e' ∨ e = 'E') ∧ (sign = [] ∨ sign = ['+'] ∨ sign = ['-']) ∧
    Digits ds ∧ s = e :: (sign ++ ds)

def Number (s : List Char) : Prop :=
  ∃ sign int frac exp, (sign = [] ∨ sign = ['-']) ∧ IntPart int ∧ FracPart frac ∧ ExpPart exp ∧
    s = sign ++ int ++ frac ++ exp

/-- The characters that follow a backslash, and what they denote. -/
def escapes : List (Char × ℕ) :=
  [('"', 0x22), ('\\', 0x5C), ('/', 0x2F), ('b', 0x08), ('f', 0x0C), ('n', 0x0A), ('r', 0x0D),
    ('t', 0x09)]

def hexDigit (c : Char) : Option ℕ :=
  if '0' ≤ c ∧ c ≤ '9' then some (c.toNat - '0'.toNat)
  else if 'a' ≤ c ∧ c ≤ 'f' then some (c.toNat - 'a'.toNat + 10)
  else if 'A' ≤ c ∧ c ≤ 'F' then some (c.toNat - 'A'.toNat + 10)
  else none

/-- What stands between the quotes of a string. -/
inductive Content : List ℕ → List Char → Prop
  | nil : Content [] []
  | plain {us : List ℕ} {s : List Char} (c : Char) (control : 0x20 ≤ c.toNat) (quote : c ≠ '"')
      (backslash : c ≠ '\\') (rest : Content us s) : Content (units c ++ us) (c :: s)
  | escape {us : List ℕ} {s : List Char} (c : Char) (u : ℕ) (mem : (c, u) ∈ escapes)
      (rest : Content us s) : Content (u :: us) ('\\' :: c :: s)
  | hex {us : List ℕ} {s : List Char} (a b c d : Char) (i j k l : ℕ) (ha : hexDigit a = some i)
      (hb : hexDigit b = some j) (hc : hexDigit c = some k) (hd : hexDigit d = some l)
      (rest : Content us s) :
      Content ((((i * 16 + j) * 16 + k) * 16 + l) :: us) ('\\' :: 'u' :: a :: b :: c :: d :: s)

mutual

/-- The text of a value, without space around it. -/
inductive IsValue : Value → List Char → Prop
  | null : IsValue .null ['n', 'u', 'l', 'l']
  | true : IsValue (.bool .true) ['t', 'r', 'u', 'e']
  | false : IsValue (.bool .false) ['f', 'a', 'l', 's', 'e']
  | number {s} (h : Number s) : IsValue (.number s) s
  | string {us s} (h : Content us s) : IsValue (.string us) ('"' :: s ++ ['"'])
  | noItems {w} (h : Spaces w) : IsValue (.array []) ('[' :: w ++ [']'])
  | array {vs s} (h : IsItems vs s) : IsValue (.array vs) ('[' :: s ++ [']'])
  | noMembers {w} (h : Spaces w) : IsValue (.object []) ('\x7b' :: w ++ ['\x7d'])
  | object {ms s} (h : IsMembers ms s) : IsValue (.object ms) ('\x7b' :: s ++ ['\x7d'])

inductive IsItems : List Value → List Char → Prop
  | last {v a s b} (ha : Spaces a) (h : IsValue v s) (hb : Spaces b) : IsItems [v] (a ++ s ++ b)
  | more {v vs a s b t} (ha : Spaces a) (h : IsValue v s) (hb : Spaces b) (rest : IsItems vs t) :
      IsItems (v :: vs) (a ++ s ++ b ++ ',' :: t)

inductive IsMembers : List (List ℕ × Value) → List Char → Prop
  | last {m s} (h : IsMember m s) : IsMembers [m] s
  | more {m ms s t} (h : IsMember m s) (rest : IsMembers ms t) : IsMembers (m :: ms) (s ++ ',' :: t)

inductive IsMember : List ℕ × Value → List Char → Prop
  | intro {us v a k b c s d} (ha : Spaces a) (key : Content us k) (hb : Spaces b) (hc : Spaces c)
      (h : IsValue v s) (hd : Spaces d) :
      IsMember (us, v) (a ++ ('"' :: k ++ ['"']) ++ b ++ ':' :: (c ++ s ++ d))

end

/-- A JSON text: a value with space around it. -/
def IsText (v : Value) (s : List Char) : Prop :=
  ∃ a t b, Spaces a ∧ IsValue v t ∧ Spaces b ∧ s = a ++ t ++ b

/-- A text that needs no escapes. -/
theorem Content.literal {s : List Char}
    (h : ∀ c ∈ s, 0x20 ≤ c.toNat ∧ c ≠ '"' ∧ c ≠ '\\') : Content (unitsOf s) s := by
  induction s with
  | nil => exact .nil
  | cons c s ih =>
    obtain ⟨control, quote, backslash⟩ := h c (List.mem_cons_self ..)
    exact .plain c control quote backslash (ih fun x hx => h x (List.mem_cons_of_mem _ hx))

theorem spaces_nil : Spaces [] := fun _ h => absurd h List.not_mem_nil

/-- A member without space in it. -/
theorem IsMember.compact {us : List ℕ} {k s : List Char} {v : Value} (key : Content us k)
    (h : IsValue v s) : IsMember (us, v) ('"' :: k ++ '"' :: ':' :: s) := by
  have hm := IsMember.intro spaces_nil key spaces_nil spaces_nil h spaces_nil
  simpa using hm

theorem number_digit {c : Char} (h : isDigit c = true) : Number [c] := by
  have hc : ∀ x ∈ [c], isDigit x = true := by
    intro x hx
    rw [List.mem_singleton.mp hx]
    exact h
  refine ⟨[], [c], [], [], .inl rfl, ⟨⟨List.cons_ne_nil _ _, hc⟩, ?_⟩, .inl rfl, .inl rfl, rfl⟩
  intro h0
  rw [List.head?_cons] at h0
  rw [Option.some.inj h0]

/-- Surrogates are no characters, so the first unit tells how many there are. -/
theorem units_append_inj {a b : Char} {us vs : List ℕ} (h : units a ++ us = units b ++ vs) :
    a = b ∧ us = vs := by
  have ha : a.toNat < 0xD800 ∨ 0xDFFF < a.toNat ∧ a.toNat < 0x110000 := a.valid
  have hb : b.toNat < 0xD800 ∨ 0xDFFF < b.toNat ∧ b.toNat < 0x110000 := b.valid
  have hchar : a.toNat = b.toNat → a = b := fun h => Char.ext (UInt32.toNat_inj.mp h)
  unfold units at h
  split_ifs at h with h1 h2 h2
  · simp only [List.cons_append, List.nil_append, List.cons.injEq] at h
    exact ⟨hchar h.1, h.2⟩
  · simp only [List.cons_append, List.nil_append, List.cons.injEq] at h
    omega
  · simp only [List.cons_append, List.nil_append, List.cons.injEq] at h
    omega
  · simp only [List.cons_append, List.nil_append, List.cons.injEq] at h
    exact ⟨hchar (by omega), h.2.2⟩

private theorem units_ne_nil (c : Char) : units c ≠ [] := by
  unfold units
  split_ifs <;> exact List.cons_ne_nil _ _

theorem unitsOf_injective : Function.Injective unitsOf := by
  intro s
  induction s with
  | nil =>
    intro t h
    cases t with
    | nil => rfl
    | cons b t => exact absurd h.symm (List.append_ne_nil_of_left_ne_nil (units_ne_nil b) _)
  | cons a s ih =>
    intro t h
    cases t with
    | nil => exact absurd h (List.append_ne_nil_of_left_ne_nil (units_ne_nil a) _)
    | cons b t =>
      obtain ⟨rfl, hrest⟩ := units_append_inj h
      rw [ih hrest]

namespace Value

/-- The first member of a name. -/
def member (key : List Char) : Value → Option Value
  | .object ms => (ms.find? fun m => m.1 == unitsOf key).map (·.2)
  | _ => none

def item (i : ℕ) : Value → Option Value
  | .array vs => vs[i]?
  | _ => none

end Value

/-- Where in a text a character stands. -/
inductive Place where
  | outside
  | inside
  | escaped
deriving DecidableEq

/-- The place after a text, `none` when a string holds a control character. -/
def scan : Place → List Char → Option Place
  | p, [] => some p
  | .outside, c :: s => if c = '"' then scan .inside s else scan .outside s
  | .inside, c :: s =>
    if c = '"' then scan .outside s
    else if c = '\\' then scan .escaped s
    else if c.toNat < 0x20 then none
    else scan .inside s
  | .escaped, _ :: s => scan .inside s

theorem scan_append (p : Place) (a b : List Char) :
    scan p (a ++ b) = (scan p a).bind fun q => scan q b := by
  induction a generalizing p with
  | nil => rw [scan, List.nil_append, Option.bind_some]
  | cons c a ih =>
    cases p
    · simp only [List.cons_append, scan]
      split_ifs <;> exact ih _
    · simp only [List.cons_append, scan]
      split_ifs
      · exact ih _
      · exact ih _
      · rfl
      · exact ih _
    · exact ih _

theorem scan_outside {s : List Char} (h : '"' ∉ s) : scan .outside s = some .outside := by
  induction s with
  | nil => rfl
  | cons c s ih =>
    rw [List.mem_cons, not_or] at h
    rw [scan, if_neg (Ne.symm h.1), ih h.2]

theorem Spaces.scan {s : List Char} (h : Spaces s) : Json.scan .outside s = some .outside :=
  scan_outside fun hq => absurd (h _ hq) (by decide)

private theorem hexDigit_inside {c : Char} {n : ℕ} (h : hexDigit c = some n) (s : List Char) :
    scan .inside (c :: s) = scan .inside s := by
  have hlow : ('0' : Char) ≤ c := by
    unfold hexDigit at h
    split_ifs at h with h0 ha hA
    · exact h0.1
    · exact Char.le_trans (by decide) ha.1
    · exact Char.le_trans (by decide) hA.1
  have hquote : c ≠ '"' := by
    rintro rfl
    revert hlow
    decide
  have hslash : c ≠ '\\' := by
    rintro rfl
    have hnone : hexDigit '\\' = none := by decide
    rw [hnone] at h
    cases h
  have hcontrol : ¬c.toNat < 0x20 := by
    have h30 : 0x30 ≤ c.toNat := hlow
    omega
  rw [scan, if_neg hquote, if_neg hslash, if_neg hcontrol]

theorem Content.scan {us : List ℕ} {s : List Char} (h : Content us s) :
    Json.scan .inside s = some .inside := by
  induction h with
  | nil => rfl
  | plain c control quote backslash _ ih =>
    rw [Json.scan, if_neg quote, if_neg backslash, if_neg (by omega), ih]
  | escape c u _ _ ih =>
    rw [Json.scan, if_neg (by decide), if_pos rfl, Json.scan, ih]
  | hex a b c d i j k l ha hb hc hd _ ih =>
    rw [Json.scan, if_neg (by decide), if_pos rfl, Json.scan, hexDigit_inside ha,
      hexDigit_inside hb, hexDigit_inside hc, hexDigit_inside hd, ih]

theorem Content.scan_quoted {us : List ℕ} {s : List Char} (h : Content us s) :
    Json.scan .outside ('"' :: s ++ ['"']) = some .outside := by
  rw [List.cons_append, Json.scan, if_pos rfl, scan_append, h.scan]
  rfl

private theorem Digits.no_quote {s : List Char} (h : Digits s) : '"' ∉ s := fun hq =>
  absurd (h.2 _ hq) (by decide)

theorem Number.scan {s : List Char} (h : Number s) : Json.scan .outside s = some .outside := by
  obtain ⟨sign, int, frac, exp, hsign, ⟨hint, -⟩, hfrac, hexp, rfl⟩ := h
  refine scan_outside ?_
  rw [List.mem_append, List.mem_append, List.mem_append, not_or, not_or, not_or]
  refine ⟨⟨⟨?_, hint.no_quote⟩, ?_⟩, ?_⟩
  · rcases hsign with rfl | rfl <;> decide
  · rcases hfrac with rfl | ⟨ds, hds, rfl⟩
    · exact List.not_mem_nil
    · exact fun hq => (List.mem_cons.mp hq).elim (by decide) hds.no_quote
  · rcases hexp with rfl | ⟨e, sign, ds, he, hsign, hds, rfl⟩
    · exact List.not_mem_nil
    · rw [List.mem_cons, List.mem_append, not_or, not_or]
      refine ⟨?_, ?_, hds.no_quote⟩
      · rcases he with rfl | rfl <;> decide
      · rcases hsign with rfl | rfl | rfl <;> decide

mutual

/-- Strings hold no control characters. -/
theorem IsValue.scan {v : Value} {s : List Char} :
    IsValue v s → Json.scan .outside s = some .outside
  | .null => rfl
  | .true => rfl
  | .false => rfl
  | .number h => h.scan
  | .string h => h.scan_quoted
  | .noItems h => by
    rw [List.cons_append, Json.scan, if_neg (by decide), scan_append, h.scan]
    rfl
  | .array h => by
    rw [List.cons_append, Json.scan, if_neg (by decide), scan_append, h.scan]
    rfl
  | .noMembers h => by
    rw [List.cons_append, Json.scan, if_neg (by decide), scan_append, h.scan]
    rfl
  | .object h => by
    rw [List.cons_append, Json.scan, if_neg (by decide), scan_append, h.scan]
    rfl

theorem IsItems.scan {vs : List Value} {s : List Char} :
    IsItems vs s → Json.scan .outside s = some .outside
  | .last ha h hb => by
    rw [scan_append, scan_append, ha.scan, Option.bind_some, h.scan, Option.bind_some, hb.scan]
  | .more ha h hb rest => by
    rw [scan_append, scan_append, scan_append, ha.scan, Option.bind_some, h.scan, Option.bind_some,
      hb.scan, Option.bind_some, Json.scan, if_neg (by decide), rest.scan]

theorem IsMembers.scan {ms : List (List ℕ × Value)} {s : List Char} :
    IsMembers ms s → Json.scan .outside s = some .outside
  | .last h => h.scan
  | .more h rest => by
    rw [scan_append, h.scan, Option.bind_some, Json.scan, if_neg (by decide), rest.scan]

theorem IsMember.scan {m : List ℕ × Value} {s : List Char} :
    IsMember m s → Json.scan .outside s = some .outside
  | .intro ha key hb hc h hd => by
    rw [scan_append, scan_append, scan_append, ha.scan, Option.bind_some, key.scan_quoted,
      Option.bind_some, hb.scan, Option.bind_some, Json.scan, if_neg (by decide), scan_append,
      scan_append, hc.scan, Option.bind_some, h.scan, Option.bind_some, hd.scan]

end

theorem IsText.scan {v : Value} {s : List Char} (h : IsText v s) :
    Json.scan .outside s = some .outside := by
  obtain ⟨a, t, b, ha, hv, hb, rfl⟩ := h
  rw [scan_append, scan_append, ha.scan, Option.bind_some, hv.scan, Option.bind_some, hb.scan]

end Adwarden.Lib.Json
