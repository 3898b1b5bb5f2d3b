import Mathlib.Algebra.Group.Int.Defs
import Mathlib.Algebra.Group.Nat.Defs
import Mathlib.Data.List.Basic
import Mathlib.Data.List.Infix
import Mathlib.Tactic.Common

/-! Byte slices and the machine integers of the native core. A `Vec<u8>` or `&[u8]` is a list. -/
namespace Adwarden

abbrev Bytes := List UInt8

/-- A byte string literal `b"..."`. -/
def ascii (s : String) : Bytes := s.toList.map fun c => UInt8.ofNat c.toNat

/-- `usize` has 64 bits on the targets modelled here. -/
def usizeBits : ℕ := 64

def usizeSize : ℕ := 2 ^ usizeBits

def usizeMax : ℕ := usizeSize - 1

def CR : UInt8 := 13

def LF : UInt8 := 10

def CRLF : Bytes := [CR, LF]

theorem LF_ne_CR : LF ≠ CR := by decide

/-- `hay.windows(needle.len()).position(|w| w == needle)` for a nonempty needle. -/
def findSubsequence (needle : Bytes) : Bytes → Option ℕ
  | [] => none
  | b :: rest =>
    if needle.isPrefixOf (b :: rest) then some 0
    else (findSubsequence needle rest).map (· + 1)

/-- `buf.iter().position(|&b| b == c)`. -/
def position (c : UInt8) : Bytes → Option ℕ
  | [] => none
  | b :: rest => if b = c then some 0 else (position c rest).map (· + 1)

/-- `bytes.split(|&b| b == c)`: always at least one piece. -/
def splitOn (c : UInt8) : Bytes → List Bytes
  | [] => [[]]
  | b :: rest =>
    if b = c then [] :: splitOn c rest
    else match splitOn c rest with
      | [] => [[b]]
      | l :: ls => (b :: l) :: ls

def isAsciiWhitespace (b : UInt8) : Bool :=
  b == 32 || b == 9 || b == 10 || b == 12 || b == 13

def toAsciiLower (b : UInt8) : UInt8 := if 65 ≤ b ∧ b ≤ 90 then b + 32 else b

def eqIgnoreAsciiCase (a b : Bytes) : Bool := a.map toAsciiLower == b.map toAsciiLower

theorem findSubsequence_lt {needle hay : Bytes} {i : ℕ} (h : findSubsequence needle hay = some i) :
    i < hay.length := by
  induction hay generalizing i with
  | nil => simp [findSubsequence] at h
  | cons b rest ih =>
    simp only [findSubsequence] at h
    split_ifs at h with hp
    · obtain rfl : 0 = i := by simpa using h
      simp
    · obtain ⟨j, hj, rfl⟩ := Option.map_eq_some_iff.mp h
      simpa using ih hj

/-- The window found really is the needle. -/
theorem findSubsequence_isPrefix {needle hay : Bytes} {i : ℕ}
    (h : findSubsequence needle hay = some i) : needle <+: hay.drop i := by
  induction hay generalizing i with
  | nil => simp [findSubsequence] at h
  | cons b rest ih =>
    simp only [findSubsequence] at h
    split_ifs at h with hp
    · obtain rfl : 0 = i := by simpa using h
      simpa using List.isPrefixOf_iff_prefix.mp hp
    · obtain ⟨j, hj, rfl⟩ := Option.map_eq_some_iff.mp h
      simpa using ih hj

theorem findSubsequence_le {needle hay : Bytes} {i : ℕ}
    (h : findSubsequence needle hay = some i) : i + needle.length ≤ hay.length := by
  have hp := (findSubsequence_isPrefix h).length_le
  have hl := findSubsequence_lt h
  rw [List.length_drop] at hp
  omega

/-- A needle that has been found stays at its place when more bytes arrive. -/
theorem findSubsequence_append {needle hay : Bytes} {i : ℕ} (x : Bytes)
    (h : findSubsequence needle hay = some i) : findSubsequence needle (hay ++ x) = some i := by
  induction hay generalizing i with
  | nil => simp [findSubsequence] at h
  | cons b rest ih =>
    simp only [findSubsequence] at h
    split_ifs at h with hp
    · obtain rfl : 0 = i := by simpa using h
      have hp' : needle <+: b :: (rest ++ x) :=
        (List.isPrefixOf_iff_prefix.mp hp).trans ⟨x, by simp⟩
      simp [findSubsequence, List.isPrefixOf_iff_prefix.mpr hp']
    · obtain ⟨j, hj, rfl⟩ := Option.map_eq_some_iff.mp h
      have hn : needle.isPrefixOf (b :: (rest ++ x)) = false := by
        have hlen := findSubsequence_le hj
        rw [Bool.eq_false_iff]
        intro hc
        apply hp
        rw [List.isPrefixOf_iff_prefix] at hc ⊢
        exact List.prefix_of_prefix_length_le hc ⟨x, rfl⟩ (by simp; omega)
      simp [findSubsequence, hn, ih hj]

/-- A needle first completed by new bytes ends inside them. -/
theorem findSubsequence_append_none {needle hay x : Bytes} {i : ℕ} (hne : needle ≠ [])
    (hn : findSubsequence needle hay = none) (h : findSubsequence needle (hay ++ x) = some i) :
    hay.length < i + needle.length := by
  by_contra hle
  have hp := findSubsequence_isPrefix h
  have hpre : needle <+: hay.drop i := by
    rw [List.drop_append_of_le_length (by omega)] at hp
    exact List.prefix_of_prefix_length_le hp ⟨x, rfl⟩ (by simp; omega)
  clear h hp
  induction hay generalizing i with
  | nil =>
    rw [List.drop_nil, List.prefix_nil] at hpre
    exact hne hpre
  | cons b rest ih =>
    simp only [findSubsequence] at hn
    split_ifs at hn with hq
    cases i with
    | zero => exact hq (List.isPrefixOf_iff_prefix.mpr hpre)
    | succ i =>
      exact ih (by simpa using hn) (i := i) (by simp only [List.length_cons] at hle; omega)
        (by simpa using hpre)

theorem position_lt {c : UInt8} {b : Bytes} {i : ℕ} (h : position c b = some i) : i < b.length := by
  induction b generalizing i with
  | nil => simp [position] at h
  | cons x rest ih =>
    simp only [position] at h
    split_ifs at h with hp
    · obtain rfl : 0 = i := by simpa using h
      simp
    · obtain ⟨j, hj, rfl⟩ := Option.map_eq_some_iff.mp h
      simpa using ih hj

theorem position_append {c : UInt8} {b : Bytes} {i : ℕ} (x : Bytes)
    (h : position c b = some i) : position c (b ++ x) = some i := by
  induction b generalizing i with
  | nil => simp [position] at h
  | cons y rest ih =>
    simp only [position] at h
    split_ifs at h with hp
    · obtain rfl : 0 = i := by simpa using h
      simp [position, hp]
    · obtain ⟨j, hj, rfl⟩ := Option.map_eq_some_iff.mp h
      simp [position, hp, ih hj]

theorem position_eq_none {c : UInt8} {b : Bytes} : position c b = none ↔ c ∉ b := by
  induction b with
  | nil => simp [position]
  | cons x rest ih =>
    simp only [position]
    split_ifs with hp
    · simp [hp]
    · simp [ih, Ne.symm hp]

theorem position_some {c : UInt8} {b : Bytes} {i : ℕ} (h : position c b = some i) :
    b.take (i + 1) = b.take i ++ [c] ∧ c ∉ b.take i := by
  induction b generalizing i with
  | nil => simp [position] at h
  | cons x rest ih =>
    simp only [position] at h
    split_ifs at h with hp
    · obtain rfl : 0 = i := by simpa using h
      simp [hp]
    · obtain ⟨j, hj, rfl⟩ := Option.map_eq_some_iff.mp h
      obtain ⟨he, hn⟩ := ih hj
      exact ⟨by simpa using he, by simpa [Ne.symm hp] using hn⟩

/-- The first `c` in a line that has none but its last byte. -/
theorem position_line {c : UInt8} {l : Bytes} (hl : c ∉ l) (x : Bytes) :
    position c (l ++ c :: x) = some l.length := by
  induction l with
  | nil => simp [position]
  | cons b l ih =>
    have hb : b ≠ c := fun h => hl (by simp [h])
    simp [position, hb, ih (fun h => hl (by simp [h]))]

/-- A text has one first line. -/
theorem line_unique {c : UInt8} {a b x y : Bytes} (ha : c ∉ a) (hb : c ∉ b)
    (h : a ++ c :: x = b ++ c :: y) : a = b ∧ x = y := by
  have hlen : a.length = b.length := by
    have hx := position_line ha x
    rw [h, position_line hb y] at hx
    exact (Option.some.inj hx).symm
  obtain ⟨rfl, h⟩ := List.append_inj h hlen
  exact ⟨rfl, by simpa using h⟩

theorem splitOn_of_not_mem {c : UInt8} {l : Bytes} (h : c ∉ l) : splitOn c l = [l] := by
  induction l with
  | nil => rfl
  | cons b l ih =>
    have hb : b ≠ c := fun he => h (by simp [he])
    simp [splitOn, hb, ih fun he => h (by simp [he])]

theorem splitOn_append {c : UInt8} {l : Bytes} (h : c ∉ l) (rest : Bytes) :
    splitOn c (l ++ c :: rest) = l :: splitOn c rest := by
  induction l with
  | nil => simp [splitOn]
  | cons b l ih =>
    have hb : b ≠ c := fun he => h (by simp [he])
    simp [splitOn, hb, ih fun he => h (by simp [he])]

/-- Induction on a text by its pieces. -/
@[elab_as_elim]
theorem piece_induction (c : UInt8) {P : Bytes → Prop} (last : ∀ l, c ∉ l → P l)
    (piece : ∀ a b, c ∉ a → P b → P (a ++ c :: b)) (l : Bytes) : P l := by
  generalize hn : l.length = n
  induction n using Nat.strongRecOn generalizing l with
  | ind n ih =>
    by_cases hl : c ∈ l
    · obtain ⟨a, b, rfl, ha⟩ := List.eq_append_cons_of_mem hl
      rw [List.length_append, List.length_cons] at hn
      exact piece a b ha (ih b.length (by omega) b rfl)
    · exact last l hl

theorem splitOn_ne_nil (c : UInt8) (b : Bytes) : splitOn c b ≠ [] := by
  cases b with
  | nil => simp [splitOn]
  | cons x b =>
    simp only [splitOn]
    split_ifs
    · simp
    · split <;> simp

/-- Cutting a text at one of its separators. -/
theorem splitOn_append_sep (c : UInt8) (a b : Bytes) :
    splitOn c (a ++ c :: b) = splitOn c a ++ splitOn c b := by
  induction a with
  | nil => simp [splitOn]
  | cons x a ih =>
    have hne : splitOn c a ≠ [] := splitOn_ne_nil c a
    by_cases hx : x = c
    · simp [splitOn, hx, ih]
    · obtain ⟨l, ls, hl⟩ := List.exists_cons_of_ne_nil hne
      simp [splitOn, hx, ih, hl]

theorem not_mem_of_mem_splitOn {c : UInt8} {b l : Bytes} (h : l ∈ splitOn c b) : c ∉ l := by
  induction b generalizing l with
  | nil =>
    obtain rfl : l = [] := by simpa [splitOn] using h
    simp
  | cons x b ih =>
    obtain ⟨l', ls, hl⟩ := List.exists_cons_of_ne_nil (splitOn_ne_nil c b)
    rw [hl] at ih
    simp only [splitOn, hl] at h
    split_ifs at h with hx
    · rcases List.mem_cons.mp h with rfl | h
      · simp
      · exact ih h
    · rcases List.mem_cons.mp h with rfl | h
      · simp [Ne.symm hx, ih (List.mem_cons_self ..)]
      · exact ih (List.mem_cons_of_mem _ h)

/-- A needle in the middle of a text is found there at the latest. -/
theorem findSubsequence_infix {needle y : Bytes} {i : ℕ} (x z : Bytes)
    (h : findSubsequence needle y = some i) :
    ∃ j, findSubsequence needle (x ++ y ++ z) = some j ∧ j ≤ x.length + i := by
  induction x with
  | nil => exact ⟨i, findSubsequence_append z h, by simp⟩
  | cons b x ih =>
    obtain ⟨j, hj, hle⟩ := ih
    simp only [List.cons_append, findSubsequence, hj]
    split_ifs
    · exact ⟨0, rfl, Nat.zero_le _⟩
    · exact ⟨j + 1, rfl, by simp only [List.length_cons]; omega⟩

/-- Bytes without the needle are skipped when the byte after them is not part of it. -/
theorem findSubsequence_skip_none {needle x : Bytes} {c : UInt8}
    (hx : findSubsequence needle x = none) (hc : c ∉ needle) (z : Bytes) :
    findSubsequence needle (x ++ c :: z) =
      (findSubsequence needle (c :: z)).map (· + x.length) := by
  induction x with
  | nil => simp
  | cons b x ih =>
    simp only [findSubsequence] at hx
    split_ifs at hx with hp
    have hno : needle.isPrefixOf (b :: (x ++ c :: z)) = false := by
      rw [Bool.eq_false_iff]
      intro hq
      rw [List.isPrefixOf_iff_prefix] at hp hq
      have hlong : (b :: x).length < needle.length := by
        by_contra hle
        exact hp (List.prefix_of_prefix_length_le hq ⟨c :: z, rfl⟩ (Nat.not_lt.mp hle))
      obtain ⟨t, ht⟩ := hq
      apply hc
      have hget := congrArg (·[(b :: x).length]?) ht
      rw [List.getElem?_append_left hlong, ← List.cons_append,
        List.getElem?_append_right (Nat.le_refl _)] at hget
      simp only [Nat.sub_self, List.getElem?_cons_zero] at hget
      exact List.mem_of_getElem? hget
    rw [List.cons_append, findSubsequence, hno, ih (by simpa using hx)]
    simp [Function.comp_def, Nat.add_assoc]

section Drop

variable {b x z : Bytes} {o : ℕ}

/-- The byte that the rest of a text starts with. -/
theorem get_of_drop {y : UInt8} (h : b.drop o = y :: z) : b[o]? = some y := by
  have hget : (b.drop o)[0]? = some y := by rw [h, List.getElem?_cons_zero]
  rwa [List.getElem?_drop, Nat.add_zero] at hget

theorem drop_of_drop (h : b.drop o = x ++ z) : b.drop (o + x.length) = z := by
  rw [← List.drop_drop, h, List.drop_left]

end Drop

end Adwarden
