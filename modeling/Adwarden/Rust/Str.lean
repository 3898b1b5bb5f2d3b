import Adwarden.Rust.Bytes

/-! Rust `String` and `&str` as lists of Unicode scalar values, with the parts of the standard
library that the parsers use. -/
namespace Adwarden

abbrev Str := List Char

namespace Str

/-- A string literal. -/
def lit (s : String) : Str := s.toList

def toBytes (s : Str) : Bytes := s.flatMap String.utf8EncodeChar

def contByte (b : UInt8) : Bool := 0x80 ≤ b && b ≤ 0xBF

/-- The scalar value at the front of `b :: rest`, or `none` for a maximal invalid sequence,
with the number of bytes of `rest` it takes. -/
def decodeStep (b : UInt8) (rest : Bytes) : Option Char × ℕ :=
  let bits (k : ℕ) (c : UInt8) : ℕ := c.toNat % k
  if b < 0x80 then (some (Char.ofNat b.toNat), 0)
  else if 0xC2 ≤ b ∧ b ≤ 0xDF then
    match rest with
    | c :: _ =>
      if contByte c then (some (Char.ofNat (bits 32 b * 64 + bits 64 c)), 1) else (none, 0)
    | [] => (none, 0)
  else if 0xE0 ≤ b ∧ b ≤ 0xEF then
    match rest with
    | c :: rest =>
      if (b = 0xE0 ∧ c < 0xA0) ∨ (b = 0xED ∧ 0x9F < c) ∨ contByte c = false then (none, 0)
      else match rest with
        | d :: _ =>
          if contByte d then
            (some (Char.ofNat (bits 16 b * 4096 + bits 64 c * 64 + bits 64 d)), 2)
          else (none, 1)
        | [] => (none, 1)
    | [] => (none, 0)
  else if 0xF0 ≤ b ∧ b ≤ 0xF4 then
    match rest with
    | c :: rest =>
      if (b = 0xF0 ∧ c < 0x90) ∨ (b = 0xF4 ∧ 0x8F < c) ∨ contByte c = false then (none, 0)
      else match rest with
        | d :: rest =>
          if contByte d then
            match rest with
            | e :: _ =>
              if contByte e then
                (some (Char.ofNat (bits 8 b * 262144 + bits 64 c * 4096 + bits 64 d * 64 +
                  bits 64 e)), 3)
              else (none, 2)
            | [] => (none, 2)
          else (none, 1)
        | [] => (none, 1)
    | [] => (none, 0)
  else (none, 0)

/-- The scalar values of a byte string, `none` standing for each maximal invalid sequence. The
first argument bounds the number of values. -/
def decodeChunks : ℕ → Bytes → List (Option Char)
  | 0, _ => []
  | _ + 1, [] => []
  | n + 1, b :: rest => (decodeStep b rest).1 :: decodeChunks n (rest.drop (decodeStep b rest).2)

/-- `std::str::from_utf8(bytes).ok()`. -/
def fromUtf8 (b : Bytes) : Option Str := (decodeChunks b.length b).allSome

/-- `String::from_utf8_lossy(bytes)`. -/
def fromUtf8Lossy (b : Bytes) : Str := (decodeChunks b.length b).map (·.getD (Char.ofNat 0xFFFD))

/-- `char::is_whitespace`, the Unicode property `White_Space`. -/
def isWhitespace (c : Char) : Bool :=
  let n := c.toNat
  (9 ≤ n && n ≤ 13) || n == 0x20 || n == 0x85 || n == 0xA0 || n == 0x1680 ||
    (0x2000 ≤ n && n ≤ 0x200A) || n == 0x2028 || n == 0x2029 || n == 0x202F || n == 0x205F ||
    n == 0x3000

def trimStart (s : Str) : Str := s.dropWhile isWhitespace

def trimEnd (s : Str) : Str := (s.reverse.dropWhile isWhitespace).reverse

def trim (s : Str) : Str := trimEnd (trimStart s)

def toAsciiLowercase (s : Str) : Str :=
  s.map fun c => if 65 ≤ c.toNat ∧ c.toNat ≤ 90 then Char.ofNat (c.toNat + 32) else c

def eqIgnoreAsciiCase (a b : Str) : Bool := toAsciiLowercase a == toAsciiLowercase b

def startsWith (s p : Str) : Bool := p.isPrefixOf s

def endsWith (s p : Str) : Bool := p.isSuffixOf s

def stripPrefix (p s : Str) : Option Str := if p.isPrefixOf s then some (s.drop p.length) else none

def trimMatches (c : Char) (s : Str) : Str :=
  ((s.dropWhile (· == c)).reverse.dropWhile (· == c)).reverse

/-- `s.split(c)`: always at least one piece. -/
def split (c : Char) : Str → List Str
  | [] => [[]]
  | x :: rest =>
    if x = c then [] :: split c rest
    else match split c rest with
      | [] => [[x]]
      | l :: ls => (x :: l) :: ls

/-- `s.split_once(c)`. -/
def splitOnce (c : Char) : Str → Option (Str × Str)
  | [] => none
  | x :: rest =>
    if x = c then some ([], rest)
    else (splitOnce c rest).map fun p => (x :: p.1, p.2)

/-- `s.splitn(n, c)`: the last piece keeps the rest of the separators. -/
def splitn (c : Char) : ℕ → Str → List Str
  | 0, _ => []
  | 1, s => [s]
  | n + 2, s =>
    match splitOnce c s with
    | none => [s]
    | some (a, b) => a :: splitn c (n + 1) b

/-- `labels.join(".")`. -/
def join (sep : Str) : List Str → Str
  | [] => []
  | [s] => s
  | s :: ss => s ++ sep ++ join sep ss

def digitVal (c : Char) : Option ℕ :=
  let n := c.toNat
  if 48 ≤ n ∧ n ≤ 57 then some (n - 48)
  else if 97 ≤ n ∧ n ≤ 122 then some (n - 87)
  else if 65 ≤ n ∧ n ≤ 90 then some (n - 55)
  else none

def pushDigit (radix : ℕ) (acc : Option ℕ) (c : Char) : Option ℕ :=
  match acc, digitVal c with
  | some n, some d => if d < radix then some (n * radix + d) else none
  | _, _ => none

def stripPlus : Str → Str
  | '+' :: rest => rest
  | s => s

/-- `uN::from_str_radix(s, radix)` for an unsigned type of `bits` bits: an optional `+`, at least
one digit, no overflow. -/
def fromStrRadix (bits radix : ℕ) (s : Str) : Option ℕ :=
  if stripPlus s = [] then none
  else ((stripPlus s).foldl (pushDigit radix) (some 0)).filter (· < 2 ^ bits)

def parseUsize (s : Str) : Option ℕ := fromStrRadix usizeBits 10 s

def parseU16 (s : Str) : Option ℕ := fromStrRadix 16 10 s

/-- `n.to_string()`. -/
def ofNat (n : ℕ) : Str := Nat.toDigits 10 n

/-- `format!("{n:x}")`. -/
def ofNatHex (n : ℕ) : Str := Nat.toDigits 16 n

theorem split_of_not_mem {c : Char} {s : Str} (h : c ∉ s) : split c s = [s] := by
  induction s with
  | nil => rfl
  | cons x s ih =>
    have hx : x ≠ c := fun he => h (by simp [he])
    simp [split, hx, ih fun he => h (by simp [he])]

theorem split_append {c : Char} {a : Str} (h : c ∉ a) (b : Str) :
    split c (a ++ c :: b) = a :: split c b := by
  induction a with
  | nil => simp [split]
  | cons x a ih =>
    have hx : x ≠ c := fun he => h (by simp [he])
    simp [split, hx, ih fun he => h (by simp [he])]

/-- A piece has no separator and only characters of the text. -/
theorem mem_split {c : Char} {s p : Str} (h : p ∈ split c s) : c ∉ p ∧ ∀ x ∈ p, x ∈ s := by
  induction s generalizing p with
  | nil =>
    obtain rfl : p = [] := by simpa [split] using h
    simp
  | cons y s ih =>
    simp only [split] at h
    split_ifs at h with hy
    · rcases List.mem_cons.mp h with rfl | h
      · simp
      · exact ⟨(ih h).1, fun x hx => List.mem_cons_of_mem _ ((ih h).2 x hx)⟩
    · split at h
      · next hl =>
        obtain rfl : p = [y] := by simpa using h
        exact ⟨by simpa using Ne.symm hy, by simp⟩
      · next l ls hl =>
        rw [hl] at ih
        rcases List.mem_cons.mp h with rfl | h
        · obtain ⟨hc, hs⟩ := ih (List.mem_cons_self ..)
          refine ⟨by simp [Ne.symm hy, hc], fun x hx => ?_⟩
          rcases List.mem_cons.mp hx with rfl | hx
          · exact List.mem_cons_self ..
          · exact List.mem_cons_of_mem _ (hs x hx)
        · obtain ⟨hc, hs⟩ := ih (List.mem_cons_of_mem _ h)
          exact ⟨hc, fun x hx => List.mem_cons_of_mem _ (hs x hx)⟩

theorem splitOnce_append {c : Char} {a : Str} (h : c ∉ a) (b : Str) :
    splitOnce c (a ++ c :: b) = some (a, b) := by
  induction a with
  | nil => simp [splitOnce]
  | cons x a ih =>
    have hx : x ≠ c := fun he => h (by simp [he])
    simp [splitOnce, hx, ih fun he => h (by simp [he])]

/-- The cut is at the first separator. -/
theorem splitOnce_some {c : Char} {s a b : Str} (h : splitOnce c s = some (a, b)) :
    s = a ++ c :: b ∧ c ∉ a := by
  induction s generalizing a with
  | nil => cases h
  | cons x s ih =>
    simp only [splitOnce] at h
    split_ifs at h with hx
    · obtain ⟨rfl, rfl⟩ := Prod.mk.inj (Option.some.inj h)
      exact ⟨by rw [hx, List.nil_append], List.not_mem_nil⟩
    · obtain ⟨⟨a', b'⟩, hs, he⟩ := Option.map_eq_some_iff.mp h
      obtain ⟨rfl, rfl⟩ := Prod.mk.inj he
      obtain ⟨rfl, hc⟩ := ih hs
      exact ⟨rfl, by simp [Ne.symm hx, hc]⟩

theorem splitOnce_none {c : Char} {s : Str} (h : splitOnce c s = none) : c ∉ s := by
  induction s with
  | nil => exact List.not_mem_nil
  | cons x s ih =>
    simp only [splitOnce] at h
    split_ifs at h with hx
    exact List.not_mem_cons_of_ne_of_not_mem (Ne.symm hx) (ih (Option.map_eq_none_iff.mp h))

end Str

end Adwarden
