import Adwarden.Rust.Ascii
import Adwarden.Tls.Chunk

/-! Response heads as a grammar, and what the head parsers make of them. -/
namespace Adwarden.Tls

/-- A head written as its lines. -/
def headBytes (lines : List Bytes) : Bytes := (lines.flatMap fun l => l ++ CRLF) ++ CRLF

/-- A line with text and without line ends. -/
structure IsLine (l : Bytes) : Prop where
  nonempty : l ≠ []
  cr : CR ∉ l
  lf : LF ∉ l

theorem findSubsequence_skip {l : Bytes} (h : CR ∉ l) (y : Bytes) :
    findSubsequence headTerminator (l ++ y) =
      (findSubsequence headTerminator y).map (· + l.length) := by
  induction l with
  | nil => simp
  | cons b l ih =>
    have hb : CR ≠ b := fun he => h (by simp [he])
    rw [List.cons_append, findSubsequence, ih fun he => h (by simp [he])]
    simp [headTerminator, List.isPrefixOf, hb, Function.comp_def, Nat.add_assoc]

/-- The head ends at its first blank line. -/
theorem findHeaderEnd_headBytes {lines : List Bytes} (hne : lines ≠ [])
    (hl : ∀ l ∈ lines, IsLine l) (x : Bytes) :
    findHeaderEnd (headBytes lines ++ x) = some (headBytes lines).length := by
  suffices findSubsequence headTerminator (headBytes lines ++ x) =
      some ((headBytes lines).length - 4) by
    have hlen : 4 ≤ (headBytes lines).length := by
      cases lines with
      | nil => exact absurd rfl hne
      | cons l ls => simp [headBytes, CRLF]; omega
    rw [findHeaderEnd, this, Option.map_some, Nat.sub_add_cancel hlen]
  induction lines with
  | nil => exact absurd rfl hne
  | cons l ls ih =>
    have hline := hl l (by simp)
    have happ : headBytes (l :: ls) ++ x = l ++ (CRLF ++ (headBytes ls ++ x)) := by
      simp [headBytes]
    rw [happ, findSubsequence_skip hline.cr]
    cases ls with
    | nil =>
      simp [headBytes, CRLF, findSubsequence, headTerminator, List.isPrefixOf]
    | cons l' ls =>
      have hline' := hl l' (by simp)
      obtain ⟨c, t, hct⟩ : ∃ c t, l' = c :: t := List.exists_cons_of_ne_nil hline'.nonempty
      have hc : CR ≠ c := fun he => hline'.cr (by simp [hct, he])
      have htail := ih (by simp) fun l hm => hl l (by simp [hm])
      have hstart : headBytes (l' :: ls) ++ x =
          c :: (t ++ CRLF ++ headBytes ls ++ x) := by simp [headBytes, hct]
      have hskip : findSubsequence headTerminator (CRLF ++ (headBytes (l' :: ls) ++ x)) =
          (findSubsequence headTerminator (headBytes (l' :: ls) ++ x)).map (· + 2) := by
        have hLF : CR ≠ LF := LF_ne_CR.symm
        rw [hstart]
        simp only [CRLF, List.cons_append, List.nil_append]
        rw [findSubsequence, findSubsequence]
        simp [headTerminator, List.isPrefixOf, hc, hLF, Function.comp_def]
      rw [hskip, htail]
      simp [headBytes, CRLF]
      omega

theorem splitCrlfLines_headBytes {lines : List Bytes} (hl : ∀ l ∈ lines, LF ∉ l) :
    splitCrlfLines (headBytes lines) = lines ++ [[], []] := by
  induction lines with
  | nil => decide
  | cons l ls ih =>
    have hsplit : splitOn LF (headBytes (l :: ls)) = (l ++ [CR]) :: splitOn LF (headBytes ls) := by
      have hnot : LF ∉ l ++ [CR] := by simp [hl l (by simp), LF_ne_CR]
      rw [← splitOn_append hnot]
      simp [headBytes, CRLF]
    have htail := ih fun l hm => hl l (by simp [hm])
    rw [splitCrlfLines] at htail
    rw [splitCrlfLines, hsplit, List.map_cons, htail]
    simp

/-- A header field as written: the value keeps the blanks around it. -/
structure Field where
  name : Bytes
  value : Bytes

def isNameByte (b : UInt8) : Bool := 33 ≤ b && b ≤ 126 && b != 58

structure Field.WellFormed (f : Field) : Prop where
  nonempty : f.name ≠ []
  name : ∀ b ∈ f.name, isNameByte b
  cr : CR ∉ f.value
  lf : LF ∉ f.value

def Field.line (f : Field) : Bytes := f.name ++ 58 :: f.value

/-- The field as the parsers report it. -/
def Field.parsed (f : Field) : Str × Str :=
  (asciiStr f.name, Str.trim (Str.fromUtf8Lossy f.value))

theorem nameByte_ascii {b : UInt8} (h : isNameByte b) : b < 0x80 :=
  forall_byte (P := fun b => isNameByte b = true → b < 0x80) (by decide +kernel) b h

theorem nameByte_not_blank {b : UInt8} (h : isNameByte b) :
    Str.isWhitespace (Char.ofNat b.toNat) = false :=
  forall_byte (P := fun b => isNameByte b = true →
    Str.isWhitespace (Char.ofNat b.toNat) = false) (by decide +kernel) b h

theorem nameByte_ne {b : UInt8} (h : isNameByte b) : b ≠ 58 ∧ b ≠ CR ∧ b ≠ LF :=
  forall_byte (P := fun b => isNameByte b = true → b ≠ 58 ∧ b ≠ CR ∧ b ≠ LF)
    (by decide +kernel) b h

theorem Field.WellFormed.isLine {f : Field} (h : f.WellFormed) : IsLine f.line := by
  refine ⟨by simp [Field.line], ?_, ?_⟩
  · have hn : CR ∉ f.name := fun hm => (nameByte_ne (h.name _ hm)).2.1 rfl
    simp [Field.line, hn, h.cr, show CR ≠ 58 by decide]
  · have hn : LF ∉ f.name := fun hm => (nameByte_ne (h.name _ hm)).2.2 rfl
    simp [Field.line, hn, h.lf, show LF ≠ 58 by decide]

/-- A line that opens with a name and a colon is a field, whatever follows. -/
theorem headerField_named {name : Bytes} (hne : name ≠ []) (hname : ∀ b ∈ name, isNameByte b)
    (value : Bytes) :
    headerField (name ++ 58 :: value) =
      some [(asciiStr name, Str.trim (Str.fromUtf8Lossy value))] := by
  have hascii : IsAscii name := fun b hb => nameByte_ascii (hname b hb)
  have hcolon : (58 : UInt8) ∉ name := fun hm => (nameByte_ne (hname _ hm)).1 rfl
  have htrim : Str.trim (asciiStr name) = asciiStr name := by
    refine Str.trim_of_forall ?_
    simp only [asciiStr, List.mem_map]
    rintro _ ⟨b, hb, rfl⟩
    exact nameByte_not_blank (hname b hb)
  have hstr : asciiStr name ≠ [] := by simpa [asciiStr] using hne
  have htake : (name ++ 58 :: value).take name.length = name := List.take_left' rfl
  have hdrop : (name ++ 58 :: value).drop (name.length + 1) = value := by
    rw [← List.singleton_append, ← List.append_assoc]
    exact List.drop_left' (by simp)
  simp [headerField, position_line hcolon, htake, hdrop, Str.fromUtf8Lossy_ascii hascii, htrim,
    hstr]

theorem headerField_line {f : Field} (h : f.WellFormed) : headerField f.line = some [f.parsed] :=
  headerField_named h.nonempty h.name f.value

/-- A start line and its fields are parsed back. -/
theorem parseHeadFields_headBytes {start : Bytes} {fields : List Field} (hs : IsLine start)
    (hf : ∀ f ∈ fields, f.WellFormed) :
    parseHeadFields (headBytes (start :: fields.map Field.line)) =
      some (start, fields.map Field.parsed) := by
  have hlf : ∀ l ∈ start :: fields.map Field.line, LF ∉ l := by
    simp only [List.mem_cons, List.mem_map]
    rintro l (rfl | ⟨f, hm, rfl⟩)
    · exact hs.lf
    · exact (hf f hm).isLine.lf
  have hfields : (fields.map Field.line).map headerField =
      (fields.map fun f => [f.parsed]).map some := by
    rw [List.map_map, List.map_map]
    exact List.map_congr_left fun f hm => headerField_line (hf f hm)
  have hblank : ([[], []] : List Bytes).map headerField = [some [], some []] := rfl
  have hends : ([some [], some []] : List (Option Headers)).allSome = some [[], []] := rfl
  rw [parseHeadFields, splitCrlfLines_headBytes hlf]
  simp only [List.cons_append, List.map_append, hfields, hblank, Str.allSome_map_some, hends,
    Option.map_some]
  simp [← List.flatMap_def]
  exact List.map_eq_flatMap.symm

/-- A response head as written. -/
structure RespHead where
  code : Bytes
  reason : Bytes
  fields : List Field

def isDigit (b : UInt8) : Bool := 48 ≤ b && b ≤ 57

structure RespHead.WellFormed (r : RespHead) : Prop where
  code : r.code.length = 3 ∧ ∀ b ∈ r.code, isDigit b
  cr : CR ∉ r.reason
  lf : LF ∉ r.reason
  fields : ∀ f ∈ r.fields, f.WellFormed

namespace RespHead

def statusLine (r : RespHead) : Bytes := ascii "HTTP/1.1 " ++ (r.code ++ 32 :: r.reason)

def encode (r : RespHead) : Bytes := headBytes (r.statusLine :: r.fields.map Field.line)

def status (r : RespHead) : ℕ := Str.digitsValue 10 (asciiStr r.code)

def headers (r : RespHead) : Headers := r.fields.map Field.parsed

theorem digit_ascii {b : UInt8} (h : isDigit b) : b < 0x80 :=
  forall_byte (P := fun b => isDigit b = true → b < 0x80) (by decide +kernel) b h

theorem digit_digitVal {b : UInt8} (h : isDigit b) :
    ∃ d, Str.digitVal (Char.ofNat b.toNat) = some d ∧ d < 10 := by
  have key := forall_byte (P := fun b => isDigit b = true →
    (Str.digitVal (Char.ofNat b.toNat)).any (· < 10) = true) (by decide +kernel) b h
  obtain ⟨d, hd, hlt⟩ := (Option.any_eq_true _ _).mp key
  exact ⟨d, hd, by simpa using hlt⟩

theorem digit_ne {b : UInt8} (h : isDigit b) :
    Char.ofNat b.toNat ≠ ' ' ∧ b ≠ CR ∧ b ≠ LF :=
  forall_byte (P := fun b => isDigit b = true → Char.ofNat b.toNat ≠ ' ' ∧ b ≠ CR ∧ b ≠ LF)
    (by decide +kernel) b h

theorem digits_isDigits {b : Bytes} (hne : b ≠ []) (h : ∀ x ∈ b, isDigit x) :
    Str.IsDigits 10 (asciiStr b) := by
  refine ⟨by simpa [asciiStr] using hne, ?_⟩
  simp only [asciiStr, List.mem_map]
  rintro _ ⟨x, hx, rfl⟩
  exact digit_digitVal (h x hx)

variable {r : RespHead}

theorem WellFormed.status_lt (h : r.WellFormed) : r.status < 2 ^ 16 := by
  obtain ⟨hlen, hd⟩ := h.code
  obtain ⟨a, b, c, habc⟩ := List.length_eq_three.mp hlen
  obtain ⟨x, hx, hx'⟩ := digit_digitVal (hd a (by simp [habc]))
  obtain ⟨y, hy, hy'⟩ := digit_digitVal (hd b (by simp [habc]))
  obtain ⟨z, hz, hz'⟩ := digit_digitVal (hd c (by simp [habc]))
  simp only [status, Str.digitsValue, asciiStr, habc, List.map_cons, List.map_nil, List.foldl_cons,
    List.foldl_nil, hx, hy, hz, Option.getD_some]
  omega

/-- The status is read back when the reason phrase is UTF-8. -/
theorem parseStatusLine_statusLine (h : r.WellFormed) {reason : Str}
    (hr : Str.fromUtf8 r.reason = some reason) :
    parseStatusLine r.statusLine = some (Str.lit "HTTP/1.1", r.status, reason) := by
  obtain ⟨hlen, hd⟩ := h.code
  have hascii : IsAscii (ascii "HTTP/1.1 " ++ (r.code ++ [32])) := by
    intro b hb
    simp only [List.mem_append, List.mem_singleton] at hb
    rcases hb with hb | hb | rfl
    · revert b
      decide +kernel
    · exact digit_ascii (hd b hb)
    · decide
  have hsl : r.statusLine = (ascii "HTTP/1.1 " ++ (r.code ++ [32])) ++ r.reason := by
    simp [statusLine]
  have htext : Str.fromUtf8 r.statusLine =
      some (Str.lit "HTTP/1.1" ++ ' ' :: (asciiStr r.code ++ ' ' :: reason)) := by
    rw [hsl, Str.fromUtf8_ascii_append hascii, hr, Str.asciiStr_append, Str.asciiStr_append]
    have h1 : asciiStr (ascii "HTTP/1.1 ") = Str.lit "HTTP/1.1" ++ [' '] := by decide
    have h2 : asciiStr [32] = [' '] := by decide
    simp [h1, h2]
  have hcode : ' ' ∉ asciiStr r.code := by
    simp only [asciiStr, List.mem_map, not_exists, not_and]
    exact fun b hb => (digit_ne (hd b hb)).1
  have hsplit : Str.splitn ' ' 3 (Str.lit "HTTP/1.1" ++ ' ' :: (asciiStr r.code ++ ' ' :: reason)) =
      [Str.lit "HTTP/1.1", asciiStr r.code, reason] := by
    have hv : ' ' ∉ Str.lit "HTTP/1.1" := by decide
    simp only [Str.splitn, Str.splitOnce_append hv, Str.splitOnce_append hcode]
  have hne : r.code ≠ [] := by
    intro he
    simp [he] at hlen
  have hstatus : Str.parseU16 (asciiStr r.code) = some r.status :=
    Str.fromStrRadix_digits (digits_isDigits hne hd) h.status_lt
  have hv : Str.startsWith (Str.lit "HTTP/1.1") (Str.lit "HTTP/") = true := by decide
  simp [parseStatusLine, htext, hsplit, hstatus, hv]

theorem WellFormed.isLine (h : r.WellFormed) : IsLine r.statusLine := by
  obtain ⟨-, hd⟩ := h.code
  have hcr : CR ∉ r.code := fun hm => (digit_ne (hd _ hm)).2.1 rfl
  have hlf : LF ∉ r.code := fun hm => (digit_ne (hd _ hm)).2.2 rfl
  have h1 : CR ∉ ascii "HTTP/1.1 " := by decide
  have h2 : LF ∉ ascii "HTTP/1.1 " := by decide
  refine ⟨by simp [statusLine], ?_, ?_⟩
  · simp [statusLine, h1, hcr, h.cr, show CR ≠ 32 by decide]
  · simp [statusLine, h2, hlf, h.lf, show LF ≠ 32 by decide]

theorem findHeaderEnd_encode (h : r.WellFormed) (x : Bytes) :
    findHeaderEnd (r.encode ++ x) = some r.encode.length := by
  refine findHeaderEnd_headBytes (by simp) ?_ x
  simp only [List.mem_cons, List.mem_map]
  rintro l (rfl | ⟨f, hf, rfl⟩)
  · exact h.isLine
  · exact (h.fields f hf).isLine

theorem parseHeadFields_encode (h : r.WellFormed) :
    parseHeadFields r.encode = some (r.statusLine, r.headers) :=
  parseHeadFields_headBytes h.isLine h.fields

end RespHead

end Adwarden.Tls
