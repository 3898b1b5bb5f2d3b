import Adwarden.Tls.HeadEdit
import Adwarden.Tls.Message

/-! What the head editors make of a well-formed head: the same head without some of its fields, or
with another length. -/
namespace Adwarden.Tls

/-- A message head: its start line and its fields. -/
structure Head where
  start : Bytes
  fields : List Field

namespace Head

structure WellFormed (h : Head) : Prop where
  start : IsLine h.start
  fields : ∀ f ∈ h.fields, f.WellFormed

def lines (h : Head) : List Bytes := h.start :: h.fields.map Field.line

def encode (h : Head) : Bytes := headBytes h.lines

def headers (h : Head) : Headers := h.fields.map Field.parsed

end Head

/-- The lines of a head without its terminator. -/
def headText : List Bytes → Bytes
  | [] => []
  | [l] => l
  | l :: ls => l ++ CRLF ++ headText ls

theorem headBytes_eq {lines : List Bytes} (hne : lines ≠ []) :
    headBytes lines = headText lines ++ (CRLF ++ CRLF) := by
  induction lines with
  | nil => exact absurd rfl hne
  | cons l ls ih =>
    cases ls with
    | nil => simp [headBytes, headText]
    | cons l' ls =>
      have htail := ih (by simp)
      simp only [headBytes, List.flatMap_cons, List.append_assoc] at htail ⊢
      rw [htail]
      simp [headText]

theorem headBytes_take {lines : List Bytes} (hne : lines ≠ []) :
    (headBytes lines).take ((headBytes lines).length - 4) = headText lines := by
  rw [headBytes_eq hne]
  simp [CRLF]

theorem splitCrlfLines_headText {lines : List Bytes} (hne : lines ≠ [])
    (hl : ∀ l ∈ lines, CR ∉ l ∧ LF ∉ l) : splitCrlfLines (headText lines) = lines := by
  induction lines with
  | nil => exact absurd rfl hne
  | cons l ls ih =>
    obtain ⟨hcr, hlf⟩ := hl l (by simp)
    cases ls with
    | nil =>
      have hlast : l.getLast? ≠ some CR := fun h => hcr (List.mem_of_mem_getLast? h)
      simp [headText, splitCrlfLines, splitOn_of_not_mem hlf, hlast]
    | cons l' ls =>
      have hsplit : splitOn LF (headText (l :: l' :: ls)) =
          (l ++ [CR]) :: splitOn LF (headText (l' :: ls)) := by
        have hnot : LF ∉ l ++ [CR] := by simp [hlf, LF_ne_CR]
        rw [← splitOn_append hnot]
        simp [headText, CRLF]
      have htail := ih (by simp) fun l hm => hl l (by simp [hm])
      rw [splitCrlfLines] at htail
      rw [splitCrlfLines, hsplit, List.map_cons, htail]
      simp

theorem crlfLinesFrom_line {l : Bytes} (h : CR ∉ l) (cur rest : Bytes) :
    crlfLinesFrom cur (l ++ CRLF ++ rest) = (cur ++ l) :: crlfLinesFrom [] rest := by
  induction l generalizing cur with
  | nil => simp [CRLF, crlfLinesFrom]
  | cons b l ih =>
    have hb : b ≠ CR := fun he => h (by simp [he])
    have htail := ih (fun he => h (by simp [he])) (cur ++ [b])
    obtain ⟨c, t, hct⟩ : ∃ c t, l ++ CRLF ++ rest = c :: t :=
      List.exists_cons_of_ne_nil (by simp [CRLF])
    rw [List.cons_append, List.cons_append, hct, crlfLinesFrom, if_neg (fun he => hb he.1), ← hct,
      htail]
    simp

theorem crlfLinesFrom_end {l : Bytes} (h : CR ∉ l) {cur : Bytes} (hne : cur ++ l ≠ []) :
    crlfLinesFrom cur l = [cur ++ l] := by
  induction l generalizing cur with
  | nil => simp [crlfLinesFrom, show cur ≠ [] by simpa using hne]
  | cons b l ih =>
    have hb : b ≠ CR := fun he => h (by simp [he])
    cases l with
    | nil => simp [crlfLinesFrom]
    | cons c l =>
      rw [crlfLinesFrom, if_neg (fun he => hb he.1), ih (fun he => h (by simp [he])) (by simp)]
      simp

theorem crlfLines_headText {lines : List Bytes} (hl : ∀ l ∈ lines, IsLine l) :
    crlfLines (headText lines) = lines := by
  induction lines with
  | nil => rfl
  | cons l ls ih =>
    have hline := hl l (by simp)
    cases ls with
    | nil => exact crlfLinesFrom_end hline.cr (by simpa using hline.nonempty)
    | cons l' ls =>
      have htail := ih fun l hm => hl l (by simp [hm])
      rw [crlfLines] at htail ⊢
      rw [headText, crlfLinesFrom_line hline.cr, htail, List.nil_append]
      simp

namespace Head

variable {h : Head}

theorem WellFormed.isLine (hw : h.WellFormed) : ∀ l ∈ h.lines, IsLine l := by
  simp only [lines, List.mem_cons, List.mem_map]
  rintro l (rfl | ⟨f, hf, rfl⟩)
  · exact hw.start
  · exact (hw.fields f hf).isLine

theorem findHeaderEnd_encode (hw : h.WellFormed) (x : Bytes) :
    findHeaderEnd (h.encode ++ x) = some h.encode.length :=
  findHeaderEnd_headBytes (by simp [lines]) hw.isLine x

theorem encode_take (h : Head) : h.encode.take (h.encode.length - 4) = headText h.lines :=
  headBytes_take (by simp [lines])

theorem parseHeadFields_text (hw : h.WellFormed) :
    parseHeadFields (headText h.lines) = some (h.start, h.headers) := by
  have hsplit := @splitCrlfLines_headText h.lines (by simp [lines])
    fun l hm => ⟨(hw.isLine l hm).cr, (hw.isLine l hm).lf⟩
  have hfields : (h.fields.map Field.line).map headerField =
      (h.fields.map fun f => [f.parsed]).map some := by
    rw [List.map_map, List.map_map]
    exact List.map_congr_left fun f hm => headerField_line (hw.fields f hm)
  have hall := Str.allSome_map_some (h.fields.map fun f => [f.parsed]) []
  have hnil : ([] : List (Option Headers)).allSome = some [] := rfl
  rw [List.append_nil, hnil, Option.map_some, List.append_nil] at hall
  rw [parseHeadFields, hsplit, lines]
  simp only [hfields, hall, Option.map_some]
  simp [headers, ← List.flatMap_def]
  exact List.map_eq_flatMap.symm

end Head

theorem Field.WellFormed.lineName {f : Field} (h : f.WellFormed) : lineName f.line = f.name := by
  have hcolon : (58 : UInt8) ∉ f.name := fun hm => (nameByte_ne (h.name _ hm)).1 rfl
  rw [Tls.lineName, Field.line, position_line hcolon f.value]
  exact List.take_left' rfl

theorem nameByte_not_space {b : UInt8} (h : isNameByte b) : isAsciiWhitespace b = false :=
  forall_byte (P := fun b => isNameByte b = true → isAsciiWhitespace b = false)
    (by decide +kernel) b h

theorem asciiTrim_of_forall {s : Bytes} (h : ∀ b ∈ s, isAsciiWhitespace b = false) :
    asciiTrim s = s := by
  have hdrop : ∀ t : Bytes, (∀ b ∈ t, isAsciiWhitespace b = false) →
      t.dropWhile isAsciiWhitespace = t := by
    intro t ht
    cases t with
    | nil => rfl
    | cons b t => simp [ht b (by simp)]
  rw [asciiTrim, hdrop s h, hdrop _ fun b hb => h b (List.mem_reverse.mp hb), List.reverse_reverse]

theorem nameIs_line {f : Field} (h : f.WellFormed) (target : String) :
    nameIs f.line target = eqIgnoreAsciiCase f.name (ascii target) := by
  rw [nameIs, h.lineName, asciiTrim_of_forall fun b hb => nameByte_not_space (h.name b hb)]

theorem isContinuation_line {f : Field} (h : f.WellFormed) : isContinuation f.line = false := by
  obtain ⟨b, t, hb⟩ := List.exists_cons_of_ne_nil h.nonempty
  have key : isNameByte b → b ≠ 32 ∧ b ≠ 9 :=
    forall_byte (P := fun b => isNameByte b = true → b ≠ 32 ∧ b ≠ 9) (by decide +kernel) b
  obtain ⟨h1, h2⟩ := key (h.name b (by simp [hb]))
  simp [isContinuation, Field.line, hb, h1, h2]

/-- Without continuation lines each field is edited alone. -/
theorem editLines_fields (edit : Bytes → Option Bytes) {fields : List Field}
    (hf : ∀ f ∈ fields, f.WellFormed) (dropped : Bool) :
    editLines edit dropped (fields.map Field.line) =
      fields.flatMap fun f => (edit f.line).getD [] := by
  induction fields generalizing dropped with
  | nil => rfl
  | cons f fields ih =>
    have htail := ih fun f hm => hf f (by simp [hm])
    rw [List.map_cons, editLines, isContinuation_line (hf f (by simp))]
    cases he : edit f.line with
    | none => simp [he, htail]
    | some text => simp [he, htail]

def isCspField (f : Field) : Bool :=
  eqIgnoreAsciiCase f.name (ascii "content-security-policy") ||
    eqIgnoreAsciiCase f.name (ascii "content-security-policy-report-only") ||
    eqIgnoreAsciiCase f.name (ascii "x-content-security-policy")

def isLengthField (f : Field) : Bool := eqIgnoreAsciiCase f.name (ascii "content-length")

/-- The same field with the length `n`, if it declares one. -/
def Field.withLength (n : ℕ) (f : Field) : Field :=
  if isLengthField f then { f with value := 32 :: Str.toBytes (Str.ofNat n) } else f

/-- The head an injected response gets: without its CSP fields, and of length `n`. -/
def Head.injected (h : Head) (n : ℕ) : Head where
  start := h.start
  fields := (h.fields.filter fun f => !isCspField f).map (Field.withLength n)

theorem editResponseLine_line {f : Field} (h : f.WellFormed) (n : ℕ) {setCl : Option ℕ}
    (hcl : setCl = some n ∨ setCl = none ∧ isLengthField f = false) :
    editResponseLine setCl f.line =
      if isCspField f then none else some ((f.withLength n).line ++ CRLF) := by
  have hcsp : isCsp f.line = isCspField f := by
    simp only [isCsp, nameIs_line h, isCspField]
  unfold editResponseLine
  rw [hcsp]
  cases hc : isCspField f with
  | true => simp
  | false =>
    rcases hcl with rfl | ⟨rfl, hl⟩
    · have hlen : nameIs f.line "content-length" = isLengthField f := nameIs_line h _
      cases hl : isLengthField f with
      | true =>
        have hcolon : ascii ": " = [58, 32] := by decide
        simp only [hlen, hl, h.lineName, if_true, Field.withLength, Bool.false_eq_true, if_false]
        simp [Field.line, hcolon]
      | false => simp [hlen, hl, Field.withLength, emitLine]
    · simp [Field.withLength, hl, emitLine]

/-- The edited head is the head without its CSP fields and with the new length. -/
theorem editResponseHead_encode {h : Head} (hw : h.WellFormed) (n : ℕ) {setCl : Option ℕ}
    (hcl : setCl = some n ∨ setCl = none ∧ ∀ f ∈ h.fields, isLengthField f = false) :
    editResponseHead h.encode setCl = (h.injected n).encode := by
  have hfields : (h.fields.flatMap fun f => (editResponseLine setCl f.line).getD []) =
      ((h.injected n).fields.map Field.line).flatMap fun l => l ++ CRLF := by
    rw [Head.injected, List.map_map, List.flatMap_map]
    have hmem : ∀ f ∈ h.fields, editResponseLine setCl f.line =
        if isCspField f then none else some ((f.withLength n).line ++ CRLF) := fun f hf =>
      editResponseLine_line (hw.fields f hf) n (hcl.imp id fun hc => ⟨hc.1, hc.2 f hf⟩)
    revert hmem
    generalize h.fields = fields
    intro hmem
    induction fields with
    | nil => rfl
    | cons f fields ih =>
      have htail := ih fun f hf => hmem f (by simp [hf])
      rw [List.flatMap_cons, hmem f (by simp), htail]
      cases hc : isCspField f <;> simp [hc]
  rw [editResponseHead, editHead, h.encode_take, crlfLines_headText hw.isLine, Head.lines]
  simp only [editLines_fields _ hw.fields, hfields]
  simp [Head.encode, Head.lines, headBytes, emitLine, Head.injected]

/-- The text of a length as a field value. -/
theorem fieldValue_length (n : ℕ) :
    Str.trim (Str.fromUtf8Lossy (32 :: Str.toBytes (Str.ofNat n))) = Str.ofNat n := by
  have hd := @Str.toDigits_digits 10 (by omega) (by omega) n
  obtain ⟨htext, hbytes⟩ := @Str.toBytes_digits (Str.ofNat n) fun c hc =>
    (hd.1 c hc).imp fun d hd => hd.2
  have hascii : IsAscii (32 :: Str.toBytes (Str.ofNat n)) := by
    intro b hb
    rcases List.mem_cons.mp hb with rfl | hb
    · decide
    · have key : ∀ d : Fin 16, UInt8.ofNat (Nat.digitChar d).toNat < 0x80 := by decide
      obtain ⟨d, rfl⟩ := hbytes b hb
      exact key d
  have hcons : asciiStr (32 :: Str.toBytes (Str.ofNat n)) = ' ' :: Str.ofNat n := by
    rw [asciiStr, List.map_cons]
    exact congrArg _ htext
  have htrim : Str.trim (' ' :: Str.ofNat n) = Str.trim (Str.ofNat n) := by
    simp [Str.trim, Str.trimStart, Str.isWhitespace]
  rw [Str.fromUtf8Lossy_ascii hascii, hcons, htrim]
  exact (Str.toDigits_isDigits (by omega) (by omega) n).trim

/-- The digits of a number do not end a line. -/
theorem ofNat_not_mem (n : ℕ) :
    CR ∉ Str.toBytes (Str.ofNat n) ∧ LF ∉ Str.toBytes (Str.ofNat n) := by
  have hd := @Str.toDigits_digits 10 (by omega) (by omega) n
  obtain ⟨-, hbytes⟩ := @Str.toBytes_digits (Str.ofNat n) fun c hc =>
    (hd.1 c hc).imp fun d hd => hd.2
  have key : ∀ d : Fin 16, UInt8.ofNat (Nat.digitChar d).toNat ≠ CR ∧
      UInt8.ofNat (Nat.digitChar d).toNat ≠ LF := by decide
  constructor
  · intro hm
    obtain ⟨d, hd⟩ := hbytes _ hm
    exact (key d).1 hd.symm
  · intro hm
    obtain ⟨d, hd⟩ := hbytes _ hm
    exact (key d).2 hd.symm

theorem Field.WellFormed.withLength {f : Field} (h : f.WellFormed) (n : ℕ) :
    (f.withLength n).WellFormed := by
  unfold Field.withLength
  split_ifs
  · obtain ⟨hcr, hlf⟩ := ofNat_not_mem n
    exact ⟨h.nonempty, h.name, by simpa [CR] using hcr, by simpa [LF] using hlf⟩
  · exact h

theorem Head.WellFormed.injected {h : Head} (hw : h.WellFormed) (n : ℕ) :
    (h.injected n).WellFormed := by
  refine ⟨hw.start, ?_⟩
  simp only [Head.injected, List.mem_map, List.mem_filter]
  rintro _ ⟨f, ⟨hf, -⟩, rfl⟩
  exact (hw.fields f hf).withLength n

/-- Field names compare alike in the parsed headers and on the wire. -/
theorem Field.WellFormed.parsed_name {f : Field} (h : f.WellFormed) {name : String}
    (hname : Str.lit name = asciiStr (ascii name) ∧ IsAscii (ascii name)) :
    f.parsed.1.eqIgnoreAsciiCase (Str.lit name) = eqIgnoreAsciiCase f.name (ascii name) := by
  rw [hname.1]
  exact Str.eqIgnoreAsciiCase_asciiStr (fun b hb => nameByte_ascii (h.name b hb)) hname.2

theorem fieldValues_headers {h : Head} (hw : h.WellFormed) {name : String}
    (hname : Str.lit name = asciiStr (ascii name) ∧ IsAscii (ascii name)) :
    fieldValues h.headers name =
      (h.fields.filter fun f => eqIgnoreAsciiCase f.name (ascii name)).map fun f => f.parsed.2 := by
  rw [fieldValues, Head.headers, List.filter_map, List.map_map]
  congr 1
  exact List.filter_congr fun f hf => (hw.fields f hf).parsed_name hname

theorem lengthName : Str.lit "content-length" = asciiStr (ascii "content-length") ∧
    IsAscii (ascii "content-length") := ⟨by decide, by unfold IsAscii; decide +kernel⟩

theorem codingName : Str.lit "transfer-encoding" = asciiStr (ascii "transfer-encoding") ∧
    IsAscii (ascii "transfer-encoding") := ⟨by decide, by unfold IsAscii; decide +kernel⟩

/-- A name that differs from another is still different in any case. -/
private theorem eqIgnoreAsciiCase_trans {a b c : Bytes} (hab : eqIgnoreAsciiCase a b)
    (hac : eqIgnoreAsciiCase a c) : eqIgnoreAsciiCase b c := by
  simp only [eqIgnoreAsciiCase, beq_iff_eq] at hab hac ⊢
  rw [← hab, hac]

/-- The injected head declares the length it was given. -/
theorem DeclaresLength.injected {h : Head} (hw : h.WellFormed) {m : ℕ}
    (hd : DeclaresLength h.headers m) (n : ℕ) : DeclaresLength (h.injected n).headers n := by
  have hlen := fieldValues_headers hw lengthName
  have hlen' := fieldValues_headers (hw.injected n) lengthName
  have hcod := fieldValues_headers hw codingName
  have hcod' := fieldValues_headers (hw.injected n) codingName
  have hnotCsp : ∀ f : Field, isLengthField f → isCspField f = false := by
    intro f hf
    have key : ∀ name, eqIgnoreAsciiCase (ascii "content-length") name = false →
        eqIgnoreAsciiCase f.name name = false := by
      intro name hne
      by_contra hc
      rw [Bool.not_eq_false] at hc
      simp [eqIgnoreAsciiCase_trans hf hc] at hne
    simp only [isCspField, Bool.or_eq_false_iff]
    exact ⟨⟨key _ (by decide), key _ (by decide)⟩, key _ (by decide)⟩
  have hname : ∀ f : Field, (f.withLength n).name = f.name := by
    intro f
    unfold Field.withLength
    split_ifs <;> rfl
  refine ⟨?_, ?_, ?_⟩
  · have hpres := hd.present
    rw [hlen] at hpres
    obtain ⟨f, hf⟩ := List.exists_mem_of_ne_nil _ (mt (List.map_eq_nil_iff (f := fun f =>
      Field.parsed f |>.2)).mpr hpres)
    obtain ⟨hmem, hfl⟩ := List.mem_filter.mp hf
    rw [hlen']
    intro hnil
    have : f.withLength n ∈ (h.injected n).fields.filter fun f =>
        eqIgnoreAsciiCase f.name (ascii "content-length") := by
      refine List.mem_filter.mpr ⟨List.mem_map.mpr ⟨f, List.mem_filter.mpr ⟨hmem, ?_⟩, rfl⟩, ?_⟩
      · simp [hnotCsp f hfl]
      · rw [hname]
        exact hfl
    rw [List.map_eq_nil_iff.mp hnil] at this
    simp at this
  · intro v hv
    rw [hlen'] at hv
    obtain ⟨f', hf', rfl⟩ := List.mem_map.mp hv
    obtain ⟨hmem, hfl⟩ := List.mem_filter.mp hf'
    obtain ⟨f, -, rfl⟩ := List.mem_map.mp hmem
    rw [hname] at hfl
    have hparsed : (f.withLength n).parsed.2 = Str.ofNat n := by
      have hl : isLengthField f = true := hfl
      rw [Field.parsed, Field.withLength, if_pos hl]
      exact fieldValue_length n
    rw [hparsed]
    exact ⟨Str.toDigits_isDigits (by omega) (by omega) n,
      (Str.toDigits_digits (by omega) (by omega) n).2⟩
  · rw [hcod', List.map_eq_nil_iff, List.filter_eq_nil_iff]
    have hnil := hd.uncoded
    rw [hcod, List.map_eq_nil_iff, List.filter_eq_nil_iff] at hnil
    intro f' hf'
    obtain ⟨f, hf, rfl⟩ := List.mem_map.mp hf'
    rw [hname]
    exact hnil f (List.mem_filter.mp hf).1

end Adwarden.Tls
