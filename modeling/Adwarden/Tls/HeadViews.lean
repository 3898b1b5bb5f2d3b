import Adwarden.Tls.HeadPieces

/-! The editors and the parser on the same head. The editors work on CRLF lines and take a line that
begins with a blank along with the one before it; the parser reads a header on every piece. -/
namespace Adwarden.Tls

/-- What becomes of a line behind the start line. -/
inductive Fate where
  | kept
  | dropped
  | relength
deriving DecidableEq

def fates (fate : Bytes → Fate) : (droppedPrev : Bool) → List Bytes → List (Bytes × Fate)
  | _, [] => []
  | dropped, line :: lines =>
    if isContinuation line then
      (line, if dropped then .dropped else .kept) :: fates fate dropped lines
    else (line, fate line) :: fates fate (fate line == .dropped) lines

def requestFate (line : Bytes) : Fate :=
  if nameIs line "accept-encoding" then .dropped else .kept

def responseFate (line : Bytes) : Fate :=
  if isCsp line then .dropped else if nameIs line "content-length" then .relength else .kept

def lengthSuffix (m : ℕ) : Bytes := ascii ": " ++ Str.toBytes (Str.ofNat m)

/-- The line that is written in place of `line`. -/
def Fate.line (m : ℕ) (line : Bytes) : Fate → Option Bytes
  | .kept => some line
  | .dropped => none
  | .relength => some (lineName line ++ lengthSuffix m)

def editedLines (m : ℕ) (fs : List (Bytes × Fate)) : List Bytes :=
  fs.filterMap fun o => o.2.line m o.1

/-- The fields of a head, without the blank line. -/
def fieldsOf (head : Bytes) : Bytes := head.take (head.length - 4)

def named (name : String) (h : Str × Str) : Bool := h.1.eqIgnoreAsciiCase (Str.lit name)

def cspHeader (h : Str × Str) : Bool :=
  named "content-security-policy" h || named "content-security-policy-report-only" h ||
    named "x-content-security-policy" h

/-- Neither a policy nor a length. -/
def otherHeader (h : Str × Str) : Bool := !cspHeader h && !named "content-length" h

/-- Behind the edit of a request the parser reads the same head, with `identity` for the encodings
that are accepted. -/
def RequestEdited (head start : Bytes) (headers : Headers) : Prop :=
  ∃ headers', parseHeadFields (fieldsOf (editRequestHead head)) = some (start, headers') ∧
    (headers'.filter (named "accept-encoding")).map (·.2) = [Str.lit "identity"] ∧
    headers'.filter (!named "accept-encoding" ·) = headers.filter (!named "accept-encoding" ·)

/-- Behind the edit of a response the parser reads the same head without policies, and the new
length. -/
def ResponseEdited (head start : Bytes) (headers : Headers) : Prop :=
  ∀ m < usizeSize, ∃ headers',
    parseHeadFields (fieldsOf (editResponseHead head (some m))) = some (start, headers') ∧
      contentLength headers' = some m ∧ (∀ h ∈ headers', cspHeader h = false) ∧
      headers'.filter otherHeader = headers.filter otherHeader

/-- The headers the parser reads on a line of the editor. -/
def lineHeaders (line : Bytes) : Headers := (splitOn LF line).flatMap pieceHeaders

/-- The pieces behind the start that are written as they were. -/
def keptPieces (first : Bytes) (fs : List (Bytes × Fate)) : List Bytes :=
  (splitOn LF first).tail ++ pieces ((fs.filter (·.2 == .kept)).map (·.1))

/-- On every line that is kept the parser reads no accepted encoding, on every line that is dropped
nothing else. -/
structure RequestViewsAgree (start first : Bytes) (fs : List (Bytes × Fate)) : Prop where
  start : (splitOn LF first).head? = some start
  kept : ∀ p ∈ keptPieces first fs, p ≠ [CR] ∧
    ∀ h ∈ pieceHeaders p, named "accept-encoding" h = false
  dropped : ∀ o ∈ fs, o.2 ≠ .kept → ∀ h ∈ lineHeaders o.1, named "accept-encoding" h = true

/-- On every line that is kept the parser reads no policy, on every other line nothing but policies
and lengths, and the first length that is not dropped is rewritten. -/
structure ResponseViewsAgree (first : Bytes) (fs : List (Bytes × Fate)) : Prop where
  kept : ∀ p ∈ keptPieces first fs, ∀ h ∈ pieceHeaders p, cspHeader h = false
  dropped : ∀ o ∈ fs, o.2 ≠ .kept → ∀ h ∈ lineHeaders o.1, otherHeader h = false
  length : ∃ front line back, fs = front ++ (line, .relength) :: back ∧
    ∀ p ∈ keptPieces first front, ∀ h ∈ pieceHeaders p, named "content-length" h = false

section Fates

variable {m : ℕ}

@[simp] theorem editedLines_cons_kept (line : Bytes) (fs : List (Bytes × Fate)) :
    editedLines m ((line, .kept) :: fs) = line :: editedLines m fs := rfl

@[simp] theorem editedLines_cons_dropped (line : Bytes) (fs : List (Bytes × Fate)) :
    editedLines m ((line, .dropped) :: fs) = editedLines m fs := rfl

@[simp] theorem editedLines_cons_relength (line : Bytes) (fs : List (Bytes × Fate)) :
    editedLines m ((line, .relength) :: fs) =
      (lineName line ++ lengthSuffix m) :: editedLines m fs := rfl

theorem fates_lines (fate : Bytes → Fate) (dropped : Bool) (lines : List Bytes) :
    (fates fate dropped lines).map (·.1) = lines := by
  induction lines generalizing dropped with
  | nil => rfl
  | cons line lines ih =>
    rw [fates]
    by_cases hcont : isContinuation line = true
    · rw [if_pos hcont, List.map_cons, ih]
    · rw [if_neg hcont, List.map_cons, ih]

/-- The lines an editor writes. -/
theorem editLines_fates {edit : Bytes → Option Bytes} {fate : Bytes → Fate}
    (h : ∀ line, edit line = ((fate line).line m line).map emitLine) (dropped : Bool)
    (lines : List Bytes) :
    editLines edit dropped lines = (editedLines m (fates fate dropped lines)).flatMap emitLine := by
  induction lines generalizing dropped with
  | nil => rfl
  | cons line lines ih =>
    rw [editLines, fates]
    split_ifs with hcont hdropped
    · rw [ih]
      rfl
    · rw [ih]
      rfl
    · rw [h]
      cases fate line with
      | kept =>
        simp only [Fate.line, Option.map_some, ih]
        rfl
      | dropped =>
        simp only [Fate.line, Option.map_none, ih]
        rfl
      | relength =>
        simp only [Fate.line, Option.map_some, ih]
        rfl

theorem fieldsOf_headBytes {lines : List Bytes} (hne : lines ≠ []) :
    fieldsOf (headBytes lines) = headText lines := headBytes_take hne

def identityLine : Bytes := ascii "Accept-Encoding: identity"

theorem editRequestHead_lines {head first : Bytes} {lines : List Bytes}
    (h : crlfLines (fieldsOf head) = first :: lines) :
    editRequestHead head =
      headBytes (first :: (editedLines m (fates requestFate false lines) ++ [identityLine])) := by
  have hedit : ∀ line, (if nameIs line "accept-encoding" then none else some (emitLine line)) =
      ((requestFate line).line m line).map emitLine := by
    intro line
    unfold requestFate
    split_ifs
    all_goals rfl
  rw [editRequestHead, editHead, ← fieldsOf, h]
  simp only [editLines_fates hedit]
  have hident : ascii "Accept-Encoding: identity\r\n\r\n" = emitLine identityLine ++ CRLF := by
    decide
  have hemit : (fun l => l ++ CRLF) = emitLine := rfl
  rw [hident, headBytes, hemit]
  simp

theorem editResponseHead_lines {head first : Bytes} {lines : List Bytes}
    (h : crlfLines (fieldsOf head) = first :: lines) (m : ℕ) :
    editResponseHead head (some m) =
      headBytes (first :: editedLines m (fates responseFate false lines)) := by
  have hedit : ∀ line, editResponseLine (some m) line =
      ((responseFate line).line m line).map emitLine := by
    intro line
    unfold responseFate editResponseLine
    split_ifs
    · rfl
    · simp [Fate.line, emitLine, lengthSuffix]
    · rfl
  rw [editResponseHead, editHead, ← fieldsOf, h]
  simp only [editLines_fates hedit]
  have hemit : (fun l => l ++ CRLF) = emitLine := rfl
  rw [headBytes, hemit, List.flatMap_cons]

end Fates

section Relength

private theorem trim_asciiStr {a b : Bytes} (ha : ∀ x ∈ a, isAsciiWhitespace x = true)
    (hb : ∀ x ∈ b, isAsciiWhitespace x = true) (s : Str) :
    Str.trim (asciiStr a ++ s ++ asciiStr b) = Str.trim s := by
  have key : ∀ x : UInt8, isAsciiWhitespace x = true →
      Str.isWhitespace (Char.ofNat x.toNat) = true :=
    fun x => forall_byte (P := fun x => isAsciiWhitespace x = true →
      Str.isWhitespace (Char.ofNat x.toNat) = true) (by decide +kernel) x
  induction a with
  | cons x a ih =>
    rw [asciiStr, List.map_cons, List.cons_append, List.cons_append,
      Str.trim_cons_blank (key x (ha x (List.mem_cons_self ..)))]
    exact ih fun y hy => ha y (List.mem_cons_of_mem _ hy)
  | nil =>
    rw [asciiStr, List.map_nil, List.nil_append]
    induction b using List.reverseRecOn with
    | nil => rw [asciiStr, List.map_nil, List.append_nil]
    | append_singleton b x ih =>
      rw [Str.asciiStr_append, ← List.append_assoc]
      have hx := key x (hb x (by simp))
      rw [show asciiStr [x] = [Char.ofNat x.toNat] from rfl, Str.trim_append_blank hx]
      exact ih fun y hy => hb y (List.mem_append_left _ hy)

/-- A text and its trim. -/
private theorem asciiTrim_split (s : Bytes) : ∃ a b, s = a ++ asciiTrim s ++ b ∧
    (∀ x ∈ a, isAsciiWhitespace x = true) ∧ ∀ x ∈ b, isAsciiWhitespace x = true := by
  have hfront : s = s.takeWhile isAsciiWhitespace ++ s.dropWhile isAsciiWhitespace :=
    (List.takeWhile_append_dropWhile).symm
  generalize hmid : s.dropWhile isAsciiWhitespace = t at hfront
  have hback : t = asciiTrim s ++ (t.reverse.takeWhile isAsciiWhitespace).reverse := by
    rw [asciiTrim, hmid, ← List.reverse_append, List.takeWhile_append_dropWhile,
      List.reverse_reverse]
  refine ⟨s.takeWhile isAsciiWhitespace, (t.reverse.takeWhile isAsciiWhitespace).reverse, ?_, ?_,
    ?_⟩
  · rw [List.append_assoc, ← hback]
    exact hfront
  · intro x hx
    exact List.mem_takeWhile_imp hx
  · intro x hx
    exact List.mem_takeWhile_imp (List.mem_reverse.mp hx)

/-- The parser reads the name the editor compares. -/
theorem trim_of_nameIs {name : Bytes}
    (h : eqIgnoreAsciiCase (asciiTrim name) (ascii "content-length") = true) :
    named "content-length" (Str.trim (Str.fromUtf8Lossy name), []) = true := by
  have hlower : (asciiTrim name).map toAsciiLower = (ascii "content-length").map toAsciiLower :=
    beq_iff_eq.mp h
  have hbyte : ∀ x ∈ asciiTrim name, x < 0x80 ∧
      Str.isWhitespace (Char.ofNat x.toNat) = false := by
    intro x hx
    have hmem : toAsciiLower x ∈ (ascii "content-length").map toAsciiLower := by
      rw [← hlower]
      exact List.mem_map_of_mem hx
    have key : ∀ x : UInt8, toAsciiLower x ∈ (ascii "content-length").map toAsciiLower →
        x < 0x80 ∧ Str.isWhitespace (Char.ofNat x.toNat) = false :=
      fun x => forall_byte (P := fun x => toAsciiLower x ∈ (ascii "content-length").map toAsciiLower →
        x < 0x80 ∧ Str.isWhitespace (Char.ofNat x.toNat) = false) (by decide +kernel) x
    exact key x hmem
  obtain ⟨a, b, hname, ha, hb⟩ := asciiTrim_split name
  have key : ∀ x : UInt8, isAsciiWhitespace x = true → x < 0x80 :=
    fun x => forall_byte (P := fun x => isAsciiWhitespace x = true → x < 0x80)
      (by decide +kernel) x
  have hascii : IsAscii name := by
    intro x hx
    rw [hname, List.mem_append, List.mem_append] at hx
    rcases hx with (hx | hx) | hx
    · exact key x (ha x hx)
    · exact (hbyte x hx).1
    · exact key x (hb x hx)
  have htrim : Str.trim (Str.fromUtf8Lossy name) = asciiStr (asciiTrim name) := by
    rw [Str.fromUtf8Lossy_ascii hascii]
    have hsplit : asciiStr name = asciiStr a ++ asciiStr (asciiTrim name) ++ asciiStr b := by
      rw [← Str.asciiStr_append, ← Str.asciiStr_append, ← hname]
    rw [hsplit, trim_asciiStr ha hb]
    refine Str.trim_of_forall fun c hc => ?_
    obtain ⟨x, hx, rfl⟩ := List.mem_map.mp hc
    exact (hbyte x hx).2
  rw [named, htrim, lengthName.1, Str.eqIgnoreAsciiCase_asciiStr (fun x hx => (hbyte x hx).1)
    lengthName.2]
  exact h

/-- The parser takes the pieces of a line, but for a lone CR at the end of the block. -/
def Taken (line : Bytes) : Prop := ∀ p ∈ splitOn LF line, p ≠ [CR] → Readable p

theorem lengthSuffix_not_mem (m : ℕ) : CR ∉ lengthSuffix m ∧ LF ∉ lengthSuffix m := by
  obtain ⟨hcr, hlf⟩ := ofNat_not_mem m
  constructor
  · rw [lengthSuffix, List.mem_append]
    exact not_or.mpr ⟨by decide, hcr⟩
  · rw [lengthSuffix, List.mem_append]
    exact not_or.mpr ⟨by decide, hlf⟩

/-- The one header on a rewritten line. -/
theorem lineHeaders_relength {line : Bytes} (m : ℕ) (hno : NoCrlf line) (htaken : Taken line)
    (hname : nameIs line "content-length" = true) :
    (∀ p ∈ splitOn LF (lineName line ++ lengthSuffix m), Readable p) ∧
      ∃ name, lineHeaders (lineName line ++ lengthSuffix m) = [(name, Str.ofNat m)] ∧
        named "content-length" (name, []) = true := by
  -- one piece with a colon, cut behind its name
  have hpiece : ∀ name : Bytes, 58 ∉ name → LF ∉ name →
      eqIgnoreAsciiCase (asciiTrim name) (ascii "content-length") = true →
      (∀ p ∈ splitOn LF (name ++ lengthSuffix m), Readable p) ∧
        ∃ s, lineHeaders (name ++ lengthSuffix m) = [(s, Str.ofNat m)] ∧
          named "content-length" (s, []) = true := by
    intro name hcolon hlf hcl
    have hone : splitOn LF (name ++ lengthSuffix m) = [name ++ lengthSuffix m] := by
      refine splitOn_of_not_mem ?_
      rw [List.mem_append]
      exact not_or.mpr ⟨hlf, (lengthSuffix_not_mem m).2⟩
    have hsuffix : lengthSuffix m = 58 :: 32 :: Str.toBytes (Str.ofNat m) := rfl
    have htrim := trim_of_nameIs hcl
    refine ⟨?_, Str.trim (Str.fromUtf8Lossy name), ?_, htrim⟩
    · rw [hone]
      intro p hp
      rw [List.mem_singleton.mp hp, readable_iff]
      right
      rw [hsuffix]
      simp
    · have hne : Str.trim (Str.fromUtf8Lossy name) ≠ [] := by
        intro hnil
        rw [hnil] at htrim
        exact absurd htrim (by decide)
      rw [lineHeaders, hone, List.flatMap_singleton, pieceHeaders, headerField, if_neg (by
        rw [hsuffix]
        simp), hsuffix, position_line hcolon, Option.map_some, List.take_left]
      dsimp only
      rw [if_neg hne, ← List.drop_drop, List.drop_left]
      simp only [List.drop_one, List.tail_cons, fieldValue_length, Option.getD_some]
  induction line using piece_induction LF with
  | last l hl =>
    cases hpos : position 58 l with
    | none =>
      exfalso
      have hcolon := position_eq_none.mp hpos
      rw [nameIs, lineName, hpos] at hname
      by_cases hcr : l = [CR]
      · rw [hcr] at hname
        exact absurd hname (by decide)
      · rcases readable_iff.mp (htaken l (by simp [splitOn_of_not_mem hl]) hcr) with rfl | hmem
        · exact absurd hname (by decide)
        · exact hcolon hmem
    | some c =>
      have hline : lineName l = l.take c := by rw [lineName, hpos]
      rw [nameIs, hline] at hname
      rw [hline]
      exact hpiece _ (position_some hpos).2 (fun hm => hl (List.mem_of_mem_take hm)) hname
  | piece a b ha ih =>
    have hcr : a ≠ [CR] := by
      rintro rfl
      exact (List.isChain_append.mp hno).2.2 CR rfl LF rfl ⟨rfl, rfl⟩
    rcases readable_iff.mp (htaken a (by simp [splitOn_append ha]) hcr) with rfl | hcolon
    · have hline : lineName ([] ++ LF :: b) = LF :: lineName b := by
        rw [List.nil_append, lineName, position, if_neg (by decide), lineName]
        cases position 58 b with
        | none => rfl
        | some c => rfl
      rw [nameIs, hline] at hname
      obtain ⟨hread, name, hheaders, hn⟩ := ih hno.behind (fun p hp => htaken p (by
        rw [splitOn_append ha]
        exact List.mem_cons_of_mem _ hp)) hname
      have hsplit : splitOn LF (LF :: lineName b ++ lengthSuffix m) =
          [] :: splitOn LF (lineName b ++ lengthSuffix m) := by
        rw [List.cons_append, splitOn, if_pos rfl]
      rw [hline]
      refine ⟨?_, name, ?_, hn⟩
      · rw [hsplit]
        intro p hp
        rcases List.mem_cons.mp hp with rfl | hp
        · exact readable_iff.mpr (Or.inl rfl)
        · exact hread p hp
      · rw [lineHeaders, hsplit, List.flatMap_cons]
        exact hheaders
    · obtain ⟨c, hpos⟩ : ∃ c, position 58 a = some c := by
        cases hpos : position 58 a with
        | none => exact absurd hcolon (position_eq_none.mp hpos)
        | some c => exact ⟨c, rfl⟩
      have hline : lineName (a ++ LF :: b) = a.take c := by
        rw [lineName, position_append _ hpos]
        exact List.take_append_of_le_length (Nat.le_of_lt (position_lt hpos))
      rw [nameIs, hline] at hname
      rw [hline]
      exact hpiece _ (position_some hpos).2 (fun hm => ha (List.mem_of_mem_take hm)) hname

end Relength

/-- The pieces behind the start of a head. -/
def behindStart (first : Bytes) (lines : List Bytes) : List Bytes :=
  (splitOn LF first).tail ++ pieces lines

/-- The headers on the line that is written for `o.1`. -/
def writtenHeaders (m : ℕ) (o : Bytes × Fate) : Headers :=
  ((o.2.line m o.1).map lineHeaders).getD []

section Reading

/-- What the parser makes of a head, line by line. -/
theorem parseHeadFields_behind {first : Bytes} {lines : List Bytes}
    (h : ∀ l ∈ first :: lines, NoCrlf l) {start : Bytes} {headers : Headers} :
    parseHeadFields (headText (first :: lines)) = some (start, headers) ↔
      ∃ s, (splitOn LF first).head? = some s ∧
        start = (if behindStart first lines = [] then cutCr s else s) ∧
        (∀ p ∈ cutLast (behindStart first lines), Readable p) ∧
        headers = (behindStart first lines).flatMap pieceHeaders := by
  obtain ⟨s, t, hst⟩ := List.exists_cons_of_ne_nil (splitOn_ne_nil LF first)
  have hpieces : pieces (first :: lines) = s :: behindStart first lines := by
    rw [pieces, List.flatMap_cons, hst, ← pieces, behindStart, hst]
    rfl
  rw [parseHeadFields_lines h, hpieces, cutLast_cons, hst, List.head?_cons]
  split_ifs with hnil
  · constructor
    · rintro ⟨ps, hps, -, rfl⟩
      obtain ⟨rfl, rfl⟩ := List.cons.inj hps
      rw [hnil]
      exact ⟨s, rfl, rfl, by simp [cutLast], rfl⟩
    · rintro ⟨s', hs, rfl, -, rfl⟩
      obtain rfl := Option.some.inj hs
      rw [hnil]
      exact ⟨[], rfl, by simp, rfl⟩
  · constructor
    · rintro ⟨ps, hps, hread, rfl⟩
      obtain ⟨rfl, rfl⟩ := List.cons.inj hps
      exact ⟨s, rfl, rfl, hread, cutLast_headers _⟩
    · rintro ⟨s', hs, rfl, hread, rfl⟩
      obtain rfl := Option.some.inj hs
      exact ⟨_, rfl, hread, (cutLast_headers _).symm⟩

theorem lines_headers (lines : List Bytes) :
    (pieces lines).flatMap pieceHeaders = lines.flatMap lineHeaders := by
  rw [pieces, List.flatMap_assoc]
  rfl

theorem editedLines_headers (m : ℕ) (fs : List (Bytes × Fate)) :
    (editedLines m fs).flatMap lineHeaders = fs.flatMap (writtenHeaders m) := by
  induction fs with
  | nil => rfl
  | cons o fs ih =>
    rw [List.flatMap_cons, ← ih, editedLines, writtenHeaders]
    cases hline : o.2.line m o.1 with
    | none =>
      simp only [List.filterMap_cons, hline]
      rfl
    | some line =>
      simp only [List.filterMap_cons, hline, List.flatMap_cons]
      rfl

/-- A flattened list from which some parts were taken out is whole when these were empty. -/
theorem flatMap_eq_iff {α β : Type} {os : List α} {f g : α → List β}
    (h : ∀ o ∈ os, g o = f o ∨ g o = []) :
    os.flatMap g = os.flatMap f ↔ ∀ o ∈ os, g o = f o := by
  have hle : ∀ os : List α, (∀ o ∈ os, g o = f o ∨ g o = []) →
      (os.flatMap g).length ≤ (os.flatMap f).length := by
    intro os hos
    induction os with
    | nil => exact Nat.le_refl _
    | cons o os ih =>
      have htail := ih fun o ho => hos o (List.mem_cons_of_mem _ ho)
      simp only [List.flatMap_cons, List.length_append]
      rcases hos o (List.mem_cons_self ..) with ho | ho
      · rw [ho]
        omega
      · rw [ho]
        simp only [List.length_nil]
        omega
  induction os with
  | nil => simp
  | cons o os ih =>
    have hos : ∀ o ∈ os, g o = f o ∨ g o = [] := fun o ho => h o (List.mem_cons_of_mem _ ho)
    have htail := ih hos
    rw [List.flatMap_cons, List.flatMap_cons, List.forall_mem_cons]
    constructor
    · intro heq
      have hhead : g o = f o := by
        rcases h o (List.mem_cons_self ..) with ho | ho
        · exact ho
        · have hlen := congrArg List.length heq
          have hshort := hle os hos
          rw [ho, List.nil_append, List.length_append] at hlen
          rw [ho, List.eq_nil_of_length_eq_zero (show (f o).length = 0 by omega)]
      rw [hhead] at heq
      exact ⟨hhead, htail.mp (List.append_cancel_left heq)⟩
    · rintro ⟨ho, hmore⟩
      rw [ho, htail.mpr hmore]

/-- The headers that are to stay have stayed when none was on a line that is not kept. -/
theorem filter_written_iff {P : Str × Str → Bool} {m : ℕ} {fs : List (Bytes × Fate)}
    (h : ∀ o ∈ fs, o.2 ≠ .kept → (writtenHeaders m o).filter P = []) :
    (fs.flatMap (writtenHeaders m)).filter P = (fs.flatMap fun o => lineHeaders o.1).filter P ↔
      ∀ o ∈ fs, o.2 ≠ .kept → ∀ h ∈ lineHeaders o.1, P h = false := by
  have hkept : ∀ o : Bytes × Fate, o.2 = .kept → writtenHeaders m o = lineHeaders o.1 := by
    intro o ho
    rw [writtenHeaders, ho]
    rfl
  rw [List.filter_flatMap, List.filter_flatMap, flatMap_eq_iff]
  · refine forall_congr' fun o => imp_congr_right fun ho => ?_
    constructor
    · intro heq hne hd hmem
      rw [h o ho hne] at heq
      exact Bool.eq_false_iff.mpr fun hp =>
        List.not_mem_nil (heq ▸ List.mem_filter.mpr ⟨hmem, hp⟩)
    · intro hnone
      by_cases hfate : o.2 = .kept
      · rw [hkept o hfate]
      · rw [h o ho hfate, eq_comm, List.filter_eq_nil_iff]
        intro hd hmem
        rw [hnone hfate hd hmem]
        exact Bool.false_ne_true
  · intro o ho
    by_cases hfate : o.2 = .kept
    · left
      rw [hkept o hfate]
    · right
      exact h o ho hfate

theorem keptPieces_forall {Q : Str × Str → Prop} {first : Bytes} {fs : List (Bytes × Fate)} :
    (∀ p ∈ keptPieces first fs, ∀ h ∈ pieceHeaders p, Q h) ↔
      (∀ h ∈ (splitOn LF first).tail.flatMap pieceHeaders, Q h) ∧
        ∀ o ∈ fs, o.2 = .kept → ∀ h ∈ lineHeaders o.1, Q h := by
  simp only [keptPieces, pieces, lineHeaders, List.mem_append, List.mem_flatMap, List.mem_map,
    List.mem_filter, beq_iff_eq]
  constructor
  · intro hall
    refine ⟨?_, ?_⟩
    · rintro h ⟨p, hp, hh⟩
      exact hall p (Or.inl hp) h hh
    · rintro o ho hfate h ⟨p, hp, hh⟩
      exact hall p (Or.inr ⟨o.1, ⟨o, ⟨ho, hfate⟩, rfl⟩, hp⟩) h hh
  · rintro ⟨hstart, hlines⟩ p (hp | ⟨-, ⟨o, ⟨ho, hfate⟩, rfl⟩, hp⟩) h hh
    · exact hstart h ⟨p, hp, hh⟩
    · exact hlines o ho hfate h ⟨p, hp, hh⟩

end Reading

end Adwarden.Tls
