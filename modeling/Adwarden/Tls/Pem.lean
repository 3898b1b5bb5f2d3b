import Mathlib.Data.List.TakeWhile
import Adwarden.Tls.Base64

/-! The DER body of the first certificate in a PEM text. -/
namespace Adwarden.Tls
open Lib.Base64

/-- A line without the CR before its end. -/
def stripCr (line : Str) : Str := if line.getLast? = some '\r' then line.dropLast else line

def strLinesFrom (cur : Str) : Str → List Str
  | [] => if cur = [] then [] else [cur]
  | c :: s => if c = '\n' then stripCr cur :: strLinesFrom [] s else strLinesFrom (cur ++ [c]) s

/-- `s.lines()`. -/
def strLines (s : Str) : List Str := strLinesFrom [] s

def beginMarker : Str := Str.lit "-----BEGIN CERTIFICATE-----"

def endMarker : Str := Str.lit "-----END CERTIFICATE-----"

def pemBody (inCert : Bool) : List Str → Str
  | [] => []
  | line :: rest =>
    let line := Str.trim line
    if line.startsWith beginMarker then pemBody true rest
    else if line.startsWith endMarker then []
    else if inCert then line ++ pemBody true rest
    else pemBody false rest

def pemToDer (pem : Str) : Option Bytes :=
  let b64 := pemBody false (strLines pem)
  if b64 = [] then none else base64Decode b64

theorem strLinesFrom_line (cur : Str) {line : Str} (h : '\n' ∉ line) (s : Str) :
    strLinesFrom cur (line ++ '\n' :: s) = stripCr (cur ++ line) :: strLines s := by
  induction line generalizing cur with
  | nil => rw [List.nil_append, List.append_nil, strLinesFrom, if_pos rfl, strLines]
  | cons c line ih =>
    rw [List.mem_cons, not_or] at h
    rw [List.cons_append, strLinesFrom, if_neg (Ne.symm h.1), ih (cur ++ [c]) h.2,
      List.append_assoc, List.singleton_append]

theorem strLines_line {line : Str} (h : '\n' ∉ line) (s : Str) :
    strLines (line ++ '\n' :: s) = stripCr line :: strLines s :=
  strLinesFrom_line [] h s

theorem trim_stripCr (line : Str) : Str.trim (stripCr line) = Str.trim line := by
  rw [stripCr]
  split_ifs with h
  · obtain ⟨ys, hys⟩ := List.getLast?_eq_some_iff.mp h
    rw [hys, List.dropLast_concat, Str.trim_append_blank (by decide)]
  · rfl

private theorem trim_between (s : Str) : ∃ a b, s = a ++ Str.trim s ++ b ∧
    (∀ c ∈ a, Str.isWhitespace c = true) ∧ ∀ c ∈ b, Str.isWhitespace c = true := by
  have hfront : s = s.takeWhile Str.isWhitespace ++ Str.trimStart s :=
    List.takeWhile_append_dropWhile.symm
  have hback : Str.trimStart s =
      Str.trim s ++ ((Str.trimStart s).reverse.takeWhile Str.isWhitespace).reverse := by
    rw [Str.trim, Str.trimEnd, ← List.reverse_append, List.takeWhile_append_dropWhile,
      List.reverse_reverse]
  refine ⟨s.takeWhile Str.isWhitespace,
    ((Str.trimStart s).reverse.takeWhile Str.isWhitespace).reverse, ?_, ?_, ?_⟩
  · rw [List.append_assoc, ← hback]
    exact hfront
  · intro c hc
    exact List.mem_takeWhile_imp hc
  · intro c hc
    exact List.mem_takeWhile_imp (List.mem_reverse.mp hc)

/-- The bytes that the decoder reads. -/
def significant (s : Str) : Bytes := (Str.toBytes s).filter fun c => !isAsciiWhitespace c

theorem significant_append (s t : Str) : significant (s ++ t) = significant s ++ significant t := by
  rw [significant, Str.toBytes_append, List.filter_append, significant, significant]

/-- The characters of an encoding. -/
def IsDigit (c : UInt8) : Prop := c = pad ∨ ∃ v, c = standard v

theorem encodes_isDigit {x text : Bytes} (h : Encodes standard x text) : ∀ c ∈ text, IsDigit c := by
  obtain ⟨vs, p, -, -, -, rfl⟩ := h
  intro c hc
  rcases List.mem_append.mp hc with hc | hc
  · obtain ⟨v, -, rfl⟩ := List.mem_map.mp hc
    exact .inr ⟨v, rfl⟩
  · exact .inl (List.eq_of_mem_replicate hc)

private theorem digit_spec {c : UInt8} (h : IsDigit c) :
    c < 0x80 ∧ Str.isWhitespace (Char.ofNat c.toNat) = false ∧ c ≠ 45 := by
  have key : ∀ v : Fin 64, standard v < 0x80 ∧
      Str.isWhitespace (Char.ofNat (standard v).toNat) = false ∧ standard v ≠ 45 := by
    decide +kernel
  rcases h with rfl | ⟨v, rfl⟩
  · decide
  · exact key v

section Line

variable {line : Str} (hline : ∀ c ∈ significant line, IsDigit c)
include hline

/-- Blanks around a line of an encoding are ASCII. -/
private theorem significant_blank {s : Str} (hs : ∀ c ∈ s, c ∈ line ∧ Str.isWhitespace c = true) :
    significant s = [] := by
  apply List.filter_eq_nil_iff.mpr
  intro b hb hkeep
  obtain ⟨c, hc, hbc⟩ := List.mem_flatMap.mp hb
  obtain ⟨hmem, hws⟩ := hs c hc
  have hsig : b ∈ significant line :=
    List.mem_filter.mpr ⟨List.mem_flatMap.mpr ⟨c, hmem, hbc⟩, hkeep⟩
  obtain ⟨hascii, hnot, -⟩ := digit_spec (hline b hsig)
  have hlt : b.toNat < 0x80 := UInt8.lt_iff_toNat_lt.mp hascii
  obtain rfl : Char.ofNat b.toNat = c := by
    have h := (@Str.ascii_mem_toBytes b hlt [c]).mp (by simpa [Str.toBytes] using hbc)
    exact List.mem_singleton.mp h
  rw [hws] at hnot
  cases hnot

theorem significant_trim : significant (Str.trim line) = significant line := by
  obtain ⟨a, b, hsplit, ha, hb⟩ := trim_between line
  have hsub : ∀ c, c ∈ a ∨ c ∈ b → c ∈ line := by
    intro c hc
    rw [hsplit, List.append_assoc, List.mem_append, List.mem_append]
    exact hc.elim .inl fun h => .inr (.inr h)
  have h := congrArg significant hsplit
  rw [significant_append, significant_append,
    significant_blank hline fun c hc => ⟨hsub c (.inl hc), ha c hc⟩,
    significant_blank hline fun c hc => ⟨hsub c (.inr hc), hb c hc⟩, List.nil_append,
    List.append_nil] at h
  exact h.symm

private theorem not_marker {marker : Str} (hm : marker.head? = some '-') :
    (Str.trim line).startsWith marker = false := by
  rw [← Bool.not_eq_true]
  intro h
  obtain ⟨rest, hrest⟩ := List.isPrefixOf_iff_prefix.mp h
  have hdash : '-' ∈ Str.trim line := by
    rw [← hrest]
    exact List.mem_append_left _ (List.mem_of_mem_head? hm)
  have hbyte : (45 : UInt8) ∈ Str.toBytes line :=
    (@Str.ascii_mem_toBytes 45 (by decide) line).mpr (Str.mem_of_mem_trim hdash)
  exact (digit_spec (hline 45 (List.mem_filter.mpr ⟨hbyte, by decide⟩))).2.2 rfl

end Line

/-- The lines of an encoding between the markers are gathered. -/
theorem pemBody_lines {body : List Str} (h : ∀ c ∈ significant body.flatten, IsDigit c)
    (hlf : ∀ line ∈ body, '\n' ∉ line) (rest : Str) :
    significant (pemBody true (strLines
      (body.flatMap (fun line => line ++ ['\n']) ++ (endMarker ++ '\n' :: rest)))) =
        significant body.flatten := by
  induction body with
  | nil =>
    rw [List.flatMap_nil, List.nil_append, strLines_line (by decide), pemBody, trim_stripCr]
    rfl
  | cons line body ih =>
    rw [List.flatten_cons, significant_append] at h
    have hline : ∀ c ∈ significant line, IsDigit c := fun c hc => h c (List.mem_append_left _ hc)
    have hrest := ih (fun c hc => h c (List.mem_append_right _ hc))
      fun l hl => hlf l (List.mem_cons_of_mem _ hl)
    rw [List.flatMap_cons, List.append_assoc, List.append_assoc, List.singleton_append,
      strLines_line (hlf line (List.mem_cons_self ..)), pemBody]
    have hbegin : (Str.trim line).startsWith beginMarker = false := not_marker hline rfl
    have hend : (Str.trim line).startsWith endMarker = false := not_marker hline rfl
    simp only [trim_stripCr, hbegin, hend, Bool.false_eq_true, if_false, if_true]
    rw [significant_append, significant_trim hline, hrest, List.flatten_cons, significant_append]

/-- A certificate is read back from its PEM text, however the encoding is split over lines. -/
theorem pemToDer_lines {x : Bytes} (hx : x ≠ []) {body : List Str}
    (hbody : Encodes standard x (significant body.flatten)) (hlf : ∀ line ∈ body, '\n' ∉ line)
    (rest : Str) :
    pemToDer (beginMarker ++ '\n' ::
      (body.flatMap (fun line => line ++ ['\n']) ++ (endMarker ++ '\n' :: rest))) = some x := by
  have hsig := pemBody_lines (encodes_isDigit hbody) hlf rest
  have hne := hbody.ne_nil hx
  rw [pemToDer, strLines_line (by decide), pemBody, trim_stripCr]
  generalize pemBody true (strLines
    (body.flatMap (fun line => line ++ ['\n']) ++ (endMarker ++ '\n' :: rest))) = b64 at hsig ⊢
  have hb64 : b64 ≠ [] := by
    rintro rfl
    exact hne hsig.symm
  have hbegin : (Str.trim beginMarker).startsWith beginMarker = true := by decide +kernel
  simp only [hbegin, if_true, if_neg hb64]
  exact base64Decode_encodes hbody hsig

end Adwarden.Tls
