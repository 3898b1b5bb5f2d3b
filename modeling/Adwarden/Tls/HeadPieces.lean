import Adwarden.Tls.HeadEditGrammar
import Adwarden.Rust.Utf8
import Mathlib.Data.List.Chain
import Mathlib.Data.List.TakeWhile

/-! A head as the parser cuts it, at each LF, next to its CRLF lines: a line without CRLF may hold
several pieces. -/
namespace Adwarden.Tls

/-- No LF comes behind a CR. -/
def NoCrlf (l : Bytes) : Prop := l.IsChain fun a b => ¬ (a = CR ∧ b = LF)

/-- A piece without a CR at its end. -/
def cutCr (p : Bytes) : Bytes := if p.getLast? = some CR then p.dropLast else p

def cutLast : List Bytes → List Bytes
  | [] => []
  | [p] => [cutCr p]
  | p :: q :: ps => p :: cutLast (q :: ps)

/-- The pieces of some lines. -/
def pieces (lines : List Bytes) : List Bytes := lines.flatMap (splitOn LF)

theorem pieces_ne_nil {lines : List Bytes} (h : lines ≠ []) : pieces lines ≠ [] := by
  obtain ⟨l, ls, rfl⟩ := List.exists_cons_of_ne_nil h
  rw [pieces, List.flatMap_cons]
  exact List.append_ne_nil_of_left_ne_nil (splitOn_ne_nil LF l) _

/-- The header on a piece, if it holds one. -/
def pieceHeaders (p : Bytes) : Headers := (headerField p).getD []

/-- The parser takes the piece. -/
def Readable (p : Bytes) : Prop := headerField p ≠ none

section Lines

theorem NoCrlf.of_append {a b : Bytes} (h : NoCrlf (a ++ b)) : NoCrlf a ∧ NoCrlf b :=
  ⟨(List.isChain_append.mp h).1, (List.isChain_append.mp h).2.1⟩

private theorem crlfLinesFrom_spec {cur rest : Bytes} (h : NoCrlf (cur ++ rest.take 1))
    (hne : cur ++ rest ≠ []) (hend : ¬ CRLF <:+ rest) :
    crlfLinesFrom cur rest ≠ [] ∧ (∀ l ∈ crlfLinesFrom cur rest, NoCrlf l) ∧
      headText (crlfLinesFrom cur rest) = cur ++ rest := by
  induction cur, rest using crlfLinesFrom.induct with
  | case1 => simp at hne
  | case2 cur hcur =>
    rw [crlfLinesFrom, if_neg hcur]
    simpa [headText] using h
  | case3 cur b =>
    rw [crlfLinesFrom]
    simpa [headText] using h
  | case4 cur b c rest hbc ih =>
    obtain ⟨rfl, rfl⟩ := hbc
    have hrest : rest ≠ [] := by
      rintro rfl
      exact hend (List.suffix_refl _)
    obtain ⟨hl, hno, htext⟩ := ih (by
        cases rest with
        | nil => exact absurd rfl hrest
        | cons d rest => exact List.isChain_singleton d)
      (by simpa using hrest) fun hs => hend (hs.trans ⟨[CR, LF], rfl⟩)
    rw [crlfLinesFrom, if_pos ⟨rfl, rfl⟩]
    refine ⟨by simp, ?_, ?_⟩
    · intro l hm
      rcases List.mem_cons.mp hm with rfl | hm
      · exact h.of_append.1
      · exact hno l hm
    · obtain ⟨l, ls, hls⟩ := List.exists_cons_of_ne_nil hl
      rw [hls] at htext ⊢
      rw [headText, htext]
      · simp [CRLF]
      · simp
  | case5 cur b c rest hbc ih =>
    rw [crlfLinesFrom, if_neg hbc]
    have hnext : NoCrlf (cur ++ [b] ++ (c :: rest).take 1) := by
      refine List.isChain_append.mpr ⟨h, List.isChain_singleton c, ?_⟩
      intro x hx y hy
      obtain rfl : b = x := by simpa using hx
      obtain rfl : c = y := by simpa using hy
      exact hbc
    obtain ⟨hl, hno, htext⟩ := ih hnext (by simp) fun hs => hend (hs.trans ⟨[b], rfl⟩)
    refine ⟨hl, hno, htext.trans ?_⟩
    simp

/-- The CRLF lines of a block that does not end with one. -/
theorem crlfLines_spec {fields : Bytes} (hne : fields ≠ []) (hend : ¬ CRLF <:+ fields) :
    crlfLines fields ≠ [] ∧ (∀ l ∈ crlfLines fields, NoCrlf l) ∧
      headText (crlfLines fields) = fields := by
  refine crlfLinesFrom_spec ?_ hne hend
  cases fields with
  | nil => exact absurd rfl hne
  | cons b fields => exact List.isChain_singleton b

theorem splitOn_LF_crlf (l rest : Bytes) :
    splitOn LF (l ++ CRLF ++ rest) = splitOn LF (l ++ [CR]) ++ splitOn LF rest := by
  have h := splitOn_append_sep LF (l ++ [CR]) rest
  simpa [CRLF] using h

theorem cutLast_append {a b : List Bytes} (hb : b ≠ []) : cutLast (a ++ b) = a ++ cutLast b := by
  induction a with
  | nil => rfl
  | cons p a ih =>
    obtain ⟨q, qs, hq⟩ := List.exists_cons_of_ne_nil (show a ++ b ≠ [] by simp [hb])
    rw [List.cons_append, hq, cutLast, ← hq, ih, List.cons_append]

private theorem cutCr_inner {a b : Bytes} (h : NoCrlf (a ++ LF :: b)) : cutCr a = a := by
  refine if_neg fun hlast => ?_
  exact (List.isChain_append.mp h).2.2 CR hlast LF rfl ⟨rfl, rfl⟩

theorem NoCrlf.behind {a b : Bytes} (h : NoCrlf (a ++ LF :: b)) : NoCrlf b :=
  h.of_append.2.tail

/-- Cutting the pieces of one line: only the last may end with CR. -/
theorem map_cutCr_splitOn {l : Bytes} (h : NoCrlf l) :
    (splitOn LF l).map cutCr = cutLast (splitOn LF l) := by
  induction l using piece_induction LF with
  | last l hl =>
    rw [splitOn_of_not_mem hl]
    rfl
  | piece a b ha ih =>
    obtain ⟨q, qs, hq⟩ := List.exists_cons_of_ne_nil (splitOn_ne_nil LF b)
    rw [splitOn_append ha, List.map_cons, cutCr_inner h, ih h.behind, hq, cutLast]

/-- A line behind which CRLF stands keeps its own CR. -/
theorem map_cutCr_splitOn_snoc {l : Bytes} (h : NoCrlf l) :
    (splitOn LF (l ++ [CR])).map cutCr = splitOn LF l := by
  induction l using piece_induction LF with
  | last l hl =>
    have hl' : LF ∉ l ++ [CR] := by simp [hl, LF_ne_CR]
    rw [splitOn_of_not_mem hl, splitOn_of_not_mem hl']
    simp [cutCr]
  | piece a b ha ih =>
    rw [List.append_assoc, List.cons_append, splitOn_append ha, List.map_cons, cutCr_inner h,
      ih h.behind, splitOn_append ha]

/-- The parser's cut of some lines. -/
theorem splitCrlfLines_pieces {lines : List Bytes} (hne : lines ≠ [])
    (h : ∀ l ∈ lines, NoCrlf l) : splitCrlfLines (headText lines) = cutLast (pieces lines) := by
  have hcut : (fun line : Bytes => if line.getLast? = some CR then line.dropLast else line) =
      cutCr := rfl
  rw [splitCrlfLines, hcut]
  induction lines with
  | nil => exact absurd rfl hne
  | cons l ls ih =>
    have hl := h l (List.mem_cons_self ..)
    cases ls with
    | nil =>
      rw [headText, pieces, List.flatMap_singleton]
      exact map_cutCr_splitOn hl
    | cons l' ls =>
      have htail := ih (by simp) fun l hm => h l (List.mem_cons_of_mem _ hm)
      have hnil := pieces_ne_nil (List.cons_ne_nil l' ls)
      have hpieces : pieces (l :: l' :: ls) = splitOn LF l ++ pieces (l' :: ls) := by
        rw [pieces, List.flatMap_cons, ← pieces]
      rw [headText, splitOn_LF_crlf, List.map_append, map_cutCr_splitOn_snoc hl, htail, hpieces,
        cutLast_append hnil]
      simp

end Lines

section Pieces

theorem readable_iff {p : Bytes} : Readable p ↔ p = [] ∨ 58 ∈ p := by
  unfold Readable headerField
  split_ifs with hp
  · simp [hp]
  · rw [ne_eq, Option.map_eq_none_iff, position_eq_none, not_not]
    simp [hp]

theorem cutCr_cases (p : Bytes) : cutCr p = p ∨ p = cutCr p ++ [CR] := by
  unfold cutCr
  split_ifs with hlast
  · right
    exact (List.dropLast_append_getLast? CR hlast).symm
  · left
    rfl

theorem Readable.cutCr {p : Bytes} (h : Readable p) : Readable (cutCr p) := by
  rcases cutCr_cases p with hp | hp
  · rw [hp]
    exact h
  · rw [readable_iff] at h ⊢
    rcases h with rfl | h
    · left
      rfl
    · right
      rw [hp] at h
      rcases List.mem_append.mp h with h | h
      · exact h
      · exact absurd (List.mem_singleton.mp h) (by decide)

/-- Only a lone CR is taken with its end cut and not without. -/
theorem readable_of_cutCr {p : Bytes} (h : Readable (Tls.cutCr p)) (hp : p ≠ [CR]) :
    Readable p := by
  rcases cutCr_cases p with he | he
  · rw [← he]
    exact h
  · rw [readable_iff] at h ⊢
    rcases h with h | h
    · rw [h, List.nil_append] at he
      exact absurd he hp
    · right
      rw [he]
      exact List.mem_append_left _ h

/-- The CR makes no difference to the header. -/
theorem pieceHeaders_cutCr (p : Bytes) : pieceHeaders (cutCr p) = pieceHeaders p := by
  rcases cutCr_cases p with he | he
  · rw [he]
  · generalize cutCr p = q at he
    subst he
    by_cases hq : q = []
    · rw [hq]
      rfl
    unfold pieceHeaders headerField
    rw [if_neg hq, if_neg (by simp)]
    cases hpos : position 58 q with
    | none =>
      have hnone : position 58 (q ++ [CR]) = none := by
        rw [position_eq_none] at hpos ⊢
        simp [hpos, CR]
      rw [hnone]
      rfl
    | some i =>
      have hlt := position_lt hpos
      have hcr : Str.fromUtf8Lossy ((q ++ [CR]).drop (i + 1)) =
          Str.fromUtf8Lossy (q.drop (i + 1)) ++ ['\r'] := by
        rw [List.drop_append_of_le_length (by omega)]
        exact Str.fromUtf8Lossy_append_ascii (by decide) _
      rw [position_append [CR] hpos, Option.map_some, Option.map_some,
        List.take_append_of_le_length (by omega), hcr, Str.trim_append_blank (by decide)]

theorem cutLast_cons (p : Bytes) (ps : List Bytes) :
    cutLast (p :: ps) = if ps = [] then [cutCr p] else p :: cutLast ps := by
  cases ps with
  | nil => rfl
  | cons q ps => rfl

theorem cutLast_headers (ps : List Bytes) :
    (cutLast ps).flatMap pieceHeaders = ps.flatMap pieceHeaders := by
  induction ps with
  | nil => rfl
  | cons p ps ih =>
    rw [cutLast_cons]
    split_ifs with hps
    · rw [hps, List.flatMap_singleton, List.flatMap_singleton, pieceHeaders_cutCr]
    · rw [List.flatMap_cons, List.flatMap_cons, ih]

private theorem allSome_headerField {ps : List Bytes} {hs : List Headers} :
    (ps.map headerField).allSome = some hs ↔
      (∀ p ∈ ps, Readable p) ∧ hs = ps.map pieceHeaders := by
  constructor
  · intro h
    have hmap := Str.eq_map_of_allSome h
    refine ⟨?_, ?_⟩
    · intro p hp hnone
      have hmem : headerField p ∈ hs.map some := hmap ▸ List.mem_map_of_mem hp
      rw [hnone] at hmem
      simp at hmem
    · have hget := congrArg (List.map fun o : Option Headers => o.getD []) hmap
      rw [List.map_map, List.map_map] at hget
      exact (List.map_id hs).symm.trans hget.symm
  · rintro ⟨hread, rfl⟩
    have hmap : ps.map headerField = (ps.map pieceHeaders).map some := by
      rw [List.map_map]
      refine List.map_congr_left fun p hp => ?_
      obtain ⟨hs, hhs⟩ := Option.ne_none_iff_exists'.mp (hread p hp)
      rw [Function.comp_apply, pieceHeaders, hhs, Option.getD_some]
    have hall := Str.allSome_map_some (ps.map pieceHeaders) []
    rw [List.append_nil] at hall
    rw [hmap, hall]
    simp [List.allSome]

/-- What the parser makes of some lines. -/
theorem parseHeadFields_lines {first : Bytes} {lines : List Bytes}
    (h : ∀ l ∈ first :: lines, NoCrlf l) {start : Bytes} {headers : Headers} :
    parseHeadFields (headText (first :: lines)) = some (start, headers) ↔
      ∃ ps, cutLast (pieces (first :: lines)) = start :: ps ∧ (∀ p ∈ ps, Readable p) ∧
        headers = ps.flatMap pieceHeaders := by
  rw [parseHeadFields, splitCrlfLines_pieces (by simp) h]
  cases hcut : cutLast (pieces (first :: lines)) with
  | nil => simp
  | cons s ps =>
    dsimp only
    rw [Option.map_eq_some_iff]
    constructor
    · rintro ⟨hs, hall, he⟩
      obtain ⟨rfl, rfl⟩ := Prod.mk.inj he
      obtain ⟨hread, rfl⟩ := allSome_headerField.mp hall
      exact ⟨ps, rfl, hread, (List.flatMap_def ..).symm⟩
    · rintro ⟨ps', he, hread, rfl⟩
      obtain ⟨rfl, rfl⟩ := List.cons.inj he
      exact ⟨_, allSome_headerField.mpr ⟨hread, rfl⟩, by rw [List.flatMap_def]⟩

end Pieces

end Adwarden.Tls
