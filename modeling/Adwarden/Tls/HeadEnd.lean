import Adwarden.Tls.HeadAgree
import Adwarden.Tls.Rewriter

/-! Where an edited head ends: at its first blank line, whatever follows it. -/
namespace Adwarden.Tls

/-- A line as an editor cuts it: it has text, and no CRLF in it. -/
structure HeadLine (l : Bytes) : Prop where
  nonempty : l ≠ []
  noCrlf : NoCrlf l

section Lines

variable {l first : Bytes} {lines : List Bytes}

theorem findSubsequence_noCrlf (h : NoCrlf l) (y : Bytes) :
    findSubsequence headTerminator (l ++ (CRLF ++ y)) =
      (findSubsequence headTerminator (CRLF ++ y)).map (· + l.length) := by
  induction l with
  | nil => simp
  | cons b l ih =>
    have hno : headTerminator.isPrefixOf (b :: (l ++ (CRLF ++ y))) = false := by
      rw [Bool.eq_false_iff]
      intro hp
      obtain ⟨t, ht⟩ := List.isPrefixOf_iff_prefix.mp hp
      cases l with
      | nil => exact absurd (List.cons.inj (List.cons.inj ht).2).1 (by decide)
      | cons c l =>
        obtain ⟨hb, ht⟩ := List.cons.inj ht
        exact (List.isChain_cons_cons.mp h).1 ⟨hb.symm, (List.cons.inj ht).1.symm⟩
    rw [List.cons_append, findSubsequence, hno, ih (List.IsChain.tail h)]
    simp [Function.comp_def, Nat.add_assoc]

/-- Before a line with text there is no blank line. -/
theorem findSubsequence_crlf (h : HeadLine l) (y : Bytes) :
    findSubsequence headTerminator (CRLF ++ (l ++ (CRLF ++ y))) =
      (findSubsequence headTerminator (l ++ (CRLF ++ y))).map (· + 2) := by
  obtain ⟨c, t, rfl⟩ := List.exists_cons_of_ne_nil h.nonempty
  have hfirst : headTerminator.isPrefixOf (CR :: LF :: (c :: t ++ (CRLF ++ y))) = false := by
    rw [Bool.eq_false_iff]
    intro hp
    obtain ⟨s, hs⟩ := List.isPrefixOf_iff_prefix.mp hp
    obtain ⟨hc, hs⟩ := List.cons.inj (List.cons.inj (List.cons.inj hs).2).2
    cases t with
    | nil => exact absurd (List.cons.inj hs).1 (by decide)
    | cons e t => exact (List.isChain_cons_cons.mp h.noCrlf).1 ⟨hc.symm, (List.cons.inj hs).1.symm⟩
  have hsecond : headTerminator.isPrefixOf (LF :: (c :: t ++ (CRLF ++ y))) = false := rfl
  have hcrlf : CRLF ++ (c :: t ++ (CRLF ++ y)) = CR :: LF :: (c :: t ++ (CRLF ++ y)) := rfl
  rw [hcrlf, findSubsequence, hfirst, findSubsequence, hsecond]
  simp [Function.comp_def]

theorem headBytes_cons (l : Bytes) (lines : List Bytes) :
    headBytes (l :: lines) = l ++ (CRLF ++ headBytes lines) := by
  simp [headBytes]

/-- The end of a head behind one more line. -/
theorem findHeaderEnd_cons (hno : NoCrlf first) (h : HeadLine l) (lines : List Bytes) (x : Bytes) :
    findHeaderEnd (headBytes (first :: l :: lines) ++ x) =
      (findHeaderEnd (headBytes (l :: lines) ++ x)).map (· + (first.length + 2)) := by
  have hsplit : headBytes (first :: l :: lines) ++ x =
      first ++ (CRLF ++ (l ++ (CRLF ++ (headBytes lines ++ x)))) := by
    rw [headBytes_cons, headBytes_cons]
    simp
  have hrest : headBytes (l :: lines) ++ x = l ++ (CRLF ++ (headBytes lines ++ x)) := by
    rw [headBytes_cons]
    simp
  rw [findHeaderEnd, findHeaderEnd, hsplit, hrest, findSubsequence_noCrlf hno,
    findSubsequence_crlf h]
  cases findSubsequence headTerminator (l ++ (CRLF ++ (headBytes lines ++ x))) with
  | none => rfl
  | some i =>
    simp only [Option.map_some, Option.some.injEq]
    omega

theorem findHeaderEnd_lines (hne : lines ≠ []) (hl : ∀ l ∈ lines, HeadLine l) (x : Bytes) :
    findHeaderEnd (headBytes lines ++ x) = some (headBytes lines).length := by
  induction lines with
  | nil => exact absurd rfl hne
  | cons first lines ih =>
    have hfirst := hl first (List.mem_cons_self ..)
    cases lines with
    | nil =>
      have hsplit : headBytes [first] ++ x = first ++ (CRLF ++ (CRLF ++ x)) := by
        simp [headBytes]
      have hfour : headTerminator ++ x = CRLF ++ (CRLF ++ x) := rfl
      have hstart : findSubsequence headTerminator (CRLF ++ (CRLF ++ x)) = some 0 := by
        rw [← hfour]
        exact findSubsequence_append x (by decide)
      rw [findHeaderEnd, hsplit, findSubsequence_noCrlf hfirst.noCrlf, hstart]
      simp [headBytes, CRLF]
    | cons l lines =>
      have htail := ih (List.cons_ne_nil _ _) fun l' h => hl l' (List.mem_cons_of_mem _ h)
      rw [findHeaderEnd_cons hfirst.noCrlf
        (hl l (List.mem_cons_of_mem _ (List.mem_cons_self ..))), htail, Option.map_some,
        headBytes_cons first, List.length_append, List.length_append]
      have htwo : CRLF.length = 2 := rfl
      congr 1
      omega

/-- All lines of a head that ends with its first blank line have text. -/
theorem headLines_of_end (hfirst : first ≠ []) (hno : ∀ l ∈ first :: lines, NoCrlf l)
    (hend : findHeaderEnd (headBytes (first :: lines)) = some (headBytes (first :: lines)).length) :
    ∀ l ∈ first :: lines, HeadLine l := by
  induction lines generalizing first with
  | nil =>
    intro l hl
    obtain rfl := List.mem_singleton.mp hl
    exact ⟨hfirst, hno _ hl⟩
  | cons l lines ih =>
    have htwo : CRLF.length = 2 := rfl
    have hne : l ≠ [] := by
      rintro rfl
      obtain ⟨j, hj, hle⟩ := findSubsequence_infix first (headBytes lines)
        (show findSubsequence headTerminator headTerminator = some 0 by decide)
      have hsplit : first ++ headTerminator ++ headBytes lines =
          headBytes (first :: [] :: lines) := by
        rw [headBytes_cons, headBytes_cons]
        simp [headTerminator, CRLF]
      rw [hsplit] at hj
      rw [findHeaderEnd, hj, Option.map_some, ← hsplit, List.length_append, List.length_append,
        headBytes, List.length_append] at hend
      have hfour : headTerminator.length = 4 := rfl
      have hlen := Option.some.inj hend
      omega
    have hl : HeadLine l := ⟨hne, hno l (List.mem_cons_of_mem _ (List.mem_cons_self ..))⟩
    have hcons := findHeaderEnd_cons (hno first (List.mem_cons_self ..)) hl lines []
    rw [List.append_nil, List.append_nil, hend, eq_comm, Option.map_eq_some_iff] at hcons
    obtain ⟨n, hn, hlen⟩ := hcons
    rw [headBytes_cons first, List.length_append, List.length_append] at hlen
    have htail : findHeaderEnd (headBytes (l :: lines)) = some (headBytes (l :: lines)).length := by
      rw [hn]
      congr 1
      omega
    intro l' hl'
    rcases List.mem_cons.mp hl' with rfl | hl'
    · exact ⟨hfirst, hno _ (List.mem_cons_self ..)⟩
    · exact ih hne (fun l h => hno l (List.mem_cons_of_mem _ h)) htail l' hl'

end Lines

section Edit

variable {setCl : Option ℕ} {lines : List Bytes}

/-- A line that the response editor writes is again a line. -/
theorem editResponseLine_headLine {l text : Bytes} (h : HeadLine l)
    (hedit : editResponseLine setCl l = some text) : ∃ l', text = emitLine l' ∧ HeadLine l' := by
  have hkept : some (emitLine l) = some text → ∃ l', text = emitLine l' ∧ HeadLine l' :=
    fun heq => ⟨l, (Option.some.inj heq).symm, h⟩
  cases setCl with
  | none =>
    have hline : editResponseLine none l = if isCsp l then none else some (emitLine l) := rfl
    rw [hline] at hedit
    split_ifs at hedit
    exact hkept hedit
  | some n =>
    unfold editResponseLine at hedit
    dsimp only at hedit
    split_ifs at hedit
    · obtain rfl := Option.some.inj hedit
      refine ⟨lineName l ++ lengthSuffix n, by simp [emitLine, lengthSuffix], ?_, ?_⟩
      · exact List.append_ne_nil_of_right_ne_nil _ (List.cons_ne_nil _ _)
      · exact noCrlf_relengthed h.noCrlf n
    · exact hkept hedit

theorem editLines_headLines (hl : ∀ l ∈ lines, HeadLine l) (dropped : Bool) :
    ∃ ls : List Bytes, editLines (editResponseLine setCl) dropped lines = ls.flatMap emitLine ∧
      ∀ l ∈ ls, HeadLine l := by
  induction lines generalizing dropped with
  | nil => exact ⟨[], rfl, by simp⟩
  | cons l lines ih =>
    have hfirst := hl l (List.mem_cons_self ..)
    have htail := ih fun l' h => hl l' (List.mem_cons_of_mem _ h)
    have hwith : ∀ l' dropped', HeadLine l' → ∃ ls : List Bytes,
        emitLine l' ++ editLines (editResponseLine setCl) dropped' lines = ls.flatMap emitLine ∧
          ∀ l ∈ ls, HeadLine l := by
      intro l' dropped' hl'
      obtain ⟨ls, htext, hls⟩ := htail dropped'
      refine ⟨l' :: ls, by rw [htext, List.flatMap_cons], ?_⟩
      intro l hm
      rcases List.mem_cons.mp hm with rfl | hm
      · exact hl'
      · exact hls l hm
    rw [editLines]
    split_ifs with hcont hdropped
    · exact htail dropped
    · exact hwith l dropped hfirst
    · cases hedit : editResponseLine setCl l with
      | none => exact htail true
      | some text =>
        obtain ⟨l', rfl, hl'⟩ := editResponseLine_headLine hfirst hedit
        exact hwith l' false hl'

/-- A response head that the parser reads ends where it ended, however it is edited. -/
theorem findHeaderEnd_edited {raw : Bytes} {status : ℕ} {headers : Headers}
    (hend : findHeaderEnd raw = some raw.length)
    (hhead : Rewriter.responseHead (fieldsOf raw) = some (status, headers)) (setCl : Option ℕ)
    (x : Bytes) :
    findHeaderEnd (editResponseHead raw setCl ++ x) =
      some (editResponseHead raw setCl).length := by
  have hne : fieldsOf raw ≠ [] := by
    intro hnil
    rw [hnil] at hhead
    cases hhead
  obtain ⟨first, lines, hlines, hno, htext⟩ := crlfLines_head hend hne
  have hfirst : first ≠ [] := by
    rintro rfl
    obtain ⟨⟨start, hs⟩, hparse, hread⟩ := Option.bind_eq_some_iff.mp hhead
    rw [← htext] at hparse
    obtain ⟨s, hs', rfl, -⟩ := (parseHeadFields_behind hno).mp hparse
    obtain rfl : [] = s := Option.some.inj hs'
    have hcut : (if behindStart [] lines = [] then cutCr [] else []) = ([] : Bytes) := by
      split_ifs <;> rfl
    rw [hcut] at hread
    cases hread
  have hwhole : headBytes (first :: lines) = raw := by
    rw [headBytes_eq (List.cons_ne_nil _ _), htext]
    exact (fieldsOf_append hend).2
  have hall := headLines_of_end hfirst hno (by rw [hwhole]; exact hend)
  obtain ⟨ls, hls, hlines'⟩ := @editLines_headLines setCl lines
    (fun l h => hall l (List.mem_cons_of_mem _ h)) false
  have hedited : editResponseHead raw setCl = headBytes (first :: ls) := by
    rw [editResponseHead, editHead, ← fieldsOf, hlines]
    simp only [hls]
    rfl
  rw [hedited]
  refine findHeaderEnd_lines (List.cons_ne_nil _ _) ?_ x
  intro l hm
  rcases List.mem_cons.mp hm with rfl | hm
  · exact hall _ (List.mem_cons_self ..)
  · exact hlines' l hm

end Edit

end Adwarden.Tls
