import Adwarden.Tls.HeadViews

/-! When the parser reads an edited head as it should: exactly where its view of the lines agrees
with that of the editor. -/
namespace Adwarden.Tls

section Request

variable {head start : Bytes} {headers : Headers}

/-- A head is its fields and the terminator. -/
theorem fieldsOf_append (h : findHeaderEnd head = some head.length) :
    findSubsequence headTerminator head = some (fieldsOf head).length ∧
      fieldsOf head ++ headTerminator = head := by
  obtain ⟨i, hi, hlen⟩ := Option.map_eq_some_iff.mp h
  have hfields : fieldsOf head = head.take i := by
    rw [fieldsOf]
    congr 1
    omega
  obtain ⟨t, ht⟩ := findSubsequence_isPrefix hi
  have hdrop : head.drop i = headTerminator := by
    have hl := congrArg List.length ht
    rw [List.length_append, List.length_drop] at hl
    have hfour : headTerminator.length = 4 := rfl
    rw [List.eq_nil_of_length_eq_zero (show t.length = 0 by omega), List.append_nil] at ht
    exact ht.symm
  refine ⟨?_, ?_⟩
  · rw [hi, hfields, List.length_take, Nat.min_eq_left (by omega)]
  · rw [hfields, ← hdrop, List.take_append_drop]

/-- The lines of a head that ends with its first blank line. -/
theorem crlfLines_head (h : findHeaderEnd head = some head.length) (hne : fieldsOf head ≠ []) :
    ∃ first lines, crlfLines (fieldsOf head) = first :: lines ∧
      (∀ l ∈ first :: lines, NoCrlf l) ∧ headText (first :: lines) = fieldsOf head := by
  have hend : ¬ CRLF <:+ fieldsOf head := by
    rintro ⟨x, hx⟩
    obtain ⟨hi, happ⟩ := fieldsOf_append h
    have hhead : x ++ headTerminator ++ CRLF = head := by
      rw [← happ, ← hx]
      simp [headTerminator, CRLF]
    obtain ⟨j, hj, hle⟩ := findSubsequence_infix x CRLF
      (show findSubsequence headTerminator headTerminator = some 0 by decide)
    rw [hhead, hi] at hj
    have hij := Option.some.inj hj
    have hl := congrArg List.length hx
    rw [List.length_append] at hl
    have htwo : CRLF.length = 2 := rfl
    omega
  obtain ⟨hnil, hno, htext⟩ := crlfLines_spec hne hend
  obtain ⟨first, lines, hlines⟩ := List.exists_cons_of_ne_nil hnil
  rw [hlines] at hno htext
  exact ⟨first, lines, hlines, hno, htext⟩

private theorem readable_of_mem {ps : List Bytes} (h : ∀ p ∈ cutLast ps, Readable p) :
    ∀ p ∈ ps, p ≠ [CR] → Readable p := by
  induction ps with
  | nil => simp
  | cons q ps ih =>
    rw [cutLast_cons] at h
    split_ifs at h with hps
    · intro p hp hne
      rw [hps, List.mem_singleton] at hp
      rw [hp] at hne ⊢
      exact readable_of_cutCr (h _ (List.mem_singleton_self _)) hne
    · intro p hp hne
      rcases List.mem_cons.mp hp with rfl | hp
      · exact h p (List.mem_cons_self ..)
      · exact ih (fun r hr => h r (List.mem_cons_of_mem _ hr)) p hp hne

private theorem fates_requestFate (dropped : Bool) (lines : List Bytes) :
    ∀ o ∈ fates requestFate dropped lines, o.2 ≠ .relength := by
  induction lines generalizing dropped with
  | nil => simp [fates]
  | cons line lines ih =>
    rw [fates]
    by_cases hcont : isContinuation line = true
    · rw [if_pos hcont]
      intro o ho
      rcases List.mem_cons.mp ho with rfl | ho
      · dsimp only
        split_ifs <;> simp
      · exact ih _ o ho
    · rw [if_neg hcont]
      intro o ho
      rcases List.mem_cons.mp ho with rfl | ho
      · dsimp only
        unfold requestFate
        split_ifs <;> simp
      · exact ih _ o ho

private theorem editedLines_kept {m : ℕ} {fs : List (Bytes × Fate)}
    (h : ∀ o ∈ fs, o.2 ≠ .relength) :
    editedLines m fs = (fs.filter (·.2 == .kept)).map (·.1) := by
  induction fs with
  | nil => rfl
  | cons o fs ih =>
    obtain ⟨line, fate⟩ := o
    have htail := ih fun o ho => h o (List.mem_cons_of_mem _ ho)
    cases fate with
    | kept => simp [htail]
    | dropped => simp [htail]
    | relength => exact absurd rfl (h _ (List.mem_cons_self ..))

private theorem requestFate_written {m : ℕ} {fs : List (Bytes × Fate)}
    (h : ∀ o ∈ fs, o.2 ≠ .relength) :
    ∀ o ∈ fs, o.2 ≠ .kept → writtenHeaders m o = [] := by
  intro o ho hkept
  cases hfate : o.2 with
  | kept => exact absurd hfate hkept
  | relength => exact absurd hfate (h o ho)
  | dropped =>
    rw [writtenHeaders, hfate]
    rfl

private theorem identity_piece : splitOn LF identityLine = [identityLine] ∧
    pieceHeaders identityLine = [(Str.lit "Accept-Encoding", Str.lit "identity")] := by
  constructor
  all_goals decide +kernel

/-- The parser on an edited request. -/
private theorem parse_edited_request {first : Bytes} {lines : List Bytes}
    (h : crlfLines (fieldsOf head) = first :: lines) (hno : ∀ l ∈ first :: lines, NoCrlf l)
    {start' : Bytes} {headers' : Headers} :
    parseHeadFields (fieldsOf (editRequestHead head)) = some (start', headers') ↔
      (splitOn LF first).head? = some start' ∧
        (∀ p ∈ keptPieces first (fates requestFate false lines), Readable p) ∧
        headers' = (keptPieces first (fates requestFate false lines)).flatMap pieceHeaders ++
          [(Str.lit "Accept-Encoding", Str.lit "identity")] := by
  have hkept := @editedLines_kept 0 _ (fates_requestFate false lines)
  have hfs := fates_lines requestFate false lines
  rw [@editRequestHead_lines 0 head first lines h, fieldsOf_headBytes (by simp), hkept]
  have hbehind : behindStart first (((fates requestFate false lines).filter (·.2 == .kept)).map (·.1) ++
      [identityLine]) = keptPieces first (fates requestFate false lines) ++ [identityLine] := by
    rw [behindStart, keptPieces, pieces, List.flatMap_append, List.flatMap_singleton,
      identity_piece.1, ← List.append_assoc, ← pieces]
  have hcr : ∀ l ∈ first :: (((fates requestFate false lines).filter (·.2 == .kept)).map (·.1) ++
      [identityLine]), NoCrlf l := by
    intro l hl
    rcases List.mem_cons.mp hl with rfl | hl
    · exact hno l (List.mem_cons_self ..)
    · rcases List.mem_append.mp hl with hl | hl
      · obtain ⟨o, ho, rfl⟩ := List.mem_map.mp hl
        refine hno _ (List.mem_cons_of_mem _ ?_)
        rw [← hfs]
        exact List.mem_map_of_mem (List.mem_filter.mp ho).1
      · rw [List.mem_singleton.mp hl]
        unfold NoCrlf
        decide
  have hlast : cutLast [identityLine] = [identityLine] := by decide
  have hread : Readable identityLine := by
    unfold Readable
    decide
  have hne : keptPieces first (fates requestFate false lines) ++ [identityLine] ≠ [] := by simp
  rw [parseHeadFields_behind hcr, hbehind, cutLast_append (by simp), hlast, List.flatMap_append,
    List.flatMap_singleton, identity_piece.2]
  simp only [if_neg hne]
  constructor
  · rintro ⟨s, hs, rfl, hall, rfl⟩
    exact ⟨hs, fun p hp => hall p (List.mem_append_left _ hp), rfl⟩
  · rintro ⟨hs, hall, rfl⟩
    refine ⟨start', hs, rfl, ?_, rfl⟩
    intro p hp
    rcases List.mem_append.mp hp with hp | hp
    · exact hall p hp
    · rw [List.mem_singleton.mp hp]
      exact hread

private theorem keptPieces_subset {first : Bytes} {lines : List Bytes} {fs : List (Bytes × Fate)}
    (h : fs.map (·.1) = lines) : ∀ p ∈ keptPieces first fs, p ∈ behindStart first lines := by
  intro p hp
  rcases List.mem_append.mp hp with hp | hp
  · exact List.mem_append_left _ hp
  · obtain ⟨l, hl, hp⟩ := List.mem_flatMap.mp hp
    obtain ⟨o, ho, rfl⟩ := List.mem_map.mp hl
    refine List.mem_append_right _ (List.mem_flatMap.mpr ⟨o.1, ?_, hp⟩)
    rw [← h]
    exact List.mem_map_of_mem (List.mem_filter.mp ho).1

/-- The headers on the pieces that are kept. -/
private theorem keptPieces_headers {first : Bytes} {fs : List (Bytes × Fate)}
    (h : ∀ o ∈ fs, o.2 ≠ .relength) :
    (keptPieces first fs).flatMap pieceHeaders =
      (splitOn LF first).tail.flatMap pieceHeaders ++ fs.flatMap (writtenHeaders 0) := by
  rw [keptPieces, List.flatMap_append, lines_headers, ← @editedLines_kept 0 fs h,
    editedLines_headers]

private theorem behindStart_headers {first : Bytes} {lines : List Bytes} {fs : List (Bytes × Fate)}
    (h : fs.map (·.1) = lines) :
    (behindStart first lines).flatMap pieceHeaders =
      (splitOn LF first).tail.flatMap pieceHeaders ++ fs.flatMap fun o => lineHeaders o.1 := by
  rw [behindStart, List.flatMap_append, lines_headers, ← h, List.flatMap_map]

private theorem exists_lines_iff {b first : Bytes} {lines : List Bytes}
    {P : Bytes → List Bytes → Prop} (h : crlfLines b = first :: lines) :
    (∃ first' lines', crlfLines b = first' :: lines' ∧ P first' lines') ↔ P first lines := by
  rw [h]
  constructor
  · rintro ⟨_, _, heq, hp⟩
    obtain ⟨rfl, rfl⟩ := List.cons.inj heq
    exact hp
  · exact fun hp => ⟨first, lines, rfl, hp⟩

/-- A request is edited as the parser reads it exactly when the two views agree. -/
theorem request_edited_iff (hend : findHeaderEnd head = some head.length)
    (hparse : parseHeadFields (fieldsOf head) = some (start, headers)) :
    RequestEdited head start headers ↔
      ∃ first lines, crlfLines (fieldsOf head) = first :: lines ∧
        RequestViewsAgree start first (fates requestFate false lines) := by
  by_cases hne : fieldsOf head = []
  · have hlines : crlfLines (fieldsOf head) = [] := by rw [hne]; rfl
    rw [hlines]
    constructor
    · rintro ⟨headers', hparse', -⟩
      exfalso
      have hedit : editRequestHead head = ascii "Accept-Encoding: identity\r\n\r\n" := by
        rw [editRequestHead, editHead, ← fieldsOf, hlines]
        rfl
      have hstart : parseHeadFields (fieldsOf (ascii "Accept-Encoding: identity\r\n\r\n")) =
          some (identityLine, []) := by decide +kernel
      have hempty : parseHeadFields [] = some ([], []) := by decide
      rw [hne, hempty] at hparse
      rw [hedit, hstart] at hparse'
      obtain ⟨rfl, -⟩ := Prod.mk.inj (Option.some.inj hparse)
      exact absurd (Prod.mk.inj (Option.some.inj hparse')).1 (by decide)
    · rintro ⟨first, lines, hnil, -⟩
      cases hnil
  obtain ⟨first, lines, hlines, hno, htext⟩ := crlfLines_head hend hne
  rw [← htext] at hparse
  obtain ⟨s, hs, hstart, hread, hheaders⟩ := (parseHeadFields_behind hno).mp hparse
  have hfates := fates_requestFate false lines
  have hfs := fates_lines requestFate false lines
  rw [exists_lines_iff hlines, RequestEdited]
  simp only [parse_edited_request hlines hno]
  rw [behindStart_headers hfs] at hheaders
  have hkept := @keptPieces_headers first _ hfates
  have hothers := @filter_written_iff (!named "accept-encoding" ·) 0
    (fates requestFate false lines) (fun o ho hk => by
      rw [requestFate_written hfates o ho hk]
      rfl)
  have hsubset := @keptPieces_subset first lines _ hfs
  generalize fates requestFate false lines = fs at *
  have hidentity : named "accept-encoding" (Str.lit "Accept-Encoding", Str.lit "identity") = true := by
    decide
  have hencoding : ∀ hs : Headers, ((hs ++ [(Str.lit "Accept-Encoding", Str.lit "identity")]).filter
      (named "accept-encoding")).map (·.2) = [Str.lit "identity"] ↔
        ∀ h ∈ hs, named "accept-encoding" h = false := by
    intro hs
    rw [List.filter_append, List.filter_singleton, hidentity, cond_true, List.map_append,
      List.map_singleton, List.append_left_eq_self, List.map_eq_nil_iff, List.filter_eq_nil_iff]
    simp only [Bool.not_eq_true]
  have hsame : ∀ hs : Headers, (hs ++ [(Str.lit "Accept-Encoding", Str.lit "identity")]).filter
      (!named "accept-encoding" ·) = hs.filter (!named "accept-encoding" ·) := by
    intro hs
    rw [List.filter_append, List.filter_singleton, hidentity]
    exact List.append_nil _
  constructor
  · rintro ⟨headers', ⟨hfirst, hall, rfl⟩, hone, heq⟩
    rw [hencoding] at hone
    rw [hsame, hheaders, hkept, List.filter_append, List.filter_append,
      List.append_cancel_left_eq, hothers] at heq
    refine ⟨hfirst, ?_, ?_⟩
    · intro p hp
      refine ⟨?_, fun h hh => hone h (List.mem_flatMap.mpr ⟨p, hp, hh⟩)⟩
      rintro rfl
      exact hall _ hp rfl
    · intro o ho hfate h hh
      simpa using heq o ho hfate h hh
  · intro hagree
    refine ⟨_, ⟨hagree.start, ?_, rfl⟩, ?_, ?_⟩
    · intro p hp
      exact readable_of_mem hread p (hsubset p hp) (hagree.kept p hp).1
    · rw [hencoding]
      intro h hh
      obtain ⟨p, hp, hh⟩ := List.mem_flatMap.mp hh
      exact (hagree.kept p hp).2 h hh
    · rw [hsame, hheaders, hkept, List.filter_append, List.filter_append,
        List.append_cancel_left_eq, hothers]
      intro o ho hfate h hh
      simpa using hagree.dropped o ho hfate h hh

end Request

section Response

variable {head start : Bytes} {headers : Headers}

private theorem fates_responseFate (dropped : Bool) (lines : List Bytes) :
    ∀ o ∈ fates responseFate dropped lines, o.2 = .relength →
      nameIs o.1 "content-length" = true := by
  induction lines generalizing dropped with
  | nil => simp [fates]
  | cons line lines ih =>
    rw [fates]
    by_cases hcont : isContinuation line = true
    · rw [if_pos hcont]
      intro o ho hfate
      rcases List.mem_cons.mp ho with rfl | ho
      · dsimp only at hfate
        split_ifs at hfate
      · exact ih _ o ho hfate
    · rw [if_neg hcont]
      intro o ho hfate
      rcases List.mem_cons.mp ho with rfl | ho
      · dsimp only at hfate ⊢
        unfold responseFate at hfate
        split_ifs at hfate with _ hname
        exact hname
      · exact ih _ o ho hfate

/-- The first length counts. -/
theorem contentLength_append (a b : Headers) :
    contentLength (a ++ b) =
      if a.any (named "content-length") then contentLength a else contentLength b := by
  have hfind : (a ++ b).find? (named "content-length") =
      (a.find? (named "content-length")).or (b.find? (named "content-length")) :=
    List.find?_append
  show (((a ++ b).find? (named "content-length")).map (·.2)).bind _ = _
  rw [hfind]
  split_ifs with hany
  · obtain ⟨h, hh, hn⟩ := List.any_eq_true.mp hany
    cases hf : a.find? (named "content-length") with
    | none => exact absurd hn (List.find?_eq_none.mp hf h hh)
    | some h' =>
      show _ = ((a.find? (named "content-length")).map (·.2)).bind _
      rw [hf]
      rfl
  · have hf : a.find? (named "content-length") = none := by
      rw [List.find?_eq_none]
      intro h hh hn
      exact hany (List.any_eq_true.mpr ⟨h, hh, hn⟩)
    rw [hf]
    rfl

theorem contentLength_none {a : Headers} (h : ∀ h ∈ a, named "content-length" h = false) :
    contentLength a = none := by
  have hf : a.find? (named "content-length") = none := by
    rw [List.find?_eq_none]
    intro x hx hn
    rw [h x hx] at hn
    cases hn
  show ((a.find? (named "content-length")).map (·.2)).bind _ = none
  rw [hf]
  rfl

private theorem any_named_false {a : Headers} (h : ∀ h ∈ a, named "content-length" h = false) :
    a.any (named "content-length") = false := by
  rw [List.any_eq_false]
  intro x hx
  rw [h x hx]
  exact Bool.false_ne_true

/-- Every line that is to be rewritten is one the editor may rewrite. -/
def Relengthable (fs : List (Bytes × Fate)) : Prop :=
  ∀ o ∈ fs, o.2 = .relength → NoCrlf o.1 ∧ Taken o.1 ∧ nameIs o.1 "content-length" = true

theorem Relengthable.written {fs : List (Bytes × Fate)} (h : Relengthable fs) (m : ℕ)
    {o : Bytes × Fate} (ho : o ∈ fs) (hfate : o.2 = .relength) :
    ∃ name, writtenHeaders m o = [(name, Str.ofNat m)] ∧
      named "content-length" (name, Str.ofNat m) = true := by
  obtain ⟨hno, htaken, hname⟩ := h o ho hfate
  obtain ⟨-, name, hheaders, hn⟩ := lineHeaders_relength m hno htaken hname
  refine ⟨name, ?_, hn⟩
  rw [writtenHeaders, hfate]
  exact hheaders

/-- A line that is not kept leaves at most the new length. -/
private theorem Relengthable.unkept {fs : List (Bytes × Fate)} (h : Relengthable fs) (m : ℕ) :
    ∀ o ∈ fs, o.2 ≠ .kept → ∀ h ∈ writtenHeaders m o,
      cspHeader h = false ∧ otherHeader h = false := by
  intro o ho hkept x hx
  cases hfate : o.2 with
  | kept => exact absurd hfate hkept
  | dropped =>
    rw [writtenHeaders, hfate] at hx
    cases hx
  | relength =>
    obtain ⟨name, hw, hn⟩ := h.written m ho hfate
    rw [hw] at hx
    obtain rfl := List.mem_singleton.mp hx
    have hcsp : cspHeader (name, Str.ofNat m) = false := by
      rw [cspHeader, named, named, named, Str.eqIgnoreAsciiCase_of_ne (by decide) hn,
        Str.eqIgnoreAsciiCase_of_ne (by decide) hn, Str.eqIgnoreAsciiCase_of_ne (by decide) hn]
      rfl
    exact ⟨hcsp, by rw [otherHeader, hn]; simp⟩

/-- A line with no length behind its fate is not in the way of the first that is rewritten. -/
private theorem first_relength_cons {o : Bytes × Fate} {fs : List (Bytes × Fate)}
    (hne : o.2 ≠ .relength)
    (hkept : o.2 = .kept → ∀ h ∈ lineHeaders o.1, named "content-length" h = false) :
    (∃ front line back, o :: fs = front ++ (line, .relength) :: back ∧
      ∀ o ∈ front, o.2 = .kept → ∀ h ∈ lineHeaders o.1, named "content-length" h = false) ↔
      ∃ front line back, fs = front ++ (line, .relength) :: back ∧
        ∀ o ∈ front, o.2 = .kept → ∀ h ∈ lineHeaders o.1, named "content-length" h = false := by
  constructor
  · rintro ⟨front, line, back, hfs, hfront⟩
    cases front with
    | nil =>
      obtain ⟨rfl, -⟩ := List.cons.inj hfs
      exact absurd rfl hne
    | cons q front =>
      obtain ⟨-, rfl⟩ := List.cons.inj hfs
      exact ⟨front, line, back, rfl, fun q hq => hfront q (List.mem_cons_of_mem _ hq)⟩
  · rintro ⟨front, line, back, rfl, hfront⟩
    refine ⟨o :: front, line, back, rfl, ?_⟩
    intro q hq hfate
    rcases List.mem_cons.mp hq with rfl | hq
    · exact hkept hfate
    · exact hfront q hq hfate

/-- The new length is read exactly when the first length that is written was rewritten. -/
theorem contentLength_written_iff {fs : List (Bytes × Fate)} (h : Relengthable fs) {acc : Headers}
    (hacc : ∀ h ∈ acc, named "content-length" h = false) :
    (∀ m < usizeSize, contentLength (acc ++ fs.flatMap (writtenHeaders m)) = some m) ↔
      ∃ front line back, fs = front ++ (line, .relength) :: back ∧
        ∀ o ∈ front, o.2 = .kept → ∀ h ∈ lineHeaders o.1, named "content-length" h = false := by
  have hzero : 0 < usizeSize := by decide
  have hone : 1 < usizeSize := by decide
  induction fs generalizing acc with
  | nil =>
    constructor
    · intro hall
      have hnone := hall 0 hzero
      rw [List.flatMap_nil, List.append_nil, contentLength_none hacc] at hnone
      cases hnone
    · rintro ⟨front, line, back, hfs, -⟩
      exact absurd hfs (by simp)
  | cons o fs ih =>
    obtain ⟨line, fate⟩ := o
    have htail : Relengthable fs := fun o ho => h o (List.mem_cons_of_mem _ ho)
    cases fate with
    | relength =>
      constructor
      · intro _
        exact ⟨[], line, fs, rfl, by simp⟩
      · intro _ m hm
        obtain ⟨name, hw, hn⟩ := h.written m (List.mem_cons_self ..) rfl
        have hfind : [(name, Str.ofNat m)].find? (named "content-length") =
            some (name, Str.ofNat m) := by simp [hn]
        rw [List.flatMap_cons, hw, contentLength_append,
          if_neg (by rw [any_named_false hacc]; simp),
          contentLength_append, if_pos (by simp [hn])]
        show (([(name, Str.ofNat m)].find? (named "content-length")).map (·.2)).bind _ = some m
        rw [hfind]
        exact Str.parseUsize_ofNat hm
    | dropped =>
      have hskip : ∀ m, ((line, Fate.dropped) :: fs).flatMap (writtenHeaders m) =
          fs.flatMap (writtenHeaders m) := fun m => rfl
      simp only [hskip]
      exact (ih htail hacc).trans (first_relength_cons (by simp) (by simp)).symm
    | kept =>
      have hstay : ∀ m, acc ++ ((line, Fate.kept) :: fs).flatMap (writtenHeaders m) =
          (acc ++ lineHeaders line) ++ fs.flatMap (writtenHeaders m) := by
        intro m
        rw [List.flatMap_cons, List.append_assoc]
        rfl
      simp only [hstay]
      by_cases hline : ∀ h ∈ lineHeaders line, named "content-length" h = false
      · have hnone : ∀ h ∈ acc ++ lineHeaders line, named "content-length" h = false := by
          intro h hh
          rcases List.mem_append.mp hh with hh | hh
          · exact hacc h hh
          · exact hline h hh
        exact (ih htail hnone).trans (first_relength_cons (by simp) fun _ => hline).symm
      · constructor
        · intro hall
          exfalso
          have hany : (acc ++ lineHeaders line).any (named "content-length") = true := by
            by_contra hnone
            refine hline fun h hh => ?_
            rw [Bool.not_eq_true, List.any_eq_false] at hnone
            exact Bool.eq_false_iff.mpr (hnone h (List.mem_append_right _ hh))
          have h0 := hall 0 hzero
          have h1 := hall 1 hone
          rw [contentLength_append, if_pos hany] at h0 h1
          rw [h0] at h1
          cases h1
        · rintro ⟨front, line', back, hfs, hfront⟩
          exfalso
          cases front with
          | nil => exact absurd (congrArg Prod.snd (List.cons.inj hfs).1) (by simp)
          | cons o front =>
            obtain ⟨rfl, -⟩ := List.cons.inj hfs
            exact hline (hfront _ (List.mem_cons_self ..) rfl)

/-- The parser takes the lines that are written. -/
private theorem readable_written {fs : List (Bytes × Fate)} (h : Relengthable fs) (m : ℕ)
    {acc : List Bytes} (hacc : ∀ p ∈ acc, Readable p)
    (hread : ∀ p ∈ cutLast (pieces (fs.map (·.1))), Readable p) :
    ∀ p ∈ cutLast (acc ++ pieces (editedLines m fs)), Readable p := by
  -- pieces that are all taken are so with the end cut
  have hcut : ∀ ps : List Bytes, (∀ p ∈ ps, Readable p) → ∀ p ∈ cutLast ps, Readable p := by
    intro ps
    induction ps with
    | nil => simp [cutLast]
    | cons q ps ih =>
      intro hps
      rw [cutLast_cons]
      split_ifs
      · intro p hp
        rw [List.mem_singleton.mp hp]
        exact (hps q (List.mem_cons_self ..)).cutCr
      · intro p hp
        rcases List.mem_cons.mp hp with rfl | hp
        · exact hps p (List.mem_cons_self ..)
        · exact ih (fun r hr => hps r (List.mem_cons_of_mem _ hr)) p hp
  induction fs generalizing acc with
  | nil =>
    rw [editedLines, List.filterMap_nil, pieces, List.flatMap_nil, List.append_nil]
    exact hcut acc hacc
  | cons o fs ih =>
    obtain ⟨line, fate⟩ := o
    have htail : Relengthable fs := fun o ho => h o (List.mem_cons_of_mem _ ho)
    have hline : pieces (((line, fate) :: fs).map (·.1)) =
        splitOn LF line ++ pieces (fs.map (·.1)) := by
      rw [List.map_cons, pieces, List.flatMap_cons, ← pieces]
    rw [hline] at hread
    have hjoin : ∀ (l : Bytes) (ls : List Bytes), acc ++ pieces (l :: ls) =
        acc ++ splitOn LF l ++ pieces ls := by
      intro l ls
      rw [pieces, List.flatMap_cons, ← pieces, List.append_assoc]
    have hboth : ∀ {ps : List Bytes}, (∀ p ∈ ps, Readable p) → ∀ p ∈ acc ++ ps, Readable p := by
      intro ps hps p hp
      rcases List.mem_append.mp hp with hp | hp
      · exact hacc p hp
      · exact hps p hp
    have hnew : fate = .relength →
        ∀ p ∈ splitOn LF (lineName line ++ lengthSuffix m), Readable p := by
      rintro rfl
      obtain ⟨hno, htaken, hname⟩ := h _ (List.mem_cons_self ..) rfl
      exact (lineHeaders_relength m hno htaken hname).1
    by_cases hfs : fs = []
    · subst hfs
      cases fate with
      | dropped => simpa [editedLines, pieces, Fate.line] using hcut acc hacc
      | relength =>
        rw [editedLines_cons_relength, hjoin]
        simpa [editedLines, pieces] using hcut _ (hboth (hnew rfl))
      | kept =>
        rw [editedLines_cons_kept, hjoin, editedLines, List.filterMap_nil, pieces, List.flatMap_nil,
          List.append_nil, cutLast_append (splitOn_ne_nil LF line)]
        rw [List.map_nil, pieces, List.flatMap_nil, List.append_nil] at hread
        exact hboth hread
    · have hnil : fs.map (·.1) ≠ [] := mt List.map_eq_nil_iff.mp hfs
      rw [cutLast_append (pieces_ne_nil hnil)] at hread
      have hmore := fun p hp => hread p (List.mem_append_right _ hp)
      cases fate with
      | dropped => exact ih htail hacc hmore
      | relength =>
        rw [editedLines_cons_relength, hjoin]
        exact ih htail (hboth (hnew rfl)) hmore
      | kept =>
        rw [editedLines_cons_kept, hjoin]
        exact ih htail (hboth fun p hp => hread p (List.mem_append_left _ hp)) hmore

private theorem lineName_prefix (line : Bytes) : lineName line <+: line := by
  unfold lineName
  split
  · exact List.take_prefix _ _
  · exact List.prefix_refl _

private theorem noCrlf_of_not_mem {l : Bytes} (h : CR ∉ l) : NoCrlf l := by
  induction l with
  | nil => exact List.isChain_nil
  | cons b l ih =>
    have htail : NoCrlf l := ih fun hm => h (List.mem_cons_of_mem _ hm)
    refine List.isChain_cons.mpr ⟨?_, htail⟩
    rintro c - ⟨rfl, -⟩
    exact h (List.mem_cons_self ..)

theorem noCrlf_relengthed {line : Bytes} (h : NoCrlf line) (m : ℕ) :
    NoCrlf (lineName line ++ lengthSuffix m) := by
  obtain ⟨t, ht⟩ := lineName_prefix line
  refine List.isChain_append.mpr ⟨?_, noCrlf_of_not_mem (lengthSuffix_not_mem m).1, ?_⟩
  · rw [← ht] at h
    exact h.of_append.1
  · rintro x - y hy ⟨-, rfl⟩
    have hhead : (lengthSuffix m).head? = some 58 := rfl
    rw [hhead] at hy
    exact absurd (Option.some.inj hy) (by decide)

private theorem noCrlf_written {fs : List (Bytes × Fate)} (h : ∀ o ∈ fs, NoCrlf o.1) (m : ℕ) :
    ∀ l ∈ editedLines m fs, NoCrlf l := by
  intro l hl
  obtain ⟨⟨line, fate⟩, ho, hline⟩ := List.mem_filterMap.mp hl
  have hno := h _ ho
  cases fate with
  | dropped => cases hline
  | kept =>
    obtain rfl := Option.some.inj hline
    exact hno
  | relength =>
    obtain rfl := Option.some.inj hline
    exact noCrlf_relengthed hno m

/-- The parser on an edited response. -/
private theorem parse_edited_response {first s : Bytes} {lines : List Bytes}
    (h : crlfLines (fieldsOf head) = first :: lines) (hno : ∀ l ∈ first :: lines, NoCrlf l)
    (hs : (splitOn LF first).head? = some s) (m : ℕ) {start' : Bytes} {headers' : Headers} :
    parseHeadFields (fieldsOf (editResponseHead head (some m))) = some (start', headers') ↔
      start' = (if behindStart first (editedLines m (fates responseFate false lines)) = [] then
        cutCr s else s) ∧
        (∀ p ∈ cutLast (behindStart first (editedLines m (fates responseFate false lines))),
          Readable p) ∧
        headers' = (splitOn LF first).tail.flatMap pieceHeaders ++
          (fates responseFate false lines).flatMap (writtenHeaders m) := by
  have hfs := fates_lines responseFate false lines
  have hall : ∀ o ∈ fates responseFate false lines, NoCrlf o.1 := by
    intro o ho
    refine hno _ (List.mem_cons_of_mem _ ?_)
    rw [← hfs]
    exact List.mem_map_of_mem ho
  have hwritten : ∀ l ∈ first :: editedLines m (fates responseFate false lines), NoCrlf l := by
    intro l hl
    rcases List.mem_cons.mp hl with rfl | hl
    · exact hno l (List.mem_cons_self ..)
    · exact noCrlf_written hall m l hl
  rw [editResponseHead_lines h, fieldsOf_headBytes (by simp), parseHeadFields_behind hwritten,
    ← editedLines_headers, ← lines_headers, ← List.flatMap_append, ← behindStart]
  constructor
  · rintro ⟨s', hs', rfl, hread, rfl⟩
    rw [hs] at hs'
    obtain rfl := Option.some.inj hs'
    exact ⟨rfl, hread, rfl⟩
  · rintro ⟨rfl, hread, rfl⟩
    exact ⟨s, hs, rfl, hread, rfl⟩

private theorem behindStart_ne_nil (first : Bytes) {lines : List Bytes} (h : lines ≠ []) :
    behindStart first lines ≠ [] :=
  List.append_ne_nil_of_right_ne_nil _ (pieces_ne_nil h)

/-- The headers that are read behind a status line stand on pieces behind it. -/
private theorem behindStart_edited_ne_nil {first : Bytes} {m : ℕ} {fs : List (Bytes × Fate)}
    (h : (splitOn LF first).tail.flatMap pieceHeaders ++ fs.flatMap (writtenHeaders m) ≠ []) :
    behindStart first (editedLines m fs) ≠ [] := by
  intro hnil
  have hnone := congrArg (List.flatMap pieceHeaders) hnil
  rw [behindStart, List.flatMap_append, lines_headers, editedLines_headers] at hnone
  exact h hnone

/-- The lines of a head that the parser takes can have their lengths rewritten. -/
private theorem relengthable_fates {first : Bytes} {lines : List Bytes}
    (hno : ∀ l ∈ first :: lines, NoCrlf l)
    (hread : ∀ p ∈ cutLast (behindStart first lines), Readable p) :
    Relengthable (fates responseFate false lines) := by
  intro o ho hfate
  have hline : o.1 ∈ lines := by
    rw [← fates_lines responseFate false lines]
    exact List.mem_map_of_mem ho
  refine ⟨hno _ (List.mem_cons_of_mem _ hline), ?_, fates_responseFate false lines o ho hfate⟩
  intro p hp
  exact readable_of_mem hread p
    (List.mem_append_right _ (List.mem_flatMap.mpr ⟨o.1, hline, hp⟩))

private theorem readable_edited {first : Bytes} {lines : List Bytes}
    (h : Relengthable (fates responseFate false lines))
    (hread : ∀ p ∈ cutLast (behindStart first lines), Readable p) (m : ℕ) :
    ∀ p ∈ cutLast (behindStart first (editedLines m (fates responseFate false lines))),
      Readable p := by
  by_cases hl : lines = []
  · subst hl
    exact hread
  · rw [behindStart, cutLast_append (pieces_ne_nil hl)] at hread
    refine readable_written h m (fun p hp => hread p (List.mem_append_left _ hp)) ?_
    rw [fates_lines responseFate false lines]
    exact fun p hp => hread p (List.mem_append_right _ hp)

/-- What the parser reads in a head with its lengths rewritten. -/
theorem parse_relengthed {first : Bytes} {lines : List Bytes}
    (hend : findHeaderEnd head = some head.length)
    (hparse : parseHeadFields (fieldsOf head) = some (start, headers))
    (hlines : crlfLines (fieldsOf head) = first :: lines) (m : ℕ) :
    Relengthable (fates responseFate false lines) ∧ ∃ start',
      parseHeadFields (fieldsOf (editResponseHead head (some m))) = some (start',
        (splitOn LF first).tail.flatMap pieceHeaders ++
          (fates responseFate false lines).flatMap (writtenHeaders m)) ∧
      ((splitOn LF first).tail.flatMap pieceHeaders ++
        (fates responseFate false lines).flatMap (writtenHeaders m) ≠ [] → start' = start) := by
  have hne : fieldsOf head ≠ [] := by
    intro hnil
    rw [hnil] at hlines
    cases hlines
  obtain ⟨first', lines', hlines', hno, htext⟩ := crlfLines_head hend hne
  obtain ⟨rfl, rfl⟩ := List.cons.inj (hlines.symm.trans hlines')
  rw [← htext] at hparse
  obtain ⟨s, hs, hstart, hread, -⟩ := (parseHeadFields_behind hno).mp hparse
  have hrelength := relengthable_fates hno hread
  refine ⟨hrelength, _, (parse_edited_response hlines hno hs m).mpr
    ⟨rfl, readable_edited hrelength hread m, rfl⟩, ?_⟩
  intro hheaders
  have hkept := behindStart_edited_ne_nil hheaders
  have hbehind : behindStart first lines ≠ [] := by
    by_cases hl : lines = []
    · subst hl
      exact hkept
    · exact behindStart_ne_nil first hl
  rw [hstart, if_neg hkept, if_neg hbehind]

/-- A response is edited as the parser reads it exactly when the two views agree. -/
theorem response_edited_iff (hend : findHeaderEnd head = some head.length)
    (hparse : parseHeadFields (fieldsOf head) = some (start, headers)) :
    ResponseEdited head start headers ↔
      ∃ first lines, crlfLines (fieldsOf head) = first :: lines ∧
        ResponseViewsAgree first (fates responseFate false lines) := by
  by_cases hne : fieldsOf head = []
  · have hlines : crlfLines (fieldsOf head) = [] := by rw [hne]; rfl
    rw [hlines]
    constructor
    · intro hall
      obtain ⟨headers', hparse', hlength, -⟩ := hall 0 (by decide)
      have hedit : editResponseHead head (some 0) = CRLF := by
        rw [editResponseHead, editHead, ← fieldsOf, hlines]
        rfl
      have hempty : parseHeadFields (fieldsOf CRLF) = some ([], []) := by decide
      rw [hedit, hempty] at hparse'
      obtain ⟨-, rfl⟩ := Prod.mk.inj (Option.some.inj hparse')
      cases hlength
    · rintro ⟨first, lines, hnil, -⟩
      cases hnil
  obtain ⟨first, lines, hlines, hno, htext⟩ := crlfLines_head hend hne
  rw [← htext] at hparse
  obtain ⟨s, hs, hstart, hread, hheaders⟩ := (parseHeadFields_behind hno).mp hparse
  have hfs := fates_lines responseFate false lines
  rw [exists_lines_iff hlines, ResponseEdited]
  have hrelength := relengthable_fates hno hread
  have hreadWritten := readable_edited hrelength hread
  simp only [parse_edited_response hlines hno hs]
  rw [behindStart_headers hfs] at hheaders
  have hstay := fun m => @filter_written_iff otherHeader m (fates responseFate false lines)
    fun o ho hk => List.filter_eq_nil_iff.mpr fun h hh => by
      rw [(hrelength.unkept m o ho hk h hh).2]
      exact Bool.false_ne_true
  generalize fates responseFate false lines = fs at *
  constructor
  · intro hall
    have hlength : ∀ m < usizeSize, contentLength ((splitOn LF first).tail.flatMap pieceHeaders ++
        fs.flatMap (writtenHeaders m)) = some m := by
      intro m hm
      obtain ⟨headers', ⟨-, -, rfl⟩, hcl, -⟩ := hall m hm
      exact hcl
    have hfirst : ∀ h ∈ (splitOn LF first).tail.flatMap pieceHeaders,
        named "content-length" h = false := by
      by_contra hnone
      have hany : ((splitOn LF first).tail.flatMap pieceHeaders).any (named "content-length") =
          true := by
        by_contra hany
        refine hnone fun h hh => ?_
        rw [Bool.not_eq_true, List.any_eq_false] at hany
        exact Bool.eq_false_iff.mpr (hany h hh)
      have h0 := hlength 0 (by decide)
      have h1 := hlength 1 (by decide)
      rw [contentLength_append, if_pos hany] at h0 h1
      rw [h0] at h1
      cases h1
    obtain ⟨headers', ⟨-, -, rfl⟩, -, hcsp, hother⟩ := hall 0 (by decide)
    refine ⟨?_, ?_, ?_⟩
    · refine (@keptPieces_forall (fun h => cspHeader h = false) first fs).mpr ⟨?_, ?_⟩
      · exact fun h hh => hcsp h (List.mem_append_left _ hh)
      · intro o ho hfate h hh
        refine hcsp h (List.mem_append_right _ (List.mem_flatMap.mpr ⟨o, ho, ?_⟩))
        rw [writtenHeaders, hfate]
        exact hh
    · rw [hheaders, List.filter_append, List.filter_append, List.append_cancel_left_eq,
        hstay 0] at hother
      exact hother
    · obtain ⟨front, line, back, rfl, hfront⟩ :=
        (contentLength_written_iff hrelength hfirst).mp hlength
      exact ⟨front, line, back, rfl,
        (@keptPieces_forall (fun h => named "content-length" h = false) first front).mpr
          ⟨hfirst, hfront⟩⟩
  · rintro ⟨hkept, hdropped, front, line, back, rfl, hfront⟩ m hm
    obtain ⟨hfirst, hfront⟩ :=
      (@keptPieces_forall (fun h => named "content-length" h = false) first front).mp hfront
    obtain ⟨hpolicy, hpolicies⟩ :=
      (@keptPieces_forall (fun h => cspHeader h = false) first _).mp hkept
    have hlength :=
      (contentLength_written_iff hrelength hfirst).mpr ⟨front, line, back, rfl, hfront⟩
      m hm
    have hlines : lines ≠ [] := by
      rintro rfl
      simp at hfs
    refine ⟨_, ⟨?_, hreadWritten m, rfl⟩, hlength, ?_, ?_⟩
    · have hwritten : behindStart first (editedLines m (front ++ (line, .relength) :: back)) ≠
          [] := by
        apply behindStart_edited_ne_nil
        intro hnone
        rw [hnone] at hlength
        cases hlength
      rw [hstart, if_neg (behindStart_ne_nil first hlines), if_neg hwritten]
    · intro h hh
      rcases List.mem_append.mp hh with hh | hh
      · exact hpolicy h hh
      · obtain ⟨o, ho, hh⟩ := List.mem_flatMap.mp hh
        by_cases hfate : o.2 = .kept
        · rw [writtenHeaders, hfate] at hh
          exact hpolicies o ho hfate h hh
        · exact (hrelength.unkept m o ho hfate h hh).1
    · rw [hheaders, List.filter_append, List.filter_append, List.append_cancel_left_eq,
        hstay m]
      exact hdropped

end Response

/-- The head editors agree with the head parser exactly where the two views of the lines do. -/
theorem head_edits_iff {head start : Bytes} {headers : Headers}
    (hend : findHeaderEnd head = some head.length)
    (hparse : parseHeadFields (fieldsOf head) = some (start, headers)) :
    (RequestEdited head start headers ↔
      ∃ first lines, crlfLines (fieldsOf head) = first :: lines ∧
        RequestViewsAgree start first (fates requestFate false lines)) ∧
      ((contentLength headers).isSome = true → (ResponseEdited head start headers ↔
        ∃ first lines, crlfLines (fieldsOf head) = first :: lines ∧
          ResponseViewsAgree first (fates responseFate false lines))) :=
  ⟨request_edited_iff hend hparse, fun _ => response_edited_iff hend hparse⟩

def plainHead : Bytes := ascii "HTTP/1.1 200 OK\r\nContent-Length : 5\r\nX: y\r\n\r\n"

theorem head_edits_plain :
    (RequestEdited plainHead (ascii "HTTP/1.1 200 OK")
        [(Str.lit "Content-Length", Str.lit "5"), (Str.lit "X", Str.lit "y")] ↔
      ∃ first lines, crlfLines (fieldsOf plainHead) = first :: lines ∧
        RequestViewsAgree (ascii "HTTP/1.1 200 OK") first (fates requestFate false lines)) ∧
      ((contentLength [(Str.lit "Content-Length", Str.lit "5"), (Str.lit "X", Str.lit "y")]).isSome =
        true → (ResponseEdited plainHead (ascii "HTTP/1.1 200 OK")
            [(Str.lit "Content-Length", Str.lit "5"), (Str.lit "X", Str.lit "y")] ↔
          ∃ first lines, crlfLines (fieldsOf plainHead) = first :: lines ∧
            ResponseViewsAgree first (fates responseFate false lines))) :=
  head_edits_iff (by decide +kernel) (by decide +kernel)

def bareLfHead : Bytes := ascii "HTTP/1.1 200 OK\r\nServer: s\nContent-Length: 5\r\n\r\n"

def foldedHead : Bytes := ascii "GET / HTTP/1.1\r\nHost: h\r\n Accept-Encoding: gzip\r\n\r\n"

/-- A length behind a bare LF keeps its old value, and an encoding on a line that begins with a
blank stays. -/
theorem hidden_headers_kept :
    findHeaderEnd bareLfHead = some bareLfHead.length ∧
      (parseHeadFields (fieldsOf bareLfHead)).bind (contentLength ·.2) = some 5 ∧
      (parseHeadFields (fieldsOf (editResponseHead bareLfHead (some 9)))).bind (contentLength ·.2) =
        some 5 ∧
      findHeaderEnd foldedHead = some foldedHead.length ∧
      (parseHeadFields (fieldsOf (editRequestHead foldedHead))).map
        (·.2.filter (named "accept-encoding")) =
        some [(Str.lit "Accept-Encoding", Str.lit "gzip"),
          (Str.lit "Accept-Encoding", Str.lit "identity")] := by
  refine ⟨?_, ?_, ?_, ?_, ?_⟩
  all_goals decide +kernel

end Adwarden.Tls
