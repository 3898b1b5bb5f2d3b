import Adwarden.Tls.Anchor

/-! The anchor of a document and more of it: what is found in a prefix is found at the same place
when more has arrived. -/
namespace Adwarden.Tls

section Search

variable {hay needle name : Bytes} {tag : Bool} {i : ℕ}

theorem eqIgnoreAsciiCase_length {a b : Bytes} (h : eqIgnoreAsciiCase a b = true) :
    a.length = b.length := by
  rw [eqIgnoreAsciiCase, beq_iff_eq] at h
  have hlen := congrArg List.length h
  rwa [List.length_map, List.length_map] at hlen

/-- The occurrence lies within the text. -/
theorem findCiFrom_le {prev : Option UInt8} (h : findCiFrom needle tag prev hay = some i) :
    i + needle.length ≤ hay.length := by
  induction hay generalizing prev i with
  | nil => cases h
  | cons b rest ih =>
    rw [findCiFrom] at h
    split_ifs at h with hm
    · obtain rfl := Option.some.inj h
      have hlen := eqIgnoreAsciiCase_length hm.1
      rw [List.length_take] at hlen
      omega
    · obtain ⟨j, hj, rfl⟩ := Option.map_eq_some_iff.mp h
      have hle := ih hj
      rw [List.length_cons]
      omega

theorem findCiFrom_append {prev : Option UInt8} (x : Bytes)
    (h : findCiFrom needle tag prev hay = some i) :
    findCiFrom needle tag prev (hay ++ x) = some i := by
  induction hay generalizing prev i with
  | nil => cases h
  | cons b rest ih =>
    have hle := findCiFrom_le h
    have htake : (b :: (rest ++ x)).take needle.length = (b :: rest).take needle.length := by
      rw [← List.cons_append, List.take_append_of_le_length (by omega)]
    rw [findCiFrom] at h
    rw [List.cons_append, findCiFrom, htake]
    split_ifs at h ⊢ with hm
    · exact h
    · obtain ⟨j, hj, rfl⟩ := Option.map_eq_some_iff.mp h
      rw [ih hj]
      rfl

theorem findCi_append (x : Bytes) (h : findCi hay needle tag = some i) :
    findCi (hay ++ x) needle tag = some i := by
  unfold findCi at h ⊢
  split_ifs at h ⊢
  · obtain ⟨j, hj, hi⟩ := Option.map_eq_some_iff.mp h
    rw [findCiFrom_append x hj, Option.map_some, hi]
  · obtain ⟨j, hj, hi⟩ := Option.map_eq_some_iff.mp h
    rw [findCiFrom_append x hj, Option.map_some, hi]

theorem findCi_tag_le (h : findCi hay name true = some i) : name ≠ [] ∧ i ≤ hay.length := by
  have hne : name ≠ [] := by
    rintro rfl
    cases h
  rw [findCi, if_neg hne] at h
  obtain ⟨j, hj, rfl⟩ := Option.map_eq_some_iff.mp h
  exact ⟨hne, findCiFrom_le hj⟩

theorem tagStartFrom_append {fuel start : ℕ} (x : Bytes) (extra : ℕ)
    (h : tagStartFrom hay name fuel start = some i) :
    tagStartFrom (hay ++ x) name (fuel + extra) start = some i := by
  induction fuel generalizing start with
  | zero => cases h
  | succ fuel ih =>
    rw [tagStartFrom] at h
    rw [Nat.succ_add, tagStartFrom]
    cases hf : findCi (hay.drop start) name true with
    | none =>
      rw [hf] at h
      cases h
    | some rel =>
      rw [hf] at h
      dsimp only at h
      have hstart : start ≤ hay.length := by
        by_contra hlt
        rw [List.drop_eq_nil_of_le (by omega)] at hf
        obtain ⟨hne, -⟩ := findCi_tag_le hf
        unfold findCi at hf
        rw [if_neg hne] at hf
        cases hf
      rw [List.drop_append_of_le_length hstart, findCi_append x hf]
      dsimp only
      cases hc : hay[start + rel]? with
      | none =>
        rw [hc] at h
        cases h
      | some c =>
        obtain ⟨hlt, -⟩ := List.getElem?_eq_some_iff.mp hc
        rw [List.getElem?_append_left hlt, hc]
        rw [hc] at h
        dsimp only at h ⊢
        split_ifs at h ⊢
        · exact h
        · exact ih h

theorem tagStart_append (x : Bytes) (h : tagStart hay name = some i) :
    tagStart (hay ++ x) name = some i := by
  unfold tagStart at h ⊢
  have happ := tagStartFrom_append x x.length h
  rw [List.length_append]
  rwa [Nat.add_right_comm] at happ

theorem tagClose_append {start : ℕ} (x : Bytes) (h : tagClose hay start = some i) :
    tagClose (hay ++ x) start = some i := by
  unfold tagClose at h ⊢
  obtain ⟨gt, hgt, rfl⟩ := Option.map_eq_some_iff.mp h
  have hstart : start ≤ hay.length := by
    have hlt := position_lt hgt
    rw [List.length_drop] at hlt
    omega
  rw [List.drop_append_of_le_length hstart, position_append x hgt]
  rfl

theorem tagOpenEnd_append (x : Bytes) (h : tagOpenEnd hay name = some i) :
    tagOpenEnd (hay ++ x) name = some i := by
  obtain ⟨start, hs, hc⟩ := Option.bind_eq_some_iff.mp h
  exact Option.bind_eq_some_iff.mpr ⟨start, tagStart_append x hs, tagClose_append x hc⟩

end Search

section Decision

variable {scan : Bytes}

/-- An anchor that can be committed to is not lost. -/
theorem anchorStreaming_append (x : Bytes) (h : anchorStreaming scan ≠ none) :
    anchorStreaming (scan ++ x) ≠ none := by
  have hsome : (∃ i, tagOpenEnd scan (ascii "head") = some i) ∨
      ∃ i, tagStart scan (ascii "body") = some i := by
    unfold anchorStreaming at h
    cases hh : tagOpenEnd scan (ascii "head") with
    | some i => exact Or.inl ⟨i, rfl⟩
    | none =>
      cases hb : tagStart scan (ascii "body") with
      | some i => exact Or.inr ⟨i, rfl⟩
      | none =>
        rw [hh, hb] at h
        exact absurd rfl h
  unfold anchorStreaming
  rcases hsome with ⟨i, hi⟩ | ⟨i, hi⟩
  · rw [tagOpenEnd_append x hi]
    cases tagStart (scan ++ x) (ascii "body") <;> exact Option.some_ne_none _
  · rw [tagStart_append x hi]
    cases tagOpenEnd (scan ++ x) (ascii "head") <;> exact Option.some_ne_none _

theorem bom16_append (x : Bytes) (h : bom16 scan = true) : bom16 (scan ++ x) = true := by
  simp only [bom16, Bool.or_eq_true, List.isPrefixOf_iff_prefix] at h ⊢
  exact h.imp (fun h => h.trans (List.prefix_append _ _)) fun h => h.trans (List.prefix_append _ _)

theorem contains_append (x : Bytes) {needle : Bytes} (h : contains scan needle = true) :
    contains (scan ++ x) needle = true := by
  obtain ⟨i, hi⟩ := Option.isSome_iff_exists.mp h
  exact Option.isSome_iff_exists.mpr ⟨i, findSubsequence_append x hi⟩

/-- A decision that is due stays due when more has arrived. -/
theorem decideAnchor_append {bodyDone bodyDone' : Bool} (x : Bytes)
    (hdone : bodyDone = true → bodyDone' = true) (h : decideAnchor scan bodyDone ≠ none) :
    decideAnchor (scan ++ x) bodyDone' ≠ none := by
  unfold decideAnchor at h ⊢
  by_cases hgive : bom16 (scan ++ x) = true ∨ contains (scan ++ x) marker = true
  · rw [if_pos hgive]
    exact Option.some_ne_none _
  · rw [if_neg hgive]
    have hnot : ¬ (bom16 scan = true ∨ contains scan marker = true) :=
      fun hg => hgive (hg.imp (bom16_append x) (contains_append x))
    rw [if_neg hnot] at h
    cases hs : anchorStreaming (scan ++ x) with
    | some a => exact Option.some_ne_none _
    | none =>
      have hnone : anchorStreaming scan = none := by
        by_contra hne
        exact anchorStreaming_append x hne hs
      rw [hnone] at h
      dsimp only at h ⊢
      have hlong : bodyDone' = true ∨ maxAnchorScan ≤ (scan ++ x).length := by
        by_contra hc
        refine h (if_neg fun hl => hc ?_)
        rw [List.length_append]
        exact hl.imp hdone fun hle => Nat.le_trans hle (Nat.le_add_right _ _)
      rw [if_pos hlong]
      exact Option.some_ne_none _

end Decision

end Adwarden.Tls
