import Adwarden.Tls.HeadAgree

/-! What the rewriter makes of a request head: the `Accept-Encoding` fields, with the lines folded
into them, give way to one field that asks for `identity`. -/
namespace Adwarden.Tls

/-- A line of a head and the lines folded into it. -/
structure FoldedLine where
  line : Bytes
  folds : List Bytes

def FoldedLine.lines (f : FoldedLine) : List Bytes := f.line :: f.folds

def FoldedLine.encodes (f : FoldedLine) : Bool := nameIs f.line "accept-encoding"

/-- A head as its lines. A line that begins with a blank is folded into the one before it. -/
structure FoldedHead where
  start : FoldedLine
  fields : List FoldedLine

namespace FoldedHead

def lines (h : FoldedHead) : List Bytes := h.start.lines ++ h.fields.flatMap FoldedLine.lines

def encode (h : FoldedHead) : Bytes := headBytes h.lines

structure WellCut (h : FoldedHead) : Prop where
  lines : ∀ l ∈ h.lines, NoCrlf l
  start : ∀ l ∈ h.start.folds, isContinuation l = true
  fields : ∀ f ∈ h.fields, isContinuation f.line = false ∧ ∀ l ∈ f.folds, isContinuation l = true

/-- The head without its `Accept-Encoding` fields, and with one behind the others. -/
def identity (h : FoldedHead) : FoldedHead where
  start := h.start
  fields := h.fields.filter (!·.encodes) ++ [⟨identityLine, []⟩]

end FoldedHead

/-- `text` is `head` with `identity` for the encodings that are accepted. -/
def AsksIdentity (head text : Bytes) : Prop :=
  ∃ h : FoldedHead, h.WellCut ∧ h.encode = head ∧ h.identity.encode = text

section Lines

/-- A line without CRLF is cut off in one way only. -/
theorem NoCrlf.unique {a b x y : Bytes} (ha : NoCrlf a) (hb : NoCrlf b)
    (h : a ++ (CRLF ++ x) = b ++ (CRLF ++ y)) : a = b ∧ x = y := by
  have hshort : ∀ {a c x y : Bytes}, NoCrlf (a ++ c) →
      CRLF ++ x = c ++ (CRLF ++ y) → c = [] := by
    intro a c x y hc heq
    match c, heq with
    | [], _ => rfl
    | [d], heq =>
      have hlf := (List.cons.inj (List.cons.inj heq).2).1
      exact absurd hlf LF_ne_CR
    | d :: e :: c, heq =>
      obtain ⟨hd, htail⟩ := List.cons.inj heq
      have he := (List.cons.inj htail).1
      have hchain := (List.isChain_append.mp hc).2.1
      rw [← hd, ← he] at hchain
      exact absurd ⟨rfl, rfl⟩ (List.isChain_cons_cons.mp hchain).1
  rcases List.append_eq_append_iff.mp h with ⟨c, rfl, hc⟩ | ⟨c, rfl, hc⟩
  · obtain rfl := hshort hb hc
    simpa using hc
  · obtain rfl := hshort ha hc
    simpa using hc.symm

/-- Lines without CRLF are read off a block in one way only. -/
theorem headText_unique {as bs : List Bytes} (ha : ∀ l ∈ as, NoCrlf l) (hb : ∀ l ∈ bs, NoCrlf l)
    (hane : as ≠ []) (hbne : bs ≠ []) (h : headText as = headText bs) : as = bs := by
  have hsingle : ∀ {a l : Bytes} {ls : List Bytes}, NoCrlf a → a ≠ l ++ CRLF ++ headText ls := by
    rintro a l ls hno rfl
    have hcrlf := hno.of_append.1.of_append.2
    exact absurd ⟨rfl, rfl⟩ (List.isChain_cons_cons.mp hcrlf).1
  induction as generalizing bs with
  | nil => exact absurd rfl hane
  | cons a as ih =>
    obtain ⟨b, bs, rfl⟩ := List.exists_cons_of_ne_nil hbne
    have ha' := ha a (List.mem_cons_self ..)
    have hb' := hb b (List.mem_cons_self ..)
    match as, bs with
    | [], [] => exact congrArg (· :: []) h
    | [], b' :: bs => exact absurd h (hsingle ha')
    | a' :: as, [] => exact absurd h.symm (hsingle hb')
    | a' :: as, b' :: bs =>
      have hcut : a ++ (CRLF ++ headText (a' :: as)) = b ++ (CRLF ++ headText (b' :: bs)) := by
        rw [← List.append_assoc, ← List.append_assoc]
        exact h
      obtain ⟨rfl, hrest⟩ := ha'.unique hb' hcut
      have htail := ih (fun l hl => ha l (List.mem_cons_of_mem _ hl))
        (fun l hl => hb l (List.mem_cons_of_mem _ hl)) (by simp) (by simp) hrest
      rw [htail]

theorem FoldedHead.lines_ne_nil (h : FoldedHead) : h.lines ≠ [] := by
  simp [FoldedHead.lines, FoldedLine.lines]

/-- A head that is cut into its lines is the one whose CRLF lines they are. -/
theorem FoldedHead.crlfLines {h : FoldedHead} (hc : h.WellCut)
    (he : findHeaderEnd h.encode = some h.encode.length) (hne : fieldsOf h.encode ≠ []) :
    Tls.crlfLines (fieldsOf h.encode) = h.lines := by
  obtain ⟨first, lines, hlines, hno, htext⟩ := crlfLines_head he hne
  rw [encode, fieldsOf_headBytes h.lines_ne_nil] at htext
  rw [hlines]
  exact headText_unique hno hc.lines (by simp) h.lines_ne_nil htext

/-- Every list of lines is some folded lines and fields. -/
theorem exists_fields (ls : List Bytes) : ∃ (folds : List Bytes) (fields : List FoldedLine),
    ls = folds ++ fields.flatMap FoldedLine.lines ∧ (∀ l ∈ folds, isContinuation l = true) ∧
      ∀ f ∈ fields, isContinuation f.line = false ∧ ∀ l ∈ f.folds, isContinuation l = true := by
  induction ls with
  | nil => exact ⟨[], [], rfl, by simp, by simp⟩
  | cons l ls ih =>
    obtain ⟨folds, fields, rfl, hfolds, hfields⟩ := ih
    cases hl : isContinuation l with
    | true =>
      refine ⟨l :: folds, fields, rfl, ?_, hfields⟩
      intro m hm
      rcases List.mem_cons.mp hm with rfl | hm
      · exact hl
      · exact hfolds m hm
    | false =>
      refine ⟨[], ⟨l, folds⟩ :: fields, rfl, by simp, ?_⟩
      intro f hm
      rcases List.mem_cons.mp hm with rfl | hm
      · exact ⟨hl, hfolds⟩
      · exact hfields f hm

end Lines

section Edit

variable {m : ℕ}

/-- Folded lines share the fate of the line before them. -/
theorem editedLines_folds {fate : Bytes → Fate} {folds : List Bytes}
    (h : ∀ l ∈ folds, isContinuation l = true) (dropped : Bool) (rest : List Bytes) :
    editedLines m (fates fate dropped (folds ++ rest)) =
      (if dropped then [] else folds) ++ editedLines m (fates fate dropped rest) := by
  induction folds with
  | nil => cases dropped <;> rfl
  | cons l folds ih =>
    have htail := ih fun l hl => h l (List.mem_cons_of_mem _ hl)
    rw [List.cons_append, fates, if_pos (h l (List.mem_cons_self ..))]
    cases dropped with
    | true =>
      rw [if_pos rfl, editedLines_cons_dropped, htail]
      rfl
    | false =>
      rw [if_neg (by simp), editedLines_cons_kept, htail]
      rfl

/-- The fields that stay, with the lines folded into them. -/
theorem editedLines_fields {fields : List FoldedLine}
    (h : ∀ f ∈ fields, isContinuation f.line = false ∧ ∀ l ∈ f.folds, isContinuation l = true)
    (dropped : Bool) :
    editedLines m (fates requestFate dropped (fields.flatMap FoldedLine.lines)) =
      (fields.filter (!·.encodes)).flatMap FoldedLine.lines := by
  induction fields generalizing dropped with
  | nil => rfl
  | cons f fields ih =>
    obtain ⟨hline, hfolds⟩ := h f (List.mem_cons_self ..)
    have htail := fun d => ih (fun g hg => h g (List.mem_cons_of_mem _ hg)) d
    rw [List.flatMap_cons, FoldedLine.lines, List.cons_append, fates, if_neg (by simp [hline]),
      requestFate]
    cases henc : nameIs f.line "accept-encoding" with
    | true =>
      rw [if_pos rfl, editedLines_cons_dropped, editedLines_folds hfolds, htail]
      simp [FoldedLine.encodes, henc]
    | false =>
      rw [if_neg (by simp), editedLines_cons_kept, editedLines_folds hfolds, htail]
      simp [FoldedLine.encodes, henc, FoldedLine.lines]

/-- The editor asks for `identity`. -/
theorem FoldedHead.WellCut.edit {h : FoldedHead} (hc : h.WellCut)
    (he : findHeaderEnd h.encode = some h.encode.length) (hne : fieldsOf h.encode ≠ []) :
    editRequestHead h.encode = h.identity.encode := by
  have hlines := FoldedHead.crlfLines hc he hne
  rw [FoldedHead.lines, FoldedLine.lines, List.cons_append] at hlines
  have hedit := @editRequestHead_lines 0 _ _ _ hlines
  rw [hedit, editedLines_folds hc.start, editedLines_fields hc.fields]
  simp [FoldedHead.encode, FoldedHead.lines, FoldedHead.identity, FoldedLine.lines]

/-- What the editor makes of a head is the head that asks for `identity`, and nothing else is. -/
theorem asksIdentity_iff {head text : Bytes} (he : findHeaderEnd head = some head.length)
    (hne : fieldsOf head ≠ []) : AsksIdentity head text ↔ text = editRequestHead head := by
  constructor
  · rintro ⟨h, hc, rfl, rfl⟩
    exact (hc.edit he hne).symm
  · rintro rfl
    obtain ⟨first, lines, -, hno, htext⟩ := crlfLines_head he hne
    obtain ⟨folds, fields, rfl, hfolds, hfields⟩ := exists_fields lines
    have hhead : headBytes (first :: (folds ++ fields.flatMap FoldedLine.lines)) = head := by
      rw [headBytes_eq (by simp), htext]
      exact (fieldsOf_append he).2
    have hc : (⟨⟨first, folds⟩, fields⟩ : FoldedHead).WellCut := ⟨hno, hfolds, hfields⟩
    have hencode : (⟨⟨first, folds⟩, fields⟩ : FoldedHead).encode = head := hhead
    refine ⟨⟨⟨first, folds⟩, fields⟩, hc, hencode, ?_⟩
    rw [← hc.edit (by rw [hencode]; exact he) (by rw [hencode]; exact hne), hencode]

end Edit

end Adwarden.Tls
