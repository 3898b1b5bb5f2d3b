import Mathlib.Data.List.Induction
import Mathlib.Tactic.Common

/-! Decisions taken on the part of a stream that has arrived, and which of them the stream comes to
when it is cut into pieces; and the length of a message, as a decision on the bytes of its front. -/
namespace Adwarden.Lib

universe u v

section Cuts

variable {α : Type u} {bound : ℕ} {a b d : List α} {ds es : List (List α)}

/-- The pieces are the stream, each of at most `bound` elements. -/
structure CutInto (bound : ℕ) (stream : List α) (ds : List (List α)) : Prop where
  whole : ds.flatten = stream
  pieces : ∀ d ∈ ds, d.length ≤ bound

theorem CutInto.nil : CutInto bound ([] : List α) [] := by
  constructor
  · rfl
  · intro d hd
    cases hd

theorem CutInto.snoc (h : CutInto bound a ds) (hd : d.length ≤ bound) :
    CutInto bound (a ++ d) (ds ++ [d]) := by
  constructor
  · rw [List.flatten_append, h.whole, List.flatten_singleton]
  · intro e he
    rcases List.mem_append.mp he with he | he
    · exact h.pieces e he
    · rwa [List.mem_singleton.mp he]

theorem CutInto.append (h : CutInto bound a ds) (h' : CutInto bound b es) :
    CutInto bound (a ++ b) (ds ++ es) := by
  constructor
  · rw [List.flatten_append, h.whole, h'.whole]
  · intro d hd
    rcases List.mem_append.mp hd with hd | hd
    · exact h.pieces d hd
    · exact h'.pieces d hd

/-- A stream can be cut element by element. -/
theorem exists_cutInto (hpos : 0 < bound) (a : List α) : ∃ ds, CutInto bound a ds := by
  induction a using List.reverseRecOn with
  | nil => exact ⟨[], .nil⟩
  | append_singleton a x ih =>
    obtain ⟨ds, hds⟩ := ih
    exact ⟨_, hds.snoc hpos⟩

end Cuts

section Decide

variable {α : Type u} {δ : Type v} (D : List α → Option δ)

/-- The first decision on what has arrived, one piece after the other. -/
def firstDecision : (arrived : List α) → List (List α) → Option δ
  | _, [] => none
  | w, d :: ds =>
    match D (w ++ d) with
    | some a => some a
    | none => firstDecision (w ++ d) ds

/-- Some cut arrives at `w` without a decision. -/
inductive Undecided (bound : ℕ) : (w : List α) → Prop
  | start (h : D [] = none) : Undecided bound []
  | piece {w d : List α} (hw : Undecided bound w) (hle : d.length ≤ bound)
      (h : D (w ++ d) = none) : Undecided bound (w ++ d)

/-- What may be decided on the stream when undecided prefixes are those in `waits`: something, where
a piece ends, or nothing, if all of it is undecided. -/
inductive Outcome (waits : List α → Prop) (bound : ℕ) (stream : List α) : Option δ → Prop
  | decided {w d : List α} {a : δ} (hw : waits w) (hle : d.length ≤ bound)
      (hpre : w ++ d <+: stream) (h : D (w ++ d) = some a) : Outcome waits bound stream (some a)
  | undecided (h : waits stream) : Outcome waits bound stream none

variable {D} {bound : ℕ} {stream w d : List α} {ds es : List (List α)} {o : Option δ}

theorem firstDecision_none (h : D (w ++ d) = none) :
    firstDecision D w (d :: ds) = firstDecision D (w ++ d) ds := by
  simp only [firstDecision, h]

theorem firstDecision_some {a : δ} (h : D (w ++ d) = some a) :
    firstDecision D w (d :: ds) = some a := by
  simp only [firstDecision, h]

theorem Undecided.undecided (h : Undecided D bound w) : D w = none := by
  cases h with
  | start h => exact h
  | piece hw hle h => exact h

/-- A walk over undecided prefixes, element by element. -/
theorem Undecided.walk (hpos : 0 < bound) (h : Undecided D bound w) (x : List α)
    (hx : ∀ y, y <+: x → D (w ++ y) = none) : Undecided D bound (w ++ x) := by
  induction x using List.reverseRecOn with
  | nil => rwa [List.append_nil]
  | append_singleton x a ih =>
    have hshort := ih fun y hy => hx y (hy.trans (List.prefix_append x [a]))
    rw [← List.append_assoc]
    refine .piece hshort (show [a].length ≤ bound from hpos) ?_
    rw [List.append_assoc]
    exact hx _ (List.prefix_refl _)

theorem Undecided.exists_cut (h : Undecided D bound w) :
    ∃ ds, CutInto bound w ds ∧ ∀ es, firstDecision D [] (ds ++ es) = firstDecision D w es := by
  induction h with
  | start h => exact ⟨[], .nil, fun es => rfl⟩
  | @piece w d hw hle h ih =>
    obtain ⟨ds, hds, hfirst⟩ := ih
    refine ⟨ds ++ [d], hds.snoc hle, ?_⟩
    intro es
    rw [List.append_assoc, hfirst, List.singleton_append, firstDecision_none h]

theorem firstDecision_outcome (hw : Undecided D bound w) (hwhole : w ++ ds.flatten = stream)
    (hds : ∀ d ∈ ds, d.length ≤ bound) :
    Outcome D (Undecided D bound) bound stream (firstDecision D w ds) := by
  induction ds generalizing w with
  | nil =>
    rw [List.flatten_nil, List.append_nil] at hwhole
    exact .undecided (hwhole ▸ hw)
  | cons d ds ih =>
    rw [List.flatten_cons, ← List.append_assoc] at hwhole
    have hle := hds d (List.mem_cons_self ..)
    cases hd : D (w ++ d) with
    | some a =>
      rw [firstDecision_some hd]
      exact .decided hw hle ⟨_, hwhole⟩ hd
    | none =>
      rw [firstDecision_none hd]
      exact ih (.piece hw hle hd) hwhole fun e he => hds e (List.mem_cons_of_mem _ he)

/-- The outcomes are what the cuts of the stream come to. -/
theorem outcome_iff (hpos : 0 < bound) (hnil : D [] = none) {waits : List α → Prop}
    (hwaits : ∀ w, w <+: stream → (waits w ↔ Undecided D bound w)) :
    Outcome D waits bound stream o ↔
      ∃ ds, CutInto bound stream ds ∧ firstDecision D [] ds = o := by
  constructor
  · intro h
    cases h with
    | undecided h =>
      obtain ⟨ds, hds, hfirst⟩ := ((hwaits _ (List.prefix_refl _)).mp h).exists_cut
      refine ⟨ds, hds, ?_⟩
      have hall := hfirst []
      rwa [List.append_nil] at hall
    | @decided w d a hw hle hpre h =>
      obtain ⟨ds, hds, hfirst⟩ :=
        ((hwaits w ((List.prefix_append w d).trans hpre)).mp hw).exists_cut
      obtain ⟨rest, rfl⟩ := hpre
      obtain ⟨es, hes⟩ := exists_cutInto hpos rest
      refine ⟨ds ++ [d] ++ es, (hds.snoc hle).append hes, ?_⟩
      rw [List.append_assoc, hfirst, List.singleton_append, firstDecision_some h]
  · rintro ⟨ds, hds, rfl⟩
    have hout := firstDecision_outcome (.start hnil) hds.whole hds.pieces
    generalize firstDecision D [] ds = o at hout
    cases hout with
    | undecided h => exact .undecided ((hwaits _ (List.prefix_refl _)).mpr h)
    | @decided w d a hw hle hpre h =>
      exact .decided ((hwaits w ((List.prefix_append w d).trans hpre)).mpr hw) hle hpre h

end Decide

section Measure

variable {α : Type u} {ε : Type v} {len : List α → Except ε (Option ℕ)} {msg : List α}

/-- The length of the message in front, `none` while it cannot be told: what is told stands when
more arrives, and the message is there by then. -/
structure Measures (len : List α → Except ε (Option ℕ)) : Prop where
  error : ∀ {b e}, len b = .error e → ∀ x, len (b ++ x) = .error e
  found : ∀ {b n}, len b = .ok (some n) → ∀ x, len (b ++ x) = .ok (some n)
  within : ∀ {b n}, len b = .ok (some n) → n ≤ b.length

/-- No part of a message that stops before its end is told a length. -/
theorem Measures.short (h : Measures len) (hm : len msg = .ok (some msg.length)) {q : List α}
    (hq : q <+: msg) (hne : q ≠ msg) : len q = .ok none := by
  obtain ⟨x, rfl⟩ := hq
  cases hlen : len q with
  | error e =>
    rw [h.error hlen] at hm
    cases hm
  | ok o =>
    cases o with
    | none => rfl
    | some n =>
      have hall := h.found hlen x
      rw [hm] at hall
      have hn : (q ++ x).length = n := Option.some.inj (Except.ok.inj hall)
      have hle := h.within hlen
      have hx : x = [] := by
        rw [List.length_append] at hn
        exact List.eq_nil_of_length_eq_zero (by omega)
      exact absurd (by rw [hx, List.append_nil]) hne

end Measure

end Adwarden.Lib
