import Mathlib.Data.List.Basic
import Mathlib.Tactic.Common

/-! Pipelined requests of which some are answered locally and the others by a remote party: when
merging the two streams of responses keeps the order of the requests. -/
namespace Adwarden.Lib

universe u

section Whole

variable {α : Type u}

/-- How many of these pieces lie whole within the first `n` elements of their concatenation. -/
def whole : ℕ → List (List α) → ℕ
  | _, [] => 0
  | n, w :: ws => if w.length ≤ n then whole (n - w.length) ws + 1 else 0

theorem whole_mono (ws : List (List α)) {m n : ℕ} (h : m ≤ n) : whole m ws ≤ whole n ws := by
  induction ws generalizing m n with
  | nil => simp [whole]
  | cons w ws ih =>
    simp only [whole]
    split_ifs
    · exact Nat.succ_le_succ (ih (by omega))
    · omega
    · omega
    · omega

theorem whole_zero {ws : List (List α)} (h : ∀ w ∈ ws, w ≠ []) : whole 0 ws = 0 := by
  cases ws with
  | nil => rfl
  | cons w ws =>
    have := List.length_pos_iff.mpr (h w (by simp))
    rw [whole, if_neg (by omega)]

/-- The pieces before a cut, when the next one does not end before it. -/
theorem whole_append {n : ℕ} {done rest : List (List α)} (hle : done.flatten.length ≤ n)
    (hlt : ∀ w t, rest = w :: t → n < done.flatten.length + w.length) :
    whole n (done ++ rest) = done.length := by
  induction done generalizing n with
  | nil =>
    cases rest with
    | nil => rfl
    | cons w t =>
      have := hlt w t rfl
      simp only [List.flatten_nil, List.length_nil] at this
      simp only [List.nil_append, whole]
      rw [if_neg (by omega)]
      rfl
  | cons d done ih =>
    simp only [List.flatten_cons, List.length_append] at hle hlt
    simp only [List.cons_append, whole, List.length_cons]
    rw [if_pos (by omega), ih (by omega)]
    intro w t hw
    have := hlt w t hw
    omega

theorem whole_flatten (ws : List (List α)) : whole ws.flatten.length ws = ws.length := by
  simpa using @whole_append _ ws.flatten.length ws [] (Nat.le_refl _)
    (by simp)

end Whole

/-- A request's place in the pipeline: its local answer, if it has one, and otherwise the remote
response. -/
structure Slot (α : Type u) where
  answer : Option (List α)
  response : List α
deriving DecidableEq

namespace Slot

variable {α : Type u}

def expected (s : Slot α) : List α := s.answer.getD s.response

/-- What the remote party sends for it. -/
def relayed (s : Slot α) : List α := if s.answer.isSome then [] else s.response

def localPart (s : Slot α) : List α := s.answer.getD []

/-- After the requests `done` have been handled and `v` has been relayed, the output `d` is the
responses in order, up to a point inside a tail of requests that all go to the remote party. -/
def Merged (done : List (Slot α)) (v d : List α) : Prop :=
  ∃ c₁ c₂ v₂, done = c₁ ++ c₂ ∧ (∀ s ∈ c₂, s.answer = none) ∧
    v = c₁.flatMap relayed ++ v₂ ∧ v₂ <+: c₂.flatMap relayed ∧ d = c₁.flatMap expected ++ v₂

theorem Merged.nil : Merged ([] : List (Slot α)) [] [] := ⟨[], [], [], by simp⟩

theorem flatMap_expected_of_remote {c : List (Slot α)} (h : ∀ s ∈ c, s.answer = none) :
    c.flatMap expected = c.flatMap relayed := by
  induction c with
  | nil => rfl
  | cons s c ih =>
    have hs : s.answer = none := h s (by simp)
    simp [expected, relayed, hs, ih fun t ht => h t (by simp [ht])]

theorem Merged.prefix {done : List (Slot α)} {v d : List α} (h : Merged done v d) :
    d <+: done.flatMap expected := by
  obtain ⟨c₁, c₂, v₂, rfl, hc, -, hv, rfl⟩ := h
  rw [List.flatMap_append, flatMap_expected_of_remote hc]
  exact (List.prefix_append_right_inj _).mpr hv

/-- Once everything has been relayed, the output is complete. -/
theorem Merged.complete {done : List (Slot α)} {v d : List α} (h : Merged done v d)
    (hv : (done.flatMap relayed).length ≤ v.length) : d = done.flatMap expected := by
  obtain ⟨c₁, c₂, v₂, rfl, hc, rfl, hv₂, rfl⟩ := h
  rw [List.flatMap_append, flatMap_expected_of_remote hc]
  rw [List.flatMap_append, List.length_append, List.length_append] at hv
  rw [hv₂.eq_of_length_le (by omega)]

theorem Merged.forward {done : List (Slot α)} {v d : List α} (h : Merged done v d) {s : Slot α}
    (hs : s.answer = none) : Merged (done ++ [s]) v d := by
  obtain ⟨c₁, c₂, v₂, rfl, hc, hv, hv₂, hd⟩ := h
  refine ⟨c₁, c₂ ++ [s], v₂, by simp, ?_, hv, ?_, hd⟩
  · intro t ht
    rcases List.mem_append.mp ht with ht | ht
    · exact hc t ht
    · rw [List.mem_singleton.mp ht, hs]
  · rw [List.flatMap_append]
    exact hv₂.trans (List.prefix_append _ _)

/-- A local answer is in turn when everything before it has been relayed. -/
theorem Merged.answer {done : List (Slot α)} {v d a : List α} (h : Merged done v d) {s : Slot α}
    (hs : s.answer = some a) (hv : (done.flatMap relayed).length ≤ v.length)
    (hle : v <+: done.flatMap relayed) : Merged (done ++ [s]) v (d ++ a) := by
  have hd := h.complete hv
  refine ⟨done ++ [s], [], [], by simp, by simp, ?_, by simp, ?_⟩
  · simp [relayed, hs, hle.eq_of_length_le hv]
  · simp [expected, hs, hd]

theorem Merged.relay {done : List (Slot α)} {v d u : List α} (h : Merged done v d)
    (hu : v ++ u <+: done.flatMap relayed) : Merged done (v ++ u) (d ++ u) := by
  obtain ⟨c₁, c₂, v₂, rfl, hc, rfl, hv₂, rfl⟩ := h
  refine ⟨c₁, c₂, v₂ ++ u, rfl, hc, by simp, ?_, by simp⟩
  rw [List.flatMap_append, List.append_assoc] at hu
  exact (List.prefix_append_right_inj _).mp hu

/-- Handling a batch of requests whose local answers are all in turn. -/
theorem Merged.batch {done batch : List (Slot α)} {v d : List α} (h : Merged done v d)
    (hle : v <+: done.flatMap relayed)
    (hturn : ∀ i s, batch[i]? = some s → s.answer.isSome →
      ((done ++ batch.take i).flatMap relayed).length ≤ v.length) :
    Merged (done ++ batch) v (d ++ batch.flatMap localPart) := by
  induction batch generalizing done d with
  | nil => simpa using h
  | cons s batch ih =>
    have hle' : v <+: (done ++ [s]).flatMap relayed := by
      rw [List.flatMap_append]
      exact hle.trans (List.prefix_append _ _)
    have hturn' : ∀ i t, batch[i]? = some t → t.answer.isSome →
        ((done ++ [s] ++ batch.take i).flatMap relayed).length ≤ v.length := by
      intro i t hi ht
      simpa using hturn (i + 1) t (by simpa using hi) ht
    have hstep : Merged (done ++ [s]) v (d ++ s.localPart) := by
      cases ha : s.answer with
      | none => simpa [localPart, ha] using h.forward ha
      | some a =>
        have hlen := hturn 0 s (by simp) (by simp [ha])
        simpa [localPart, ha] using h.answer ha (by simpa using hlen) hle
    simpa using ih hstep hle' hturn'

end Slot

end Adwarden.Lib
