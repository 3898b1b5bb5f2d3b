import Mathlib.Data.List.Basic
import Mathlib.Tactic.Common

/-! Passes that go over the keys of a table and treat each entry by itself. -/
namespace Adwarden.Lib

universe u v w

variable {σ : Type u} {κ : Type v} {β : Type w} [DecidableEq κ]

/-- While `I` holds, a turn updates the entry of its key and leaves the others. -/
structure Sweeps (I : σ → Prop) (look : σ → κ → β) (turn : σ → κ → σ) (upd : β → β) : Prop where
  keeps : ∀ s k, I s → I (turn s k)
  look_turn : ∀ s k k', I s → look (turn s k) k' = if k' = k then upd (look s k) else look s k'

namespace Sweeps

variable {I : σ → Prop} {look : σ → κ → β} {turn : σ → κ → σ} {upd : β → β}

/-- A pass updates the entry of each of its keys once. -/
theorem look_foldl (h : Sweeps I look turn upd) {l : List κ} (hl : l.Nodup) {s : σ} (hs : I s)
    (k : κ) : look (l.foldl turn s) k = if k ∈ l then upd (look s k) else look s k := by
  induction l generalizing s with
  | nil => rfl
  | cons k' l ih =>
    obtain ⟨hnot, hl⟩ := List.nodup_cons.mp hl
    rw [List.foldl_cons, ih hl (h.keeps s k' hs), h.look_turn s k' k hs]
    by_cases hk : k = k'
    · subst hk
      rw [if_neg hnot, if_pos rfl, if_pos List.mem_cons_self]
    · rw [if_neg hk]
      simp only [List.mem_cons, hk, false_or]

end Sweeps

end Adwarden.Lib
