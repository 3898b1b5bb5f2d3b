import Mathlib.Data.Nat.Notation
import Mathlib.Tactic.Common

/-! Loops whose body either goes on with another iteration or leaves. -/
namespace Adwarden.Lib

universe u

/-- How an iteration ends. -/
inductive Turn (σ : Type u) where
  | goOn (s : σ)
  | leave (s : σ)

/-- A loop body. The measure bounds the number of iterations. -/
structure Loop (σ : Type u) where
  body : σ → Turn σ
  measure : σ → ℕ
  decreases : ∀ {s s'}, body s = .goOn s' → measure s' < measure s

namespace Loop

variable {σ : Type u}

def runFuel (L : Loop σ) : ℕ → σ → σ
  | 0, s => s
  | n + 1, s =>
    match L.body s with
    | .goOn s' => L.runFuel n s'
    | .leave s' => s'

/-- The state the loop is left in. -/
def run (L : Loop σ) (s : σ) : σ := L.runFuel (L.measure s + 1) s

variable (L : Loop σ)

theorem runFuel_eq_run {n : ℕ} {s : σ} (hn : L.measure s < n) : L.runFuel n s = L.run s := by
  suffices ∀ n m s, L.measure s < n → L.measure s < m → L.runFuel n s = L.runFuel m s from
    this n _ s hn (Nat.lt_succ_self _)
  intro n
  induction n with
  | zero =>
    intro m s hn _
    omega
  | succ n ih =>
    intro m s hn hm
    obtain ⟨m, rfl⟩ : ∃ k, m = k + 1 := ⟨m - 1, by omega⟩
    cases hs : L.body s with
    | leave s' => simp only [runFuel, hs]
    | goOn s' =>
      have hd := L.decreases hs
      simpa only [runFuel, hs] using ih m s' (by omega) (by omega)

theorem run_leave {s s' : σ} (h : L.body s = .leave s') : L.run s = s' := by
  simp only [run, runFuel, h]

theorem run_goOn {s s' : σ} (h : L.body s = .goOn s') : L.run s = L.run s' := by
  have hr : L.run s = L.runFuel (L.measure s) s' := by simp only [run, runFuel, h]
  rw [hr, L.runFuel_eq_run (L.decreases h)]

/-- Induction over the iterations of a run. -/
theorem run_induction {P : σ → σ → Prop} (s : σ)
    (hleave : ∀ s s', L.body s = .leave s' → P s s')
    (hgoOn : ∀ s s', L.body s = .goOn s' → P s' (L.run s') → P s (L.run s')) :
    P s (L.run s) := by
  induction hm : L.measure s using Nat.strongRecOn generalizing s with
  | ind n ih =>
    cases hs : L.body s with
    | leave s' => rw [L.run_leave hs]; exact hleave s s' hs
    | goOn s' =>
      rw [L.run_goOn hs]
      exact hgoOn s s' hs (ih _ (hm ▸ L.decreases hs) s' rfl)

/-- What every iteration keeps, the loop keeps. -/
theorem run_keeps {P : σ → Prop} {s : σ}
    (h : ∀ s s', P s → L.body s = .goOn s' ∨ L.body s = .leave s' → P s') (hs : P s) :
    P (L.run s) := by
  refine L.run_induction (P := fun s s' => P s → P s') s ?_ ?_ hs
  · intro s s' hbody hs
    exact h s s' hs (.inr hbody)
  · intro s s' hbody ih hs
    exact ih (h s s' hs (.inl hbody))

end Loop

end Adwarden.Lib
