import Mathlib.Data.Nat.Notation
import Mathlib.Tactic.Common

/-! Loops whose body breaks, fails, or emits something and goes on. -/
namespace Adwarden.Lib

universe u v w

theorem exists_of_map_ok {ε : Type u} {α : Type v} {β : Type w} {f : α → β} {x : Except ε α} {b : β}
    (h : x.map f = .ok b) : ∃ a, x = .ok a ∧ f a = b := by
  cases x with
  | error e => cases h
  | ok a => exact ⟨a, rfl, Except.ok.inj h⟩

/-- One iteration: `none` when the body breaks. The measure bounds the number of iterations. -/
structure Drain (σ : Type u) (ε : Type v) (ω : Type w) where
  step : σ → Option (Except ε (List ω × σ))
  measure : σ → ℕ
  decreases : ∀ {s o s'}, step s = some (.ok (o, s')) → measure s' < measure s

namespace Drain

variable {σ : Type u} {ε : Type v} {ω : Type w}

def runFuel (D : Drain σ ε ω) : ℕ → σ → Except ε (List ω × σ)
  | 0, s => .ok ([], s)
  | n + 1, s =>
    match D.step s with
    | none => .ok ([], s)
    | some (.error e) => .error e
    | some (.ok (o, s')) => (D.runFuel n s').map fun r => (o ++ r.1, r.2)

/-- The whole loop: everything emitted until the body breaks, and the state it breaks in, unless
an iteration fails. -/
def run (D : Drain σ ε ω) (s : σ) : Except ε (List ω × σ) := D.runFuel (D.measure s + 1) s

variable {D : Drain σ ε ω}

theorem run_none {s : σ} (h : D.step s = none) : D.run s = .ok ([], s) := by
  rw [run, runFuel, h]

private theorem runFuel_invariant {P : List ω → σ → Prop} {n : ℕ} {s s' : σ} {o o' : List ω}
    (hn : D.measure s < n) (h : P o s)
    (hstep : ∀ o s o' s', P o s → D.step s = some (.ok (o', s')) → P (o ++ o') s')
    (hrun : D.runFuel n s = .ok (o', s')) : P (o ++ o') s' ∧ D.step s' = none := by
  induction n generalizing s o o' with
  | zero => omega
  | succ n ih =>
    unfold runFuel at hrun
    cases hs : D.step s with
    | none =>
      rw [hs] at hrun
      obtain ⟨rfl, rfl⟩ : [] = o' ∧ s = s' := by simpa using hrun
      exact ⟨by rwa [List.append_nil], hs⟩
    | some r =>
      rw [hs] at hrun
      cases r with
      | error e => cases hrun
      | ok r =>
        obtain ⟨o₁, s₁⟩ := r
        have hd := D.decreases hs
        cases hrec : D.runFuel n s₁ with
        | error e => simp [hrec, Except.map] at hrun
        | ok r =>
          obtain ⟨o₂, s₂⟩ := r
          obtain ⟨rfl, rfl⟩ : o₁ ++ o₂ = o' ∧ s₂ = s' := by simpa [hrec, Except.map] using hrun
          have := ih (by omega) (hstep o s o₁ s₁ h hs) hrec
          rwa [List.append_assoc] at this

/-- An invariant of emitted output and state that every iteration keeps holds where the loop
breaks. -/
theorem run_invariant {P : List ω → σ → Prop} {s s' : σ} {o o' : List ω} (h : P o s)
    (hstep : ∀ o s o' s', P o s → D.step s = some (.ok (o', s')) → P (o ++ o') s')
    (hrun : D.run s = .ok (o', s')) : P (o ++ o') s' ∧ D.step s' = none :=
  runFuel_invariant (Nat.lt_succ_self _) h hstep hrun

end Drain

end Adwarden.Lib
