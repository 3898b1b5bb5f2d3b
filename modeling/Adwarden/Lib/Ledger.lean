import Adwarden.Lib.Automaton
import Mathlib.Algebra.Group.Basic

/-! Sums and sequences over the steps of a run, and the values of states that they account for. -/
namespace Adwarden.Lib.Automaton

universe u v w

section Sequences

variable {σ : Type u} {α : Type v} {β : Type w} (A : Automaton σ α)

/-- What the steps of a run emit, in their order. -/
def emitted (f : σ → α → List β) : σ → List α → List β
  | _, [] => []
  | s, a :: as =>
    match A.step s a with
    | none => []
    | some s' => f s a ++ emitted f s' as

variable {A}

/-- A sequence that each step extends by what it emits. -/
theorem emitted_eq {f : σ → α → List β} (value : σ → List β)
    (hvalue : ∀ s a s', A.step s a = some s' → value s' = value s ++ f s a) {s t : σ}
    {as : List α} (h : A.runFrom s as = some t) : value t = value s ++ A.emitted f s as := by
  induction as generalizing s with
  | nil =>
    obtain rfl := Option.some.inj h
    exact (List.append_nil _).symm
  | cons a as ih =>
    obtain ⟨s', hstep, hrest⟩ := A.runFrom_cons.mp h
    rw [ih hrest, hvalue s a s' hstep, emitted, hstep]
    exact List.append_assoc ..

end Sequences

section Sums

variable {σ : Type u} {α : Type v} {M : Type w} [AddCommMonoid M] (A : Automaton σ α)

/-- What the steps of a run amount to together. -/
def total (f : σ → α → M) : σ → List α → M
  | _, [] => 0
  | s, a :: as =>
    match A.step s a with
    | none => 0
    | some s' => f s a + total f s' as

variable {A}

/-- A value that each step changes by its amount changes over a run by their sum, among states of
an invariant that these steps keep. -/
theorem total_eq {I : σ → Prop} {P : σ → α → Prop} {f : σ → α → M} (value : σ → M)
    (hI : ∀ s a s', I s → P s a → A.step s a = some s' → I s')
    (hvalue : ∀ s a s', I s → P s a → A.step s a = some s' → value s' = value s + f s a)
    {s t : σ} {as : List α} (hP : A.EachStep P s as) (hs : I s) (h : A.runFrom s as = some t) :
    value t = value s + A.total f s as := by
  induction as generalizing s with
  | nil =>
    obtain rfl := Option.some.inj h
    exact (add_zero _).symm
  | cons a as ih =>
    obtain ⟨s', hstep, hrest⟩ := A.runFrom_cons.mp h
    unfold EachStep at hP
    rw [hstep] at hP
    rw [ih hP.2 (hI s a s' hs hP.1 hstep) hrest, hvalue s a s' hs hP.1 hstep, total, hstep]
    exact add_assoc ..

end Sums

end Adwarden.Lib.Automaton
