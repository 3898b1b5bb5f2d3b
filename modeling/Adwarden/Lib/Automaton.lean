import Mathlib.Data.List.Basic
import Mathlib.Tactic.Common

/-! Runs of labelled transitions: invariants of the states they reach, and properties of every
step they take. -/
namespace Adwarden.Lib

universe u v

/-- A transition system with labels: `none` when a label is not enabled in a state. -/
structure Automaton (σ : Type u) (α : Type v) where
  init : σ
  step : σ → α → Option σ

namespace Automaton

variable {σ : Type u} {α : Type v} (A : Automaton σ α)

def runFrom : σ → List α → Option σ
  | s, [] => some s
  | s, a :: as => (A.step s a).bind fun s' => runFrom s' as

def run (as : List α) : Option σ := A.runFrom A.init as

def Reachable (s : σ) : Prop := ∃ as, A.run as = some s

@[simp] theorem runFrom_nil (s : σ) : A.runFrom s [] = some s := rfl

theorem runFrom_cons {s t : σ} {a : α} {as : List α} :
    A.runFrom s (a :: as) = some t ↔ ∃ s', A.step s a = some s' ∧ A.runFrom s' as = some t :=
  Option.bind_eq_some_iff

theorem runFrom_append {s t : σ} {as bs : List α} :
    A.runFrom s (as ++ bs) = some t ↔
      ∃ s', A.runFrom s as = some s' ∧ A.runFrom s' bs = some t := by
  induction as generalizing s with
  | nil => simp
  | cons a as ih =>
    rw [List.cons_append, runFrom_cons]
    constructor
    · rintro ⟨r, hr, hrest⟩
      obtain ⟨s', hs, ht⟩ := ih.mp hrest
      exact ⟨s', A.runFrom_cons.mpr ⟨r, hr, hs⟩, ht⟩
    · rintro ⟨s', hs, ht⟩
      obtain ⟨r, hr, hrest⟩ := A.runFrom_cons.mp hs
      exact ⟨r, hr, ih.mpr ⟨s', hrest, ht⟩⟩

/-- `P` is kept by every step. -/
def Keeps (P : σ → Prop) : Prop := ∀ s a s', P s → A.step s a = some s' → P s'

variable {A}

theorem Keeps.runFrom {P : σ → Prop} (hP : A.Keeps P) {s t : σ} {as : List α} (hs : P s)
    (h : A.runFrom s as = some t) : P t := by
  induction as generalizing s with
  | nil =>
    obtain rfl := Option.some.inj h
    exact hs
  | cons a as ih =>
    obtain ⟨s', hstep, hrest⟩ := A.runFrom_cons.mp h
    exact ih (hP s a s' hs hstep) hrest

theorem Keeps.reachable {P : σ → Prop} (hP : A.Keeps P) (hinit : P A.init) {s : σ}
    (h : A.Reachable s) : P s := by
  obtain ⟨as, has⟩ := h
  exact hP.runFrom hinit has

/-- A relation between states and what led to them, kept by every step. -/
theorem runFrom_history {R : σ → List α → Prop}
    (hR : ∀ s as a s', R s as → A.step s a = some s' → R s' (as ++ [a])) {s t : σ}
    {as bs : List α} (hs : R s as) (h : A.runFrom s bs = some t) : R t (as ++ bs) := by
  induction bs generalizing s as with
  | nil =>
    obtain rfl := Option.some.inj h
    rwa [List.append_nil]
  | cons b bs ih =>
    obtain ⟨s', hstep, hrest⟩ := A.runFrom_cons.mp h
    have ht := ih (hR s as b s' hs hstep) hrest
    rwa [List.append_assoc, List.singleton_append] at ht

/-- A run goes on with a step. -/
theorem run_concat {s s' : σ} {a : α} {as : List α} (h : A.run as = some s)
    (hs : A.step s a = some s') : A.run (as ++ [a]) = some s' :=
  A.runFrom_append.mpr ⟨s, h, A.runFrom_cons.mpr ⟨s', hs, rfl⟩⟩

theorem Reachable.step {s s' : σ} {a : α} (h : A.Reachable s) (hs : A.step s a = some s') :
    A.Reachable s' := by
  obtain ⟨as, has⟩ := h
  exact ⟨as ++ [a], run_concat has hs⟩

variable (A)

/-- `P` holds of each step taken: of the state it is taken in and its label. -/
def EachStep (P : σ → α → Prop) : σ → List α → Prop
  | _, [] => True
  | s, a :: as =>
    match A.step s a with
    | none => True
    | some s' => P s a ∧ EachStep P s' as

instance decidableEachStep (P : σ → α → Prop) [∀ s a, Decidable (P s a)] :
    (s : σ) → (as : List α) → Decidable (A.EachStep P s as)
  | _, [] => isTrue trivial
  | s, a :: as =>
    match h : A.step s a with
    | none => isTrue (by simp [EachStep, h])
    | some s' =>
      have := decidableEachStep P s' as
      decidable_of_iff (P s a ∧ A.EachStep P s' as) (by simp [EachStep, h])

variable {A}

/-- An invariant that steps with a property keep holds after a run of such steps. -/
theorem EachStep.runFrom {I : σ → Prop} {P : σ → α → Prop}
    (hI : ∀ s a s', I s → P s a → A.step s a = some s' → I s') {s t : σ} {as : List α}
    (hP : A.EachStep P s as) (hs : I s) (h : A.runFrom s as = some t) : I t := by
  induction as generalizing s with
  | nil =>
    obtain rfl := Option.some.inj h
    exact hs
  | cons a as ih =>
    obtain ⟨s', hstep, hrest⟩ := A.runFrom_cons.mp h
    unfold EachStep at hP
    rw [hstep] at hP
    exact ih hP.2 (hI s a s' hs hP.1 hstep) hrest

/-- Properties that agree wherever an invariant holds are satisfied by the same runs, when steps
with the first of them keep the invariant. -/
theorem eachStep_congr_of {I : σ → Prop} {P Q : σ → α → Prop}
    (hI : ∀ s a s', I s → P s a → A.step s a = some s' → I s')
    (hPQ : ∀ s a s', I s → A.step s a = some s' → (P s a ↔ Q s a)) {s : σ} (hs : I s)
    (as : List α) : A.EachStep P s as ↔ A.EachStep Q s as := by
  induction as generalizing s with
  | nil => exact Iff.rfl
  | cons a as ih =>
    unfold EachStep
    cases hstep : A.step s a with
    | none => exact Iff.rfl
    | some s' =>
      have hhere := hPQ s a s' hs hstep
      constructor
      · rintro ⟨hp, hrest⟩
        exact ⟨hhere.mp hp, (ih (hI s a s' hs hp hstep)).mp hrest⟩
      · rintro ⟨hq, hrest⟩
        have hp := hhere.mpr hq
        exact ⟨hp, (ih (hI s a s' hs hp hstep)).mpr hrest⟩

/-- Properties that agree wherever an invariant holds are satisfied by the same runs. -/
theorem eachStep_congr {I : σ → Prop} (hI : A.Keeps I) {P Q : σ → α → Prop}
    (hPQ : ∀ s a, I s → (P s a ↔ Q s a)) {s : σ} (hs : I s) (as : List α) :
    A.EachStep P s as ↔ A.EachStep Q s as :=
  eachStep_congr_of (fun s a s' h _ hstep => hI s a s' h hstep) (fun s a _ h _ => hPQ s a h) hs as

section Projection

universe w

variable {τ : Type w} {A : Automaton σ α} {B : Automaton τ α}

/-- What has been added to the states does not change the runs. -/
theorem runFrom_map (f : τ → σ) (hstep : ∀ t a, A.step (f t) a = (B.step t a).map f) (t : τ)
    (as : List α) : A.runFrom (f t) as = (B.runFrom t as).map f := by
  induction as generalizing t with
  | nil => rfl
  | cons a as ih =>
    simp only [runFrom]
    rw [hstep]
    cases B.step t a with
    | none => rfl
    | some t' => exact ih t'

/-- A system that keeps more in its states, and otherwise takes the same steps: a property of what
they have in common holds of each step of either. -/
theorem eachStep_map (f : τ → σ) (hstep : ∀ t a, A.step (f t) a = (B.step t a).map f)
    (P : σ → α → Prop) (t : τ) (as : List α) :
    A.EachStep P (f t) as ↔ B.EachStep (fun t => P (f t)) t as := by
  induction as generalizing t with
  | nil => exact Iff.rfl
  | cons a as ih =>
    unfold EachStep
    rw [hstep]
    cases B.step t a with
    | none => exact Iff.rfl
    | some t' => exact and_congr_right fun _ => ih t'

end Projection

section Simulation

universe w x

variable {τ : Type w} {β : Type x} {A : Automaton σ α} {B : Automaton τ β} {R : σ → τ → Prop}

/-- When each step is a run of another system between related states, so is each run. -/
theorem runFrom_simulates
    (hstep : ∀ s t a s', R s t → A.step s a = some s' → ∃ bs t', B.runFrom t bs = some t' ∧ R s' t')
    {s s' : σ} {t : τ} {as : List α} (h : R s t) (hrun : A.runFrom s as = some s') :
    ∃ bs t', B.runFrom t bs = some t' ∧ R s' t' := by
  induction as generalizing s t with
  | nil =>
    obtain rfl := Option.some.inj hrun
    exact ⟨[], t, rfl, h⟩
  | cons a as ih =>
    obtain ⟨s₁, hfirst, hrest⟩ := A.runFrom_cons.mp hrun
    obtain ⟨bs, t₁, hbs, h₁⟩ := hstep s t a s₁ h hfirst
    obtain ⟨cs, t', hcs, h'⟩ := ih h₁ hrest
    exact ⟨bs ++ cs, t', B.runFrom_append.mpr ⟨t₁, hbs, hcs⟩, h'⟩

end Simulation

end Automaton

section Outputs

universe w x

variable {σ : Type u} {τ : Type v} {ι : Type w} {ω : Type x} {f : σ → ι → ω × σ}
  {g : τ → ι → ω × τ}

/-- What a sequence of calls returns, and the state after it. -/
def outputs (f : σ → ι → ω × σ) : σ → List ι → List ω × σ
  | s, [] => ([], s)
  | s, i :: is => ((f s i).1 :: (outputs f (f s i).2 is).1, (outputs f (f s i).2 is).2)

/-- Calls that return the same in related states, and keep them related, return the same in every
sequence. -/
theorem outputs_eq {R : σ → τ → Prop}
    (h : ∀ s t i, R s t → (f s i).1 = (g t i).1 ∧ R (f s i).2 (g t i).2) {s : σ} {t : τ}
    (hst : R s t) (is : List ι) :
    (outputs f s is).1 = (outputs g t is).1 ∧ R (outputs f s is).2 (outputs g t is).2 := by
  induction is generalizing s t with
  | nil => exact ⟨rfl, hst⟩
  | cons i is ih =>
    obtain ⟨hout, hnext⟩ := h s t i hst
    obtain ⟨houts, hend⟩ := ih hnext
    exact ⟨by rw [outputs, outputs, hout, houts], hend⟩

end Outputs

end Adwarden.Lib
