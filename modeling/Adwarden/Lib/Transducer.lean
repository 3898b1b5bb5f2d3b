import Mathlib.Data.List.Basic
import Mathlib.Tactic.Common

/-! Loops over a buffered state, taken one iteration at a time, and the law that makes such a
loop independent of how its input was cut into pieces. -/
namespace Adwarden.Lib

universe u v w

/-- One iteration of a `loop` body: `none` when it breaks, otherwise what it emits and the next
state. The measure bounds the number of iterations. -/
structure Machine (σ : Type u) (ω : Type v) where
  step : σ → Option (List ω × σ)
  measure : σ → ℕ
  decreases : ∀ {s o s'}, step s = some (o, s') → measure s' < measure s

namespace Machine

variable {σ : Type u} {ω : Type v}

def runFuel (M : Machine σ ω) : ℕ → σ → List ω × σ
  | 0, s => ([], s)
  | n + 1, s =>
    match M.step s with
    | none => ([], s)
    | some (o, s') => (o ++ (M.runFuel n s').1, (M.runFuel n s').2)

/-- The whole loop: everything emitted until the body breaks, and the state it breaks in. -/
def run (M : Machine σ ω) (s : σ) : List ω × σ := M.runFuel (M.measure s) s

variable (M : Machine σ ω)

theorem runFuel_none {s : σ} (h : M.step s = none) (n : ℕ) : M.runFuel n s = ([], s) := by
  cases n <;> simp [runFuel, h]

theorem runFuel_eq_run {n : ℕ} {s : σ} (hn : M.measure s ≤ n) : M.runFuel n s = M.run s := by
  suffices ∀ n m s, M.measure s ≤ n → M.measure s ≤ m → M.runFuel n s = M.runFuel m s from
    this n _ s hn (Nat.le_refl _)
  intro n
  induction n with
  | zero =>
    intro m s hn _
    cases hs : M.step s with
    | none => rw [M.runFuel_none hs, M.runFuel_none hs]
    | some r =>
      have := M.decreases hs
      omega
  | succ n ih =>
    intro m s hn hm
    cases hs : M.step s with
    | none => rw [M.runFuel_none hs, M.runFuel_none hs]
    | some r =>
      obtain ⟨o, s'⟩ := r
      have hd := M.decreases hs
      cases m with
      | zero => omega
      | succ m =>
        have he : M.runFuel n s' = M.runFuel m s' := ih m s' (by omega) (by omega)
        simp only [runFuel, hs, he]

theorem run_none {s : σ} (h : M.step s = none) : M.run s = ([], s) := M.runFuel_none h _

theorem run_some {s s' : σ} {o : List ω} (h : M.step s = some (o, s')) :
    M.run s = (o ++ (M.run s').1, (M.run s').2) := by
  have hd := M.decreases h
  obtain ⟨n, hn⟩ : ∃ n, M.measure s = n + 1 := ⟨M.measure s - 1, by omega⟩
  have hr : M.runFuel n s' = M.run s' := M.runFuel_eq_run (by omega)
  rw [run, hn]
  simp only [runFuel, h, hr]

/-- Induction over the iterations of a run. -/
theorem run_induction {P : σ → List ω × σ → Prop} (s : σ)
    (hnone : ∀ s, M.step s = none → P s ([], s))
    (hsome : ∀ s o s', M.step s = some (o, s') → P s' (M.run s') →
      P s (o ++ (M.run s').1, (M.run s').2)) : P s (M.run s) := by
  induction hm : M.measure s using Nat.strongRecOn generalizing s with
  | ind n ih =>
    cases hs : M.step s with
    | none => rw [M.run_none hs]; exact hnone s hs
    | some r =>
      obtain ⟨o, s'⟩ := r
      rw [M.run_some hs]
      exact hsome s o s' hs (ih _ (hm ▸ M.decreases hs) s' rfl)

theorem run_halts (s : σ) : M.step (M.run s).2 = none :=
  M.run_induction (P := fun _ r => M.step r.2 = none) s (fun _ h => h) (fun _ _ _ _ h => h)

/-- A run that does anything at all decreases the measure. -/
theorem run_measure (s : σ) : (M.run s).2 = s ∨ M.measure (M.run s).2 < M.measure s := by
  refine M.run_induction (P := fun s r => r.2 = s ∨ M.measure r.2 < M.measure s) s ?_ ?_
  · intro s _
    exact Or.inl rfl
  · intro s o s' hs ih
    have hd := M.decreases hs
    rcases ih with ih | ih
    · exact Or.inr (by rw [ih]; exact hd)
    · exact Or.inr (Nat.lt_trans ih hd)

/-- An invariant of emitted output and state that every iteration keeps holds at the end. -/
theorem run_invariant {P : List ω → σ → Prop} {s : σ} {o : List ω} (h : P o s)
    (hstep : ∀ o s o' s', P o s → M.step s = some (o', s') → P (o ++ o') s') :
    P (o ++ (M.run s).1) (M.run s).2 := by
  refine M.run_induction (P := fun s r => ∀ o, P o s → P (o ++ r.1) r.2) s ?_ ?_ o h
  · intro s _ o ho
    simpa using ho
  · intro s o₁ s' hs ih o ho
    simpa using ih _ (hstep o s o₁ s' ho hs)

variable {ω' : Type w}

/-- The same loop with other output: what `f` sees in each iteration. -/
def observe (f : σ → σ → List ω') : Machine σ ω' where
  step s := (M.step s).map fun r => (f s r.2, r.2)
  measure := M.measure
  decreases := by
    intro s o s' h
    obtain ⟨⟨o, t⟩, ht, hr⟩ := Option.map_eq_some_iff.mp h
    obtain ⟨-, rfl⟩ := Prod.mk.inj hr
    exact M.decreases ht

theorem observe_step {f : σ → σ → List ω'} {s s' : σ} {o : List ω'} :
    (M.observe f).step s = some (o, s') ↔ o = f s s' ∧ ∃ o', M.step s = some (o', s') := by
  constructor
  · intro h
    obtain ⟨⟨o', t⟩, ht, hr⟩ := Option.map_eq_some_iff.mp h
    obtain ⟨rfl, rfl⟩ := Prod.mk.inj hr
    exact ⟨rfl, o', ht⟩
  · rintro ⟨rfl, o', h⟩
    exact Option.map_eq_some_iff.mpr ⟨_, h, rfl⟩

/-- Watching a loop does not change what it does. -/
theorem run_observe (f : σ → σ → List ω') (s : σ) : ((M.observe f).run s).2 = (M.run s).2 := by
  refine M.run_induction (P := fun s r => ((M.observe f).run s).2 = r.2) s ?_ ?_
  · intro s h
    rw [(M.observe f).run_none (by simp [observe, h])]
  · intro s o s' h ih
    rw [(M.observe f).run_some ((M.observe_step).mpr ⟨rfl, o, h⟩)]
    exact ih

end Machine

/-- A loop whose state holds a buffer that new input is appended to. -/
structure Feeder (σ : Type u) (ω : Type v) (α : Type w) extends Machine σ ω where
  ext : σ → List α → σ
  ext_nil : ∀ s, ext s [] = s
  ext_append : ∀ s a b, ext (ext s a) b = ext s (a ++ b)

namespace Feeder

variable {σ : Type u} {ω : Type v} {α : Type w} (F : Feeder σ ω α)

/-- Append one piece of input and run the loop. -/
def feed (s : σ) (d : List α) : List ω × σ := F.run (F.ext s d)

def feeds : σ → List (List α) → List ω × σ
  | s, [] => ([], s)
  | s, d :: ds =>
    ((F.feed s d).1 ++ (feeds (F.feed s d).2 ds).1, (feeds (F.feed s d).2 ds).2)

/-- An iteration taken early gives the same run as one taken after more input has arrived. -/
def Incremental : Prop :=
  ∀ s o s' b, F.step s = some (o, s') →
    F.run (F.ext s b) = (o ++ (F.run (F.ext s' b)).1, (F.run (F.ext s' b)).2)

/-- An iteration that more input leaves as it is satisfies the incremental law. -/
theorem run_ext_of_step {s s' : σ} {o : List ω} {b : List α}
    (h : F.step (F.ext s b) = some (o, F.ext s' b)) :
    F.run (F.ext s b) = (o ++ (F.run (F.ext s' b)).1, (F.run (F.ext s' b)).2) :=
  F.run_some h

variable {F}

theorem Incremental.run_ext (hF : F.Incremental) (s : σ) (b : List α) :
    F.run (F.ext s b) =
      ((F.run s).1 ++ (F.feed (F.run s).2 b).1, (F.feed (F.run s).2 b).2) := by
  refine F.run_induction
    (P := fun s r => F.run (F.ext s b) = (r.1 ++ (F.feed r.2 b).1, (F.feed r.2 b).2)) s ?_ ?_
  · intro s _
    simp [feed]
  · intro s o s' hs ih
    rw [hF s o s' b hs, ih]
    simp

/-- Input that follows a run can as well be there before it. -/
theorem Incremental.run_feeds (hF : F.Incremental) (s : σ) (ds : List (List α)) :
    F.run (F.ext s ds.flatten) =
      ((F.run s).1 ++ (F.feeds (F.run s).2 ds).1, (F.feeds (F.run s).2 ds).2) := by
  induction ds generalizing s with
  | nil => simp [feeds, F.ext_nil]
  | cons d ds ih =>
    have h := hF.run_ext s d
    rw [List.flatten_cons, ← F.ext_append, ih, h]
    simp [feeds]

/-- What a feeder does with its input does not depend on how the input was cut. -/
theorem Incremental.feeds_eq (hF : F.Incremental) {s : σ} (hs : F.step s = none)
    (ds : List (List α)) : F.feeds s ds = F.feed s ds.flatten := by
  rw [feed, hF.run_feeds, F.run_none hs]
  rfl

end Feeder

end Adwarden.Lib
