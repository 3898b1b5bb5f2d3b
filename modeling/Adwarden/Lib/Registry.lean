import Mathlib.Data.List.AList

/-! A table from handles to the names of their owners, which is kept beside the owners. It is
exact when it registers each handle an owner has, and no other one. -/
namespace Adwarden.Lib

universe u v

variable {κ : Type u} {ρ : Type v} [DecidableEq κ]

section Entries

variable {table : AList fun _ : κ => ρ} {k k' : κ} {b b' : ρ}

/-- Writing to an entry that is there leaves the keys as they are. -/
theorem mem_insert_of_lookup (h : table.lookup k = some b) :
    k' ∈ table.insert k b' ↔ k' ∈ table := by
  rw [AList.mem_insert]
  constructor
  · rintro (rfl | hmem)
    · exact AList.lookup_isSome.mp (by rw [h]; rfl)
    · exact hmem
  · exact Or.inr

theorem of_lookup_insert (h : (table.insert k b).lookup k' = some b') :
    (k' = k ∧ b' = b) ∨ table.lookup k' = some b' := by
  by_cases hk : k' = k
  · subst hk
    rw [AList.lookup_insert] at h
    exact Or.inl ⟨rfl, (Option.some.inj h).symm⟩
  · rw [AList.lookup_insert_ne hk] at h
    exact Or.inr h

theorem of_lookup_erase (h : (table.erase k).lookup k' = some b') :
    table.lookup k' = some b' := by
  by_cases hk : k' = k
  · subst hk
    rw [AList.lookup_erase] at h
    cases h
  · rwa [AList.lookup_erase_ne hk] at h

theorem erase_insert (table : AList fun _ : κ => ρ) (k : κ) (b : ρ) :
    (table.insert k b).erase k = table.erase k := by
  refine AList.ext ?_
  change List.kerase k (⟨k, b⟩ :: List.kerase k table.entries) = List.kerase k table.entries
  exact List.kerase_cons_eq rfl

end Entries

/-- The table names the owner of each handle that is owned. -/
def Registers (table : AList fun _ : κ => ρ) (owns : κ → ρ → Prop) : Prop :=
  ∀ k r, table.lookup k = some r ↔ owns k r

namespace Registers

variable {table : AList fun _ : κ => ρ} {owns owns' : κ → ρ → Prop}

theorem empty (h : ∀ k r, ¬ owns k r) : Registers (∅ : AList fun _ : κ => ρ) owns := by
  intro k r
  constructor
  · intro hk
    rw [AList.lookup_empty] at hk
    cases hk
  · intro hk
    exact absurd hk (h k r)

theorem congr (h : Registers table owns) (hiff : ∀ k r, owns' k r ↔ owns k r) :
    Registers table owns' :=
  fun k r => (h k r).trans (hiff k r).symm

/-- A handle has one owner. -/
theorem unique (h : Registers table owns) {k : κ} {r r' : ρ} (hr : owns k r) (hr' : owns k r') :
    r = r' :=
  Option.some.inj (((h k r).mpr hr).symm.trans ((h k r').mpr hr'))

theorem mem (h : Registers table owns) {k : κ} {r : ρ} (hr : owns k r) : k ∈ table :=
  AList.lookup_isSome.mp (by rw [(h k r).mpr hr]; rfl)

/-- A new owner with a handle that is not in use. -/
theorem insert (h : Registers table owns) {k : κ} {r : ρ} (hk : k ∉ table)
    (howns : ∀ k' r', owns' k' r' ↔ owns k' r' ∨ (k' = k ∧ r' = r)) :
    Registers (table.insert k r) owns' := by
  intro k' r'
  rw [howns]
  by_cases hkk : k' = k
  · subst hkk
    rw [AList.lookup_insert]
    constructor
    · intro hr
      exact Or.inr ⟨rfl, (Option.some.inj hr).symm⟩
    · rintro (hown | ⟨-, rfl⟩)
      · exact absurd (h.mem hown) hk
      · rfl
  · rw [AList.lookup_insert_ne hkk, h k' r']
    constructor
    · exact Or.inl
    · rintro (hown | ⟨heq, -⟩)
      · exact hown
      · exact absurd heq hkk

/-- An owner gives one of its handles back. -/
theorem erase (h : Registers table owns) {k : κ} {r : ρ} (hown : owns k r)
    (howns : ∀ k' r', owns' k' r' ↔ owns k' r' ∧ ¬ (k' = k ∧ r' = r)) :
    Registers (table.erase k) owns' := by
  intro k' r'
  rw [howns]
  by_cases hkk : k' = k
  · subst hkk
    rw [AList.lookup_erase]
    constructor
    · intro hr
      cases hr
    · rintro ⟨hown', hne⟩
      exact absurd ⟨rfl, h.unique hown' hown⟩ hne
  · rw [AList.lookup_erase_ne hkk, h k' r']
    constructor
    · intro hown'
      exact ⟨hown', fun heq => hkk heq.1⟩
    · intro hown'
      exact hown'.1

end Registers

end Adwarden.Lib
