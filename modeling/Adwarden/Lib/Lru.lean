import Mathlib.Data.List.Nodup
import Mathlib.Data.List.Perm.Basic

/-! Maps of bounded size that forget what was used least recently, as lists. -/
namespace Adwarden.Lib

universe u v

/-- The entries of a map, the one used most recently in front. -/
structure Lru (κ : Type u) (β : Type v) where
  entries : List (κ × β)
  nodup : (entries.map Prod.fst).Nodup

namespace Lru

variable {κ : Type u} {β : Type v} [DecidableEq κ]

def empty : Lru κ β := ⟨[], List.nodup_nil⟩

def lookup (l : Lru κ β) (k : κ) : Option β := (l.entries.find? fun p => p.1 = k).map Prod.snd

/-- A part of the entries, in their order. -/
def restrict (l : Lru κ β) (es : List (κ × β)) (h : es.Sublist l.entries) : Lru κ β :=
  ⟨es, l.nodup.sublist (h.map Prod.fst)⟩

def erase (l : Lru κ β) (k : κ) : Lru κ β :=
  l.restrict (l.entries.filter fun p => p.1 ≠ k) List.filter_sublist

def retain (l : Lru κ β) (keep : κ → β → Bool) : Lru κ β :=
  l.restrict (l.entries.filter fun p => keep p.1 p.2) List.filter_sublist

/-- Without the entry that was used least recently. -/
def forget (l : Lru κ β) : Lru κ β := l.restrict l.entries.dropLast (List.dropLast_sublist _)

/-- The key of that entry. -/
def last (l : Lru κ β) : Option κ := l.entries.getLast?.map Prod.fst

/-- An entry is written, and is the one used most recently. -/
def push (l : Lru κ β) (k : κ) (b : β) : Lru κ β where
  entries := (k, b) :: (l.erase k).entries
  nodup := by
    rw [List.map_cons]
    refine List.nodup_cons.mpr ⟨?_, (l.erase k).nodup⟩
    intro hmem
    obtain ⟨p, hp, hk⟩ := List.mem_map.mp hmem
    have hne := (List.mem_filter.mp hp).2
    exact of_decide_eq_true hne hk

def get (l : Lru κ β) (k : κ) : Option β × Lru κ β :=
  match l.lookup k with
  | none => (none, l)
  | some b => (some b, l.push k b)

/-- A new key that finds no room takes that of the entry used least recently. -/
def insert (capacity : ℕ) (l : Lru κ β) (k : κ) (b : β) : Lru κ β :=
  if (l.lookup k).isSome ∨ l.entries.length < capacity then l.push k b
  else l.forget.push k b

def remove (l : Lru κ β) (k : κ) : Option β × Lru κ β := (l.lookup k, l.erase k)

/-- The calls on such a map. -/
inductive Op (κ : Type u) (β : Type v) where
  | get (k : κ)
  | insert (k : κ) (b : β)
  | remove (k : κ)
  | retain (keep : κ → β → Bool)

def step (capacity : ℕ) (l : Lru κ β) : Op κ β → Option β × Lru κ β
  | .get k => l.get k
  | .insert k b => (none, insert capacity l k b)
  | .remove k => l.remove k
  | .retain keep => (none, l.retain keep)

variable {l : Lru κ β} {k k' : κ} {b : β}

omit [DecidableEq κ] in
theorem unique {p q : κ × β} (hp : p ∈ l.entries) (hq : q ∈ l.entries) (h : p.1 = q.1) : p = q :=
  List.inj_on_of_nodup_map l.nodup hp hq h

theorem lookup_eq_some : l.lookup k = some b ↔ (k, b) ∈ l.entries := by
  constructor
  · intro h
    obtain ⟨p, hp, rfl⟩ := Option.map_eq_some_iff.mp h
    have hk : p.1 = k := by simpa using List.find?_some hp
    rw [← hk]
    exact List.mem_of_find?_eq_some hp
  · intro h
    cases hf : l.entries.find? fun p => p.1 = k with
    | none =>
      have hne := List.find?_eq_none.mp hf (k, b) h
      simp at hne
    | some p =>
      have hk : p.1 = k := by simpa using List.find?_some hf
      obtain rfl := unique (List.mem_of_find?_eq_some hf) h hk
      rw [lookup, hf]
      rfl

@[simp] theorem lookup_empty : (empty : Lru κ β).lookup k = none := rfl

theorem lookup_erase : (l.erase k').lookup k = if k = k' then none else l.lookup k := by
  apply Option.ext
  intro b
  rw [lookup_eq_some, erase, restrict, List.mem_filter]
  split_ifs with hk
  · simp [hk]
  · rw [lookup_eq_some]
    simp [hk]

theorem lookup_push : (l.push k' b).lookup k = if k = k' then some b else l.lookup k := by
  apply Option.ext
  intro c
  rw [lookup_eq_some, push, List.mem_cons, ← lookup_eq_some, lookup_erase]
  split_ifs with hk
  · simp [hk, eq_comm]
  · simp [hk]

theorem lookup_retain (keep : κ → β → Bool) :
    (l.retain keep).lookup k = (l.lookup k).filter (keep k) := by
  apply Option.ext
  intro b
  rw [lookup_eq_some, retain, restrict, List.mem_filter, Option.filter_eq_some_iff,
    lookup_eq_some]

/-- Forgetting the last entry erases its key. -/
theorem forget_eq (h : l.last = some k) : l.forget = l.erase k := by
  obtain ⟨p, hp, rfl⟩ := Option.map_eq_some_iff.mp h
  obtain ⟨init, hinit⟩ := List.getLast?_eq_some_iff.mp hp
  have hkeys := l.nodup
  rw [hinit, List.map_append, List.map_singleton] at hkeys
  have hnot := List.nodup_append.mp hkeys
  have hkeep : init.filter (fun q => q.1 ≠ p.1) = init := by
    apply List.filter_eq_self.mpr
    intro q hq
    exact decide_eq_true (hnot.2.2 q.1 (List.mem_map_of_mem hq) p.1 (List.mem_singleton_self _))
  have hlists : l.entries.dropLast = l.entries.filter fun q => q.1 ≠ p.1 := by
    rw [hinit, List.dropLast_concat, List.filter_append, hkeep]
    simp
  unfold forget erase restrict
  congr 1

end Lru

end Adwarden.Lib
