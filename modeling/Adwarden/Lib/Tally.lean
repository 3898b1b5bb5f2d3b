import Mathlib.Algebra.Group.Defs
import Mathlib.Data.List.Nodup
import Mathlib.Tactic.Common

/-! Maps from keys to amounts, with amounts merged into them by addition. -/
namespace Adwarden.Lib

universe u v

/-- A map with one entry for a key. -/
structure Tally (K : Type u) (V : Type v) where
  entries : List (K × V)
  nodup : (entries.map Prod.fst).Nodup

namespace Tally

variable {K : Type u} {V : Type v} [DecidableEq K]

def mergeEntries [Add V] (k : K) (v : V) : List (K × V) → List (K × V)
  | [] => [(k, v)]
  | (k', v') :: es => if k' = k then (k', v' + v) :: es else (k', v') :: mergeEntries k v es

def getEntries [Zero V] (k : K) : List (K × V) → V
  | [] => 0
  | (k', v) :: es => if k' = k then v else getEntries k es

theorem keys_mergeEntries [Add V] (k : K) (v : V) (es : List (K × V)) :
    (mergeEntries k v es).map Prod.fst =
      if k ∈ es.map Prod.fst then es.map Prod.fst else es.map Prod.fst ++ [k] := by
  induction es with
  | nil => rfl
  | cons e es ih =>
    obtain ⟨k', v'⟩ := e
    rw [mergeEntries]
    split_ifs with h hk hk
    · rfl
    · simp [h] at hk
    · rw [List.map_cons, ih, if_pos (by simpa [Ne.symm h] using hk), List.map_cons]
    · rw [List.map_cons, ih, if_neg (fun hm => hk (List.mem_cons_of_mem _ hm)), List.map_cons,
        List.cons_append]

theorem nodup_mergeEntries [Add V] (k : K) (v : V) {es : List (K × V)}
    (h : (es.map Prod.fst).Nodup) : ((mergeEntries k v es).map Prod.fst).Nodup := by
  rw [keys_mergeEntries]
  split_ifs with hk
  · exact h
  · exact List.nodup_append.mpr ⟨h, List.nodup_singleton k, fun a ha b hb hab =>
      hk (List.mem_singleton.mp hb ▸ hab ▸ ha)⟩

def empty : Tally K V := ⟨[], List.nodup_nil⟩

/-- The amount under a key, zero when there is none. -/
def get [Zero V] (t : Tally K V) (k : K) : V := getEntries k t.entries

/-- `map.merge(k, v, +)`. -/
def merge [Add V] (t : Tally K V) (k : K) (v : V) : Tally K V :=
  ⟨mergeEntries k v t.entries, nodup_mergeEntries k v t.nodup⟩

def mergeEach [Add V] (t : Tally K V) (es : List (K × V)) : Tally K V :=
  es.foldl (fun t e => t.merge e.1 e.2) t

/-- Merge every entry of `s`. -/
def mergeAll [Add V] (t s : Tally K V) : Tally K V := t.mergeEach s.entries

section AddMonoid

variable [AddMonoid V]

@[simp] theorem get_empty (k : K) : (empty : Tally K V).get k = 0 := rfl

@[simp] theorem get_merge (t : Tally K V) (k : K) (v : V) (k' : K) :
    (t.merge k v).get k' = t.get k' + if k = k' then v else 0 := by
  change getEntries k' (mergeEntries k v t.entries) = getEntries k' t.entries + _
  generalize t.entries = es
  induction es with
  | nil =>
    rw [mergeEntries, getEntries, getEntries, getEntries, zero_add]
  | cons e es ih =>
    obtain ⟨i, w⟩ := e
    rw [mergeEntries]
    by_cases hik : i = k
    · subst hik
      rw [if_pos rfl, getEntries, getEntries]
      split_ifs
      · rfl
      · rw [add_zero]
    · rw [if_neg hik, getEntries, getEntries]
      by_cases hik' : i = k'
      · subst hik'
        rw [if_pos rfl, if_pos rfl, if_neg (Ne.symm hik), add_zero]
      · rw [if_neg hik', if_neg hik', ih]

private theorem getEntries_of_not_mem {k : K} {es : List (K × V)} (h : k ∉ es.map Prod.fst) :
    getEntries k es = 0 := by
  induction es with
  | nil => rfl
  | cons e es ih =>
    rw [List.map_cons, List.mem_cons, not_or] at h
    rw [getEntries, if_neg (Ne.symm h.1), ih h.2]

@[simp] theorem get_mergeAll (t s : Tally K V) (k : K) :
    (t.mergeAll s).get k = t.get k + s.get k := by
  obtain ⟨es, hes⟩ := s
  change (t.mergeEach es).get k = t.get k + getEntries k es
  induction es generalizing t with
  | nil => rw [getEntries, add_zero]; rfl
  | cons e es ih =>
    rw [List.map_cons, List.nodup_cons] at hes
    change ((t.merge e.1 e.2).mergeEach es).get k = _
    rw [ih _ hes.2, get_merge, getEntries]
    split_ifs with h
    · subst h
      rw [getEntries_of_not_mem hes.1, add_zero]
    · rw [add_zero]

end AddMonoid

end Tally

end Adwarden.Lib
