import Adwarden.Lib.Automaton
import Adwarden.Lib.Lru
import Adwarden.Net.FlowTable

/-! A flow table is the list of its entries in the order of their last use: the ticks only encode
that order. -/
namespace Adwarden.Net
open Adwarden.Lib

universe u

variable {V : Type u}

namespace FlowTable

/-- The list has the entries of the table, those with later ticks in front. -/
structure Ranks (t : FlowTable V) (l : Lru FlowKey V) : Prop where
  lookup : ∀ k, l.lookup k = t.peek k
  order : l.entries.Pairwise fun a b => ∀ e e', t.map.lookup a.1 = some e →
    t.map.lookup b.1 = some e' → e'.lastUsed < e.lastUsed

def step (t : FlowTable V) : Lru.Op FlowKey V → Option V × FlowTable V
  | .get k => t.get k
  | .insert k v => (none, t.insert k v)
  | .remove k => t.removeEntry k
  | .retain keep => (none, t.retain keep)

section Simulation

variable {t t' : FlowTable V} {l : Lru FlowKey V} {key : FlowKey} {value : V}

theorem ranks_new (capacity : ℕ) : Ranks (new capacity : FlowTable V) .empty := by
  refine ⟨?_, List.Pairwise.nil⟩
  intro k
  rw [peek_new, Lru.lookup_empty]

theorem Ranks.mem (h : Ranks t l) {k : FlowKey} {v : V} :
    (k, v) ∈ l.entries ↔ ∃ e, t.map.lookup k = some e ∧ e.value = v := by
  rw [← Lru.lookup_eq_some, h.lookup, peek, Option.map_eq_some_iff]

/-- Leaving entries out keeps the order of the others. -/
theorem Ranks.part (h : Ranks t l) {l' : Lru FlowKey V}
    (hsub : l'.entries.Sublist l.entries) (hlookup : ∀ k, l'.lookup k = t'.peek k)
    (hkept : ∀ k e, t'.map.lookup k = some e → t.map.lookup k = some e) : Ranks t' l' := by
  refine ⟨hlookup, (h.order.sublist hsub).imp ?_⟩
  intro a b hab e e' he he'
  exact hab e e' (hkept a.1 e he) (hkept b.1 e' he')

theorem Ranks.remove (h : Ranks t l) (key : FlowKey) : Ranks (t.remove key) (l.erase key) := by
  refine h.part List.filter_sublist ?_ ?_
  · intro k
    rw [Lru.lookup_erase, h.lookup, peek, peek, lookup_remove]
    split_ifs <;> rfl
  · intro k e he
    rw [lookup_remove] at he
    split_ifs at he
    exact he

theorem Ranks.retain (h : Ranks t l) (keep : FlowKey → V → Bool) :
    Ranks (t.retain keep) (l.retain keep) := by
  refine h.part List.filter_sublist ?_ ?_
  · intro k
    rw [Lru.lookup_retain, h.lookup, peek, peek, lookup_retain]
    cases t.map.lookup k with
    | none => rfl
    | some e =>
      simp only [Option.map_some, Option.filter_some]
      split_ifs <;> rfl
  · intro k e he
    rw [lookup_retain, Option.filter_eq_some_iff] at he
    exact he.1

/-- An entry that is written at a later tick than all others comes in front of them. -/
theorem Ranks.push (h : Ranks t l) (tick : ℕ)
    (hlate : ∀ k e, t.map.lookup k = some e → e.lastUsed < tick)
    (hlookup : ∀ k, t'.map.lookup k = if k = key then some ⟨value, tick⟩ else t.map.lookup k) :
    Ranks t' (l.push key value) := by
  constructor
  · intro k
    rw [Lru.lookup_push, h.lookup, peek, peek, hlookup]
    split_ifs <;> rfl
  · have hne : ∀ p ∈ (l.erase key).entries, p.1 ≠ key := by
      intro p hp
      exact of_decide_eq_true (List.mem_filter.mp hp).2
    refine List.pairwise_cons.mpr ⟨?_, ?_⟩
    · intro p hp e e' he he'
      rw [hlookup, if_pos rfl] at he
      rw [hlookup, if_neg (hne p hp)] at he'
      obtain rfl := Option.some.inj he
      exact hlate p.1 e' he'
    · have hrest := h.order.sublist (List.filter_sublist (p := fun p => p.1 ≠ key))
      refine List.Pairwise.imp_of_mem ?_ hrest
      intro a b ha hb hab e e' he he'
      rw [hlookup, if_neg (hne a ha)] at he
      rw [hlookup, if_neg (hne b hb)] at he'
      exact hab e e' he he'

theorem Ranks.entries_length (h : Ranks t l) : l.entries.length = t.len := by
  have hperm : (l.entries.map Prod.fst).Perm t.map.keys := by
    apply (List.perm_ext_iff_of_nodup l.nodup t.map.nodupKeys).mpr
    intro k
    change k ∈ l.entries.map Prod.fst ↔ k ∈ t.map
    rw [← AList.lookup_isSome, Option.isSome_iff_exists, List.mem_map]
    constructor
    · rintro ⟨⟨k, v⟩, hp, rfl⟩
      obtain ⟨e, he, -⟩ := h.mem.mp hp
      exact ⟨e, he⟩
    · rintro ⟨e, he⟩
      exact ⟨(k, e.value), h.mem.mpr ⟨e, he, rfl⟩, rfl⟩
  have hlen := hperm.length_eq
  rwa [List.length_map] at hlen

/-- The entry with the least tick is the last of the list. -/
theorem Ranks.lru_eq (h : Ranks t l) : t.lru = l.last := by
  cases hlast : l.last with
  | none =>
    have hnil : l.entries = [] :=
      List.getLast?_eq_none_iff.mp (Option.map_eq_none_iff.mp hlast)
    have hlen := h.entries_length
    rw [hnil] at hlen
    cases hlru : t.lru with
    | none => rfl
    | some key =>
      have hpos := List.length_pos_of_mem (AList.mem_keys.mp (lru_mem hlru))
      exact absurd hlen (Nat.ne_of_lt hpos)
  | some key =>
    obtain ⟨⟨k, v⟩, hp, rfl⟩ := Option.map_eq_some_iff.mp hlast
    obtain ⟨init, hinit⟩ := List.getLast?_eq_some_iff.mp hp
    have hmem : (k, v) ∈ l.entries := List.mem_of_getLast? hp
    obtain ⟨e, he, -⟩ := h.mem.mp hmem
    have hpos : 0 < t.map.keys.length :=
      List.length_pos_of_mem (AList.mem_keys.mp (AList.lookup_isSome.mp (by rw [he]; rfl)))
    obtain ⟨key, hkey⟩ := lru_isSome hpos
    obtain ⟨e', he'⟩ := Option.isSome_iff_exists.mp (AList.lookup_isSome.mpr (lru_mem hkey))
    have hle := lru_least hkey he' he
    by_cases hk : key = k
    · rw [hkey, hk]
    · -- An entry before the last one has the later tick.
      have hbefore : (key, e'.value) ∈ init := by
        have hin := h.mem.mpr ⟨e', he', rfl⟩
        rw [hinit] at hin
        rcases List.mem_append.mp hin with hin | hin
        · exact hin
        · obtain ⟨rfl, -⟩ := Prod.mk.inj (List.mem_singleton.mp hin)
          exact absurd rfl hk
      have horder := h.order
      rw [hinit] at horder
      have hlt := (List.pairwise_append.mp horder).2.2 _ hbefore _ (List.mem_singleton_self _)
        e' e he' he
      exact absurd hle (Nat.not_le.mpr hlt)

theorem Ranks.evict (h : Ranks t l) : Ranks t.evictLru l.forget := by
  cases hlru : t.lru with
  | none =>
    have hlast := h.lru_eq.symm.trans hlru
    have hnil : l.entries = [] :=
      List.getLast?_eq_none_iff.mp (Option.map_eq_none_iff.mp hlast)
    have hsame : l.forget = l := by
      obtain ⟨es, hes⟩ := l
      obtain rfl : es = [] := hnil
      rfl
    rw [evictLru, hlru, hsame]
    exact h
  | some key =>
    rw [evictLru, hlru, Lru.forget_eq (h.lru_eq.symm.trans hlru)]
    exact h.remove key

theorem Ranks.get (h : Ranks t l) (key : FlowKey) :
    (t.get key).1 = (l.get key).1 ∧ Ranks (t.get key).2 (l.get key).2 := by
  have hfst := t.get_fst key
  unfold Lru.get
  rw [h.lookup, hfst]
  cases he : t.map.lookup key with
  | none =>
    have hpeek : t.peek key = none := by rw [peek, he, Option.map_none]
    have hmap := lookup_get_none he
    rw [hpeek]
    refine ⟨rfl, fun k => ?_, ?_⟩
    · rw [h.lookup, peek, peek, hmap]
    · rw [hmap]
      exact h.order
  | some e =>
    have hpeek : t.peek key = some e.value := by rw [peek, he, Option.map_some]
    rw [hpeek]
    refine ⟨rfl, h.push (t.tick + 1) ?_ fun k => lookup_get_some he⟩
    intro k e' he'
    exact Nat.lt_succ_of_le (t.touched k e' he')

theorem Ranks.insert (h : Ranks t l) (key : FlowKey) (value : V) :
    Ranks (t.insert key value) (l.insert t.capacity key value) := by
  have hroom : (l.lookup key).isSome = true ∨ l.entries.length < t.capacity ↔
      t.contains key = true ∨ t.map.keys.length < t.capacity := by
    rw [h.lookup, h.entries_length, peek, Option.isSome_map]
    rfl
  by_cases hfree : t.contains key = true ∨ t.map.keys.length < t.capacity
  · rw [Lru.insert, if_pos (hroom.mpr hfree)]
    refine h.push (t.tick + 1) ?_ fun k => lookup_insert_room hfree
    intro k e he
    exact Nat.lt_succ_of_le (t.touched k e he)
  · rw [Lru.insert, if_neg (fun hr => hfree (hroom.mp hr))]
    refine h.evict.push (t.evictLru.tick + 1) ?_ fun k => lookup_insert_full hfree
    intro k e he
    exact Nat.lt_succ_of_le (t.evictLru.touched k e he)

end Simulation

/-- A table that holds what a list holds, in no more than `capacity` entries. A new key that finds
it full takes the place of the key at the end of the list; other insertions displace nothing. -/
structure LruOf (capacity : ℕ) (t : FlowTable V) (l : Lru FlowKey V) : Prop where
  lookup : ∀ k, t.peek k = l.lookup k
  len : t.len = l.entries.length
  bounded : t.len ≤ capacity
  kept : ∀ key value, t.contains key = true ∨ t.len < capacity →
    ∀ k, k ≠ key → (t.insert key value).peek k = t.peek k
  evicted : ∀ key value, t.contains key = false → t.len = capacity →
    ∃ lru, l.last = some lru ∧
      ∀ k, k ≠ key → (t.insert key value).peek k = if k = lru then none else t.peek k

theorem Ranks.lruOf {t : FlowTable V} {l : Lru FlowKey V} (h : Ranks t l) :
    LruOf t.capacity t l := by
  refine ⟨fun k => (h.lookup k).symm, h.entries_length.symm, t.bounded, ?_, ?_⟩
  · intro key value hfree k hk
    rw [peek, lookup_insert_room hfree, if_neg hk, peek]
  · intro key value hnew hfull
    have hpos : 0 < t.map.keys.length := by
      rw [len] at hfull
      rw [hfull]
      exact t.capacity_pos
    obtain ⟨lru, hlru⟩ := lru_isSome hpos
    have hroom : ¬ (t.contains key = true ∨ t.map.keys.length < t.capacity) := by
      rintro (hc | hlt)
      · rw [hnew] at hc
        cases hc
      · exact absurd hfull (Nat.ne_of_lt hlt)
    refine ⟨lru, h.lru_eq.symm.trans hlru, fun k hk => ?_⟩
    rw [peek, lookup_insert_full hroom, if_neg hk, evictLru, hlru]
    dsimp only
    rw [lookup_remove, peek]
    split_ifs <;> rfl

theorem step_ranks (t : FlowTable V) (l : Lru FlowKey V) (op : Lru.Op FlowKey V)
    (h : Ranks t l) : (t.step op).1 = (l.step t.capacity op).1 ∧
      Ranks (t.step op).2 (l.step t.capacity op).2 ∧ (t.step op).2.capacity = t.capacity := by
  cases op with
  | get key => exact ⟨(h.get key).1, (h.get key).2, t.capacity_get key⟩
  | insert key value => exact ⟨rfl, h.insert key value, t.capacity_insert key value⟩
  | remove key => exact ⟨(h.lookup key).symm, h.remove key, rfl⟩
  | retain keep => exact ⟨rfl, h.retain keep, rfl⟩

/-- In every sequence of calls a table returns what the list of its entries by their last use
returns, and evicts as that list does. -/
theorem flow_table_lru (capacity : ℕ) (ops : List (Lru.Op FlowKey V)) :
    (outputs step (new capacity) ops).1 = (outputs (Lru.step (max capacity 1)) .empty ops).1 ∧
      LruOf (max capacity 1) (outputs step (new capacity) ops).2
        (outputs (Lru.step (max capacity 1)) .empty ops).2 := by
  have hsim := @outputs_eq _ _ _ _ step (Lru.step (max capacity 1))
    (fun (t : FlowTable V) l => Ranks t l ∧ t.capacity = max capacity 1) ?_ _ _
    ⟨ranks_new capacity, rfl⟩ ops
  · obtain ⟨hout, hranks, hcap⟩ := hsim
    have hlru := hranks.lruOf
    rw [hcap] at hlru
    exact ⟨hout, hlru⟩
  · rintro t l op ⟨h, hcap⟩
    obtain ⟨hout, hranks, hsame⟩ := step_ranks t l op h
    rw [hcap] at hout hranks hsame
    exact ⟨hout, hranks, hsame⟩

end FlowTable

end Adwarden.Net
