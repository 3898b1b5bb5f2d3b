import Mathlib.Data.List.AList
import Mathlib.Data.List.MinMax
import Adwarden.Rust.Addr

/-! A capacity-bounded, LRU-evicting map keyed by the connection 5-tuple. -/
namespace Adwarden.Net

structure FlowKey where
  proto : UInt8
  src : IpAddr
  srcPort : UInt16
  dst : IpAddr
  dstPort : UInt16
deriving DecidableEq

universe u

structure Entry (V : Type u) where
  value : V
  lastUsed : ℕ

/-- `tick` is a logical clock: no entry was touched after it, and no two at the same time. -/
structure FlowTable (V : Type u) where
  map : AList fun _ : FlowKey => Entry V
  capacity : ℕ
  tick : ℕ
  capacity_pos : 0 < capacity
  bounded : map.keys.length ≤ capacity
  touched : ∀ k e, map.lookup k = some e → e.lastUsed ≤ tick
  distinct : ∀ k e k' e', map.lookup k = some e → map.lookup k' = some e' →
    e.lastUsed = e'.lastUsed → k = k'

namespace FlowTable

variable {V : Type u}

def new (capacity : ℕ) : FlowTable V where
  map := ∅
  capacity := max capacity 1
  tick := 0
  capacity_pos := by omega
  bounded := by simp
  touched := by simp
  distinct := by simp

def len (t : FlowTable V) : ℕ := t.map.keys.length

def contains (t : FlowTable V) (key : FlowKey) : Bool := (t.map.lookup key).isSome

/-- The value of a key, without marking it as used. -/
def peek (t : FlowTable V) (key : FlowKey) : Option V := (t.map.lookup key).map Entry.value

theorem contains_eq (t : FlowTable V) (key : FlowKey) : t.contains key = (t.peek key).isSome := by
  unfold contains peek
  rw [Option.isSome_map]

end FlowTable

section Map

variable {V : Type u} {m : AList fun _ : FlowKey => Entry V}

theorem length_keys_erase (k : FlowKey) : (m.erase k).keys.length ≤ m.keys.length := by
  rw [AList.keys_erase]
  exact List.length_erase_le

theorem length_keys_erase_lt {k : FlowKey} (h : k ∈ m) :
    (m.erase k).keys.length < m.keys.length := by
  have hk : k ∈ m.keys := AList.mem_keys.mp h
  have := List.length_pos_of_mem hk
  rw [AList.keys_erase, List.length_erase_of_mem hk]
  omega

theorem length_keys_insert_le {k : FlowKey} {e : Entry V} (h : k ∈ m) :
    (m.insert k e).keys.length ≤ m.keys.length := by
  have := length_keys_erase_lt h
  rw [AList.keys_erase] at this
  rw [AList.keys_insert, List.length_cons]
  omega

theorem length_keys_insert_succ (k : FlowKey) (e : Entry V) :
    (m.insert k e).keys.length ≤ m.keys.length + 1 := by
  have := length_keys_erase (m := m) k
  rw [AList.keys_erase] at this
  rw [AList.keys_insert, List.length_cons]
  omega

theorem lookup_insert_cases {k k' : FlowKey} {e e' : Entry V}
    (h : (m.insert k e).lookup k' = some e') :
    (k' = k ∧ e' = e) ∨ (k' ≠ k ∧ m.lookup k' = some e') := by
  by_cases hk : k' = k
  · subst hk
    rw [AList.lookup_insert] at h
    exact Or.inl ⟨rfl, (Option.some.inj h).symm⟩
  · rw [AList.lookup_insert_ne hk] at h
    exact Or.inr ⟨hk, h⟩

theorem lookup_erase_some {k k' : FlowKey} {e : Entry V}
    (h : (m.erase k).lookup k' = some e) : k' ≠ k ∧ m.lookup k' = some e := by
  by_cases hk : k' = k
  · subst hk
    rw [AList.lookup_erase] at h
    contradiction
  · rw [AList.lookup_erase_ne hk] at h
    exact ⟨hk, h⟩

end Map

namespace FlowTable

variable {V : Type u}

/-- A part of the entries of a table. -/
private def restrict (t : FlowTable V) (m : AList fun _ : FlowKey => Entry V)
    (hlen : m.keys.length ≤ t.map.keys.length)
    (hsub : ∀ k e, m.lookup k = some e → t.map.lookup k = some e) : FlowTable V where
  map := m
  capacity := t.capacity
  tick := t.tick
  capacity_pos := t.capacity_pos
  bounded := Nat.le_trans hlen t.bounded
  touched k e h := t.touched k e (hsub k e h)
  distinct k e k' e' h h' := t.distinct k e k' e' (hsub k e h) (hsub k' e' h')

def remove (t : FlowTable V) (key : FlowKey) : FlowTable V :=
  t.restrict (t.map.erase key) (length_keys_erase key) fun _ _ h => (lookup_erase_some h).2

/-- `remove` with what it returns. -/
def removeEntry (t : FlowTable V) (key : FlowKey) : Option V × FlowTable V :=
  (t.peek key, t.remove key)

theorem mem_entries {m : AList fun _ : FlowKey => Entry V} {k : FlowKey} {e : Entry V} :
    ⟨k, e⟩ ∈ m.entries ↔ m.lookup k = some e :=
  (List.mem_dlookup_iff m.nodupKeys).symm

/-- Drop the entries that `keep` does not hold of. -/
def retain (t : FlowTable V) (keep : FlowKey → V → Bool) : FlowTable V :=
  t.restrict
    ⟨t.map.entries.filter fun s => keep s.1 s.2.value,
      t.map.nodupKeys.sublist List.filter_sublist⟩
    (List.filter_sublist.map Sigma.fst).length_le
    fun _ _ h => mem_entries.mp (List.mem_filter.mp (mem_entries.mpr h)).1

/-- The key that was used least recently. -/
def lru (t : FlowTable V) : Option FlowKey :=
  (t.map.entries.argmin fun s => s.2.lastUsed).map Sigma.fst

def evictLru (t : FlowTable V) : FlowTable V :=
  match t.lru with
  | none => t
  | some key => t.remove key

/-- Write `value` at the next tick, into a table with room for it. -/
private def put (t : FlowTable V) (key : FlowKey) (value : V)
    (hroom : key ∈ t.map ∨ t.map.keys.length < t.capacity) : FlowTable V where
  map := t.map.insert key ⟨value, t.tick + 1⟩
  capacity := t.capacity
  tick := t.tick + 1
  capacity_pos := t.capacity_pos
  bounded := by
    rcases hroom with h | h
    · exact Nat.le_trans (length_keys_insert_le h) t.bounded
    · exact Nat.le_trans (length_keys_insert_succ _ _) h
  touched := by
    intro k e h
    rcases lookup_insert_cases h with ⟨-, rfl⟩ | ⟨-, h⟩
    · exact Nat.le_refl _
    · exact Nat.le_succ_of_le (t.touched k e h)
  distinct := by
    intro k e k' e' h h' heq
    rcases lookup_insert_cases h with ⟨rfl, rfl⟩ | ⟨-, hk⟩
    · rcases lookup_insert_cases h' with ⟨rfl, rfl⟩ | ⟨-, hk'⟩
      · rfl
      · have := t.touched k' e' hk'
        simp only at heq
        omega
    · rcases lookup_insert_cases h' with ⟨rfl, rfl⟩ | ⟨-, hk'⟩
      · have := t.touched k e hk
        simp only at heq
        omega
      · exact t.distinct k e k' e' hk hk' heq

/-- Fetch a value, marking it most recently used. -/
def get (t : FlowTable V) (key : FlowKey) : Option V × FlowTable V :=
  match h : t.map.lookup key with
  | none => (none, { t with
      tick := t.tick + 1
      touched := fun k e he => Nat.le_succ_of_le (t.touched k e he) })
  | some e => (some e.value, t.put key e.value
      (Or.inl (AList.lookup_isSome.mp (by rw [h]; rfl))))

theorem lru_mem {t : FlowTable V} {key : FlowKey} (h : t.lru = some key) : key ∈ t.map := by
  obtain ⟨s, hs, rfl⟩ := Option.map_eq_some_iff.mp h
  exact AList.mem_keys.mpr (List.mem_map_of_mem (List.argmin_mem hs))

theorem lru_isSome {t : FlowTable V} (h : 0 < t.map.keys.length) : ∃ key, t.lru = some key := by
  cases hl : t.lru with
  | some key => exact ⟨key, rfl⟩
  | none =>
    have := List.argmin_eq_none.mp (Option.map_eq_none_iff.mp hl)
    simp [AList.keys, List.keys, this] at h

theorem evictLru_room {t : FlowTable V} : t.evictLru.map.keys.length < t.evictLru.capacity := by
  by_cases hpos : 0 < t.map.keys.length
  · obtain ⟨key, hkey⟩ := lru_isSome hpos
    have := length_keys_erase_lt (lru_mem hkey)
    have hb := t.bounded
    simp only [evictLru, hkey, remove, restrict]
    omega
  · have hc := t.capacity_pos
    have : t.lru = none := by
      cases hl : t.lru with
      | none => rfl
      | some key =>
        have := List.length_pos_of_mem (AList.mem_keys.mp (lru_mem hl))
        omega
    simp only [evictLru, this]
    omega

/-- Insert or replace, evicting the least recently used entry first if at capacity. -/
def insert (t : FlowTable V) (key : FlowKey) (value : V) : FlowTable V :=
  if h : key ∈ t.map ∨ t.map.keys.length < t.capacity then t.put key value h
  else t.evictLru.put key value (Or.inr evictLru_room)

@[simp] theorem peek_new (capacity : ℕ) (k : FlowKey) :
    (new capacity : FlowTable V).peek k = none := by
  simp [peek, new]

theorem peek_evictLru {t : FlowTable V} {k : FlowKey} {v : V}
    (h : t.evictLru.peek k = some v) : t.peek k = some v := by
  unfold evictLru at h
  cases hl : t.lru with
  | none => rwa [hl] at h
  | some key =>
    rw [hl] at h
    obtain ⟨e, he, rfl⟩ := Option.map_eq_some_iff.mp h
    exact Option.map_eq_some_iff.mpr ⟨e, (lookup_erase_some he).2, rfl⟩

private theorem peek_put {t : FlowTable V} {key k : FlowKey} {value : V}
    {hroom : key ∈ t.map ∨ t.map.keys.length < t.capacity} :
    (t.put key value hroom).peek k = if k = key then some value else t.peek k := by
  unfold peek put
  split_ifs with hk
  · subst hk
    rw [AList.lookup_insert]
    rfl
  · rw [AList.lookup_insert_ne hk]

@[simp] theorem peek_insert_self (t : FlowTable V) (key : FlowKey) (value : V) :
    (t.insert key value).peek key = some value := by
  unfold insert
  split_ifs <;> simp [peek_put]

/-- An insertion may evict other entries, and changes none of them. -/
theorem peek_insert {t : FlowTable V} {key k : FlowKey} {value v : V}
    (h : (t.insert key value).peek k = some v) :
    (k = key ∧ v = value) ∨ (k ≠ key ∧ t.peek k = some v) := by
  unfold insert at h
  by_cases hk : k = key
  · left
    split_ifs at h <;> simp_all [peek_put]
  · right
    split_ifs at h
    · rw [peek_put, if_neg hk] at h
      exact ⟨hk, h⟩
    · rw [peek_put, if_neg hk] at h
      exact ⟨hk, peek_evictLru h⟩

section Entries

variable {t : FlowTable V} {key k : FlowKey}

theorem lookup_remove :
    (t.remove key).map.lookup k = if k = key then none else t.map.lookup k := by
  change (t.map.erase key).lookup k = _
  split_ifs with hk
  · rw [hk, AList.lookup_erase]
  · rw [AList.lookup_erase_ne hk]

theorem lookup_retain (keep : FlowKey → V → Bool) :
    (t.retain keep).map.lookup k = (t.map.lookup k).filter fun e => keep k e.value := by
  apply Option.ext
  intro e
  rw [← mem_entries, Option.filter_eq_some_iff, ← mem_entries]
  exact List.mem_filter

private theorem lookup_put {value : V} {hroom : key ∈ t.map ∨ t.map.keys.length < t.capacity} :
    (t.put key value hroom).map.lookup k =
      if k = key then some ⟨value, t.tick + 1⟩ else t.map.lookup k := by
  change (t.map.insert key _).lookup k = _
  split_ifs with hk
  · rw [hk, AList.lookup_insert]
  · rw [AList.lookup_insert_ne hk]

/-- A value that is fetched counts as used at the next tick. -/
theorem lookup_get_some {e : Entry V} (h : t.map.lookup key = some e) :
    (t.get key).2.map.lookup k =
      if k = key then some ⟨e.value, t.tick + 1⟩ else t.map.lookup k := by
  unfold get
  split
  · next hnone =>
    rw [h] at hnone
    cases hnone
  · next e' he' =>
    obtain rfl := Option.some.inj (h.symm.trans he')
    exact @lookup_put V t key k e.value (Or.inl (AList.lookup_isSome.mp (by rw [h]; rfl)))

theorem lookup_get_none (h : t.map.lookup key = none) : (t.get key).2.map = t.map := by
  unfold get
  split
  · rfl
  · next he =>
    rw [h] at he
    cases he

theorem lookup_insert_room {value : V}
    (h : t.contains key = true ∨ t.map.keys.length < t.capacity) :
    (t.insert key value).map.lookup k =
      if k = key then some ⟨value, t.tick + 1⟩ else t.map.lookup k := by
  have hroom : key ∈ t.map ∨ t.map.keys.length < t.capacity := h.imp_left AList.lookup_isSome.mp
  rw [insert, dif_pos hroom]
  exact lookup_put

theorem lookup_insert_full {value : V}
    (h : ¬ (t.contains key = true ∨ t.map.keys.length < t.capacity)) :
    (t.insert key value).map.lookup k =
      if k = key then some ⟨value, t.evictLru.tick + 1⟩ else t.evictLru.map.lookup k := by
  have hroom : ¬ (key ∈ t.map ∨ t.map.keys.length < t.capacity) :=
    fun hr => h (hr.imp_left AList.lookup_isSome.mpr)
  rw [insert, dif_neg hroom]
  exact lookup_put

/-- The entry used least recently was used before every other one. -/
theorem lru_least {e e' : Entry V} (hl : t.lru = some key) (he : t.map.lookup key = some e)
    (he' : t.map.lookup k = some e') : e.lastUsed ≤ e'.lastUsed := by
  obtain ⟨s, hs, rfl⟩ := Option.map_eq_some_iff.mp hl
  have hmem := List.argmin_mem hs
  have hlookup : t.map.lookup s.1 = some s.2 := mem_entries.mp hmem
  obtain rfl := Option.some.inj (he.symm.trans hlookup)
  have hleast := @List.le_of_mem_argmin _ _ _ (fun s => s.2.lastUsed) t.map.entries _ _
    (mem_entries.mpr he') hs
  exact hleast

theorem capacity_evictLru : t.evictLru.capacity = t.capacity := by
  unfold evictLru
  split <;> rfl

end Entries

theorem capacity_insert (t : FlowTable V) (key : FlowKey) (value : V) :
    (t.insert key value).capacity = t.capacity := by
  unfold insert
  split_ifs
  · rfl
  · exact capacity_evictLru

theorem capacity_get (t : FlowTable V) (key : FlowKey) : (t.get key).2.capacity = t.capacity := by
  unfold get
  split <;> rfl

theorem get_fst (t : FlowTable V) (key : FlowKey) : (t.get key).1 = t.peek key := by
  unfold get peek
  split <;> simp_all

/-- Looking a key up changes no value. -/
@[simp] theorem peek_get (t : FlowTable V) (key k : FlowKey) :
    (t.get key).2.peek k = t.peek k := by
  unfold get
  split
  · rfl
  · rename_i e he
    rw [peek_put]
    split_ifs with hk
    · subst hk
      simp [peek, he]
    · rfl

end FlowTable

end Adwarden.Net
