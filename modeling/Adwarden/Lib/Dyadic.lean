import Mathlib.Algebra.Group.Int.Defs
import Mathlib.Algebra.Group.Nat.Defs
import Mathlib.Data.List.Perm.Subperm
import Mathlib.Order.Nat
import Mathlib.Data.Nat.Notation
import Mathlib.Data.Set.Defs
import Mathlib.Tactic.Common

/-! Blocks of `2 ^ k` consecutive numbers that start at a multiple of their length, and the shortest
lists of such blocks. -/
namespace Adwarden.Lib

@[ext] structure DyadicBlock where
  base : ℕ
  size : ℕ
  aligned : 2 ^ size ∣ base
deriving DecidableEq

namespace DyadicBlock

/-- The first number after the block. -/
def stop (b : DyadicBlock) : ℕ := b.base + 2 ^ b.size

def Contains (b : DyadicBlock) (x : ℕ) : Prop := b.base ≤ x ∧ x < b.stop

def Within (b : DyadicBlock) (S : Set ℕ) : Prop := ∀ x, b.Contains x → x ∈ S

/-- No larger block inside `S` has the start of `b`. -/
structure Maximal (S : Set ℕ) (b : DyadicBlock) : Prop where
  within : b.Within S
  largest : ∀ c : DyadicBlock, c.Within S → c.Contains b.base → c.size ≤ b.size

theorem base_lt_stop (b : DyadicBlock) : b.base < b.stop :=
  Nat.lt_add_of_pos_right (Nat.two_pow_pos _)

theorem contains_base (b : DyadicBlock) : b.Contains b.base := ⟨Nat.le_refl _, b.base_lt_stop⟩

theorem dvd_stop (b : DyadicBlock) : 2 ^ b.size ∣ b.stop := Nat.dvd_add b.aligned (Nat.dvd_refl _)

/-- Of two blocks with a number in common the smaller one lies in the larger one. -/
theorem nested {a b : DyadicBlock} {x : ℕ} (ha : a.Contains x) (hb : b.Contains x)
    (hs : a.size ≤ b.size) : b.base ≤ a.base ∧ a.stop ≤ b.stop := by
  have hd : 2 ^ a.size ∣ 2 ^ b.size := Nat.pow_dvd_pow 2 hs
  obtain ⟨ha1, ha2⟩ := ha
  obtain ⟨hb1, hb2⟩ := hb
  constructor
  · apply Nat.le_of_lt_add_of_dvd _ (Nat.dvd_trans hd b.aligned) a.aligned
    exact Nat.lt_of_le_of_lt hb1 ha2
  · apply Nat.le_of_lt_add_of_dvd _ a.dvd_stop (Nat.dvd_trans hd b.dvd_stop)
    exact Nat.add_lt_add_right (Nat.lt_of_le_of_lt ha1 hb2) _

theorem length_le_of_maximal {S : Set ℕ} {bs cs : List DyadicBlock} (hmax : ∀ b ∈ bs, b.Maximal S)
    (hdisj : bs.Pairwise fun a b => a.stop ≤ b.base) (hin : ∀ c ∈ cs, c.Within S)
    (hcover : ∀ x ∈ S, ∃ c ∈ cs, c.Contains x) : bs.length ≤ cs.length := by
  have hpick : ∀ b ∈ bs, ∃ c ∈ cs, c.Contains b.base := fun b hb =>
    hcover _ ((hmax b hb).within _ b.contains_base)
  choose! f hf hc using hpick
  have hsub : ∀ b ∈ bs, b.base ≤ (f b).base ∧ (f b).stop ≤ b.stop := fun b hb =>
    nested (hc b hb) b.contains_base ((hmax b hb).largest _ (hin _ (hf b hb)) (hc b hb))
  have hnodup : (bs.map f).Nodup := by
    rw [List.Nodup, List.pairwise_map]
    refine hdisj.imp_of_mem fun {a b} ha hb hab he => ?_
    have h1 := (hsub a ha).2
    have h2 := (hsub b hb).1
    have h3 := (f b).base_lt_stop
    rw [he] at h1
    omega
  have hmem : bs.map f ⊆ cs := by
    intro c hc
    obtain ⟨b, hb, rfl⟩ := List.mem_map.mp hc
    exact hf b hb
  simpa using (List.subperm_of_subset hnodup hmem).length_le

/-- The blocks from the cursor to `stop`, each the largest one that starts at the cursor and ends by
`stop`. -/
inductive Greedy (stop : ℕ) : ℕ → List DyadicBlock → Prop
  | nil : Greedy stop stop []
  | cons {b : DyadicBlock} {bs : List DyadicBlock} (fits : b.stop ≤ stop)
      (largest : ∀ c : DyadicBlock, c.base = b.base → c.stop ≤ stop → c.size ≤ b.size)
      (rest : Greedy stop b.stop bs) : Greedy stop b.base (b :: bs)

namespace Greedy

variable {stop s : ℕ} {bs : List DyadicBlock}

theorem le_stop (h : Greedy stop s bs) : s ≤ stop := by
  induction h with
  | nil => exact Nat.le_refl _
  | @cons b bs fits largest rest ih =>
    have := b.base_lt_stop
    omega

theorem bounds (h : Greedy stop s bs) : ∀ b ∈ bs, s ≤ b.base ∧ b.stop ≤ stop := by
  induction h with
  | nil => simp
  | @cons b bs fits largest rest ih =>
    have hlt := b.base_lt_stop
    intro c hc
    rcases List.mem_cons.mp hc with rfl | hc
    · exact ⟨Nat.le_refl _, fits⟩
    · obtain ⟨h1, h2⟩ := ih c hc
      exact ⟨by omega, h2⟩

theorem covers (h : Greedy stop s bs) {x : ℕ} :
    (∃ b ∈ bs, b.Contains x) ↔ s ≤ x ∧ x < stop := by
  induction h with
  | nil =>
    constructor
    · rintro ⟨b, hb, -⟩
      simp at hb
    · omega
  | @cons b bs fits largest rest ih =>
    have hlt := b.base_lt_stop
    have hle := rest.le_stop
    rw [List.exists_mem_cons_iff, ih, Contains]
    omega

theorem sorted (h : Greedy stop s bs) : bs.Pairwise fun a b => a.stop ≤ b.base := by
  induction h with
  | nil => exact List.Pairwise.nil
  | cons fits largest rest ih => exact List.Pairwise.cons (fun c hc => (rest.bounds c hc).1) ih

/-- Where no block inside `S` lies across either end of the range, the blocks are maximal. -/
theorem maximal {S : Set ℕ} (h : Greedy stop s bs) (hin : ∀ x, s ≤ x → x < stop → x ∈ S)
    (hleft : ∀ c : DyadicBlock, c.Within S → c.base < s → c.stop ≤ s)
    (hright : ∀ c : DyadicBlock, c.Within S → c.base < stop → c.stop ≤ stop) :
    ∀ b ∈ bs, b.Maximal S := by
  induction h with
  | nil => simp
  | @cons b bs fits largest rest ih =>
    have hlt := b.base_lt_stop
    have hb : b.Maximal S := by
      refine ⟨fun x hx => hin x hx.1 (Nat.lt_of_lt_of_le hx.2 fits), fun c hc hcb => ?_⟩
      have hbase : c.base = b.base := by
        by_contra hne
        have := hleft c hc (Nat.lt_of_le_of_ne hcb.1 hne)
        have := hcb.2
        omega
      exact largest c hbase (hright c hc (by omega))
    have hstep : ∀ c : DyadicBlock, c.Within S → c.base < b.stop → c.stop ≤ b.stop := by
      intro c hc hcb
      rcases Nat.le_total b.base c.base with hle | hle
      · rcases Nat.le_total c.size b.size with hs | hs
        · exact (nested c.contains_base ⟨hle, hcb⟩ hs).2
        · -- `b` lies in `c`, so both have one start
          have hbc := nested (x := c.base) ⟨hle, hcb⟩ c.contains_base hs
          have hcon : c.Contains b.base := ⟨hbc.1, by have := hbc.2; omega⟩
          exact (nested hcon b.contains_base (hb.largest c hc hcon)).2
      · by_cases hst : b.base < c.stop
        · exact (nested ⟨hle, hst⟩ b.contains_base (hb.largest c hc ⟨hle, hst⟩)).2
        · omega
    intro c hc
    rcases List.mem_cons.mp hc with rfl | hc
    · exact hb
    · exact ih (fun x h1 h2 => hin x (by omega) h2) hstep c hc

end Greedy

/-- The numbers of `S` from `lo` on and below `hi`, in maximal blocks and in order. -/
structure Tiling (S : Set ℕ) (lo hi : ℕ) (bs : List DyadicBlock) : Prop where
  sorted : bs.Pairwise fun a b => a.stop ≤ b.base
  bounds : ∀ b ∈ bs, lo ≤ b.base ∧ b.stop ≤ hi
  maximal : ∀ b ∈ bs, b.Maximal S
  covers : ∀ x ∈ S, lo ≤ x → x < hi → ∃ b ∈ bs, b.Contains x

/-- A number outside `S` keeps the blocks inside `S` on one side of it. -/
theorem Within.stop_le {S : Set ℕ} {c : DyadicBlock} (hc : c.Within S) {s : ℕ} (hs : s ∉ S)
    (hlt : c.base ≤ s) : c.stop ≤ s := by
  by_contra h
  exact hs (hc s ⟨hlt, by omega⟩)

/-- A run of numbers of `S` with no neighbour in `S`. -/
theorem Greedy.tiling {S : Set ℕ} {s stop : ℕ} {bs : List DyadicBlock} (h : Greedy stop s bs)
    (hin : ∀ x, s ≤ x → x < stop → x ∈ S) (hleft : s = 0 ∨ s - 1 ∉ S) (hright : stop ∉ S) :
    Tiling S s stop bs := by
  refine ⟨h.sorted, h.bounds, h.maximal hin ?_ ?_, fun x _ h1 h2 => h.covers.mpr ⟨h1, h2⟩⟩
  · intro c hc hlt
    rcases hleft with rfl | hs
    · omega
    · have := hc.stop_le hs (by omega)
      omega
  · exact fun c hc hlt => hc.stop_le hright hlt.le

theorem Tiling.nil {S : Set ℕ} {lo hi : ℕ} (h : ∀ x, lo ≤ x → x < hi → x ∉ S) :
    Tiling S lo hi [] :=
  ⟨List.Pairwise.nil, by simp, by simp, fun x hx h1 h2 => absurd hx (h x h1 h2)⟩

theorem Tiling.append {S : Set ℕ} {lo mid hi : ℕ} {as bs : List DyadicBlock}
    (ha : Tiling S lo mid as) (hb : Tiling S mid hi bs) (hlo : lo ≤ mid) (hhi : mid ≤ hi) :
    Tiling S lo hi (as ++ bs) := by
  constructor
  · refine List.pairwise_append.mpr ⟨ha.sorted, hb.sorted, fun a h1 b h2 => ?_⟩
    exact (ha.bounds a h1).2.trans (hb.bounds b h2).1
  · intro b hmem
    rcases List.mem_append.mp hmem with hmem | hmem
    · exact ⟨(ha.bounds b hmem).1, (ha.bounds b hmem).2.trans hhi⟩
    · exact ⟨hlo.trans (hb.bounds b hmem).1, (hb.bounds b hmem).2⟩
  · intro b hmem
    rcases List.mem_append.mp hmem with hmem | hmem
    · exact ha.maximal b hmem
    · exact hb.maximal b hmem
  · intro x hx h1 h2
    rcases Nat.lt_or_ge x mid with hlt | hge
    · obtain ⟨b, hmem, hc⟩ := ha.covers x hx h1 hlt
      exact ⟨b, List.mem_append_left _ hmem, hc⟩
    · obtain ⟨b, hmem, hc⟩ := hb.covers x hx hge h2
      exact ⟨b, List.mem_append_right _ hmem, hc⟩

/-- The blocks of a tiling hold the numbers of `S` and no others. -/
theorem Tiling.mem_iff {S : Set ℕ} {lo hi x : ℕ} {bs : List DyadicBlock} (h : Tiling S lo hi bs) :
    (∃ b ∈ bs, b.Contains x) ↔ x ∈ S ∧ lo ≤ x ∧ x < hi := by
  constructor
  · rintro ⟨b, hb, hx⟩
    obtain ⟨h1, h2⟩ := h.bounds b hb
    exact ⟨(h.maximal b hb).within x hx, h1.trans hx.1, Nat.lt_of_lt_of_le hx.2 h2⟩
  · rintro ⟨hx, h1, h2⟩
    exact h.covers x hx h1 h2

/-- No list of blocks that holds the numbers of `S` and no others is shorter than a tiling. -/
theorem Tiling.length_le {S : Set ℕ} {lo hi : ℕ} {bs cs : List DyadicBlock} (h : Tiling S lo hi bs)
    (hcs : ∀ x, (∃ c ∈ cs, c.Contains x) ↔ x ∈ S) : bs.length ≤ cs.length :=
  length_le_of_maximal h.maximal h.sorted (fun c hc x hx => (hcs x).mp ⟨c, hc, hx⟩)
    fun x hx => (hcs x).mpr hx

end DyadicBlock

end Adwarden.Lib
