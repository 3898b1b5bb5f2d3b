import Adwarden.Vpn.TunRoutes

/-! The texts of CIDR blocks, and the routes that cover what a list of them leaves. -/
namespace Adwarden.Vpn.TunRoutes

open Lib Str

/-- An IPv4 CIDR block. Bits of the address below the prefix may be set. -/
structure Cidr where
  a : ℕ
  b : ℕ
  c : ℕ
  d : ℕ
  prefixLength : ℕ
  octets_lt : a < 256 ∧ b < 256 ∧ c < 256 ∧ d < 256
  length_le : prefixLength ≤ 32
deriving DecidableEq

namespace Cidr

def address (k : Cidr) : ℕ := ((k.a * 256 + k.b) * 256 + k.c) * 256 + k.d

/-- The number of bits below the prefix. -/
def size (k : Cidr) : ℕ := 32 - k.prefixLength

/-- The addresses that share the prefix. -/
def Contains (k : Cidr) (x : ℕ) : Prop := x / 2 ^ k.size = k.address / 2 ^ k.size

def dotted (k : Cidr) : Str :=
  ofNat k.a ++ '.' :: ofNat k.b ++ '.' :: ofNat k.c ++ '.' :: ofNat k.d

def route (k : Cidr) : Route := ⟨k.dotted, k.prefixLength⟩

def text (k : Cidr) : Str := k.dotted ++ '/' :: ofNat k.prefixLength

def dyadic (k : Cidr) : DyadicBlock :=
  ⟨k.address / 2 ^ k.size * 2 ^ k.size, k.size, Nat.dvd_mul_left ..⟩

def block (k : Cidr) : Block := ⟨k.dyadic.base, k.dyadic.stop - 1⟩

end Cidr

/-- Decimal digits, leading zeros or not. -/
structure Numeral (n : ℕ) (s : Str) : Prop where
  digits : IsDigits 10 s
  value : digitsValue 10 s = n

/-- A text `a.b.c.d/p` of a block. -/
inductive Spells (k : Cidr) : Str → Prop
  | mk {a b c d p : Str} (ha : Numeral k.a a) (hb : Numeral k.b b) (hc : Numeral k.c c)
      (hd : Numeral k.d d) (hp : Numeral k.prefixLength p) :
      Spells k (a ++ '.' :: b ++ '.' :: c ++ '.' :: d ++ '/' :: p)

theorem Numeral.ofNat (n : ℕ) : Numeral n (ofNat n) :=
  ⟨toDigits_isDigits (by omega) (by omega) n, (toDigits_digits (by omega) (by omega) n).2⟩

theorem Cidr.spells_text (k : Cidr) : Spells k k.text :=
  .mk (.ofNat _) (.ofNat _) (.ofNat _) (.ofNat _) (.ofNat _)

theorem Cidr.address_le (k : Cidr) : k.address ≤ maxAddr := by
  obtain ⟨ha, hb, hc, hd⟩ := k.octets_lt
  unfold address maxAddr
  omega

theorem Cidr.size_le (k : Cidr) : k.size ≤ 32 := Nat.sub_le ..

theorem Cidr.contains_iff (k : Cidr) (x : ℕ) : k.Contains x ↔ k.dyadic.Contains x := by
  rw [Contains, Nat.div_eq_iff (Nat.two_pow_pos _), DyadicBlock.Contains, DyadicBlock.stop, dyadic]
  have := Nat.two_pow_pos k.size
  dsimp only
  omega

theorem Cidr.stop_le (k : Cidr) : k.dyadic.stop ≤ maxAddr + 1 := by
  apply Nat.le_of_lt_add_of_dvd _ k.dyadic.dvd_stop (Nat.pow_dvd_pow 2 k.size_le)
  have h1 := k.address_le
  have h2 := Nat.div_mul_le_self k.address (2 ^ k.size)
  unfold maxAddr at h1
  change k.address / 2 ^ k.size * 2 ^ k.size + 2 ^ k.size < 2 ^ 32 + 2 ^ k.size
  omega

theorem Cidr.block_valid (k : Cidr) : k.block.Valid := by
  have h1 := k.dyadic.base_lt_stop
  have h2 := k.stop_le
  constructor
  · change k.dyadic.base ≤ k.dyadic.stop - 1
    omega
  · change k.dyadic.stop - 1 ≤ maxAddr
    omega

theorem Cidr.block_contains (k : Cidr) (x : ℕ) : k.block.Contains x ↔ k.Contains x := by
  have h1 := k.dyadic.base_lt_stop
  rw [contains_iff]
  change k.dyadic.base ≤ x ∧ x ≤ k.dyadic.stop - 1 ↔ k.dyadic.base ≤ x ∧ x < k.dyadic.stop
  omega

theorem charDigit_of {c : Char} {n : ℕ} (h : digitVal c = some n) (hn : n < 10) :
    charDigit c = some n := by
  have hc : 48 ≤ c.toNat ∧ c.toNat < 48 + 10 ∧ c.toNat - 48 = n := by
    simp only [digitVal] at h
    split_ifs at h <;> obtain rfl := Option.some.inj h <;> omega
  simp [charDigit, decimalZeros, hc]

theorem intDigits_of {s : Str} (h : IsDigits 10 s) : intDigits s = some (digitsValue 10 s) := by
  rw [intDigits, if_neg h.nonempty, digitsValue]
  suffices ∀ n, s.foldl (fun acc c => do return (← acc) * 10 + (← charDigit c)) (some n) =
      some (s.foldl (fun n c => n * 10 + (digitVal c).getD 0) n) from this 0
  have hd := h.digits
  clear h
  induction s with
  | nil => exact fun n => rfl
  | cons c s ih =>
    intro n
    obtain ⟨d, hd1, hlt⟩ := hd c (by simp)
    simp only [List.foldl_cons, hd1, charDigit_of hd1 hlt, Option.getD_some]
    exact ih (fun c hc => hd c (by simp [hc])) _

theorem toInt_of {n : ℕ} {s : Str} (h : Numeral n s) (hn : n < 2 ^ 31) : toInt s = .ok (n : ℤ) := by
  have hs : signedInt s = some (n : ℤ) := by
    unfold signedInt
    split
    · obtain ⟨d, hd, -⟩ := h.digits.digits '-' (by simp)
      cases hd
    · obtain ⟨d, hd, -⟩ := h.digits.digits '+' (by simp)
      cases hd
    · rw [intDigits_of h.digits, h.value]
      rfl
  have hr : -2 ^ 31 ≤ (n : ℤ) ∧ (n : ℤ) < 2 ^ 31 := by omega
  rw [toInt, hs, Option.filter_some, if_pos (by simpa using hr)]

theorem Numeral.not_mem {n : ℕ} {s : Str} (h : Numeral n s) {x : Char} (hx : digitVal x = none) :
    x ∉ s := by
  intro hm
  obtain ⟨d, hd, -⟩ := h.digits.digits x hm
  rw [hx] at hd
  cases hd

theorem splitOnce_slash {k : Cidr} {a b c d : Str} (ha : Numeral k.a a) (hb : Numeral k.b b)
    (hc : Numeral k.c c) (hd : Numeral k.d d) (p : Str) :
    splitOnce '/' (a ++ '.' :: b ++ '.' :: c ++ '.' :: d ++ '/' :: p) =
      some (a ++ '.' :: b ++ '.' :: c ++ '.' :: d, p) := by
  apply splitOnce_append
  have hn : digitVal '/' = none := rfl
  simp [ha.not_mem hn, hb.not_mem hn, hc.not_mem hn, hd.not_mem hn]

theorem split_dots {k : Cidr} {a b c d : Str} (ha : Numeral k.a a) (hb : Numeral k.b b)
    (hc : Numeral k.c c) (hd : Numeral k.d d) :
    split '.' (a ++ '.' :: b ++ '.' :: c ++ '.' :: d) = [a, b, c, d] := by
  have hn : digitVal '.' = none := rfl
  simp only [List.append_assoc, List.cons_append]
  rw [split_append (ha.not_mem hn), split_append (hb.not_mem hn), split_append (hc.not_mem hn),
    split_of_not_mem (hd.not_mem hn)]

theorem pushOctet_of {addr p : Str} {acc n : ℕ} (ha : acc < 2 ^ 24) (h : Numeral n p)
    (hn : n < 256) : pushOctet addr acc p = .ok (acc * 256 + n) := by
  have hor := Nat.shiftLeft_add_eq_or_of_lt (i := 8) hn acc
  rw [Nat.shiftLeft_eq] at hor
  have hrange : ¬ ¬ ((0 : ℤ) ≤ n ∧ (n : ℤ) ≤ 255) := by omega
  simp only [pushOctet, toInt_of h (by omega), bind, Except.bind, if_neg hrange]
  rw [longShl_of (by omega) (by omega), Int.toNat_natCast]
  exact congrArg Except.ok hor.symm

theorem ipToLong_of {k : Cidr} {a b c d : Str} (ha : Numeral k.a a) (hb : Numeral k.b b)
    (hc : Numeral k.c c) (hd : Numeral k.d d) :
    ipToLong (a ++ '.' :: b ++ '.' :: c ++ '.' :: d) = .ok k.address := by
  obtain ⟨h1, h2, h3, h4⟩ := k.octets_lt
  have hlen : ¬ [a, b, c, d].length ≠ 4 := by simp
  simp only [ipToLong, split_dots ha hb hc hd, if_neg hlen, List.foldlM_cons, List.foldlM_nil]
  simp only [pushOctet_of (by omega : 0 < 2 ^ 24) ha h1,
    pushOctet_of (by omega : 0 * 256 + k.a < 2 ^ 24) hb h2,
    pushOctet_of (by omega : (0 * 256 + k.a) * 256 + k.b < 2 ^ 24) hc h3,
    pushOctet_of (by omega : ((0 * 256 + k.a) * 256 + k.b) * 256 + k.c < 2 ^ 24) hd h4,
    bind, Except.bind, pure, Except.pure]
  rw [Cidr.address, Nat.zero_mul, Nat.zero_add]

/-- Masking with a prefix clears the bits below it. -/
theorem and_prefixMask {x p : ℕ} (hx : x ≤ maxAddr) (hp : p ≤ 32) :
    ∃ mask, prefixMask p = .ok mask ∧ x &&& mask = x / 2 ^ (32 - p) * 2 ^ (32 - p) := by
  unfold prefixMask
  split_ifs with h0
  · unfold maxAddr at hx
    refine ⟨0, rfl, ?_⟩
    rw [Nat.and_zero, h0, Nat.div_eq_of_lt (by omega), Nat.zero_mul]
  · have hpow : 2 ^ (32 - p) ≤ 2 ^ 31 := Nat.pow_le_pow_right (by omega) (by omega)
    have hshl := @longShl_of maxAddr (32 - p) (by omega) (by unfold maxAddr; omega)
    refine ⟨_, by rw [hshl]; rfl, ?_⟩
    have hm : maxAddr = 2 ^ 32 - 1 := rfl
    rw [hm] at hx ⊢
    rw [← Nat.shiftLeft_eq, ← Nat.shiftRight_eq_div_pow, ← Nat.shiftLeft_eq]
    apply Nat.eq_of_testBit_eq
    intro i
    simp only [Nat.testBit_and, Nat.testBit_shiftLeft, Nat.testBit_two_pow_sub_one,
      Nat.testBit_shiftRight]
    by_cases hi : 32 - p ≤ i
    · rw [Nat.add_sub_cancel' hi]
      by_cases h32 : i < 32
      · have : i - (32 - p) < 32 := by omega
        simp [hi, h32, this]
      · have : x.testBit i = false := by
          apply Nat.testBit_lt_two_pow
          have := Nat.pow_le_pow_right (n := 2) (by omega) (by omega : 32 ≤ i)
          omega
        simp [this]
    · simp [hi]

theorem parseCidr_of {k : Cidr} {text : Str} (h : Spells k text) :
    parseCidr text = .ok k.block := by
  obtain ⟨ha, hb, hc, hd, hp⟩ := h
  rename_i a b c d p
  have hlen := k.length_le
  obtain ⟨mask, hmask, hand⟩ := and_prefixMask k.address_le hlen
  have hend : blockEnd k.dyadic.base k.size = .ok (k.dyadic.stop - 1) := by
    apply blockEnd_of _ k.size_le
    have := k.dyadic.base_lt_stop
    have := k.stop_le
    omega
  have hbase : k.address &&& mask = k.dyadic.base := hand
  have hsize : 32 - k.prefixLength = k.size := rfl
  have hrange : ¬ ¬ ((0 : ℤ) ≤ k.prefixLength ∧ (k.prefixLength : ℤ) ≤ 32) := by omega
  have hne : a ++ '.' :: b ++ '.' :: c ++ '.' :: d ≠ [] := by simp
  have hip := ipToLong_of ha hb hc hd
  unfold parseCidr
  rw [splitOnce_slash ha hb hc hd]
  split
  · next he => cases he
  · next he => exact absurd (congrArg Prod.fst (Option.some.inj he)) hne
  · next he =>
    obtain ⟨rfl, rfl⟩ := Prod.mk.inj (Option.some.inj he)
    simp only [toInt_of hp (by omega), bind, Except.bind, if_neg hrange, hip, Int.toNat_natCast,
      hmask, hbase, hsize, hend]
    rfl

theorem mapM_parseCidr {excluded : List Str} {holes : List Cidr}
    (h : List.Forall₂ Spells holes excluded) :
    excluded.mapM parseCidr = .ok (holes.map Cidr.block) := by
  induction h with
  | nil => rfl
  | cons hk _ ih =>
    simp only [List.mapM_cons, parseCidr_of hk, ih, bind, Except.bind]
    rfl

/-- The block whose addresses are those of `b`. -/
def cidrOf (b : DyadicBlock) : Cidr where
  a := b.base / 2 ^ 24 % 256
  b := b.base / 2 ^ 16 % 256
  c := b.base / 2 ^ 8 % 256
  d := b.base % 256
  prefixLength := 32 - b.size
  octets_lt := by omega
  length_le := Nat.sub_le ..

theorem longToIp_eq (b : DyadicBlock) : longToIp b.base = (cidrOf b).dotted := by
  have h255 (x : ℕ) : x &&& 0xFF = x % 256 := Nat.and_two_pow_sub_one_eq_mod x 8
  simp only [longToIp, h255, Nat.shiftRight_eq_div_pow]
  rfl

theorem blockRoute_eq (b : DyadicBlock) : blockRoute b = (cidrOf b).route := by
  rw [blockRoute, longToIp_eq]
  rfl

theorem cidrOf_address {b : DyadicBlock} (h : b.stop ≤ maxAddr + 1) :
    (cidrOf b).address = b.base := by
  have := b.base_lt_stop
  unfold maxAddr at h
  simp only [cidrOf, Cidr.address]
  omega

theorem cidrOf_size {b : DyadicBlock} (h : b.stop ≤ maxAddr + 1) : (cidrOf b).size = b.size := by
  have hs : b.size ≤ 32 := by
    by_contra hlt
    have := Nat.pow_le_pow_right (n := 2) (by omega) (by omega : 33 ≤ b.size)
    unfold DyadicBlock.stop maxAddr at h
    omega
  change 32 - (32 - b.size) = b.size
  omega

theorem cidrOf_contains {b : DyadicBlock} (h : b.stop ≤ maxAddr + 1) (x : ℕ) :
    (cidrOf b).Contains x ↔ b.Contains x := by
  have hd : (cidrOf b).dyadic = b := by
    apply DyadicBlock.ext
    · change (cidrOf b).address / 2 ^ (cidrOf b).size * 2 ^ (cidrOf b).size = b.base
      rw [cidrOf_address h, cidrOf_size h, Nat.div_mul_cancel b.aligned]
    · exact cidrOf_size h
  rw [Cidr.contains_iff, hd]

/-- The addresses in no hole, in aligned blocks, in order and as few as possible. -/
structure Complement (holes blocks : List Cidr) : Prop where
  aligned : ∀ b ∈ blocks, 2 ^ b.size ∣ b.address
  sorted : blocks.Pairwise fun a b => a.address < b.address
  disjoint : blocks.Pairwise fun a b => ∀ x, a.Contains x → ¬ b.Contains x
  covers : ∀ x, (∃ b ∈ blocks, b.Contains x) ↔ x ≤ maxAddr ∧ ∀ h ∈ holes, ¬ h.Contains x
  fewest : ∀ others : List Cidr,
    (∀ x, (∃ c ∈ others, c.Contains x) ↔ ∃ b ∈ blocks, b.Contains x) →
      blocks.length ≤ others.length

theorem exists_cidrOf {bs : List DyadicBlock} (h : ∀ b ∈ bs, b.stop ≤ maxAddr + 1) (x : ℕ) :
    (∃ k ∈ bs.map cidrOf, k.Contains x) ↔ ∃ b ∈ bs, b.Contains x := by
  simp only [List.mem_map, exists_exists_and_eq_and]
  exact exists_congr fun b => and_congr_right fun hb => cidrOf_contains (h b hb) x

theorem Complement.of_tiling {holes : List Cidr} {bs : List DyadicBlock}
    (h : DyadicBlock.Tiling {x | x ≤ maxAddr ∧ ∀ h ∈ holes, ¬ h.Contains x} 0 (maxAddr + 1) bs) :
    Complement holes (bs.map cidrOf) := by
  have hstop : ∀ b ∈ bs, b.stop ≤ maxAddr + 1 := fun b hb => (h.bounds b hb).2
  have hcovers := exists_cidrOf hstop
  constructor
  · intro k hk
    obtain ⟨b, hb, rfl⟩ := List.mem_map.mp hk
    rw [cidrOf_address (hstop b hb), cidrOf_size (hstop b hb)]
    exact b.aligned
  · rw [List.pairwise_map]
    refine h.sorted.imp_of_mem fun {a b} ha hb hab => ?_
    rw [cidrOf_address (hstop a ha), cidrOf_address (hstop b hb)]
    exact a.base_lt_stop.trans_le hab
  · rw [List.pairwise_map]
    refine h.sorted.imp_of_mem fun {a b} ha hb hab x hxa hxb => ?_
    have h1 := ((cidrOf_contains (hstop a ha) x).mp hxa).2
    have h2 := ((cidrOf_contains (hstop b hb) x).mp hxb).1
    omega
  · intro x
    rw [hcovers, h.mem_iff]
    exact ⟨fun hx => hx.1, fun hx => ⟨hx, Nat.zero_le x, Nat.lt_succ_of_le hx.1⟩⟩
  · intro others hothers
    have hlen : bs.length ≤ (others.map Cidr.dyadic).length := by
      refine h.length_le fun x => ?_
      have hx : (∃ c ∈ others.map Cidr.dyadic, c.Contains x) ↔ ∃ c ∈ others, c.Contains x := by
        simp only [List.mem_map, exists_exists_and_eq_and, Cidr.contains_iff]
      rw [hx, hothers, hcovers, h.mem_iff]
      exact ⟨fun hx => hx.1, fun hx => ⟨hx, Nat.zero_le x, Nat.lt_succ_of_le hx.1⟩⟩
    simpa only [List.length_map] using hlen

/-- The routes cover what a list of CIDR texts leaves, exactly and with the fewest blocks. -/
theorem complementRoutes_complement {excluded : List Str} {holes : List Cidr}
    (h : List.Forall₂ Spells holes excluded) :
    ∃ blocks, complementRoutes excluded = .ok (blocks.map Cidr.route) ∧
      Complement holes blocks := by
  let sorted := (holes.map Cidr.block).insertionSort fun a b => a.start ≤ b.start
  have hmem : ∀ b, b ∈ sorted ↔ ∃ k ∈ holes, k.block = b := fun b =>
    (List.mem_insertionSort _).trans List.mem_map
  obtain ⟨merged, hmerge, hm⟩ := @mergeBlocks_spec sorted
    (fun b hb => by
      obtain ⟨k, -, rfl⟩ := (hmem b).mp hb
      exact k.block_valid)
    (List.pairwise_insertionSort _ _)
  have hsame : ∀ x, (∀ b ∈ merged, ¬ b.Contains x) ↔ ∀ k ∈ holes, ¬ k.Contains x := by
    intro x
    have hs := hm.same x
    simp only [hmem, exists_exists_and_eq_and, Cidr.block_contains] at hs
    simpa using not_congr hs
  obtain ⟨bs, htile, hwalk⟩ := @skipHoles_spec {x | x ≤ maxAddr ∧ ∀ k ∈ holes, ¬ k.Contains x}
    merged 0 [] hm.valid hm.apart (fun _ _ => Nat.zero_le _) (Nat.zero_le _) (.inl rfl)
    fun x _ => by rw [Set.mem_ofPred_eq, hsame]
  refine ⟨bs.map cidrOf, ?_, .of_tiling htile⟩
  have hroutes : bs.map blockRoute = (bs.map cidrOf).map Cidr.route := by
    rw [List.map_map]
    exact List.map_congr_left fun b _ => blockRoute_eq b
  rw [← hroutes]
  simp only [complementRoutes, mapM_parseCidr h, bind, Except.bind]
  rw [hmerge]
  exact hwalk

/-- The private and the multicast blocks. -/
def excludedBlocks : List Cidr :=
  [⟨10, 0, 0, 0, 8, by omega, by omega⟩, ⟨172, 16, 0, 0, 12, by omega, by omega⟩,
    ⟨192, 168, 0, 0, 16, by omega, by omega⟩, ⟨224, 0, 0, 0, 3, by omega, by omega⟩]

theorem excludedRoutes_eq : excludedRoutes = excludedBlocks.map Cidr.text := by decide

theorem complementRoutes_complement_lan :
    ∃ blocks, complementRoutes excludedRoutes = .ok (blocks.map Cidr.route) ∧
      Complement excludedBlocks blocks := by
  apply complementRoutes_complement
  rw [excludedRoutes_eq, List.forall₂_map_right_iff]
  exact List.forall₂_same.mpr fun k _ => k.spells_text

end Adwarden.Vpn.TunRoutes
