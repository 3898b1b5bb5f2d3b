import Mathlib.Data.List.Sort
import Adwarden.Lib.Dyadic
import Adwarden.Rust.Ascii

/-! The IPv4 routes of the tunnel: the complement of a list of CIDR blocks. -/
namespace Adwarden.Vpn.TunRoutes

open Lib

structure Route where
  address : Str
  prefixLength : ℕ
deriving DecidableEq

/-- A CIDR block as an interval of addresses, both ends included. -/
structure Block where
  start : ℕ
  last : ℕ
deriving DecidableEq

inductive RouteError where
  | illegalArgument (message : Str)
  | numberFormat (text : Str)
  /-- An operation on `Long` left its range, or the numbers that the code takes it to yield. -/
  | overflow
  /-- A loop ran out of the iterations it was given. -/
  | diverges
deriving DecidableEq

def maxAddr : ℕ := 0xFFFFFFFF

def longAdd (a b : ℕ) : Except RouteError ℕ :=
  if a + b < 2 ^ 63 then .ok (a + b) else .error .overflow

def longSub (a b : ℕ) : Except RouteError ℕ := if b ≤ a then .ok (a - b) else .error .overflow

def longShl (a k : ℕ) : Except RouteError ℕ :=
  if k < 64 ∧ a <<< k < 2 ^ 63 then .ok (a <<< k) else .error .overflow

/-- `s + (1L shl size) - 1`. -/
def blockEnd (s size : ℕ) : Except RouteError ℕ := do
  longSub (← longAdd s (← longShl 1 size)) 1

/-- The zeros of the decimal digits in the Basic Multilingual Plane. -/
def decimalZeros : List ℕ :=
  [0x0030, 0x0660, 0x06F0, 0x07C0, 0x0966, 0x09E6, 0x0A66, 0x0AE6, 0x0B66, 0x0BE6, 0x0C66, 0x0CE6,
    0x0D66, 0x0DE6, 0x0E50, 0x0ED0, 0x0F20, 0x1040, 0x1090, 0x17E0, 0x1810, 0x1946, 0x19D0, 0x1A80,
    0x1A90, 0x1B50, 0x1BB0, 0x1C40, 0x1C50, 0xA620, 0xA8D0, 0xA900, 0xA9D0, 0xA9F0, 0xAA50, 0xABF0,
    0xFF10]

/-- `Character.digit(c, 10)`. -/
def charDigit (c : Char) : Option ℕ :=
  (decimalZeros.find? fun z => z ≤ c.toNat ∧ c.toNat < z + 10).map (c.toNat - ·)

def intDigits (s : Str) : Option ℕ :=
  if s = [] then none
  else s.foldl (fun acc c => do return (← acc) * 10 + (← charDigit c)) (some 0)

def signedInt : Str → Option ℤ
  | '-' :: s => (intDigits s).map fun n => -n
  | '+' :: s => (intDigits s).map fun n => n
  | s => (intDigits s).map fun n => n

/-- `s.toInt()`. -/
def toInt (s : Str) : Except RouteError ℤ :=
  match (signedInt s).filter fun z => -2 ^ 31 ≤ z ∧ z < 2 ^ 31 with
  | some z => .ok z
  | none => .error (.numberFormat s)

/-- An octet of `ipToLong`. -/
def pushOctet (addr : Str) (acc : ℕ) (p : Str) : Except RouteError ℕ := do
  let octet ← toInt p
  if ¬ (0 ≤ octet ∧ octet ≤ 255) then throw (.illegalArgument (Str.lit "bad octet in " ++ addr))
  return (← longShl acc 8) ||| octet.toNat

def ipToLong (addr : Str) : Except RouteError ℕ := do
  let parts := Str.split '.' addr
  if parts.length ≠ 4 then throw (.illegalArgument (Str.lit "not an IPv4 address: " ++ addr))
  parts.foldlM (pushOctet addr) 0

def prefixMask (p : ℕ) : Except RouteError ℕ :=
  if p = 0 then .ok 0 else do return (← longShl maxAddr (32 - p)) &&& maxAddr

def parseCidr (cidr : Str) : Except RouteError Block := do
  match Str.splitOnce '/' cidr with
  | none | some ([], _) => throw (.illegalArgument (Str.lit "not a CIDR: " ++ cidr))
  | some (addr, bits) =>
    let p ← toInt bits
    if ¬ (0 ≤ p ∧ p ≤ 32) then throw (.illegalArgument (Str.lit "bad prefix in " ++ cidr))
    let base := (← ipToLong addr) &&& (← prefixMask p.toNat)
    return ⟨base, ← blockEnd base (32 - p.toNat)⟩

def longToIp (v : ℕ) : Str :=
  Str.ofNat (v >>> 24 &&& 0xFF) ++ '.' :: Str.ofNat (v >>> 16 &&& 0xFF) ++
    '.' :: Str.ofNat (v >>> 8 &&& 0xFF) ++ '.' :: Str.ofNat (v &&& 0xFF)

def trailingZeros : ℕ → ℕ → ℕ
  | 0, _ => 0
  | n + 1, v => if v % 2 = 1 then 0 else trailingZeros n (v / 2) + 1

/-- `java.lang.Long.numberOfTrailingZeros(v)`. -/
def numberOfTrailingZeros (v : ℕ) : ℕ := trailingZeros 64 v

def alignBits (s : ℕ) : ℕ := if s = 0 then 32 else numberOfTrailingZeros s

/-- `while (size > 0 && s + (1L shl size) - 1 > end) size--`. -/
def shrink (s stop : ℕ) : ℕ → Except RouteError ℕ
  | 0 => .ok 0
  | size + 1 => do
    if stop < (← blockEnd s (size + 1)) then shrink s stop size
    else return size + 1

/-- The loop of `rangeToCidrs`, for at most the given number of tests of its condition. -/
def rangeLoop : ℕ → ℕ → ℕ → List Route → Except RouteError (List Route)
  | 0, _, _, _ => .error .diverges
  | n + 1, s, stop, out => do
    if s ≤ stop then
      let size ← shrink s stop (alignBits s)
      let out := out ++ [⟨longToIp s, ← longSub 32 size⟩]
      rangeLoop n (← longAdd s (← longShl 1 size)) stop out
    else return out

def rangeToCidrs (start stop : ℕ) : Except RouteError (List Route) :=
  rangeLoop (stop + 2 - start) start stop []

def mergeBlock (out : List Block) (b : Block) : Except RouteError (List Block) :=
  match out.getLast? with
  | some last => do
    if b.start ≤ (← longAdd last.last 1) then
      return out.dropLast ++ [⟨last.start, max last.last b.last⟩]
    else return out ++ [b]
  | none => .ok (out ++ [b])

def mergeBlocks (sorted : List Block) : Except RouteError (List Block) :=
  sorted.foldlM mergeBlock []

/-- The routes from the cursor to a hole. -/
def gapRoutes (cursor : ℕ) (hole : Block) : Except RouteError (List Route) :=
  if cursor < hole.start then do rangeToCidrs cursor (← longSub hole.start 1) else .ok []

/-- The loop of `complementRoutes`: the cursor and the routes it leaves. -/
def skipHoles : List Block → ℕ → List Route → Except RouteError (ℕ × List Route)
  | [], cursor, routes => .ok (cursor, routes)
  | hole :: merged, cursor, routes => do
    let routes := routes ++ (← gapRoutes cursor hole)
    let next ← longAdd hole.last 1
    let cursor := if cursor < next then next else cursor
    if maxAddr < cursor then return (cursor, routes)
    skipHoles merged cursor routes

/-- The routes after the last hole. -/
def lastRoutes (cursor : ℕ) (routes : List Route) : Except RouteError (List Route) :=
  if cursor ≤ maxAddr then do return routes ++ (← rangeToCidrs cursor maxAddr) else .ok routes

def complementRoutes (excluded : List Str) : Except RouteError (List Route) := do
  let blocks ← excluded.mapM parseCidr
  let merged ← mergeBlocks (blocks.insertionSort fun a b => a.start ≤ b.start)
  let (cursor, routes) ← skipHoles merged 0 []
  lastRoutes cursor routes

/-- `EXCLUDED_ROUTES`. -/
def excludedRoutes : List Str :=
  [Str.lit "10.0.0.0/8", Str.lit "172.16.0.0/12", Str.lit "192.168.0.0/16", Str.lit "224.0.0.0/3"]

theorem longAdd_of {a b : ℕ} (h : a + b < 2 ^ 63) : longAdd a b = .ok (a + b) := if_pos h

theorem longSub_of {a b : ℕ} (h : b ≤ a) : longSub a b = .ok (a - b) := if_pos h

theorem longShl_of {a k : ℕ} (hk : k < 64) (h : a * 2 ^ k < 2 ^ 63) :
    longShl a k = .ok (a * 2 ^ k) := by
  rw [longShl, Nat.shiftLeft_eq, if_pos ⟨hk, h⟩]

theorem two_pow_le_of_le {k : ℕ} (h : k ≤ 32) : 2 ^ k ≤ 2 ^ 32 :=
  Nat.pow_le_pow_right (by omega) h

theorem one_shl {k : ℕ} (h : k ≤ 32) : longShl 1 k = .ok (2 ^ k) := by
  have hp := two_pow_le_of_le h
  rw [longShl_of (by omega) (by omega), Nat.one_mul]

theorem blockEnd_of {s k : ℕ} (hs : s ≤ maxAddr) (hk : k ≤ 32) :
    blockEnd s k = .ok (s + 2 ^ k - 1) := by
  have hp := two_pow_le_of_le hk
  have hpos := Nat.two_pow_pos k
  unfold maxAddr at hs
  simp only [blockEnd, one_shl hk, bind, Except.bind]
  rw [longAdd_of (by omega)]
  exact longSub_of (by omega)

theorem trailingZeros_spec {n v : ℕ} (hpos : 0 < v) (hlt : v < 2 ^ n) :
    trailingZeros n v < n ∧ ∀ k, 2 ^ k ∣ v ↔ k ≤ trailingZeros n v := by
  induction n generalizing v with
  | zero => omega
  | succ n ih =>
    rw [trailingZeros]
    split_ifs with hodd
    · refine ⟨by omega, fun k => ⟨fun hk => ?_, fun hk => by simp [Nat.le_zero.mp hk]⟩⟩
      cases k with
      | zero => omega
      | succ k =>
        have : 2 ∣ v := Nat.dvd_trans ⟨2 ^ k, Nat.pow_succ'⟩ hk
        omega
    · have hv : v = 2 * (v / 2) := by omega
      obtain ⟨hb, hd⟩ := ih (v := v / 2) (by omega) (by rw [Nat.pow_succ] at hlt; omega)
      refine ⟨by omega, fun k => ?_⟩
      cases k with
      | zero => simp
      | succ k =>
        rw [hv, Nat.pow_succ', Nat.mul_dvd_mul_iff_left (by omega), hd,
          Nat.mul_div_cancel_left _ (by omega)]
        omega

/-- The size that the loop of `rangeToCidrs` starts to shrink from. -/
theorem alignBits_spec {s : ℕ} (hs : s ≤ maxAddr) :
    alignBits s ≤ 32 ∧ ∀ k, k ≤ 32 → (2 ^ k ∣ s ↔ k ≤ alignBits s) := by
  unfold maxAddr at hs
  unfold alignBits
  split_ifs with h0
  · rw [h0]
    exact ⟨le_rfl, fun k hk => ⟨fun _ => hk, fun _ => Nat.dvd_zero _⟩⟩
  · obtain ⟨-, hd⟩ := @trailingZeros_spec 64 s (by omega) (by omega)
    rw [numberOfTrailingZeros]
    refine ⟨?_, fun k _ => hd k⟩
    by_contra hlt
    have hdvd : 2 ^ 32 ∣ s := (hd 32).mpr (by omega)
    have := Nat.le_of_dvd (by omega) hdvd
    omega

theorem shrink_spec {s stop k : ℕ} (hs : s ≤ stop) (hstop : stop ≤ maxAddr) (hk : k ≤ 32) :
    ∃ size ≤ k, shrink s stop k = .ok size ∧ s + 2 ^ size ≤ stop + 1 ∧
      ∀ j ≤ k, s + 2 ^ j ≤ stop + 1 → j ≤ size := by
  induction k with
  | zero => exact ⟨0, le_rfl, rfl, by omega, fun j hj _ => hj⟩
  | succ k ih =>
    have hend := blockEnd_of (s := s) (k := k + 1) (by omega) hk
    have hpos := Nat.two_pow_pos (k + 1)
    simp only [shrink, hend, bind, Except.bind]
    split_ifs with hfit
    · obtain ⟨size, hle, he, hf, hmax⟩ := ih (by omega)
      refine ⟨size, by omega, he, hf, fun j hj hjf => ?_⟩
      rcases Nat.lt_or_eq_of_le hj with hj | rfl
      · exact hmax j (by omega) hjf
      · omega
    · exact ⟨k + 1, le_rfl, rfl, by omega, fun j hj _ => hj⟩

/-- The route of a block of addresses. -/
def blockRoute (b : DyadicBlock) : Route := ⟨longToIp b.base, 32 - b.size⟩

theorem rangeLoop_spec {n s stop : ℕ} (out : List Route) (hs : s ≤ stop + 1)
    (hstop : stop ≤ maxAddr) (hn : stop + 2 - s ≤ n) :
    ∃ bs, DyadicBlock.Greedy (stop + 1) s bs ∧
      rangeLoop n s stop out = .ok (out ++ bs.map blockRoute) := by
  induction n generalizing s out with
  | zero => omega
  | succ n ih =>
    rw [rangeLoop]
    split_ifs with hle
    · obtain ⟨halign, hdvd⟩ := @alignBits_spec s (by omega)
      obtain ⟨size, hsize, hshrink, hfit, hmax⟩ := shrink_spec hle hstop halign
      have hp := Nat.two_pow_pos size
      let b : DyadicBlock := ⟨s, size, (hdvd size (by omega)).mpr hsize⟩
      obtain ⟨bs, hg, hloop⟩ := ih (s := s + 2 ^ size) (out ++ [blockRoute b]) hfit (by omega)
      refine ⟨b :: bs, .cons (b := b) hfit (fun c hc hcs => ?_) hg, ?_⟩
      · have hc2 : s + 2 ^ c.size ≤ stop + 1 := by simpa only [DyadicBlock.stop, hc] using hcs
        have hc32 : c.size ≤ 32 := by
          by_contra hlt
          have := Nat.pow_le_pow_right (n := 2) (by omega) (by omega : 33 ≤ c.size)
          unfold maxAddr at hstop
          omega
        have hcd : 2 ^ c.size ∣ s := by simpa only [hc] using c.aligned
        exact hmax _ ((hdvd _ hc32).mp hcd) hc2
      · have hsub : longSub 32 size = .ok (32 - size) := longSub_of (by omega)
        have hadd : longAdd s (2 ^ size) = .ok (s + 2 ^ size) := by
          apply longAdd_of
          unfold maxAddr at hstop
          omega
        simp only [bind, Except.bind, hshrink, hsub, one_shl (hsize.trans halign), hadd]
        rw [List.append_assoc] at hloop
        exact hloop
    · obtain rfl : s = stop + 1 := by omega
      exact ⟨[], .nil, by simp [pure, Except.pure]⟩

theorem rangeToCidrs_spec {start stop : ℕ} (hs : start ≤ stop + 1) (hstop : stop ≤ maxAddr) :
    ∃ bs, DyadicBlock.Greedy (stop + 1) start bs ∧
      rangeToCidrs start stop = .ok (bs.map blockRoute) :=
  rangeLoop_spec [] hs hstop le_rfl

/-- An interval of addresses. -/
structure Block.Valid (b : Block) : Prop where
  start_le : b.start ≤ b.last
  last_le : b.last ≤ maxAddr

def Block.Contains (b : Block) (x : ℕ) : Prop := b.start ≤ x ∧ x ≤ b.last

/-- `out` holds the addresses of `bs`, in intervals that neither meet nor touch. -/
structure Merged (bs out : List Block) : Prop where
  valid : ∀ a ∈ out, a.Valid
  apart : out.Pairwise fun a b => a.last + 1 < b.start
  same : ∀ x, (∃ a ∈ out, a.Contains x) ↔ ∃ b ∈ bs, b.Contains x
  starts : ∀ a ∈ out, ∃ b ∈ bs, a.start = b.start

theorem Merged.push {bs out : List Block} {b : Block} (h : Merged bs out) (hb : b.Valid)
    (hfar : ∀ a ∈ out, a.last + 1 < b.start) : Merged (bs ++ [b]) (out ++ [b]) := by
  constructor
  · simpa [or_imp, forall_and] using ⟨h.valid, hb⟩
  · exact List.pairwise_append.mpr ⟨h.apart, List.pairwise_singleton _ _, by simpa using hfar⟩
  · intro x
    simp only [List.mem_append, or_and_right, exists_or, h.same]
  · intro a ha
    rcases List.mem_append.mp ha with ha | ha
    · obtain ⟨c, hc, he⟩ := h.starts a ha
      exact ⟨c, List.mem_append_left _ hc, he⟩
    · exact ⟨a, List.mem_append_right _ ha, rfl⟩

theorem Merged.extend {bs init : List Block} {last b : Block} (h : Merged bs (init ++ [last]))
    (hb : b.Valid) (hle : last.start ≤ b.start) (hnear : b.start ≤ last.last + 1) :
    Merged (bs ++ [b]) (init ++ [⟨last.start, max last.last b.last⟩]) := by
  have hlast := h.valid last (by simp)
  have h1 := hlast.start_le
  have h2 := hlast.last_le
  have h3 := hb.start_le
  have h4 := hb.last_le
  constructor
  · intro a ha
    rcases List.mem_append.mp ha with ha | ha
    · exact h.valid a (List.mem_append_left _ ha)
    · obtain rfl := List.mem_singleton.mp ha
      exact ⟨by dsimp only; omega, by dsimp only; omega⟩
  · obtain ⟨hi, -, hl⟩ := List.pairwise_append.mp h.apart
    exact List.pairwise_append.mpr ⟨hi, List.pairwise_singleton _ _, by simpa using hl⟩
  · intro x
    have hs := h.same x
    simp only [List.mem_append, List.mem_singleton, or_and_right, exists_or, exists_eq_left,
      Block.Contains] at hs ⊢
    rw [← hs, or_assoc]
    refine or_congr_right ?_
    omega
  · intro a ha
    rcases List.mem_append.mp ha with ha | ha
    · obtain ⟨c, hc, he⟩ := h.starts a (List.mem_append_left _ ha)
      exact ⟨c, List.mem_append_left _ hc, he⟩
    · obtain ⟨c, hc, he⟩ := h.starts last (by simp)
      obtain rfl := List.mem_singleton.mp ha
      exact ⟨c, List.mem_append_left _ hc, he⟩

theorem mergeBlock_spec {bs out : List Block} {b : Block} (h : Merged bs out) (hb : b.Valid)
    (hle : ∀ a ∈ bs, a.start ≤ b.start) :
    ∃ out', mergeBlock out b = .ok out' ∧ Merged (bs ++ [b]) out' := by
  rcases out.eq_nil_or_concat with rfl | ⟨init, last, rfl⟩
  · exact ⟨_, rfl, h.push hb (by simp)⟩
  · rw [List.concat_eq_append] at h ⊢
    have hv := h.valid last (by simp)
    have hs := hv.last_le
    unfold maxAddr at hs
    obtain ⟨c, hc, he⟩ := h.starts last (by simp)
    have hstart := hle c hc
    have hadd : longAdd last.last 1 = .ok (last.last + 1) := longAdd_of (by omega)
    simp only [mergeBlock, List.getLast?_concat, hadd, bind, Except.bind]
    split_ifs with hnear
    · refine ⟨_, rfl, ?_⟩
      rw [List.dropLast_concat]
      exact h.extend hb (by omega) hnear
    · refine ⟨_, rfl, h.push hb fun a ha => ?_⟩
      rcases List.mem_append.mp ha with ha | ha
      · have := (List.pairwise_append.mp h.apart).2.2 a ha last (by simp)
        have := hv.start_le
        omega
      · obtain rfl := List.mem_singleton.mp ha
        omega

theorem mergeBlocks_spec {bs : List Block} (hv : ∀ b ∈ bs, b.Valid)
    (hsort : bs.Pairwise fun a b => a.start ≤ b.start) :
    ∃ out, mergeBlocks bs = .ok out ∧ Merged bs out := by
  suffices ∀ done out, Merged done out → (∀ a ∈ done, ∀ b ∈ bs, a.start ≤ b.start) →
      ∃ out', bs.foldlM mergeBlock out = .ok out' ∧ Merged (done ++ bs) out' from
    this [] [] ⟨by simp, List.Pairwise.nil, by simp, by simp⟩ (by simp)
  induction bs with
  | nil => exact fun done out h _ => ⟨out, rfl, by simpa using h⟩
  | cons b bs ih =>
    intro done out h hle
    obtain ⟨hb, hrest⟩ := List.pairwise_cons.mp hsort
    obtain ⟨out1, he, h1⟩ := mergeBlock_spec h (hv b (by simp)) fun a ha => hle a ha b (by simp)
    obtain ⟨out2, hf, h2⟩ := ih (fun c hc => hv c (by simp [hc])) hrest (done ++ [b]) out1 h1
      fun a ha c hc => by
        rcases List.mem_append.mp ha with ha | ha
        · exact hle a ha c (by simp [hc])
        · exact List.mem_singleton.mp ha ▸ hb c hc
    refine ⟨out2, ?_, by simpa using h2⟩
    simpa only [List.foldlM_cons, he, bind, Except.bind] using hf

theorem gapRoutes_spec {S : Set ℕ} {cursor : ℕ} {hole : Block} (hv : hole.Valid)
    (hle : cursor ≤ hole.start) (hleft : cursor = 0 ∨ cursor - 1 ∉ S)
    (hin : ∀ x, cursor ≤ x → x < hole.start → x ∈ S) (hright : hole.start ∉ S) :
    ∃ bs, DyadicBlock.Tiling S cursor hole.start bs ∧
      gapRoutes cursor hole = .ok (bs.map blockRoute) := by
  have h1 := hv.start_le
  have h2 := hv.last_le
  unfold gapRoutes
  split_ifs with hlt
  · obtain ⟨bs, hg, he⟩ := @rangeToCidrs_spec cursor (hole.start - 1) (by omega) (by omega)
    rw [Nat.sub_add_cancel (by omega)] at hg
    refine ⟨bs, hg.tiling hin hleft hright, ?_⟩
    have hsub : longSub hole.start 1 = .ok (hole.start - 1) := longSub_of (by omega)
    simpa only [hsub, bind, Except.bind] using he
  · exact ⟨[], .nil (by omega), rfl⟩

theorem lastRoutes_spec {S : Set ℕ} {cursor : ℕ} (routes : List Route)
    (hle : cursor ≤ maxAddr + 1) (hleft : cursor = 0 ∨ cursor - 1 ∉ S)
    (hin : ∀ x, cursor ≤ x → (x ∈ S ↔ x ≤ maxAddr)) :
    ∃ bs, DyadicBlock.Tiling S cursor (maxAddr + 1) bs ∧
      lastRoutes cursor routes = .ok (routes ++ bs.map blockRoute) := by
  unfold lastRoutes
  split_ifs with hlt
  · obtain ⟨bs, hg, he⟩ := rangeToCidrs_spec hle le_rfl
    refine ⟨bs, hg.tiling (fun x h1 h2 => (hin x h1).mpr (by omega)) hleft fun h => ?_, ?_⟩
    · have := (hin (maxAddr + 1) hle).mp h
      omega
    · simp only [he, bind, Except.bind, pure, Except.pure]
  · exact ⟨[], .nil (by omega), by simp⟩

/-- The cursor goes over the holes in order. What is below it is routed or excluded. -/
theorem skipHoles_spec {S : Set ℕ} {holes : List Block} {cursor : ℕ} (routes : List Route)
    (hv : ∀ h ∈ holes, h.Valid) (hapart : holes.Pairwise fun a b => a.last + 1 < b.start)
    (hcursor : ∀ h ∈ holes, cursor ≤ h.start) (hle : cursor ≤ maxAddr + 1)
    (hleft : cursor = 0 ∨ cursor - 1 ∉ S)
    (hS : ∀ x, cursor ≤ x → (x ∈ S ↔ x ≤ maxAddr ∧ ∀ h ∈ holes, ¬ h.Contains x)) :
    ∃ bs, DyadicBlock.Tiling S cursor (maxAddr + 1) bs ∧
      (do let (cursor, routes) ← skipHoles holes cursor routes; lastRoutes cursor routes) =
        .ok (routes ++ bs.map blockRoute) := by
  induction holes generalizing cursor routes with
  | nil => exact lastRoutes_spec routes hle hleft (by simpa using hS)
  | cons hole holes ih =>
    obtain ⟨hfirst, hrest⟩ := List.pairwise_cons.mp hapart
    have hvh := hv hole (by simp)
    have h1 := hvh.start_le
    have h2 := hvh.last_le
    have hc := hcursor hole (by simp)
    have hbefore : ∀ x < hole.start, ∀ h ∈ hole :: holes, ¬ h.Contains x := by
      intro x hx h hm hcon
      have := hcon.1
      rcases List.mem_cons.mp hm with rfl | hm
      · omega
      · have := hfirst h hm
        omega
    have hout : ∀ x, hole.Contains x → x ∉ S := fun x hx hxs =>
      ((hS x (hc.trans hx.1)).mp hxs).2 hole (by simp) hx
    obtain ⟨gs, hgap, hge⟩ := gapRoutes_spec (S := S) hvh hc hleft
      (fun x hx hlt => (hS x hx).mpr ⟨by omega, hbefore x hlt⟩) (hout _ ⟨le_rfl, h1⟩)
    have hnone : DyadicBlock.Tiling S hole.start (hole.last + 1) [] :=
      .nil fun x hx hlt => hout x ⟨hx, by omega⟩
    have htile := hgap.append hnone hc (by omega)
    rw [List.append_nil] at htile
    have hadd : longAdd hole.last 1 = .ok (hole.last + 1) := by
      apply longAdd_of
      unfold maxAddr at h2
      omega
    simp only [skipHoles, hge, hadd, bind, Except.bind, if_pos (by omega : cursor < hole.last + 1)]
    split_ifs with hend
    · have hlast : hole.last = maxAddr := by omega
      rw [hlast] at htile
      exact ⟨gs, htile, by simp [lastRoutes, hlast, pure, Except.pure]⟩
    · obtain ⟨bs, htail, he⟩ := @ih (hole.last + 1) (routes ++ gs.map blockRoute)
        (fun h hm => hv h (by simp [hm])) hrest (fun h hm => (hfirst h hm).le) (by omega)
        (.inr (hout _ ⟨h1, by omega⟩)) fun x hx => by
          rw [hS x (by omega), List.forall_mem_cons]
          have : ¬ hole.Contains x := fun hcon => by
            have := hcon.2
            omega
          simp [this]
      refine ⟨gs ++ bs, htile.append htail (by omega) (by omega), ?_⟩
      simpa only [bind, Except.bind, List.map_append, List.append_assoc] using he

end Adwarden.Vpn.TunRoutes
