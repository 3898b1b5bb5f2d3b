import Adwarden.Core.Runtime
import Adwarden.Data.Stats

/-! What the batches of the datapath come to in the statistics of the app, once they are decoded. -/
namespace Adwarden.Data
open Adwarden.Net Adwarden.Core Adwarden.Core.NativeEventCodec

/-- What an event of the datapath counts as. -/
def eventTotals (e : Event) : Totals where
  packets := 1
  bytes := .ofNat e.length
  tcpPackets := if e.proto = protoCode .tcp then 1 else 0
  dnsQueries := if e.proto = protoCode .udp ∧ Forwarder.isDnsPort e.dstPort = true then 1 else 0
  blocked := if e.verdict = verdictBlock then 1 else 0
  domains _ := 0
  apps _ := 0

/-- What an aggregate counts as. -/
def coarseTotals (c : CoarseAccum) : Totals where
  packets := .ofNat c.packets
  bytes := .ofNat c.bytes
  tcpPackets := .ofNat c.tcp
  dnsQueries := .ofNat c.dns
  blocked := 0
  domains _ := 0
  apps _ := 0

/-- A plain event of a protocol, with a length that the app reads as such. -/
structure Countable (e : Event) : Prop where
  plain : e.kind ≠ kindCoarse
  proto : ∃ l4, e.proto = protoCode l4
  length : e.length < 2 ^ 31

variable (hostAddress : IpAddr → Str)

/-- Behind whatever comes next, a record is read as an event that counts as `t`. -/
def CountsAs (r : Record) (t : Totals) : Prop :=
  ∀ rest, ∃ c, readRecord hostAddress (r.encodeInto ++ rest) = some (c, rest) ∧
    (Totals.of [c]).counters = t

/-- Only the kind tells that a record is an aggregate. -/
theorem coarse_readRecord {buf rest : Bytes} {c : ConnectionEvent}
    (h : readRecord hostAddress buf = some (c, rest)) :
    c.coarse.isSome = ((getByte buf).1 == kindCoarse) := by
  unfold readRecord at h
  split at h
  · cases h
  · dsimp only at h
    split at h
    · cases h
    · by_cases hkind : (getByte buf).1 = kindCoarse
      · rw [if_pos hkind] at h
        obtain ⟨rfl, -⟩ := Prod.mk.inj (Option.some.inj h)
        rw [hkind]
        rfl
      · rw [if_neg hkind] at h
        obtain ⟨rfl, -⟩ := Prod.mk.inj (Option.some.inj h)
        rw [beq_false_of_ne hkind]
        rfl

theorem isDns_iff {e : Event} {c : ConnectionEvent} (hport : c.dstPort = e.dstPort.toNat)
    (hproto : ∀ l4, e.proto = protoCode l4 → c.proto = l4) (hl4 : ∃ l4, e.proto = protoCode l4) :
    isDns c = true ↔ e.proto = protoCode .udp ∧ Forwarder.isDnsPort e.dstPort = true := by
  obtain ⟨l4, hl4⟩ := hl4
  have hudp : c.proto = .udp ↔ e.proto = protoCode .udp := by
    rw [hproto l4 hl4, hl4]
    cases l4 <;> decide
  have hdns (n : UInt16) : e.dstPort.toNat = n.toNat ↔ e.dstPort = n := UInt16.toNat_inj
  have h53 := hdns 53
  have h5353 := hdns 5353
  simp only [isDns, Forwarder.isDnsPort, hport, Bool.and_eq_true, Bool.or_eq_true, decide_eq_true_eq,
    beq_iff_eq, hudp]
  rw [← h53, ← h5353]
  rfl

theorem countsAs_event {e : Event} (he : Countable e) (now : UInt64) :
    CountsAs hostAddress (e.record now) (eventTotals e) := by
  intro rest
  obtain ⟨c, hread, hagrees⟩ := readRecord_encodeInto hostAddress (e.record now) rest
  refine ⟨c, hread, ?_⟩
  have hnone : c.coarse = none := by
    have hc := coarse_readRecord hostAddress hread
    have hkind : (getByte ((e.record now).encodeInto ++ rest)).1 = e.kind := rfl
    rw [hkind, beq_eq_false_iff_ne.mpr he.plain] at hc
    exact Option.isSome_eq_false_iff.mp hc |> Option.isNone_iff_eq_none.mp
  have hlen : (e.record now).length = e.length := Nat.mod_eq_of_lt (by have := he.length; omega)
  have hlength : c.length = e.length := by
    rw [hagrees.length he.plain (by rw [hlen]; exact he.length), hlen]
  have hsame := hagrees.plain he.plain
  have hdns := isDns_iff (e := e) hsame.dstPort hsame.proto he.proto
  have htcp : c.proto = .tcp ↔ e.proto = protoCode .tcp := by
    obtain ⟨l4, hl4⟩ := he.proto
    rw [hsame.proto l4 hl4, hl4]
    cases l4 <;> decide
  have hblock : isBlock c = true ↔ e.verdict = verdictBlock := by
    simp only [isBlock, hnone, Option.isNone_none, Bool.true_and, decide_eq_true_eq]
    exact hsame.verdict
  ext
  · simp [Totals.of, Totals.counters, amount, hnone, eventTotals]
  · simp [Totals.of, Totals.counters, amount, hnone, eventTotals, hlength, Int64.ofInt_eq_ofNat]
  · simp [Totals.of, Totals.counters, amount, hnone, eventTotals, htcp]
  · simp [Totals.of, Totals.counters, amount, hnone, eventTotals, hdns]
  · simp [Totals.of, Totals.counters, eventTotals, hblock]
  · rfl
  · rfl

theorem ofInt_signed (n : ℕ) : Int64.ofInt (signed 8 (UInt64.ofNat n).toNat) = .ofNat n := by
  apply Int64.toInt_inj.mp
  have hsize : (Int64.size : ℕ) = 2 ^ 64 := rfl
  rw [Int64.toInt_ofInt, signed, UInt64.toNat_ofNat', Int64.toInt_ofNat', hsize, Int.bmod_bmod,
    Int.natCast_mod]
  exact Int.emod_bmod ..

/-- Fewer packets than the counters of a record hold, and none counted twice for a protocol. -/
structure Fits (c : CoarseAccum) : Prop where
  packets : c.packets < 2 ^ 32
  tcp : c.tcp ≤ c.packets
  udp : c.udp ≤ c.packets
  dns : c.dns ≤ c.packets

theorem countsAs_coarse {c : CoarseAccum} (h : Fits c) (now : UInt64) :
    let cap (v : ℕ) : UInt32 := .ofNat (min v (2 ^ 32 - 1))
    CountsAs hostAddress (.coarse (cap c.packets) (.ofNat c.bytes) (cap c.tcp) (cap c.udp)
      (cap c.dns) now) (coarseTotals c) := by
  intro cap rest
  have hcap {v : ℕ} (hv : v ≤ c.packets) : (cap v).toNat = v := by
    have hp := h.packets
    rw [UInt32.toNat_ofNat']
    omega
  obtain ⟨e, hread, hagrees⟩ := readRecord_encodeInto hostAddress
    (.coarse (cap c.packets) (.ofNat c.bytes) (cap c.tcp) (cap c.udp) (cap c.dns) now) rest
  have hcounts := (hagrees.aggregate _ _ _ _ _ _ rfl).2
  refine ⟨e, hread, ?_⟩
  ext
  · simp [Totals.of, Totals.counters, amount, hcounts, coarseTotals, hcap (Nat.le_refl _),
      Int64.ofInt_eq_ofNat]
  · simp only [Totals.of, Totals.counters, amount, hcounts, coarseTotals, List.map_cons,
      List.map_nil, List.sum_cons, List.sum_nil, ofInt_signed, add_zero]
  · simp [Totals.of, Totals.counters, amount, hcounts, coarseTotals, hcap h.tcp,
      Int64.ofInt_eq_ofNat]
  · simp [Totals.of, Totals.counters, amount, hcounts, coarseTotals, hcap h.dns,
      Int64.ofInt_eq_ofNat]
  · simp [Totals.of, Totals.counters, isBlock, hcounts, coarseTotals]
  · rfl
  · rfl

theorem totals_readRecords {rs : List Record} {ts : List Totals}
    (h : List.Forall₂ (CountsAs hostAddress) rs ts) :
    (Totals.of (readRecords hostAddress rs.length (rs.flatMap Record.encodeInto))).counters =
      ts.sum := by
  induction h with
  | nil => rfl
  | @cons r t rs ts hr _ ih =>
    obtain ⟨c, hread, hc⟩ := hr (rs.flatMap Record.encodeInto)
    have hcons := Totals.of_append [c]
      (readRecords hostAddress rs.length (rs.flatMap Record.encodeInto))
    rw [List.singleton_append] at hcons
    rw [List.length_cons, List.flatMap_cons, readRecords, hread]
    dsimp only
    rw [hcons, Totals.counters_add, hc, ih, List.sum_cons]

/-- A batch that fits a byte array is read record by record. -/
theorem decode_encoded {rs : List Record} (hne : rs ≠ [])
    (hfit : (leBytes 4 rs.length ++ rs.flatMap Record.encodeInto).length < 2 ^ 31) :
    NativeEventCodec.decode hostAddress (leBytes 4 rs.length ++ rs.flatMap Record.encodeInto) =
      readRecords hostAddress rs.length (rs.flatMap Record.encodeInto) := by
  have hle := length_le_flatMap rs
  have hpos := List.length_pos_iff.mpr hne
  rw [List.length_append, leBytes_length] at hfit
  have hcount : signed 4 (rs.length % 256 ^ 4) = rs.length := by
    rw [Nat.mod_eq_of_lt (by omega), signed_of_lt (by omega)]
  rw [NativeEventCodec.decode, if_neg (by simp), getUnsigned_leBytes]
  dsimp only
  rw [hcount, if_neg (by omega), Int.toNat_natCast]

/-- What the app makes of the batch is what its records count as. -/
theorem totals_drainEncoded {rs : List Record} {ts : List Totals}
    (h : List.Forall₂ (CountsAs hostAddress) rs ts)
    (hfit : ∀ blob, (Batcher.drainEncoded ⟨rs⟩).1 = some blob → blob.length < 2 ^ 31) :
    (Totals.of ((Batcher.drainEncoded ⟨rs⟩).1.toList.flatMap (NativeEventCodec.decode hostAddress))).counters =
      ts.sum := by
  by_cases hne : rs = []
  · subst hne
    obtain rfl := List.forall₂_nil_left_iff.mp h
    rfl
  · have hblob : (Batcher.drainEncoded ⟨rs⟩).1 =
        some (leBytes 4 rs.length ++ rs.flatMap Record.encodeInto) := by
      rw [Batcher.drainEncoded, if_neg hne]
    rw [hblob, Option.toList_some, List.flatMap_singleton, decode_encoded hostAddress hne
      (hfit _ hblob)]
    exact totals_readRecords hostAddress h

end Adwarden.Data
