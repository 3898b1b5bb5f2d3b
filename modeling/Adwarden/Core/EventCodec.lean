import Adwarden.Core.Event
import Adwarden.Rust.Utf8
import Adwarden.Rust.Word

/-! The batches of events: what `encode_into` and `drain_encoded` of the core write, and what
`NativeEventCodec.decode` of the app reads. -/
namespace Adwarden.Core
open Adwarden.Net

def kindCoarse : UInt8 := 3

/-- An event as the batcher holds it: stamped, its fields in the ranges of their types. -/
structure Record extends Event where
  timestampMs : UInt64
  uid_range : -2 ^ 31 ≤ uid ∧ uid < 2 ^ 31
  length_lt : length < 2 ^ 32
  src_length : src.length = 16
  dst_length : dst.length = 16

namespace Record

/-- `Event::coarse`, the counters in the place of the addresses. -/
def coarse (packets : UInt32) (bytes : UInt64) (tcp udp dns : UInt32) (now : UInt64) : Record where
  kind := kindCoarse
  ipVersion := 0
  proto := protoCode .other
  verdict := verdictAllow
  uid := -1
  srcPort := 0
  dstPort := 0
  length := 0
  src := leBytes 4 packets.toNat ++ leBytes 4 tcp.toNat ++ leBytes 4 udp.toNat ++ leBytes 4 dns.toNat
  dst := leBytes 8 bytes.toNat ++ List.replicate 8 0
  domain := none
  timestampMs := now
  uid_range := by decide
  length_lt := by decide
  src_length := by simp
  dst_length := by simp

/-- The domain field of a record, its length in front and cut at `u16::MAX` bytes. -/
def encodeDomain : Option Str → Bytes
  | some d =>
    let bytes := Str.toBytes d
    let len := min bytes.length (2 ^ 16 - 1)
    leBytes 2 len ++ bytes.take len
  | none => leBytes 2 0

def encodeInto (e : Record) : Bytes :=
  [e.kind, e.ipVersion, e.proto, e.verdict] ++ leBytes 4 (e.uid % 2 ^ 32).toNat ++
    leBytes 2 e.srcPort.toNat ++ leBytes 2 e.dstPort.toNat ++ leBytes 4 e.length ++
    leBytes 8 e.timestampMs.toNat ++ e.src ++ e.dst ++ encodeDomain e.domain

end Record

structure Batcher where
  events : List Record

namespace Batcher

def push (b : Batcher) (e : Record) : Batcher := ⟨b.events ++ [e]⟩

/-- Encode and clear. -/
def drainEncoded (b : Batcher) : Option Bytes × Batcher :=
  if b.events = [] then (none, b)
  else (some (leBytes 4 b.events.length ++ b.events.flatMap Record.encodeInto), ⟨[]⟩)

end Batcher

namespace NativeEventCodec

structure CoarseCounts where
  packets : ℤ
  bytes : ℤ
  tcpPackets : ℤ
  udpPackets : ℤ
  dnsQueries : ℤ
deriving DecidableEq

inductive Verdict where
  | allow
  | block
deriving DecidableEq

structure ConnectionEvent where
  id : ℤ
  timestampMs : ℤ
  ipVersion : ℕ
  proto : L4
  srcIp : Str
  srcPort : ℕ
  dstIp : Str
  dstPort : ℕ
  length : ℤ
  uid : Option ℤ := none
  verdict : Verdict := .allow
  blockedDomain : Option Str := none
  tlsPinned : Bool := false
  host : Option Str := none
  coarse : Option CoarseCounts := none
deriving DecidableEq

def fixedLen : ℕ := 4 + 4 + 4 + 4 + 8 + 16 + 16 + 2

/-- `buf.get()`; the fixed part of a record is there when it is read. -/
def getByte : Bytes → UInt8 × Bytes
  | [] => (0, [])
  | b :: rest => (b, rest)

/-- `buf.get(it)` of an array of `n` bytes. -/
def getArray (n : ℕ) (buf : Bytes) : Bytes × Bytes := (buf.take n, buf.drop n)

/-- The unsigned value of the next `n` bytes. -/
def getUnsigned (n : ℕ) (buf : Bytes) : ℕ × Bytes := (leNat (buf.take n), buf.drop n)

/-- A value of `8 * n` bits as two's complement. -/
def signed (n : ℕ) (v : ℕ) : ℤ := (v : ℤ).bmod (2 ^ (8 * n))

def protoOf (code : UInt8) : L4 :=
  if code = 0 then .tcp else if code = 1 then .udp else if code = 2 then .icmp else .other

/-- `InetAddress.getByAddress` of sixteen bytes: an IPv4-mapped address is the address it maps. -/
def inetAddress (raw : Bytes) : IpAddr :=
  if raw.take 12 = List.replicate 10 0 ++ [0xFF, 0xFF] then v4At raw 12 else v6At raw 0

section Decode

variable (hostAddress : IpAddr → Str)

/-- The text of an address; the library's `hostAddress` is a parameter. -/
def ipString (raw : Bytes) (ipVersion : UInt8) : Str :=
  if ipVersion = 4 then hostAddress (v4At raw 0) else hostAddress (inetAddress raw)

/-- One turn of the loop of `decode`: the next event, or none when the batch ends short. -/
def readRecord (buf : Bytes) : Option (ConnectionEvent × Bytes) :=
  if buf.length < fixedLen then none
  else
    let (kind, buf) := getByte buf
    let (ipVersion, buf) := getByte buf
    let (proto, buf) := getByte buf
    let (verdict, buf) := getByte buf
    let (uidRaw, buf) := getUnsigned 4 buf
    let (srcPort, buf) := getUnsigned 2 buf
    let (dstPort, buf) := getUnsigned 2 buf
    let (length, buf) := getUnsigned 4 buf
    let (timestampMs, buf) := getUnsigned 8 buf
    let (src, buf) := getArray 16 buf
    let (dst, buf) := getArray 16 buf
    let (domainLen, buf) := getUnsigned 2 buf
    if 0 < domainLen ∧ buf.length < domainLen then none
    else
      let (bytes, buf) := getArray domainLen buf
      let domain := if domainLen = 0 then none else some (Str.fromUtf8Lossy bytes)
      if kind = kindCoarse then
        some
          ({ id := 0
             timestampMs := signed 8 timestampMs
             ipVersion := ipVersion.toNat
             proto := protoOf proto
             srcIp := []
             srcPort := 0
             dstIp := []
             dstPort := 0
             length := 0
             coarse := some
              { packets := leNat (src.take 4)
                bytes := signed 8 (leNat (dst.take 8))
                tcpPackets := leNat ((src.drop 4).take 4)
                udpPackets := leNat ((src.drop 8).take 4)
                dnsQueries := leNat ((src.drop 12).take 4) } }, buf)
      else
        some
          ({ id := 0
             timestampMs := signed 8 timestampMs
             ipVersion := ipVersion.toNat
             proto := protoOf proto
             srcIp := ipString hostAddress src ipVersion
             srcPort := srcPort
             dstIp := ipString hostAddress dst ipVersion
             dstPort := dstPort
             length := signed 4 length
             uid := if signed 4 uidRaw < 0 then none else some (signed 4 uidRaw)
             verdict := if verdict = 1 then .block else .allow
             blockedDomain := if kind = kindDnsBlock then domain else none
             tlsPinned := kind == kindTlsPinned
             host := if kind = kindTlsPinned ∨ kind = kindFlow then domain else none }, buf)

/-- The loop over `count` records. -/
def readRecords : (count : ℕ) → Bytes → List ConnectionEvent
  | 0, _ => []
  | count + 1, buf =>
    match readRecord hostAddress buf with
    | none => []
    | some (e, rest) => e :: readRecords count rest

def decode (batch : Bytes) : List ConnectionEvent :=
  if batch.length < 4 then []
  else
    let (count, buf) := getUnsigned 4 batch
    if signed 4 count ≤ 0 then [] else readRecords hostAddress (signed 4 count).toNat buf

end Decode

end NativeEventCodec

/-- The address that an address field stands for. -/
def addrOf (ipVersion : UInt8) (field : Bytes) : IpAddr :=
  if ipVersion = 4 then v4At field 0 else v6At field 0

/-- An IPv4-mapped address is read as the address it maps. -/
def IpAddr.unmapped : IpAddr → IpAddr
  | .v4 octets => .v4 octets
  | .v6 octets => NativeEventCodec.inetAddress octets.toList

namespace NativeEventCodec

/-- What the decoded form of an event has in common with it, but for the addresses. -/
structure SameFields (e : Record) (c : ConnectionEvent) : Prop where
  timestamp : c.timestampMs = signed 8 e.timestampMs.toNat
  srcPort : c.srcPort = e.srcPort.toNat
  dstPort : c.dstPort = e.dstPort.toNat
  proto : ∀ l4, e.proto = protoCode l4 → c.proto = l4
  verdict : c.verdict = .block ↔ e.verdict = verdictBlock
  uid : c.uid = if e.uid < 0 then none else some e.uid

/-- What the decoded form of a plain event has in common with it, given the text of addresses. -/
structure SameEvent (text : IpAddr → Str) (e : Record) (c : ConnectionEvent) : Prop
    extends SameFields e c where
  src : c.srcIp = text (addrOf e.ipVersion e.src)
  dst : c.dstIp = text (addrOf e.ipVersion e.dst)

/-- The domain of a plain event comes back in the place that its kind says. -/
structure SameDomain (e : Record) (d : Str) (c : ConnectionEvent) : Prop where
  host : e.kind = kindFlow ∨ e.kind = kindTlsPinned → c.host = some d
  blocked : e.kind = kindDnsBlock → c.blockedDomain = some d

/-- There is no endpoint in the decoded form of an aggregate. -/
structure NoEndpoint (c : ConnectionEvent) : Prop where
  src : c.srcIp = [] ∧ c.srcPort = 0
  dst : c.dstIp = [] ∧ c.dstPort = 0
  uid : c.uid = none
  verdict : c.verdict = .allow

/-- The decoded form of an event. Of an aggregate all comes back but the addresses. -/
structure Agrees (hostAddress : IpAddr → Str) (e : Record) (c : ConnectionEvent) : Prop where
  timestamp : c.timestampMs = signed 8 e.timestampMs.toNat
  proto : ∀ l4, e.proto = protoCode l4 → c.proto = l4
  plain : e.kind ≠ kindCoarse → SameEvent (hostAddress ∘ IpAddr.unmapped) e c
  length : e.kind ≠ kindCoarse → e.length < 2 ^ 31 → c.length = e.length
  domain : ∀ d, e.domain = some d → d ≠ [] → (Str.toBytes d).length ≤ 65535 →
    e.kind ≠ kindCoarse → SameDomain e d c
  endpoint : e.kind = kindCoarse → NoEndpoint c
  aggregate : ∀ packets bytes tcp udp dns now, e = .coarse packets bytes tcp udp dns now →
    SameFields e c ∧ c.coarse =
      some ⟨packets.toNat, signed 8 bytes.toNat, tcp.toNat, udp.toNat, dns.toNat⟩

theorem getUnsigned_leBytes (n v : ℕ) (rest : Bytes) :
    getUnsigned n (leBytes n v ++ rest) = (v % 256 ^ n, rest) := by
  rw [getUnsigned, List.take_left' (leBytes_length n v), List.drop_left' (leBytes_length n v),
    leNat_leBytes]

theorem getArray_append {n : ℕ} {a : Bytes} (ha : a.length = n) (rest : Bytes) :
    getArray n (a ++ rest) = (a, rest) := by
  rw [getArray, List.take_left' ha, List.drop_left' ha]

theorem signed_of_lt {n v : ℕ} (h : 2 * v < 2 ^ (8 * n)) : signed n v = v := by
  apply Int.bmod_eq_of_le <;> omega

/-- Two's complement, written and read. -/
theorem signed_uid (e : Record) : signed 4 ((e.uid % 2 ^ 32).toNat % 256 ^ 4) = e.uid := by
  obtain ⟨hlo, hhi⟩ := e.uid_range
  have hmod : ((e.uid % 2 ^ 32).toNat % 256 ^ 4 : ℕ) = (e.uid % 2 ^ 32 : ℤ).toNat := by
    apply Nat.mod_eq_of_lt
    omega
  rw [hmod, signed, Int.toNat_of_nonneg (by omega)]
  simp only [Int.bmod_def]
  omega

theorem protoOf_protoCode (l4 : L4) : protoOf (protoCode l4) = l4 := by cases l4 <;> rfl

theorem v6At_eq {raw : Bytes} (h : raw.length = 16) : ∃ octets, v6At raw 0 = .v6 octets ∧
    octets.toList = raw := by
  refine ⟨⟨raw, h⟩, ?_, rfl⟩
  have hat := v6At_behind (p := []) rfl (⟨raw, h⟩ : List.Vector UInt8 16) []
  simpa using hat

theorem ipString_eq (hostAddress : IpAddr → Str) {raw : Bytes} (h : raw.length = 16)
    (ipVersion : UInt8) :
    ipString hostAddress raw ipVersion = hostAddress (IpAddr.unmapped (addrOf ipVersion raw)) := by
  unfold ipString addrOf
  split_ifs with h4
  · rfl
  · obtain ⟨octets, hv6, hraw⟩ := v6At_eq h
    rw [hv6, IpAddr.unmapped, hraw]

/-- The domain field as it is read back: what was kept of the domain, if anything was. -/
theorem encodeDomain_shape (domain : Option Str) : ∃ bytes : Bytes,
    Record.encodeDomain domain = leBytes 2 bytes.length ++ bytes ∧ bytes.length < 2 ^ 16 ∧
      ∀ d, domain = some d → (Str.toBytes d).length ≤ 65535 → bytes = Str.toBytes d := by
  cases domain with
  | none => exact ⟨[], rfl, by decide, by simp⟩
  | some d =>
    refine ⟨(Str.toBytes d).take (2 ^ 16 - 1), ?_, ?_, ?_⟩
    · rw [Record.encodeDomain, List.length_take, min_comm, ← List.take_eq_take_min]
    · rw [List.length_take]
      omega
    · intro d' hd hle
      obtain rfl := Option.some.inj hd
      exact List.take_of_length_le hle

theorem leNat_take_leBytes {k n : ℕ} (h : n < 256 ^ k) (rest : Bytes) :
    leNat ((leBytes k n ++ rest).take k) = n := by
  rw [List.take_left' (leBytes_length k n), leNat_leBytes, Nat.mod_eq_of_lt h]

/-- The counters of a coarse event, where the app looks for them. -/
theorem coarse_counters (packets : UInt32) (bytes : UInt64) (tcp udp dns : UInt32) (now : UInt64) :
    let e := Record.coarse packets bytes tcp udp dns now
    leNat (e.src.take 4) = packets.toNat ∧ leNat (e.dst.take 8) = bytes.toNat ∧
      leNat ((e.src.drop 4).take 4) = tcp.toNat ∧ leNat ((e.src.drop 8).take 4) = udp.toNat ∧
      leNat ((e.src.drop 12).take 4) = dns.toNat := by
  have h4 (n : UInt32) : n.toNat < 256 ^ 4 := n.toNat_lt
  have h8 : bytes.toNat < 256 ^ 8 := bytes.toNat_lt
  have hdrop (n : UInt32) (rest : Bytes) : (leBytes 4 n.toNat ++ rest).drop 4 = rest :=
    List.drop_left' (leBytes_length 4 _)
  have h12 (n m : UInt32) (rest : Bytes) :
      (leBytes 4 n.toNat ++ (leBytes 4 m.toNat ++ rest)).drop 8 = rest := by
    rw [show 8 = 4 + 4 from rfl, ← List.drop_drop, hdrop, hdrop]
  simp only [Record.coarse, List.append_assoc]
  refine ⟨leNat_take_leBytes (h4 _) _, leNat_take_leBytes h8 _, ?_, ?_, ?_⟩
  · rw [hdrop]
    exact leNat_take_leBytes (h4 _) _
  · rw [h12]
    exact leNat_take_leBytes (h4 _) _
  · rw [show 12 = 8 + 4 from rfl, ← List.drop_drop, h12, hdrop,
      ← List.append_nil (leBytes 4 dns.toNat)]
    exact leNat_take_leBytes (h4 _) _

theorem readRecord_encodeInto (hostAddress : IpAddr → Str) (e : Record) (rest : Bytes) :
    ∃ c, readRecord hostAddress (e.encodeInto ++ rest) = some (c, rest) ∧
      Agrees hostAddress e c := by
  obtain ⟨bytes, hdomain, hsize, hwhole⟩ := encodeDomain_shape e.domain
  have hlen : ¬ (e.encodeInto ++ rest).length < fixedLen := by
    simp [Record.encodeInto, hdomain, e.src_length, e.dst_length, fixedLen]
    omega
  unfold readRecord
  rw [if_neg hlen]
  simp only [Record.encodeInto, hdomain, List.append_assoc, List.cons_append, List.nil_append,
    getByte, getUnsigned_leBytes, getArray_append e.src_length, getArray_append e.dst_length]
  have hshort : bytes.length % 256 ^ 2 = bytes.length := Nat.mod_eq_of_lt hsize
  have hroom : ¬ (0 < bytes.length ∧ (bytes ++ rest).length < bytes.length) := by simp
  have hstamp : e.timestampMs.toNat % 256 ^ 8 = e.timestampMs.toNat :=
    Nat.mod_eq_of_lt e.timestampMs.toNat_lt
  have hshown : ∀ d, e.domain = some d → d ≠ [] → (Str.toBytes d).length ≤ 65535 →
      (if bytes.length = 0 then none else some (Str.fromUtf8Lossy bytes)) = some d := by
    intro d hd hne hle
    have hkept := hwhole d hd hle
    have hpos : (Str.toBytes d).length ≠ 0 := by
      intro h0
      have hback := Str.fromUtf8_toBytes d
      rw [List.length_eq_zero_iff.mp h0] at hback
      exact hne (Option.some.inj hback).symm
    rw [hkept, if_neg hpos, Str.fromUtf8Lossy_toBytes]
  rw [hshort, if_neg hroom, hstamp, getArray_append rfl]
  by_cases hkind : e.kind = kindCoarse
  · rw [if_pos hkind]
    refine ⟨_, rfl, ?_⟩
    have hproto (l4 : L4) (h : e.proto = protoCode l4) : protoOf e.proto = l4 := by
      rw [h, protoOf_protoCode]
    refine ⟨by dsimp only, hproto, fun h => absurd hkind h, fun h => absurd hkind h,
      fun _ _ _ _ h => absurd hkind h, fun _ => ⟨⟨rfl, rfl⟩, ⟨rfl, rfl⟩, rfl, rfl⟩, ?_⟩
    rintro packets bytes tcp udp dns now rfl
    obtain ⟨hpackets, hbytes, htcp, hudp, hdns⟩ := coarse_counters packets bytes tcp udp dns now
    refine ⟨⟨by dsimp only, rfl, rfl, hproto, ?_, rfl⟩, ?_⟩
    · simp [Record.coarse, verdictAllow, verdictBlock]
    · simp only [hpackets, hbytes, htcp, hudp, hdns]
  · rw [if_neg hkind]
    refine ⟨_, rfl, ?_⟩
    refine ⟨by dsimp only, ?_, ?_, ?_, ?_, fun h => absurd h hkind, ?_⟩
    · intro l4 hproto
      rw [hproto, protoOf_protoCode]
    · intro _
      refine ⟨⟨by dsimp only, ?_, ?_, ?_, ?_, ?_⟩, ?_, ?_⟩
      · exact Nat.mod_eq_of_lt e.srcPort.toNat_lt
      · exact Nat.mod_eq_of_lt e.dstPort.toNat_lt
      · intro l4 hproto
        rw [hproto, protoOf_protoCode]
      · simp [verdictBlock]
      · rw [signed_uid]
      · exact ipString_eq hostAddress e.src_length e.ipVersion
      · exact ipString_eq hostAddress e.dst_length e.ipVersion
    · intro _ hlt
      have hwide : e.length % 256 ^ 4 = e.length := Nat.mod_eq_of_lt e.length_lt
      have hsigned : signed 4 e.length = e.length := signed_of_lt (by omega)
      rw [hwide, hsigned]
    · intro d hd hne hle _
      constructor
      · intro hshow
        rw [if_pos hshow.symm, hshown d hd hne hle]
      · intro hblock
        rw [if_pos hblock, hshown d hd hne hle]
    · rintro packets bytes tcp udp dns now rfl
      exact absurd rfl hkind

theorem encodeInto_length (e : Record) : fixedLen ≤ e.encodeInto.length := by
  obtain ⟨bytes, hdomain, -⟩ := encodeDomain_shape e.domain
  simp [Record.encodeInto, hdomain, e.src_length, e.dst_length, fixedLen]
  omega

theorem readRecords_encode (hostAddress : IpAddr → Str) (events : List Record) :
    List.Forall₂ (Agrees hostAddress) events
      (readRecords hostAddress events.length (events.flatMap Record.encodeInto)) := by
  induction events with
  | nil => exact .nil
  | cons e events ih =>
    obtain ⟨c, hread, hagrees⟩ :=
      readRecord_encodeInto hostAddress e (events.flatMap Record.encodeInto)
    rw [List.length_cons, List.flatMap_cons, readRecords, hread]
    exact .cons hagrees ih

theorem length_le_flatMap (events : List Record) :
    events.length ≤ (events.flatMap Record.encodeInto).length := by
  induction events with
  | nil => simp
  | cons e events ih =>
    have hlen := encodeInto_length e
    rw [List.length_cons, List.flatMap_cons, List.length_append]
    simp only [fixedLen] at hlen
    omega

/-- The app reads back every batch that fits a byte array, event by event and in order. -/
theorem decode_drainEncoded (hostAddress : IpAddr → Str) (b : Batcher) (hne : b.events ≠ []) :
    ∃ blob, b.drainEncoded = (some blob, ⟨[]⟩) ∧ (blob.length < 2 ^ 31 →
      List.Forall₂ (Agrees hostAddress) b.events (decode hostAddress blob)) := by
  refine ⟨leBytes 4 b.events.length ++ b.events.flatMap Record.encodeInto,
    by rw [Batcher.drainEncoded, if_neg hne], ?_⟩
  intro hfit
  have hle := length_le_flatMap b.events
  have hpos := List.length_pos_iff.mpr hne
  rw [List.length_append, leBytes_length] at hfit
  have hcount : signed 4 (b.events.length % 256 ^ 4) = b.events.length := by
    rw [Nat.mod_eq_of_lt (by omega), signed_of_lt (by omega)]
  rw [decode, if_neg (by simp), getUnsigned_leBytes]
  dsimp only
  rw [hcount, if_neg (by omega), Int.toNat_natCast]
  exact readRecords_encode hostAddress b.events

/-- An aggregate and a blocked query. -/
def sampleEvents : List Record :=
  [.coarse 7 4096 5 2 3 0,
    { kind := kindDnsBlock, ipVersion := 4, proto := 1, verdict := 1, uid := 10123, srcPort := 40000
      dstPort := 53, length := 60, src := [10, 0, 0, 2] ++ List.replicate 12 0
      dst := [1, 1, 1, 1] ++ List.replicate 12 0, domain := some (Str.lit "ads"), timestampMs := 1
      uid_range := by decide, length_lt := by decide, src_length := rfl, dst_length := rfl }]

theorem decode_drainEncoded_sample :
    sampleEvents ≠ [] ∧ ∃ blob, (Batcher.mk sampleEvents).drainEncoded = (some blob, ⟨[]⟩) ∧
      blob.length = 123 ∧
      List.Forall₂ (Agrees IpAddr.display) sampleEvents (decode IpAddr.display blob) := by
  have hne : sampleEvents ≠ [] := by simp [sampleEvents]
  obtain ⟨blob, hblob, hagree⟩ := decode_drainEncoded IpAddr.display ⟨sampleEvents⟩ hne
  have hlen : blob.length = 123 := by
    have hsome : some blob = some (leBytes 4 sampleEvents.length ++
        sampleEvents.flatMap Record.encodeInto) := (congrArg Prod.fst hblob).symm
    obtain rfl := Option.some.inj hsome
    decide +kernel
  exact ⟨hne, blob, hblob, hlen, hagree (by omega)⟩

/-- The addresses of an aggregate do not come back. -/
theorem coarse_addresses_lost :
    ∃ blob, (Batcher.mk [.coarse 7 4096 5 2 3 0]).drainEncoded = (some blob, ⟨[]⟩) ∧
      ¬ List.Forall₂ (SameEvent IpAddr.display) [.coarse 7 4096 5 2 3 0]
        (decode IpAddr.display blob) := by
  refine ⟨_, rfl, ?_⟩
  intro h
  obtain ⟨c, l, hsame, -, hl⟩ := List.forall₂_cons_left_iff.mp h
  have hnil : ([[]] : List Str) = c.srcIp :: l.map ConnectionEvent.srcIp := by
    refine Eq.trans ?_ (congrArg (List.map ConnectionEvent.srcIp) hl)
    decide +kernel
  have hsrc := hsame.src
  rw [← (List.cons.inj hnil).1] at hsrc
  exact absurd hsrc (by decide +kernel)

end NativeEventCodec

end Adwarden.Core
