import Adwarden.Net.Packet
import Adwarden.Rust.Panic
import Adwarden.Rust.Word

/-! Datagrams built for the app (`udp::build_reply`), byte by byte. The emitters of the smoltcp
library are a parameter. They store the lengths in 16 bits, and the stored lengths delimit the
slices that the rest of the packet is written to. -/
namespace Adwarden.Net

namespace Udp

def headerLen : ℕ := 8

def ipv4HeaderLen : ℕ := 20

def ipv6HeaderLen : ℕ := 40

def hopLimit : UInt8 := 64

/-- `Ipv4Repr` and `Ipv6Repr`. -/
structure IpRepr (n : ℕ) where
  src : List.Vector UInt8 n
  dst : List.Vector UInt8 n
  nextHeader : UInt8
  payloadLen : ℕ
  hopLimit : UInt8

structure UdpRepr where
  srcPort : UInt16
  dstPort : UInt16

/-- The writers of the library: a header over the front of a buffer, the ports and the length of
a datagram, and its checksum. -/
structure Emit where
  ipv4 : IpRepr 4 → Bytes → Bytes
  ipv6 : IpRepr 16 → Bytes → Bytes
  fields : UdpRepr → ℕ → Bytes → Bytes
  checksum : IpAddr → IpAddr → Bytes → Bytes

/-- Where the writers write. A length is stored modulo `2 ^ 16`. -/
structure Emit.Lawful (e : Emit) : Prop where
  ipv4 : ∀ (r : IpRepr 4) {buf}, ipv4HeaderLen ≤ buf.length → ∃ h : Bytes,
    h.length = ipv4HeaderLen ∧ e.ipv4 r buf = h ++ buf.drop ipv4HeaderLen ∧ byteAt h 0 = 0x45 ∧
    u16be h 2 = .ofNat (ipv4HeaderLen + r.payloadLen) ∧ byteAt h 9 = r.nextHeader ∧
    v4At h 12 = .v4 r.src ∧ v4At h 16 = .v4 r.dst
  ipv6 : ∀ (r : IpRepr 16) {buf}, ipv6HeaderLen ≤ buf.length → ∃ h : Bytes,
    h.length = ipv6HeaderLen ∧ e.ipv6 r buf = h ++ buf.drop ipv6HeaderLen ∧
    byteAt h 0 = 0x60 ∧ u16be h 4 = .ofNat r.payloadLen ∧ byteAt h 6 = r.nextHeader ∧
    v6At h 8 = .v6 r.src ∧ v6At h 24 = .v6 r.dst
  fields : ∀ (r : UdpRepr) (n : ℕ) {buf}, 6 ≤ buf.length → ∃ h : Bytes,
    h.length = 6 ∧ e.fields r n buf = h ++ buf.drop 6 ∧ u16be h 0 = r.srcPort ∧
    u16be h 2 = r.dstPort ∧ u16be h 4 = .ofNat n
  checksum : ∀ (src dst : IpAddr) {buf}, headerLen ≤ buf.length → ∃ c : Bytes,
    c.length = 2 ∧ e.checksum src dst buf = buf.take 6 ++ c ++ buf.drop headerLen

/-- The views of packets with plain headers: each length field delimits the payload. -/
structure Wire.Exact (w : Wire) : Prop where
  ipv4 : ∀ {b}, byteAt b 0 = 0x45 → ipv4HeaderLen ≤ (u16be b 2).toNat →
    (u16be b 2).toNat ≤ b.length →
    w.ipv4 b = some ⟨v4At b 12, v4At b 16, byteAt b 9,
      (b.take (u16be b 2).toNat).drop ipv4HeaderLen⟩
  ipv6 : ∀ {b}, byteAt b 0 = 0x60 → ipv6HeaderLen + (u16be b 4).toNat ≤ b.length →
    w.ipv6 b = some ⟨v6At b 8, v6At b 24, byteAt b 6,
      (b.take (ipv6HeaderLen + (u16be b 4).toNat)).drop ipv6HeaderLen⟩
  udp : ∀ {b}, headerLen ≤ (u16be b 4).toNat → (u16be b 4).toNat ≤ b.length →
    w.udp b = some ⟨u16be b 0, u16be b 2, (b.take (u16be b 4).toNat).drop headerLen⟩

/-- `f(&mut b[start..stop])`. -/
def onSlice (start stop : ℕ) (f : Bytes → Except Panic Bytes) (b : Bytes) : Except Panic Bytes :=
  if start ≤ stop ∧ stop ≤ b.length then do
    let slice ← f ((b.take stop).drop start)
    .ok (b.take start ++ slice ++ b.drop stop)
  else .error .sliceOutOfRange

/-- `slice.copy_from_slice(payload)`, which wants equal lengths. -/
def copyFromSlice (payload slice : Bytes) : Except Panic Bytes :=
  if slice.length = payload.length then .ok payload else .error .sliceOutOfRange

section Build

variable (e : Emit)

/-- `UdpRepr::emit` of a payload into a slice. -/
def emit (r : UdpRepr) (src dst : IpAddr) (payload slice : Bytes) : Except Panic Bytes := do
  if slice.length < 6 then .error .sliceOutOfRange
  else
    let pkt := e.fields r (headerLen + payload.length) slice
    let pkt ← onSlice headerLen (u16be pkt 4).toNat (copyFromSlice payload) pkt
    .ok (e.checksum src dst pkt)

def buildReply (src dst : SocketAddr) (payload : Bytes) : Except Panic (Option Bytes) :=
  let repr : UdpRepr := ⟨src.port, dst.port⟩
  let udpLen := headerLen + payload.length
  match src.ip, dst.ip with
  | .v4 s, .v4 d => do
    let buf := List.replicate (ipv4HeaderLen + udpLen) 0
    let pkt := e.ipv4 ⟨s, d, protoUdp, udpLen, hopLimit⟩ buf
    let pkt ← onSlice (ihl pkt) (u16be pkt 2).toNat (emit e repr (.v4 s) (.v4 d) payload) pkt
    .ok (some pkt)
  | .v6 s, .v6 d => do
    let buf := List.replicate (ipv6HeaderLen + udpLen) 0
    let pkt := e.ipv6 ⟨s, d, protoUdp, udpLen, hopLimit⟩ buf
    let pkt ← onSlice ipv6HeaderLen (ipv6HeaderLen + (u16be pkt 4).toNat)
      (emit e repr (.v6 s) (.v6 d) payload) pkt
    .ok (some pkt)
  | _, _ => .ok none

end Build

theorem buildReply_mixed {e : Emit} {src dst : SocketAddr} {payload : Bytes}
    (hmixed : src.isIpv4 ≠ dst.isIpv4) : buildReply e src dst payload = .ok none := by
  obtain ⟨sip, sport⟩ := src
  obtain ⟨dip, dport⟩ := dst
  cases sip <;> cases dip <;> first | rfl | exact absurd rfl hmixed

theorem buildReply_ne_none {e : Emit} {src dst : SocketAddr} {payload : Bytes}
    (hfamily : src.isIpv4 = dst.isIpv4) : buildReply e src dst payload ≠ .ok none := by
  obtain ⟨sip, sport⟩ := src
  obtain ⟨dip, dport⟩ := dst
  intro h
  cases sip <;> cases dip <;> cases hfamily
  all_goals
    obtain ⟨pkt, -, hpkt⟩ := Except.of_bind_ok h
    cases hpkt

theorem onSlice_ok {start stop : ℕ} {f : Bytes → Except Panic Bytes} {b out : Bytes}
    (h : onSlice start stop f b = .ok out) :
    (start ≤ stop ∧ stop ≤ b.length) ∧ ∃ slice, f ((b.take stop).drop start) = .ok slice ∧
      out = b.take start ++ slice ++ b.drop stop := by
  unfold onSlice at h
  split_ifs at h with hle
  obtain ⟨slice, hf, hout⟩ := Except.of_bind_ok h
  exact ⟨hle, slice, hf, (Except.ok.inj hout).symm⟩

theorem onSlice_of_ok {start stop : ℕ} {f : Bytes → Except Panic Bytes} {b slice : Bytes}
    (hle : start ≤ stop ∧ stop ≤ b.length) (hf : f ((b.take stop).drop start) = .ok slice) :
    onSlice start stop f b = .ok (b.take start ++ slice ++ b.drop stop) := by
  simp [onSlice, hle, hf]

theorem copyFromSlice_ok {payload slice out : Bytes} (h : copyFromSlice payload slice = .ok out) :
    slice.length = payload.length ∧ out = payload := by
  unfold copyFromSlice at h
  split_ifs at h with hlen
  exact ⟨hlen, (Except.ok.inj h).symm⟩

section Emitted

variable {e : Emit} (he : e.Lawful) (r : UdpRepr) (src dst : IpAddr) {payload slice : Bytes}
include he

/-- A datagram is written when its stored length is the true one and the slice has room. -/
theorem emit_fits {pkt : Bytes} (h : emit e r src dst payload slice = .ok pkt) :
    headerLen + payload.length < 2 ^ 16 ∧ headerLen + payload.length ≤ slice.length := by
  unfold emit at h
  split_ifs at h with hroom
  obtain ⟨hd, hdlen, hfields, -, -, hlen⟩ :=
    he.fields r (headerLen + payload.length) (Nat.not_lt.mp hroom)
  simp only [hfields, u16be_append _ (show 4 + 1 < hd.length by omega), hlen] at h
  obtain ⟨out, hs, -⟩ := Except.of_bind_ok h
  obtain ⟨⟨hlo, hhi⟩, copied, hcopy, -⟩ := onSlice_ok hs
  have hsize := (copyFromSlice_ok hcopy).1
  simp only [List.length_drop, List.length_take, List.length_append, hdlen,
    UInt16.toNat_ofNat', headerLen] at hlo hhi hsize ⊢
  omega

/-- What it holds then. -/
theorem emit_shape (hsize : slice.length = headerLen + payload.length)
    (hfit : headerLen + payload.length < 2 ^ 16) : ∃ hd : Bytes,
    emit e r src dst payload slice = .ok (hd ++ payload) ∧ hd.length = headerLen ∧
      u16be hd 0 = r.srcPort ∧ u16be hd 2 = r.dstPort ∧
      u16be hd 4 = .ofNat (headerLen + payload.length) := by
  have hroom : 6 ≤ slice.length := by
    rw [hsize, headerLen]
    omega
  obtain ⟨hd, hdlen, hfields, hsrc, hdst, hlen⟩ :=
    he.fields r (headerLen + payload.length) hroom
  have hstored : (u16be (hd ++ slice.drop 6) 4).toNat = headerLen + payload.length := by
    rw [u16be_append _ (by omega), hlen, UInt16.toNat_ofNat', Nat.mod_eq_of_lt hfit]
  have hpkt : (hd ++ slice.drop 6).length = headerLen + payload.length := by
    simp only [List.length_append, List.length_drop, hdlen, hsize]
    omega
  have hslice : onSlice headerLen (headerLen + payload.length) (copyFromSlice payload)
      (hd ++ slice.drop 6) = .ok ((hd ++ slice.drop 6).take headerLen ++ payload) := by
    rw [@onSlice_of_ok _ _ _ _ payload ⟨Nat.le_add_right _ _, hpkt.ge⟩]
    · rw [List.drop_eq_nil_of_le hpkt.le, List.append_nil]
    · have hmid : (((hd ++ slice.drop 6).take (headerLen + payload.length)).drop
          headerLen).length = payload.length := by
        rw [List.length_drop, List.length_take, hpkt]
        omega
      simp [copyFromSlice, hmid]
  have hfront : ((hd ++ slice.drop 6).take headerLen).length = headerLen := by
    rw [List.length_take, hpkt]
    omega
  have hsix : ((hd ++ slice.drop 6).take headerLen).take 6 = hd := by
    rw [List.take_take, show min 6 headerLen = 6 from rfl, List.take_left' hdlen]
  obtain ⟨c, hclen, hsum⟩ := @he.checksum src dst
    ((hd ++ slice.drop 6).take headerLen ++ payload) (by
      rw [List.length_append, hfront]
      omega)
  refine ⟨hd ++ c, ?_, ?_, ?_, ?_, ?_⟩
  · have hsplit : e.checksum src dst ((hd ++ slice.drop 6).take headerLen ++ payload) =
        hd ++ c ++ payload := by
      rw [hsum, List.take_append_of_le_length (by rw [hfront, headerLen]; omega), hsix,
        List.drop_left' hfront]
    simp [emit, Nat.not_lt.mpr hroom, hfields, hstored, hslice, hsplit]
  · rw [List.length_append, hdlen, hclen, headerLen]
  · rw [u16be_append _ (by omega), hsrc]
  · rw [u16be_append _ (by omega), hdst]
  · rw [u16be_append _ (by omega), hlen]

end Emitted

theorem Wire.Exact.udp_shape {w : Wire} (hw : Wire.Exact w) {hd payload : Bytes}
    (hsize : hd.length = headerLen) (hfit : headerLen + payload.length < 2 ^ 16)
    (hlen : u16be hd 4 = .ofNat (headerLen + payload.length)) :
    w.udp (hd ++ payload) = some ⟨u16be hd 0, u16be hd 2, payload⟩ := by
  have h8 : hd.length = 8 := hsize
  have hstored : (u16be (hd ++ payload) 4).toNat = (hd ++ payload).length := by
    rw [u16be_append _ (by omega), hlen, UInt16.toNat_ofNat', Nat.mod_eq_of_lt hfit,
      List.length_append, hsize]
  have hview := hw.udp (b := hd ++ payload) (by rw [hstored, List.length_append]; omega)
    hstored.le
  rw [hview, hstored, List.take_length, List.drop_left' hsize, u16be_append _ (by omega),
    u16be_append _ (by omega)]

/-- The payloads whose lengths the header fields can hold. -/
def maxPayload (src : SocketAddr) : ℕ :=
  match src.ip with
  | .v4 _ => 2 ^ 16 - 1 - ipv4HeaderLen - headerLen
  | .v6 _ => 2 ^ 16 - 1 - headerLen

/-- The reply of `build_reply` is one that `parse` reads back. -/
def RepliesFaithfully (e : Emit) (w : Wire) (src dst : SocketAddr) (payload : Bytes) : Prop :=
  ∃ reply, buildReply e src dst payload = .ok reply ∧
    ∀ pkt ∈ reply, parseUdp w pkt = some ⟨src, dst, payload⟩

section Families

variable {e : Emit} {w : Wire} (he : e.Lawful)
include he

/-- A datagram emitted behind a header. -/
private theorem emit_behind (hw : Wire.Exact w) (r : UdpRepr) (src dst : IpAddr)
    (payload : Bytes) {h : Bytes} {k : ℕ} (hk : h.length = k)
    (hfit : headerLen + payload.length < 2 ^ 16) : ∃ dgram : Bytes,
    onSlice k (k + (headerLen + payload.length)) (emit e r src dst payload)
      (h ++ List.replicate (headerLen + payload.length) 0) = .ok (h ++ dgram) ∧
    dgram.length = headerLen + payload.length ∧
    w.udp dgram = some ⟨r.srcPort, r.dstPort, payload⟩ := by
  obtain ⟨hd, hudp, hdlen, hsrc, hdst, hlen⟩ := emit_shape he r src dst
    (List.length_replicate (n := headerLen + payload.length) (a := (0 : UInt8))) hfit
  refine ⟨hd ++ payload, ?_, by simp [hdlen], ?_⟩
  · have hslice := @onSlice_of_ok k (k + (headerLen + payload.length)) (emit e r src dst payload)
      (h ++ List.replicate (headerLen + payload.length) 0) (hd ++ payload)
      ⟨by omega, by simp [hk]⟩ (by
        rw [List.take_of_length_le (by simp [hk]), List.drop_left' hk, hudp])
    rwa [List.take_left' hk, List.drop_eq_nil_of_le (by simp [hk]), List.append_nil] at hslice
  · rw [hw.udp_shape hdlen hfit hlen, hsrc, hdst]

private theorem repliesV4 (hw : Wire.Exact w) (s d : List.Vector UInt8 4) (sport dport : UInt16)
    {payload : Bytes} (hfit : ipv4HeaderLen + (headerLen + payload.length) < 2 ^ 16) :
    RepliesFaithfully e w ⟨.v4 s, sport⟩ ⟨.v4 d, dport⟩ payload := by
  obtain ⟨h, hhlen, hemit, hver, htotal, hproto, hsrc, hdst⟩ :=
    @he.ipv4 ⟨s, d, protoUdp, headerLen + payload.length, hopLimit⟩
      (List.replicate (ipv4HeaderLen + (headerLen + payload.length)) 0) (by simp)
  simp only [List.drop_replicate, Nat.add_sub_cancel_left] at hemit
  have h20 : h.length = 20 := hhlen
  obtain ⟨dgram, hslice, hdlen, hudp⟩ :=
    emit_behind he hw ⟨sport, dport⟩ (.v4 s) (.v4 d) payload hhlen (by omega)
  have hstored : (u16be h 2).toNat = ipv4HeaderLen + (headerLen + payload.length) := by
    rw [htotal, UInt16.toNat_ofNat', Nat.mod_eq_of_lt hfit]
  have hihl (t : Bytes) : ihl (h ++ t) = ipv4HeaderLen := by
    rw [ihl, byteAt_append t (by omega), hver]
    rfl
  refine ⟨some (h ++ dgram), ?_, ?_⟩
  · simp [buildReply, hemit, hihl, u16be_append _ (show 2 + 1 < h.length by omega), hstored,
      hslice]
  · intro pkt hpkt
    obtain rfl := Option.some.inj hpkt
    have hsize : (h ++ dgram).length = ipv4HeaderLen + (headerLen + payload.length) := by
      rw [List.length_append, hhlen, hdlen]
    have hread : w.ipv4 (h ++ dgram) = some ⟨.v4 s, .v4 d, protoUdp, dgram⟩ := by
      have hall := hw.ipv4 (b := h ++ dgram)
      rw [byteAt_append _ (by omega), byteAt_append _ (by omega), u16be_append _ (by omega),
        v4At_append _ (by omega), v4At_append _ (by omega), hstored, hver, hproto, hsrc, hdst,
        ← hsize, List.take_length, List.drop_left' hhlen] at hall
      exact hall rfl (by omega) le_rfl
    have hview : ipView w (h ++ dgram) = w.ipv4 (h ++ dgram) := by
      cases h with
      | nil => simp at h20
      | cons b rest =>
        obtain rfl : b = 0x45 := hver
        rfl
    simp [parseUdp, hview, hread, hudp]

private theorem repliesV6 (hw : Wire.Exact w) (s d : List.Vector UInt8 16) (sport dport : UInt16)
    {payload : Bytes} (hfit : headerLen + payload.length < 2 ^ 16) :
    RepliesFaithfully e w ⟨.v6 s, sport⟩ ⟨.v6 d, dport⟩ payload := by
  obtain ⟨h, hhlen, hemit, hver, hpayload, hproto, hsrc, hdst⟩ :=
    @he.ipv6 ⟨s, d, protoUdp, headerLen + payload.length, hopLimit⟩
      (List.replicate (ipv6HeaderLen + (headerLen + payload.length)) 0) (by simp)
  simp only [List.drop_replicate, Nat.add_sub_cancel_left] at hemit
  have h40 : h.length = 40 := hhlen
  obtain ⟨dgram, hslice, hdlen, hudp⟩ :=
    emit_behind he hw ⟨sport, dport⟩ (.v6 s) (.v6 d) payload hhlen hfit
  have hstored : (u16be h 4).toNat = headerLen + payload.length := by
    rw [hpayload, UInt16.toNat_ofNat', Nat.mod_eq_of_lt hfit]
  refine ⟨some (h ++ dgram), ?_, ?_⟩
  · simp [buildReply, hemit, u16be_append _ (show 4 + 1 < h.length by omega), hstored, hslice]
  · intro pkt hpkt
    obtain rfl := Option.some.inj hpkt
    have hsize : (h ++ dgram).length = ipv6HeaderLen + (headerLen + payload.length) := by
      rw [List.length_append, hhlen, hdlen]
    have hread : w.ipv6 (h ++ dgram) = some ⟨.v6 s, .v6 d, protoUdp, dgram⟩ := by
      have hall := hw.ipv6 (b := h ++ dgram)
      rw [byteAt_append _ (by omega), byteAt_append _ (by omega), u16be_append _ (by omega),
        v6At_append _ (by omega), v6At_append _ (by omega), hstored, hver, hproto, hsrc, hdst,
        ← hsize, List.take_length, List.drop_left' hhlen] at hall
      exact hall rfl le_rfl
    have hview : ipView w (h ++ dgram) = w.ipv6 (h ++ dgram) := by
      cases h with
      | nil => simp at h40
      | cons b rest =>
        obtain rfl : b = 0x60 := hver
        rfl
    simp [parseUdp, hview, hread, hudp]

private theorem fitsV4 (s d : List.Vector UInt8 4) (sport dport : UInt16) {payload : Bytes}
    {reply : Option Bytes}
    (h : buildReply e ⟨.v4 s, sport⟩ ⟨.v4 d, dport⟩ payload = .ok reply) :
    ipv4HeaderLen + (headerLen + payload.length) < 2 ^ 16 := by
  obtain ⟨hd, hhlen, hemit, hver, htotal, -⟩ :=
    @he.ipv4 ⟨s, d, protoUdp, headerLen + payload.length, hopLimit⟩
      (List.replicate (ipv4HeaderLen + (headerLen + payload.length)) 0) (by simp)
  have h20 : hd.length = 20 := hhlen
  simp only [buildReply, hemit, u16be_append _ (show 2 + 1 < hd.length by omega), htotal, ihl,
    byteAt_append _ (show 0 < hd.length by omega), hver] at h
  obtain ⟨pkt, hs, -⟩ := Except.of_bind_ok h
  obtain ⟨⟨hlo, -⟩, dgram, hudp, -⟩ := onSlice_ok hs
  obtain ⟨hsmall, hroom⟩ := emit_fits he _ _ _ hudp
  have hihl : (0x45 &&& 0x0F : UInt8).toNat * 4 = 20 := rfl
  rw [hihl, UInt16.toNat_ofNat'] at hlo hroom
  rw [List.length_drop, List.length_take] at hroom
  simp only [headerLen, ipv4HeaderLen] at hlo hroom hsmall ⊢
  omega

private theorem fitsV6 (s d : List.Vector UInt8 16) (sport dport : UInt16) {payload : Bytes}
    {reply : Option Bytes}
    (h : buildReply e ⟨.v6 s, sport⟩ ⟨.v6 d, dport⟩ payload = .ok reply) :
    headerLen + payload.length < 2 ^ 16 := by
  obtain ⟨pkt, hs, -⟩ := Except.of_bind_ok h
  obtain ⟨-, dgram, hudp, -⟩ := onSlice_ok hs
  exact (emit_fits he _ _ _ hudp).1

end Families

theorem replies_of_le {e : Emit} {w : Wire} (he : e.Lawful) (hw : Wire.Exact w)
    {src dst : SocketAddr} (hfamily : src.isIpv4 = dst.isIpv4) {payload : Bytes}
    (hle : payload.length ≤ maxPayload src) : RepliesFaithfully e w src dst payload := by
  obtain ⟨sip, sport⟩ := src
  obtain ⟨dip, dport⟩ := dst
  cases sip <;> cases dip
  case v4.v4 s d =>
    apply repliesV4 he hw s d sport dport
    simp only [maxPayload, ipv4HeaderLen, headerLen] at hle ⊢
    omega
  case v6.v6 s d =>
    apply repliesV6 he hw s d sport dport
    simp only [maxPayload, headerLen] at hle ⊢
    omega
  case v4.v6 => cases hfamily
  case v6.v4 => cases hfamily

theorem le_of_buildReply {e : Emit} (he : e.Lawful) {src dst : SocketAddr}
    (hfamily : src.isIpv4 = dst.isIpv4) {payload : Bytes} {reply : Option Bytes}
    (h : buildReply e src dst payload = .ok reply) : payload.length ≤ maxPayload src := by
  obtain ⟨sip, sport⟩ := src
  obtain ⟨dip, dport⟩ := dst
  cases sip <;> cases dip
  case v4.v4 s d =>
    have hfit := fitsV4 he s d sport dport h
    simp only [maxPayload, ipv4HeaderLen, headerLen] at hfit ⊢
    omega
  case v6.v6 s d =>
    have hfit := fitsV6 he s d sport dport h
    simp only [maxPayload, headerLen] at hfit ⊢
    omega
  case v4.v6 => cases hfamily
  case v6.v4 => cases hfamily

/-- Between addresses of one family, a reply is built and read back exactly up to the payload
length that the header fields can hold; from there on the build panics. -/
theorem replies_faithfully_iff {e : Emit} {w : Wire} (he : e.Lawful) (hw : Wire.Exact w)
    (src dst : SocketAddr) (hfamily : src.isIpv4 = dst.isIpv4) (payload : Bytes) :
    RepliesFaithfully e w src dst payload ↔ payload.length ≤ maxPayload src := by
  constructor
  · rintro ⟨reply, hbuilt, -⟩
    exact le_of_buildReply he hfamily hbuilt
  · exact replies_of_le he hw hfamily

section Concrete

/-- The sum of the 16-bit words of some bytes. -/
def wordSum : Bytes → ℕ
  | [] => 0
  | [b] => b.toNat * 256
  | hi :: lo :: rest => hi.toNat * 256 + lo.toNat + wordSum rest

/-- The ones' complement checksum over words of a given sum. -/
def onesChecksum (sum : ℕ) : UInt16 :=
  let carry := sum % 2 ^ 16 + sum / 2 ^ 16
  .ofNat (2 ^ 16 - 1 - (carry % 2 ^ 16 + carry / 2 ^ 16))

/-- The front of an IPv4 header up to the checksum. -/
def ipv4Front (r : IpRepr 4) : Bytes :=
  [0x45, 0] ++ beBytes16 (.ofNat (ipv4HeaderLen + r.payloadLen)) ++
    [0, 0, 0x40, 0, r.hopLimit, r.nextHeader]

def ipv6Front (r : IpRepr 16) : Bytes :=
  [0x60, 0, 0, 0] ++ beBytes16 (.ofNat r.payloadLen) ++ [r.nextHeader, r.hopLimit]

/-- The checksum of a datagram, with all ones in the place of zero. -/
def datagramChecksum (src dst : IpAddr) (dgram : Bytes) : UInt16 :=
  let pseudo := src.octets ++ dst.octets ++ [0, protoUdp] ++ beBytes16 (u16be dgram 4)
  let c := onesChecksum (wordSum pseudo + wordSum (dgram.take 6 ++ dgram.drop headerLen))
  if c = 0 then 0xFFFF else c

/-- Writers that lay the headers out as the protocols do. -/
def Emit.plain : Emit where
  ipv4 r buf :=
    let addrs := r.src.toList ++ r.dst.toList
    let sum := onesChecksum (wordSum (ipv4Front r ++ addrs))
    ipv4Front r ++ beBytes16 sum ++ addrs ++ buf.drop ipv4HeaderLen
  ipv6 r buf := ipv6Front r ++ (r.src.toList ++ r.dst.toList) ++ buf.drop ipv6HeaderLen
  fields r n buf :=
    beBytes16 r.srcPort ++ beBytes16 r.dstPort ++ beBytes16 (.ofNat n) ++ buf.drop 6
  checksum src dst buf :=
    buf.take 6 ++ beBytes16 (datagramChecksum src dst buf) ++ buf.drop headerLen

theorem Emit.plain_lawful : Emit.plain.Lawful where
  ipv4 := by
    intro r buf hbuf
    have h12 (c : UInt16) : (ipv4Front r ++ beBytes16 c).length = 12 := rfl
    have h16 (c : UInt16) : (ipv4Front r ++ beBytes16 c ++ r.src.toList).length = 16 := by
      rw [List.length_append, h12, List.Vector.toList_length]
    refine ⟨ipv4Front r ++ beBytes16 (onesChecksum (wordSum (ipv4Front r ++
      (r.src.toList ++ r.dst.toList)))) ++ (r.src.toList ++ r.dst.toList), ?_, rfl, rfl, ?_, rfl,
      ?_, ?_⟩
    · rw [List.length_append, h12]
      simp [ipv4HeaderLen]
    · exact join16_beBytes _
    · exact v4At_behind (h12 _) _ _
    · rw [← List.append_assoc, ← List.append_nil r.dst.toList]
      exact v4At_behind (h16 _) _ _
  ipv6 := by
    intro r buf hbuf
    have h8 : (ipv6Front r).length = 8 := rfl
    have h24 : (ipv6Front r ++ r.src.toList).length = 24 := by
      rw [List.length_append, h8, List.Vector.toList_length]
    refine ⟨ipv6Front r ++ (r.src.toList ++ r.dst.toList), ?_, rfl, rfl, ?_, rfl, ?_, ?_⟩
    · rw [List.length_append, h8]
      simp [ipv6HeaderLen]
    · exact join16_beBytes _
    · exact v6At_behind h8 _ _
    · rw [← List.append_assoc, ← List.append_nil r.dst.toList]
      exact v6At_behind h24 _ _
  fields := by
    intro r n buf hbuf
    exact ⟨beBytes16 r.srcPort ++ beBytes16 r.dstPort ++ beBytes16 (.ofNat n), rfl, rfl,
      join16_beBytes _, join16_beBytes _, join16_beBytes _⟩
  checksum := by
    intro src dst buf hbuf
    exact ⟨beBytes16 (datagramChecksum src dst buf), rfl, rfl⟩

/-- Views that check the lengths of the headers and delimit the payloads by them. -/
def checkedWire : Wire where
  ipv4 b :=
    let total := (u16be b 2).toNat
    if ipv4HeaderLen ≤ ihl b ∧ ihl b ≤ total ∧ total ≤ b.length then
      some ⟨v4At b 12, v4At b 16, byteAt b 9, (b.take total).drop (ihl b)⟩
    else none
  ipv6 b :=
    let total := ipv6HeaderLen + (u16be b 4).toNat
    if total ≤ b.length then
      some ⟨v6At b 8, v6At b 24, byteAt b 6, (b.take total).drop ipv6HeaderLen⟩
    else none
  udp b :=
    let len := (u16be b 4).toNat
    if headerLen ≤ len ∧ len ≤ b.length then
      some ⟨u16be b 0, u16be b 2, (b.take len).drop headerLen⟩
    else none
  tcp := Wire.plain.tcp

theorem checkedWire_exact : Wire.Exact checkedWire where
  ipv4 := by
    intro b hver hlo hhi
    have hihl : ihl b = ipv4HeaderLen := by
      rw [ihl, hver]
      rfl
    simp [checkedWire, hihl, hlo, hhi]
  ipv6 := by
    intro b _ hhi
    simp [checkedWire, hhi]
  udp := by
    intro b hlo hhi
    simp [checkedWire, hlo, hhi]

end Concrete

def appAddr : SocketAddr := ⟨.ofOctets 10 215 173 2, 40000⟩

def resolverAddr : SocketAddr := ⟨.ofOctets 8 8 8 8, 53⟩

theorem replies_faithfully_answer :
    resolverAddr.isIpv4 = appAddr.isIpv4 ∧
      (RepliesFaithfully .plain checkedWire resolverAddr appAddr (ascii "answer") ↔
        (ascii "answer").length ≤ maxPayload resolverAddr) :=
  ⟨rfl, replies_faithfully_iff Emit.plain_lawful checkedWire_exact resolverAddr appAddr rfl
    (ascii "answer")⟩

/-- An answer that DNS over TCP can carry and whose reply is not built. -/
theorem long_answer_panics :
    ¬ RepliesFaithfully .plain checkedWire resolverAddr appAddr (List.replicate 65508 0) := by
  rintro ⟨reply, hbuilt, -⟩
  have hfamily : resolverAddr.isIpv4 = appAddr.isIpv4 := rfl
  have hle := le_of_buildReply Emit.plain_lawful hfamily hbuilt
  rw [List.length_replicate] at hle
  exact absurd hle (by decide)

end Udp

end Adwarden.Net
