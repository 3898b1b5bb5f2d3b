import Mathlib.Data.Vector.Basic
import Adwarden.Rust.Addr

/-! Packets read off the tunnel: the decoder that classifies them into a 5-tuple, and the parsers
of the forwarding paths. The latter read the headers through the views of the smoltcp library,
which are a parameter. -/
namespace Adwarden.Net

inductive L4 where
  | tcp
  | udp
  | icmp
  | other
deriving DecidableEq

def protoIcmp : UInt8 := 1

def protoTcp : UInt8 := 6

def protoUdp : UInt8 := 17

def protoIcmpv6 : UInt8 := 58

def L4.of (proto : UInt8) : L4 :=
  if proto = protoTcp then .tcp
  else if proto = protoUdp then .udp
  else if proto = protoIcmp ∨ proto = protoIcmpv6 then .icmp
  else .other

structure Decoded where
  ipVersion : UInt8
  proto : L4
  src : IpAddr
  dst : IpAddr
  srcPort : UInt16
  dstPort : UInt16
  /-- The length in the IP header, or that of the buffer. -/
  length : ℕ
deriving DecidableEq

def byteAt (b : Bytes) (o : ℕ) : UInt8 := b.getD o 0

def u16be (b : Bytes) (o : ℕ) : UInt16 := (byteAt b o).toUInt16 <<< 8 ||| (byteAt b (o + 1)).toUInt16

def v4At (b : Bytes) (o : ℕ) : IpAddr := .v4 (.ofFn fun i => byteAt b (o + i))

def v6At (b : Bytes) (o : ℕ) : IpAddr := .v6 (.ofFn fun i => byteAt b (o + i))

theorem byteAt_append {h : Bytes} {o : ℕ} (t : Bytes) (ho : o < h.length) :
    byteAt (h ++ t) o = byteAt h o := by
  simp [byteAt, List.getD_eq_getElem?_getD, List.getElem?_append_left ho]

theorem u16be_append {h : Bytes} {o : ℕ} (t : Bytes) (ho : o + 1 < h.length) :
    u16be (h ++ t) o = u16be h o := by
  rw [u16be, u16be, byteAt_append t (by omega), byteAt_append t ho]

theorem v4At_append {h : Bytes} {o : ℕ} (t : Bytes) (ho : o + 4 ≤ h.length) :
    v4At (h ++ t) o = v4At h o := by
  unfold v4At
  congr 2
  funext i
  exact byteAt_append t (by omega)

theorem v6At_append {h : Bytes} {o : ℕ} (t : Bytes) (ho : o + 16 ≤ h.length) :
    v6At (h ++ t) o = v6At h o := by
  unfold v6At
  congr 2
  funext i
  exact byteAt_append t (by omega)

theorem byteAt_behind {p : Bytes} {n : ℕ} (hp : p.length = n) (t : Bytes) (i : ℕ) :
    byteAt (p ++ t) (n + i) = byteAt t i := by
  subst hp
  simp [byteAt, List.getD_eq_getElem?_getD, List.getElem?_append_right]

theorem v4At_behind {p : Bytes} {n : ℕ} (hp : p.length = n) (v : List.Vector UInt8 4)
    (t : Bytes) : v4At (p ++ (v.toList ++ t)) n = .v4 v := by
  unfold v4At
  congr 1
  apply List.Vector.ext
  intro i
  rw [List.Vector.get_ofFn, byteAt_behind hp, byteAt_append t (by simp)]
  simp [byteAt, List.getD_eq_getElem?_getD, List.Vector.get_eq_get_toList]

theorem v6At_behind {p : Bytes} {n : ℕ} (hp : p.length = n) (v : List.Vector UInt8 16)
    (t : Bytes) : v6At (p ++ (v.toList ++ t)) n = .v6 v := by
  unfold v6At
  congr 1
  apply List.Vector.ext
  intro i
  rw [List.Vector.get_ofFn, byteAt_behind hp, byteAt_append t (by simp)]
  simp [byteAt, List.getD_eq_getElem?_getD, List.Vector.get_eq_get_toList]

/-- The header length of an IPv4 packet. -/
def ihl (buf : Bytes) : ℕ := (byteAt buf 0 &&& 0x0F).toNat * 4

def ports (buf : Bytes) (l4Off : ℕ) (proto : L4) : UInt16 × UInt16 :=
  if (proto = .tcp ∨ proto = .udp) ∧ l4Off + 4 ≤ buf.length then
    (u16be buf l4Off, u16be buf (l4Off + 2))
  else (0, 0)

def clampLen (reported actual : ℕ) : ℕ :=
  if 1 ≤ reported ∧ reported ≤ actual then reported else actual % 2 ^ 32

def decodeV4 (buf : Bytes) : Option Decoded :=
  let ihl := ihl buf
  if ihl < 20 ∨ buf.length < ihl then none
  else
    let proto := L4.of (byteAt buf 9)
    let p := ports buf ihl proto
    some
      { ipVersion := 4
        proto := proto
        src := v4At buf 12
        dst := v4At buf 16
        srcPort := p.1
        dstPort := p.2
        length := clampLen (u16be buf 2).toNat buf.length }

def decodeV6 (buf : Bytes) : Option Decoded :=
  if buf.length < 40 then none
  else
    let proto := L4.of (byteAt buf 6)
    let p := ports buf 40 proto
    some
      { ipVersion := 6
        proto := proto
        src := v6At buf 8
        dst := v6At buf 24
        srcPort := p.1
        dstPort := p.2
        length := clampLen (40 + (u16be buf 4).toNat) buf.length }

/-- Decode the leading headers, `none` for a runt or an unknown version. -/
def decode (buf : Bytes) : Option Decoded :=
  if buf.length < 20 then none
  else if byteAt buf 0 >>> 4 = 4 then decodeV4 buf
  else if byteAt buf 0 >>> 4 = 6 then decodeV6 buf
  else none

/-- What a checked view of an IP packet shows. -/
structure IpView where
  src : IpAddr
  dst : IpAddr
  nextHeader : UInt8
  payload : Bytes
deriving DecidableEq

structure UdpView where
  srcPort : UInt16
  dstPort : UInt16
  payload : Bytes
deriving DecidableEq

structure TcpView where
  srcPort : UInt16
  dstPort : UInt16
  syn : Bool
  ack : Bool
deriving DecidableEq

/-- The header views of the library: `new_checked` and the accessors. -/
structure Wire where
  ipv4 : Bytes → Option IpView
  ipv6 : Bytes → Option IpView
  udp : Bytes → Option UdpView
  tcp : Bytes → Option TcpView

/-- Where the views read: the fields of the headers, and ports in front of the payload. -/
structure Wire.Lawful (w : Wire) : Prop where
  ipv4 : ∀ {b v}, w.ipv4 b = some v → v.src = v4At b 12 ∧ v.dst = v4At b 16 ∧
    v.nextHeader = byteAt b 9 ∧ v.payload <+: b.drop (ihl b)
  ipv6 : ∀ {b v}, w.ipv6 b = some v → v.src = v6At b 8 ∧ v.dst = v6At b 24 ∧
    v.nextHeader = byteAt b 6 ∧ v.payload <+: b.drop 40
  udp : ∀ {b v}, w.udp b = some v → 4 ≤ b.length ∧ v.srcPort = u16be b 0 ∧ v.dstPort = u16be b 2
  tcp : ∀ {b v}, w.tcp b = some v → 4 ≤ b.length ∧ v.srcPort = u16be b 0 ∧ v.dstPort = u16be b 2

/-- Views that look no further than at the fields they show. -/
def Wire.plain : Wire where
  ipv4 b :=
    if 20 ≤ ihl b ∧ ihl b ≤ b.length then some ⟨v4At b 12, v4At b 16, byteAt b 9, b.drop (ihl b)⟩
    else none
  ipv6 b :=
    if 40 ≤ b.length then some ⟨v6At b 8, v6At b 24, byteAt b 6, b.drop 40⟩ else none
  udp b := if 8 ≤ b.length then some ⟨u16be b 0, u16be b 2, b.drop 8⟩ else none
  tcp b :=
    if 20 ≤ b.length then
      some ⟨u16be b 0, u16be b 2, byteAt b 13 &&& 0x02 != 0, byteAt b 13 &&& 0x10 != 0⟩
    else none

theorem Wire.plain_lawful : Wire.plain.Lawful where
  ipv4 := by
    intro b v h
    simp only [plain] at h
    split_ifs at h with hlen
    obtain rfl := Option.some.inj h
    exact ⟨rfl, rfl, rfl, List.prefix_rfl⟩
  ipv6 := by
    intro b v h
    simp only [plain] at h
    split_ifs at h with hlen
    obtain rfl := Option.some.inj h
    exact ⟨rfl, rfl, rfl, List.prefix_rfl⟩
  udp := by
    intro b v h
    simp only [plain] at h
    split_ifs at h with hlen
    obtain rfl := Option.some.inj h
    exact ⟨by omega, rfl, rfl⟩
  tcp := by
    intro b v h
    simp only [plain] at h
    split_ifs at h with hlen
    obtain rfl := Option.some.inj h
    exact ⟨by omega, rfl, rfl⟩

/-- A datagram, from an app or towards one. -/
structure UdpDatagram where
  src : SocketAddr
  dst : SocketAddr
  payload : Bytes
deriving DecidableEq

structure TcpPeek where
  app : SocketAddr
  server : SocketAddr
  syn : Bool
  ack : Bool
deriving DecidableEq

section Views

variable (w : Wire)

/-- The view that the version nibble selects. -/
def ipView (packet : Bytes) : Option IpView :=
  match packet with
  | [] => none
  | b :: _ =>
    if b >>> 4 = 4 then w.ipv4 packet else if b >>> 4 = 6 then w.ipv6 packet else none

/-- `udp::parse`. -/
def parseUdp (packet : Bytes) : Option UdpDatagram := do
  let ip ← ipView w packet
  if ip.nextHeader ≠ protoUdp then none
  else
    let udp ← w.udp ip.payload
    some ⟨⟨ip.src, udp.srcPort⟩, ⟨ip.dst, udp.dstPort⟩, udp.payload⟩

def peekTcp (packet : Bytes) : Option TcpPeek := do
  let ip ← ipView w packet
  if ip.nextHeader ≠ protoTcp then none
  else
    let tcp ← w.tcp ip.payload
    some ⟨⟨ip.src, tcp.srcPort⟩, ⟨ip.dst, tcp.dstPort⟩, tcp.syn, tcp.ack⟩

/-- Whether `reset_for_syn` answers a packet with a RST. -/
def resetsSyn (packet : Bytes) : Bool := ((peekTcp w packet).map TcpPeek.syn).getD false

end Views

/-- The decoder reports this protocol and these ends. -/
structure Reports (d : Decoded) (proto : L4) (src dst : SocketAddr) : Prop where
  proto : d.proto = proto
  src : (⟨d.src, d.srcPort⟩ : SocketAddr) = src
  dst : (⟨d.dst, d.dstPort⟩ : SocketAddr) = dst

section Ports

variable {buf payload : Bytes} {k : ℕ}

theorem u16be_of_initial {o : ℕ} (hp : payload <+: buf.drop k) (ho : o + 1 < payload.length) :
    u16be buf (k + o) = u16be payload o := by
  obtain ⟨t, ht⟩ := hp
  have hbyte (i : ℕ) : byteAt buf (k + i) = byteAt (payload ++ t) i := by
    rw [ht, byteAt, byteAt, List.getD_eq_getElem?_getD, List.getD_eq_getElem?_getD,
      List.getElem?_drop]
  rw [← u16be_append t ho, u16be, u16be, hbyte, Nat.add_assoc, hbyte]

/-- The ports in front of a payload that starts at the offset. -/
theorem ports_of_initial {proto : L4} (hp : payload <+: buf.drop k) (hlen : 4 ≤ payload.length)
    (hproto : proto = .tcp ∨ proto = .udp) :
    ports buf k proto = (u16be payload 0, u16be payload 2) := by
  have hroom : k + 4 ≤ buf.length := by
    have hle := hp.length_le
    rw [List.length_drop] at hle
    omega
  rw [ports, if_pos ⟨hproto, hroom⟩, ← u16be_of_initial hp (by omega),
    ← u16be_of_initial hp (by omega)]
  rfl

end Ports

section Agreement

variable {w : Wire} {packet : Bytes} {d : Decoded} {v : IpView}

/-- The header that the decoder and a view of the packet both read. -/
structure SameHeader (packet : Bytes) (d : Decoded) (v : IpView) (k : ℕ) : Prop where
  src : d.src = v.src
  dst : d.dst = v.dst
  proto : d.proto = L4.of v.nextHeader
  ports : (d.srcPort, d.dstPort) = ports packet k d.proto
  payload : v.payload <+: packet.drop k

theorem decode_view (hw : w.Lawful) (h : decode packet = some d) (hv : ipView w packet = some v) :
    ∃ k, SameHeader packet d v k := by
  cases packet with
  | nil => cases hv
  | cons b rest =>
    have hb : byteAt (b :: rest) 0 = b := rfl
    unfold decode at h
    simp only [ipView] at hv
    rw [hb] at h
    split_ifs at h with hlen h4 h6
    · rw [if_pos h4] at hv
      obtain ⟨hsrc, hdst, hnext, hpay⟩ := hw.ipv4 hv
      simp only [decodeV4] at h
      split_ifs at h
      obtain rfl := Option.some.inj h
      exact ⟨_, hsrc.symm, hdst.symm, congrArg L4.of hnext.symm, rfl, hpay⟩
    · rw [if_neg h4, if_pos h6] at hv
      obtain ⟨hsrc, hdst, hnext, hpay⟩ := hw.ipv6 hv
      simp only [decodeV6] at h
      split_ifs at h
      obtain rfl := Option.some.inj h
      exact ⟨_, hsrc.symm, hdst.symm, congrArg L4.of hnext.symm, rfl, hpay⟩

theorem SameHeader.reports {k : ℕ} {proto : L4} {srcPort dstPort : UInt16}
    (h : SameHeader packet d v k) (hproto : L4.of v.nextHeader = proto)
    (hl4 : proto = .tcp ∨ proto = .udp)
    (hports : 4 ≤ v.payload.length ∧ srcPort = u16be v.payload 0 ∧ dstPort = u16be v.payload 2) :
    Reports d proto ⟨v.src, srcPort⟩ ⟨v.dst, dstPort⟩ := by
  obtain ⟨hlen, rfl, rfl⟩ := hports
  have hd : d.proto = proto := h.proto.trans hproto
  have hp := h.ports
  rw [ports_of_initial h.payload hlen (hd ▸ hl4)] at hp
  obtain ⟨hsrc, hdst⟩ := Prod.mk.inj hp
  exact ⟨hd, by rw [h.src, hsrc], by rw [h.dst, hdst]⟩

end Agreement

/-- Whatever a forwarding parser accepts, the decoder has reported with the same ends. -/
theorem forwarded_as_decoded {w : Wire} (hw : w.Lawful) {packet : Bytes} {d : Decoded}
    (h : decode packet = some d) :
    (∀ u, parseUdp w packet = some u → Reports d .udp u.src u.dst) ∧
      ∀ t, peekTcp w packet = some t → Reports d .tcp t.app t.server := by
  constructor
  · intro u hu
    obtain ⟨v, hv, hu⟩ := Option.bind_eq_some_iff.mp hu
    split_ifs at hu with hnext
    obtain ⟨udp, hview, hu⟩ := Option.bind_eq_some_iff.mp hu
    obtain rfl := Option.some.inj hu
    obtain ⟨k, hsame⟩ := decode_view hw h hv
    refine hsame.reports ?_ (Or.inr rfl) (hw.udp hview)
    rw [not_not.mp hnext]
    rfl
  · intro t ht
    obtain ⟨v, hv, ht⟩ := Option.bind_eq_some_iff.mp ht
    split_ifs at ht with hnext
    obtain ⟨tcp, hview, ht⟩ := Option.bind_eq_some_iff.mp ht
    obtain rfl := Option.some.inj ht
    obtain ⟨k, hsame⟩ := decode_view hw h hv
    refine hsame.reports ?_ (Or.inl rfl) (hw.tcp hview)
    rw [not_not.mp hnext]
    rfl

/-- A query to port 53 behind a header with one word of options. -/
private def optionsPacket : Bytes :=
  [0x46, 0, 0, 33, 0, 0, 0, 0, 64, 17, 0, 0, 10, 0, 0, 2, 8, 8, 8, 8, 1, 1, 1, 0,
    0x9C, 0x40, 0, 53, 0, 9, 0, 0, 0x61]

private def optionsDecoded : Decoded where
  ipVersion := 4
  proto := .udp
  src := .ofOctets 10 0 0 2
  dst := .ofOctets 8 8 8 8
  srcPort := 40000
  dstPort := 53
  length := 33

theorem forwarded_as_decoded_options :
    decode optionsPacket = some optionsDecoded ∧
      (∀ u, parseUdp .plain optionsPacket = some u → Reports optionsDecoded .udp u.src u.dst) ∧
      ∀ t, peekTcp .plain optionsPacket = some t → Reports optionsDecoded .tcp t.app t.server := by
  have hdecode : decode optionsPacket = some optionsDecoded := by decide +kernel
  exact ⟨hdecode, forwarded_as_decoded Wire.plain_lawful hdecode⟩

end Adwarden.Net
