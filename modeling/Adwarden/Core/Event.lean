import Adwarden.Net.Packet

/-! The events that the datapath reports. Their time stamps are left out. -/
namespace Adwarden.Core
open Adwarden.Net

def kindFlow : UInt8 := 0

def kindDnsBlock : UInt8 := 1

def kindTlsPinned : UInt8 := 2

def verdictAllow : UInt8 := 0

def verdictBlock : UInt8 := 1

def protoCode : L4 → UInt8
  | .tcp => 0
  | .udp => 1
  | .icmp => 2
  | .other => 3

structure Event where
  kind : UInt8
  ipVersion : UInt8
  proto : UInt8
  verdict : UInt8
  uid : ℤ
  srcPort : UInt16
  dstPort : UInt16
  length : ℕ
  src : Bytes
  dst : Bytes
  domain : Option Str
deriving DecidableEq

/-- The sixteen bytes of an address field. -/
def ipBytes (ip : IpAddr) : Bytes := ip.octets ++ List.replicate (16 - ip.octets.length) 0

namespace Event

def fromDecoded (d : Decoded) (kind verdict : UInt8) (domain : Option Str) : Event where
  kind := kind
  ipVersion := d.ipVersion
  proto := protoCode d.proto
  verdict := verdict
  uid := -1
  srcPort := d.srcPort
  dstPort := d.dstPort
  length := d.length
  src := ipBytes d.src
  dst := ipBytes d.dst
  domain := domain

def flow (d : Decoded) : Event := fromDecoded d kindFlow verdictAllow none

def blocked (d : Decoded) : Event := fromDecoded d kindFlow verdictBlock none

def blockedDomain (d : Decoded) (domain : Str) : Event :=
  fromDecoded d kindDnsBlock verdictBlock (some domain)

/-- An event of a TCP flow of which only the upstream endpoint is at hand. -/
def ofServer (server : SocketAddr) (kind verdict : UInt8) (uid : ℤ) (domain : Option Str) :
    Event where
  kind := kind
  ipVersion := if server.isIpv4 then 4 else 6
  proto := protoCode .tcp
  verdict := verdict
  uid := uid
  srcPort := 0
  dstPort := server.port
  length := 0
  src := List.replicate 16 0
  dst := ipBytes server.ip
  domain := domain

def blockedFlow (server : SocketAddr) : Event := ofServer server kindFlow verdictBlock (-1) none

def flowTo (server : SocketAddr) : Event := ofServer server kindFlow verdictAllow (-1) none

def encDnsBlocked (uid : ℤ) (server : SocketAddr) (domain : Str) : Event :=
  ofServer server kindDnsBlock verdictBlock uid (some domain)

def tlsPinned (uid : ℤ) (dst : SocketAddr) (host : Option Str) : Event :=
  ofServer dst kindTlsPinned verdictAllow uid host

def withUid (e : Event) (uid : ℤ) : Event := { e with uid := uid }

def withDomain (e : Event) (domain : Option Str) : Event := { e with domain := domain }

end Event

end Adwarden.Core
