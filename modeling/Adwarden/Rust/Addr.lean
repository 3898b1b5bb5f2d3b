import Mathlib.Data.Vector.Basic
import Adwarden.Rust.Str

/-! Internet addresses (`std::net`). -/
namespace Adwarden

/-- An address by its octets, in network order. -/
inductive IpAddr where
  | v4 (octets : List.Vector UInt8 4)
  | v6 (octets : List.Vector UInt8 16)
deriving DecidableEq

structure SocketAddr where
  ip : IpAddr
  port : UInt16
deriving DecidableEq

/-- `Ipv4Addr::new(a, b, c, d)`. -/
def IpAddr.ofOctets (a b c d : UInt8) : IpAddr := .v4 ⟨[a, b, c, d], rfl⟩

def IpAddr.octets : IpAddr → Bytes
  | .v4 octets => octets.toList
  | .v6 octets => octets.toList

/-- `ip.is_unspecified()`. -/
def IpAddr.isUnspecified (ip : IpAddr) : Bool := ip.octets.all (· == 0)

def IpAddr.isIpv4 : IpAddr → Bool
  | .v4 _ => true
  | .v6 _ => false

def SocketAddr.isIpv4 (a : SocketAddr) : Bool := a.ip.isIpv4

namespace IpAddr

/-- `ip.to_string()` of the octets of a v4 address. -/
def displayV4 (octets : Bytes) : Str := Str.join ['.'] (octets.map fun b => Str.ofNat b.toNat)

/-- The 16-bit segments of a v6 address. -/
def segments : Bytes → List ℕ
  | hi :: lo :: rest => (hi.toNat * 256 + lo.toNat) :: segments rest
  | _ => []

/-- The first of the longest runs of zero segments, as its start and its length; `i` is the
position, `cur` and `best` are the runs so far. -/
def zeroRun : (i : ℕ) → (cur best : ℕ × ℕ) → List ℕ → ℕ × ℕ
  | _, _, best, [] => best
  | i, cur, best, s :: rest =>
    let cur := if s = 0 then (if cur.2 = 0 then i else cur.1, cur.2 + 1) else (0, 0)
    zeroRun (i + 1) cur (if best.2 < cur.2 then cur else best) rest

def displaySegments (ss : List ℕ) : Str := Str.join [':'] (ss.map Str.ofNatHex)

def displayV6 (octets : Bytes) : Str :=
  if octets.take 12 = List.replicate 10 0 ++ [0xFF, 0xFF] then
    Str.lit "::ffff:" ++ displayV4 (octets.drop 12)
  else
    let ss := segments octets
    let run := zeroRun 0 (0, 0) (0, 0) ss
    if 1 < run.2 then
      displaySegments (ss.take run.1) ++ [':', ':'] ++ displaySegments (ss.drop (run.1 + run.2))
    else displaySegments ss

/-- `ip.to_string()`. -/
def display : IpAddr → Str
  | .v4 octets => displayV4 octets.toList
  | .v6 octets => displayV6 octets.toList

end IpAddr

/-- `addr.to_string()`. -/
def SocketAddr.display (a : SocketAddr) : Str :=
  match a.ip with
  | .v4 _ => a.ip.display ++ [':'] ++ Str.ofNat a.port.toNat
  | .v6 _ => ['['] ++ a.ip.display ++ [']', ':'] ++ Str.ofNat a.port.toNat

end Adwarden
