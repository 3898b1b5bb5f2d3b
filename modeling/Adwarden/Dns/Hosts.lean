import Adwarden.Rust.Addr
import Adwarden.Rust.Str

/-! The public resolvers known by name and by address. -/
namespace Adwarden.Dns

def dohHosts : List Str :=
  ["dns.google", "dns.google.com", "cloudflare-dns.com", "mozilla.cloudflare-dns.com",
    "one.one.one.one", "dns.quad9.net", "doh.opendns.com", "dns.adguard.com",
    "dns.adguard-dns.com", "chrome.cloudflare-dns.com", "doh.cleanbrowsing.org",
    "dns.nextdns.io", "doh.mullvad.net", "dns10.quad9.net", "dns11.quad9.net",
    "dns.controld.com", "freedns.controld.com"].map Str.lit

/-- `s.trim_end_matches(c)`. -/
def trimEndMatches (c : Char) (s : Str) : Str := (s.reverse.dropWhile (· == c)).reverse

/-- Whether a server name is a known resolver or a subdomain of one. -/
def isDohHost (sni : Str) : Bool :=
  let sni := (trimEndMatches '.' sni).toAsciiLowercase
  dohHosts.any fun h => sni == h || sni.endsWith ('.' :: h)

def ip4 (a b c d : UInt8) : IpAddr := .ofOctets a b c d

def ip6 (a b c d e f g h : UInt16) : IpAddr :=
  .v6 ⟨[a, b, c, d, e, f, g, h].flatMap fun s : UInt16 => [(s >>> 8).toUInt8, s.toUInt8], rfl⟩

def knownDohIps : List IpAddr :=
  [ip4 1 1 1 1, ip4 1 0 0 1, ip4 8 8 8 8, ip4 8 8 4 4, ip4 9 9 9 9, ip4 149 112 112 112,
    ip4 94 140 14 14, ip4 94 140 15 15, ip4 208 67 222 222, ip4 208 67 220 220,
    ip6 0x2606 0x4700 0x4700 0 0 0 0 0x1111, ip6 0x2606 0x4700 0x4700 0 0 0 0 0x1001,
    ip6 0x2001 0x4860 0x4860 0 0 0 0 0x8888, ip6 0x2001 0x4860 0x4860 0 0 0 0 0x8844,
    ip6 0x2620 0xfe 0 0 0 0 0 0xfe, ip6 0x2620 0xfe 0 0 0 0 0 0x9]

def isKnownDohIp (ip : IpAddr) : Bool := knownDohIps.contains ip

end Adwarden.Dns
