import Adwarden.Rust.Str

/-! The settings that the VPN service pushes live to the native core, and the configuration fields
it makes of them. -/
namespace Adwarden.Vpn

inductive EncryptedDnsMode where
  | off | block | filter
deriving DecidableEq

inductive DnsTransport where
  | plain | dot | doh
deriving DecidableEq

/-- The custom-DNS settings. -/
structure DnsCfg where
  transport : DnsTransport
  server : Str
  port : ℤ
  dotHost : Str
  dotPort : ℤ
  dohUrl : Str
deriving DecidableEq

/-- The subset of the settings that is pushed with `nativeUpdateConfig`. -/
structure LiveConfig where
  encryptedDnsMode : EncryptedDnsMode
  elementHiding : Bool
  scriptlets : Bool
  proxyDnsOverTcp : Bool
  dns : DnsCfg
deriving DecidableEq

/-- The DNS fields of the configuration handed to the core. -/
structure DnsJson where
  dnsTransport : DnsTransport
  dnsServers : List Str
  dnsPort : ℤ
  dnsHost : Option Str
  dnsPath : Option Str
deriving DecidableEq

/-- The fields of a session's configuration that `nativeUpdateConfig` sets and `nativeStart`
starts with. -/
structure NativeConfig where
  encryptedDnsMode : EncryptedDnsMode
  cosmeticElementHiding : Bool
  cosmeticScriptlets : Bool
  proxyDnsOverTcp : Bool
  dns : DnsJson
deriving DecidableEq

/-- What the platform answers, the same throughout a run: the system resolver, and the parts of a
URL (`android.net.Uri`). -/
structure Platform where
  getByName : Str → Option Str
  uriHost : Str → Option Str
  uriPath : Str → Option Str
  uriPort : Str → ℤ

/-- `Char.isWhitespace`. -/
def isWhitespace (c : Char) : Bool :=
  let n := c.toNat
  (9 ≤ n && n ≤ 13) || (28 ≤ n && n ≤ 32) || n == 0xA0 || n == 0x1680 ||
    (0x2000 ≤ n && n ≤ 0x200A) || n == 0x2028 || n == 0x2029 || n == 0x202F || n == 0x205F ||
    n == 0x3000

def trim (s : Str) : Str := ((s.dropWhile isWhitespace).reverse.dropWhile isWhitespace).reverse

def upstreamDns : List Str := [Str.lit "1.1.1.1"]

/-- Dial addresses of the built-in presets. -/
def dnsPresetIps : List (Str × Str) :=
  [(Str.lit "cloudflare-dns.com", Str.lit "1.1.1.1"), (Str.lit "dns.google", Str.lit "8.8.8.8"),
    (Str.lit "dns.quad9.net", Str.lit "9.9.9.9"),
    (Str.lit "dns.adguard-dns.com", Str.lit "94.140.14.14")]

def bootstrapIp (platform : Platform) (host : Str) : Option Str :=
  if host = [] then none
  else match dnsPresetIps.lookup host with
    | some ip => some ip
    | none => platform.getByName host

def upstreamDnsJson (server : Str) : List Str :=
  if trim server = [] then upstreamDns else [trim server]

def portOr (default port : ℤ) : ℤ := if 1 ≤ port ∧ port ≤ 65535 then port else default

def dnsPort (port : ℤ) : ℤ := portOr 53 port

/-- An unresolved resolver name leaves out `dns_host`, so that the core fails DNS closed. -/
def putDnsConfig (platform : Platform) (cfg : DnsCfg) : DnsJson :=
  match cfg.transport with
  | .plain => ⟨.plain, upstreamDnsJson cfg.server, dnsPort cfg.port, none, none⟩
  | .dot =>
    let host := trim cfg.dotHost
    match bootstrapIp platform host with
    | some ip => ⟨.dot, [ip], portOr 853 cfg.dotPort, some host, none⟩
    | none => ⟨.dot, [], portOr 853 cfg.dotPort, none, none⟩
  | .doh =>
    let uri := trim cfg.dohUrl
    let host := (platform.uriHost uri).getD []
    let path := match platform.uriPath uri with
      | some path => if path = [] then Str.lit "/dns-query" else path
      | none => Str.lit "/dns-query"
    match bootstrapIp platform host with
    | some ip => ⟨.doh, [ip], portOr 443 (platform.uriPort uri), some host, some path⟩
    | none => ⟨.doh, [], portOr 443 (platform.uriPort uri), none, none⟩

/-- The live fields of `buildConfigJson`, and all fields of the collector's update. -/
def LiveConfig.native (platform : Platform) (c : LiveConfig) : NativeConfig where
  encryptedDnsMode := c.encryptedDnsMode
  cosmeticElementHiding := c.elementHiding
  cosmeticScriptlets := c.scriptlets
  proxyDnsOverTcp := c.proxyDnsOverTcp
  dns := putDnsConfig platform c.dns

end Adwarden.Vpn
