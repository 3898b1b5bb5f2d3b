import Adwarden.Dns.Query

/-! What an encrypted-DNS filter emits, the DNS query inside a DoH request, and the requests and
responses the filter writes itself. -/
namespace Adwarden.Tls
open Adwarden.Dns

/-- What an encrypted-DNS filter does with client bytes, in order. -/
inductive DnsEmit where
  /-- A plaintext byte forwarded to the real resolver. -/
  | upstream (b : UInt8)
  /-- A plaintext byte sent back to the client. -/
  | app (b : UInt8)
  /-- A name sinkholed, for the datapath's block events. -/
  | blocked (name : Str)
deriving DecidableEq

/-- Output of feeding one direction of plaintext through the filter. -/
structure DnsCross where
  toUpstream : Bytes := []
  toApp : Bytes := []
deriving DecidableEq

namespace DnsEmit

def toUpstream (es : List DnsEmit) : Bytes :=
  es.filterMap fun | upstream b => some b | _ => none

def toApp (es : List DnsEmit) : Bytes :=
  es.filterMap fun | app b => some b | _ => none

def names (es : List DnsEmit) : List Str :=
  es.filterMap fun | blocked n => some n | _ => none

def cross (es : List DnsEmit) : DnsCross := { toUpstream := toUpstream es, toApp := toApp es }

@[simp] theorem toUpstream_nil : toUpstream [] = [] := rfl

@[simp] theorem toApp_nil : toApp [] = [] := rfl

@[simp] theorem names_nil : names [] = [] := rfl

@[simp] theorem toUpstream_append (a b : List DnsEmit) :
    toUpstream (a ++ b) = toUpstream a ++ toUpstream b := List.filterMap_append

@[simp] theorem toApp_append (a b : List DnsEmit) : toApp (a ++ b) = toApp a ++ toApp b :=
  List.filterMap_append

@[simp] theorem names_append (a b : List DnsEmit) : names (a ++ b) = names a ++ names b :=
  List.filterMap_append

@[simp] theorem toUpstream_map_upstream (b : Bytes) : toUpstream (b.map upstream) = b := by
  simp [toUpstream, List.filterMap_map]

@[simp] theorem toUpstream_map_app (b : Bytes) : toUpstream (b.map app) = [] := by
  simp [toUpstream, List.filterMap_map]

@[simp] theorem toApp_map_app (b : Bytes) : toApp (b.map app) = b := by
  simp [toApp, List.filterMap_map]

@[simp] theorem toApp_map_upstream (b : Bytes) : toApp (b.map upstream) = [] := by
  simp [toApp, List.filterMap_map]

@[simp] theorem names_map_upstream (b : Bytes) : names (b.map upstream) = [] := by
  simp [names, List.filterMap_map]

@[simp] theorem names_map_app (b : Bytes) : names (b.map app) = [] := by
  simp [names, List.filterMap_map]

@[simp] theorem toUpstream_blocked (n : Str) (es : List DnsEmit) :
    toUpstream (blocked n :: es) = toUpstream es := rfl

@[simp] theorem toApp_blocked (n : Str) (es : List DnsEmit) :
    toApp (blocked n :: es) = toApp es := rfl

@[simp] theorem names_blocked (n : Str) (es : List DnsEmit) :
    names (blocked n :: es) = n :: names es := rfl

end DnsEmit

/-- What was extracted from a DoH request. -/
inductive Extracted where
  /-- Wire-format DNS query. -/
  | wire (wire : Bytes)
  /-- JSON DoH: the queried name from a `?name=` parameter. -/
  | jsonName (name : Str)
  /-- No query found: the request is proxied unfiltered. -/
  | unknown
deriving DecidableEq

def b64urlVal (c : UInt8) : Option UInt32 :=
  if 65 ≤ c ∧ c ≤ 90 then some (c - 65).toUInt32
  else if 97 ≤ c ∧ c ≤ 122 then some (c - 97 + 26).toUInt32
  else if 48 ≤ c ∧ c ≤ 57 then some (c - 48 + 52).toUInt32
  else if c = 45 then some 62
  else if c = 95 then some 63
  else none

def b64urlLoop : Bytes → UInt32 → UInt32 → Option Bytes
  | [], _, _ => some []
  | c :: rest, acc, bits => do
    let v ← b64urlVal c
    let acc := acc <<< 6 ||| v
    let bits := bits + 6
    if 8 ≤ bits then
      let out ← b64urlLoop rest acc (bits - 8)
      some ((acc >>> (bits - 8)).toUInt8 :: out)
    else b64urlLoop rest acc bits

/-- Decode base64url as DoH `?dns=` uses it; trailing `=` is dropped. -/
def b64urlDecode (s : Str) : Option Bytes :=
  let s := (s.reverse.dropWhile fun c => c == '=').reverse
  if s = [] then none else b64urlLoop (Str.toBytes s) 0 0

def hexVal (c : UInt8) : Option UInt8 :=
  if 48 ≤ c ∧ c ≤ 57 then some (c - 48)
  else if 97 ≤ c ∧ c ≤ 102 then some (c - 97 + 10)
  else if 65 ≤ c ∧ c ≤ 70 then some (c - 65 + 10)
  else none

def percentEscape (b c d : UInt8) : Option UInt8 :=
  if b = 37 then do
    let h ← hexVal c
    let l ← hexVal d
    some (h * 16 + l)
  else none

def percentDecodeBytes : Bytes → Bytes
  | [] => []
  | [b] => [if b = 43 then 32 else b]
  | [b, c] => [if b = 43 then 32 else b, if c = 43 then 32 else c]
  | b :: c :: d :: rest =>
    match percentEscape b c d with
    | some v => v :: percentDecodeBytes rest
    | none => (if b = 43 then 32 else b) :: percentDecodeBytes (c :: d :: rest)

/-- Minimal percent-decoding for a `?name=` value. -/
def percentDecode (s : Str) : Str := Str.fromUtf8Lossy (percentDecodeBytes (Str.toBytes s))

def queryParams : List Str → Extracted
  | [] => .unknown
  | kv :: rest =>
    let (k, v) := (Str.splitOnce '=' kv).getD (kv, [])
    if k = Str.lit "dns" then
      match b64urlDecode v with
      | some wire => .wire wire
      | none => queryParams rest
    else if k = Str.lit "name" then .jsonName (percentDecode v).toAsciiLowercase
    else queryParams rest

def extractQuery (method path contentType : Str) (body : Bytes) : Extracted :=
  if method.eqIgnoreAsciiCase (Str.lit "POST") then
    if contentType.startsWith (Str.lit "application/dns-message") ∨ body ≠ [] then .wire body
    else .unknown
  else
    let query := ((Str.splitOnce '?' path).map (·.2)).getD []
    queryParams (Str.split '&' query)

/-- The name and the `NXDOMAIN` answer, if the wire query's name is blocked. -/
def blockWire (isBlocked : Str → Bool) (wire : Bytes) : Option (Str × Bytes) :=
  (parseQuery wire).bind fun q =>
    if isBlocked q.name then some (q.name, synthesizeNxdomain wire q) else none

/-- A minimal JSON DoH `NXDOMAIN` (`Status: 3`) response body. -/
def jsonNxdomain (name : Str) : Str :=
  let name := name.flatMap fun c =>
    if c = '\\' then ['\\', '\\'] else if c = '"' then ['\\', '"'] else [c]
  Str.lit "\x7b\"Status\":3,\"TC\":false,\"RD\":true,\"RA\":true,\"AD\":false,\"CD\":false," ++
    Str.lit "\"Question\":[\x7b\"name\":\"" ++ name ++
    Str.lit "\",\"type\":1\x7d],\"Answer\":[]\x7d"

/-- An HTTP/1.1 200 response toward an HTTP/1.1 app. -/
def h1Response (contentType : Str) (body : Bytes) : Bytes :=
  Str.toBytes (Str.lit "HTTP/1.1 200 OK\r\nContent-Type: " ++ contentType ++
    Str.lit "\r\nContent-Length: " ++ Str.ofNat body.length ++
    Str.lit "\r\nConnection: keep-alive\r\n\r\n") ++ body

/-- An upstream `POST` carrying a wire query. -/
def postWire (authority path : Str) (wire : Bytes) : Bytes :=
  let path := ((Str.splitOnce '?' path).map (·.1)).getD path
  let path := if path = [] then Str.lit "/dns-query" else path
  Str.toBytes (Str.lit "POST " ++ path ++ Str.lit " HTTP/1.1\r\nHost: " ++ authority ++
    Str.lit "\r\nAccept: application/dns-message\r\nContent-Type: application/dns-message" ++
    Str.lit "\r\nContent-Length: " ++ Str.ofNat wire.length ++
    Str.lit "\r\nConnection: keep-alive\r\n\r\n") ++ wire

/-- An upstream `GET` preserving the request's path (JSON DoH). -/
def getPath (authority path accept : Str) : Bytes :=
  let path := if path = [] then Str.lit "/dns-query" else path
  Str.toBytes (Str.lit "GET " ++ path ++ Str.lit " HTTP/1.1\r\nHost: " ++ authority ++
    Str.lit "\r\nAccept: " ++ accept ++ Str.lit "\r\nConnection: keep-alive\r\n\r\n")

end Adwarden.Tls
