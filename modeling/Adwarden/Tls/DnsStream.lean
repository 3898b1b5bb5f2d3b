import Adwarden.Tls.DohH1
import Adwarden.Tls.Dot
import Adwarden.Tls.H2
import Adwarden.Tls.Upstream

/-! Encrypted-DNS filtering over an intercepted TLS splice: DoT, or DoH with an HTTP/2 or an
HTTP/1.1 app side and an HTTP/1.1 resolver side. -/
namespace Adwarden.Tls
open Adwarden.Lib

inductive DnsKind where
  /-- DNS over TLS. -/
  | dot
  /-- DNS over HTTPS. -/
  | doh
deriving DecidableEq

inductive Proto where
  | undecided
  | h2
  | h1
deriving DecidableEq

structure Doh (H : Hpack) extends H1Side where
  proto : Proto := .undecided
  h2 : Option (H2Server H) := none
  /-- Upstream response parser, used for the HTTP/2 app side. -/
  up : H1Responses := {}
  /-- App streams awaiting an upstream reply, oldest first. -/
  pending : List UInt32 := []

/-- HTTP/2 opens with the connection preface; anything else is treated as HTTP/1.1. -/
def decideProto (buf : Bytes) : Option Proto :=
  if preface.length ≤ buf.length then
    if buf.take preface.length = preface then some .h2 else some .h1
  else if buf <+: preface then none
  else some .h1

/-- An HTTP/1.1 request for an HTTP/2 request that could not be classified. -/
def reconstruct (authority : Str) (req : H2Request) : Bytes :=
  if req.method.eqIgnoreAsciiCase (Str.lit "POST") then
    let contentType :=
      if req.contentType = [] then Str.lit "application/dns-message" else req.contentType
    Str.toBytes (Str.lit "POST " ++ req.path ++ Str.lit " HTTP/1.1\r\nHost: " ++ authority ++
      Str.lit "\r\nContent-Type: " ++ contentType ++ Str.lit "\r\nContent-Length: " ++
      Str.ofNat req.body.length ++ Str.lit "\r\nConnection: keep-alive\r\n\r\n") ++ req.body
  else getPath authority req.path (Str.lit "application/dns-message")

variable {H : Hpack}

/-- What is decided for one HTTP/2 request: answer it locally, or forward these bytes. -/
inductive H2Verdict where
  | respond (name : Str) (contentType : Str) (body : Bytes)
  | forward (bytes : Bytes)

def h2Verdict (isBlocked : Str → Bool) (authority : Str) (req : H2Request) : H2Verdict :=
  match extractQuery req.method req.path req.contentType req.body with
  | .wire wire =>
    match blockWire isBlocked wire with
    | some (name, answer) => .respond name (Str.lit "application/dns-message") answer
    | none => .forward (postWire authority req.path wire)
  | .jsonName name =>
    if isBlocked name then
      .respond name (Str.lit "application/dns-json") (Str.toBytes (jsonNxdomain name))
    else .forward (getPath authority req.path (Str.lit "application/dns-json"))
  | .unknown => .forward (reconstruct authority req)

/-- The loop state of `h2_feed` over the completed requests. -/
structure H2Feed (H : Hpack) where
  server : H2Server H
  authority : Str
  pending : List UInt32
  emits : List DnsEmit := []

def h2Request (isBlocked : Str → Bool) (f : H2Feed H) (req : H2Request) : H2Feed H :=
  let authority := if f.authority = [] ∧ req.authority ≠ [] then req.authority else f.authority
  match h2Verdict isBlocked authority req with
  | .respond name contentType body =>
    { f with
      authority
      server := f.server.respond req.streamId 200 contentType body
      emits := f.emits ++ [.blocked name] }
  | .forward bytes =>
    { f with
      authority
      pending := f.pending ++ [req.streamId]
      emits := f.emits ++ bytes.map .upstream }

def Doh.h2Feed (isBlocked : Str → Bool) (d : Doh H) (data : Bytes) : List DnsEmit × Doh H :=
  match d.h2 with
  | none => ([], d)
  | some server =>
    let server := server.onInput data
    if server.failed then
      let (out, server) := server.takeOut
      (out.map .app, { d with h2 := some server })
    else
      let (requests, server) := server.takeRequests
      let f := requests.foldl (h2Request isBlocked)
        { server, authority := d.authority, pending := d.pending }
      let (out, server) := f.server.takeOut
      (f.emits ++ out.map .app,
        { d with h2 := some server, authority := f.authority, pending := f.pending })

def Doh.h1Feed (p : Profile) (isBlocked : Str → Bool) (d : Doh H) (data : Bytes) :
    Except Panic (List DnsEmit × Doh H) :=
  (d.toH1Side.h1Feed p isBlocked data).map fun r => (r.1, { d with toH1Side := r.2 })

def Doh.onAppData (p : Profile) (isBlocked : Str → Bool) (d : Doh H) (data : Bytes) :
    Except Panic (List DnsEmit × Doh H) :=
  match d.proto with
  | .undecided =>
    let d := { d with appBuf := d.appBuf ++ data }
    match decideProto d.appBuf with
    | some .h2 =>
      .ok ({ d with proto := .h2, h2 := some {}, appBuf := [] }.h2Feed isBlocked d.appBuf)
    | some .h1 => { d with proto := .h1 }.h1Feed p isBlocked []
    | _ => .ok ([], d)
  | .h2 => .ok (d.h2Feed isBlocked data)
  | .h1 => d.h1Feed p isBlocked data

/-- A response relayed to an app stream by `respond`. -/
structure Delivery where
  streamId : UInt32
  status : ℕ
  contentType : Str
  body : Bytes
deriving DecidableEq

def UpResponse.deliveredTo (resp : UpResponse) (streamId : UInt32) : Delivery where
  streamId
  status := resp.status
  contentType :=
    if resp.contentType = [] then Str.lit "application/dns-message" else resp.contentType
  body := resp.body

/-- Each response answers the stream at the front of the queue; one that finds the queue empty is
dropped. -/
def deliver : List UInt32 → List UpResponse → List Delivery × List UInt32
  | pending, [] => ([], pending)
  | [], _ :: _ => ([], [])
  | streamId :: pending, resp :: responses =>
    let (ds, pending) := deliver pending responses
    (resp.deliveredTo streamId :: ds, pending)

def H2Server.deliverAll (s : H2Server H) (ds : List Delivery) : H2Server H :=
  ds.foldl (fun s d => s.respond d.streamId d.status d.contentType d.body) s

/-- What `on_upstream_data` does on an HTTP/2 flow: the responses it delivers, the bytes it sends
to the app and the next state. -/
def Doh.h2Upstream (d : Doh H) (data : Bytes) : List Delivery × Bytes × Doh H :=
  let (responses, up) := d.up.feed data
  match d.h2 with
  | none => ([], [], { d with up })
  | some server =>
    let (ds, pending) := deliver d.pending responses
    let (out, server) := (server.deliverAll ds).takeOut
    (ds, out, { d with up, pending, h2 := some server })

def Doh.onUpstreamData (d : Doh H) (data : Bytes) : Bytes × Doh H :=
  match d.proto with
  | .h1 | .undecided => (data, d)
  | .h2 => (d.h2Upstream data).2

inductive Inner (H : Hpack) where
  | dot (dot : Dot)
  | doh (doh : Doh H)

/-- Per-flow encrypted-DNS filter state. -/
structure DnsStream (H : Hpack) where
  /-- Names sinkholed since the last drain. -/
  blocked : List Str := []
  inner : Inner H

namespace DnsStream

def new (H : Hpack) : DnsKind → DnsStream H
  | .dot => { inner := .dot {} }
  | .doh => { inner := .doh {} }

def takeBlocked (s : DnsStream H) : List Str × DnsStream H := (s.blocked, { s with blocked := [] })

/-- Feed client to resolver plaintext. -/
def onAppData (p : Profile) (isBlocked : Str → Bool) (s : DnsStream H) (data : Bytes) :
    Except Panic (DnsCross × DnsStream H) :=
  match s.inner with
  | .dot dot =>
    let (es, dot) := dot.onAppData isBlocked data
    .ok (DnsEmit.cross es, { s with blocked := s.blocked ++ DnsEmit.names es, inner := .dot dot })
  | .doh doh =>
    (doh.onAppData p isBlocked data).map fun r =>
      (DnsEmit.cross r.1,
        { s with blocked := s.blocked ++ DnsEmit.names r.1, inner := .doh r.2 })

/-- Feed resolver to client plaintext. -/
def onUpstreamData (s : DnsStream H) (data : Bytes) : Bytes × DnsStream H :=
  match s.inner with
  | .dot _ => (data, s)
  | .doh doh =>
    let (out, doh) := doh.onUpstreamData data
    (out, { s with inner := .doh doh })

/-- Successive `on_app_data` calls, with their outputs concatenated. -/
def onAppPieces (p : Profile) (isBlocked : Str → Bool) :
    DnsStream H → List Bytes → Except Panic (DnsCross × DnsStream H)
  | s, [] => .ok ({}, s)
  | s, d :: ds =>
    match s.onAppData p isBlocked d with
    | .error e => .error e
    | .ok (out, s) =>
      (s.onAppPieces p isBlocked ds).map fun r =>
        ({ toUpstream := out.toUpstream ++ r.1.toUpstream, toApp := out.toApp ++ r.1.toApp }, r.2)

/-- A call of either direction. -/
inductive Op where
  | app (data : Bytes)
  | upstream (data : Bytes)

/-- Successive calls of both directions: the bytes sent to the app, in emission order. -/
def runOps (p : Profile) (isBlocked : Str → Bool) :
    DnsStream H → List Op → Except Panic (Bytes × DnsStream H)
  | s, [] => .ok ([], s)
  | s, .app d :: ops =>
    match s.onAppData p isBlocked d with
    | .error e => .error e
    | .ok (out, s) => (s.runOps p isBlocked ops).map fun r => (out.toApp ++ r.1, r.2)
  | s, .upstream d :: ops =>
    ((s.onUpstreamData d).2.runOps p isBlocked ops).map fun r => ((s.onUpstreamData d).1 ++ r.1, r.2)

end DnsStream

end Adwarden.Tls
