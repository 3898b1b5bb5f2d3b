import Adwarden.Tls.DohPairing
import Adwarden.Tls.H2Trace

/-! Runs of an HTTP/2 DoH flow with the events of its streams. -/
namespace Adwarden.Tls

variable {H : Hpack}

/-- A call of either direction; the filter rules may change between calls. -/
inductive DohOp where
  | app (isBlocked : Str → Bool) (data : Bytes)
  | upstream (data : Bytes)

/-- The answers `h2_feed` writes itself, once `on_input` has returned. -/
def H2Server.answerEvents (isBlocked : Str → Bool) (s : H2Server H) : List H2Event :=
  if s.failed then []
  else (s.ready.filter fun req => !isForwarded isBlocked req).map fun req =>
    .responded req.streamId

namespace Doh

/-- The HTTP/2 server that an `on_app_data` call feeds, and the bytes it is fed. -/
def h2Input (d : Doh H) (data : Bytes) : Option (H2Server H × Bytes) :=
  match d.proto with
  | .undecided =>
    if decideProto (d.appBuf ++ data) = some .h2 then some ({}, d.appBuf ++ data) else none
  | .h2 => d.h2.map fun s => (s, data)
  | .h1 => none

def appEvents (isBlocked : Str → Bool) (d : Doh H) (data : Bytes) : List H2Event :=
  match d.h2Input data with
  | none => []
  | some (server, input) =>
    server.inputEvents input ++ (server.onInput input).answerEvents isBlocked

def upstreamEvents (d : Doh H) (data : Bytes) : List H2Event :=
  (d.deliveries data).map fun delivery => .responded delivery.streamId

/-- Successive calls of both directions, with the events so far. -/
def runEvents (p : Profile) :
    List H2Event → Doh H → List DohOp → Except Panic (List H2Event × Doh H)
  | t, d, [] => .ok (t, d)
  | t, d, .app isBlocked data :: ops =>
    match d.onAppData p isBlocked data with
    | .error e => .error e
    | .ok (_, d') => d'.runEvents p (t ++ d.appEvents isBlocked data) ops
  | t, d, .upstream data :: ops =>
    (d.onUpstreamData data).2.runEvents p (t ++ d.upstreamEvents data) ops

end Doh

/-- A query for an allowed name, on stream 1. -/
def orgRequest : H2Request where
  streamId := 1
  method := Str.lit "GET"
  path := Str.lit "/?name=org"
  authority := []
  contentType := []
  body := []

def orgFrames : Bytes :=
  preface ++ frameBytes tHeaders (fEndHeaders ||| fEndStream) 1
    ([0x82, 0x04, 10] ++ ascii "/?name=org")

def orgResponse : Bytes := ascii "HTTP/1.1 200 OK\r\nContent-Length: 2\r\n\r\nok"

end Adwarden.Tls
