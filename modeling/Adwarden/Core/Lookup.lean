import Adwarden.Core.Flow
import Adwarden.Tls.DohQuery

/-! Lookups and UDP sessions: DNS over the proxy's TCP, DNS over TLS or HTTPS, the NAT of plain
datagrams and SOCKS5 associations. -/
namespace Adwarden.Core
open Adwarden.Net Adwarden.Tls Adwarden.Dns

def udpIdleMs : ℤ := 60000

def proxyHsTimeoutMs : ℤ := 10000

def pendingSniTimeoutMs : ℤ := 30000

def socksUdpPendingCap : ℕ := 8

def dnsTcpMaxJobs : ℕ := 64

def dnsTcpTimeoutMs : ℤ := 5000

def dnsTlsMaxJobs : ℕ := 64

def dnsTlsTimeoutMs : ℤ := 8000

/-- A connected UDP socket of the NAT; `inbox` holds the datagrams that have arrived for it. -/
structure UdpSession where
  peer : SocketAddr
  inbox : List Bytes
  token : Token
  app : SocketAddr
  server : SocketAddr
  lastUsedMs : ℤ
deriving DecidableEq

/-- A SOCKS5 association: its control connection, and the relay socket with the endpoint it is
connected to. -/
structure Socks5UdpSession where
  ctrl : UpstreamIo
  ctrlToken : Token
  ctrlConnecting : Bool
  handshake : Option Handshake
  hsOut : Bytes
  relay : Option SocketAddr
  relayInbox : List Bytes
  relayToken : Token
  app : SocketAddr
  /-- The address replies appear to come from. -/
  replySrc : SocketAddr
  /-- The destination datagrams are encapsulated toward. -/
  target : SocketAddr
  pending : List Bytes
  ready : Bool
  lastUsedMs : ℤ
  /-- When the association was made, which nothing reads. -/
  createdMs : ℤ
deriving DecidableEq

/-- A DNS-over-TCP query through the proxy. -/
structure DnsTcpJob where
  io : UpstreamIo
  connecting : Bool
  handshake : Option Handshake
  hsOut : Bytes
  toSend : Bytes
  querySent : Bool
  respBuf : Bytes
  app : SocketAddr
  replySrc : SocketAddr
  createdMs : ℤ
deriving DecidableEq

inductive DnsTlsMode where
  | dot
  | doh
deriving DecidableEq

/-- A query over DNS over TLS or HTTPS. -/
structure DnsTlsJob where
  io : UpstreamIo
  connecting : Bool
  mode : DnsTlsMode
  toSend : Bytes
  querySent : Bool
  respBuf : Bytes
  app : SocketAddr
  replySrc : SocketAddr
  createdMs : ℤ
deriving DecidableEq

def defaultDnsV4 : IpAddr := ip4 1 1 1 1

def defaultDnsV6 : IpAddr := ip6 0x2606 0x4700 0x4700 0 0 0 0 0x1111

/-- A zero port is the standard one. -/
def normalizeDnsPort (port : UInt16) : UInt16 := if port = 0 then 53 else port

/-- A blank server name is none. -/
def normalizeDnsHost (host : Option Str) : Option Str :=
  (host.map Str.trim).filter (!·.isEmpty)

def resolveDnsUpstream (overrideIp : Option IpAddr) (port : UInt16) (queried : SocketAddr) :
    SocketAddr :=
  ⟨overrideIp.getD (if queried.isIpv4 then defaultDnsV4 else defaultDnsV6), port⟩

/-- The proxy carries plain DNS only. -/
def proxyDnsPort (transport : DnsTransport) (dnsPort : UInt16) : UInt16 :=
  match transport with
  | .plain => dnsPort
  | .dot | .doh => 53

/-- Write as much as the transport accepts; false on a hard write error. -/
def flushIo (io : UpstreamIo) (out : Bytes) : Bool × UpstreamIo × Bytes :=
  if out = [] then (true, io, out)
  else
    let r := io.send out
    (!r.1.failed, r.2, out.drop r.1.count)

inductive HsPump where
  | pending
  | done (leftover : Bytes)
  | failed
deriving DecidableEq

/-- The transport, the machine and its unsent output, as a handshake is driven. -/
structure Driving where
  io : UpstreamIo
  hs : Handshake
  hsOut : Bytes

/-- The stepping of a handshake over a transport whose input has been read. -/
def stepLoop (eof : Bool) : ℕ → (input : Bytes) → Driving → HsPump × Driving
  | 0, _, d => (.pending, d)
  | n + 1, input, d =>
    let r := d.hs.step input
    let d := { d with hs := r.2 }
    match r.1 with
    | .ok (.write bytes) =>
      let out := flushIo d.io (d.hsOut ++ bytes)
      let d := { d with io := out.2.1, hsOut := out.2.2 }
      if out.1 = false then (.failed, d)
      else if d.hsOut ≠ [] then (.pending, d)
      else stepLoop eof n [] d
    | .ok .read => (if eof then .failed else .pending, d)
    | .ok (.done leftover) => (.done leftover, d)
    | .error _ => (.failed, d)

/-- Drive a handshake over a plain transport, as `pump_ctrl_handshake` does in reads of 2048
bytes. -/
def pumpHandshake (chunk : ℕ) (d : Driving) : HsPump × Driving :=
  let out := flushIo d.io d.hsOut
  let d := { d with io := out.2.1, hsOut := out.2.2 }
  if out.1 = false then (.failed, d)
  else if d.hsOut ≠ [] then (.pending, d)
  else
    let r := d.io.readAll chunk
    let d := { d with io := r.2.2 }
    match r.2.1 with
    | .failed => (.failed, d)
    | .eof => stepLoop true 5 r.1 d
    | .wouldBlock => stepLoop false 5 r.1 d

/-- The same over a transport that may be TLS, whose handshake comes first. -/
def pumpHandshakeIo (d : Driving) : HsPump × Driving :=
  if d.io.handshaking then
    let tls := d.io.pumpTls
    let d := { d with io := tls.2 }
    if tls.1 = false then (.failed, d)
    else if d.io.handshaking then (.pending, d)
    else pumpHandshake 4096 d
  else pumpHandshake 4096 d

/-- A message with its two-byte length in front. -/
def lengthPrefixed (payload : Bytes) : Bytes := portBytes (UInt16.ofNat payload.length) ++ payload

/-- The first complete message of a length-prefixed stream. -/
def takeDnsTcpResponse (buf : Bytes) : Option Bytes :=
  if buf.length < 2 then none
  else
    let len := (Net.u16be buf 0).toNat
    if buf.length < 2 + len then none else some ((buf.drop 2).take len)

/-- `hay.find(needle)` on text, as a byte position. -/
def findStr (needle : String) (hay : Str) : Option ℕ :=
  findSubsequence (ascii needle) (Str.toBytes hay)

/-- The first piece of `b.split("\r\n")`. -/
def firstLine (b : Bytes) : Bytes := b.take ((findSubsequence CRLF b).getD b.length)

/-- The body of a DoH response, when it is complete. -/
def takeDohResponse (buf : Bytes) (eof : Bool) : Option Bytes := do
  let headEnd ← (findSubsequence [CR, LF, CR, LF] buf).map (· + 4)
  let head ← Str.fromUtf8 (buf.take headEnd)
  let line ← Str.fromUtf8 (firstLine (buf.take headEnd))
  let code := ((line.splitOnP Str.isWhitespace).filter (!·.isEmpty))[1]?
  if code ≠ some (Str.lit "200") then none
  else
    let lower := head.toAsciiLowercase
    match findStr "content-length:" lower with
    | some pos =>
      let value := firstLine ((Str.toBytes lower).drop (pos + (ascii "content-length:").length))
      let len ← (Str.fromUtf8 value).bind fun v => Str.parseUsize v.trim
      if headEnd + len < usizeSize ∧ headEnd + len ≤ buf.length then
        some ((buf.drop headEnd).take len)
      else none
    | none =>
      if (findStr "transfer-encoding:" lower).isSome && (findStr "chunked" lower).isSome then none
      else if eof then some (buf.drop headEnd)
      else none

/-- What comes of driving a job: it goes on, or it ends, perhaps with an answer. -/
inductive Outcome (J : Type) where
  | running (job : J)
  | finished (answer : Option Bytes)

namespace DnsTcpJob

/-- Steps 3 and 4 of `drive_dns_tcp`: send the query, and read the response. -/
def exchange (job : DnsTcpJob) : Outcome DnsTcpJob :=
  let sent := if job.querySent then (true, job.io, job.toSend) else flushIo job.io job.toSend
  if sent.1 = false then .finished none
  else
    let job :=
      { job with
        io := sent.2.1
        toSend := sent.2.2
        querySent := job.querySent || sent.2.2.isEmpty }
    let r := if job.querySent then job.io.readAll 4096 else ([], .wouldBlock, job.io)
    let job := { job with io := r.2.2, respBuf := job.respBuf ++ r.1 }
    match takeDnsTcpResponse job.respBuf with
    | some message => .finished (some message)
    | none => if r.2.1 = .wouldBlock then .running job else .finished none

/-- Advance a job on readiness. -/
def drive (job : DnsTcpJob) : Outcome DnsTcpJob :=
  if job.connecting && job.io.connectError then .finished none
  else
    let job := { job with connecting := false }
    match job.handshake with
    | none => job.exchange
    | some hs =>
      let r := pumpHandshakeIo ⟨job.io, hs, job.hsOut⟩
      let job := { job with io := r.2.io, handshake := some r.2.hs, hsOut := r.2.hsOut }
      match r.1 with
      | .pending => .running job
      | .failed => .finished none
      | .done leftover =>
        { job with handshake := none, respBuf := job.respBuf ++ leftover }.exchange

end DnsTcpJob

namespace DnsTlsJob

/-- Steps 3 and 4 of `drive_dns_tls`. -/
def exchange (job : DnsTlsJob) : Outcome DnsTlsJob :=
  let sent := if job.querySent then (true, job.io, job.toSend) else flushIo job.io job.toSend
  if sent.1 = false then .finished none
  else
    let job :=
      { job with
        io := sent.2.1
        toSend := sent.2.2
        querySent := job.querySent || sent.2.2.isEmpty }
    let r := if job.querySent then job.io.readAll 4096 else ([], .wouldBlock, job.io)
    let job := { job with io := r.2.2, respBuf := job.respBuf ++ r.1 }
    let eof := r.2.1 ≠ .wouldBlock
    let answer := match job.mode with
      | .dot => takeDnsTcpResponse job.respBuf
      | .doh => takeDohResponse job.respBuf eof
    match answer with
    | some message => .finished (some message)
    | none => if eof then .finished none else .running job

/-- Advance a job on readiness. -/
def drive (job : DnsTlsJob) : Outcome DnsTlsJob :=
  if job.connecting && job.io.connectError then .finished none
  else
    let job := { job with connecting := false }
    if job.io.handshaking then
      let tls := job.io.pumpTls
      let job := { job with io := tls.2 }
      if tls.1 = false then .finished none
      else if job.io.handshaking then .running job
      else job.exchange
    else job.exchange

end DnsTlsJob

end Adwarden.Core
