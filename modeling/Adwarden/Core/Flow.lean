import Mathlib.Data.List.AList
import Adwarden.Core.Event
import Adwarden.Core.Firewall
import Adwarden.Core.HttpForward
import Adwarden.Core.Proxy
import Adwarden.Core.UpstreamIo
import Adwarden.Dns.Hosts
import Adwarden.Net.Tcp
import Adwarden.Tls.Sni
import Adwarden.Tls.Splice

/-! The methods of the forwarder that work on one TCP flow: its socket towards the app, its
upstream, and what the flows share. Statistics and the HTTP archive are left out. -/
namespace Adwarden.Core
open Adwarden.Net Adwarden.Tls Adwarden.Dns

inductive EncryptedDnsMode where
  | off
  | block
  | filter
deriving DecidableEq

inductive DnsTransport where
  | plain
  | dot
  | doh
deriving DecidableEq

def dotPort : UInt16 := 853

def httpPort : UInt16 := 80

def httpsPort : UInt16 := 443

def mitmAppBufCap : ℕ := 256 * 1024

def pinnedCap : ℕ := 4096

def sniPeekCap : ℕ := 16 * 1024

abbrev FlowId := ℕ

abbrev Token := ℕ

structure UdpKey where
  app : SocketAddr
  server : SocketAddr
deriving DecidableEq

inductive Route where
  | tcp (id : FlowId)
  | udp (key : UdpKey)
  | socksCtrl (key : UdpKey)
  | socksRelay (key : UdpKey)
  | dnsTcp
  | dnsTls
deriving DecidableEq

/-- The decisions of a loaded filter engine. -/
structure FilterEngine where
  isBlockedDomain : Str → Bool
  cosmeticCss : Str → Str
  scriptletsJs : Str → Str

/-- Whether a flow's interception has been decided, or waits for the server name. -/
inductive Classify where
  | settled
  | pendingSni (buf : Bytes)
deriving DecidableEq

structure TcpUpstream (μ : Type) where
  io : UpstreamIo
  handshake : Option Handshake
  hsOut : Bytes
  token : Token
  connecting : Bool
  toUpstream : Bytes
  writeClosed : Bool
  mitm : Option μ
  toApp : Bytes
  uid : ℤ
  server : SocketAddr
  pinReported : Bool
  cosmeticSet : Bool
  sniReported : Bool
  classify : Classify
  openedMs : ℤ
  httpForward : Option HttpForward
  /-- The bytes of `toUpstream` that the upstream socket has accepted so far. -/
  relayed : Bytes
  /-- The app's bytes that have been queued in `toUpstream` as they are. -/
  raw : Bytes

/-- A call on the app's socket: bytes with how many of them it accepted, or a close with what the
upstream still held for the app then. -/
inductive AppCall where
  | sent (data : Bytes) (accepted : ℕ)
  | closed (unread toApp : Bytes) (fin : Bool)
deriving DecidableEq

/-- One flow, by what the stack and the forwarder have of it. `calls` is its history: what was
called on its socket toward the app. -/
structure Flow (σ μ : Type) where
  socket : Option σ
  up : Option (TcpUpstream μ)
  calls : List AppCall

/-- The fields of the forwarder that its flows share. -/
structure Shared (μ : Type) where
  engine : Option FilterEngine
  encryptedDnsMode : EncryptedDnsMode
  firewall : Firewall
  proxy : Option Proxy
  httpForward80 : Bool
  tls : Option (MitmConfigs μ)
  pinned : List (ℤ × IpAddr)
  cosmeticElementHiding : Bool
  cosmeticScriptlets : Bool
  routes : AList fun _ : Token => Route
  batcher : List Event
  now : ℤ

variable {σ μ : Type}

namespace Shared

def push (h : Shared μ) (es : List Event) : Shared μ := { h with batcher := h.batcher ++ es }

def isBlockedDomain (h : Shared μ) (name : Str) : Bool :=
  match h.engine with
  | none => false
  | some engine => engine.isBlockedDomain name

def isPinned (h : Shared μ) (uid : ℤ) (server : IpAddr) : Bool := h.pinned.contains (uid, server)

/-- Whether an encrypted-DNS flow can be intercepted: the CA is loaded, and this app has not
rejected the leaf for this server. -/
def canInterceptEncDns (h : Shared μ) (uid : ℤ) (server : IpAddr) : Bool :=
  h.tls.isSome && !(decide (0 ≤ uid) && h.isPinned uid server)

def requiresEncDnsIntercept (h : Shared μ) (server : SocketAddr) : Bool :=
  h.encryptedDnsMode == .filter && server.port == dotPort

/-- The splice a flow gets when it is opened, `none` for a raw relay. -/
def newMitmIfIntercepting (h : Shared μ) (server : SocketAddr) (uid : ℤ) : Option μ :=
  if h.requiresEncDnsIntercept server then
    if 0 ≤ uid ∧ h.isPinned uid server.ip then none
    else h.tls.bind (·.newSpliceDns .dot)
  else if server.port ≠ httpsPort ∨ h.firewall.appInspects uid = false then none
  else if h.isPinned uid server.ip then none
  else h.tls.bind (·.newSplice)

/-- The cosmetic payload for a host: CSS and JavaScript. -/
def cosmetics (h : Shared μ) (host : Str) : Str × Str :=
  match h.engine with
  | none => ([], [])
  | some engine =>
    if h.cosmeticElementHiding then
      (engine.cosmeticCss host, if h.cosmeticScriptlets then engine.scriptletsJs host else [])
    else ([], [])

/-- A port-443 flow under Filter mode is decided on when its server name is known. -/
def defers (h : Shared μ) (server : SocketAddr) : Bool :=
  h.encryptedDnsMode == .filter && server.port == httpsPort

/-- The splice an opened flow starts with. -/
def openMitm (h : Shared μ) (server : SocketAddr) (uid : ℤ) : Option μ :=
  if h.defers server then none else h.newMitmIfIntercepting server uid

/-- `open_tcp` drops a flow that is to be filtered but has no splice. -/
def refuses (h : Shared μ) (server : SocketAddr) (uid : ℤ) : Bool :=
  !h.defers server && (h.openMitm server uid).isNone && h.requiresEncDnsIntercept server

/-- The authority of a request that has no `Host`. -/
def originAuthority (addr : SocketAddr) : Str :=
  let host := match addr.ip with
    | .v4 _ => addr.ip.display
    | .v6 _ => ['['] ++ addr.ip.display ++ [']']
  if addr.port = httpPort then host else host ++ [':'] ++ Str.ofNat addr.port.toNat

/-- Plaintext HTTP through a proxy that refuses CONNECT to port 80 is forwarded in absolute form. -/
def openHttpForward (h : Shared μ) (server : SocketAddr) : Option HttpForward :=
  if h.httpForward80 && server.port == httpPort &&
      (h.proxy.map fun p => p.kind == .http || p.kind == .https).getD false then
    some (.new (originAuthority server))
  else none

/-- What `open_tcp` keeps of a flow it has dialed. -/
def openUpstream (h : Shared μ) (server : SocketAddr) (uid : ℤ) (io : UpstreamIo) (token : Token) :
    TcpUpstream μ where
  io := io
  handshake :=
    if (h.openHttpForward server).isSome then none
    else h.proxy.map fun p => Handshake.connect p server
  hsOut := []
  token := token
  connecting := true
  toUpstream := []
  writeClosed := false
  mitm := h.openMitm server uid
  toApp := []
  uid := uid
  server := server
  pinReported := false
  cosmeticSet := false
  sniReported := false
  classify := if h.defers server then .pendingSni [] else .settled
  openedMs := h.now
  httpForward := h.openHttpForward server
  relayed := []
  raw := []

/-- What is done with a deferred flow. -/
inductive Classification (μ : Type) where
  | doh (m : μ)
  | blocked
  | cosmetic (m : μ)
  | raw

/-- The splice for a DoH flow, if it can be intercepted. -/
def dohSplice (h : Shared μ) (uid : ℤ) (server : SocketAddr) : Option μ :=
  if h.canInterceptEncDns uid server.ip then h.tls.bind (·.newSpliceDns .doh) else none

/-- The splice for a flow of an app that opted into inspection and has not pinned the server. -/
def cosmeticSplice (h : Shared μ) (uid : ℤ) (server : SocketAddr) : Option μ :=
  if server.port == httpsPort && h.firewall.appInspects uid &&
      !(decide (0 ≤ uid) && h.isPinned uid server.ip) then
    h.tls.bind (·.newSplice)
  else none

/-- The decision on a deferred flow, by its server name if that was learned: a DoH host is
filtered or else blocked, another one falls back to cosmetics or a raw relay. -/
def classification (h : Shared μ) (uid : ℤ) (server : SocketAddr) (sni : Option Str) :
    Classification μ :=
  if (sni.map isDohHost).getD false then
    match h.dohSplice uid server with
    | some m => .doh m
    | none => .blocked
  else match h.cosmeticSplice uid server with
    | some m => .cosmetic m
    | none => .raw

end Shared

/-- What buffered bytes tell about the server name: `none` while the rest of the ClientHello is
awaited, which the cap on the buffer ends. -/
def peekPending (buf : Bytes) : Option (Option Str) :=
  match peekSni buf with
  | .needMore => if sniPeekCap < buf.length then some none else none
  | .found host => some (some host)
  | .none => some none

/-- A call of `tcp_send_to_app`: the socket after it, and its record. -/
def sendToApp [TcpSocket σ] (s : Option σ) (data : Bytes) : Option σ × AppCall :=
  ((tcpSendToApp s data).2, .sent data (tcpSendToApp s data).1)

/-- The loop of `flush_to_app`. -/
def flushLoop [TcpSocket σ] : ℕ → Option σ → Bytes → Option σ × Bytes × List AppCall
  | 0, s, queue => (s, queue, [])
  | n + 1, s, queue =>
    if tcpSendSpace s = 0 ∨ queue = [] then (s, queue, [])
    else
      let k := min (tcpSendSpace s) queue.length
      let sent := sendToApp s (queue.take k)
      let r := flushLoop n sent.1 (queue.drop k)
      (r.1, r.2.1, sent.2 :: r.2.2)

/-- The loop of `pump_upstream_to_app`: the window of the app's socket bounds each read, and what
the socket does not accept is not kept. -/
def pumpLoop [TcpSocket σ] (toApp : Bytes) :
    ℕ → Option σ → UpstreamIo → Option σ × UpstreamIo × List AppCall
  | 0, s, io => (s, io, [])
  | n + 1, s, io =>
    if tcpSendSpace s = 0 then (s, io, [])
    else match io.read (min (tcpSendSpace s) (32 * 1024)) with
      | (.eof, io) => (tcpCloseApp s, io, [.closed io.unread toApp io.fin])
      | (.data bytes, io) =>
        let sent := sendToApp s bytes
        let r := pumpLoop toApp n sent.1 io
        (r.1, r.2.1, sent.2 :: r.2.2)
      | (.wouldBlock, io) => (s, io, [])
      | (.failed, io) => (tcpAbort s, io, [])

namespace TcpUpstream

def isPending (up : TcpUpstream μ) : Bool :=
  match up.classify with
  | .pendingSni _ => true
  | .settled => false

/-- Write the pending handshake output; false on a hard write error. -/
def flushHandshakeOut (up : TcpUpstream μ) : Bool × TcpUpstream μ :=
  if up.hsOut = [] then (true, up)
  else
    let r := up.io.send up.hsOut
    (!r.1.failed, { up with io := r.2, hsOut := up.hsOut.drop r.1.count })

/-- The loop of `read_upstream_into_mitm`. -/
def readIntoMitm [Splice μ] : ℕ → TcpUpstream μ → TcpUpstream μ
  | 0, up => up
  | n + 1, up =>
    if mitmAppBufCap < up.toApp.length then up
    else match up.io.read (32 * 1024) with
      | (.data bytes, io) =>
        readIntoMitm n
          { up with io := io, mitm := up.mitm.map fun m => Splice.recvFromUpstream m bytes }
      | (_, io) => { up with io := io }

/-- Hand the cosmetic payload to the splice, once its host is known. -/
def provisionCosmetics [Splice μ] (h : Shared μ) (up : TcpUpstream μ) : TcpUpstream μ :=
  if up.cosmeticSet then up
  else match up.mitm.bind Splice.host with
    | none => up
    | some host =>
      let payload := h.cosmetics host
      { up with
        mitm := up.mitm.map fun m => Splice.setCosmetic m payload.1 payload.2
        cosmeticSet := true }

/-- Feed app bytes to the splice, if there is one. -/
def recvFromApp [Splice μ] (up : TcpUpstream μ) (data : Bytes) : TcpUpstream μ :=
  if data = [] then up else { up with mitm := up.mitm.map fun m => Splice.recvFromApp m data }

/-- Queue bytes for the upstream socket. -/
def queue (up : TcpUpstream μ) (data : Bytes) : TcpUpstream μ :=
  { up with toUpstream := up.toUpstream ++ data }

/-- Queue bytes of the app as they are. -/
def queueRaw (up : TcpUpstream μ) (data : Bytes) : TcpUpstream μ :=
  { up.queue data with raw := up.raw ++ data }

/-- What is recorded of a close of the app's socket. -/
def closing (up : TcpUpstream μ) : AppCall := .closed up.io.unread up.toApp up.io.fin

/-- Half-close the write side, once and not while the connect is in flight. -/
def closeWrite (up : TcpUpstream μ) : TcpUpstream μ :=
  if up.writeClosed || up.connecting then up
  else { up with io := up.io.shutdownWrite, writeClosed := true }

end TcpUpstream

namespace Flow

def isPending (x : Flow σ μ) : Bool := (x.up.map TcpUpstream.isPending).getD false

section Stack

variable [TcpSocket σ]

def abort (x : Flow σ μ) : Flow σ μ := { x with socket := tcpAbort x.socket }

def closeApp (x : Flow σ μ) : Flow σ μ :=
  { x with
    socket := tcpCloseApp x.socket
    calls := x.calls ++ x.up.toList.map TcpUpstream.closing }

def appFinished (x : Flow σ μ) : Bool := tcpAppFinished x.socket

/-- App bytes are not relayed while connecting or during the proxy handshake. -/
def flushToUpstream (x : Flow σ μ) : Flow σ μ :=
  match x.up with
  | none => x
  | some up =>
    if up.connecting || up.handshake.isSome || up.toUpstream.isEmpty then x
    else
      let r := up.io.send up.toUpstream
      let up' := { up with io := r.2, relayed := up.relayed ++ up.toUpstream.take r.1.count }
      if r.1.failed then { x with socket := tcpAbort x.socket, up := some up' }
      else { x with up := some { up' with toUpstream := up.toUpstream.drop r.1.count } }

def flushToApp (x : Flow σ μ) : Flow σ μ :=
  match x.up with
  | none => x
  | some up =>
    let r := flushLoop up.toApp.length x.socket up.toApp
    { socket := r.1, up := some { up with toApp := r.2.1 }, calls := x.calls ++ r.2.2 }

def pumpUpstreamToApp (x : Flow σ μ) : Flow σ μ :=
  match x.up with
  | none => x
  | some up =>
    let r := pumpLoop up.toApp (up.io.unread.length + 1) x.socket up.io
    { socket := r.1, up := some { up with io := r.2.1 }, calls := x.calls ++ r.2.2 }

def readUpstreamIntoMitm [Splice μ] (x : Flow σ μ) : Flow σ μ :=
  { x with up := x.up.map fun up => up.readIntoMitm (up.io.unread.length + 1) }

end Stack

/-- Drop the flow's upstream; its socket stays until the stack has closed it. -/
def teardownTcp (h : Shared μ) (x : Flow σ μ) : Shared μ × Flow σ μ :=
  match x.up with
  | none => (h, x)
  | some up => ({ h with routes := h.routes.erase up.token }, { x with up := none })

section Handshaking

variable [TcpSocket σ] [Splice μ]

/-- Fail closed: report the flow as blocked, reset the app and drop the upstream. -/
def failProxy (h : Shared μ) (x : Flow σ μ) : Shared μ × Flow σ μ :=
  let es := match x.up with
    | none => []
    | some up => [(Event.blockedFlow up.server).withUid up.uid]
  teardownTcp (h.push es) x.abort

/-- Step 4 of `drive_proxy_handshake`: step the machine and send what it produces. At most three
messages go out before it reads, so five turns are enough. -/
def handshakeLoop (eof : Bool) :
    ℕ → (input : Bytes) → Shared μ → Flow σ μ → Shared μ × Flow σ μ
  | 0, _, h, x => (h, x)
  | n + 1, input, h, x =>
    match x.up with
    | none => (h, x)
    | some up =>
      match up.handshake with
      | none => (h, x)
      | some hs =>
        let r := hs.step input
        let up := { up with handshake := some r.2 }
        match r.1 with
        | .ok (.write bytes) =>
          let out := { up with hsOut := up.hsOut ++ bytes }.flushHandshakeOut
          let x := { x with up := some out.2 }
          if out.1 = false then failProxy h x
          else if out.2.hsOut ≠ [] then (h, x)
          else handshakeLoop eof n [] h x
        | .ok .read =>
          if eof then failProxy h { x with up := some up } else (h, { x with up := some up })
        | .ok (.done leftover) =>
          let up := { up with handshake := none }
          let up :=
            if leftover = [] then up
            else match up.mitm with
              | some m => { up with mitm := some (Splice.recvFromUpstream m leftover) }
              | none => { up with toApp := up.toApp ++ leftover }
          (h, flushToApp { x with up := some up })
        | .error e =>
          let refused := match e with
            | .httpStatus _ => up.server.port == httpPort
            | _ => false
          failProxy { h with httpForward80 := h.httpForward80 || refused } { x with up := some up }

/-- Advance the proxy handshake. -/
def driveProxyHandshake (h : Shared μ) (x : Flow σ μ) : Shared μ × Flow σ μ :=
  match x.up with
  | none => failProxy h x
  | some up =>
    let tls := if up.io.handshaking then up.io.pumpTls else (true, up.io)
    let up := { up with io := tls.2 }
    if tls.1 = false then failProxy h { x with up := some up }
    else if up.io.handshaking then (h, { x with up := some up })
    else
      let out := up.flushHandshakeOut
      let up := out.2
      if out.1 = false then failProxy h { x with up := some up }
      else if up.hsOut ≠ [] then (h, { x with up := some up })
      else
        let r := up.io.readAll 4096
        let x := { x with up := some { up with io := r.2.2 } }
        match r.2.1 with
        | .failed => failProxy h x
        | .eof => handshakeLoop true 5 r.1 h x
        | .wouldBlock => handshakeLoop false 5 r.1 h x

end Handshaking

section Interception

variable [TcpSocket σ] [Splice μ]

/-- Remember that the app refused our leaf for this server, and report it once. -/
def notePinIfRejected (h : Shared μ) (x : Flow σ μ) : Shared μ × Flow σ μ :=
  match x.up with
  | none => (h, x)
  | some up =>
    match up.mitm with
    | none => (h, x)
    | some m =>
      if up.pinReported || !Splice.certRejected m then (h, x)
      else
        let pin := (up.uid, up.server.ip)
        let pinned :=
          if h.pinned.length < pinnedCap ∧ pin ∉ h.pinned then h.pinned ++ [pin] else h.pinned
        (({ h with pinned := pinned }).push
            [Event.tlsPinned up.uid up.server (Splice.host m)],
          { x with up := some { up with pinReported := true } })

/-- Pump the splice and queue what it produces: the first half of `drive_mitm`, which also tells
whether the splice is closed. -/
def pumpMitm (h : Shared μ) (up : TcpUpstream μ) (m : μ) : Shared μ × TcpUpstream μ × Bool :=
  if Splice.isDns m then
    let r := Splice.pumpDns h.isBlockedDomain m
    let hits := Splice.takeDnsBlocked r.2
    (h.push (hits.1.map (Event.encDnsBlocked up.uid up.server)),
      { up with
        mitm := some hits.2
        toUpstream := up.toUpstream ++ r.1.toUpstream
        toApp := up.toApp ++ r.1.toApp },
      r.1.closed)
  else
    let r := Splice.pump m
    let up := { up with mitm := some r.2 }.provisionCosmetics h
    (h,
      { up with
        toUpstream := up.toUpstream ++ r.1.toUpstream
        toApp := up.toApp ++ r.1.toApp },
      r.1.closed)

/-- The second half of `drive_mitm`: the splice is closed, so both directions are. -/
def closeMitm (h : Shared μ) (x : Flow σ μ) : Shared μ × Flow σ μ :=
  let r := notePinIfRejected h x
  let x := r.2.flushToUpstream.flushToApp.closeApp
  (r.1, { x with up := x.up.map TcpUpstream.closeWrite })

/-- Advance the flow's splice. -/
def driveMitm (h : Shared μ) (x : Flow σ μ) : Shared μ × Flow σ μ :=
  match x.up with
  | none => (h, x)
  | some up =>
    match up.mitm with
    | none => (h, x)
    | some m =>
      let r := pumpMitm h up m
      let x := { x with up := some r.2.1 }
      if r.2.2 then closeMitm r.1 x else (r.1, x)

/-- Feed buffered app bytes into a splice just attached. -/
def feedAndDrive (h : Shared μ) (x : Flow σ μ) (data : Bytes) : Shared μ × Flow σ μ :=
  driveMitm h { x with up := x.up.map (TcpUpstream.recvFromApp · data) }

/-- Attach a splice to a flow and feed it what was buffered. -/
def attach (h : Shared μ) (x : Flow σ μ) (up : TcpUpstream μ) (m : μ) (buffered : Bytes) :
    Shared μ × Flow σ μ :=
  feedAndDrive h { x with up := some { up with mitm := some m } } buffered

/-- Carry out what was decided on a deferred flow. A flow that is not DoH is reported to the live
log here, since it never reaches the observer of raw relays. -/
def settle (h : Shared μ) (x : Flow σ μ) (up : TcpUpstream μ) (sni : Option Str)
    (buffered : Bytes) : Shared μ × Flow σ μ :=
  let logged :=
    if h.firewall.logOpen then
      h.push (sni.toList.map fun host =>
        ((Event.flowTo up.server).withUid up.uid).withDomain (some host))
    else h
  let marked := { up with sniReported := up.sniReported || h.firewall.logOpen }
  match h.classification up.uid up.server sni with
  | .doh m => attach h x up m buffered
  | .blocked =>
    teardownTcp (h.push [(Event.blockedFlow up.server).withUid up.uid])
      { x with up := some up }.abort
  | .cosmetic m => attach logged x marked m buffered
  | .raw => (logged, { x with up := some (marked.queueRaw buffered) })

/-- A deferred flow received app bytes: buffer them, and decide on it once that is possible. -/
def classifyPending (h : Shared μ) (x : Flow σ μ) (data : Bytes) : Shared μ × Flow σ μ :=
  match x.up with
  | none => (h, x)
  | some up =>
    match up.classify with
    | .settled => (h, x)
    | .pendingSni buf =>
      match peekPending (buf ++ data) with
      | none => (h, { x with up := some { up with classify := .pendingSni (buf ++ data) } })
      | some sni => settle h x { up with classify := .settled } sni (buf ++ data)

/-- Report the server name of a raw-relayed HTTPS flow once, from this pass's bytes. -/
def observeSni (h : Shared μ) (x : Flow σ μ) (data : Bytes) : Shared μ × Flow σ μ :=
  match x.up with
  | none => (h, x)
  | some up =>
    if up.sniReported || up.server.port != httpsPort then (h, x)
    else match peekSni data with
      | .found host =>
        (h.push [((Event.flowTo up.server).withUid up.uid).withDomain (some host)],
          { x with up := some { up with sniReported := true } })
      | _ => (h, x)

end Interception

section Service

variable [TcpSocket σ] [Splice μ]

/-- The bytes taken from the app go to the splice, to the rewriter or to the upstream as they
are. True when the pass over this flow ends here. -/
def relayAppData (h : Shared μ) (x : Flow σ μ) (data : Bytes) : Bool × Shared μ × Flow σ μ :=
  match x.up with
  | none => (false, h, x)
  | some up =>
    match up.mitm with
    | some _ => (false, driveMitm h { x with up := some (up.recvFromApp data) })
    | none =>
      if data = [] then (false, h, x)
      else match up.httpForward with
        | some hf =>
          let r := hf.push data
          let up := { up with httpForward := some r.2 }
          match r.1 with
          | .ok bytes => (false, h, { x with up := some (up.queue bytes) })
          | .error _ => (true, failProxy h { x with up := some up })
        | none =>
          let r := if h.firewall.logOpen then observeSni h x data else (h, x)
          (false, r.1, { r.2 with up := r.2.up.map (TcpUpstream.queueRaw · data) })

/-- Propagate the app's half-close once its data is drained. -/
def propagateFin (x : Flow σ μ) : Flow σ μ :=
  if x.appFinished then
    { x with up := x.up.map fun up => if up.toUpstream.isEmpty then up.closeWrite else up }
  else x

/-- What a pass does with the bytes it took from the app. -/
def relayTaken (h : Shared μ) (x : Flow σ μ) (data : Bytes) : Shared μ × Flow σ μ :=
  if x.isPending then
    let r := classifyPending h x data
    let x := r.2.flushToUpstream.flushToApp
    (r.1, if x.isPending && x.appFinished then x.abort else x)
  else
    let r := relayAppData h x data
    if r.1 then r.2 else (r.2.1, r.2.2.flushToUpstream.flushToApp.propagateFin)

/-- The body of the loop of `service` for a flow that relays. -/
def relayPass (h : Shared μ) (x : Flow σ μ) : Shared μ × Flow σ μ :=
  let taken := tcpTakeAppData x.socket
  relayTaken h { x with socket := taken.2 } taken.1

/-- The body of the loop of `service`: nothing is relayed until the tunnel is open. -/
def servicePass (h : Shared μ) (x : Flow σ μ) : Shared μ × Flow σ μ :=
  match x.up with
  | none => relayPass h x
  | some up =>
    if up.connecting then (h, x)
    else if up.handshake.isSome then driveProxyHandshake h x
    else relayPass h x

/-- The flags of a readiness event. -/
structure Readiness where
  readable : Bool
  writable : Bool
  readClosed : Bool
  writeClosed : Bool
deriving DecidableEq

/-- What `on_ready` does for a readable event, and again for a closed one. -/
def readUpstream (h : Shared μ) (x : Flow σ μ) (isMitm : Bool) : Shared μ × Flow σ μ :=
  if isMitm then
    let r := driveMitm h x.readUpstreamIntoMitm
    (r.1, r.2.flushToApp)
  else (h, x.pumpUpstreamToApp)

/-- The rest of `on_ready` for an open tunnel. -/
def onReadyRelay (h : Shared μ) (x : Flow σ μ) (event : Readiness) : Shared μ × Flow σ μ :=
  let x := if event.writable then x.flushToUpstream else x
  let isMitm := ((x.up.map fun up => up.mitm.isSome)).getD false
  let r := if event.readable then readUpstream h x isMitm else (h, x)
  if event.readClosed || event.writeClosed then
    let r := readUpstream r.1 r.2 isMitm
    (r.1, r.2.closeApp)
  else r

/-- A readiness event of the flow's upstream socket. -/
def onReady (h : Shared μ) (x : Flow σ μ) (event : Readiness) : Shared μ × Flow σ μ :=
  match x.up with
  | none => onReadyRelay h x event
  | some up =>
    let wasConnecting := event.writable && up.connecting
    let up' :=
      if wasConnecting then
        { up with connecting := false, io := { up.io with connectError := false } }
      else up
    let x := { x with up := some up' }
    if wasConnecting && up.io.connectError then (h, x.abort)
    else if up'.handshake.isSome then driveProxyHandshake h x
    else onReadyRelay h x event

end Service

end Flow

end Adwarden.Core
