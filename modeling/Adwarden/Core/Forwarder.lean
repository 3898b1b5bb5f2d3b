import Adwarden.Core.Lookup
import Adwarden.Net.Stack
import Adwarden.Net.Udp

/-! The forwarder: what it does with a packet off the tunnel, with a readiness event, and in a
service pass, for all flows, UDP sessions and lookups together. -/
namespace Adwarden.Core
open Adwarden.Lib Adwarden.Net Adwarden.Tls Adwarden.Dns

abbrev FourTuple := Stack.FourTuple

/-- A flow of the stack without the handle of its socket. -/
structure TcpFlow where
  tuple : FourTuple
  closedNotified : Bool
deriving DecidableEq

/-- The bookkeeping of the stack; its sockets are kept with the flows of the forwarder. -/
structure NetStack where
  flows : AList fun _ : FlowId => TcpFlow
  byTuple : AList fun _ : FourTuple => FlowId
  nextId : FlowId
  maxFlows : ℕ

def defaultMaxFlows : ℕ := 1024

def NetStack.new : NetStack where
  flows := ∅
  byTuple := ∅
  nextId := 1
  maxFlows := defaultMaxFlows

/-- A packet for the tunnel: a RST for a refused SYN, a datagram, or what the stack emits. -/
inductive Outbound where
  | reset (syn : Bytes)
  | datagram (dgram : UdpDatagram)
  | segment (packet : Bytes)
deriving DecidableEq

/-- The reply packet of `udp::build_reply`; both ends are of one address family. The source panics
on a payload over `Udp.maxPayload`, which only an answer over TCP or TLS can have; here that reply
is delivered too, and the run goes on. -/
def buildReply (src dst : SocketAddr) (payload : Bytes) : Option Outbound :=
  if src.isIpv4 = dst.isIpv4 then some (.datagram ⟨src, dst, payload⟩) else none

/-- It stands for the packet that the app reads as that datagram. -/
theorem buildReply_packet {e : Udp.Emit} {w : Wire} (he : e.Lawful) (hw : Udp.Wire.Exact w)
    (src dst : SocketAddr) {payload : Bytes} (hle : payload.length ≤ Udp.maxPayload src) :
    ∃ pkt, Udp.buildReply e src dst payload = .ok pkt ∧
      buildReply src dst payload = (pkt.bind (parseUdp w)).map .datagram := by
  by_cases hfamily : src.isIpv4 = dst.isIpv4
  · obtain ⟨reply, hbuilt, hread⟩ := Udp.replies_of_le he hw hfamily hle
    cases reply with
    | none => exact absurd hbuilt (Udp.buildReply_ne_none hfamily)
    | some pkt => exact ⟨some pkt, hbuilt, by simp [buildReply, hfamily, hread pkt rfl]⟩
  · exact ⟨none, Udp.buildReply_mixed hfamily, by simp [buildReply, hfamily]⟩

structure CoarseAccum where
  packets : ℕ := 0
  bytes : ℕ := 0
  tcp : ℕ := 0
  udp : ℕ := 0
  dns : ℕ := 0
deriving DecidableEq

/-- How the creation of an upstream socket goes: it is usable, it fails before it is connected, or
after (with a token allocated or not). -/
inductive Dial where
  | opened
  | refused
  | lost (allocated : Bool)
deriving DecidableEq

/-- What leaves the device past the tunnel: a connection attempt, a connected UDP socket, a
datagram on one, and a datagram to the relay of a SOCKS5 proxy. -/
inductive Egress where
  | tcp (dial : SocketAddr)
  | udp (peer : SocketAddr)
  | datagram (peer : SocketAddr) (payload : Bytes)
  | relayed (relay : SocketAddr) (wire : Bytes)
deriving DecidableEq

/-- `dials` and `relayConnects` answer the next calls to the system; `egress` is the record of
what they did. -/
structure Forwarder (σ μ : Type) where
  shared : Shared μ
  stack : NetStack
  flows : AList fun _ : FlowId => Flow σ μ
  udp : AList fun _ : UdpKey => UdpSession
  socksUdp : AList fun _ : UdpKey => Socks5UdpSession
  dnsTcp : AList fun _ : Token => DnsTcpJob
  dnsTls : AList fun _ : Token => DnsTlsJob
  nextToken : Token
  outbox : List Outbound
  dnsOverride : Option IpAddr
  dnsPort : UInt16
  dnsTransport : DnsTransport
  dnsHost : Option Str
  dnsPath : Option Str
  proxyBroken : Bool
  proxyDnsOverTcp : Bool
  socksUdpUnsupported : Bool
  coarse : CoarseAccum
  dials : List Dial
  relayConnects : Bool
  egress : List Egress

def firstDynamicToken : Token := 16

/-- The fields of a configuration that the forwarder starts with; `proxy` is what
`build_proxy` makes of the proxy settings, and `tls` what the CA allows. -/
structure Config (μ : Type) where
  dnsOverride : Option IpAddr
  dnsPort : UInt16
  dnsTransport : DnsTransport
  dnsHost : Option Str
  dnsPath : Option Str
  encryptedDnsMode : EncryptedDnsMode
  tls : Option (MitmConfigs μ)
  logOpen : Bool
  cosmeticElementHiding : Bool
  cosmeticScriptlets : Bool
  proxy : Option Proxy
  proxyBroken : Bool
  proxyDnsOverTcp : Bool

variable {σ μ : Type}

namespace Forwarder

def new (config : Config μ) : Forwarder σ μ where
  shared :=
    { engine := none
      encryptedDnsMode := config.encryptedDnsMode
      firewall := Firewall.new.setLogOpen config.logOpen
      proxy := config.proxy
      httpForward80 := false
      tls := config.tls
      pinned := []
      cosmeticElementHiding := config.cosmeticElementHiding
      cosmeticScriptlets := config.cosmeticScriptlets
      routes := ∅
      batcher := []
      now := 0 }
  stack := .new
  flows := ∅
  udp := ∅
  socksUdp := ∅
  dnsTcp := ∅
  dnsTls := ∅
  nextToken := firstDynamicToken
  outbox := []
  dnsOverride := config.dnsOverride
  dnsPort := normalizeDnsPort config.dnsPort
  dnsTransport := config.dnsTransport
  dnsHost := normalizeDnsHost config.dnsHost
  dnsPath := config.dnsPath
  proxyBroken := config.proxyBroken
  proxyDnsOverTcp := config.proxyDnsOverTcp
  socksUdpUnsupported := false
  coarse := {}
  dials := []
  relayConnects := true
  egress := []

/-- The flow with an id, empty if there is none. -/
def flow (s : Forwarder σ μ) (id : FlowId) : Flow σ μ := (s.flows.lookup id).getD ⟨none, none, []⟩

def setFlow (s : Forwarder σ μ) (id : FlowId) (x : Flow σ μ) : Forwarder σ μ :=
  { s with flows := s.flows.insert id x }

/-- Run one of the methods that work on a single flow. -/
def onFlow (s : Forwarder σ μ) (id : FlowId)
    (f : Shared μ → Flow σ μ → Shared μ × Flow σ μ) : Forwarder σ μ :=
  let r := f s.shared (s.flow id)
  { s.setFlow id r.2 with shared := r.1 }

def push (s : Forwarder σ μ) (es : List Event) : Forwarder σ μ :=
  { s with shared := s.shared.push es }

def setRoute (s : Forwarder σ μ) (token : Token) (route : Route) : Forwarder σ μ :=
  { s with shared := { s.shared with routes := s.shared.routes.insert token route } }

def dropRoute (s : Forwarder σ μ) (token : Token) : Forwarder σ μ :=
  { s with shared := { s.shared with routes := s.shared.routes.erase token } }

def send (s : Forwarder σ μ) (packets : List Outbound) : Forwarder σ μ :=
  { s with outbox := s.outbox ++ packets }

def emit (s : Forwarder σ μ) (es : List Egress) : Forwarder σ μ :=
  { s with egress := s.egress ++ es }

section Sockets

/-- Create a socket and connect it, which the system can refuse. -/
def dial (s : Forwarder σ μ) (record : Egress) : Option Token × Forwarder σ μ :=
  match s.dials with
  | [] => (none, s)
  | .refused :: dials => (none, { s with dials := dials })
  | .lost false :: dials => (none, { s.emit [record] with dials := dials })
  | .lost true :: dials =>
    (none, { s.emit [record] with dials := dials, nextToken := s.nextToken + 1 })
  | .opened :: dials =>
    (some s.nextToken, { s.emit [record] with dials := dials, nextToken := s.nextToken + 1 })

/-- Dial the proxy when there is one, else the server. -/
def connectTcp (s : Forwarder σ μ) (server : SocketAddr) :
    Option (UpstreamIo × Token) × Forwarder σ μ :=
  let peer := (s.shared.proxy.map Proxy.addr).getD server
  let tls := (s.shared.proxy.map Proxy.isTls).getD false
  let r := s.dial (.tcp peer)
  (r.1.map fun token => (.dialed tls, token), r.2)

def connectUdp (s : Forwarder σ μ) (server : SocketAddr) : Option Token × Forwarder σ μ :=
  s.dial (.udp server)

def connectSocksCtrl (s : Forwarder σ μ) : Option Token × Forwarder σ μ :=
  match s.shared.proxy with
  | none => (none, s)
  | some p => s.dial (.tcp p.addr)

/-- The relay socket is created here and connected later, so nothing leaves yet. -/
def newRelaySocket (s : Forwarder σ μ) : Option Token × Forwarder σ μ :=
  match s.shared.proxy with
  | none => (none, s)
  | some _ =>
    match s.dials with
    | .opened :: dials => (some s.nextToken, { s with dials := dials, nextToken := s.nextToken + 1 })
    | .lost true :: dials => (none, { s with dials := dials, nextToken := s.nextToken + 1 })
    | _ :: dials => (none, { s with dials := dials })
    | [] => (none, s)

def connectDnsTls (s : Forwarder σ μ) (peer : SocketAddr) :
    Option (UpstreamIo × Token) × Forwarder σ μ :=
  let r := s.dial (.tcp peer)
  (r.1.map fun token => (.dialed true, token), r.2)

end Sockets

section Udp

/-- Send a payload on the session of a key, if there is one. -/
def sendUdp (s : Forwarder σ μ) (key : UdpKey) (payload : Bytes) : Forwarder σ μ :=
  match s.udp.lookup key with
  | none => s
  | some session =>
    { s.emit [.datagram session.peer payload] with
      udp := s.udp.insert key { session with lastUsedMs := s.shared.now } }

/-- Forward a datagram directly; a session keeps the upstream it was made for. -/
def forwardUdp (s : Forwarder σ μ) (dgram : UdpDatagram) (upstream : SocketAddr) :
    Forwarder σ μ :=
  let key : UdpKey := ⟨dgram.src, dgram.dst⟩
  if (s.udp.lookup key).isSome then s.sendUdp key dgram.payload
  else match s.connectUdp upstream with
    | (none, s) => s
    | (some token, s) =>
      let session : UdpSession := ⟨upstream, [], token, dgram.src, dgram.dst, s.shared.now⟩
      let s := s.setRoute token (.udp key)
      { s with udp := s.udp.insert key session }.sendUdp key dgram.payload

/-- Forward a datagram through a SOCKS5 association, which the first one creates. -/
def forwardUdpSocks (s : Forwarder σ μ) (dgram : UdpDatagram) (target : SocketAddr) :
    Forwarder σ μ :=
  let key : UdpKey := ⟨dgram.src, dgram.dst⟩
  match s.socksUdp.lookup key with
  | some session =>
    let session := { session with lastUsedMs := s.shared.now }
    if session.ready then
      let wire := socks5UdpEncapsulate session.target dgram.payload
      { s.emit (session.relay.toList.map fun relay => .relayed relay wire) with
        socksUdp := s.socksUdp.insert key session }
    else if session.pending.length < socksUdpPendingCap then
      let session := { session with pending := session.pending ++ [dgram.payload] }
      { s with socksUdp := s.socksUdp.insert key session }
    else { s with socksUdp := s.socksUdp.insert key session }
  | none =>
    match s.shared.proxy with
    | none => s
    | some proxy =>
      match s.connectSocksCtrl with
      | (none, s) => s
      | (some ctrlToken, s) =>
        match s.newRelaySocket with
        | (none, s) => s
        | (some relayToken, s) =>
          let session : Socks5UdpSession :=
            { ctrl := .dialed false
              ctrlToken := ctrlToken
              ctrlConnecting := true
              handshake := some (.udpAssociate proxy)
              hsOut := []
              relay := none
              relayInbox := []
              relayToken := relayToken
              app := dgram.src
              replySrc := dgram.dst
              target := target
              pending := [dgram.payload]
              ready := false
              lastUsedMs := s.shared.now
              createdMs := s.shared.now }
          let s := (s.setRoute ctrlToken (.socksCtrl key)).setRoute relayToken (.socksRelay key)
          { s with socksUdp := s.socksUdp.insert key session }

def teardownSocks (s : Forwarder σ μ) (key : UdpKey) : Forwarder σ μ :=
  match s.socksUdp.lookup key with
  | none => s
  | some session =>
    { (s.dropRoute session.ctrlToken).dropRoute session.relayToken with
      socksUdp := s.socksUdp.erase key }

/-- The association is granted: connect the relay socket and send what has been buffered. An
unspecified bound address stands for the proxy's own. -/
def socksAssociateReady (s : Forwarder σ μ) (key : UdpKey) (bound : Option SocketAddr) :
    Forwarder σ μ :=
  match s.shared.proxy, bound, s.socksUdp.lookup key with
  | none, _, _ => s.teardownSocks key
  | some _, none, _ => s.teardownSocks key
  | some _, some _, none => s
  | some proxy, some bound, some session =>
    let relay : SocketAddr := if bound.ip.isUnspecified then ⟨proxy.addr.ip, bound.port⟩ else bound
    if s.relayConnects then
      let wires := session.pending.map (socks5UdpEncapsulate session.target)
      { s.emit (wires.map (Egress.relayed relay)) with
        socksUdp := s.socksUdp.insert key
          { session with handshake := none, ready := true, relay := some relay, pending := [] } }
    else s.teardownSocks key

/-- Advance the control handshake of an association. -/
def driveSocksCtrl (s : Forwarder σ μ) (key : UdpKey) : Forwarder σ μ :=
  match s.socksUdp.lookup key with
  | none => s
  | some session =>
    if session.ctrlConnecting && session.ctrl.connectError then s.teardownSocks key
    else match session.handshake with
      | none => s
      | some hs =>
        let r := pumpHandshake 2048 ⟨session.ctrl, hs, session.hsOut⟩
        let session :=
          { session with
            ctrlConnecting := false
            ctrl := r.2.io
            handshake := some r.2.hs
            hsOut := r.2.hsOut }
        let s := { s with socksUdp := s.socksUdp.insert key session }
        match r.1 with
        | .pending => s
        | .failed => { s with socksUdpUnsupported := true }.teardownSocks key
        | .done _ => s.socksAssociateReady key r.2.hs.bound

/-- Relay the datagrams that have arrived on a session back to the app. -/
def pumpUdpReply (s : Forwarder σ μ) (key : UdpKey) : Forwarder σ μ :=
  match s.udp.lookup key with
  | none => s
  | some session =>
    let used := if session.inbox = [] then session.lastUsedMs else s.shared.now
    { s.send (session.inbox.filterMap (buildReply session.server session.app)) with
      udp := s.udp.insert key { session with inbox := [], lastUsedMs := used } }

def pumpSocksRelay (s : Forwarder σ μ) (key : UdpKey) : Forwarder σ μ :=
  match s.socksUdp.lookup key with
  | none => s
  | some session =>
    let used := if session.relayInbox = [] then session.lastUsedMs else s.shared.now
    let payloads := (session.relayInbox.filterMap socks5UdpDecapsulate).map (·.2)
    { s.send (payloads.filterMap (buildReply session.replySrc session.app)) with
      socksUdp := s.socksUdp.insert key { session with relayInbox := [], lastUsedMs := used } }

end Udp

section Lookups

/-- Start a DNS-over-TCP query through the proxy. -/
def forwardDnsOverProxy (s : Forwarder σ μ) (dgram : UdpDatagram) (resolver : SocketAddr) :
    Forwarder σ μ :=
  if dnsTcpMaxJobs ≤ s.dnsTcp.keys.length ∨ 65535 < dgram.payload.length then s
  else match s.shared.proxy with
    | none => s
    | some proxy =>
      match s.connectTcp resolver with
      | (none, s) => s
      | (some (io, token), s) =>
        let job : DnsTcpJob :=
          { io := io
            connecting := true
            handshake := some (.connect proxy resolver)
            hsOut := []
            toSend := lengthPrefixed dgram.payload
            querySent := false
            respBuf := []
            app := dgram.src
            replySrc := dgram.dst
            createdMs := s.shared.now }
        { s.setRoute token .dnsTcp with dnsTcp := s.dnsTcp.insert token job }

/-- Start a query over DNS over TLS or HTTPS, which needs a server name to verify. -/
def forwardDnsTls (s : Forwarder σ μ) (dgram : UdpDatagram) (peer : SocketAddr) :
    Forwarder σ μ :=
  let mode? : Option DnsTlsMode := match s.dnsTransport with
    | .dot => some .dot
    | .doh => some .doh
    | .plain => none
  if dnsTlsMaxJobs ≤ s.dnsTls.keys.length ∨ 65535 < dgram.payload.length then s
  else match mode?, s.dnsHost with
    | some mode, some host =>
      match s.connectDnsTls peer with
      | (none, s) => s
      | (some (io, token), s) =>
        let toSend := match mode with
          | .dot => lengthPrefixed dgram.payload
          | .doh => postWire host (s.dnsPath.getD (Str.lit "/dns-query")) dgram.payload
        let job : DnsTlsJob :=
          { io := io
            connecting := true
            mode := mode
            toSend := toSend
            querySent := false
            respBuf := []
            app := dgram.src
            replySrc := dgram.dst
            createdMs := s.shared.now }
        { s.setRoute token .dnsTls with dnsTls := s.dnsTls.insert token job }
    | _, _ => s

def teardownDnsTcp (s : Forwarder σ μ) (token : Token) : Forwarder σ μ :=
  match s.dnsTcp.lookup token with
  | none => s
  | some _ => { s.dropRoute token with dnsTcp := s.dnsTcp.erase token }

def teardownDnsTls (s : Forwarder σ μ) (token : Token) : Forwarder σ μ :=
  match s.dnsTls.lookup token with
  | none => s
  | some _ => { s.dropRoute token with dnsTls := s.dnsTls.erase token }

def driveDnsTcp (s : Forwarder σ μ) (token : Token) : Forwarder σ μ :=
  match s.dnsTcp.lookup token with
  | none => s
  | some job =>
    match job.drive with
    | .running job => { s with dnsTcp := s.dnsTcp.insert token job }
    | .finished none => s.teardownDnsTcp token
    | .finished (some message) =>
      (s.send (buildReply job.replySrc job.app message).toList).teardownDnsTcp token

def driveDnsTls (s : Forwarder σ μ) (token : Token) : Forwarder σ μ :=
  match s.dnsTls.lookup token with
  | none => s
  | some job =>
    match job.drive with
    | .running job => { s with dnsTls := s.dnsTls.insert token job }
    | .finished none => s.teardownDnsTls token
    | .finished (some message) =>
      (s.send (buildReply job.replySrc job.app message).toList).teardownDnsTls token

end Lookups

section Packets

variable [TcpSocket σ]

/-- The stack takes a TCP packet: a fresh SYN creates a flow that listens as its server. -/
def onTcpPacket (s : Forwarder σ μ) (peek : Option TcpPeek) :
    Option (FlowId × SocketAddr) × Forwarder σ μ :=
  match peek with
  | none => (none, s)
  | some peek =>
    let tuple : FourTuple := ⟨peek.app, peek.server⟩
    if peek.syn && !peek.ack && (s.stack.byTuple.lookup tuple).isNone then
      if s.stack.maxFlows ≤ s.stack.flows.keys.length then (none, s)
      else match (TcpSocket.listen tuple.server tcpRxBuf tcpTxBuf : Option σ) with
        | none => (none, s)
        | some socket =>
          let id := s.stack.nextId
          (some (id, tuple.server),
            { s.setFlow id ⟨some socket, none, []⟩ with
              stack :=
                { s.stack with
                  flows := s.stack.flows.insert id ⟨tuple, false⟩
                  byTuple := s.stack.byTuple.insert tuple id
                  nextId := id + 1 } })
    else (none, s)

/-- Dial the server of a new flow, or drop it. -/
def openTcp (s : Forwarder σ μ) (id : FlowId) (server : SocketAddr) (uid : ℤ) : Forwarder σ μ :=
  if s.shared.refuses server uid then s.setFlow id (s.flow id).abort
  else match s.connectTcp server with
    | (none, s) => s.setFlow id (s.flow id).abort
    | (some (io, token), s) =>
      let s := s.setRoute token (.tcp id)
      s.setFlow id { s.flow id with up := some (s.shared.openUpstream server uid io token) }

/-- Whether an allowed packet of this app is folded into the coarse aggregate. -/
def coarseMode (s : Forwarder σ μ) (uid : ℤ) : Bool :=
  !s.shared.firewall.logOpen && (s.shared.firewall.rules.lookup uid).isNone

def coarseAdd (s : Forwarder σ μ) (len : ℕ) (proto : L4) (isDns : Bool) : Forwarder σ μ :=
  { s with coarse :=
    { packets := s.coarse.packets + 1
      bytes := s.coarse.bytes + len
      tcp := s.coarse.tcp + if proto = .tcp then 1 else 0
      udp := s.coarse.udp + if proto = .udp then 1 else 0
      dns := s.coarse.dns + if isDns then 1 else 0 } }

/-- Account for an allowed packet: in the aggregate, or as an event. -/
def account (s : Forwarder σ μ) (d : Decoded) (uid : ℤ) (isDns : Bool) (domain : Option Str) :
    Forwarder σ μ :=
  if s.coarseMode uid then s.coarseAdd d.length d.proto isDns
  else s.push [((Event.flow d).withUid uid).withDomain domain]

/-- The firewall verdict for a packet; `owner` is the answer of the platform if it is asked. -/
def judge (s : Forwarder σ μ) (d : Decoded) (proto : UInt8) (owner : ℤ) :
    Verdict × Forwarder σ μ :=
  let r := s.shared.firewall.verdict ⟨proto, d.src, d.srcPort, d.dst, d.dstPort⟩ owner
  (r.1, { s with shared := { s.shared with firewall := r.2 } })

def reject (s : Forwarder σ μ) (d : Decoded) (uid : ℤ) : Forwarder σ μ :=
  s.push [(Event.blocked d).withUid uid]

/-- Inspect a DNS datagram: `none` when its name is blocked, which has then been answered, else
the name it asks for, if it parses. -/
def handleDns (s : Forwarder σ μ) (d : Decoded) (dgram : UdpDatagram) :
    Option (Option Str) × Forwarder σ μ :=
  match parseQuery dgram.payload with
  | none => (some none, s)
  | some query =>
    if s.shared.isBlockedDomain query.name then
      let reply := buildReply dgram.dst dgram.src (synthesizeNxdomain dgram.payload query)
      (none, (s.send reply.toList).push [Event.blockedDomain d query.name])
    else (some (some query.name), s)

def dnsUpstream (s : Forwarder σ μ) (queried : SocketAddr) : SocketAddr :=
  resolveDnsUpstream s.dnsOverride s.dnsPort queried

def dnsUpstreamPlain (s : Forwarder σ μ) (queried : SocketAddr) : SocketAddr :=
  resolveDnsUpstream s.dnsOverride (proxyDnsPort s.dnsTransport s.dnsPort) queried

/-- Where an allowed datagram goes. -/
def routeUdp (s : Forwarder σ μ) (dgram : UdpDatagram) (isDns : Bool) : Forwarder σ μ :=
  let upstream := if isDns then s.dnsUpstream dgram.dst else dgram.dst
  let proxyUdp := s.shared.proxy.map Proxy.supportsUdp
  if isDns && s.shared.proxy.isSome && s.proxyDnsOverTcp then
    let resolver := s.dnsUpstreamPlain dgram.dst
    if proxyUdp = some true ∧ s.socksUdpUnsupported = false then s.forwardUdpSocks dgram resolver
    else s.forwardDnsOverProxy dgram resolver
  else if isDns then
    match s.dnsTransport with
    | .plain => s.forwardUdp dgram upstream
    | .dot | .doh => s.forwardDnsTls dgram upstream
  else if proxyUdp = some true then s.forwardUdpSocks dgram upstream
  else s.forwardUdp dgram upstream

def isDnsPort (port : UInt16) : Bool := port == 53 || port == 5353

/-- What the encrypted-DNS mode makes of a TCP packet to port 853: true when it is dropped. -/
def dropsDot (s : Forwarder σ μ) (d : Decoded) (uid : ℤ) : Bool :=
  d.dstPort == dotPort && s.shared.encryptedDnsMode != .off &&
    !(s.shared.encryptedDnsMode == .filter && s.shared.canInterceptEncDns uid d.dst)

/-- The UDP packets that carry encrypted DNS over QUIC. -/
def dropsDoq (s : Forwarder σ μ) (d : Decoded) : Bool :=
  s.shared.encryptedDnsMode != .off &&
    (d.dstPort == dotPort || (d.dstPort == httpsPort && isKnownDohIp d.dst))

variable (w : Wire)

def refuse (s : Forwarder σ μ) (packet : Bytes) (d : Decoded) (uid : ℤ) : Forwarder σ μ :=
  (s.send (if resetsSyn w packet then [.reset packet] else [])).reject d uid

def onTcp (s : Forwarder σ μ) (packet : Bytes) (d : Decoded) (owner : ℤ) : Forwarder σ μ :=
  let v := s.judge d protoTcp owner
  let s := v.2
  if v.1.blocked then s.refuse w packet d v.1.uid
  else if s.proxyBroken then s.refuse w packet d v.1.uid
  else if s.dropsDot d v.1.uid then s.refuse w packet d v.1.uid
  else
    let r := (s.account d v.1.uid false none).onTcpPacket (peekTcp w packet)
    match r.1 with
    | none => r.2
    | some (id, server) => r.2.openTcp id server v.1.uid

def onUdp (s : Forwarder σ μ) (packet : Bytes) (d : Decoded) (owner : ℤ) : Forwarder σ μ :=
  if s.dropsDoq d then s.push [Event.blocked d]
  else
    let v := s.judge d protoUdp owner
    let s := v.2
    let isDns := isDnsPort d.dstPort
    if v.1.blocked then s.reject d v.1.uid
    else if s.proxyBroken then s.reject d v.1.uid
    else if s.shared.proxy.map Proxy.supportsUdp = some false ∧ isDns = false then
      s.reject d v.1.uid
    else if s.shared.cosmeticElementHiding && d.dstPort == httpsPort &&
        s.shared.firewall.appInspects v.1.uid then
      s.reject d v.1.uid
    else match parseUdp w packet with
      | none => s.account d v.1.uid isDns none
      | some dgram =>
        let r := if isDns then s.handleDns d dgram else (some none, s)
        match r.1 with
        | none => r.2
        | some name => (r.2.account d v.1.uid isDns name).routeUdp dgram isDns

/-- A packet was read off the tunnel. -/
def onTunPacket (s : Forwarder σ μ) (packet : Bytes) (owner : ℤ) : Forwarder σ μ :=
  match decode packet with
  | none => s
  | some d =>
    match d.proto with
    | .tcp => s.onTcp w packet d owner
    | .udp => s.onUdp w packet d owner
    | _ =>
      if s.coarseMode (-1) then s.coarseAdd d.length d.proto false else s.push [Event.flow d]

end Packets

section Passes

variable [TcpSocket σ] [Splice μ]

/-- A poll of the interface: every socket may change. -/
def pollSockets (s : Forwarder σ μ) (polls : FlowId → Poll σ) : Forwarder σ μ :=
  s.flows.keys.foldl (fun s id =>
    s.setFlow id { s.flow id with socket := (s.flow id).socket.map (polls id).run }) s

/-- The flows whose sockets are closed, and of which nobody was told. -/
def closedFlows (s : Forwarder σ μ) : List FlowId :=
  s.stack.flows.keys.filter fun id =>
    match s.stack.flows.lookup id, (s.flow id).socket with
    | some f, some socket => !f.closedNotified && (TcpSocket.view socket).state == .closed
    | _, _ => false

def removeFlow (s : Forwarder σ μ) (id : FlowId) : Forwarder σ μ :=
  match s.stack.flows.lookup id with
  | none => s
  | some f =>
    { s with
      flows := s.flows.insert id { s.flow id with socket := none }
      stack :=
        { s.stack with
          flows := s.stack.flows.erase id
          byTuple := s.stack.byTuple.erase f.tuple } }

/-- The flows that have ended are torn down. -/
def sweepClosed (s : Forwarder σ μ) : Forwarder σ μ :=
  s.closedFlows.foldl (fun s id => (s.onFlow id Flow.teardownTcp).removeFlow id) s

def reapUdp (s : Forwarder σ μ) : Forwarder σ μ :=
  s.udp.keys.foldl (fun s key =>
    match s.udp.lookup key with
    | some session =>
      if udpIdleMs < s.shared.now - session.lastUsedMs then
        { s.dropRoute session.token with udp := s.udp.erase key }
      else s
    | none => s) s

def reapSocks (s : Forwarder σ μ) : Forwarder σ μ :=
  s.socksUdp.keys.foldl (fun s key =>
    match s.socksUdp.lookup key with
    | some session =>
      if udpIdleMs < s.shared.now - session.lastUsedMs then s.teardownSocks key else s
    | none => s) s

def reapDnsTcp (s : Forwarder σ μ) : Forwarder σ μ :=
  s.dnsTcp.keys.foldl (fun s token =>
    match s.dnsTcp.lookup token with
    | some job => if dnsTcpTimeoutMs < s.shared.now - job.createdMs then s.teardownDnsTcp token else s
    | none => s) s

def reapDnsTls (s : Forwarder σ μ) : Forwarder σ μ :=
  s.dnsTls.keys.foldl (fun s token =>
    match s.dnsTls.lookup token with
    | some job => if dnsTlsTimeoutMs < s.shared.now - job.createdMs then s.teardownDnsTls token else s
    | none => s) s

/-- Proxy handshakes that have taken too long fail closed. -/
def reapProxyHandshakes (s : Forwarder σ μ) : Forwarder σ μ :=
  let s := s.flows.keys.foldl (fun s id =>
    match (s.flow id).up with
    | some up =>
      if up.handshake.isSome && decide (proxyHsTimeoutMs < s.shared.now - up.openedMs) then
        s.onFlow id Flow.failProxy
      else s
    | none => s) s
  s.socksUdp.keys.foldl (fun s key =>
    match s.socksUdp.lookup key with
    | some session =>
      if session.handshake.isSome && decide (proxyHsTimeoutMs < s.shared.now - session.lastUsedMs) then
        { s with socksUdpUnsupported := true }.teardownSocks key
      else s
    | none => s) s

/-- Flows that wait too long for their server name are aborted. -/
def reapPendingSni (s : Forwarder σ μ) : Forwarder σ μ :=
  s.flows.keys.foldl (fun s id =>
    match (s.flow id).up with
    | some up =>
      if up.isPending && decide (pendingSniTimeoutMs < s.shared.now - up.openedMs) then
        s.setFlow id (s.flow id).abort
      else s
    | none => s) s

/-- Advance the stack and pump both directions of every flow. `order` is the order in which the
flows come, which is not specified, and `emitted` what the stack has for the tunnel. -/
def service (s : Forwarder σ μ) (polls : FlowId → Poll σ) (order : List FlowId)
    (emitted : List Bytes) : Forwarder σ μ :=
  let s := (s.pollSockets polls).sweepClosed
  let s := order.foldl (fun s id => s.onFlow id Flow.servicePass) s
  let s := s.reapUdp.reapSocks.reapDnsTcp.reapDnsTls
  s.reapProxyHandshakes.reapPendingSni.send (emitted.map Outbound.segment)

/-- A readiness event of the socket with a token. -/
def onReady (s : Forwarder σ μ) (token : Token) (event : Flow.Readiness) : Forwarder σ μ :=
  match s.shared.routes.lookup token with
  | some (.tcp id) => s.onFlow id fun h x => Flow.onReady h x event
  | some (.udp key) => s.pumpUdpReply key
  | some (.socksCtrl key) =>
    if ((s.socksUdp.lookup key).bind Socks5UdpSession.handshake).isSome then s.driveSocksCtrl key
    else if event.readClosed || event.writeClosed then s.teardownSocks key
    else s
  | some (.socksRelay key) => if event.readable then s.pumpSocksRelay key else s
  | some .dnsTcp => s.driveDnsTcp token
  | some .dnsTls => s.driveDnsTls token
  | none => s

end Passes

end Forwarder

end Adwarden.Core
