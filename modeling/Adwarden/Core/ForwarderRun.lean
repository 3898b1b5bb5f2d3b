import Adwarden.Core.Forwarder

/-! The forwarder as a state machine: packets, readiness events, service passes and live updates
in any order, among whatever the network and the system do. -/
namespace Adwarden.Core
open Adwarden.Lib Adwarden.Net Adwarden.Tls Adwarden.Dns

/-- The live updates. Loading an engine puts what was loaded into force. -/
inductive Command where
  | loadEngine (engine : Option FilterEngine)
  | setFirewall (rules : Rules)
  | setTransport (transport : UInt8)
  | setLogOpen (isOpen : Bool)
  | setEncryptedDnsMode (mode : EncryptedDnsMode)
  | setCosmetic (elementHiding scriptlets : Bool)
  | setProxyDnsOverTcp (on : Bool)
  | setDnsUpstream (transport : DnsTransport) (overrideIp : Option IpAddr) (port : UInt16)
      (host path : Option Str)

/-- What arrives at an upstream socket: news of a connection, or datagrams. -/
structure Arrival where
  io : IoNews
  datagrams : List Bytes

/-- One step: of the forwarder, or of the world around it (time, arrivals, and how the next calls
to the system and to the TLS library go). -/
inductive Input (σ μ : Type) [TcpSocket σ] [Splice μ] where
  | packet (packet : Bytes) (owner : ℤ)
  | ready (token : Token) (event : Flow.Readiness)
  | service (polls : FlowId → Poll σ) (order : List FlowId) (emitted : List Bytes)
  | command (c : Command)
  | elapse (ms : ℕ)
  | arrive (token : Token) (a : Arrival)
  | answers (dials : List Dial) (relayConnects : Bool)
  | splices (c : { c : MitmConfigs μ // c.Lawful })

variable {σ μ : Type}

namespace Forwarder

def setShared (s : Forwarder σ μ) (h : Shared μ) : Forwarder σ μ := { s with shared := h }

def setDnsUpstream (s : Forwarder σ μ) (transport : DnsTransport) (overrideIp : Option IpAddr)
    (port : UInt16) (host path : Option Str) : Forwarder σ μ :=
  { s with
    dnsTransport := transport
    dnsOverride := overrideIp
    dnsPort := normalizeDnsPort port
    dnsHost := normalizeDnsHost host
    dnsPath := path }

def apply (s : Forwarder σ μ) : Command → Forwarder σ μ
  | .loadEngine engine => s.setShared { s.shared with engine := engine }
  | .setFirewall rules =>
    s.setShared { s.shared with firewall := s.shared.firewall.setFirewall rules }
  | .setTransport transport =>
    s.setShared { s.shared with firewall := s.shared.firewall.setTransport transport }
  | .setLogOpen isOpen =>
    s.setShared { s.shared with firewall := s.shared.firewall.setLogOpen isOpen }
  | .setEncryptedDnsMode mode => s.setShared { s.shared with encryptedDnsMode := mode }
  | .setCosmetic elementHiding scriptlets =>
    s.setShared { s.shared with
      cosmeticElementHiding := elementHiding, cosmeticScriptlets := scriptlets }
  | .setProxyDnsOverTcp on => { s with proxyDnsOverTcp := on }
  | .setDnsUpstream transport overrideIp port host path =>
    s.setDnsUpstream transport overrideIp port host path

/-- Something arrives at the socket with a token. -/
def arrive (s : Forwarder σ μ) (token : Token) (a : Arrival) : Forwarder σ μ :=
  match s.shared.routes.lookup token with
  | some (.tcp id) =>
    let x := s.flow id
    s.setFlow id { x with up := x.up.map fun up => { up with io := up.io.hear a.io } }
  | some (.udp key) =>
    match s.udp.lookup key with
    | some session =>
      let session := { session with inbox := session.inbox ++ a.datagrams }
      { s with udp := s.udp.insert key session }
    | none => s
  | some (.socksCtrl key) =>
    match s.socksUdp.lookup key with
    | some session =>
      let session := { session with ctrl := session.ctrl.hear a.io }
      { s with socksUdp := s.socksUdp.insert key session }
    | none => s
  | some (.socksRelay key) =>
    match s.socksUdp.lookup key with
    | some session =>
      let session := { session with relayInbox := session.relayInbox ++ a.datagrams }
      { s with socksUdp := s.socksUdp.insert key session }
    | none => s
  | some .dnsTcp =>
    match s.dnsTcp.lookup token with
    | some job => { s with dnsTcp := s.dnsTcp.insert token { job with io := job.io.hear a.io } }
    | none => s
  | some .dnsTls =>
    match s.dnsTls.lookup token with
    | some job => { s with dnsTls := s.dnsTls.insert token { job with io := job.io.hear a.io } }
    | none => s
  | none => s

/-- A readiness event of a flow's socket is on its way no more. -/
def deliver (s : Forwarder σ μ) (token : Token) (event : Flow.Readiness) : Forwarder σ μ :=
  match s.shared.routes.lookup token with
  | some (.tcp id) =>
    let x := s.flow id
    s.setFlow id { x with
      up := x.up.map fun up => { up with io := up.io.deliver event.readable } }
  | _ => s

variable [TcpSocket σ] [Splice μ]

/-- The flows that a service pass goes over. -/
def activeFlows (s : Forwarder σ μ) (polls : FlowId → Poll σ) : List FlowId :=
  (s.pollSockets polls).sweepClosed.stack.flows.keys

def step (w : Wire) (s : Forwarder σ μ) : Input σ μ → Option (Forwarder σ μ)
  | .packet packet owner => some (s.onTunPacket w packet owner)
  | .ready token event => some ((s.deliver token event).onReady token event)
  | .service polls order emitted =>
    if order.Perm (s.activeFlows polls) then some (s.service polls order emitted) else none
  | .command c => some (s.apply c)
  | .elapse ms => some (s.setShared { s.shared with now := s.shared.now + ms })
  | .arrive token a => some (s.arrive token a)
  | .answers dials relayConnects =>
    some { s with dials := dials, relayConnects := relayConnects }
  | .splices c => some (s.setShared { s.shared with tls := s.shared.tls.map fun _ => c.val })

/-- The runs of a forwarder that is started with a configuration. -/
def automaton (w : Wire) (config : Config μ) : Automaton (Forwarder σ μ) (Input σ μ) where
  init := .new config
  step := step w

end Forwarder

end Adwarden.Core
