import Adwarden.Core.FlowActs
import Adwarden.Core.ForwarderRun
import Adwarden.Lib.Registry

/-! The elementary acts on the tables of the forwarder. Each step is made of them; what they keep,
every run keeps. -/
namespace Adwarden.Core
open Relation Adwarden.Lib Adwarden.Net Adwarden.Tls Adwarden.Dns

variable {σ μ : Type}

/-- What identifies a UDP session. -/
def UdpSession.ident (u : UdpSession) : Token × SocketAddr × SocketAddr := (u.token, u.app, u.server)

/-- What identifies an association, and when it was made. -/
def Socks5UdpSession.ident (u : Socks5UdpSession) :
    Token × Token × SocketAddr × SocketAddr × ℤ :=
  (u.ctrlToken, u.relayToken, u.app, u.replySrc, u.createdMs)

/-- The relay endpoint that a SOCKS5 proxy announces with a bound address: an unspecified one
stands for the proxy's own. -/
def Proxy.relayAt (p : Proxy) (bound : SocketAddr) : SocketAddr :=
  if bound.ip.isUnspecified then ⟨p.addr.ip, bound.port⟩ else bound

namespace Socks5UdpSession

/-- The control connection of an association, and what has come of it. -/
def control (u : Socks5UdpSession) : UpstreamIo × Option Handshake × Option SocketAddr × Bool :=
  (u.ctrl, u.handshake, u.relay, u.ready)

/-- What has arrived on the control connection completes the handshake and announces `relay`. -/
def Granted (proxy : Option Proxy) (u : Socks5UdpSession) (relay : SocketAddr) : Prop :=
  ∃ p h leftover d bound, proxy = some p ∧ u.handshake = some h ∧
    pumpHandshake 2048 ⟨u.ctrl, h, u.hsOut⟩ = (.done leftover, d) ∧ d.hs.bound = some bound ∧
    relay = p.relayAt bound

/-- The association sends datagrams to `relay`, or is about to. -/
def RelaysTo (proxy : Option Proxy) (u : Socks5UdpSession) (relay : SocketAddr) : Prop :=
  u.relay = some relay ∨ u.Granted proxy relay

/-- What becomes of the control side of an association. `N` holds of what is heard on it. -/
inductive Change (N : IoNews → Prop) (proxy : Option Proxy) (u : Socks5UdpSession) :
    Socks5UdpSession → Prop
  | keep {u' : Socks5UdpSession} (h : u'.control = u.control) : Change N proxy u u'
  | hear {news : IoNews} (hN : N news) : Change N proxy u { u with ctrl := u.ctrl.hear news }
  | pump {u' : Socks5UdpSession} {h : Handshake} {d : Driving} (hh : u.handshake = some h)
      (hpump : pumpHandshake 2048 ⟨u.ctrl, h, u.hsOut⟩ = (.pending, d))
      (hu' : u'.control = (d.io, some d.hs, u.relay, u.ready)) : Change N proxy u u'
  | grant {u' : Socks5UdpSession} {relay : SocketAddr} (h : u.Granted proxy relay)
      (hu' : u'.control.2 = (none, some relay, true)) : Change N proxy u u'

end Socks5UdpSession

variable [TcpSocket σ] [Splice μ]

/-- What the world makes of a flow between the calls of the forwarder. -/
inductive Flow.World : Flow σ μ → Flow σ μ → Prop
  | poll (x : Flow σ μ) (p : Poll σ) : World x { x with socket := x.socket.map p.run }
  | hear (x : Flow σ μ) (news : IoNews) :
    World x { x with up := x.up.map fun up => { up with io := up.io.hear news } }
  | deliver (x : Flow σ μ) (readable : Bool) :
    World x { x with up := x.up.map fun up => { up with io := up.io.deliver readable } }

namespace Forwarder

/-- What may come about in a step besides: news on the control connection of an association, a
verdict or new rules, a new flow, and the end of one. -/
structure Causes where
  news : IoNews → Prop
  judged : Prop
  created : Prop
  removed : Prop

namespace Causes

def any : Causes := ⟨fun _ => True, True, True, True⟩

/-- Nothing is heard on a control connection. -/
def silent : Causes := { any with news := fun _ => False }

/-- Only the sessions, and what the flows there are hold, may change. -/
def inner : Causes := ⟨fun _ => True, False, False, False⟩

end Causes

/-- All but the tables of sessions and flows, the routes and the tokens can differ; the proxy is
fixed when the forwarder is made. -/
structure SameTables (s s' : Forwarder σ μ) : Prop where
  routes : s'.shared.routes = s.shared.routes
  proxy : s'.shared.proxy = s.shared.proxy
  proxyBroken : s'.proxyBroken = s.proxyBroken
  stack : s'.stack = s.stack
  flows : s'.flows = s.flows
  udp : s'.udp = s.udp
  socksUdp : s'.socksUdp = s.socksUdp
  dnsTcp : s'.dnsTcp = s.dnsTcp
  dnsTls : s'.dnsTls = s.dnsTls
  nextToken : s'.nextToken = s.nextToken
  egress : s'.egress = s.egress

def skipToken (s : Forwarder σ μ) : Forwarder σ μ := { s with nextToken := s.nextToken + 1 }

def setDials (s : Forwarder σ μ) (dials : List Dial) : Forwarder σ μ := { s with dials := dials }

/-- Take the next token for a route. -/
def alloc (s : Forwarder σ μ) (route : Route) : Forwarder σ μ :=
  (s.setRoute s.nextToken route).skipToken

/-- `P` holds of whatever leaves the device, and `C` says what else may come about. -/
inductive Act (P : Egress → Prop) (C : Causes) : Forwarder σ μ → Forwarder σ μ → Prop
  | same (s s' : Forwarder σ μ) (h : s.SameTables s')
      (hfirewall : s'.shared.firewall = s.shared.firewall ∨ C.judged) : Act P C s s'
  | emit (s : Forwarder σ μ) (es : List Egress) (h : ∀ e ∈ es, P e) : Act P C s (s.emit es)
  | burn (s : Forwarder σ μ) : Act P C s s.skipToken
  | flow (s : Forwarder σ μ) (id : FlowId) (h : Shared μ) (x : Flow σ μ)
      (hacts : Micro.Acts ⟨s.shared, s.flow id, []⟩ ⟨h, x, []⟩) :
    Act P C s { s.setFlow id x with shared := h }
  | world (s : Forwarder σ μ) (id : FlowId) (x : Flow σ μ) (h : (s.flow id).World x) :
    Act P C s (s.setFlow id x)
  | listen (s : Forwarder σ μ) (tuple : FourTuple) (socket : σ)
      (h : TcpSocket.listen tuple.server tcpRxBuf tcpTxBuf = some socket) (hnew : C.created) :
    Act P C s { s.setFlow s.stack.nextId ⟨some socket, none, []⟩ with
      stack := { s.stack with
        flows := s.stack.flows.insert s.stack.nextId ⟨tuple, false⟩
        byTuple := s.stack.byTuple.insert tuple s.stack.nextId
        nextId := s.stack.nextId + 1 } }
  | openUp (s : Forwarder σ μ) (id : FlowId) (server : SocketAddr) (uid : ℤ) (tls : Bool)
      (socket : σ) (hlive : id ∈ s.stack.flows) (hflow : s.flow id = ⟨some socket, none, []⟩)
      (hlisten : TcpSocket.listen server tcpRxBuf tcpTxBuf = some socket)
      (hopen : s.shared.refuses server uid = false) :
    Act P C s ((s.alloc (.tcp id)).setFlow id { s.flow id with
      up := some (s.shared.openUpstream server uid (.dialed tls) s.nextToken) })
  | remove (s : Forwarder σ μ) (id : FlowId) (hup : (s.flow id).up = none) (hend : C.removed) :
    Act P C s (s.removeFlow id)
  | addUdp (s : Forwarder σ μ) (key : UdpKey) (u : UdpSession) (hnew : s.udp.lookup key = none)
      (hu : u.ident = (s.nextToken, key.app, key.server)) :
    Act P C s { s.alloc (.udp key) with udp := s.udp.insert key u }
  | setUdp (s : Forwarder σ μ) (key : UdpKey) (u u' : UdpSession)
      (hu : s.udp.lookup key = some u) (h : u'.ident = u.ident) :
    Act P C s { s with udp := s.udp.insert key u' }
  | dropUdp (s : Forwarder σ μ) (key : UdpKey) (u : UdpSession)
      (hu : s.udp.lookup key = some u) :
    Act P C s { s.dropRoute u.token with udp := s.udp.erase key }
  | addSocks (s : Forwarder σ μ) (key : UdpKey) (u : Socks5UdpSession)
      (hnew : s.socksUdp.lookup key = none)
      (hproxy : ∃ p, s.shared.proxy = some p ∧
        u.control = (.dialed false, some (.udpAssociate p), none, false))
      (hu : u.ident = (s.nextToken, s.nextToken + 1, key.app, key.server, s.shared.now)) :
    Act P C s { (s.alloc (.socksCtrl key)).alloc (.socksRelay key) with
      socksUdp := s.socksUdp.insert key u }
  | setSocks (s : Forwarder σ μ) (key : UdpKey) (u u' : Socks5UdpSession)
      (hu : s.socksUdp.lookup key = some u) (h : u'.ident = u.ident)
      (hchange : u.Change C.news s.shared.proxy u') :
    Act P C s { s with socksUdp := s.socksUdp.insert key u' }
  | dropSocks (s : Forwarder σ μ) (key : UdpKey) (u : Socks5UdpSession)
      (hu : s.socksUdp.lookup key = some u) :
    Act P C s { (s.dropRoute u.ctrlToken).dropRoute u.relayToken with
      socksUdp := s.socksUdp.erase key }
  | addDnsTcp (s : Forwarder σ μ) (job : DnsTcpJob) :
    Act P C s { s.alloc .dnsTcp with dnsTcp := s.dnsTcp.insert s.nextToken job }
  | setDnsTcp (s : Forwarder σ μ) (token : Token) (job job' : DnsTcpJob)
      (hjob : s.dnsTcp.lookup token = some job) :
    Act P C s { s with dnsTcp := s.dnsTcp.insert token job' }
  | dropDnsTcp (s : Forwarder σ μ) (token : Token) (job : DnsTcpJob)
      (hjob : s.dnsTcp.lookup token = some job) :
    Act P C s { s.dropRoute token with dnsTcp := s.dnsTcp.erase token }
  | addDnsTls (s : Forwarder σ μ) (job : DnsTlsJob) :
    Act P C s { s.alloc .dnsTls with dnsTls := s.dnsTls.insert s.nextToken job }
  | setDnsTls (s : Forwarder σ μ) (token : Token) (job job' : DnsTlsJob)
      (hjob : s.dnsTls.lookup token = some job) :
    Act P C s { s with dnsTls := s.dnsTls.insert token job' }
  | dropDnsTls (s : Forwarder σ μ) (token : Token) (job : DnsTlsJob)
      (hjob : s.dnsTls.lookup token = some job) :
    Act P C s { s.dropRoute token with dnsTls := s.dnsTls.erase token }

abbrev Acts (P : Egress → Prop) (C : Causes) : Forwarder σ μ → Forwarder σ μ → Prop :=
  ReflTransGen (Act P C)

variable {P : Egress → Prop} {C : Causes}

section Basic

/-- What no act changes is the same after all of them. -/
theorem eq_of_acts {α : Type} {f : Forwarder σ μ → α}
    (hf : ∀ s s', Act P C s s' → f s' = f s) {s s' : Forwarder σ μ} (hacts : Acts P C s s') :
    f s' = f s := by
  induction hacts with
  | refl => rfl
  | tail _ hact ih => exact (hf _ _ hact).trans ih

theorem acts_same {s s' : Forwarder σ μ} (h : s.SameTables s')
    (hfirewall : s'.shared.firewall = s.shared.firewall) : Acts P C s s' :=
  .single (.same s s' h (Or.inl hfirewall))

theorem acts_push (s : Forwarder σ μ) (es : List Event) : Acts P C s (s.push es) :=
  acts_same ⟨rfl, rfl, rfl, rfl, rfl, rfl, rfl, rfl, rfl, rfl, rfl⟩ rfl

theorem acts_send (s : Forwarder σ μ) (packets : List Outbound) : Acts P C s (s.send packets) :=
  acts_same ⟨rfl, rfl, rfl, rfl, rfl, rfl, rfl, rfl, rfl, rfl, rfl⟩ rfl

theorem acts_foldl {α : Type} {f : Forwarder σ μ → α → Forwarder σ μ}
    (hf : ∀ s a, Acts P C s (f s a)) (s : Forwarder σ μ) (l : List α) : Acts P C s (l.foldl f s) := by
  induction l generalizing s with
  | nil => exact .refl
  | cons a l ih => exact (hf s a).trans (ih (f s a))

/-- A method on one flow. -/
theorem acts_onFlow {f : Shared μ → Flow σ μ → Shared μ × Flow σ μ} (s : Forwarder σ μ)
    (id : FlowId) (hf : ∀ h x, Micro.Acts ⟨h, x, []⟩ ⟨(f h x).1, (f h x).2, []⟩) :
    Acts P C s (s.onFlow id f) :=
  .single (.flow s id _ _ (hf s.shared (s.flow id)))

theorem acts_abort (s : Forwarder σ μ) (id : FlowId) :
    Acts P C s (s.setFlow id (s.flow id).abort) :=
  .single (.flow s id s.shared _ (Flow.moves_abort s.shared (s.flow id) []).acts)

theorem acts_setDials (s : Forwarder σ μ) (dials : List Dial) : Acts P C s (s.setDials dials) :=
  acts_same ⟨rfl, rfl, rfl, rfl, rfl, rfl, rfl, rfl, rfl, rfl, rfl⟩ rfl

/-- A socket has been dialed, but its token is still to be given out. -/
theorem acts_dialed (s : Forwarder σ μ) {record : Egress} (hP : P record) (dials : List Dial) :
    Acts P C s ((s.emit [record]).setDials dials) := by
  refine .trans (.single (.emit s [record] ?_)) (acts_setDials _ dials)
  intro e he
  rwa [List.mem_singleton.mp he]

theorem acts_dial_none {s s' : Forwarder σ μ} {record : Egress} (hP : P record)
    (h : s.dial record = (none, s')) : Acts P C s s' := by
  unfold dial at h
  split at h
  · obtain ⟨-, rfl⟩ := Prod.mk.inj h
    exact .refl
  · next dials _ =>
    obtain ⟨-, rfl⟩ := Prod.mk.inj h
    exact acts_setDials s dials
  · next dials _ =>
    obtain ⟨-, rfl⟩ := Prod.mk.inj h
    exact acts_dialed s hP dials
  · next dials _ =>
    obtain ⟨-, rfl⟩ := Prod.mk.inj h
    exact (acts_dialed s hP dials).tail (.burn _)
  · cases h

omit [TcpSocket σ] [Splice μ] in
theorem dial_some {s s' : Forwarder σ μ} {record : Egress} {token : Token}
    (h : s.dial record = (some token, s')) :
    token = s.nextToken ∧ ∃ dials, s' = ((s.emit [record]).setDials dials).skipToken := by
  unfold dial at h
  split at h
  · cases h
  · cases h
  · cases h
  · cases h
  · next dials _ =>
    obtain ⟨ht, rfl⟩ := Prod.mk.inj h
    exact ⟨(Option.some.inj ht).symm, dials, rfl⟩

end Basic

section Udp

theorem acts_sendUdp (s : Forwarder σ μ) (key : UdpKey) (payload : Bytes)
    (hP : ∀ u, s.udp.lookup key = some u → P (.datagram u.peer payload)) :
    Acts P C s (s.sendUdp key payload) := by
  unfold sendUdp
  cases hu : s.udp.lookup key with
  | none => exact .refl
  | some u =>
    have hemit : Acts P C s (s.emit [.datagram u.peer payload]) :=
      .single (.emit s _ fun e he => by
        rw [List.mem_singleton.mp he]
        exact hP u hu)
    exact hemit.tail (.setUdp _ key u _ hu rfl)

theorem acts_forwardUdp (s : Forwarder σ μ) (dgram : UdpDatagram) (upstream : SocketAddr)
    (hP : P (.udp upstream)) (hd : ∀ peer, P (.datagram peer dgram.payload)) :
    Acts P C s (s.forwardUdp dgram upstream) := by
  unfold forwardUdp
  extract_lets key
  split_ifs with hs
  · exact acts_sendUdp s key dgram.payload fun u _ => hd u.peer
  · have hnone : s.udp.lookup key = none := by simpa using hs
    split
    · next s' hdial => exact acts_dial_none hP hdial
    · next token s' hdial =>
      obtain ⟨rfl, dials, rfl⟩ := dial_some hdial
      refine .trans ?_ (acts_sendUdp _ key dgram.payload fun u _ => hd u.peer)
      refine (acts_dialed s hP dials).tail ?_
      exact .addUdp _ key _ hnone rfl

theorem acts_teardownSocks (s : Forwarder σ μ) (key : UdpKey) :
    Acts P C s (s.teardownSocks key) := by
  unfold teardownSocks
  cases hu : s.socksUdp.lookup key with
  | none => exact .refl
  | some u => exact .single (.dropSocks s key u hu)

omit [TcpSocket σ] [Splice μ] in
/-- The relay socket takes a token, or its creation is undone, perhaps past one. -/
theorem newRelaySocket_cases (s : Forwarder σ μ) :
    ∃ dials, s.newRelaySocket = (some s.nextToken, (s.setDials dials).skipToken) ∨
      s.newRelaySocket = (none, (s.setDials dials).skipToken) ∨
      s.newRelaySocket = (none, s.setDials dials) := by
  unfold newRelaySocket
  cases s.shared.proxy with
  | none => exact ⟨s.dials, Or.inr (Or.inr rfl)⟩
  | some p =>
    dsimp only
    split
    · next dials _ => exact ⟨dials, Or.inl rfl⟩
    · next dials _ => exact ⟨dials, Or.inr (Or.inl rfl)⟩
    · next dials _ _ _ => exact ⟨dials, Or.inr (Or.inr rfl)⟩
    · exact ⟨s.dials, Or.inr (Or.inr rfl)⟩

/-- The associations may send datagrams to their relays. -/
def MayRelay (P : Egress → Prop) (s : Forwarder σ μ) : Prop :=
  ∀ key u relay, s.socksUdp.lookup key = some u → u.RelaysTo s.shared.proxy relay →
    ∀ wire, P (.relayed relay wire)

omit [TcpSocket σ] [Splice μ] in
theorem mayRelay_any (s : Forwarder σ μ) : s.MayRelay fun _ => True :=
  fun _ _ _ _ _ _ => trivial

omit [TcpSocket σ] [Splice μ] in
theorem MayRelay.congr {s t : Forwarder σ μ} (h : s.MayRelay P)
    (hproxy : t.shared.proxy = s.shared.proxy) (hsocks : t.socksUdp = s.socksUdp) :
    t.MayRelay P := by
  intro key u relay hu hr
  rw [hsocks] at hu
  rw [hproxy] at hr
  exact h key u relay hu hr

theorem acts_forwardUdpSocks (s : Forwarder σ μ) (dgram : UdpDatagram) (target : SocketAddr)
    (hP : ∀ p, s.shared.proxy = some p → P (.tcp p.addr)) (hrel : s.MayRelay P) :
    Acts P C s (s.forwardUdpSocks dgram target) := by
  unfold forwardUdpSocks
  extract_lets key
  cases hu : s.socksUdp.lookup key with
  | some u =>
    dsimp only
    split_ifs
    · refine .tail (.single (.emit s (u.relay.toList.map fun relay => .relayed relay
        (socks5UdpEncapsulate u.target dgram.payload)) ?_)) (.setSocks _ key u _ hu rfl (.keep rfl))
      intro e he
      obtain ⟨r, hr, rfl⟩ := List.mem_map.mp he
      exact hrel key u r hu (Or.inl (Option.mem_toList.mp hr)) _
    · exact .single (.setSocks s key u _ hu rfl (.keep rfl))
    · exact .single (.setSocks s key u _ hu rfl (.keep rfl))
  | none =>
    dsimp only
    cases hp : s.shared.proxy with
    | none => exact .refl
    | some p =>
      have hctrl : s.connectSocksCtrl = s.dial (.tcp p.addr) := by
        unfold connectSocksCtrl
        rw [hp]
      dsimp only
      rw [hctrl]
      split
      · next s' hdial => exact acts_dial_none (hP p hp) hdial
      · next token s' hdial =>
        obtain ⟨rfl, dials, rfl⟩ := dial_some hdial
        have hdialed := acts_dialed (C := C) s (hP p hp) dials
        have hproxy : ((s.emit [.tcp p.addr]).setDials dials).shared.proxy = some p := hp
        have hnew : ((s.emit [.tcp p.addr]).setDials dials).socksUdp.lookup key = none := hu
        have hnext : s.nextToken = ((s.emit [.tcp p.addr]).setDials dials).nextToken := rfl
        rw [hnext]
        generalize (s.emit [.tcp p.addr]).setDials dials = s₁ at hdialed hproxy hnew ⊢
        obtain ⟨dials', hr | hr | hr⟩ := newRelaySocket_cases s₁.skipToken
        · rw [hr]
          exact (hdialed.trans (acts_setDials s₁ dials')).tail
            (.addSocks _ key _ hnew ⟨p, hproxy, rfl⟩ rfl)
        · rw [hr]
          exact (hdialed.tail (.burn s₁)).trans ((acts_setDials _ dials').tail (.burn _))
        · rw [hr]
          exact (hdialed.tail (.burn s₁)).trans (acts_setDials _ dials')

section Control

variable {s : Forwarder σ μ} {key : UdpKey} {u u' : Socks5UdpSession}

/-- An association that is torn down right after something has been written to it. -/
theorem acts_teardownSocks_of_set (hu : s.socksUdp.lookup key = some u) (h : u'.ident = u.ident) :
    Acts P C s ({ s with socksUdp := s.socksUdp.insert key u' }.teardownSocks key) := by
  obtain ⟨hctrl, hrest⟩ := Prod.mk.inj h
  obtain ⟨hrelay, -⟩ := Prod.mk.inj hrest
  unfold teardownSocks
  simp only [AList.lookup_insert, erase_insert, hctrl, hrelay]
  exact .single (.dropSocks s key u hu)

/-- The handshake of an association is over: it is granted a relay, or torn down. -/
theorem acts_socksAssociateReady {hs : Handshake} {leftover : Bytes} {d : Driving}
    (hu : s.socksUdp.lookup key = some u) (hhs : u.handshake = some hs)
    (hpump : pumpHandshake 2048 ⟨u.ctrl, hs, u.hsOut⟩ = (.done leftover, d))
    (h : u'.ident = u.ident) (hrel : s.MayRelay P) :
    Acts P C s ({ s with socksUdp := s.socksUdp.insert key u' }.socksAssociateReady key
      d.hs.bound) := by
  unfold socksAssociateReady
  cases hp : s.shared.proxy with
  | none => exact acts_teardownSocks_of_set hu h
  | some p =>
    cases hb : d.hs.bound with
    | none => exact acts_teardownSocks_of_set hu h
    | some bound =>
      have hgranted : u.Granted s.shared.proxy (p.relayAt bound) :=
        ⟨p, hs, leftover, d, bound, hp, hhs, hpump, hb, rfl⟩
      simp only [AList.lookup_insert, AList.insert_insert]
      have hrelay : (if bound.ip.isUnspecified then ⟨p.addr.ip, bound.port⟩ else bound) =
          p.relayAt bound := rfl
      rw [hrelay]
      by_cases hconnect : s.relayConnects = true
      · rw [if_pos hconnect]
        refine .tail (.single (.emit s _ ?_)) (.setSocks _ key u _ hu h (.grant hgranted rfl))
        intro e he
        obtain ⟨w, -, rfl⟩ := List.mem_map.mp he
        exact hrel key u _ hu (Or.inr hgranted) w
      · rw [if_neg hconnect]
        exact acts_teardownSocks_of_set hu h

end Control

theorem acts_driveSocksCtrl (s : Forwarder σ μ) (key : UdpKey) (hrel : s.MayRelay P) :
    Acts P C s (s.driveSocksCtrl key) := by
  unfold driveSocksCtrl
  cases hu : s.socksUdp.lookup key with
  | none => exact .refl
  | some u =>
    dsimp only
    split_ifs
    · exact acts_teardownSocks s key
    · cases hhs : u.handshake with
      | none => exact .refl
      | some hs =>
        dsimp only
        rcases hpump : pumpHandshake 2048 ⟨u.ctrl, hs, u.hsOut⟩ with ⟨r, d⟩
        cases r with
        | pending => exact .single (.setSocks s key u _ hu rfl (.pump hhs hpump rfl))
        | failed =>
          have hmark : Acts P C s { s with socksUdpUnsupported := true } :=
            acts_same ⟨rfl, rfl, rfl, rfl, rfl, rfl, rfl, rfl, rfl, rfl, rfl⟩ rfl
          exact hmark.trans (acts_teardownSocks_of_set
            (s := { s with socksUdpUnsupported := true }) hu rfl)
        | done leftover => exact acts_socksAssociateReady hu hhs hpump rfl hrel

theorem acts_pumpUdpReply (s : Forwarder σ μ) (key : UdpKey) : Acts P C s (s.pumpUdpReply key) := by
  unfold pumpUdpReply
  cases hu : s.udp.lookup key with
  | none => exact .refl
  | some u => exact (acts_send s _).tail (.setUdp _ key u _ hu rfl)

theorem acts_pumpSocksRelay (s : Forwarder σ μ) (key : UdpKey) :
    Acts P C s (s.pumpSocksRelay key) := by
  unfold pumpSocksRelay
  cases hu : s.socksUdp.lookup key with
  | none => exact .refl
  | some u => exact (acts_send s _).tail (.setSocks _ key u _ hu rfl (.keep rfl))

end Udp

section Lookups

/-- Where `connect_tcp` dials: the proxy if there is one. -/
def dialed (s : Forwarder σ μ) (server : SocketAddr) : SocketAddr :=
  (s.shared.proxy.map Proxy.addr).getD server

theorem acts_connectTcp_none {s s' : Forwarder σ μ} {server : SocketAddr}
    (hP : P (.tcp (s.dialed server))) (h : s.connectTcp server = (none, s')) : Acts P C s s' := by
  unfold connectTcp at h
  rcases hd : s.dial (.tcp (s.dialed server)) with ⟨token, r⟩
  unfold dialed at hd
  simp only [hd] at h
  obtain ⟨hnone, rfl⟩ := Prod.mk.inj h
  obtain rfl := Option.map_eq_none_iff.mp hnone
  exact acts_dial_none hP hd

omit [TcpSocket σ] [Splice μ] in
theorem connectTcp_some {s s' : Forwarder σ μ} {server : SocketAddr} {io : UpstreamIo}
    {token : Token} (h : s.connectTcp server = (some (io, token), s')) :
    token = s.nextToken ∧ (∃ tls, io = .dialed tls) ∧
      ∃ dials, s' = ((s.emit [.tcp (s.dialed server)]).setDials dials).skipToken := by
  unfold connectTcp at h
  rcases hd : s.dial (.tcp (s.dialed server)) with ⟨t, r⟩
  unfold dialed at hd
  simp only [hd] at h
  obtain ⟨hsome, rfl⟩ := Prod.mk.inj h
  obtain ⟨t', rfl, hio⟩ := Option.map_eq_some_iff.mp hsome
  obtain ⟨rfl, dials, rfl⟩ := dial_some hd
  obtain ⟨rfl, rfl⟩ := Prod.mk.inj hio
  exact ⟨rfl, ⟨_, rfl⟩, dials, rfl⟩

theorem acts_forwardDnsOverProxy (s : Forwarder σ μ) (dgram : UdpDatagram)
    (resolver : SocketAddr) (hP : ∀ p, s.shared.proxy = some p → P (.tcp p.addr)) :
    Acts P C s (s.forwardDnsOverProxy dgram resolver) := by
  unfold forwardDnsOverProxy
  split_ifs
  · exact .refl
  · cases hp : s.shared.proxy with
    | none => exact .refl
    | some p =>
      have hdial : P (.tcp (s.dialed resolver)) := by
        unfold dialed
        rw [hp]
        exact hP p hp
      dsimp only
      split
      · next s' hc => exact acts_connectTcp_none hdial hc
      · next io token s' hc =>
        obtain ⟨rfl, -, dials, rfl⟩ := connectTcp_some hc
        exact (acts_dialed s hdial dials).tail (.addDnsTcp _ _)

theorem acts_forwardDnsTls (s : Forwarder σ μ) (dgram : UdpDatagram) (peer : SocketAddr)
    (hP : P (.tcp peer)) : Acts P C s (s.forwardDnsTls dgram peer) := by
  unfold forwardDnsTls
  extract_lets mode?
  split_ifs
  · exact .refl
  · split
    · next mode host _ _ =>
      rcases hd : s.dial (.tcp peer) with ⟨token, r⟩
      unfold connectDnsTls
      simp only [hd]
      cases token with
      | none => exact acts_dial_none hP hd
      | some token =>
        obtain ⟨rfl, dials, rfl⟩ := dial_some hd
        exact (acts_dialed s hP dials).tail (.addDnsTls _ _)
    · exact .refl

theorem acts_teardownDnsTcp (s : Forwarder σ μ) (token : Token) :
    Acts P C s (s.teardownDnsTcp token) := by
  unfold teardownDnsTcp
  cases hj : s.dnsTcp.lookup token with
  | none => exact .refl
  | some job => exact .single (.dropDnsTcp s token job hj)

theorem acts_teardownDnsTls (s : Forwarder σ μ) (token : Token) :
    Acts P C s (s.teardownDnsTls token) := by
  unfold teardownDnsTls
  cases hj : s.dnsTls.lookup token with
  | none => exact .refl
  | some job => exact .single (.dropDnsTls s token job hj)

theorem acts_driveDnsTcp (s : Forwarder σ μ) (token : Token) : Acts P C s (s.driveDnsTcp token) := by
  unfold driveDnsTcp
  cases hj : s.dnsTcp.lookup token with
  | none => exact .refl
  | some job =>
    dsimp only
    cases job.drive with
    | running job' => exact .single (.setDnsTcp s token job job' hj)
    | finished answer =>
      cases answer with
      | none => exact acts_teardownDnsTcp s token
      | some message => exact (acts_send s _).trans (acts_teardownDnsTcp _ token)

theorem acts_driveDnsTls (s : Forwarder σ μ) (token : Token) : Acts P C s (s.driveDnsTls token) := by
  unfold driveDnsTls
  cases hj : s.dnsTls.lookup token with
  | none => exact .refl
  | some job =>
    dsimp only
    cases job.drive with
    | running job' => exact .single (.setDnsTls s token job job' hj)
    | finished answer =>
      cases answer with
      | none => exact acts_teardownDnsTls s token
      | some message => exact (acts_send s _).trans (acts_teardownDnsTls _ token)

end Lookups

section Packets

theorem acts_onTcpPacket (s : Forwarder σ μ) (peek : Option TcpPeek) (hnew : C.created) :
    Acts P C s (s.onTcpPacket peek).2 := by
  unfold onTcpPacket
  cases peek with
  | none => exact .refl
  | some peek =>
    dsimp only
    split_ifs
    · exact .refl
    · split
      · exact .refl
      · next socket hl => exact .single (.listen s ⟨peek.app, peek.server⟩ socket hl hnew)
    · exact .refl

omit [Splice μ] in
/-- A flow that is reported as new is live, and listens as its server. -/
theorem onTcpPacket_some {s : Forwarder σ μ} {peek : Option TcpPeek} {id : FlowId}
    {server : SocketAddr} (h : (s.onTcpPacket peek).1 = some (id, server)) :
    id ∈ (s.onTcpPacket peek).2.stack.flows ∧
      (∃ socket, (s.onTcpPacket peek).2.flow id = ⟨some socket, none, []⟩ ∧
        TcpSocket.listen server tcpRxBuf tcpTxBuf = some socket) ∧
      (s.onTcpPacket peek).2.shared = s.shared ∧ peek.map TcpPeek.server = some server := by
  unfold onTcpPacket at h ⊢
  cases peek with
  | none => cases h
  | some peek =>
    dsimp only at h ⊢
    split_ifs at h ⊢
    · cases hl : (TcpSocket.listen peek.server tcpRxBuf tcpTxBuf : Option σ) with
      | none => simp [hl] at h
      | some socket =>
        rw [hl] at h
        obtain ⟨rfl, rfl⟩ := Prod.mk.inj (Option.some.inj h)
        refine ⟨by simp, ⟨socket, by simp [flow, setFlow], hl⟩, rfl, rfl⟩

theorem acts_openTcp (s : Forwarder σ μ) (id : FlowId) (server : SocketAddr) (uid : ℤ)
    {socket : σ} (hlive : id ∈ s.stack.flows) (hflow : s.flow id = ⟨some socket, none, []⟩)
    (hlisten : TcpSocket.listen server tcpRxBuf tcpTxBuf = some socket)
    (hP : P (.tcp (s.dialed server))) : Acts P C s (s.openTcp id server uid) := by
  unfold openTcp
  split_ifs with hr
  · exact acts_abort s id
  · split
    · next s' hc => exact (acts_connectTcp_none hP hc).trans (acts_abort s' id)
    · next io token s' hc =>
      obtain ⟨rfl, ⟨tls, rfl⟩, dials, rfl⟩ := connectTcp_some hc
      exact (acts_dialed s hP dials).tail (.openUp _ id server uid tls socket hlive hflow hlisten
        (Bool.eq_false_of_not_eq_true hr))

theorem acts_account (s : Forwarder σ μ) (d : Decoded) (uid : ℤ) (isDns : Bool)
    (domain : Option Str) : Acts P C s (s.account d uid isDns domain) := by
  unfold account
  split_ifs
  · exact acts_same ⟨rfl, rfl, rfl, rfl, rfl, rfl, rfl, rfl, rfl, rfl, rfl⟩ rfl
  · exact acts_push s _

theorem acts_judge (s : Forwarder σ μ) (d : Decoded) (proto : UInt8) (owner : ℤ)
    (hjudged : C.judged) : Acts P C s (s.judge d proto owner).2 :=
  .single (.same s _ ⟨rfl, rfl, rfl, rfl, rfl, rfl, rfl, rfl, rfl, rfl, rfl⟩ (Or.inr hjudged))

theorem acts_refuse (w : Wire) (s : Forwarder σ μ) (packet : Bytes) (d : Decoded) (uid : ℤ) :
    Acts P C s (s.refuse w packet d uid) :=
  (acts_send s _).trans (acts_push _ _)

theorem acts_handleDns (s : Forwarder σ μ) (d : Decoded) (dgram : UdpDatagram) :
    Acts P C s (s.handleDns d dgram).2 := by
  unfold handleDns
  cases parseQuery dgram.payload with
  | none => exact .refl
  | some query =>
    dsimp only
    split_ifs
    · exact (acts_send s _).trans (acts_push _ _)
    · exact .refl

/-- What the routing of a datagram may send, by where the datagram goes. -/
structure RoutesTo (P : Egress → Prop) (s : Forwarder σ μ) (dgram : UdpDatagram) (isDns : Bool) :
    Prop where
  proxied : ∀ p, s.shared.proxy = some p → P (.tcp p.addr)
  relayed : s.MayRelay P
  direct : (s.shared.proxy = none ∨ (isDns = true ∧ s.proxyDnsOverTcp = false)) →
    ∀ e, P e
  noUdp : s.shared.proxy.map Proxy.supportsUdp = some false → isDns = true

theorem acts_routeUdp (s : Forwarder σ μ) (dgram : UdpDatagram) (isDns : Bool)
    (hP : RoutesTo P s dgram isDns) : Acts P C s (s.routeUdp dgram isDns) := by
  unfold routeUdp
  extract_lets upstream proxyUdp resolver
  split_ifs with hroute hsocks hdns hudp
  · exact acts_forwardUdpSocks s dgram resolver hP.proxied hP.relayed
  · exact acts_forwardDnsOverProxy s dgram resolver hP.proxied
  · have hdirect : s.shared.proxy = none ∨ (isDns = true ∧ s.proxyDnsOverTcp = false) := by
      simp only [hdns, Bool.true_and, Bool.and_eq_true, not_and, Bool.not_eq_true] at hroute
      cases hp : s.shared.proxy with
      | none => exact Or.inl rfl
      | some p => exact Or.inr ⟨hdns, hroute (by rw [hp]; rfl)⟩
    have hP := hP.direct hdirect
    cases s.dnsTransport with
    | plain => exact acts_forwardUdp s dgram upstream (hP _) fun _ => hP _
    | dot => exact acts_forwardDnsTls s dgram upstream (hP _)
    | doh => exact acts_forwardDnsTls s dgram upstream (hP _)
  · exact acts_forwardUdpSocks s dgram upstream hP.proxied hP.relayed
  · have hnone : s.shared.proxy = none := by
      cases hp : s.shared.proxy with
      | none => rfl
      | some p =>
        cases hu : p.supportsUdp with
        | true => exact absurd (show proxyUdp = some true by simp [proxyUdp, hp, hu]) hudp
        | false => exact absurd (hP.noUdp (by simp [hp, hu])) hdns
    have hP := hP.direct (Or.inl hnone)
    exact acts_forwardUdp s dgram upstream (hP _) fun _ => hP _

/-- The packet is a UDP packet to a DNS port, which the proxy is not to carry. -/
def DirectDns (s : Forwarder σ μ) (packet : Bytes) : Prop :=
  ∃ d, decode packet = some d ∧ d.proto = .udp ∧ isDnsPort d.dstPort = true ∧
    s.proxyDnsOverTcp = false

/-- What may leave the device on a packet. -/
structure Permitted (P : Egress → Prop) (s : Forwarder σ μ) (packet : Bytes) : Prop where
  proxied : ∀ p, s.shared.proxy = some p → P (.tcp p.addr)
  relayed : s.MayRelay P
  direct : (s.shared.proxy = none ∨ DirectDns s packet) → ∀ e, P e

omit [TcpSocket σ] [Splice μ] in
theorem permitted_any (s : Forwarder σ μ) (packet : Bytes) :
    Permitted (fun _ => True) s packet :=
  ⟨fun _ _ => trivial, mayRelay_any s, fun _ _ => trivial⟩

omit [TcpSocket σ] [Splice μ] in
theorem Permitted.dialed {s : Forwarder σ μ} {packet : Bytes} (hP : Permitted P s packet)
    (server : SocketAddr) : P (.tcp (s.dialed server)) := by
  unfold Forwarder.dialed
  cases hp : s.shared.proxy with
  | none => exact hP.direct (Or.inl hp) _
  | some p => exact hP.proxied p hp

omit [TcpSocket σ] [Splice μ] in
theorem account_proxy (s : Forwarder σ μ) (d : Decoded) (uid : ℤ) (isDns : Bool)
    (domain : Option Str) :
    (s.account d uid isDns domain).shared.proxy = s.shared.proxy ∧
      (s.account d uid isDns domain).proxyDnsOverTcp = s.proxyDnsOverTcp ∧
      (s.account d uid isDns domain).socksUdp = s.socksUdp := by
  unfold account
  split_ifs <;> exact ⟨rfl, rfl, rfl⟩

omit [TcpSocket σ] [Splice μ] in
theorem handleDns_proxy (s : Forwarder σ μ) (d : Decoded) (dgram : UdpDatagram) :
    (s.handleDns d dgram).2.shared.proxy = s.shared.proxy ∧
      (s.handleDns d dgram).2.proxyDnsOverTcp = s.proxyDnsOverTcp ∧
      (s.handleDns d dgram).2.socksUdp = s.socksUdp := by
  unfold handleDns
  cases parseQuery dgram.payload with
  | none => exact ⟨rfl, rfl, rfl⟩
  | some query =>
    dsimp only
    split_ifs <;> exact ⟨rfl, rfl, rfl⟩

variable (w : Wire)

/-- What a TCP packet makes once it has been judged. -/
theorem acts_onTcp_judged (s : Forwarder σ μ) (packet : Bytes) (d : Decoded) (owner : ℤ)
    (hP : s.proxyBroken = false → ∀ server, P (.tcp (s.dialed server))) (hnew : C.created) :
    Acts P C (s.judge d protoTcp owner).2 (s.onTcp w packet d owner) := by
  unfold onTcp
  extract_lets v t r
  by_cases hblocked : v.1.blocked = true
  · rw [if_pos hblocked]
    exact acts_refuse w t packet d _
  rw [if_neg hblocked]
  by_cases hbroken : t.proxyBroken = true
  · rw [if_pos hbroken]
    exact acts_refuse w t packet d _
  rw [if_neg hbroken]
  by_cases hdot : t.dropsDot d v.1.uid = true
  · rw [if_pos hdot]
    exact acts_refuse w t packet d _
  · rw [if_neg hdot]
    have hP : ∀ server, P (.tcp (s.dialed server)) :=
      hP (Bool.eq_false_of_not_eq_true (show ¬ s.proxyBroken = true from hbroken))
    have hr : Acts P C t r.2 := (acts_account t d v.1.uid false none).trans
      (acts_onTcpPacket _ (peekTcp w packet) hnew)
    split
    · exact hr
    · next id server hflow =>
      obtain ⟨hlive, ⟨socket, hflow, hlisten⟩, hshared, -⟩ := onTcpPacket_some hflow
      refine hr.trans (acts_openTcp r.2 id server v.1.uid hlive hflow hlisten ?_)
      unfold dialed at hP ⊢
      rw [hshared, (account_proxy t d v.1.uid false none).1]
      exact hP server

theorem acts_onTcp (s : Forwarder σ μ) (packet : Bytes) (d : Decoded) (owner : ℤ)
    (hP : s.proxyBroken = false → ∀ server, P (.tcp (s.dialed server))) (hjudged : C.judged)
    (hnew : C.created) : Acts P C s (s.onTcp w packet d owner) :=
  (acts_judge s d protoTcp owner hjudged).trans (acts_onTcp_judged w s packet d owner hP hnew)

/-- What a UDP packet makes once it has been judged. -/
theorem acts_onUdp_judged (s : Forwarder σ μ) (packet : Bytes) (d : Decoded) (owner : ℤ)
    (hd : decode packet = some d) (hudp : d.proto = .udp) (hdoq : s.dropsDoq d = false)
    (hP : s.proxyBroken = false → Permitted P s packet) :
    Acts P C (s.judge d protoUdp owner).2 (s.onUdp w packet d owner) := by
  unfold onUdp
  rw [if_neg (Bool.eq_false_iff.mp hdoq)]
  extract_lets v t isDns
  by_cases hblocked : v.1.blocked = true
  · rw [if_pos hblocked]
    exact acts_push t _
  rw [if_neg hblocked]
  by_cases hbroken : t.proxyBroken = true
  · rw [if_pos hbroken]
    exact acts_push t _
  rw [if_neg hbroken]
  by_cases hproxy : t.shared.proxy.map Proxy.supportsUdp = some false ∧ isDns = false
  · rw [if_pos hproxy]
    exact acts_push t _
  rw [if_neg hproxy]
  by_cases hcosmetic : (t.shared.cosmeticElementHiding && d.dstPort == httpsPort &&
      t.shared.firewall.appInspects v.1.uid) = true
  · rw [if_pos hcosmetic]
    exact acts_push t _
  · rw [if_neg hcosmetic]
    have hP : Permitted P s packet :=
      hP (Bool.eq_false_of_not_eq_true (show ¬ s.proxyBroken = true from hbroken))
    split
    · exact acts_account t d v.1.uid isDns none
    · next dgram hparse =>
      extract_lets r
      have hr : Acts P C t r.2 ∧ r.2.shared.proxy = s.shared.proxy ∧
          r.2.proxyDnsOverTcp = s.proxyDnsOverTcp ∧ r.2.socksUdp = s.socksUdp := by
        by_cases hdns : isDns = true
        · rw [show r = t.handleDns d dgram from if_pos hdns]
          exact ⟨acts_handleDns t d dgram, handleDns_proxy t d dgram⟩
        · rw [show r = (some none, t) from if_neg hdns]
          exact ⟨.refl, rfl, rfl, rfl⟩
      obtain ⟨hr, hrp, hrd, hrs⟩ := hr
      split
      · exact hr
      · next name _ =>
        obtain ⟨hap, had, has⟩ := account_proxy r.2 d v.1.uid isDns name
        refine (hr.trans (acts_account r.2 d v.1.uid isDns name)).trans (acts_routeUdp _ dgram
          isDns ⟨?_, ?_, ?_, ?_⟩)
        · rw [hap, hrp]
          exact hP.proxied
        · exact hP.relayed.congr (hap.trans hrp) (has.trans hrs)
        · rw [hap, hrp, had, hrd]
          rintro (hnone | ⟨hdns, hover⟩)
          · exact hP.direct (Or.inl hnone)
          · exact hP.direct (Or.inr ⟨d, hd, hudp, hdns, hover⟩)
        · rw [hap, hrp]
          intro hno
          by_contra hdns
          exact hproxy ⟨hno, Bool.eq_false_of_not_eq_true hdns⟩

theorem acts_onUdp (s : Forwarder σ μ) (packet : Bytes) (d : Decoded) (owner : ℤ)
    (hd : decode packet = some d) (hudp : d.proto = .udp)
    (hP : s.proxyBroken = false → Permitted P s packet) (hjudged : C.judged) :
    Acts P C s (s.onUdp w packet d owner) := by
  cases hdoq : s.dropsDoq d with
  | true =>
    unfold onUdp
    rw [if_pos hdoq]
    exact acts_push s _
  | false =>
    exact (acts_judge s d protoUdp owner hjudged).trans
      (acts_onUdp_judged w s packet d owner hd hudp hdoq hP)

theorem acts_onTunPacket (s : Forwarder σ μ) (packet : Bytes) (owner : ℤ)
    (hP : s.proxyBroken = false → Permitted P s packet) (hjudged : C.judged) (hnew : C.created) :
    Acts P C s (s.onTunPacket w packet owner) := by
  unfold onTunPacket
  cases hd : decode packet with
  | none => exact .refl
  | some d =>
    dsimp only
    split
    · exact acts_onTcp w s packet d owner (fun hb => (hP hb).dialed) hjudged hnew
    · next hudp => exact acts_onUdp w s packet d owner hd hudp hP hjudged
    · split_ifs
      · exact acts_same ⟨rfl, rfl, rfl, rfl, rfl, rfl, rfl, rfl, rfl, rfl, rfl⟩ rfl
      · exact acts_push s _

end Packets

section Passes

theorem acts_pollSockets (s : Forwarder σ μ) (polls : FlowId → Poll σ) :
    Acts P C s (s.pollSockets polls) :=
  acts_foldl (fun s id => .single (.world s id _ (.poll (s.flow id) (polls id)))) s _

theorem acts_teardownTcp (s : Forwarder σ μ) (id : FlowId) :
    Acts P C s (s.onFlow id Flow.teardownTcp) :=
  acts_onFlow s id fun h x => (Micro.Moves.single (.teardown ⟨h, x, []⟩)).acts

theorem acts_sweepClosed (s : Forwarder σ μ) (hend : C.removed) : Acts P C s s.sweepClosed := by
  unfold sweepClosed
  refine acts_foldl (fun s id => (acts_teardownTcp s id).tail (.remove _ id ?_ hend)) s _
  simp only [onFlow, setFlow, flow, AList.lookup_insert, Option.getD_some]
  unfold Flow.teardownTcp
  split
  · assumption
  · rfl

variable [LawfulSplice μ]

theorem acts_relay (s : Forwarder σ μ) (order : List FlowId) :
    Acts P C s (order.foldl (fun s id => s.onFlow id Flow.servicePass) s) :=
  acts_foldl (fun s id => acts_onFlow s id Flow.acts_servicePass) s order

omit [LawfulSplice μ] in
theorem acts_reapUdp (s : Forwarder σ μ) : Acts P C s s.reapUdp := by
  refine acts_foldl (fun s key => ?_) s _
  cases hu : s.udp.lookup key with
  | none => exact .refl
  | some u =>
    dsimp only
    split_ifs
    · exact .single (.dropUdp s key u hu)
    · exact .refl

omit [LawfulSplice μ] in
theorem acts_reapSocks (s : Forwarder σ μ) : Acts P C s s.reapSocks := by
  refine acts_foldl (fun s key => ?_) s _
  cases hu : s.socksUdp.lookup key with
  | none => exact .refl
  | some u =>
    dsimp only
    split_ifs
    · exact acts_teardownSocks s key
    · exact .refl

omit [LawfulSplice μ] in
theorem acts_reapDnsTcp (s : Forwarder σ μ) : Acts P C s s.reapDnsTcp := by
  refine acts_foldl (fun s token => ?_) s _
  cases hj : s.dnsTcp.lookup token with
  | none => exact .refl
  | some job =>
    dsimp only
    split_ifs
    · exact acts_teardownDnsTcp s token
    · exact .refl

omit [LawfulSplice μ] in
theorem acts_reapDnsTls (s : Forwarder σ μ) : Acts P C s s.reapDnsTls := by
  refine acts_foldl (fun s token => ?_) s _
  cases hj : s.dnsTls.lookup token with
  | none => exact .refl
  | some job =>
    dsimp only
    split_ifs
    · exact acts_teardownDnsTls s token
    · exact .refl

omit [LawfulSplice μ] in
theorem acts_reapProxyHandshakes (s : Forwarder σ μ) : Acts P C s s.reapProxyHandshakes := by
  unfold reapProxyHandshakes
  extract_lets t
  have htcp : Acts P C s t := by
    refine acts_foldl (fun s id => ?_) s _
    cases (s.flow id).up with
    | none => exact .refl
    | some up =>
      dsimp only
      split_ifs
      · exact acts_onFlow s id fun h x => (Flow.moves_failProxy h x []).acts
      · exact .refl
  refine htcp.trans (acts_foldl (fun s key => ?_) t _)
  cases s.socksUdp.lookup key with
  | none => exact .refl
  | some u =>
    dsimp only
    split_ifs
    · refine .trans ?_ (acts_teardownSocks _ key)
      exact acts_same ⟨rfl, rfl, rfl, rfl, rfl, rfl, rfl, rfl, rfl, rfl, rfl⟩ rfl
    · exact .refl

omit [LawfulSplice μ] in
theorem acts_reapPendingSni (s : Forwarder σ μ) : Acts P C s s.reapPendingSni := by
  refine acts_foldl (fun s id => ?_) s _
  cases (s.flow id).up with
  | none => exact .refl
  | some up =>
    dsimp only
    split_ifs
    · exact acts_abort s id
    · exact .refl

/-- What a service pass makes once the flows that have ended are torn down. -/
theorem acts_service_swept (s : Forwarder σ μ) (polls : FlowId → Poll σ) (order : List FlowId)
    (emitted : List Bytes) :
    Acts P C (s.pollSockets polls).sweepClosed (s.service polls order emitted) := by
  unfold service
  extract_lets a b c
  have hb : Acts P C a b := acts_relay a order
  have hc : Acts P C a c := hb.trans <| (acts_reapUdp b).trans <| (acts_reapSocks _).trans <|
    (acts_reapDnsTcp _).trans (acts_reapDnsTls _)
  exact hc.trans <| (acts_reapProxyHandshakes c).trans <| (acts_reapPendingSni _).trans <|
    acts_send _ _

theorem acts_service (s : Forwarder σ μ) (polls : FlowId → Poll σ) (order : List FlowId)
    (emitted : List Bytes) (hend : C.removed) : Acts P C s (s.service polls order emitted) :=
  ((acts_pollSockets s polls).trans (acts_sweepClosed _ hend)).trans
    (acts_service_swept s polls order emitted)

theorem acts_onReady (s : Forwarder σ μ) (token : Token) (event : Flow.Readiness)
    (hrel : s.MayRelay P) : Acts P C s (s.onReady token event) := by
  unfold onReady
  cases s.shared.routes.lookup token with
  | none => exact .refl
  | some route =>
    cases route with
    | tcp id => exact acts_onFlow s id fun h x => (Flow.moves_onReady h x event).acts
    | udp key => exact acts_pumpUdpReply s key
    | socksCtrl key =>
      dsimp only
      split_ifs
      · exact acts_driveSocksCtrl s key hrel
      · exact acts_teardownSocks s key
      · exact .refl
    | socksRelay key =>
      dsimp only
      split_ifs
      · exact acts_pumpSocksRelay s key
      · exact .refl
    | dnsTcp => exact acts_driveDnsTcp s token
    | dnsTls => exact acts_driveDnsTls s token

end Passes

section Steps

theorem acts_arrive (s : Forwarder σ μ) (token : Token) (a : Arrival) (hnews : C.news a.io) :
    Acts P C s (s.arrive token a) := by
  unfold arrive
  cases s.shared.routes.lookup token with
  | none => exact .refl
  | some route =>
    cases route with
    | tcp id => exact .single (.world s id _ (.hear (s.flow id) a.io))
    | udp key =>
      dsimp only
      cases hu : s.udp.lookup key with
      | none => exact .refl
      | some u => exact .single (.setUdp s key u _ hu rfl)
    | socksCtrl key =>
      dsimp only
      cases hu : s.socksUdp.lookup key with
      | none => exact .refl
      | some u => exact .single (.setSocks s key u _ hu rfl (.hear hnews))
    | socksRelay key =>
      dsimp only
      cases hu : s.socksUdp.lookup key with
      | none => exact .refl
      | some u => exact .single (.setSocks s key u _ hu rfl (.keep rfl))
    | dnsTcp =>
      dsimp only
      cases hj : s.dnsTcp.lookup token with
      | none => exact .refl
      | some job => exact .single (.setDnsTcp s token job _ hj)
    | dnsTls =>
      dsimp only
      cases hj : s.dnsTls.lookup token with
      | none => exact .refl
      | some job => exact .single (.setDnsTls s token job _ hj)

theorem acts_deliver (s : Forwarder σ μ) (token : Token) (event : Flow.Readiness) :
    Acts P C s (s.deliver token event) := by
  unfold deliver
  split
  · next id _ => exact .single (.world s id _ (.deliver (s.flow id) event.readable))
  · exact .refl

theorem acts_apply (s : Forwarder σ μ) (c : Command) (hjudged : C.judged) :
    Acts P C s (s.apply c) := by
  cases c <;> exact .single (.same s _
    ⟨rfl, rfl, rfl, rfl, rfl, rfl, rfl, rfl, rfl, rfl, rfl⟩ (Or.inr hjudged))

omit [TcpSocket σ] [Splice μ] in
theorem deliver_frame (s : Forwarder σ μ) (token : Token) (event : Flow.Readiness) :
    (s.deliver token event).shared.proxy = s.shared.proxy ∧
      (s.deliver token event).socksUdp = s.socksUdp := by
  unfold deliver
  split <;> exact ⟨rfl, rfl⟩

/-- Every step is made of acts. What leaves the device leaves on a packet that is not refused, or
for an association. -/
theorem acts_step [LawfulSplice μ] {w : Wire} {s s' : Forwarder σ μ} {a : Input σ μ}
    (h : step w s a = some s')
    (hpacket : ∀ packet owner, a = .packet packet owner → s.proxyBroken = false →
      Permitted P s packet)
    (hrel : s.MayRelay P) (hnews : ∀ token news, a = .arrive token news → C.news news.io)
    (hjudged : C.judged) (hnew : C.created) (hend : C.removed) : Acts P C s s' := by
  cases a with
  | packet packet owner =>
    obtain rfl := Option.some.inj h
    exact acts_onTunPacket w s packet owner (hpacket packet owner rfl) hjudged hnew
  | ready token event =>
    obtain rfl := Option.some.inj h
    refine (acts_deliver s token event).trans (acts_onReady _ token event ?_)
    exact hrel.congr (deliver_frame s token event).1 (deliver_frame s token event).2
  | service polls order emitted =>
    simp only [step] at h
    split_ifs at h
    obtain rfl := Option.some.inj h
    exact acts_service s polls order emitted hend
  | command c =>
    obtain rfl := Option.some.inj h
    exact acts_apply s c hjudged
  | elapse ms =>
    obtain rfl := Option.some.inj h
    exact acts_same ⟨rfl, rfl, rfl, rfl, rfl, rfl, rfl, rfl, rfl, rfl, rfl⟩ rfl
  | arrive token a =>
    obtain rfl := Option.some.inj h
    exact acts_arrive s token a (hnews token a rfl)
  | answers dials relayConnects =>
    obtain rfl := Option.some.inj h
    exact acts_same ⟨rfl, rfl, rfl, rfl, rfl, rfl, rfl, rfl, rfl, rfl, rfl⟩ rfl
  | splices c =>
    obtain rfl := Option.some.inj h
    exact acts_same ⟨rfl, rfl, rfl, rfl, rfl, rfl, rfl, rfl, rfl, rfl, rfl⟩ rfl

/-- A step, whatever leaves the device. -/
theorem acts_of_step [LawfulSplice μ] {w : Wire} {s s' : Forwarder σ μ} {a : Input σ μ}
    (h : step w s a = some s') : Acts (fun _ => True) .any s s' :=
  acts_step h (fun packet _ _ _ => permitted_any s packet) (mayRelay_any s) (fun _ _ _ => trivial)
    trivial trivial trivial

/-- What every act keeps holds in every state that is reached. -/
theorem invariant_of_acts [LawfulSplice μ] {w : Wire} {config : Config μ}
    {I : Forwarder σ μ → Prop} (hinit : I (.new config))
    (hact : ∀ s s', Act (fun _ => True) .any s s' → I s → I s') {s : Forwarder σ μ}
    (h : (automaton w config).Reachable s) : I s := by
  have hkeep : (automaton w config).Keeps I := by
    intro s a s' hs hstep
    have hacts := acts_of_step hstep
    clear hstep
    induction hacts with
    | refl => exact hs
    | tail _ hb ih => exact hact _ _ hb ih
  exact hkeep.reachable hinit h

theorem Act.proxy {s s' : Forwarder σ μ} (hact : Act P C s s') :
    s'.shared.proxy = s.shared.proxy := by
  cases hact with
  | same _ hs _ => exact hs.proxy
  | flow id h' x hacts => exact hacts.sameConfig.proxy
  | remove id _ _ =>
    unfold removeFlow
    split <;> rfl
  | _ => rfl

theorem proxy_of_reachable [LawfulSplice μ] {w : Wire} {config : Config μ} {s : Forwarder σ μ}
    (h : (automaton w config).Reachable s) : s.shared.proxy = config.proxy :=
  invariant_of_acts (I := fun s => s.shared.proxy = config.proxy) rfl
    (fun _ _ hact hs => hact.proxy.trans hs) h

end Steps

end Forwarder

end Adwarden.Core
