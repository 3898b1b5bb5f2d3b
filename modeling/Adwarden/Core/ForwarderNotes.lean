import Adwarden.Core.Accounts
import Adwarden.Core.Deadlines
import Adwarden.Core.FlowNotes

/-! What the steps of the forwarder leave of the settings that the live updates make, and what they
enter into the accounts. -/
namespace Adwarden.Core
open Adwarden.Lib Adwarden.Net Adwarden.Tls Adwarden.Dns

variable {σ μ : Type}

/-- What the live updates change. -/
structure Settings extends SharedSettings where
  dnsTransport : DnsTransport
  dnsOverride : Option IpAddr
  dnsPort : UInt16
  dnsHost : Option Str
  dnsPath : Option Str
  proxyDnsOverTcp : Bool

def Settings.apply (s : Settings) : Command → Settings
  | .loadEngine engine => { s with engine := engine }
  | .setFirewall rules => { s with rules := rules }
  | .setTransport transport => { s with transport := transport }
  | .setLogOpen isOpen => { s with logOpen := isOpen }
  | .setEncryptedDnsMode mode => { s with encryptedDnsMode := mode }
  | .setCosmetic elementHiding scriptlets =>
    { s with cosmeticElementHiding := elementHiding, cosmeticScriptlets := scriptlets }
  | .setProxyDnsOverTcp on => { s with proxyDnsOverTcp := on }
  | .setDnsUpstream transport overrideIp port host path =>
    { s with
      dnsTransport := transport
      dnsOverride := overrideIp
      dnsPort := normalizeDnsPort port
      dnsHost := normalizeDnsHost host
      dnsPath := path }

/-- What a packet is entered as is about that packet. -/
def Charge.Of (d : Decoded) : Charge → Prop
  | .event e =>
    e.kind ≠ kindCoarse ∧ e.proto = protoCode d.proto ∧ e.length = d.length ∧ e.dstPort = d.dstPort
  | .coarse isDns => isDns = (d.proto == .udp && Forwarder.isDnsPort d.dstPort)

namespace Forwarder

def settings (s : Forwarder σ μ) : Settings where
  toSharedSettings := s.shared.settings
  dnsTransport := s.dnsTransport
  dnsOverride := s.dnsOverride
  dnsPort := s.dnsPort
  dnsHost := s.dnsHost
  dnsPath := s.dnsPath
  proxyDnsOverTcp := s.proxyDnsOverTcp

theorem settings_apply (s : Forwarder σ μ) (c : Command) :
    (s.apply c).settings = s.settings.apply c := by
  cases c with
  | setTransport transport =>
    simp only [apply, Firewall.setTransport]
    split_ifs with h
    · rfl
    · rw [not_not] at h
      rw [h]
      rfl
  | _ => rfl

theorem accounts_apply (s : Forwarder σ μ) (c : Command) : (s.apply c).accounts = s.accounts := by
  cases c with
  | setTransport transport =>
    simp only [apply, Firewall.setTransport]
    split_ifs <;> rfl
  | _ => rfl

section Passing

/-! Past the verdict a packet finds the settings as they are. -/

theorem settings_dial (s : Forwarder σ μ) (record : Egress) :
    (s.dial record).2.settings = s.settings := by
  unfold dial
  split <;> rfl

theorem settings_connectSocksCtrl (s : Forwarder σ μ) :
    s.connectSocksCtrl.2.settings = s.settings := by
  unfold connectSocksCtrl
  split
  · rfl
  · exact settings_dial s _

theorem settings_newRelaySocket (s : Forwarder σ μ) :
    s.newRelaySocket.2.settings = s.settings := by
  obtain ⟨dials, h | h | h⟩ := newRelaySocket_cases s <;> rw [h] <;> rfl

theorem settings_sendUdp (s : Forwarder σ μ) (key : UdpKey) (payload : Bytes) :
    (s.sendUdp key payload).settings = s.settings := by
  unfold sendUdp
  split <;> rfl

theorem settings_forwardUdp (s : Forwarder σ μ) (dgram : UdpDatagram) (upstream : SocketAddr) :
    (s.forwardUdp dgram upstream).settings = s.settings := by
  have hc := settings_dial s (.udp upstream)
  unfold forwardUdp
  extract_lets key
  split_ifs
  · exact settings_sendUdp s key _
  · split
    · next s' hs =>
      rw [connectUdp] at hs
      rwa [hs] at hc
    · next token s' hs =>
      rw [connectUdp] at hs
      rw [hs] at hc
      extract_lets session t
      exact (settings_sendUdp _ key _).trans hc

theorem settings_forwardUdpSocks (s : Forwarder σ μ) (dgram : UdpDatagram) (target : SocketAddr) :
    (s.forwardUdpSocks dgram target).settings = s.settings := by
  have hc := settings_connectSocksCtrl s
  unfold forwardUdpSocks
  extract_lets key
  split
  · extract_lets session wire
    split_ifs <;> rfl
  · split
    · rfl
    · split
      · next s' hs => rwa [hs] at hc
      · next ctrl s' hs =>
        rw [hs] at hc
        have hr := settings_newRelaySocket s'
        split
        · next t ht =>
          rw [ht] at hr
          exact hr.trans hc
        · next relay t ht =>
          rw [ht] at hr
          exact hr.trans hc

theorem settings_forwardDnsOverProxy (s : Forwarder σ μ) (dgram : UdpDatagram)
    (resolver : SocketAddr) : (s.forwardDnsOverProxy dgram resolver).settings = s.settings := by
  have hc : (s.connectTcp resolver).2.settings = s.settings := settings_dial s _
  unfold forwardDnsOverProxy
  split_ifs
  · rfl
  · split
    · rfl
    · split
      · next s' hs => rwa [hs] at hc
      · next io token s' hs =>
        rw [hs] at hc
        exact hc

theorem settings_forwardDnsTls (s : Forwarder σ μ) (dgram : UdpDatagram) (peer : SocketAddr) :
    (s.forwardDnsTls dgram peer).settings = s.settings := by
  have hc : (s.connectDnsTls peer).2.settings = s.settings := settings_dial s _
  unfold forwardDnsTls
  extract_lets mode?
  split_ifs
  · rfl
  · split
    · split
      · next s' hs => rwa [hs] at hc
      · next io token s' hs =>
        rw [hs] at hc
        exact hc
    · rfl

theorem settings_routeUdp (s : Forwarder σ μ) (dgram : UdpDatagram) (isDns : Bool) :
    (s.routeUdp dgram isDns).settings = s.settings := by
  unfold routeUdp
  extract_lets upstream proxyUdp resolver
  split_ifs
  · exact settings_forwardUdpSocks s dgram resolver
  · exact settings_forwardDnsOverProxy s dgram resolver
  · cases s.dnsTransport with
    | plain => exact settings_forwardUdp s dgram upstream
    | dot => exact settings_forwardDnsTls s dgram upstream
    | doh => exact settings_forwardDnsTls s dgram upstream
  · exact settings_forwardUdpSocks s dgram upstream
  · exact settings_forwardUdp s dgram upstream

theorem settings_openTcp (s : Forwarder σ μ) [TcpSocket σ] (id : FlowId) (server : SocketAddr)
    (uid : ℤ) : (s.openTcp id server uid).settings = s.settings := by
  have hc : (s.connectTcp server).2.settings = s.settings := settings_dial s _
  unfold openTcp
  split_ifs
  · rfl
  · split
    · next s' hs => rwa [hs] at hc
    · next io token s' hs =>
      rw [hs] at hc
      exact hc

theorem settings_onTcpPacket [TcpSocket σ] (s : Forwarder σ μ) (peek : Option TcpPeek) :
    (s.onTcpPacket peek).2.settings = s.settings := by
  unfold onTcpPacket
  split
  · rfl
  · extract_lets tuple
    split_ifs
    · rfl
    · split <;> rfl
    · rfl

end Passing

/-- The settings stay, and one entry is made, about the packet. -/
structure Entered (s : Forwarder σ μ) (d : Decoded) (s' : Forwarder σ μ) : Prop where
  settings : s'.settings = s.settings
  charge : ∃ c : Charge, c.Of d ∧ s'.accounts = s.charge d c

namespace Entered

variable {s s' t : Forwarder σ μ} {d : Decoded}

theorem after (hs : t.settings = s.settings) (ha : t.accounts = s.accounts)
    (h : Entered t d s') : Entered s d s' := by
  obtain ⟨hset, c, hof, hc⟩ := h
  obtain ⟨hb, hcoarse⟩ := Prod.mk.inj ha
  refine ⟨hset.trans hs, c, hof, hc.trans ?_⟩
  cases c with
  | event e =>
    change (t.shared.batcher ++ [e], t.coarse) = (s.shared.batcher ++ [e], s.coarse)
    rw [hb, hcoarse]
  | coarse isDns =>
    change (t.shared.batcher, (t.coarseAdd d.length d.proto isDns).coarse) =
      (s.shared.batcher, (s.coarseAdd d.length d.proto isDns).coarse)
    unfold coarseAdd
    rw [hb, hcoarse]

theorem silently (h : Entered s d s') (hs : t.settings = s'.settings)
    (ha : t.accounts = s'.accounts) : Entered s d t := by
  obtain ⟨hset, c, hof, hc⟩ := h
  exact ⟨hs.trans hset, c, hof, ha.trans hc⟩

end Entered

theorem entered_reject (s : Forwarder σ μ) (d : Decoded) (uid : ℤ) :
    Entered s d (s.reject d uid) :=
  ⟨rfl, .event ((Event.blocked d).withUid uid), ⟨show kindFlow ≠ kindCoarse by decide, rfl, rfl, rfl⟩,
    rfl⟩

theorem entered_account (s : Forwarder σ μ) {d : Decoded} (uid : ℤ) {isDns : Bool}
    (domain : Option Str) (hdns : isDns = (d.proto == .udp && isDnsPort d.dstPort)) :
    Entered s d (s.account d uid isDns domain) := by
  unfold account
  split_ifs
  · exact ⟨rfl, .coarse isDns, hdns, rfl⟩
  · exact ⟨rfl, .event (((Event.flow d).withUid uid).withDomain domain),
      ⟨show kindFlow ≠ kindCoarse by decide, rfl, rfl, rfl⟩, rfl⟩

/-- A name that is blocked is entered here, and one that is not waits for its account. -/
theorem entered_handleDns (s : Forwarder σ μ) (d : Decoded) (dgram : UdpDatagram) :
    ((s.handleDns d dgram).1 = none ∧ Entered s d (s.handleDns d dgram).2) ∨
      ∃ name, (s.handleDns d dgram).1 = some name ∧ (s.handleDns d dgram).2 = s := by
  unfold handleDns
  cases parseQuery dgram.payload with
  | none => exact .inr ⟨none, rfl, rfl⟩
  | some query =>
    dsimp only
    split_ifs
    · exact .inl ⟨rfl, rfl, .event (Event.blockedDomain d query.name),
        ⟨show kindDnsBlock ≠ kindCoarse by decide, rfl, rfl, rfl⟩, rfl⟩
    · exact .inr ⟨some query.name, rfl, rfl⟩

theorem entered_routed (s : Forwarder σ μ) {d : Decoded} (uid : ℤ) {isDns : Bool}
    (name : Option Str) (dgram : UdpDatagram)
    (hdns : isDns = (d.proto == .udp && isDnsPort d.dstPort)) :
    Entered s d ((s.account d uid isDns name).routeUdp dgram isDns) :=
  (entered_account s uid name hdns).silently (settings_routeUdp ..) (accounts_routeUdp ..)

theorem logOpen_verdict (s : Firewall) (key : FlowKey) (owner : ℤ) :
    (s.verdict key owner).2.logOpen = s.logOpen := by
  unfold Firewall.verdict
  split
  · rfl
  · split <;> rfl

theorem settings_judge (s : Forwarder σ μ) (d : Decoded) (proto : UInt8) (owner : ℤ) :
    (s.judge d proto owner).2.settings = s.settings := by
  let key : FlowKey := ⟨proto, d.src, d.srcPort, d.dst, d.dstPort⟩
  have hj := s.shared.firewall.verdict_judges key owner
  have hlog := logOpen_verdict s.shared.firewall key owner
  simp only [settings, Shared.settings, judge]
  rw [hj.rules, hj.transport, hlog]

section Packets

variable [TcpSocket σ] (w : Wire)

omit [TcpSocket σ] in
theorem entered_refuse (s : Forwarder σ μ) (packet : Bytes) (d : Decoded) (uid : ℤ) :
    Entered s d (s.refuse w packet d uid) := by
  unfold refuse
  generalize (if resetsSyn w packet then [Outbound.reset packet] else []) = packets
  exact .after (t := s.send packets) rfl rfl (entered_reject (s.send packets) d uid)

theorem entered_onTcp (s : Forwarder σ μ) (packet : Bytes) {d : Decoded} (owner : ℤ)
    (htcp : d.proto = .tcp) : Entered s d (s.onTcp w packet d owner) := by
  apply Entered.after (settings_judge s d protoTcp owner) rfl
  unfold onTcp
  extract_lets v t r
  split_ifs
  · exact entered_refuse w t packet d v.1.uid
  · exact entered_refuse w t packet d v.1.uid
  · exact entered_refuse w t packet d v.1.uid
  · have hr : Entered t d r.2 := by
      refine (entered_account t v.1.uid none ?_).silently (settings_onTcpPacket _ _)
        (accounts_onTcpPacket _ _)
      rw [htcp]
      rfl
    split
    · exact hr
    · exact hr.silently (settings_openTcp ..) (accounts_openTcp ..)

omit [TcpSocket σ] in
theorem entered_onUdp (s : Forwarder σ μ) (packet : Bytes) {d : Decoded} (owner : ℤ)
    (hudp : d.proto = .udp) : Entered s d (s.onUdp w packet d owner) := by
  have hdns : isDnsPort d.dstPort = (d.proto == .udp && isDnsPort d.dstPort) := by
    rw [hudp]
    rfl
  unfold onUdp
  split_ifs
  · exact entered_reject s d (-1)
  apply Entered.after (settings_judge s d protoUdp owner) rfl
  extract_lets v t isDns
  split_ifs
  · exact entered_reject t d v.1.uid
  · exact entered_reject t d v.1.uid
  · exact entered_reject t d v.1.uid
  · exact entered_reject t d v.1.uid
  · split
    · exact entered_account t v.1.uid none hdns
    · next dgram _ =>
      extract_lets r
      rcases entered_handleDns t d dgram with ⟨hnone, hblocked⟩ | ⟨name, hsome, hsame⟩
      · rw [hnone]
        exact hblocked
      · rw [hsome, hsame]
        exact entered_routed t v.1.uid name dgram hdns
  · split
    · exact entered_account t v.1.uid none hdns
    · next dgram _ => exact entered_routed t v.1.uid none dgram hdns

/-- A packet that decodes is entered. -/
theorem entered_onTunPacket (s : Forwarder σ μ) {packet : Bytes} {d : Decoded} (owner : ℤ)
    (hd : decode packet = some d) : Entered s d (s.onTunPacket w packet owner) := by
  have hother (h : d.proto ≠ .udp) : Entered s d
      (if s.coarseMode (-1) then s.coarseAdd d.length d.proto false else s.push [Event.flow d]) := by
    have hfalse : (d.proto == L4.udp) = false := beq_false_of_ne h
    split_ifs
    · exact ⟨rfl, .coarse false, by rw [Charge.Of, hfalse, Bool.false_and], rfl⟩
    · exact ⟨rfl, .event (Event.flow d), ⟨show kindFlow ≠ kindCoarse by decide, rfl, rfl, rfl⟩, rfl⟩
  unfold onTunPacket
  rw [hd]
  cases hproto : d.proto with
  | tcp => simpa only [hproto] using entered_onTcp w s packet owner hproto
  | udp => simpa only [hproto] using entered_onUdp w s packet owner hproto
  | icmp => simpa only [hproto] using hother (by rw [hproto]; decide)
  | other => simpa only [hproto] using hother (by rw [hproto]; decide)

/-- And as blocked if it is refused. -/
theorem charge_onTunPacket (s : Forwarder σ μ) {packet : Bytes} {d : Decoded} (owner : ℤ)
    (hd : decode packet = some d) :
    ∃ c : Charge, c.Of d ∧ (c.Blocks ↔ s.Refused w packet d owner) ∧
      (s.onTunPacket w packet owner).accounts = s.charge d c := by
  obtain ⟨-, c, hof, hc⟩ := entered_onTunPacket w s owner hd
  obtain ⟨c', hc', hblocks⟩ := exists_charge w s owner hd
  obtain rfl := s.charge_injective d (hc'.symm.trans hc)
  exact ⟨c', hof, hblocks, hc⟩

end Packets

/-- The settings and the aggregate stay, and what is pushed are reports. -/
structure Reports (s s' : Forwarder σ μ) : Prop where
  settings : s'.settings = s.settings
  coarse : s'.coarse = s.coarse
  events : ∃ es, s'.shared.batcher = s.shared.batcher ++ es ∧ ∀ e ∈ es, e.IsReport

namespace Reports

variable {s s' : Forwarder σ μ}

theorem silent (hs : s'.settings = s.settings) (ha : s'.accounts = s.accounts) : s.Reports s' := by
  obtain ⟨hb, hc⟩ := Prod.mk.inj ha
  exact ⟨hs, hc, [], by rw [hb, List.append_nil], by simp⟩

theorem refl (s : Forwarder σ μ) : s.Reports s := silent rfl rfl

theorem trans {a b c : Forwarder σ μ} (hab : a.Reports b) (hbc : b.Reports c) : a.Reports c := by
  obtain ⟨es, hes, hre⟩ := hab.events
  obtain ⟨fs, hfs, hrf⟩ := hbc.events
  refine ⟨hbc.settings.trans hab.settings, hbc.coarse.trans hab.coarse, es ++ fs, ?_, ?_⟩
  · rw [hfs, hes, List.append_assoc]
  · intro e he
    exact (List.mem_append.mp he).elim (hre e) (hrf e)

theorem foldl {α : Type} {f : Forwarder σ μ → α → Forwarder σ μ} (hf : ∀ (s : Forwarder σ μ) a,
    s.Reports (f s a)) (s : Forwarder σ μ) (l : List α) : s.Reports (l.foldl f s) := by
  induction l generalizing s with
  | nil => exact refl s
  | cons a l ih => exact (hf s a).trans (ih (f s a))

theorem onFlow {f : Shared μ → Flow σ μ → Shared μ × Flow σ μ}
    (hf : ∀ (h : Shared μ) x, h.Reports (f h x).1)
    (s : Forwarder σ μ) (id : FlowId) : s.Reports (s.onFlow id f) := by
  obtain ⟨hset, hevents⟩ := hf s.shared (s.flow id)
  refine ⟨?_, rfl, hevents⟩
  simp only [Forwarder.settings, Forwarder.onFlow, setFlow, hset]

end Reports

section Sessions

theorem reports_teardownSocks (s : Forwarder σ μ) (key : UdpKey) :
    s.Reports (s.teardownSocks key) := by
  obtain ⟨routes, socks, h⟩ := teardownSocks_frame s key
  rw [h]
  exact .silent rfl rfl

theorem reports_socksAssociateReady (s : Forwarder σ μ) (key : UdpKey)
    (bound : Option SocketAddr) : s.Reports (s.socksAssociateReady key bound) := by
  unfold socksAssociateReady
  split
  · exact reports_teardownSocks s key
  · exact reports_teardownSocks s key
  · exact .refl s
  · extract_lets relay wires
    by_cases hc : s.relayConnects = true
    · rw [if_pos hc]
      exact .silent rfl rfl
    · rw [if_neg hc]
      exact reports_teardownSocks s key

theorem reports_driveSocksCtrl (s : Forwarder σ μ) (key : UdpKey) :
    s.Reports (s.driveSocksCtrl key) := by
  unfold driveSocksCtrl
  cases s.socksUdp.lookup key with
  | none => exact .refl s
  | some session =>
    dsimp only
    split_ifs
    · exact reports_teardownSocks s key
    · cases session.handshake with
      | none => exact .refl s
      | some hs =>
        dsimp only
        rcases pumpHandshake 2048 ⟨session.ctrl, hs, session.hsOut⟩ with ⟨r, driven⟩
        have hset (table : AList fun _ : UdpKey => Socks5UdpSession) (b : Bool) :
            s.Reports { s with socksUdp := table, socksUdpUnsupported := b } := .silent rfl rfl
        cases r with
        | pending => exact hset _ s.socksUdpUnsupported
        | failed => exact (hset _ true).trans (reports_teardownSocks _ key)
        | done leftover =>
          exact (hset _ s.socksUdpUnsupported).trans (reports_socksAssociateReady _ key _)

theorem reports_pumpUdpReply (s : Forwarder σ μ) (key : UdpKey) :
    s.Reports (s.pumpUdpReply key) := by
  unfold pumpUdpReply
  split <;> exact .silent rfl rfl

theorem reports_pumpSocksRelay (s : Forwarder σ μ) (key : UdpKey) :
    s.Reports (s.pumpSocksRelay key) := by
  unfold pumpSocksRelay
  split <;> exact .silent rfl rfl

theorem reports_teardownDnsTcp (s : Forwarder σ μ) (token : Token) :
    s.Reports (s.teardownDnsTcp token) := by
  unfold teardownDnsTcp
  split <;> exact .silent rfl rfl

theorem reports_teardownDnsTls (s : Forwarder σ μ) (token : Token) :
    s.Reports (s.teardownDnsTls token) := by
  unfold teardownDnsTls
  split <;> exact .silent rfl rfl

theorem reports_send (s : Forwarder σ μ) (packets : List Outbound) : s.Reports (s.send packets) :=
  .silent rfl rfl

theorem reports_driveDnsTcp (s : Forwarder σ μ) (token : Token) :
    s.Reports (s.driveDnsTcp token) := by
  unfold driveDnsTcp
  split
  · exact .refl s
  · split
    · exact .silent rfl rfl
    · exact reports_teardownDnsTcp s token
    · exact (reports_send s _).trans (reports_teardownDnsTcp _ token)

theorem reports_driveDnsTls (s : Forwarder σ μ) (token : Token) :
    s.Reports (s.driveDnsTls token) := by
  unfold driveDnsTls
  split
  · exact .refl s
  · split
    · exact .silent rfl rfl
    · exact reports_teardownDnsTls s token
    · exact (reports_send s _).trans (reports_teardownDnsTls _ token)

end Sessions

section World

theorem silent_arrive (s : Forwarder σ μ) (token : Token) (a : Arrival) :
    (s.arrive token a).settings = s.settings ∧ (s.arrive token a).accounts = s.accounts := by
  unfold arrive
  split
  · exact ⟨rfl, rfl⟩
  · split <;> exact ⟨rfl, rfl⟩
  · split <;> exact ⟨rfl, rfl⟩
  · split <;> exact ⟨rfl, rfl⟩
  · split <;> exact ⟨rfl, rfl⟩
  · split <;> exact ⟨rfl, rfl⟩
  · exact ⟨rfl, rfl⟩

theorem silent_deliver (s : Forwarder σ μ) (token : Token) (event : Flow.Readiness) :
    (s.deliver token event).settings = s.settings ∧
      (s.deliver token event).accounts = s.accounts := by
  unfold deliver
  split <;> exact ⟨rfl, rfl⟩

end World

section Passes

variable [TcpSocket σ] [Splice μ]

theorem reports_onReady (s : Forwarder σ μ) (token : Token) (event : Flow.Readiness) :
    s.Reports ((s.deliver token event).onReady token event) := by
  obtain ⟨hset, hacc⟩ := silent_deliver s token event
  apply Reports.trans (.silent hset hacc)
  generalize s.deliver token event = s
  unfold onReady
  split
  · exact .onFlow (fun h x => Flow.reports_onReady h x event) s _
  · exact reports_pumpUdpReply s _
  · split_ifs
    · exact reports_driveSocksCtrl s _
    · exact reports_teardownSocks s _
    · exact .refl s
  · split_ifs
    · exact reports_pumpSocksRelay s _
    · exact .refl s
  · exact reports_driveDnsTcp s token
  · exact reports_driveDnsTls s token
  · exact .refl s

omit [Splice μ] in
theorem reports_pollSockets (s : Forwarder σ μ) (polls : FlowId → Poll σ) :
    s.Reports (s.pollSockets polls) := by
  apply Reports.foldl
  intro t id
  exact .silent rfl rfl

omit [TcpSocket σ] [Splice μ] in
theorem reports_removeFlow (s : Forwarder σ μ) (id : FlowId) : s.Reports (s.removeFlow id) := by
  unfold removeFlow
  split <;> exact .silent rfl rfl

omit [Splice μ] in
theorem reports_sweepClosed (s : Forwarder σ μ) : s.Reports s.sweepClosed := by
  apply Reports.foldl
  intro t id
  exact (Reports.onFlow Flow.reports_teardownTcp t id).trans (reports_removeFlow _ id)

omit [TcpSocket σ] [Splice μ] in
theorem reports_reapSessions (s : Forwarder σ μ) :
    s.Reports s.reapUdp.reapSocks.reapDnsTcp.reapDnsTls := by
  obtain ⟨routes₁, udp, h₁⟩ := reapUdp_frame s
  obtain ⟨routes₂, socks, h₂⟩ := reapSocks_frame s.reapUdp
  obtain ⟨routes₃, tcp, h₃⟩ := reapDnsTcp_frame s.reapUdp.reapSocks
  obtain ⟨routes₄, tls, h₄⟩ := reapDnsTls_frame s.reapUdp.reapSocks.reapDnsTcp
  rw [h₄, h₃, h₂, h₁]
  exact .silent rfl rfl

omit [Splice μ] in
theorem reports_reapProxyHandshakes (s : Forwarder σ μ) : s.Reports s.reapProxyHandshakes := by
  unfold reapProxyHandshakes
  refine .trans (.foldl ?_ s _) (.foldl ?_ _ _)
  · intro t id
    split
    · split_ifs
      · exact .onFlow Flow.reports_failProxy t id
      · exact .refl t
    · exact .refl t
  · intro t key
    split
    · split_ifs
      · have hset : t.Reports { t with socksUdpUnsupported := true } := .silent rfl rfl
        exact hset.trans (reports_teardownSocks _ key)
      · exact .refl t
    · exact .refl t

omit [Splice μ] in
theorem reports_reapPendingSni (s : Forwarder σ μ) : s.Reports s.reapPendingSni := by
  apply Reports.foldl
  intro t id
  split
  · split_ifs
    · exact .silent rfl rfl
    · exact .refl t
  · exact .refl t

/-- A service pass reports, but it enters no packet. -/
theorem reports_service (s : Forwarder σ μ) (polls : FlowId → Poll σ) (order : List FlowId)
    (emitted : List Bytes) : s.Reports (s.service polls order emitted) := by
  have hswept := (reports_pollSockets s polls).trans (reports_sweepClosed _)
  have hpassed := hswept.trans (.foldl (Reports.onFlow Flow.reports_servicePass) _ order)
  have hreaped := hpassed.trans (reports_reapSessions _)
  have hclosed := (hreaped.trans (reports_reapProxyHandshakes _)).trans (reports_reapPendingSni _)
  exact hclosed.trans (reports_send _ _)

end Passes

end Forwarder

end Adwarden.Core
