import Adwarden.Core.ProxyLeak

/-! The account of a packet: one event or one packet of the coarse aggregate, and a block verdict
for those that are not passed on. -/
namespace Adwarden.Core
open Adwarden.Lib Adwarden.Net Adwarden.Tls Adwarden.Dns

variable {σ μ : Type}

/-- What a packet is entered as. -/
inductive Charge where
  | event (e : Event)
  | coarse (isDns : Bool)
deriving DecidableEq

/-- An event with a block verdict. -/
def Charge.Blocks : Charge → Prop
  | .event e => e.verdict = verdictBlock
  | .coarse _ => False

namespace Forwarder

/-- The events and the coarse aggregate. -/
def accounts (s : Forwarder σ μ) : List Event × CoarseAccum := (s.shared.batcher, s.coarse)

/-- The accounts with one more packet in them. -/
def charge (s : Forwarder σ μ) (d : Decoded) : Charge → List Event × CoarseAccum
  | .event e => (s.push [e]).accounts
  | .coarse isDns => (s.coarseAdd d.length d.proto isDns).accounts

theorem charge_injective (s : Forwarder σ μ) (d : Decoded) {c c' : Charge}
    (h : s.charge d c = s.charge d c') : c = c' := by
  cases c with
  | event e =>
    cases c' with
    | event e' =>
      have hb := List.append_cancel_left (congrArg Prod.fst h)
      rw [List.singleton_inj.mp hb]
    | coarse isDns =>
      have hb := congrArg List.length (congrArg Prod.fst h)
      simp [charge, accounts, push, Shared.push, coarseAdd] at hb
  | coarse isDns =>
    cases c' with
    | event e' =>
      have hb := congrArg List.length (congrArg Prod.fst h)
      simp [charge, accounts, push, Shared.push, coarseAdd] at hb
    | coarse isDns' =>
      have hd := Nat.add_left_cancel (congrArg (CoarseAccum.dns ∘ Prod.snd) h)
      cases isDns <;> cases isDns' <;> first | rfl | cases hd

section Silent

/-! Nothing past the accounting reports an event or counts a packet. -/

theorem accounts_dial (s : Forwarder σ μ) (record : Egress) :
    (s.dial record).2.accounts = s.accounts := by
  unfold dial
  split <;> rfl

theorem accounts_connectTcp (s : Forwarder σ μ) (server : SocketAddr) :
    (s.connectTcp server).2.accounts = s.accounts :=
  accounts_dial s _

theorem accounts_connectDnsTls (s : Forwarder σ μ) (peer : SocketAddr) :
    (s.connectDnsTls peer).2.accounts = s.accounts :=
  accounts_dial s _

theorem accounts_connectSocksCtrl (s : Forwarder σ μ) :
    s.connectSocksCtrl.2.accounts = s.accounts := by
  unfold connectSocksCtrl
  split
  · rfl
  · exact accounts_dial s _

theorem accounts_newRelaySocket (s : Forwarder σ μ) :
    s.newRelaySocket.2.accounts = s.accounts := by
  obtain ⟨dials, h | h | h⟩ := newRelaySocket_cases s <;> rw [h] <;> rfl

theorem accounts_sendUdp (s : Forwarder σ μ) (key : UdpKey) (payload : Bytes) :
    (s.sendUdp key payload).accounts = s.accounts := by
  unfold sendUdp
  split <;> rfl

theorem accounts_forwardUdp (s : Forwarder σ μ) (dgram : UdpDatagram) (upstream : SocketAddr) :
    (s.forwardUdp dgram upstream).accounts = s.accounts := by
  have hc := accounts_dial s (.udp upstream)
  unfold forwardUdp
  extract_lets key
  split_ifs
  · exact accounts_sendUdp s key _
  · split
    · next s' hs =>
      rw [connectUdp] at hs
      rwa [hs] at hc
    · next token s' hs =>
      rw [connectUdp] at hs
      rw [hs] at hc
      extract_lets session t
      exact (accounts_sendUdp _ key _).trans hc

theorem accounts_forwardUdpSocks (s : Forwarder σ μ) (dgram : UdpDatagram) (target : SocketAddr) :
    (s.forwardUdpSocks dgram target).accounts = s.accounts := by
  have hc := accounts_connectSocksCtrl s
  unfold forwardUdpSocks
  extract_lets key
  split
  · extract_lets session wire
    split_ifs <;> rfl
  · split
    · rfl
    · split
      · next s' hs => rwa [hs] at hc
      · next ctrl s' hs =>
        rw [hs] at hc
        have hr := accounts_newRelaySocket s'
        split
        · next t ht =>
          rw [ht] at hr
          exact hr.trans hc
        · next relay t ht =>
          rw [ht] at hr
          exact hr.trans hc

theorem accounts_forwardDnsOverProxy (s : Forwarder σ μ) (dgram : UdpDatagram)
    (resolver : SocketAddr) : (s.forwardDnsOverProxy dgram resolver).accounts = s.accounts := by
  have hc := accounts_connectTcp s resolver
  unfold forwardDnsOverProxy
  split_ifs
  · rfl
  · split
    · rfl
    · split
      · next s' hs => rwa [hs] at hc
      · next io token s' hs =>
        rw [hs] at hc
        exact hc

theorem accounts_forwardDnsTls (s : Forwarder σ μ) (dgram : UdpDatagram) (peer : SocketAddr) :
    (s.forwardDnsTls dgram peer).accounts = s.accounts := by
  have hc := accounts_connectDnsTls s peer
  unfold forwardDnsTls
  extract_lets mode?
  split_ifs
  · rfl
  · split
    · split
      · next s' hs => rwa [hs] at hc
      · next io token s' hs =>
        rw [hs] at hc
        exact hc
    · rfl

theorem accounts_routeUdp (s : Forwarder σ μ) (dgram : UdpDatagram) (isDns : Bool) :
    (s.routeUdp dgram isDns).accounts = s.accounts := by
  unfold routeUdp
  extract_lets upstream proxyUdp resolver
  split_ifs
  · exact accounts_forwardUdpSocks s dgram resolver
  · exact accounts_forwardDnsOverProxy s dgram resolver
  · cases s.dnsTransport with
    | plain => exact accounts_forwardUdp s dgram upstream
    | dot => exact accounts_forwardDnsTls s dgram upstream
    | doh => exact accounts_forwardDnsTls s dgram upstream
  · exact accounts_forwardUdpSocks s dgram upstream
  · exact accounts_forwardUdp s dgram upstream

theorem accounts_openTcp (s : Forwarder σ μ) [TcpSocket σ] (id : FlowId) (server : SocketAddr)
    (uid : ℤ) : (s.openTcp id server uid).accounts = s.accounts := by
  have hc := accounts_connectTcp s server
  unfold openTcp
  split_ifs
  · rfl
  · split
    · next s' hs => rwa [hs] at hc
    · next io token s' hs =>
      rw [hs] at hc
      exact hc

theorem accounts_onTcpPacket [TcpSocket σ] (s : Forwarder σ μ) (peek : Option TcpPeek) :
    (s.onTcpPacket peek).2.accounts = s.accounts := by
  unfold onTcpPacket
  split
  · rfl
  · extract_lets tuple
    split_ifs
    · rfl
    · split <;> rfl
    · rfl

end Silent

/-- The firewall verdict on a packet. Without ports there is none. -/
def judgement (s : Forwarder σ μ) (d : Decoded) (owner : ℤ) : Verdict × Forwarder σ μ :=
  match d.proto with
  | .tcp => s.judge d protoTcp owner
  | .udp => s.judge d protoUdp owner
  | _ => (⟨false, -1⟩, s)

/-- The rules by which a packet goes neither to the stack nor out. -/
inductive Refused (w : Wire) (s : Forwarder σ μ) (packet : Bytes) (d : Decoded) (owner : ℤ) : Prop
  | policy (h : (s.judgement d owner).1.blocked = true)
  /-- The app is inspected, and QUIC cannot be. -/
  | inspected (hudp : d.proto = .udp)
      (h : (s.shared.cosmeticElementHiding && d.dstPort == httpsPort &&
        s.shared.firewall.appInspects (s.judgement d owner).1.uid) = true)
  | proxyBroken (hports : d.proto = .tcp ∨ d.proto = .udp) (h : s.proxyBroken = true)
  | proxyUdp (hudp : d.proto = .udp) (h : s.shared.proxy.map Proxy.supportsUdp = some false)
      (hdns : isDnsPort d.dstPort = false)
  | dot (htcp : d.proto = .tcp) (h : s.dropsDot d (s.judgement d owner).1.uid = true)
  | doq (hudp : d.proto = .udp) (h : s.dropsDoq d = true)
  | name (hudp : d.proto = .udp) (hdns : isDnsPort d.dstPort = true) (dgram : UdpDatagram)
      (hparse : parseUdp w packet = some dgram) (query : Question)
      (hquery : parseQuery dgram.payload = some query)
      (h : s.shared.isBlockedDomain query.name = true)

section Packets

variable [TcpSocket σ] (w : Wire)

/-- The packet goes to the stack, or out as a datagram or a lookup, if it is one. -/
def pass (s : Forwarder σ μ) (packet : Bytes) (d : Decoded) (uid : ℤ) : Forwarder σ μ :=
  match d.proto with
  | .tcp =>
    let r := s.onTcpPacket (peekTcp w packet)
    match r.1 with
    | none => r.2
    | some (id, server) => r.2.openTcp id server uid
  | .udp =>
    match parseUdp w packet with
    | none => s
    | some dgram => s.routeUdp dgram (isDnsPort d.dstPort)
  | _ => s

theorem accounts_pass (s : Forwarder σ μ) (packet : Bytes) (d : Decoded) (uid : ℤ) :
    (s.pass w packet d uid).accounts = s.accounts := by
  unfold pass
  split
  · extract_lets r
    have hr : r.2.accounts = s.accounts := accounts_onTcpPacket s _
    split
    · exact hr
    · exact (accounts_openTcp ..).trans hr
  · split
    · rfl
    · exact accounts_routeUdp ..
  · rfl

/-- A packet is refused and reported as blocked, or it is accounted for and passed on. -/
inductive Handled (s : Forwarder σ μ) (packet : Bytes) (d : Decoded) (owner : ℤ) :
    Forwarder σ μ → Prop
  | refused (h : s.Refused w packet d owner) (s' : Forwarder σ μ) (e : Event)
      (hblock : e.verdict = verdictBlock) (hcharge : s'.accounts = s.charge d (.event e))
      (htables : s.SameTables s') : Handled s packet d owner s'
  | passed (h : ¬ s.Refused w packet d owner) (isDns : Bool) (domain : Option Str) :
      Handled s packet d owner
        (((s.judgement d owner).2.account d (s.judgement d owner).1.uid isDns domain).pass w packet
          d (s.judgement d owner).1.uid)

omit [TcpSocket σ] in
theorem judge_appInspects (s : Forwarder σ μ) (d : Decoded) (proto : UInt8) (owner uid : ℤ) :
    (s.judge d proto owner).2.shared.firewall.appInspects uid =
      s.shared.firewall.appInspects uid := by
  have hj := s.shared.firewall.verdict_judges ⟨proto, d.src, d.srcPort, d.dst, d.dstPort⟩ owner
  simp only [judge, Firewall.appInspects, hj.rules]

theorem handled_onTcp (s : Forwarder σ μ) (packet : Bytes) {d : Decoded} (owner : ℤ)
    (htcp : d.proto = .tcp) : Handled w s packet d owner (s.onTcp w packet d owner) := by
  have hj : s.judgement d owner = s.judge d protoTcp owner := by rw [judgement, htcp]
  have hrefuse (h : s.Refused w packet d owner) :
      Handled w s packet d owner ((s.judge d protoTcp owner).2.refuse w packet d
        (s.judge d protoTcp owner).1.uid) :=
    .refused h _ ((Event.blocked d).withUid (s.judge d protoTcp owner).1.uid) rfl rfl
      ((sameTables_judge s d protoTcp owner).trans (sameTables_refuse w _ packet d _))
  unfold onTcp
  extract_lets v t r
  by_cases hblocked : v.1.blocked = true
  · rw [if_pos hblocked]
    exact hrefuse (.policy (by rwa [hj]))
  rw [if_neg hblocked]
  by_cases hbroken : t.proxyBroken = true
  · rw [if_pos hbroken]
    exact hrefuse (.proxyBroken (.inl htcp) hbroken)
  rw [if_neg hbroken]
  by_cases hdot : t.dropsDot d v.1.uid = true
  · rw [if_pos hdot]
    exact hrefuse (.dot htcp (by rwa [hj]))
  rw [if_neg hdot]
  have hpassed : ¬ s.Refused w packet d owner := by
    intro h
    cases h with
    | policy h => exact hblocked (by rwa [hj] at h)
    | inspected hudp h => rw [htcp] at hudp; cases hudp
    | proxyBroken hports h => exact hbroken h
    | proxyUdp hudp h hdns => rw [htcp] at hudp; cases hudp
    | dot _ h => exact hdot (by rwa [hj] at h)
    | doq hudp h => rw [htcp] at hudp; cases hudp
    | name hudp hdns dgram hparse query hquery h => rw [htcp] at hudp; cases hudp
  have hp := Handled.passed hpassed false none
  rw [hj] at hp
  unfold pass at hp
  rw [htcp] at hp
  exact hp

theorem handled_onUdp (s : Forwarder σ μ) (packet : Bytes) {d : Decoded} (owner : ℤ)
    (hudp : d.proto = .udp) : Handled w s packet d owner (s.onUdp w packet d owner) := by
  have hj : s.judgement d owner = s.judge d protoUdp owner := by rw [judgement, hudp]
  have hs := sameTables_judge s d protoUdp owner
  have hreject (h : s.Refused w packet d owner) :
      Handled w s packet d owner ((s.judge d protoUdp owner).2.reject d
        (s.judge d protoUdp owner).1.uid) :=
    .refused h _ ((Event.blocked d).withUid (s.judge d protoUdp owner).1.uid) rfl rfl
      (hs.trans (sameTables_reject _ d _))
  unfold onUdp
  by_cases hdoq : s.dropsDoq d = true
  · rw [if_pos hdoq]
    exact .refused (.doq hudp hdoq) _ (Event.blocked d) rfl rfl (sameTables_push s _)
  rw [if_neg hdoq]
  extract_lets v t isDns
  by_cases hblocked : v.1.blocked = true
  · rw [if_pos hblocked]
    exact hreject (.policy (by rwa [hj]))
  rw [if_neg hblocked]
  by_cases hbroken : t.proxyBroken = true
  · rw [if_pos hbroken]
    exact hreject (.proxyBroken (.inr hudp) hbroken)
  rw [if_neg hbroken]
  by_cases hproxy : t.shared.proxy.map Proxy.supportsUdp = some false ∧ isDns = false
  · rw [if_pos hproxy]
    exact hreject (.proxyUdp hudp hproxy.1 hproxy.2)
  rw [if_neg hproxy]
  have hinspect := judge_appInspects s d protoUdp owner v.1.uid
  by_cases hquic : (t.shared.cosmeticElementHiding && d.dstPort == httpsPort &&
      t.shared.firewall.appInspects v.1.uid) = true
  · rw [if_pos hquic]
    rw [hinspect] at hquic
    exact hreject (.inspected hudp (by rwa [hj]))
  rw [if_neg hquic]
  have hpassed (hname : ∀ dgram query, isDnsPort d.dstPort = true → parseUdp w packet = some dgram →
      parseQuery dgram.payload = some query → s.shared.isBlockedDomain query.name = false) :
      ¬ s.Refused w packet d owner := by
    intro h
    cases h with
    | policy h => exact hblocked (by rwa [hj] at h)
    | inspected _ h =>
      rw [hinspect] at hquic
      exact hquic (by rwa [hj] at h)
    | proxyBroken hports h => exact hbroken h
    | proxyUdp _ h hdns => exact hproxy ⟨h, hdns⟩
    | dot htcp h => rw [hudp] at htcp; cases htcp
    | doq _ h => exact hdoq h
    | name _ hdns dgram hparse query hquery h =>
      rw [hname dgram query hdns hparse hquery] at h
      cases h
  -- the packet is passed on as `pass` says once its name, if it has one, is not blocked
  have hroute (dgram : UdpDatagram) (domain : Option Str) (hparse : parseUdp w packet = some dgram)
      (h : ¬ s.Refused w packet d owner) :
      Handled w s packet d owner ((t.account d v.1.uid isDns domain).routeUdp dgram isDns) := by
    have hp := Handled.passed h isDns domain
    rw [hj] at hp
    unfold pass at hp
    rw [hudp] at hp
    simpa only [hparse] using hp
  split
  · next hparse =>
    have hp := Handled.passed (hpassed fun dgram query _ h _ => by rw [hparse] at h; cases h) isDns
      none
    rw [hj] at hp
    unfold pass at hp
    rw [hudp] at hp
    simpa only [hparse] using hp
  · next dgram hparse =>
    by_cases hdns : isDns = true
    · rw [if_pos hdns]
      cases hq : parseQuery dgram.payload with
      | none =>
        have hr : t.handleDns d dgram = (some none, t) := by simp only [handleDns, hq]
        rw [hr]
        refine hroute dgram none hparse (hpassed fun dgram' query _ h hquery => ?_)
        obtain rfl : dgram = dgram' := Option.some.inj (hparse.symm.trans h)
        rw [hq] at hquery
        cases hquery
      | some query =>
        cases hb : t.shared.isBlockedDomain query.name with
        | true =>
          let reply := buildReply dgram.dst dgram.src (synthesizeNxdomain dgram.payload query)
          have hr : t.handleDns d dgram =
              (none, (t.send reply.toList).push [Event.blockedDomain d query.name]) := by
            simp only [handleDns, hq, hb, if_true, reply]
          have hrefused : s.Refused w packet d owner := .name hudp hdns dgram hparse query hq hb
          rw [hr]
          exact .refused hrefused _ (Event.blockedDomain d query.name) rfl rfl
            (hs.trans ((sameTables_send t _).trans (sameTables_push _ _)))
        | false =>
          have hr : t.handleDns d dgram = (some (some query.name), t) := by
            simp [handleDns, hq, hb]
          rw [hr]
          refine hroute dgram (some query.name) hparse (hpassed fun dgram' query' _ h hquery => ?_)
          obtain rfl : dgram = dgram' := Option.some.inj (hparse.symm.trans h)
          obtain rfl : query = query' := Option.some.inj (hq.symm.trans hquery)
          exact hb
    · rw [if_neg hdns]
      exact hroute dgram none hparse (hpassed fun _ _ h => absurd h hdns)

/-- A packet that is neither TCP nor UDP is accounted for, and no more. -/
theorem handled_unjudged (s : Forwarder σ μ) (packet : Bytes) {d : Decoded} (owner : ℤ)
    (h : d.proto ≠ .tcp ∧ d.proto ≠ .udp) :
    Handled w s packet d owner
      (if s.coarseMode (-1) then s.coarseAdd d.length d.proto false
        else s.push [Event.flow d]) := by
  have hj : s.judgement d owner = (⟨false, -1⟩, s) := by
    unfold judgement
    split
    · next he => exact absurd he h.1
    · next he => exact absurd he h.2
    · rfl
  have hpassed : ¬ s.Refused w packet d owner := by
    intro hr
    cases hr with
    | policy hb => rw [hj] at hb; cases hb
    | inspected hudp _ => exact h.2 hudp
    | proxyBroken hports _ => exact hports.elim h.1 h.2
    | proxyUdp hudp _ _ => exact h.2 hudp
    | dot htcp _ => exact h.1 htcp
    | doq hudp _ => exact h.2 hudp
    | name hudp => exact h.2 hudp
  have hp := Handled.passed hpassed false none
  rw [hj] at hp
  unfold pass at hp
  split at hp
  · next he => exact absurd he h.1
  · next he => exact absurd he h.2
  · exact hp

theorem handled_onTunPacket (s : Forwarder σ μ) {packet : Bytes} {d : Decoded} (owner : ℤ)
    (hd : decode packet = some d) :
    Handled w s packet d owner (s.onTunPacket w packet owner) := by
  unfold onTunPacket
  rw [hd]
  cases hproto : d.proto with
  | tcp => simpa only [hproto] using handled_onTcp w s packet owner hproto
  | udp => simpa only [hproto] using handled_onUdp w s packet owner hproto
  | icmp =>
    have hne : d.proto ≠ .tcp ∧ d.proto ≠ .udp := by simp [hproto]
    simpa only [hproto] using handled_unjudged w s packet owner hne
  | other =>
    have hne : d.proto ≠ .tcp ∧ d.proto ≠ .udp := by simp [hproto]
    simpa only [hproto] using handled_unjudged w s packet owner hne

omit [TcpSocket σ] in
theorem account_charge (s : Forwarder σ μ) (d : Decoded) (uid : ℤ) (isDns : Bool)
    (domain : Option Str) :
    ∃ c : Charge, ¬ c.Blocks ∧ (s.account d uid isDns domain).accounts = s.charge d c := by
  unfold account
  split_ifs
  · exact ⟨.coarse isDns, not_false, rfl⟩
  · refine ⟨.event (((Event.flow d).withUid uid).withDomain domain), ?_, rfl⟩
    change ¬ verdictAllow = verdictBlock
    decide

theorem exists_charge (s : Forwarder σ μ) {packet : Bytes} {d : Decoded} (owner : ℤ)
    (hd : decode packet = some d) :
    ∃ c : Charge, (s.onTunPacket w packet owner).accounts = s.charge d c ∧
      (c.Blocks ↔ s.Refused w packet d owner) := by
  have hhandled := handled_onTunPacket w s owner hd
  generalize s.onTunPacket w packet owner = s' at hhandled ⊢
  cases hhandled with
  | refused h _ e hblock hcharge htables => exact ⟨.event e, hcharge, iff_of_true hblock h⟩
  | passed h isDns domain =>
    obtain ⟨c, hblocks, hcharge⟩ :=
      account_charge (s.judgement d owner).2 d (s.judgement d owner).1.uid isDns domain
    have hsame : (s.judgement d owner).2.charge d c = s.charge d c := by
      unfold judgement
      split <;> cases c <;> rfl
    refine ⟨c, ?_, iff_of_false hblocks h⟩
    rw [accounts_pass, hcharge, hsame]

/-- The events and the packets of the aggregate together. -/
def entries (s : Forwarder σ μ) : ℕ := s.shared.batcher.length + s.coarse.packets

omit [TcpSocket σ] in
theorem entries_charge {s s' : Forwarder σ μ} {d : Decoded} {c : Charge}
    (h : s'.accounts = s.charge d c) : s'.entries = s.entries + 1 := by
  obtain ⟨hb, hc⟩ := Prod.mk.inj h
  unfold entries
  cases c with
  | event e =>
    rw [show s'.coarse = s.coarse from hc, hb]
    simp only [accounts, push, Shared.push, List.length_append, List.length_singleton]
    omega
  | coarse isDns =>
    rw [hb, hc]
    exact (Nat.add_assoc ..).symm

/-- Over a run of packets there are as many entries as packets that decode. -/
theorem entries_packets (s : Forwarder σ μ) (packets : List (Bytes × ℤ)) :
    (packets.foldl (fun s p => s.onTunPacket w p.1 p.2) s).entries =
      s.entries + packets.countP fun p => (decode p.1).isSome := by
  induction packets generalizing s with
  | nil => rfl
  | cons p packets ih =>
    rw [List.foldl_cons, ih, List.countP_cons]
    cases hd : decode p.1 with
    | none => simp [onTunPacket, hd]
    | some d =>
      obtain ⟨c, hc, -⟩ := exists_charge w s p.2 hd
      rw [entries_charge hc]
      simp only [Option.isSome_some, if_true]
      omega

/-- Whether a packet is passed on or refused, it is accounted for once, as blocked or not. -/
structure Accounted (s : Forwarder σ μ) (packet : Bytes) (d : Decoded) (owner : ℤ)
    (s' : Forwarder σ μ) : Prop where
  once : ∃! c : Charge, s'.accounts = s.charge d c
  blocks : ∀ c : Charge, s'.accounts = s.charge d c → (c.Blocks ↔ s.Refused w packet d owner)
  refused : s.Refused w packet d owner → s.SameTables s'
  passed : ¬ s.Refused w packet d owner → ∃ isDns domain,
    s' = ((s.judgement d owner).2.account d (s.judgement d owner).1.uid isDns domain).pass w packet
      d (s.judgement d owner).1.uid

end Packets

end Forwarder

end Adwarden.Core
