import Adwarden.Core.SocksRelay

/-! What leaves the device when there is a proxy: all of it goes to the proxy, but for DNS that
the proxy is not to carry. Nothing leaves when the proxy settings cannot be used. -/
namespace Adwarden.Core
open Relation Adwarden.Lib Adwarden.Net Adwarden.Tls Adwarden.Dns

variable {σ μ : Type}

namespace Forwarder

section Refusing

theorem SameTables.refl (s : Forwarder σ μ) : s.SameTables s :=
  ⟨rfl, rfl, rfl, rfl, rfl, rfl, rfl, rfl, rfl, rfl, rfl⟩

theorem SameTables.symm {a b : Forwarder σ μ} (h : a.SameTables b) : b.SameTables a :=
  ⟨h.routes.symm, h.proxy.symm, h.proxyBroken.symm, h.stack.symm, h.flows.symm, h.udp.symm,
    h.socksUdp.symm, h.dnsTcp.symm, h.dnsTls.symm, h.nextToken.symm, h.egress.symm⟩

theorem SameTables.trans {a b c : Forwarder σ μ} (hab : a.SameTables b) (hbc : b.SameTables c) :
    a.SameTables c where
  routes := hbc.routes.trans hab.routes
  proxy := hbc.proxy.trans hab.proxy
  proxyBroken := hbc.proxyBroken.trans hab.proxyBroken
  stack := hbc.stack.trans hab.stack
  flows := hbc.flows.trans hab.flows
  udp := hbc.udp.trans hab.udp
  socksUdp := hbc.socksUdp.trans hab.socksUdp
  dnsTcp := hbc.dnsTcp.trans hab.dnsTcp
  dnsTls := hbc.dnsTls.trans hab.dnsTls
  nextToken := hbc.nextToken.trans hab.nextToken
  egress := hbc.egress.trans hab.egress

theorem sameTables_push (s : Forwarder σ μ) (es : List Event) : s.SameTables (s.push es) :=
  ⟨rfl, rfl, rfl, rfl, rfl, rfl, rfl, rfl, rfl, rfl, rfl⟩

theorem sameTables_send (s : Forwarder σ μ) (packets : List Outbound) :
    s.SameTables (s.send packets) :=
  ⟨rfl, rfl, rfl, rfl, rfl, rfl, rfl, rfl, rfl, rfl, rfl⟩

theorem sameTables_judge (s : Forwarder σ μ) (d : Decoded) (proto : UInt8) (owner : ℤ) :
    s.SameTables (s.judge d proto owner).2 :=
  ⟨rfl, rfl, rfl, rfl, rfl, rfl, rfl, rfl, rfl, rfl, rfl⟩

theorem sameTables_reject (s : Forwarder σ μ) (d : Decoded) (uid : ℤ) :
    s.SameTables (s.reject d uid) :=
  sameTables_push s _

theorem sameTables_refuse (w : Wire) (s : Forwarder σ μ) (packet : Bytes) (d : Decoded)
    (uid : ℤ) : s.SameTables (s.refuse w packet d uid) :=
  ⟨rfl, rfl, rfl, rfl, rfl, rfl, rfl, rfl, rfl, rfl, rfl⟩

variable [TcpSocket σ] (w : Wire)

/-- With unusable proxy settings a packet changes no session. -/
theorem sameTables_onTunPacket (s : Forwarder σ μ) (packet : Bytes) (owner : ℤ)
    (hbroken : s.proxyBroken = true) : s.SameTables (s.onTunPacket w packet owner) := by
  unfold onTunPacket
  cases decode packet with
  | none => exact .refl s
  | some d =>
    dsimp only
    split
    · have hv := sameTables_judge s d protoTcp owner
      unfold onTcp
      extract_lets v t r
      rw [if_pos (show t.proxyBroken = true from hbroken)]
      split_ifs
      · exact hv.trans (sameTables_refuse w t packet d _)
      · exact hv.trans (sameTables_refuse w t packet d _)
    · have hv := sameTables_judge s d protoUdp owner
      unfold onUdp
      split_ifs
      · exact sameTables_push s _
      · extract_lets v t isDns
        rw [if_pos (show t.proxyBroken = true from hbroken)]
        split_ifs
        · exact hv.trans (sameTables_reject t d _)
        · exact hv.trans (sameTables_reject t d _)
    · split_ifs
      · exact ⟨rfl, rfl, rfl, rfl, rfl, rfl, rfl, rfl, rfl, rfl, rfl⟩
      · exact sameTables_push s _

end Refusing

section Idle

section Reapers

variable {s : Forwarder σ μ}

theorem reapUdp_of_empty (h : s.udp = ∅) : s.reapUdp = s := by
  unfold reapUdp
  rw [h]
  rfl

theorem reapSocks_of_empty (h : s.socksUdp = ∅) : s.reapSocks = s := by
  unfold reapSocks
  rw [h]
  rfl

theorem reapDnsTcp_of_empty (h : s.dnsTcp = ∅) : s.reapDnsTcp = s := by
  unfold reapDnsTcp
  rw [h]
  rfl

theorem reapDnsTls_of_empty (h : s.dnsTls = ∅) : s.reapDnsTls = s := by
  unfold reapDnsTls
  rw [h]
  rfl

end Reapers

variable [TcpSocket σ] [Splice μ]

/-- The forwarder has no session and no flow, and never had one. -/
def Idle (config : Config μ) (s : Forwarder σ μ) : Prop := (new config).SameTables s

theorem Idle.service {config : Config μ} {s : Forwarder σ μ} (h : s.Idle config)
    (polls : FlowId → Poll σ) {order : List FlowId} (horder : order.Perm (s.activeFlows polls))
    (emitted : List Bytes) : (s.service polls order emitted).Idle config := by
  have hpoll : s.pollSockets polls = s := by
    unfold pollSockets
    rw [show s.flows = ∅ from h.flows]
    rfl
  have hsweep : s.sweepClosed = s := by
    unfold sweepClosed closedFlows
    rw [show s.stack.flows = ∅ by rw [h.stack]; rfl]
    rfl
  have hnil : order = [] := by
    unfold activeFlows at horder
    rw [hpoll, hsweep, show s.stack.flows = ∅ by rw [h.stack]; rfl] at horder
    exact horder.eq_nil
  have hproxy : s.reapProxyHandshakes = s := by
    unfold reapProxyHandshakes
    rw [show s.flows = ∅ from h.flows]
    extract_lets t
    have ht : t = s := rfl
    rw [ht, show s.socksUdp = ∅ from h.socksUdp]
    rfl
  have hsni : s.reapPendingSni = s := by
    unfold reapPendingSni
    rw [show s.flows = ∅ from h.flows]
    rfl
  unfold Forwarder.service
  rw [hpoll, hsweep, hnil]
  extract_lets a b c
  have hb : b = s := rfl
  have hc : c = s := by
    change s.reapUdp.reapSocks.reapDnsTcp.reapDnsTls = s
    rw [reapUdp_of_empty h.udp, reapSocks_of_empty h.socksUdp, reapDnsTcp_of_empty h.dnsTcp,
      reapDnsTls_of_empty h.dnsTls]
  rw [hc, hproxy, hsni]
  exact h.trans (sameTables_send s _)

theorem Idle.onReady {config : Config μ} {s : Forwarder σ μ} (h : s.Idle config) (token : Token)
    (event : Flow.Readiness) : ((s.deliver token event).onReady token event).Idle config := by
  have hroute : s.shared.routes.lookup token = none := by
    rw [h.routes]
    rfl
  have hdeliver : s.deliver token event = s := by
    unfold deliver
    rw [hroute]
  rw [hdeliver]
  unfold Forwarder.onReady
  rw [hroute]
  exact h

omit [TcpSocket σ] [Splice μ] in
theorem Idle.arrive {config : Config μ} {s : Forwarder σ μ} (h : s.Idle config) (token : Token)
    (a : Arrival) : (s.arrive token a).Idle config := by
  unfold Forwarder.arrive
  rw [show s.shared.routes.lookup token = none by rw [h.routes]; rfl]
  exact h

/-- With unusable proxy settings there is never a session. -/
theorem idle_of_reachable {w : Wire} {config : Config μ} (hbroken : config.proxyBroken = true)
    {s : Forwarder σ μ} (h : (automaton w config).Reachable s) : s.Idle config := by
  have hkeep : (automaton w config).Keeps (Idle config : Forwarder σ μ → Prop) := by
    intro s a s' hs hstep
    cases a with
    | packet packet owner =>
      obtain rfl := Option.some.inj hstep
      have hb : s.proxyBroken = true := hs.proxyBroken.trans hbroken
      exact hs.trans (sameTables_onTunPacket w s packet owner hb)
    | ready token event =>
      obtain rfl := Option.some.inj hstep
      exact hs.onReady token event
    | service polls order emitted =>
      simp only [automaton, step] at hstep
      split_ifs at hstep with horder
      obtain rfl := Option.some.inj hstep
      exact hs.service polls horder emitted
    | command c =>
      obtain rfl := Option.some.inj hstep
      refine hs.trans ?_
      cases c <;> exact ⟨rfl, rfl, rfl, rfl, rfl, rfl, rfl, rfl, rfl, rfl, rfl⟩
    | elapse ms =>
      obtain rfl := Option.some.inj hstep
      exact hs.trans ⟨rfl, rfl, rfl, rfl, rfl, rfl, rfl, rfl, rfl, rfl, rfl⟩
    | arrive token a =>
      obtain rfl := Option.some.inj hstep
      exact hs.arrive token a
    | answers dials relayConnects =>
      obtain rfl := Option.some.inj hstep
      exact hs.trans ⟨rfl, rfl, rfl, rfl, rfl, rfl, rfl, rfl, rfl, rfl, rfl⟩
    | splices c =>
      obtain rfl := Option.some.inj hstep
      exact hs.trans ⟨rfl, rfl, rfl, rfl, rfl, rfl, rfl, rfl, rfl, rfl, rfl⟩
  exact hkeep.reachable (.refl _) h

end Idle

section Proxied

variable [TcpSocket σ] [Splice μ] {P : Egress → Prop} {C : Causes} {s s' : Forwarder σ μ}

/-- What leaves the device is added to the record of it. -/
theorem Act.egress (hact : Act P C s s') :
    ∃ es, s'.egress = s.egress ++ es ∧ ∀ e ∈ es, P e := by
  have hnone : s.egress = s.egress ++ [] ∧ ∀ e ∈ ([] : List Egress), P e :=
    ⟨(List.append_nil _).symm, by simp⟩
  cases hact with
  | same _ hs _ => exact ⟨[], hs.egress.trans hnone.1, hnone.2⟩
  | emit es hes => exact ⟨es, rfl, hes⟩
  | remove id _ _ =>
    unfold removeFlow
    split <;> exact ⟨[], hnone⟩
  | _ => exact ⟨[], hnone⟩

theorem egress_of_acts (hacts : Acts P C s s') :
    ∃ es, s'.egress = s.egress ++ es ∧ ∀ e ∈ es, P e := by
  induction hacts with
  | refl => exact ⟨[], (List.append_nil _).symm, by simp⟩
  | tail _ hact ih =>
    obtain ⟨es, hes, hP⟩ := ih
    obtain ⟨es', hes', hP'⟩ := hact.egress
    refine ⟨es ++ es', by rw [hes', hes, List.append_assoc], fun e he => ?_⟩
    rcases List.mem_append.mp he with he | he
    · exact hP e he
    · exact hP' e he

variable [LawfulSplice μ] {w : Wire} {config : Config μ}

/-- What may leave the device for a proxy on the run `as`: connections to it, datagrams to the
relay that it has announced on the control connection of an association, and whatever a DNS packet
makes that it is not to carry. -/
def Proxied (w : Wire) (config : Config μ) (p : Proxy) (as : List (Input σ μ))
    (s : Forwarder σ μ) (a : Input σ μ) (e : Egress) : Prop :=
  e = .tcp p.addr ∨
    (∃ key u relay wire, e = .relayed relay wire ∧ s.socksUdp.lookup key = some u ∧
      Announced w config p as u.ctrlToken relay) ∨
    ∃ packet owner, a = .packet packet owner ∧ DirectDns s packet

/-- With unusable proxy settings nothing leaves the device, and there is no session. With a proxy
nothing leaves it but to the proxy, except on a DNS packet while the proxy does not carry DNS. -/
theorem no_leak_around_proxy {as : List (Input σ μ)} {a : Input σ μ}
    (h : (automaton w config).run as = some s) (hstep : step w s a = some s') :
    (config.proxyBroken = true →
      s'.egress = [] ∧ s'.nextToken = firstDynamicToken ∧ s'.shared.routes = ∅) ∧
    ∀ p, config.proxy = some p →
      ∃ es, s'.egress = s.egress ++ es ∧ ∀ e ∈ es, Proxied w config p as s a e := by
  have hreach : (automaton w config).Reachable s := ⟨as, h⟩
  constructor
  · intro hbroken
    have hidle : s'.Idle config := idle_of_reachable hbroken (hreach.step hstep)
    exact ⟨hidle.egress, hidle.nextToken, hidle.routes⟩
  · intro p hp
    have hproxy : s.shared.proxy = some p := (proxy_of_reachable hreach).trans hp
    have hrel : s.MayRelay (Proxied w config p as s a) := by
      intro key u relay hu hr wire
      rw [hproxy] at hr
      exact Or.inr (Or.inl ⟨key, u, relay, wire, rfl, hu, (traced_of_run hp h key u hu).announced hr⟩)
    have hacts : Acts (Proxied w config p as s a) .any s s' := by
      refine acts_step hstep (fun packet owner ha _ => ⟨fun q hq => ?_, hrel, fun hdirect e => ?_⟩)
        hrel (fun _ _ _ => trivial) trivial trivial trivial
      · rw [hproxy] at hq
        obtain rfl := Option.some.inj hq
        exact Or.inl rfl
      · rcases hdirect with hnone | hdns
        · rw [hproxy] at hnone
          cases hnone
        · exact Or.inr (Or.inr ⟨packet, owner, ha, hdns⟩)
    exact egress_of_acts hacts

end Proxied

/-- A SOCKS5 proxy at 10.0.0.1:1080 that asks for no password. -/
def socksProxy : Proxy := ⟨.socks5, ⟨.ofOctets 10 0 0 1, 1080⟩, [], none, none⟩

def socksConfig : Config μ := { plainConfig with proxy := some socksProxy }

/-- News of a connection that all is written on. -/
def saying (bytes : Bytes) : Arrival :=
  ⟨⟨bytes, false, false, false, [.accepted 100, .accepted 100], []⟩, []⟩

/-- A datagram waits for its association, and the proxy chooses a method. -/
def associates : List (Input PlainSocket PlainSplice) :=
  [.answers [.opened, .opened] true, .packet (udpPacket 80) 10,
    .arrive 16 (saying [0x05, 0x00]), .ready 16 ⟨true, true, false, false⟩,
    .arrive 16 (saying [0x05, 0x00, 0x00, 0x01, 10, 0, 0, 7, 0x1F, 0x90])]

/-- The proxy is dialed for a datagram, which leaves for the relay once that is announced. -/
theorem no_leak_around_proxy_socks :
    ∃ s s' : Forwarder PlainSocket PlainSplice,
      (automaton .plain socksConfig).run associates = some s ∧
      step .plain s (.ready 16 ⟨true, true, false, false⟩) = some s' ∧
      s'.egress = [.tcp socksProxy.addr, .relayed ⟨.ofOctets 10 0 0 7, 8080⟩
        (socks5UdpEncapsulate ⟨.ofOctets 9 9 9 9, 80⟩ [7])] ∧
      ∃ es, s'.egress = s.egress ++ es ∧ ∀ e ∈ es, Proxied .plain socksConfig socksProxy associates
        s (.ready 16 ⟨true, true, false, false⟩) e := by
  refine ⟨_, _, rfl, rfl, by decide +kernel, ?_⟩
  have hrun : (automaton .plain socksConfig).run associates = some _ := rfl
  exact (no_leak_around_proxy hrun rfl).2 socksProxy rfl

end Forwarder

end Adwarden.Core
