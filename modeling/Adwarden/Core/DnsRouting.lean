import Adwarden.Core.ProxyLeak
import Adwarden.Core.SocksCodec

/-! Where DNS queries are sent. A change of the DNS upstream takes effect on the next query,
unless a session that was made for another upstream takes it. -/
namespace Adwarden.Core
open Relation Adwarden.Lib Adwarden.Net Adwarden.Tls Adwarden.Dns

variable {σ μ : Type}

theorem encapsulate_inj {t t' : SocketAddr} {p : Bytes}
    (h : socks5UdpEncapsulate t p = socks5UdpEncapsulate t' p) : t = t' := by
  have hread := congrArg socks5UdpDecapsulate h
  rw [socks5UdpDecapsulate_encapsulate, socks5UdpDecapsulate_encapsulate] at hread
  exact (Prod.mk.inj (Option.some.inj hread)).1

namespace Forwarder

/-- A DNS query is carried by the proxy. -/
def dnsOverProxy (s : Forwarder σ μ) : Bool := s.shared.proxy.isSome && s.proxyDnsOverTcp

/-- A DNS query goes through an association with the proxy. -/
def dnsOverSocks (s : Forwarder σ μ) : Bool :=
  s.dnsOverProxy && s.shared.proxy.map Proxy.supportsUdp == some true && !s.socksUdpUnsupported

/-- What may be sent for a query: everything goes to the upstream that is configured, in the
configured transport, or to the proxy for that upstream. -/
def MayCarry (s : Forwarder σ μ) (dgram : UdpDatagram) : Egress → Prop
  | .udp peer =>
    s.dnsOverProxy = false ∧ s.dnsTransport = .plain ∧ peer = s.dnsUpstream dgram.dst
  | .datagram peer payload =>
    s.dnsOverProxy = false ∧ s.dnsTransport = .plain ∧ peer = s.dnsUpstream dgram.dst ∧
      payload = dgram.payload
  | .tcp peer =>
    if s.dnsOverProxy then s.shared.proxy.map Proxy.addr = some peer
    else s.dnsTransport ≠ .plain ∧ peer = s.dnsUpstream dgram.dst
  | .relayed _ wire =>
    s.dnsOverProxy = true ∧
      wire = socks5UdpEncapsulate (s.dnsUpstreamPlain dgram.dst) dgram.payload

/-- The lookups that are started are for the configured transport. -/
def CarriedOver (s : Forwarder σ μ) : DnsTlsMode → Prop
  | .dot => s.dnsTransport = .dot
  | .doh => s.dnsTransport = .doh

def dgramKey (dgram : UdpDatagram) : UdpKey := ⟨dgram.src, dgram.dst⟩

/-- What a lookup over TLS sends for a query. -/
def queryWire (s : Forwarder σ μ) (payload : Bytes) : DnsTlsMode → Bytes
  | .dot => lengthPrefixed payload
  | .doh => postWire (s.dnsHost.getD []) (s.dnsPath.getD (Str.lit "/dns-query")) payload

/-- The query has been taken on: it is sent, it waits on an association, or a new lookup is to
send it, toward the upstream that is configured. -/
inductive Taken (s s' : Forwarder σ μ) (dgram : UdpDatagram) : Prop
  | sent (h : .datagram (s.dnsUpstream dgram.dst) dgram.payload ∈
      s'.egress.drop s.egress.length)
  | relayed {relay : SocketAddr}
      (h : .relayed relay (socks5UdpEncapsulate (s.dnsUpstreamPlain dgram.dst) dgram.payload) ∈
        s'.egress.drop s.egress.length)
  | queued {u' : Socks5UdpSession} (h : s'.socksUdp.lookup (dgramKey dgram) = some u')
      (htarget : u'.target = s.dnsUpstreamPlain dgram.dst)
      (hpending : u'.pending =
        ((s.socksUdp.lookup (dgramKey dgram)).map Socks5UdpSession.pending).getD [] ++
          [dgram.payload])
  | proxied {token : Token} {job : DnsTcpJob} (hnew : s.dnsTcp.lookup token = none)
      (h : s'.dnsTcp.lookup token = some job)
      (htarget : job.handshake.map Handshake.target = some (s.dnsUpstreamPlain dgram.dst))
      (hsend : job.toSend = lengthPrefixed dgram.payload)
  | encrypted {token : Token} {job : DnsTlsJob} (hnew : s.dnsTls.lookup token = none)
      (h : s'.dnsTls.lookup token = some job) (hmode : s.CarriedOver job.mode)
      (hsend : job.toSend = s.queryWire dgram.payload job.mode)
      (hdial : .tcp (s.dnsUpstream dgram.dst) ∈ s'.egress.drop s.egress.length)

/-- The query is taken on, and whatever a step does for it, it does toward the upstream that is
configured: what it sends, what it queues on an association, and the lookups it starts. -/
structure Directed (s s' : Forwarder σ μ) (dgram : UdpDatagram) : Prop where
  taken : Taken s s' dgram
  sent : ∀ e ∈ s'.egress.drop s.egress.length, s.MayCarry dgram e
  queued : ∀ u', s'.socksUdp.lookup (dgramKey dgram) = some u' →
    u'.pending ≠
      ((s.socksUdp.lookup (dgramKey dgram)).map Socks5UdpSession.pending).getD [] →
    u'.target = s.dnsUpstreamPlain dgram.dst
  proxied : ∀ token job, s'.dnsTcp.lookup token = some job → s.dnsTcp.lookup token = none →
    job.handshake.map Handshake.target = some (s.dnsUpstreamPlain dgram.dst)
  encrypted : ∀ token job, s'.dnsTls.lookup token = some job → s.dnsTls.lookup token = none →
    s.CarriedOver job.mode

/-- No session on the path of the query was made for another upstream. -/
structure Unpinned (s : Forwarder σ μ) (dgram : UdpDatagram) : Prop where
  udp : s.dnsOverProxy = false → s.dnsTransport = .plain →
    ∀ u, s.udp.lookup (dgramKey dgram) = some u → u.peer = s.dnsUpstream dgram.dst
  socks : s.dnsOverSocks = true →
    ∀ u, s.socksUdp.lookup (dgramKey dgram) = some u → u.target = s.dnsUpstreamPlain dgram.dst

/-- The system opens the next `n` sockets that it is asked for. -/
def Opens (s : Forwarder σ μ) (n : ℕ) : Prop := List.replicate n .opened <+: s.dials

/-- There is room for the query on its path: its sockets open, and no table or queue is full. -/
structure Room (s : Forwarder σ μ) (dgram : UdpDatagram) : Prop where
  udp : s.dnsOverProxy = false → s.dnsTransport = .plain →
    s.udp.lookup (dgramKey dgram) = none → s.Opens 1
  association : s.dnsOverSocks = true → s.socksUdp.lookup (dgramKey dgram) = none → s.Opens 2
  pending : s.dnsOverSocks = true → ∀ u, s.socksUdp.lookup (dgramKey dgram) = some u →
    u.ready = true ∨ u.pending.length < socksUdpPendingCap
  proxied : s.dnsOverProxy = true → s.dnsOverSocks = false →
    s.dnsTcp.keys.length < dnsTcpMaxJobs ∧ dgram.payload.length ≤ 65535 ∧ s.Opens 1
  encrypted : s.dnsOverProxy = false → s.dnsTransport ≠ .plain →
    s.dnsTls.keys.length < dnsTlsMaxJobs ∧ dgram.payload.length ≤ 65535 ∧
      s.dnsHost.isSome = true ∧ s.Opens 1

/-- What every state that is reached has: a lookup is kept under a token that has been given out,
and an association that is ready has a relay. -/
structure Sound (s : Forwarder σ μ) : Prop where
  dnsTcp : s.dnsTcp.lookup s.nextToken = none
  dnsTls : s.dnsTls.lookup s.nextToken = none
  ready : s.dnsOverProxy = true → ∀ key u, s.socksUdp.lookup key = some u →
    u.ready = u.relay.isSome

section Sending

variable {s s' : Forwarder σ μ} {dgram : UdpDatagram}

/-- All that has left the device since. -/
theorem drop_egress {es : List Egress} (h : s'.egress = s.egress ++ es) :
    s'.egress.drop s.egress.length = es := by
  rw [h, List.drop_left]

/-- A step that starts no lookup. -/
theorem directed_of_queued (htcp : s'.dnsTcp = s.dnsTcp) (htls : s'.dnsTls = s.dnsTls)
    (htaken : Taken s s' dgram)
    (hsent : ∀ e ∈ s'.egress.drop s.egress.length, s.MayCarry dgram e)
    (hqueued : ∀ u', s'.socksUdp.lookup (dgramKey dgram) = some u' →
      u'.pending ≠
        ((s.socksUdp.lookup (dgramKey dgram)).map Socks5UdpSession.pending).getD [] →
      u'.target = s.dnsUpstreamPlain dgram.dst) : Directed s s' dgram where
  taken := htaken
  sent := hsent
  queued := hqueued
  proxied := by
    intro token job hjob hnone
    rw [htcp, hnone] at hjob
    cases hjob
  encrypted := by
    intro token job hjob hnone
    rw [htls, hnone] at hjob
    cases hjob

/-- A step that leaves associations and lookups alone. -/
theorem directed_of_sent (hsocks : s'.socksUdp = s.socksUdp) (htcp : s'.dnsTcp = s.dnsTcp)
    (htls : s'.dnsTls = s.dnsTls) (htaken : Taken s s' dgram)
    (hsent : ∀ e ∈ s'.egress.drop s.egress.length, s.MayCarry dgram e) :
    Directed s s' dgram := by
  refine directed_of_queued htcp htls htaken hsent fun u' hu' hne => ?_
  rw [hsocks] at hu'
  rw [hu'] at hne
  exact absurd rfl hne

/-- A step that does no more than dial has dropped the query. -/
theorem not_directed_of_dialed {es : List Egress} (hsocks : s'.socksUdp = s.socksUdp)
    (htcp : s'.dnsTcp = s.dnsTcp) (htls : s'.dnsTls = s.dnsTls)
    (hegress : s'.egress = s.egress ++ es)
    (hes : ∀ e ∈ es, ∃ peer, e = .tcp peer ∨ e = .udp peer) : ¬ Directed s s' dgram := by
  intro h
  cases h.taken with
  | sent h =>
    rw [drop_egress hegress] at h
    obtain ⟨peer, h | h⟩ := hes _ h <;> cases h
  | relayed h =>
    rw [drop_egress hegress] at h
    obtain ⟨peer, h | h⟩ := hes _ h <;> cases h
  | queued hu _ hpending =>
    rw [hsocks] at hu
    rw [hu] at hpending
    simp at hpending
  | proxied hnew h =>
    rw [htcp, hnew] at h
    cases h
  | encrypted hnew h =>
    rw [htls, hnew] at h
    cases h

theorem not_directed_self : ¬ Directed s s dgram := by
  have hegress : s.egress = s.egress ++ [] := (List.append_nil _).symm
  exact not_directed_of_dialed rfl rfl rfl hegress (by simp)

theorem opens_one_iff : s.Opens 1 ↔ ∃ dials, s.dials = .opened :: dials := by
  unfold Opens
  constructor
  · rintro ⟨dials, h⟩
    exact ⟨dials, h.symm⟩
  · rintro ⟨dials, h⟩
    exact ⟨dials, h.symm⟩

theorem opens_two_iff : s.Opens 2 ↔ ∃ dials, s.dials = .opened :: .opened :: dials := by
  unfold Opens
  constructor
  · rintro ⟨dials, h⟩
    exact ⟨dials, h.symm⟩
  · rintro ⟨dials, h⟩
    exact ⟨dials, h.symm⟩

/-- What dialing can do: the socket opens, or the attempt may have been made. -/
inductive Dialed (s : Forwarder σ μ) (record : Egress) : Option Token × Forwarder σ μ → Prop
  | opened {dials : List Dial} (h : s.dials = .opened :: dials) :
    Dialed s record (some s.nextToken, ((s.emit [record]).setDials dials).skipToken)
  | failed {es : List Egress} {dials : List Dial} {n : Token}
      (hclosed : ∀ dials, s.dials ≠ .opened :: dials) (hes : ∀ e ∈ es, e = record) :
    Dialed s record (none, { s.emit es with dials := dials, nextToken := n })

theorem dialed_dial (s : Forwarder σ μ) (record : Egress) : Dialed s record (s.dial record) := by
  have hemit : s.emit [] = s := by
    unfold emit
    rw [List.append_nil]
  unfold dial
  split
  · next h =>
    have hfailed := @Dialed.failed _ _ s record [] s.dials s.nextToken (by simp [h]) (by simp)
    rwa [hemit] at hfailed
  · next dials h =>
    have hfailed := @Dialed.failed _ _ s record [] dials s.nextToken (by simp [h]) (by simp)
    rwa [hemit] at hfailed
  · next dials h => exact .failed (by simp [h]) (by simp)
  · next dials h => exact .failed (by simp [h]) (by simp)
  · next dials h => exact .opened h

/-- A session of the NAT sends to the peer it was made for. -/
theorem directed_forwardUdp_iff (hproxy : s.dnsOverProxy = false)
    (hplain : s.dnsTransport = .plain) :
    Directed s (s.forwardUdp dgram (s.dnsUpstream dgram.dst)) dgram ↔
      (∀ u, s.udp.lookup (dgramKey dgram) = some u → u.peer = s.dnsUpstream dgram.dst) ∧
        (s.udp.lookup (dgramKey dgram) = none → s.Opens 1) := by
  have hkey : (⟨dgram.src, dgram.dst⟩ : UdpKey) = dgramKey dgram := rfl
  unfold forwardUdp
  rw [hkey]
  dsimp only
  cases hu : s.udp.lookup (dgramKey dgram) with
  | some u =>
    rw [if_pos (show (some u).isSome = true from rfl)]
    unfold sendUdp
    rw [hu]
    constructor
    · intro h
      refine ⟨fun u' hu' => ?_, fun hnone => by cases hnone⟩
      obtain rfl := Option.some.inj hu'
      have hsent := h.sent (.datagram u.peer dgram.payload)
      rw [drop_egress rfl] at hsent
      exact (hsent (List.mem_singleton_self _)).2.2.1
    · rintro ⟨hpeer, -⟩
      have hpeer := hpeer u rfl
      refine directed_of_sent rfl rfl rfl (.sent ?_) fun e he => ?_
      · rw [drop_egress rfl, hpeer]
        exact List.mem_singleton_self _
      · rw [drop_egress rfl] at he
        rw [List.mem_singleton.mp he]
        exact ⟨hproxy, hplain, hpeer, rfl⟩
  | none =>
    rw [if_neg (by simp)]
    unfold connectUdp
    have hd := s.dialed_dial (.udp (s.dnsUpstream dgram.dst))
    generalize s.dial (.udp (s.dnsUpstream dgram.dst)) = r at hd
    cases hd with
    | failed hclosed hes =>
      refine iff_of_false (not_directed_of_dialed rfl rfl rfl rfl fun e he => ?_) ?_
      · exact ⟨_, Or.inr (hes e he)⟩
      · rintro ⟨-, hopens⟩
        obtain ⟨dials, h⟩ := opens_one_iff.mp (hopens rfl)
        exact hclosed dials h
    | @opened dials h =>
      refine iff_of_true ?_ ⟨by simp, fun _ => opens_one_iff.mpr ⟨dials, h⟩⟩
      dsimp only
      unfold sendUdp
      simp only [AList.lookup_insert]
      have hegress := List.append_assoc s.egress [.udp (s.dnsUpstream dgram.dst)]
        [.datagram (s.dnsUpstream dgram.dst) dgram.payload]
      refine directed_of_sent rfl rfl rfl (.sent ?_) fun e he => ?_
      · rw [drop_egress hegress]
        exact List.mem_append_right _ (List.mem_singleton_self _)
      · rw [drop_egress hegress] at he
        rcases List.mem_append.mp he with he | he
        · rw [List.mem_singleton.mp he]
          exact ⟨hproxy, hplain, rfl⟩
        · rw [List.mem_singleton.mp he]
          exact ⟨hproxy, hplain, rfl, rfl⟩

theorem directed_forwardDnsTls_iff (hsound : s.Sound) (hproxy : s.dnsOverProxy = false)
    (hplain : s.dnsTransport ≠ .plain) :
    Directed s (s.forwardDnsTls dgram (s.dnsUpstream dgram.dst)) dgram ↔
      s.dnsTls.keys.length < dnsTlsMaxJobs ∧ dgram.payload.length ≤ 65535 ∧
        s.dnsHost.isSome = true ∧ s.Opens 1 := by
  unfold forwardDnsTls
  extract_lets mode?
  obtain ⟨mode, hmode, hcarried⟩ : ∃ mode, mode? = some mode ∧ s.CarriedOver mode := by
    cases ht : s.dnsTransport with
    | plain => exact absurd ht hplain
    | dot => exact ⟨.dot, by simp only [mode?, ht], ht⟩
    | doh => exact ⟨.doh, by simp only [mode?, ht], ht⟩
  rw [hmode]
  by_cases hfull : dnsTlsMaxJobs ≤ s.dnsTls.keys.length ∨ 65535 < dgram.payload.length
  · rw [if_pos hfull]
    refine iff_of_false not_directed_self ?_
    rintro ⟨hroom, hsize, -⟩
    omega
  · rw [if_neg hfull]
    push Not at hfull
    cases hhost : s.dnsHost with
    | none => exact iff_of_false not_directed_self (by simp)
    | some host =>
      unfold connectDnsTls
      have hd := s.dialed_dial (.tcp (s.dnsUpstream dgram.dst))
      generalize s.dial (.tcp (s.dnsUpstream dgram.dst)) = r at hd
      cases hd with
      | failed hclosed hes =>
        refine iff_of_false (not_directed_of_dialed rfl rfl rfl rfl fun e he => ?_) ?_
        · exact ⟨_, Or.inl (hes e he)⟩
        · rintro ⟨-, -, -, hopens⟩
          obtain ⟨dials, h⟩ := opens_one_iff.mp hopens
          exact hclosed dials h
      | @opened dials h =>
        refine iff_of_true ?_ ⟨hfull.1, hfull.2, rfl, opens_one_iff.mpr ⟨dials, h⟩⟩
        refine ⟨.encrypted hsound.dnsTls (AList.lookup_insert _) hcarried ?_ ?_, fun e he => ?_,
          fun u' hu' hne => ?_, fun t job hjob hnone => ?_, fun t job hjob hnone => ?_⟩
        · unfold queryWire
          rw [hhost]
          cases mode <;> rfl
        · rw [drop_egress rfl]
          exact List.mem_singleton_self _
        · rw [drop_egress rfl] at he
          rw [List.mem_singleton.mp he]
          simp [MayCarry, hproxy, hplain]
        · exact absurd (by rw [show s.socksUdp.lookup _ = some u' from hu']; rfl) hne
        · cases hnone.symm.trans hjob
        · rcases of_lookup_insert hjob with ⟨-, rfl⟩ | hjob
          · exact hcarried
          · cases hnone.symm.trans hjob

theorem directed_forwardDnsOverProxy_iff (hsound : s.Sound) (hproxy : s.dnsOverProxy = true) :
    Directed s (s.forwardDnsOverProxy dgram (s.dnsUpstreamPlain dgram.dst)) dgram ↔
      s.dnsTcp.keys.length < dnsTcpMaxJobs ∧ dgram.payload.length ≤ 65535 ∧ s.Opens 1 := by
  unfold forwardDnsOverProxy
  by_cases hfull : dnsTcpMaxJobs ≤ s.dnsTcp.keys.length ∨ 65535 < dgram.payload.length
  · rw [if_pos hfull]
    refine iff_of_false not_directed_self ?_
    rintro ⟨hroom, hsize, -⟩
    omega
  · rw [if_neg hfull]
    push Not at hfull
    cases hp : s.shared.proxy with
    | none => simp [dnsOverProxy, hp] at hproxy
    | some p =>
      unfold connectTcp
      simp only [hp, Option.map_some, Option.getD_some]
      have hd := s.dialed_dial (.tcp p.addr)
      generalize s.dial (.tcp p.addr) = r at hd
      cases hd with
      | failed hclosed hes =>
        refine iff_of_false (not_directed_of_dialed rfl rfl rfl rfl fun e he => ?_) ?_
        · exact ⟨_, Or.inl (hes e he)⟩
        · rintro ⟨-, -, hopens⟩
          obtain ⟨dials, h⟩ := opens_one_iff.mp hopens
          exact hclosed dials h
      | @opened dials h =>
        refine iff_of_true ?_ ⟨hfull.1, hfull.2, opens_one_iff.mpr ⟨dials, h⟩⟩
        refine ⟨.proxied hsound.dnsTcp (AList.lookup_insert _) rfl rfl, fun e he => ?_,
          fun u' hu' hne => ?_, fun t job hjob hnone => ?_, fun t job hjob hnone => ?_⟩
        · rw [drop_egress rfl] at he
          rw [List.mem_singleton.mp he]
          simp [MayCarry, hproxy, hp]
        · exact absurd (by rw [show s.socksUdp.lookup _ = some u' from hu']; rfl) hne
        · rcases of_lookup_insert hjob with ⟨-, rfl⟩ | hjob
          · rfl
          · cases hnone.symm.trans hjob
        · cases hnone.symm.trans hjob

/-- The control connection of a new association is dialed, its relay socket made, and its first
datagram queued. -/
theorem directed_newAssociation_iff (hproxy : s.dnsOverProxy = true)
    (hnone : s.socksUdp.lookup (dgramKey dgram) = none) :
    Directed s (s.forwardUdpSocks dgram (s.dnsUpstreamPlain dgram.dst)) dgram ↔ s.Opens 2 := by
  unfold forwardUdpSocks
  extract_lets key
  rw [show s.socksUdp.lookup key = none from hnone]
  dsimp only
  cases hp : s.shared.proxy with
  | none => simp [dnsOverProxy, hp] at hproxy
  | some p =>
    unfold connectSocksCtrl
    rw [hp]
    dsimp only
    have hd := s.dialed_dial (.tcp p.addr)
    generalize s.dial (.tcp p.addr) = r at hd
    cases hd with
    | failed hclosed hes =>
      refine iff_of_false (not_directed_of_dialed rfl rfl rfl rfl fun e he => ?_) ?_
      · exact ⟨_, Or.inl (hes e he)⟩
      · intro hopens
        obtain ⟨dials, h⟩ := opens_two_iff.mp hopens
        exact hclosed _ h
    | @opened dials h =>
      have hproxy' : (((s.emit [.tcp p.addr]).setDials dials).skipToken).shared.proxy = some p := hp
      dsimp only
      unfold newRelaySocket
      rw [hproxy']
      have hdials : (((s.emit [.tcp p.addr]).setDials dials).skipToken).dials = dials := rfl
      rw [hdials]
      have hdropped {t : Forwarder σ μ} (hclosed : ∀ rest, dials ≠ .opened :: rest)
          (hsocks : t.socksUdp = s.socksUdp) (htcp : t.dnsTcp = s.dnsTcp)
          (htls : t.dnsTls = s.dnsTls) (hegress : t.egress = s.egress ++ [.tcp p.addr]) :
          Directed s t dgram ↔ s.Opens 2 := by
        refine iff_of_false (not_directed_of_dialed hsocks htcp htls hegress fun e he => ?_) ?_
        · exact ⟨_, Or.inl (List.mem_singleton.mp he)⟩
        · intro hopens
          obtain ⟨rest, h'⟩ := opens_two_iff.mp hopens
          rw [h] at h'
          exact hclosed rest (List.cons.inj h').2
      rcases dials with _ | ⟨dial, rest⟩
      · exact hdropped (by simp) rfl rfl rfl rfl
      · cases dial with
        | refused => exact hdropped (by simp) rfl rfl rfl rfl
        | lost allocated => cases allocated <;> exact hdropped (by simp) rfl rfl rfl rfl
        | opened =>
          refine iff_of_true ?_ (opens_two_iff.mpr ⟨rest, h⟩)
          refine directed_of_queued rfl rfl (.queued (AList.lookup_insert _) rfl ?_)
            (fun e he => ?_) fun u' hu' _ => ?_
          · rw [hnone]
            rfl
          · rw [drop_egress rfl] at he
            rw [List.mem_singleton.mp he]
            simp [MayCarry, hproxy, hp]
          · obtain rfl := Option.some.inj ((AList.lookup_insert _).symm.trans hu')
            rfl

section Associations

variable {u : Socks5UdpSession}

/-- An association that is ready sends the query to the target it was made for. -/
theorem directed_readyAssociation_iff (hsound : s.Sound) (hproxy : s.dnsOverProxy = true)
    (hu : s.socksUdp.lookup (dgramKey dgram) = some u) (hready : u.ready = true) :
    Directed s (s.forwardUdpSocks dgram (s.dnsUpstreamPlain dgram.dst)) dgram ↔
      u.target = s.dnsUpstreamPlain dgram.dst := by
  have hsome := hsound.ready hproxy _ u hu
  rw [hready] at hsome
  obtain ⟨relay, hrelay⟩ := Option.isSome_iff_exists.mp hsome.symm
  unfold forwardUdpSocks
  extract_lets key
  rw [show s.socksUdp.lookup key = some u from hu]
  dsimp only
  rw [if_pos hready]
  constructor
  · intro h
    have hsent := h.sent (.relayed relay (socks5UdpEncapsulate u.target dgram.payload))
    rw [drop_egress rfl, hrelay] at hsent
    exact encapsulate_inj (hsent (List.mem_singleton_self _)).2
  · intro htarget
    refine directed_of_queued rfl rfl (@Taken.relayed _ _ _ _ _ relay ?_) (fun e he => ?_)
      fun u' hu' hne => ?_
    · rw [drop_egress rfl, hrelay, htarget]
      exact List.mem_singleton_self _
    · rw [drop_egress rfl] at he
      obtain ⟨relay, -, rfl⟩ := List.mem_map.mp he
      exact ⟨hproxy, by rw [htarget]⟩
    · obtain rfl := Option.some.inj ((AList.lookup_insert _).symm.trans hu')
      rw [hu] at hne
      exact absurd rfl hne

/-- An association in handshake queues the query for the target it was made for. -/
theorem directed_queuingAssociation_iff (hu : s.socksUdp.lookup (dgramKey dgram) = some u)
    (hready : ¬ u.ready = true) (hroom : u.pending.length < socksUdpPendingCap) :
    Directed s (s.forwardUdpSocks dgram (s.dnsUpstreamPlain dgram.dst)) dgram ↔
      u.target = s.dnsUpstreamPlain dgram.dst := by
  unfold forwardUdpSocks
  extract_lets key
  rw [show s.socksUdp.lookup key = some u from hu]
  dsimp only
  rw [if_neg hready, if_pos hroom]
  constructor
  · intro h
    refine h.queued { u with
      lastUsedMs := s.shared.now
      pending := u.pending ++ [dgram.payload] } (AList.lookup_insert _) ?_
    rw [hu]
    simp
  · intro htarget
    refine directed_of_queued rfl rfl (.queued (AList.lookup_insert _) htarget ?_)
      (fun e he => ?_) fun u' hu' _ => ?_
    · rw [hu]
      rfl
    · rw [drop_egress (List.append_nil _).symm] at he
      simp at he
    · obtain rfl := Option.some.inj ((AList.lookup_insert _).symm.trans hu')
      exact htarget

/-- A query that meets a full queue is dropped. -/
theorem not_directed_fullAssociation (hu : s.socksUdp.lookup (dgramKey dgram) = some u)
    (hready : ¬ u.ready = true) (hfull : ¬ u.pending.length < socksUdpPendingCap) :
    ¬ Directed s (s.forwardUdpSocks dgram (s.dnsUpstreamPlain dgram.dst)) dgram := by
  unfold forwardUdpSocks
  extract_lets key
  rw [show s.socksUdp.lookup key = some u from hu]
  dsimp only
  rw [if_neg hready, if_neg hfull]
  intro h
  cases h.taken with
  | sent h =>
    rw [drop_egress (List.append_nil _).symm] at h
    cases h
  | relayed h =>
    rw [drop_egress (List.append_nil _).symm] at h
    cases h
  | queued hu' _ hpending =>
    obtain rfl := Option.some.inj ((AList.lookup_insert _).symm.trans hu')
    rw [hu] at hpending
    simp at hpending
  | proxied hnew h => cases hnew.symm.trans h
  | encrypted hnew h => cases hnew.symm.trans h

end Associations

/-- An association keeps the target it was made for. -/
theorem directed_forwardUdpSocks_iff (hsound : s.Sound) (hproxy : s.dnsOverProxy = true) :
    Directed s (s.forwardUdpSocks dgram (s.dnsUpstreamPlain dgram.dst)) dgram ↔
      (∀ u, s.socksUdp.lookup (dgramKey dgram) = some u →
        u.target = s.dnsUpstreamPlain dgram.dst) ∧
      (s.socksUdp.lookup (dgramKey dgram) = none → s.Opens 2) ∧
      ∀ u, s.socksUdp.lookup (dgramKey dgram) = some u →
        u.ready = true ∨ u.pending.length < socksUdpPendingCap := by
  cases hu : s.socksUdp.lookup (dgramKey dgram) with
  | none =>
    rw [directed_newAssociation_iff hproxy hu]
    simp
  | some u =>
    by_cases hready : u.ready = true
    · rw [directed_readyAssociation_iff hsound hproxy hu hready]
      simp [hready]
    · by_cases hroom : u.pending.length < socksUdpPendingCap
      · rw [directed_queuingAssociation_iff hu hready hroom]
        simp [hroom]
      · refine iff_of_false (not_directed_fullAssociation hu hready hroom) ?_
        rintro ⟨-, -, hcase⟩
        exact (hcase u rfl).elim hready hroom

/-- A query that is routed follows the configured upstream exactly when no session pins it and
there is room for it. -/
theorem directed_routeUdp_iff (hsound : s.Sound) :
    Directed s (s.routeUdp dgram true) dgram ↔ Unpinned s dgram ∧ Room s dgram := by
  unfold routeUdp
  extract_lets upstream proxyUdp resolver
  have hover : (true && s.shared.proxy.isSome && s.proxyDnsOverTcp) = s.dnsOverProxy := rfl
  rw [hover]
  by_cases hproxy : s.dnsOverProxy = true
  · rw [if_pos hproxy]
    have hdirect : s.dnsOverProxy ≠ false := by simp [hproxy]
    by_cases hsocks : proxyUdp = some true ∧ s.socksUdpUnsupported = false
    · have hdns : s.dnsOverSocks = true := by
        simp [dnsOverSocks, hproxy, hsocks.2, show s.shared.proxy.map Proxy.supportsUdp = some true
          from hsocks.1]
      rw [if_pos hsocks, show resolver = s.dnsUpstreamPlain dgram.dst from rfl,
        directed_forwardUdpSocks_iff hsound hproxy]
      constructor
      · rintro ⟨htarget, hopens, hroom⟩
        exact ⟨⟨fun hno => absurd hno hdirect, fun _ => htarget⟩,
          ⟨fun hno => absurd hno hdirect, fun _ => hopens, fun _ => hroom,
            fun _ hno => by simp [hdns] at hno, fun hno => absurd hno hdirect⟩⟩
      · rintro ⟨hunpinned, hroom⟩
        exact ⟨hunpinned.socks hdns, hroom.association hdns, hroom.pending hdns⟩
    · have hdns : s.dnsOverSocks = false := by
        refine Bool.eq_false_of_not_eq_true fun hdns => hsocks ?_
        simp only [dnsOverSocks, Bool.and_eq_true, beq_iff_eq, Bool.not_eq_true'] at hdns
        exact ⟨hdns.1.2, hdns.2⟩
      have hother : s.dnsOverSocks ≠ true := by simp [hdns]
      rw [if_neg hsocks, show resolver = s.dnsUpstreamPlain dgram.dst from rfl,
        directed_forwardDnsOverProxy_iff hsound hproxy]
      constructor
      · intro hroom
        exact ⟨⟨fun hno => absurd hno hdirect, fun hyes => absurd hyes hother⟩,
          ⟨fun hno => absurd hno hdirect, fun hyes => absurd hyes hother,
            fun hyes => absurd hyes hother, fun _ _ => hroom, fun hno => absurd hno hdirect⟩⟩
      · rintro ⟨-, hroom⟩
        exact hroom.proxied hproxy hdns
  · have hno : s.dnsOverProxy = false := Bool.eq_false_of_not_eq_true hproxy
    have hdns : s.dnsOverSocks ≠ true := by simp [dnsOverSocks, hno]
    rw [if_neg hproxy, if_pos rfl, show upstream = s.dnsUpstream dgram.dst from rfl]
    by_cases hplain : s.dnsTransport = .plain
    · rw [hplain]
      dsimp only
      rw [directed_forwardUdp_iff hno hplain]
      constructor
      · rintro ⟨hpeer, hopens⟩
        exact ⟨⟨fun _ _ => hpeer, fun hyes => absurd hyes hdns⟩,
          ⟨fun _ _ => hopens, fun hyes => absurd hyes hdns, fun hyes => absurd hyes hdns,
            fun hyes => absurd hyes hproxy, fun _ hother => absurd hplain hother⟩⟩
      · rintro ⟨hunpinned, hroom⟩
        exact ⟨hunpinned.udp hno hplain, hroom.udp hno hplain⟩
    · have hlookup : Directed s (s.forwardDnsTls dgram (s.dnsUpstream dgram.dst)) dgram ↔
          Unpinned s dgram ∧ Room s dgram := by
        rw [directed_forwardDnsTls_iff hsound hno hplain]
        constructor
        · intro hroom
          exact ⟨⟨fun _ h => absurd h hplain, fun hyes => absurd hyes hdns⟩,
            ⟨fun _ h => absurd h hplain, fun hyes => absurd hyes hdns,
              fun hyes => absurd hyes hdns, fun hyes => absurd hyes hproxy, fun _ _ => hroom⟩⟩
        · rintro ⟨-, hroom⟩
          exact hroom.encrypted hno hplain
      cases ht : s.dnsTransport with
      | plain => exact absurd ht hplain
      | dot => exact hlookup
      | doh => exact hlookup

end Sending

section Packets

/-- What the routing of a query depends on has not changed. -/
structure SameRouting (s t : Forwarder σ μ) : Prop where
  tables : s.SameTables t
  dnsOverride : t.dnsOverride = s.dnsOverride
  dnsPort : t.dnsPort = s.dnsPort
  dnsTransport : t.dnsTransport = s.dnsTransport
  dnsHost : t.dnsHost = s.dnsHost
  dnsPath : t.dnsPath = s.dnsPath
  dials : t.dials = s.dials
  proxyDnsOverTcp : t.proxyDnsOverTcp = s.proxyDnsOverTcp
  socksUdpUnsupported : t.socksUdpUnsupported = s.socksUdpUnsupported

namespace SameRouting

variable {s t s' : Forwarder σ μ} {dgram : UdpDatagram}

theorem trans {u : Forwarder σ μ} (hst : s.SameRouting t) (htu : t.SameRouting u) :
    s.SameRouting u where
  tables := hst.tables.trans htu.tables
  dnsOverride := htu.dnsOverride.trans hst.dnsOverride
  dnsPort := htu.dnsPort.trans hst.dnsPort
  dnsTransport := htu.dnsTransport.trans hst.dnsTransport
  dnsHost := htu.dnsHost.trans hst.dnsHost
  dnsPath := htu.dnsPath.trans hst.dnsPath
  dials := htu.dials.trans hst.dials
  proxyDnsOverTcp := htu.proxyDnsOverTcp.trans hst.proxyDnsOverTcp
  socksUdpUnsupported := htu.socksUdpUnsupported.trans hst.socksUdpUnsupported

theorem judge (s : Forwarder σ μ) (d : Decoded) (proto : UInt8) (owner : ℤ) :
    s.SameRouting (s.judge d proto owner).2 :=
  ⟨sameTables_judge s d proto owner, rfl, rfl, rfl, rfl, rfl, rfl, rfl, rfl⟩

theorem account (s : Forwarder σ μ) (d : Decoded) (uid : ℤ) (isDns : Bool)
    (domain : Option Str) : s.SameRouting (s.account d uid isDns domain) := by
  unfold Forwarder.account
  split_ifs
  · exact ⟨⟨rfl, rfl, rfl, rfl, rfl, rfl, rfl, rfl, rfl, rfl, rfl⟩, rfl, rfl, rfl, rfl, rfl, rfl,
      rfl, rfl⟩
  · exact ⟨sameTables_push s _, rfl, rfl, rfl, rfl, rfl, rfl, rfl, rfl⟩

theorem dnsOverProxy (h : s.SameRouting t) : t.dnsOverProxy = s.dnsOverProxy := by
  unfold Forwarder.dnsOverProxy
  rw [h.tables.proxy, h.proxyDnsOverTcp]

theorem dnsOverSocks (h : s.SameRouting t) : t.dnsOverSocks = s.dnsOverSocks := by
  unfold Forwarder.dnsOverSocks
  rw [h.dnsOverProxy, h.tables.proxy, h.socksUdpUnsupported]

theorem dnsUpstream (h : s.SameRouting t) (queried : SocketAddr) :
    t.dnsUpstream queried = s.dnsUpstream queried := by
  unfold Forwarder.dnsUpstream
  rw [h.dnsOverride, h.dnsPort]

theorem dnsUpstreamPlain (h : s.SameRouting t) (queried : SocketAddr) :
    t.dnsUpstreamPlain queried = s.dnsUpstreamPlain queried := by
  unfold Forwarder.dnsUpstreamPlain
  rw [h.dnsOverride, h.dnsPort, h.dnsTransport]

theorem mayCarry (h : s.SameRouting t) (e : Egress) :
    t.MayCarry dgram e ↔ s.MayCarry dgram e := by
  cases e <;>
    simp only [MayCarry, h.dnsOverProxy, h.dnsTransport, h.dnsUpstream, h.dnsUpstreamPlain,
      h.tables.proxy]

theorem carriedOver (h : s.SameRouting t) (mode : DnsTlsMode) :
    t.CarriedOver mode ↔ s.CarriedOver mode := by
  cases mode <;> simp only [CarriedOver, h.dnsTransport]

theorem symm (h : s.SameRouting t) : t.SameRouting s where
  tables := h.tables.symm
  dnsOverride := h.dnsOverride.symm
  dnsPort := h.dnsPort.symm
  dnsTransport := h.dnsTransport.symm
  dnsHost := h.dnsHost.symm
  dnsPath := h.dnsPath.symm
  dials := h.dials.symm
  proxyDnsOverTcp := h.proxyDnsOverTcp.symm
  socksUdpUnsupported := h.socksUdpUnsupported.symm

theorem taken (h : s.SameRouting t) (ht : Taken t s' dgram) : Taken s s' dgram := by
  cases ht with
  | sent hmem =>
    rw [h.tables.egress, h.dnsUpstream] at hmem
    exact .sent hmem
  | relayed hmem =>
    rw [h.tables.egress, h.dnsUpstreamPlain] at hmem
    exact .relayed hmem
  | queued hu htarget hpending =>
    rw [h.dnsUpstreamPlain] at htarget
    rw [h.tables.socksUdp] at hpending
    exact .queued hu htarget hpending
  | proxied hnew hjob htarget hsend =>
    rw [h.tables.dnsTcp] at hnew
    rw [h.dnsUpstreamPlain] at htarget
    exact .proxied hnew hjob htarget hsend
  | @encrypted token job hnew hjob hmode hsend hdial =>
    rw [h.tables.dnsTls] at hnew
    rw [h.carriedOver] at hmode
    rw [h.tables.egress, h.dnsUpstream] at hdial
    refine .encrypted hnew hjob hmode (hsend.trans ?_) hdial
    cases job.mode with
    | dot => rfl
    | doh => rw [queryWire, queryWire, h.dnsHost, h.dnsPath]

theorem directed (h : s.SameRouting t) (hd : Directed t s' dgram) : Directed s s' dgram := by
  obtain ⟨htaken, hsent, hqueued, hproxied, hencrypted⟩ := hd
  refine ⟨h.taken htaken, fun e he => ?_, fun u' hu' hne => ?_, fun token job hjob hnone => ?_,
    fun token job hjob hnone => ?_⟩
  · rw [← h.mayCarry]
    exact hsent e (by rwa [h.tables.egress])
  · rw [← h.dnsUpstreamPlain]
    exact hqueued u' hu' (by rwa [h.tables.socksUdp])
  · rw [← h.dnsUpstreamPlain]
    exact hproxied token job hjob (by rwa [h.tables.dnsTcp])
  · rw [← h.carriedOver]
    exact hencrypted token job hjob (by rwa [h.tables.dnsTls])

theorem directed_iff (h : s.SameRouting t) : Directed t s' dgram ↔ Directed s s' dgram :=
  ⟨h.directed, h.symm.directed⟩

theorem unpinned (h : s.SameRouting t) (hu : Unpinned t dgram) : Unpinned s dgram := by
  obtain ⟨hudp, hsocks⟩ := hu
  rw [h.dnsOverProxy, h.dnsTransport, h.tables.udp, h.dnsUpstream] at hudp
  rw [h.dnsOverSocks, h.tables.socksUdp, h.dnsUpstreamPlain] at hsocks
  exact ⟨hudp, hsocks⟩

theorem unpinned_iff (h : s.SameRouting t) : Unpinned t dgram ↔ Unpinned s dgram :=
  ⟨h.unpinned, h.symm.unpinned⟩

theorem opens (h : s.SameRouting t) (n : ℕ) : t.Opens n ↔ s.Opens n := by
  unfold Opens
  rw [h.dials]

theorem room (h : s.SameRouting t) (hr : Room t dgram) : Room s dgram := by
  obtain ⟨hudp, hassociation, hpending, hproxied, hencrypted⟩ := hr
  rw [h.dnsOverProxy, h.dnsTransport, h.tables.udp, h.opens] at hudp
  rw [h.dnsOverSocks, h.tables.socksUdp, h.opens] at hassociation
  rw [h.dnsOverSocks, h.tables.socksUdp] at hpending
  rw [h.dnsOverProxy, h.dnsOverSocks, h.tables.dnsTcp, h.opens] at hproxied
  rw [h.dnsOverProxy, h.dnsTransport, h.tables.dnsTls, h.dnsHost, h.opens] at hencrypted
  exact ⟨hudp, hassociation, hpending, hproxied, hencrypted⟩

theorem room_iff (h : s.SameRouting t) : Room t dgram ↔ Room s dgram := ⟨h.room, h.symm.room⟩

theorem sound (h : s.SameRouting t) (hs : s.Sound) : t.Sound where
  dnsTcp := by rw [h.tables.dnsTcp, h.tables.nextToken, hs.dnsTcp]
  dnsTls := by rw [h.tables.dnsTls, h.tables.nextToken, hs.dnsTls]
  ready := by
    rw [h.dnsOverProxy, h.tables.socksUdp]
    exact hs.ready

end SameRouting

/-- The DNS query that a packet carries, if it is let through: the firewall allows the app, and
the name asked for is not blocked. -/
def allowedQuery (w : Wire) (s : Forwarder σ μ) (packet : Bytes) (owner : ℤ) :
    Option UdpDatagram :=
  match decode packet with
  | none => none
  | some d =>
    if d.proto = .udp ∧ isDnsPort d.dstPort = true ∧
        (s.judge d protoUdp owner).1.blocked = false ∧ s.proxyBroken = false then
      (parseUdp w packet).filter fun dgram =>
        !((parseQuery dgram.payload).map fun q => s.shared.isBlockedDomain q.name).getD false
    else none

theorem not_https_of_isDnsPort {port : UInt16} (h : isDnsPort port = true) :
    (port == dotPort) = false ∧ (port == httpsPort) = false := by
  simp only [isDnsPort, Bool.or_eq_true, beq_iff_eq] at h
  rcases h with rfl | rfl <;> decide

theorem handleDns_of_allowed {s : Forwarder σ μ} {d : Decoded} {dgram : UdpDatagram}
    (h : ((parseQuery dgram.payload).map fun q => s.shared.isBlockedDomain q.name).getD false =
      false) : ∃ name, s.handleDns d dgram = (some name, s) := by
  unfold handleDns
  cases hq : parseQuery dgram.payload with
  | none => exact ⟨none, rfl⟩
  | some query =>
    rw [hq] at h
    dsimp only
    rw [if_neg (by simpa using h)]
    exact ⟨some query.name, rfl⟩

/-- An allowed query is routed. -/
theorem onTunPacket_of_allowedQuery [TcpSocket σ] {w : Wire} {s : Forwarder σ μ} {packet : Bytes}
    {owner : ℤ} {dgram : UdpDatagram} (h : s.allowedQuery w packet owner = some dgram) :
    ∃ t, s.SameRouting t ∧ s.onTunPacket w packet owner = t.routeUdp dgram true := by
  unfold allowedQuery at h
  unfold onTunPacket
  cases hd : decode packet with
  | none => simp [hd] at h
  | some d =>
    rw [hd] at h
    dsimp only at h ⊢
    split_ifs at h with hcond
    obtain ⟨hudp, hdns, hallowed, hbroken⟩ := hcond
    obtain ⟨hparse, hname⟩ := Option.filter_eq_some_iff.mp h
    obtain ⟨hdot, hhttps⟩ := not_https_of_isDnsPort hdns
    rw [hudp]
    dsimp only
    have hdoq : s.dropsDoq d = false := by simp [dropsDoq, hdot, hhttps]
    unfold onUdp
    rw [if_neg (by simp [hdoq])]
    extract_lets v t isDns
    have hisDns : isDns = true := hdns
    rw [if_neg (by simp [show v.1.blocked = false from hallowed]),
      if_neg (by simp [show t.proxyBroken = false from hbroken]), if_neg (by simp [hisDns]),
      if_neg (by simp [hhttps]), hparse]
    dsimp only
    rw [if_pos hisDns]
    have hopen : ((parseQuery dgram.payload).map fun q =>
        s.shared.isBlockedDomain q.name).getD false = false := by
      simpa using hname
    obtain ⟨name, hhandle⟩ := handleDns_of_allowed (s := t) (d := d) hopen
    rw [hhandle, hisDns]
    exact ⟨_, (SameRouting.judge s d protoUdp owner).trans (.account t d v.1.uid true name), rfl⟩

end Packets

section Runs

variable [TcpSocket σ] [Splice μ] (w : Wire)

/-- A query that is let through is sent toward the configured upstream. -/
def QueryDirected (s : Forwarder σ μ) : Input σ μ → Prop
  | .packet packet owner => ∀ dgram, s.allowedQuery w packet owner = some dgram →
      Directed s (s.onTunPacket w packet owner) dgram
  | _ => True

/-- A query that is let through meets no session that was made for another upstream, and there is
room for it. -/
def QueryUnpinned (s : Forwarder σ μ) : Input σ μ → Prop
  | .packet packet owner => ∀ dgram, s.allowedQuery w packet owner = some dgram →
      Unpinned s dgram ∧ Room s dgram
  | _ => True

theorem queryDirected_iff {s : Forwarder σ μ} (hsound : s.Sound) (a : Input σ μ) :
    QueryDirected w s a ↔ QueryUnpinned w s a := by
  cases a with
  | packet packet owner =>
    refine forall_congr' fun dgram => forall_congr' fun h => ?_
    obtain ⟨t, hroute, hs'⟩ := onTunPacket_of_allowedQuery h
    rw [hs', ← hroute.directed_iff, directed_routeUdp_iff (hroute.sound hsound),
      hroute.unpinned_iff, hroute.room_iff]
  | _ => exact Iff.rfl

variable [LawfulSplice μ] {w} {config : Config μ}

theorem sound_of_reachable {s : Forwarder σ μ} (h : (automaton w config).Reachable s) :
    s.Sound := by
  have hconsistent := consistent_of_reachable h
  have hfree (r : Route) : ¬ s.Owns s.nextToken r := fun hown =>
    Nat.lt_irrefl _ (hconsistent.allocated _ (hconsistent.routed.mem hown))
  refine ⟨?_, ?_, fun hproxy key u hu => ?_⟩
  · exact AList.lookup_eq_none.mpr (hfree .dnsTcp)
  · exact AList.lookup_eq_none.mpr (hfree .dnsTls)
  · obtain ⟨as, hrun⟩ := h
    have hsome : s.shared.proxy.isSome = true := by
      simp only [dnsOverProxy, Bool.and_eq_true] at hproxy
      exact hproxy.1
    obtain ⟨p, hp⟩ := Option.isSome_iff_exists.mp hsome
    have hconfig : config.proxy = some p := (proxy_of_reachable ⟨as, hrun⟩).symm.trans hp
    obtain ⟨before, after, s₀, -, -, -, hfaithful⟩ := traced_of_run hconfig hrun key u hu
    exact hfaithful.ready

variable (w)

/-- In exactly the runs in which no query meets a session for another upstream, and there is room
for each, every query goes to the upstream that is configured when it comes. -/
theorem queries_follow_upstream_iff (config : Config μ) (as : List (Input σ μ)) :
    (automaton w config).EachStep (QueryDirected w) (new config) as ↔
      (automaton w config).EachStep (QueryUnpinned w) (new config) as :=
  Automaton.eachStep_congr (I := (automaton w config).Reachable)
    (fun _ _ _ h hstep => h.step hstep)
    (fun _ a h => queryDirected_iff w (sound_of_reachable h) a) ⟨[], rfl⟩ as

end Runs

/-- A query for the name "a" from port 40000 of the tunnel address to 10.111.222.1:53. -/
def queryPacket : Bytes :=
  [0x45, 0, 0, 47, 0, 0, 0, 0, 64, 17, 0, 0, 10, 111, 222, 2, 10, 111, 222, 1,
    0x9C, 0x40, 0, 53, 0, 27, 0, 0,
    0x12, 0x34, 1, 0, 0, 1, 0, 0, 0, 0, 0, 0, 1, 0x61, 0, 0, 1, 0, 1]

def setsUpstream (ip : IpAddr) : Command := .setDnsUpstream .plain (some ip) 53 none none

/-- A direct query over plain DNS that meets no session. -/
theorem unpinned_of_none {s : Forwarder σ μ} {dgram : UdpDatagram} (hproxy : s.shared.proxy = none)
    (hplain : s.dnsTransport = .plain) (hudp : s.udp.lookup (dgramKey dgram) = none)
    (hopens : s.Opens 1) : Unpinned s dgram ∧ Room s dgram := by
  have hno : s.dnsOverProxy = false := by simp [dnsOverProxy, hproxy]
  have hdns : s.dnsOverSocks ≠ true := by simp [dnsOverSocks, hno]
  refine ⟨⟨fun _ _ u hu => ?_, fun hyes => absurd hyes hdns⟩, ⟨fun _ _ _ => hopens,
    fun hyes => absurd hyes hdns, fun hyes => absurd hyes hdns, fun hyes => ?_,
    fun _ hother => absurd hplain hother⟩⟩
  · cases hudp.symm.trans hu
  · cases hno.symm.trans hyes

/-- The upstream is changed between two queries from two ports of an app. -/
def asksFromTwoPorts : List (Input PlainSocket PlainSplice) :=
  [.command (setsUpstream (ip4 8 8 8 8)), .answers [.opened, .opened] true, .packet queryPacket 10,
    .command (setsUpstream (ip4 9 9 9 9)), .packet (queryPacket.set 21 0x41) 10]

theorem queries_follow_upstream_ports :
    ((automaton .plain plainConfig).run asksFromTwoPorts).map Forwarder.egress =
        some [.udp ⟨ip4 8 8 8 8, 53⟩, .datagram ⟨ip4 8 8 8 8, 53⟩ (queryPacket.drop 28),
          .udp ⟨ip4 9 9 9 9, 53⟩, .datagram ⟨ip4 9 9 9 9, 53⟩ (queryPacket.drop 28)] ∧
      (automaton .plain plainConfig).EachStep (QueryDirected .plain) (new plainConfig)
        asksFromTwoPorts := by
  refine ⟨by decide +kernel, ?_⟩
  refine (queries_follow_upstream_iff .plain plainConfig asksFromTwoPorts).mpr
    ⟨trivial, trivial, fun dgram h => ?_, trivial, fun dgram h => ?_, trivial⟩
  · refine unpinned_of_none rfl rfl ?_ ⟨[.opened], rfl⟩
    exact AList.lookup_empty _
  · have hkey : some (dgramKey dgram) = some ⟨⟨ip4 10 111 222 2, 40001⟩, ⟨ip4 10 111 222 1, 53⟩⟩ := by
      rw [← Option.map_some, ← h]
      decide +kernel
    refine unpinned_of_none rfl rfl ?_ ⟨[], rfl⟩
    rw [Option.some.inj hkey]
    decide +kernel

/-- The app asks, the upstream is changed from 8.8.8.8 to 9.9.9.9, and it asks again from the same
port: the second query still goes to 8.8.8.8. -/
theorem pinned_session_keeps_upstream :
    ¬ (automaton .plain plainConfig : Automaton (Forwarder PlainSocket PlainSplice) _).EachStep
      (QueryDirected .plain) (new plainConfig)
      [.command (setsUpstream (ip4 8 8 8 8)), .answers [.opened] true, .packet queryPacket 10,
        .command (setsUpstream (ip4 9 9 9 9)), .packet queryPacket 10] := by
  rintro ⟨-, -, -, -, hlast, -⟩
  have hsent := (hlast _ rfl).sent (.datagram ⟨ip4 8 8 8 8, 53⟩ (queryPacket.drop 28))
    (by decide +kernel)
  exact absurd hsent.2.2.1 (by decide +kernel)

end Forwarder

end Adwarden.Core
