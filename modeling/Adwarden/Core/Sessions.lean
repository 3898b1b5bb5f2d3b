import Adwarden.Core.ForwarderActs
import Adwarden.Lib.Registry

/-! The tables of sessions and the token routes agree in every state that is reached. -/
namespace Adwarden.Core
open Relation Adwarden.Lib Adwarden.Net Adwarden.Tls

variable {σ μ : Type}

namespace Forwarder

/-- The session that a route names is there, and stores the token. -/
def Owns (s : Forwarder σ μ) (token : Token) : Route → Prop
  | .tcp id => (s.flow id).up.map TcpUpstream.token = some token
  | .udp key => (s.udp.lookup key).map UdpSession.token = some token
  | .socksCtrl key => (s.socksUdp.lookup key).map Socks5UdpSession.ctrlToken = some token
  | .socksRelay key => (s.socksUdp.lookup key).map Socks5UdpSession.relayToken = some token
  | .dnsTcp => token ∈ s.dnsTcp
  | .dnsTls => token ∈ s.dnsTls

/-- The tables agree: the routes are those of the tokens that sessions store, tokens that are not
given out yet have none, every upstream belongs to a live flow, and every datagram session is kept
under the key it was made for. -/
structure Consistent (s : Forwarder σ μ) : Prop where
  routed : Registers s.shared.routes s.Owns
  allocated : ∀ token ∈ s.shared.routes, token < s.nextToken
  live : ∀ id, (s.flow id).up.isSome = true → id ∈ s.stack.flows
  numbered : ∀ id ∈ s.stack.flows, id < s.stack.nextId
  udpKeys : ∀ key u, s.udp.lookup key = some u → u.app = key.app ∧ u.server = key.server
  socksKeys : ∀ key u, s.socksUdp.lookup key = some u → u.app = key.app ∧ u.replySrc = key.server

theorem flow_setFlow (s : Forwarder σ μ) (id id' : FlowId) (x : Flow σ μ) :
    (s.setFlow id x).flow id' = if id' = id then x else s.flow id' := by
  unfold flow setFlow
  by_cases h : id' = id
  · subst h
    rw [if_pos rfl]
    dsimp only
    rw [AList.lookup_insert]
    rfl
  · rw [if_neg h]
    dsimp only
    rw [AList.lookup_insert_ne h]

section Owners

variable (s : Forwarder σ μ) (t : Token) (r : Route)

theorem owns_setFlow (id : FlowId) (x : Flow σ μ) :
    (s.setFlow id x).Owns t r ↔
      if r = .tcp id then x.up.map TcpUpstream.token = some t else s.Owns t r := by
  cases r with
  | tcp id' =>
    simp only [Owns, flow_setFlow, Route.tcp.injEq]
    split_ifs <;> rfl
  | _ => simp [Owns, setFlow]

theorem owns_udp (udp : AList fun _ : UdpKey => UdpSession) (key : UdpKey)
    (h : ∀ key', key' ≠ key → udp.lookup key' = s.udp.lookup key') :
    ({ s with udp := udp } : Forwarder σ μ).Owns t r ↔
      if r = .udp key then (udp.lookup key).map UdpSession.token = some t else s.Owns t r := by
  cases r with
  | udp key' =>
    by_cases hk : key' = key
    · subst hk
      simp [Owns]
    · simp [Owns, hk, h key' hk]
  | _ => simp [Owns, flow]

theorem owns_socks (socks : AList fun _ : UdpKey => Socks5UdpSession) (key : UdpKey)
    (h : ∀ key', key' ≠ key → socks.lookup key' = s.socksUdp.lookup key') :
    ({ s with socksUdp := socks } : Forwarder σ μ).Owns t r ↔
      if r = .socksCtrl key then
        (socks.lookup key).map Socks5UdpSession.ctrlToken = some t
      else if r = .socksRelay key then
        (socks.lookup key).map Socks5UdpSession.relayToken = some t
      else s.Owns t r := by
  cases r with
  | socksCtrl key' =>
    by_cases hk : key' = key
    · subst hk
      simp [Owns]
    · simp [Owns, hk, h key' hk]
  | socksRelay key' =>
    by_cases hk : key' = key
    · subst hk
      simp [Owns]
    · simp [Owns, hk, h key' hk]
  | _ => simp [Owns, flow]

end Owners

section Routed

variable {s : Forwarder σ μ}

theorem routed_congr {s' : Forwarder σ μ} (h : Registers s.shared.routes s.Owns)
    (hroutes : s'.shared.routes = s.shared.routes) (howns : ∀ t r, s'.Owns t r ↔ s.Owns t r) :
    Registers s'.shared.routes s'.Owns := by
  rw [hroutes]
  exact h.congr howns

theorem Consistent.nextToken_notMem (h : s.Consistent) : s.nextToken ∉ s.shared.routes :=
  fun hmem => absurd (h.allocated _ hmem) (Nat.lt_irrefl _)

theorem routed_setFlow [TcpSocket σ] [Splice μ] (h : Registers s.shared.routes s.Owns)
    (id : FlowId) {x : Flow σ μ} {h' : Shared μ}
    (hacts : Micro.Tracks ⟨s.shared, s.flow id, []⟩ ⟨h', x, []⟩) :
    Registers h'.routes ({ s.setFlow id x with shared := h' } : Forwarder σ μ).Owns := by
  rcases hacts with ⟨ht, hr⟩ | ⟨up, hup, hnone, hr⟩
  · change h'.routes = s.shared.routes at hr
    rw [hr]
    refine h.congr fun t r => (s.owns_setFlow t r id x).trans ?_
    split_ifs with hid
    · subst hid
      exact iff_of_eq (congrArg (· = some t) ht)
    · exact Iff.rfl
  · have hown : s.Owns up.token (.tcp id) := by
      change (s.flow id).up.map TcpUpstream.token = _
      rw [show (s.flow id).up = some up from hup]
      rfl
    change h'.routes = s.shared.routes.erase up.token at hr
    rw [hr]
    refine h.erase hown fun t r => (s.owns_setFlow t r id x).trans ?_
    split_ifs with hid
    · subst hid
      rw [show x.up = none from hnone]
      constructor
      · intro hx
        cases hx
      · rintro ⟨hx, hne⟩
        refine absurd ⟨?_, rfl⟩ hne
        change (s.flow id).up.map TcpUpstream.token = some t at hx
        rw [show (s.flow id).up = some up from hup] at hx
        exact (Option.some.inj hx).symm
    · constructor
      · intro hx
        exact ⟨hx, fun heq => hid heq.2⟩
      · exact And.left

theorem routed_addUdp (h : s.Consistent) (key : UdpKey) {u : UdpSession}
    (hnew : s.udp.lookup key = none) (hu : u.token = s.nextToken) :
    Registers (s.alloc (.udp key)).shared.routes
      ({ s.alloc (.udp key) with udp := s.udp.insert key u } : Forwarder σ μ).Owns := by
  refine h.routed.insert h.nextToken_notMem fun t r => ?_
  refine ((s.alloc (.udp key)).owns_udp t r _ key fun key' hk => ?_).trans ?_
  · exact AList.lookup_insert_ne hk
  · split_ifs with hr
    · subst hr
      simp [Owns, hnew, hu, eq_comm]
    · simp only [hr, and_false, or_false]
      exact Iff.rfl

theorem routed_dropUdp (h : Registers s.shared.routes s.Owns) (key : UdpKey) {u : UdpSession}
    (hu : s.udp.lookup key = some u) :
    Registers (s.dropRoute u.token).shared.routes
      ({ s.dropRoute u.token with udp := s.udp.erase key } : Forwarder σ μ).Owns := by
  have hown : s.Owns u.token (.udp key) := by simp [Owns, hu]
  refine h.erase hown fun t r => ?_
  refine ((s.dropRoute u.token).owns_udp t r _ key fun key' hk => ?_).trans ?_
  · exact AList.lookup_erase_ne hk
  · split_ifs with hr
    · subst hr
      simp [Owns, hu, eq_comm]
    · simp only [hr, and_false, not_false_eq_true, and_true]
      exact Iff.rfl

theorem routed_addSocks (h : s.Consistent) (key : UdpKey) {u : Socks5UdpSession}
    (hnew : s.socksUdp.lookup key = none) (hctrl : u.ctrlToken = s.nextToken)
    (hrelay : u.relayToken = s.nextToken + 1) :
    Registers ((s.alloc (.socksCtrl key)).alloc (.socksRelay key)).shared.routes
      ({ (s.alloc (.socksCtrl key)).alloc (.socksRelay key) with
        socksUdp := s.socksUdp.insert key u } : Forwarder σ μ).Owns := by
  have hfirst := h.routed.insert (r := .socksCtrl key) h.nextToken_notMem fun _ _ => Iff.rfl
  have hnext : s.nextToken + 1 ∉ s.shared.routes.insert s.nextToken (.socksCtrl key) := by
    rw [AList.mem_insert]
    rintro (heq | hmem)
    · exact Nat.succ_ne_self _ heq
    · exact Nat.not_succ_lt_self (h.allocated _ hmem)
  refine hfirst.insert hnext fun t r => ?_
  refine (((s.alloc (.socksCtrl key)).alloc (.socksRelay key)).owns_socks t r _ key
    fun key' hk => ?_).trans ?_
  · exact AList.lookup_insert_ne hk
  · split_ifs with hr hr'
    · subst hr
      simp [Owns, hnew, hctrl, eq_comm]
    · subst hr'
      simp [Owns, hnew, hrelay, alloc, skipToken, setRoute, eq_comm]
    · simp only [hr, hr', and_false, or_false]
      exact Iff.rfl

theorem routed_dropSocks (h : Registers s.shared.routes s.Owns) (key : UdpKey)
    {u : Socks5UdpSession} (hu : s.socksUdp.lookup key = some u) :
    Registers ((s.dropRoute u.ctrlToken).dropRoute u.relayToken).shared.routes
      ({ (s.dropRoute u.ctrlToken).dropRoute u.relayToken with
        socksUdp := s.socksUdp.erase key } : Forwarder σ μ).Owns := by
  have hctrl : s.Owns u.ctrlToken (.socksCtrl key) := by simp [Owns, hu]
  have hrelay : s.Owns u.relayToken (.socksRelay key) := by simp [Owns, hu]
  have hfirst := h.erase hctrl fun _ _ => Iff.rfl
  refine hfirst.erase ⟨hrelay, by simp⟩ fun t r => ?_
  refine (((s.dropRoute u.ctrlToken).dropRoute u.relayToken).owns_socks t r _ key
    fun key' hk => ?_).trans ?_
  · exact AList.lookup_erase_ne hk
  · split_ifs with hr hr'
    · subst hr
      simp [Owns, hu, eq_comm]
    · subst hr'
      simp [Owns, hu, eq_comm]
    · simp only [hr, hr', and_false, not_false_eq_true, and_true]
      exact Iff.rfl

theorem routed_addDnsTcp (h : s.Consistent) (job : DnsTcpJob) :
    Registers (s.alloc .dnsTcp).shared.routes
      ({ s.alloc .dnsTcp with
        dnsTcp := s.dnsTcp.insert s.nextToken job } : Forwarder σ μ).Owns := by
  refine h.routed.insert h.nextToken_notMem fun t r => ?_
  cases r with
  | dnsTcp =>
    rw [or_comm]
    exact (AList.mem_insert s.dnsTcp).trans (by simp [Owns])
  | _ => simp [Owns, flow, alloc, skipToken, setRoute]

theorem routed_dropDnsTcp (h : Registers s.shared.routes s.Owns) {token : Token}
    {job : DnsTcpJob} (hjob : s.dnsTcp.lookup token = some job) :
    Registers (s.dropRoute token).shared.routes
      ({ s.dropRoute token with dnsTcp := s.dnsTcp.erase token } : Forwarder σ μ).Owns := by
  have hown : s.Owns token .dnsTcp := AList.lookup_isSome.mp (by rw [hjob]; rfl)
  refine h.erase hown fun t r => ?_
  cases r with
  | dnsTcp => simp [Owns, AList.mem_erase, and_comm]
  | _ => simp [Owns, flow, dropRoute]

theorem routed_addDnsTls (h : s.Consistent) (job : DnsTlsJob) :
    Registers (s.alloc .dnsTls).shared.routes
      ({ s.alloc .dnsTls with
        dnsTls := s.dnsTls.insert s.nextToken job } : Forwarder σ μ).Owns := by
  refine h.routed.insert h.nextToken_notMem fun t r => ?_
  cases r with
  | dnsTls =>
    rw [or_comm]
    exact (AList.mem_insert s.dnsTls).trans (by simp [Owns])
  | _ => simp [Owns, flow, alloc, skipToken, setRoute]

theorem routed_dropDnsTls (h : Registers s.shared.routes s.Owns) {token : Token}
    {job : DnsTlsJob} (hjob : s.dnsTls.lookup token = some job) :
    Registers (s.dropRoute token).shared.routes
      ({ s.dropRoute token with dnsTls := s.dnsTls.erase token } : Forwarder σ μ).Owns := by
  have hown : s.Owns token .dnsTls := AList.lookup_isSome.mp (by rw [hjob]; rfl)
  refine h.erase hown fun t r => ?_
  cases r with
  | dnsTls => simp [Owns, AList.mem_erase, and_comm]
  | _ => simp [Owns, flow, dropRoute]

theorem routed_setUdp (h : Registers s.shared.routes s.Owns) (key : UdpKey) {u u' : UdpSession}
    (hu : s.udp.lookup key = some u) (htoken : u'.token = u.token) :
    Registers s.shared.routes
      ({ s with udp := s.udp.insert key u' } : Forwarder σ μ).Owns := by
  refine h.congr fun t r => (s.owns_udp t r _ key fun key' hk => ?_).trans ?_
  · exact AList.lookup_insert_ne hk
  · split_ifs with hr
    · subst hr
      simp [Owns, hu, htoken]
    · exact Iff.rfl

theorem routed_setSocks (h : Registers s.shared.routes s.Owns) (key : UdpKey)
    {u u' : Socks5UdpSession} (hu : s.socksUdp.lookup key = some u)
    (hctrl : u'.ctrlToken = u.ctrlToken) (hrelay : u'.relayToken = u.relayToken) :
    Registers s.shared.routes
      ({ s with socksUdp := s.socksUdp.insert key u' } : Forwarder σ μ).Owns := by
  refine h.congr fun t r => (s.owns_socks t r _ key fun key' hk => ?_).trans ?_
  · exact AList.lookup_insert_ne hk
  · split_ifs with hr hr'
    · subst hr
      simp [Owns, hu, hctrl]
    · subst hr'
      simp [Owns, hu, hrelay]
    · exact Iff.rfl

end Routed

/-- The routes, and the token to be given out next. -/
def tokens (s : Forwarder σ μ) : (AList fun _ : Token => Route) × Token :=
  (s.shared.routes, s.nextToken)

/-- A token is given out without a route or with one, or it is given back. -/
inductive TokenAct :
    (AList fun _ : Token => Route) × Token → (AList fun _ : Token => Route) × Token → Prop
  | burn (routes : AList fun _ : Token => Route) (n : Token) : TokenAct (routes, n) (routes, n + 1)
  | give (routes : AList fun _ : Token => Route) (n : Token) (route : Route) :
    TokenAct (routes, n) (routes.insert n route, n + 1)
  | back (routes : AList fun _ : Token => Route) (n token : Token) :
    TokenAct (routes, n) (routes.erase token, n)

section Acts

variable [TcpSocket σ] [Splice μ] {P : Egress → Prop} {C : Causes}
  {s s' : Forwarder σ μ}

theorem Act.routed (hact : Act P C s s') (h : s.Consistent) :
    Registers s'.shared.routes s'.Owns := by
  cases hact with
  | same _ hs =>
    refine routed_congr h.routed hs.routes fun t r => ?_
    cases r with
    | tcp id => simp only [Owns, Forwarder.flow, hs.flows]
    | udp key => simp [Owns, hs.udp]
    | socksCtrl key => simp [Owns, hs.socksUdp]
    | socksRelay key => simp [Owns, hs.socksUdp]
    | dnsTcp => simp [Owns, hs.dnsTcp]
    | dnsTls => simp [Owns, hs.dnsTls]
  | emit es _ => exact h.routed
  | burn => exact h.routed
  | flow id h' x hacts => exact routed_setFlow h.routed id hacts.tracks
  | world id x hworld =>
    refine routed_setFlow h.routed id (Or.inl ⟨?_, rfl⟩)
    cases hworld with
    | poll p => rfl
    | hear news => simp [Option.map_map, Function.comp_def]
    | deliver readable => simp [Option.map_map, Function.comp_def]
  | listen tuple socket _ =>
    have hnone : (s.flow s.stack.nextId).up = none := by
      by_contra hup
      exact absurd (h.numbered _ (h.live _ (Option.isSome_iff_ne_none.mpr hup)))
        (Nat.lt_irrefl _)
    have htracks : Micro.Tracks ⟨s.shared, s.flow s.stack.nextId, []⟩
        ⟨s.shared, ⟨some socket, none, []⟩, []⟩ := Or.inl ⟨by simp [hnone], rfl⟩
    exact routed_setFlow h.routed s.stack.nextId htracks
  | openUp id server uid tls socket _ hflow _ _ =>
    have hup : (s.flow id).up = none := by rw [hflow]
    refine h.routed.insert (r := .tcp id) h.nextToken_notMem fun t r => ?_
    refine ((s.alloc (.tcp id)).owns_setFlow t r id _).trans ?_
    split_ifs with hr
    · subst hr
      have hno : ¬ s.Owns t (.tcp id) := by simp [Owns, hup]
      constructor
      · intro ht
        exact Or.inr ⟨(Option.some.inj ht).symm, rfl⟩
      · rintro (hown | ⟨rfl, -⟩)
        · exact absurd hown hno
        · rfl
    · simp only [hr, and_false, or_false]
      exact Iff.rfl
  | remove id hup =>
    unfold removeFlow
    split
    · exact h.routed
    · exact routed_setFlow h.routed id (Or.inl ⟨rfl, rfl⟩)
  | addUdp key u hnew hu => exact routed_addUdp h key hnew (Prod.mk.inj hu).1
  | setUdp key u u' hu hident => exact routed_setUdp h.routed key hu (Prod.mk.inj hident).1
  | dropUdp key u hu => exact routed_dropUdp h.routed key hu
  | addSocks key u hnew _ hu =>
    obtain ⟨hctrl, hrest⟩ := Prod.mk.inj hu
    exact routed_addSocks h key hnew hctrl (Prod.mk.inj hrest).1
  | setSocks key u u' hu hident _ =>
    obtain ⟨hctrl, hrest⟩ := Prod.mk.inj hident
    exact routed_setSocks h.routed key hu hctrl (Prod.mk.inj hrest).1
  | dropSocks key u hu => exact routed_dropSocks h.routed key hu
  | addDnsTcp job => exact routed_addDnsTcp h job
  | setDnsTcp token job job' hjob =>
    refine routed_congr h.routed rfl fun t r => ?_
    cases r with
    | dnsTcp => exact mem_insert_of_lookup hjob
    | _ => exact Iff.rfl
  | dropDnsTcp token job hjob => exact routed_dropDnsTcp h.routed hjob
  | addDnsTls job => exact routed_addDnsTls h job
  | setDnsTls token job job' hjob =>
    refine routed_congr h.routed rfl fun t r => ?_
    cases r with
    | dnsTls => exact mem_insert_of_lookup hjob
    | _ => exact Iff.rfl
  | dropDnsTls token job hjob => exact routed_dropDnsTls h.routed hjob

/-- What an act does to the routes and to the counter of tokens. -/
theorem Act.tokens (hact : Act P C s s') : ReflTransGen TokenAct s.tokens s'.tokens := by
  cases hact with
  | same _ hs =>
    unfold Forwarder.tokens
    rw [hs.routes, hs.nextToken]
  | emit es _ => exact .refl
  | burn => exact .single (.burn s.shared.routes s.nextToken)
  | flow id h' x hacts =>
    rcases hacts.tracks with ⟨-, hr⟩ | ⟨up, -, -, hr⟩
    · change ReflTransGen TokenAct s.tokens (h'.routes, s.nextToken)
      rw [show h'.routes = s.shared.routes from hr]
      exact .refl
    · change ReflTransGen TokenAct s.tokens (h'.routes, s.nextToken)
      rw [show h'.routes = s.shared.routes.erase up.token from hr]
      exact .single (.back s.shared.routes s.nextToken up.token)
  | world id x _ => exact .refl
  | listen tuple socket _ => exact .refl
  | openUp id server uid tls socket _ _ _ _ => exact .single (.give s.shared.routes s.nextToken (.tcp id))
  | remove id _ =>
    unfold removeFlow
    split <;> exact .refl
  | addUdp key u _ _ => exact .single (.give s.shared.routes s.nextToken (.udp key))
  | setUdp key u u' _ _ => exact .refl
  | dropUdp key u _ => exact .single (.back s.shared.routes s.nextToken u.token)
  | addSocks key u _ _ _ =>
    exact .tail (.single (.give s.shared.routes s.nextToken (.socksCtrl key)))
      (.give _ (s.nextToken + 1) (.socksRelay key))
  | setSocks key u u' _ _ _ => exact .refl
  | dropSocks key u _ =>
    exact .tail (.single (.back s.shared.routes s.nextToken u.ctrlToken))
      (.back _ s.nextToken u.relayToken)
  | addDnsTcp job => exact .single (.give s.shared.routes s.nextToken .dnsTcp)
  | setDnsTcp token job job' _ => exact .refl
  | dropDnsTcp token job _ => exact .single (.back s.shared.routes s.nextToken token)
  | addDnsTls job => exact .single (.give s.shared.routes s.nextToken .dnsTls)
  | setDnsTls token job job' _ => exact .refl
  | dropDnsTls token job _ => exact .single (.back s.shared.routes s.nextToken token)

omit [TcpSocket σ] [Splice μ] in
/-- Only tokens that have been given out have a route. -/
theorem TokenAct.allocated {a b : (AList fun _ : Token => Route) × Token} (h : TokenAct a b)
    (ha : ∀ token ∈ a.1, token < a.2) : ∀ token ∈ b.1, token < b.2 := by
  cases h with
  | burn routes n => exact fun token hmem => Nat.lt_succ_of_lt (ha token hmem)
  | give routes n route =>
    intro token hmem
    rcases (AList.mem_insert _).mp hmem with rfl | hmem
    · exact Nat.lt_succ_self _
    · exact Nat.lt_succ_of_lt (ha token hmem)
  | back routes n token' => exact fun token hmem => ha token (AList.mem_erase.mp hmem).2

/-- A token that has been given out keeps its route or loses it, and gets no other one. -/
def KeepsTokens (a b : (AList fun _ : Token => Route) × Token) : Prop :=
  a.2 ≤ b.2 ∧ ∀ token < a.2, b.1.lookup token = a.1.lookup token ∨ b.1.lookup token = none

omit [TcpSocket σ] [Splice μ] in
theorem KeepsTokens.trans {a b c : (AList fun _ : Token => Route) × Token}
    (hab : KeepsTokens a b) (hbc : KeepsTokens b c) : KeepsTokens a c := by
  refine ⟨hab.1.trans hbc.1, fun token hlt => ?_⟩
  rcases hbc.2 token (Nat.lt_of_lt_of_le hlt hab.1) with heq | hnone
  · rw [heq]
    exact hab.2 token hlt
  · exact Or.inr hnone

omit [TcpSocket σ] [Splice μ] in
theorem TokenAct.keeps {a b : (AList fun _ : Token => Route) × Token} (h : TokenAct a b) :
    KeepsTokens a b := by
  cases h with
  | burn routes n => exact ⟨Nat.le_succ n, fun _ _ => Or.inl rfl⟩
  | give routes n route =>
    refine ⟨Nat.le_succ n, fun token hlt => Or.inl ?_⟩
    exact AList.lookup_insert_ne (Nat.ne_of_lt hlt)
  | back routes n token' =>
    refine ⟨Nat.le_refl n, fun token _ => ?_⟩
    by_cases heq : token = token'
    · subst heq
      exact Or.inr (AList.lookup_erase _ _)
    · exact Or.inl (AList.lookup_erase_ne heq)

omit [TcpSocket σ] [Splice μ] in
theorem allocated_of_tokens {a b : (AList fun _ : Token => Route) × Token}
    (h : ReflTransGen TokenAct a b) (ha : ∀ token ∈ a.1, token < a.2) :
    ∀ token ∈ b.1, token < b.2 := by
  induction h with
  | refl => exact ha
  | tail _ hact ih => exact hact.allocated ih

omit [TcpSocket σ] [Splice μ] in
theorem keepsTokens_of_tokens {a b : (AList fun _ : Token => Route) × Token}
    (h : ReflTransGen TokenAct a b) : KeepsTokens a b := by
  induction h with
  | refl => exact ⟨Nat.le_refl _, fun _ _ => Or.inl rfl⟩
  | tail _ hact ih => exact ih.trans hact.keeps

/-- Upstreams belong to live flows, whose ids have been given out. -/
theorem Act.live (hact : Act P C s s') (h : s.Consistent) :
    (∀ id, (s'.flow id).up.isSome = true → id ∈ s'.stack.flows) ∧
      ∀ id ∈ s'.stack.flows, id < s'.stack.nextId := by
  have hset (id : FlowId) (x : Flow σ μ) (hx : x.up.isSome = true → (s.flow id).up.isSome = true)
      (id' : FlowId) (hup : ((s.setFlow id x).flow id').up.isSome = true) :
      id' ∈ s.stack.flows := by
    rw [flow_setFlow] at hup
    split_ifs at hup with hid
    · subst hid
      exact h.live _ (hx hup)
    · exact h.live _ hup
  cases hact with
  | same _ hs =>
    rw [hs.stack]
    refine ⟨fun id hup => h.live id ?_, h.numbered⟩
    unfold Forwarder.flow at hup ⊢
    rwa [hs.flows] at hup
  | emit es _ => exact ⟨h.live, h.numbered⟩
  | burn => exact ⟨h.live, h.numbered⟩
  | flow id h' x hacts =>
    refine ⟨hset id x fun hx => ?_, h.numbered⟩
    rcases hacts.tracks with ⟨ht, -⟩ | ⟨up, -, hnone, -⟩
    · have := congrArg Option.isSome ht
      simp only [Option.isSome_map] at this
      rwa [← this]
    · rw [show x.up = none from hnone] at hx
      cases hx
  | world id x hworld =>
    refine ⟨hset id x fun hx => ?_, h.numbered⟩
    cases hworld with
    | poll p => exact hx
    | hear news => simpa using hx
    | deliver readable => simpa using hx
  | listen tuple socket _ =>
    constructor
    · intro id hup
      refine (AList.mem_insert _).mpr (Or.inr ?_)
      exact hset s.stack.nextId _ (fun hx => by cases hx) id hup
    · intro id hmem
      rcases (AList.mem_insert _).mp hmem with rfl | hmem
      · exact Nat.lt_succ_self _
      · exact Nat.lt_succ_of_lt (h.numbered id hmem)
  | openUp id server uid tls socket hlive _ _ _ =>
    refine ⟨fun id' hup => ?_, h.numbered⟩
    rw [flow_setFlow] at hup
    split_ifs at hup with hid
    · subst hid
      exact hlive
    · exact h.live _ hup
  | remove id hup =>
    unfold removeFlow
    split
    · exact ⟨h.live, h.numbered⟩
    · refine ⟨fun id' hup' => ?_, fun id' hmem => h.numbered id' (AList.mem_erase.mp hmem).2⟩
      change ((s.setFlow id _).flow id').up.isSome = true at hup'
      rw [flow_setFlow] at hup'
      split_ifs at hup' with hid
      · rw [show _ = none from hup] at hup'
        cases hup'
      · exact AList.mem_erase.mpr ⟨hid, h.live _ hup'⟩
  | addUdp key u _ _ => exact ⟨h.live, h.numbered⟩
  | setUdp key u u' _ _ => exact ⟨h.live, h.numbered⟩
  | dropUdp key u _ => exact ⟨h.live, h.numbered⟩
  | addSocks key u _ _ _ => exact ⟨h.live, h.numbered⟩
  | setSocks key u u' _ _ _ => exact ⟨h.live, h.numbered⟩
  | dropSocks key u _ => exact ⟨h.live, h.numbered⟩
  | addDnsTcp job => exact ⟨h.live, h.numbered⟩
  | setDnsTcp token job job' _ => exact ⟨h.live, h.numbered⟩
  | dropDnsTcp token job _ => exact ⟨h.live, h.numbered⟩
  | addDnsTls job => exact ⟨h.live, h.numbered⟩
  | setDnsTls token job job' _ => exact ⟨h.live, h.numbered⟩
  | dropDnsTls token job _ => exact ⟨h.live, h.numbered⟩

/-- Sessions of datagrams stay under the key they were made for. -/
theorem Act.udpKeys (hact : Act P C s s') (h : s.Consistent) :
    ∀ key u, s'.udp.lookup key = some u → u.app = key.app ∧ u.server = key.server := by
  have hinsert (key : UdpKey) (u : UdpSession) (hu : u.app = key.app ∧ u.server = key.server)
      (key' : UdpKey) (u' : UdpSession) (hl : (s.udp.insert key u).lookup key' = some u') :
      u'.app = key'.app ∧ u'.server = key'.server := by
    rcases of_lookup_insert hl with ⟨rfl, rfl⟩ | hl
    · exact hu
    · exact h.udpKeys key' u' hl
  cases hact with
  | same _ hs =>
    rw [hs.udp]
    exact h.udpKeys
  | remove id _ =>
    unfold removeFlow
    split <;> exact h.udpKeys
  | addUdp key u _ hu =>
    obtain ⟨-, hu⟩ := Prod.mk.inj hu
    exact hinsert key u (Prod.mk.inj hu)
  | setUdp key u u' hu hident =>
    obtain ⟨-, hident⟩ := Prod.mk.inj hident
    obtain ⟨happ, hserver⟩ := Prod.mk.inj hident
    obtain ⟨hkey, hkey'⟩ := h.udpKeys key u hu
    exact hinsert key u' ⟨happ.trans hkey, hserver.trans hkey'⟩
  | dropUdp key u _ => exact fun key' u' hl => h.udpKeys key' u' (of_lookup_erase hl)
  | _ => exact h.udpKeys

theorem Act.socksKeys (hact : Act P C s s') (h : s.Consistent) :
    ∀ key u, s'.socksUdp.lookup key = some u → u.app = key.app ∧ u.replySrc = key.server := by
  have hinsert (key : UdpKey) (u : Socks5UdpSession)
      (hu : u.app = key.app ∧ u.replySrc = key.server) (key' : UdpKey) (u' : Socks5UdpSession)
      (hl : (s.socksUdp.insert key u).lookup key' = some u') :
      u'.app = key'.app ∧ u'.replySrc = key'.server := by
    rcases of_lookup_insert hl with ⟨rfl, rfl⟩ | hl
    · exact hu
    · exact h.socksKeys key' u' hl
  cases hact with
  | same _ hs =>
    rw [hs.socksUdp]
    exact h.socksKeys
  | remove id _ =>
    unfold removeFlow
    split <;> exact h.socksKeys
  | addSocks key u _ _ hu =>
    obtain ⟨-, hu⟩ := Prod.mk.inj hu
    obtain ⟨-, hu⟩ := Prod.mk.inj hu
    obtain ⟨happ, hu⟩ := Prod.mk.inj hu
    exact hinsert key u ⟨happ, (Prod.mk.inj hu).1⟩
  | setSocks key u u' hu hident _ =>
    obtain ⟨-, hident⟩ := Prod.mk.inj hident
    obtain ⟨-, hident⟩ := Prod.mk.inj hident
    obtain ⟨happ, hident⟩ := Prod.mk.inj hident
    obtain ⟨hkey, hkey'⟩ := h.socksKeys key u hu
    exact hinsert key u' ⟨happ.trans hkey, (Prod.mk.inj hident).1.trans hkey'⟩
  | dropSocks key u _ => exact fun key' u' hl => h.socksKeys key' u' (of_lookup_erase hl)
  | _ => exact h.socksKeys

theorem Act.consistent (hact : Act P C s s') (h : s.Consistent) : s'.Consistent where
  routed := hact.routed h
  allocated := allocated_of_tokens hact.tokens h.allocated
  live := (hact.live h).1
  numbered := (hact.live h).2
  udpKeys := hact.udpKeys h
  socksKeys := hact.socksKeys h

omit [TcpSocket σ] [Splice μ] in
theorem consistent_new (config : Config μ) : (new config : Forwarder σ μ).Consistent where
  routed := by
    refine .empty fun t r => ?_
    cases r <;> simp [Owns, new, Forwarder.flow]
  allocated := fun token hmem => absurd hmem (AList.notMem_empty _)
  live := by simp [new, Forwarder.flow]
  numbered := fun id hmem => absurd hmem (AList.notMem_empty _)
  udpKeys := by simp [new]
  socksKeys := by simp [new]

variable [LawfulSplice μ] {w : Wire} {config : Config μ}

theorem consistent_of_reachable (h : (automaton w config).Reachable s) : s.Consistent :=
  invariant_of_acts (consistent_new config) (fun _ _ hact hs => hact.consistent hs) h

theorem keepsTokens_of_step {a : Input σ μ} (h : step w s a = some s') :
    KeepsTokens s.tokens s'.tokens := by
  have hacts := acts_of_step h
  clear h
  induction hacts with
  | refl => exact ⟨Nat.le_refl _, fun _ _ => Or.inl rfl⟩
  | tail _ hact ih => exact ih.trans (keepsTokens_of_tokens hact.tokens)

/-- In every state that is reached, the tables and the routes agree; from then on each token that
has been given out keeps its route until it loses it for good. -/
theorem sessions_consistent (h : (automaton w config).Reachable s) {as : List (Input σ μ)}
    {t : Forwarder σ μ} (hrun : (automaton w config).runFrom s as = some t) :
    s.Consistent ∧ KeepsTokens s.tokens t.tokens := by
  refine ⟨consistent_of_reachable h, ?_⟩
  have hkeep : (automaton w config).Keeps fun t : Forwarder σ μ => KeepsTokens s.tokens t.tokens :=
    fun t a t' ht hstep => ht.trans (keepsTokens_of_step hstep)
  exact hkeep.runFrom ⟨Nat.le_refl _, fun _ _ => Or.inl rfl⟩ hrun

end Acts

end Forwarder

/-- A configuration that changes nothing about the traffic. -/
def plainConfig : Config μ where
  dnsOverride := none
  dnsPort := 53
  dnsTransport := .plain
  dnsHost := none
  dnsPath := none
  encryptedDnsMode := .off
  tls := none
  logOpen := false
  cosmeticElementHiding := false
  cosmeticScriptlets := false
  proxy := none
  proxyBroken := false
  proxyDnsOverTcp := false

/-- UDP from port 40000 of the tunnel address to 9.9.9.9, with one byte of payload. -/
def udpPacket (port : UInt8) : Bytes :=
  [0x45, 0, 0, 29, 0, 0, 0, 0, 64, 17, 0, 0, 10, 111, 222, 2, 9, 9, 9, 9,
    0x9C, 0x40, 0, port, 0, 9, 0, 0, 7]

namespace Forwarder

/-- The app sends a datagram to port 80. -/
def sendsOnce : List (Input PlainSocket PlainSplice) :=
  [.answers [.opened] true, .packet (udpPacket 80) 10]

def idlesLong : List (Input PlainSocket PlainSplice) :=
  [.elapse 120001, .service (fun _ => .still) [] []]

/-- A session is opened and, after two minutes, reaped. -/
theorem sessions_consistent_reaped :
    ∃ s t, (automaton .plain plainConfig).run sendsOnce = some s ∧
      (automaton .plain plainConfig).runFrom s idlesLong = some t ∧
      s.shared.routes.keys = [16] ∧ t.shared.routes.keys = [] ∧
      s.Consistent ∧ KeepsTokens s.tokens t.tokens := by
  refine ⟨_, _, rfl, rfl, by decide +kernel, by decide +kernel, ?_⟩
  exact @sessions_consistent _ _ _ _ _ _ .plain plainConfig ⟨sendsOnce, rfl⟩ idlesLong _ rfl

end Forwarder

end Adwarden.Core
