import Adwarden.Core.DnsRouting
import Adwarden.Lib.Sweep

/-! What a service pass leaves of the sessions that wait for something: which of them are reaped,
and by which clock. -/
namespace Adwarden.Core
open Relation Adwarden.Lib Adwarden.Net Adwarden.Tls Adwarden.Dns

variable {σ μ : Type}

namespace Forwarder

def setRoutes (s : Forwarder σ μ) (routes : AList fun _ : Token => Route) : Forwarder σ μ :=
  { s with shared := { s.shared with routes := routes } }

section Frames

theorem teardownSocks_frame (s : Forwarder σ μ) (key : UdpKey) :
    ∃ routes socks, s.teardownSocks key = { s.setRoutes routes with socksUdp := socks } := by
  unfold teardownSocks
  split
  · exact ⟨_, _, rfl⟩
  · exact ⟨_, _, rfl⟩

theorem reapUdp_frame (s : Forwarder σ μ) :
    ∃ routes udp, s.reapUdp = { s.setRoutes routes with udp := udp } := by
  refine List.foldlRecOn (motive := fun t => ∃ routes udp,
    t = { s.setRoutes routes with udp := udp }) s.udp.keys _ ⟨s.shared.routes, s.udp, rfl⟩ ?_
  rintro t ⟨routes, udp, rfl⟩ key -
  split
  · split_ifs
    · exact ⟨_, _, rfl⟩
    · exact ⟨_, _, rfl⟩
  · exact ⟨_, _, rfl⟩

theorem reapSocks_frame (s : Forwarder σ μ) :
    ∃ routes socks, s.reapSocks = { s.setRoutes routes with socksUdp := socks } := by
  refine List.foldlRecOn (motive := fun t => ∃ routes socks,
    t = { s.setRoutes routes with socksUdp := socks }) s.socksUdp.keys _
    ⟨s.shared.routes, s.socksUdp, rfl⟩ ?_
  rintro t ⟨routes, socks, rfl⟩ key -
  split
  · split_ifs
    · obtain ⟨routes', socks', h⟩ := teardownSocks_frame
        ({ s.setRoutes routes with socksUdp := socks } : Forwarder σ μ) key
      rw [h]
      exact ⟨routes', socks', rfl⟩
    · exact ⟨_, _, rfl⟩
  · exact ⟨_, _, rfl⟩

theorem reapDnsTcp_frame (s : Forwarder σ μ) :
    ∃ routes jobs, s.reapDnsTcp = { s.setRoutes routes with dnsTcp := jobs } := by
  refine List.foldlRecOn (motive := fun t => ∃ routes jobs,
    t = { s.setRoutes routes with dnsTcp := jobs }) s.dnsTcp.keys _
    ⟨s.shared.routes, s.dnsTcp, rfl⟩ ?_
  rintro t ⟨routes, jobs, rfl⟩ token -
  split
  · split_ifs
    · unfold teardownDnsTcp
      split <;> exact ⟨_, _, rfl⟩
    · exact ⟨_, _, rfl⟩
  · exact ⟨_, _, rfl⟩

theorem reapDnsTls_frame (s : Forwarder σ μ) :
    ∃ routes jobs, s.reapDnsTls = { s.setRoutes routes with dnsTls := jobs } := by
  refine List.foldlRecOn (motive := fun t => ∃ routes jobs,
    t = { s.setRoutes routes with dnsTls := jobs }) s.dnsTls.keys _
    ⟨s.shared.routes, s.dnsTls, rfl⟩ ?_
  rintro t ⟨routes, jobs, rfl⟩ token -
  split
  · split_ifs
    · unfold teardownDnsTls
      split <;> exact ⟨_, _, rfl⟩
    · exact ⟨_, _, rfl⟩
  · exact ⟨_, _, rfl⟩

end Frames

section Tables

/-- What a sweep leaves of one entry. -/
theorem erase_late {α β : Type} [DecidableEq α] (table : AList fun _ : α => β) (late : β → Bool)
    (k k' : α) :
    (match table.lookup k with
      | some b => if late b then table.erase k else table
      | none => table).lookup k' =
      if k' = k then (table.lookup k).filter fun b => !late b else table.lookup k' := by
  by_cases hk : k' = k
  · subst hk
    rw [if_pos rfl]
    cases hb : table.lookup k' with
    | none => exact hb
    | some b =>
      dsimp only
      split_ifs with hl
      · rw [AList.lookup_erase, Option.filter_some_neg (by simp [hl])]
      · rw [hb, Option.filter_some_pos (by simp [hl])]
  · rw [if_neg hk]
    split
    · split_ifs
      · exact AList.lookup_erase_ne hk
      · rfl
    · rfl

/-- A pass over all keys of a table filters the table. -/
theorem lookup_pass {α β : Type} [DecidableEq α] {I : Forwarder σ μ → Prop}
    {table : Forwarder σ μ → AList fun _ : α => β} {turn : Forwarder σ μ → α → Forwarder σ μ}
    {keep : β → Bool}
    (h : Sweeps I (fun s k => (table s).lookup k) turn fun o => o.filter keep)
    {s : Forwarder σ μ} (hs : I s) (k : α) :
    (table ((table s).keys.foldl turn s)).lookup k = ((table s).lookup k).filter keep := by
  rw [h.look_foldl (table s).keys_nodup hs k]
  split_ifs with hmem
  · rfl
  · rw [AList.lookup_eq_none.mpr (fun hk => hmem (AList.mem_keys.mp hk))]
    rfl

/-- The turns of a reaper: an entry that is late is erased. -/
theorem sweeps_of_turn {α β : Type} [DecidableEq α] {I : Forwarder σ μ → Prop}
    {table : Forwarder σ μ → AList fun _ : α => β} {turn : Forwarder σ μ → α → Forwarder σ μ}
    {late : β → Bool} (hkeep : ∀ s k, I s → I (turn s k))
    (hturn : ∀ s k, I s → table (turn s k) =
      match (table s).lookup k with
      | some b => if late b then (table s).erase k else table s
      | none => table s) :
    Sweeps I (fun s k => (table s).lookup k) turn fun o => o.filter fun b => !late b where
  keeps := hkeep
  look_turn := by
    intro s k k' hs
    rw [hturn s k hs]
    exact erase_late (table s) late k k'

def lateDnsTcp (now : ℤ) (job : DnsTcpJob) : Bool := decide (dnsTcpTimeoutMs < now - job.createdMs)

def lateDnsTls (now : ℤ) (job : DnsTlsJob) : Bool := decide (dnsTlsTimeoutMs < now - job.createdMs)

def idleSocks (now : ℤ) (u : Socks5UdpSession) : Bool := decide (udpIdleMs < now - u.lastUsedMs)

/-- The reaper of handshakes goes by the last use of an association. -/
def stuckSocks (now : ℤ) (u : Socks5UdpSession) : Bool :=
  u.handshake.isSome && decide (proxyHsTimeoutMs < now - u.lastUsedMs)

theorem lookup_reapDnsTcp (s : Forwarder σ μ) (token : Token) :
    s.reapDnsTcp.dnsTcp.lookup token =
      (s.dnsTcp.lookup token).filter fun job => !lateDnsTcp s.shared.now job := by
  refine lookup_pass (I := fun t => t.shared.now = s.shared.now)
    (sweeps_of_turn (fun t k ht => ?_) fun t k ht => ?_) rfl token
  · split
    · split_ifs
      · unfold teardownDnsTcp
        split <;> exact ht
      · exact ht
    · exact ht
  · cases hj : t.dnsTcp.lookup k with
    | none => rfl
    | some job =>
      simp only [lateDnsTcp, decide_eq_true_eq, ← ht]
      split_ifs
      · unfold teardownDnsTcp
        rw [hj]
      · rfl

theorem lookup_reapDnsTls (s : Forwarder σ μ) (token : Token) :
    s.reapDnsTls.dnsTls.lookup token =
      (s.dnsTls.lookup token).filter fun job => !lateDnsTls s.shared.now job := by
  refine lookup_pass (I := fun t => t.shared.now = s.shared.now)
    (sweeps_of_turn (fun t k ht => ?_) fun t k ht => ?_) rfl token
  · split
    · split_ifs
      · unfold teardownDnsTls
        split <;> exact ht
      · exact ht
    · exact ht
  · cases hj : t.dnsTls.lookup k with
    | none => rfl
    | some job =>
      simp only [lateDnsTls, decide_eq_true_eq, ← ht]
      split_ifs
      · unfold teardownDnsTls
        rw [hj]
      · rfl

theorem teardownSocks_now (s : Forwarder σ μ) (key : UdpKey) :
    (s.teardownSocks key).shared.now = s.shared.now := by
  unfold teardownSocks
  split <;> rfl

theorem teardownSocks_table (s : Forwarder σ μ) (key : UdpKey) {u : Socks5UdpSession}
    (hu : s.socksUdp.lookup key = some u) :
    (s.teardownSocks key).socksUdp = s.socksUdp.erase key := by
  unfold teardownSocks
  rw [hu]

theorem lookup_reapSocks (s : Forwarder σ μ) (key : UdpKey) :
    s.reapSocks.socksUdp.lookup key =
      (s.socksUdp.lookup key).filter fun u => !idleSocks s.shared.now u := by
  refine lookup_pass (I := fun t => t.shared.now = s.shared.now)
    (sweeps_of_turn (fun t k ht => ?_) fun t k ht => ?_) rfl key
  · split
    · split_ifs
      · exact (teardownSocks_now t k).trans ht
      · exact ht
    · exact ht
  · cases hu : t.socksUdp.lookup k with
    | none => rfl
    | some u =>
      simp only [idleSocks, decide_eq_true_eq, ← ht]
      split_ifs
      · exact teardownSocks_table t k hu
      · rfl

end Tables

section Handshakes

variable [TcpSocket σ] [Splice μ]

/-- The first pass of `reapProxyHandshakes`, over the flows. -/
def reapTcpHandshakes (s : Forwarder σ μ) : Forwarder σ μ :=
  s.flows.keys.foldl (fun s id =>
    match (s.flow id).up with
    | some up =>
      if up.handshake.isSome && decide (proxyHsTimeoutMs < s.shared.now - up.openedMs) then
        s.onFlow id Flow.failProxy
      else s
    | none => s) s

/-- Its second pass, over the associations. -/
def reapSocksHandshakes (s : Forwarder σ μ) : Forwarder σ μ :=
  s.socksUdp.keys.foldl (fun s key =>
    match s.socksUdp.lookup key with
    | some session =>
      if session.handshake.isSome && decide (proxyHsTimeoutMs < s.shared.now - session.lastUsedMs) then
        { s with socksUdpUnsupported := true }.teardownSocks key
      else s
    | none => s) s

omit [Splice μ] in
theorem reapProxyHandshakes_eq (s : Forwarder σ μ) :
    s.reapProxyHandshakes = s.reapTcpHandshakes.reapSocksHandshakes := rfl

/-- What the reaper of handshakes makes of a flow. -/
def failLate (now : ℤ) (x : Flow σ μ) : Flow σ μ :=
  match x.up with
  | some up =>
    if up.handshake.isSome && decide (proxyHsTimeoutMs < now - up.openedMs) then
      { x.abort with up := none }
    else x
  | none => x

omit [Splice μ] in
theorem failProxy_snd (h : Shared μ) (x : Flow σ μ) :
    (Flow.failProxy h x).2 = { x.abort with up := none } := by
  unfold Flow.failProxy Flow.teardownTcp
  obtain ⟨socket, up, calls⟩ := x
  cases up <;> rfl

omit [TcpSocket σ] [Splice μ] in
theorem flow_of_notMem {s : Forwarder σ μ} {id : FlowId} (h : id ∉ s.flows.keys) :
    s.flow id = ⟨none, none, []⟩ := by
  unfold flow
  rw [AList.lookup_eq_none.mpr (fun hk => h (AList.mem_keys.mp hk))]
  rfl

theorem flow_reapTcpHandshakes (s : Forwarder σ μ) (id : FlowId) :
    s.reapTcpHandshakes.flow id = failLate s.shared.now (s.flow id) := by
  have hsweeps : Sweeps (fun t : Forwarder σ μ => t.shared.now = s.shared.now) flow
      (fun t id => match (t.flow id).up with
        | some up =>
          if up.handshake.isSome && decide (proxyHsTimeoutMs < t.shared.now - up.openedMs) then
            t.onFlow id Flow.failProxy
          else t
        | none => t) (failLate s.shared.now) := by
    refine ⟨fun t k ht => ?_, fun t k k' ht => ?_⟩
    · split
      · split_ifs
        · exact (Flow.moves_failProxy t.shared (t.flow k) []).acts.sameConfig.now.trans ht
        · exact ht
      · exact ht
    · unfold failLate
      cases hup : (t.flow k).up with
      | none =>
        dsimp only
        split_ifs with hk
        · rw [hk]
        · rfl
      | some up =>
        dsimp only
        rw [ht]
        by_cases hlate : (up.handshake.isSome &&
            decide (proxyHsTimeoutMs < s.shared.now - up.openedMs)) = true
        · rw [if_pos hlate, if_pos hlate]
          unfold onFlow
          change ((t.setFlow k _).flow k') = _
          rw [flow_setFlow, failProxy_snd]
        · rw [if_neg hlate, if_neg hlate]
          split_ifs with hk
          · rw [hk]
          · rfl
  have h := hsweeps.look_foldl s.flows.keys_nodup (s := s) rfl id
  refine (show s.reapTcpHandshakes.flow id = _ from h).trans ?_
  split_ifs with hmem
  · rfl
  · rw [flow_of_notMem hmem]
    rfl

omit [TcpSocket σ] [Splice μ] in
theorem lookup_reapSocksHandshakes (s : Forwarder σ μ) (key : UdpKey) :
    s.reapSocksHandshakes.socksUdp.lookup key =
      (s.socksUdp.lookup key).filter fun u => !stuckSocks s.shared.now u := by
  refine lookup_pass (I := fun t => t.shared.now = s.shared.now)
    (sweeps_of_turn (fun t k ht => ?_) fun t k ht => ?_) rfl key
  · split
    · split_ifs
      · exact (teardownSocks_now _ k).trans ht
      · exact ht
    · exact ht
  · cases hu : t.socksUdp.lookup k with
    | none => rfl
    | some u =>
      simp only [stuckSocks, ← ht]
      split_ifs
      · exact teardownSocks_table _ k hu
      · rfl

omit [TcpSocket σ] [Splice μ] in
theorem reapSocksHandshakes_frame (s : Forwarder σ μ) :
    ∃ routes socks unsupported, s.reapSocksHandshakes =
      { s.setRoutes routes with socksUdp := socks, socksUdpUnsupported := unsupported } := by
  refine List.foldlRecOn (motive := fun t => ∃ routes socks unsupported,
    t = { s.setRoutes routes with socksUdp := socks, socksUdpUnsupported := unsupported })
    s.socksUdp.keys _ ⟨s.shared.routes, s.socksUdp, s.socksUdpUnsupported, rfl⟩ ?_
  rintro t ⟨routes, socks, unsupported, rfl⟩ key -
  split
  · split_ifs
    · obtain ⟨routes', socks', h⟩ := teardownSocks_frame
        ({ s.setRoutes routes with
          socksUdp := socks, socksUdpUnsupported := true } : Forwarder σ μ) key
      exact ⟨routes', socks', true, h⟩
    · exact ⟨_, _, _, rfl⟩
  · exact ⟨_, _, _, rfl⟩

/-- What the reaper of deferred flows makes of a flow. -/
def abortLate (now : ℤ) (x : Flow σ μ) : Flow σ μ :=
  match x.up with
  | some up =>
    if up.isPending && decide (pendingSniTimeoutMs < now - up.openedMs) then x.abort else x
  | none => x

end Handshakes

section Timers

/-- The clock and the tables that lookups and associations wait in are the same. -/
structure SameTimers (s t : Forwarder σ μ) : Prop where
  now : t.shared.now = s.shared.now
  socksUdp : t.socksUdp = s.socksUdp
  dnsTcp : t.dnsTcp = s.dnsTcp
  dnsTls : t.dnsTls = s.dnsTls

theorem SameTimers.refl (s : Forwarder σ μ) : s.SameTimers s := ⟨rfl, rfl, rfl, rfl⟩

theorem SameTimers.trans {a b c : Forwarder σ μ} (hab : a.SameTimers b) (hbc : b.SameTimers c) :
    a.SameTimers c :=
  ⟨hbc.now.trans hab.now, hbc.socksUdp.trans hab.socksUdp, hbc.dnsTcp.trans hab.dnsTcp,
    hbc.dnsTls.trans hab.dnsTls⟩

theorem sameTimers_foldl {α : Type} {f : Forwarder σ μ → α → Forwarder σ μ}
    (hf : ∀ s a, SameTimers s (f s a)) (s : Forwarder σ μ) (l : List α) :
    s.SameTimers (l.foldl f s) := by
  induction l generalizing s with
  | nil => exact .refl s
  | cons a l ih => exact (hf s a).trans (ih (f s a))

variable [TcpSocket σ] [Splice μ]

theorem sameTimers_onFlow {f : Shared μ → Flow σ μ → Shared μ × Flow σ μ} (s : Forwarder σ μ)
    (id : FlowId) (hf : ∀ h x, Micro.Acts ⟨h, x, []⟩ ⟨(f h x).1, (f h x).2, []⟩) :
    s.SameTimers (s.onFlow id f) :=
  ⟨(hf s.shared (s.flow id)).sameConfig.now, rfl, rfl, rfl⟩

theorem sameTimers_sweepClosed (s : Forwarder σ μ) : s.SameTimers s.sweepClosed := by
  refine sameTimers_foldl (fun s id => ?_) s _
  refine (sameTimers_onFlow s id fun h x =>
    (Micro.Moves.single (.teardown ⟨h, x, []⟩)).acts).trans ?_
  unfold removeFlow
  split
  · exact .refl _
  · exact ⟨rfl, rfl, rfl, rfl⟩

theorem sameTimers_relay [LawfulSplice μ] (s : Forwarder σ μ) (polls : FlowId → Poll σ)
    (order : List FlowId) :
    s.SameTimers
      (order.foldl (fun s id => s.onFlow id Flow.servicePass) (s.pollSockets polls).sweepClosed) := by
  refine SameTimers.trans ?_ (sameTimers_foldl (fun s id =>
    sameTimers_onFlow s id Flow.acts_servicePass) _ order)
  refine SameTimers.trans ?_ (sameTimers_sweepClosed _)
  refine sameTimers_foldl (fun t id => ?_) s _
  exact ⟨rfl, rfl, rfl, rfl⟩

theorem sameTimers_reapTcpHandshakes (s : Forwarder σ μ) :
    s.SameTimers s.reapTcpHandshakes := by
  refine sameTimers_foldl (fun s id => ?_) s _
  split
  · split_ifs
    · exact sameTimers_onFlow s id fun h x => (Flow.moves_failProxy h x []).acts
    · exact .refl s
  · exact .refl s

omit [Splice μ] in
theorem sameTimers_reapPendingSni (s : Forwarder σ μ) : s.SameTimers s.reapPendingSni := by
  refine sameTimers_foldl (fun s id => ?_) s _
  split
  · split_ifs
    · exact ⟨rfl, rfl, rfl, rfl⟩
    · exact .refl s
  · exact .refl s

omit [Splice μ] in
theorem flow_reapPendingSni (s : Forwarder σ μ) (id : FlowId) :
    s.reapPendingSni.flow id = abortLate s.shared.now (s.flow id) := by
  have hsweeps : Sweeps (fun t : Forwarder σ μ => t.shared.now = s.shared.now) flow
      (fun t id => match (t.flow id).up with
        | some up =>
          if up.isPending && decide (pendingSniTimeoutMs < t.shared.now - up.openedMs) then
            t.setFlow id (t.flow id).abort
          else t
        | none => t) (abortLate s.shared.now) := by
    refine ⟨fun t k ht => ?_, fun t k k' ht => ?_⟩
    · split
      · split_ifs
        · exact ht
        · exact ht
      · exact ht
    · unfold abortLate
      cases hup : (t.flow k).up with
      | none =>
        dsimp only
        split_ifs with hk
        · rw [hk]
        · rfl
      | some up =>
        dsimp only
        rw [ht]
        by_cases hlate : (up.isPending &&
            decide (pendingSniTimeoutMs < s.shared.now - up.openedMs)) = true
        · rw [if_pos hlate, if_pos hlate, flow_setFlow]
        · rw [if_neg hlate, if_neg hlate]
          split_ifs with hk
          · rw [hk]
          · rfl
  have h := hsweeps.look_foldl s.flows.keys_nodup (s := s) rfl id
  refine (show s.reapPendingSni.flow id = _ from h).trans ?_
  split_ifs with hmem
  · rfl
  · rw [flow_of_notMem hmem]
    rfl

/-- What the reapers leave in each table, by the clock of the pass. -/
structure Reaped (s t : Forwarder σ μ) : Prop where
  now : t.shared.now = s.shared.now
  socksUdp : ∀ key, t.socksUdp.lookup key =
    ((s.socksUdp.lookup key).filter fun u => !idleSocks s.shared.now u).filter
      fun u => !stuckSocks s.shared.now u
  dnsTcp : ∀ token, t.dnsTcp.lookup token =
    (s.dnsTcp.lookup token).filter fun job => !lateDnsTcp s.shared.now job
  dnsTls : ∀ token, t.dnsTls.lookup token =
    (s.dnsTls.lookup token).filter fun job => !lateDnsTls s.shared.now job
  flow : ∀ id, t.flow id = abortLate s.shared.now (failLate s.shared.now (s.flow id))

/-- The tables after the reapers that go by age alone. -/
structure Aged (s t : Forwarder σ μ) : Prop where
  now : t.shared.now = s.shared.now
  flows : t.flows = s.flows
  socksUdp : ∀ key, t.socksUdp.lookup key =
    (s.socksUdp.lookup key).filter fun u => !idleSocks s.shared.now u
  dnsTcp : ∀ token, t.dnsTcp.lookup token =
    (s.dnsTcp.lookup token).filter fun job => !lateDnsTcp s.shared.now job
  dnsTls : ∀ token, t.dnsTls.lookup token =
    (s.dnsTls.lookup token).filter fun job => !lateDnsTls s.shared.now job

omit [TcpSocket σ] [Splice μ] in
theorem aged_reapers (s : Forwarder σ μ) :
    s.Aged s.reapUdp.reapSocks.reapDnsTcp.reapDnsTls := by
  obtain ⟨r₁, udp, hudp⟩ := reapUdp_frame s
  obtain ⟨r₂, socks, hsocks⟩ := reapSocks_frame s.reapUdp
  obtain ⟨r₃, tcp, htcp⟩ := reapDnsTcp_frame s.reapUdp.reapSocks
  obtain ⟨r₄, tls, htls⟩ := reapDnsTls_frame s.reapUdp.reapSocks.reapDnsTcp
  have h₁ : s.SameTimers s.reapUdp := by
    rw [hudp]
    exact ⟨rfl, rfl, rfl, rfl⟩
  have hnow₂ : s.reapUdp.reapSocks.shared.now = s.shared.now := by
    rw [hsocks]
    exact h₁.now
  have hnow₃ : s.reapUdp.reapSocks.reapDnsTcp.shared.now = s.shared.now := by
    rw [htcp]
    exact hnow₂
  refine ⟨?_, ?_, fun key => ?_, fun token => ?_, fun token => ?_⟩
  · rw [htls]
    exact hnow₃
  · rw [htls]
    change s.reapUdp.reapSocks.reapDnsTcp.flows = s.flows
    rw [htcp]
    change s.reapUdp.reapSocks.flows = s.flows
    rw [hsocks]
    change s.reapUdp.flows = s.flows
    rw [hudp]
    rfl
  · rw [htls]
    change s.reapUdp.reapSocks.reapDnsTcp.socksUdp.lookup key = _
    rw [htcp]
    change s.reapUdp.reapSocks.socksUdp.lookup key = _
    rw [lookup_reapSocks, h₁.socksUdp, h₁.now]
  · rw [htls]
    change s.reapUdp.reapSocks.reapDnsTcp.dnsTcp.lookup token = _
    rw [lookup_reapDnsTcp, hnow₂, hsocks]
    change (s.reapUdp.dnsTcp.lookup token).filter _ = _
    rw [h₁.dnsTcp]
  · rw [lookup_reapDnsTls, hnow₃, htcp]
    change (s.reapUdp.reapSocks.dnsTls.lookup token).filter _ = _
    rw [hsocks]
    change (s.reapUdp.dnsTls.lookup token).filter _ = _
    rw [h₁.dnsTls]

theorem Aged.reaped {s t : Forwarder σ μ} (h : s.Aged t) :
    s.Reaped t.reapProxyHandshakes.reapPendingSni := by
  have hd := t.sameTimers_reapTcpHandshakes
  obtain ⟨r, socks, unsupported, hstuck⟩ := reapSocksHandshakes_frame t.reapTcpHandshakes
  have he := t.reapProxyHandshakes.sameTimers_reapPendingSni
  have hnow : t.reapProxyHandshakes.shared.now = s.shared.now := by
    rw [reapProxyHandshakes_eq, hstuck]
    exact hd.now.trans h.now
  refine ⟨he.now.trans hnow, fun key => ?_, fun token => ?_, fun token => ?_, fun id => ?_⟩
  · rw [he.socksUdp, reapProxyHandshakes_eq, lookup_reapSocksHandshakes, hd.socksUdp, h.socksUdp,
      hd.now, h.now]
  · rw [he.dnsTcp, reapProxyHandshakes_eq, hstuck, ← h.dnsTcp]
    exact congrArg (AList.lookup token) hd.dnsTcp
  · rw [he.dnsTls, reapProxyHandshakes_eq, hstuck, ← h.dnsTls]
    exact congrArg (AList.lookup token) hd.dnsTls
  · rw [flow_reapPendingSni, hnow, reapProxyHandshakes_eq, hstuck]
    change abortLate s.shared.now (t.reapTcpHandshakes.flow id) = _
    rw [flow_reapTcpHandshakes, h.now]
    unfold Forwarder.flow
    rw [h.flows]

omit [Splice μ] in
theorem Reaped.send {s t : Forwarder σ μ} (h : s.Reaped t) (packets : List Outbound) :
    s.Reaped (t.send packets) :=
  ⟨h.now, h.socksUdp, h.dnsTcp, h.dnsTls, h.flow⟩

/-- A service pass ends with the reapers, and before them it leaves the timers alone. -/
theorem service_reaped [LawfulSplice μ] (s : Forwarder σ μ) (polls : FlowId → Poll σ)
    (order : List FlowId) (emitted : List Bytes) :
    ∃ b, s.SameTimers b ∧ b.Reaped (s.service polls order emitted) := by
  refine ⟨_, sameTimers_relay s polls order, ?_⟩
  unfold service
  extract_lets a b c
  exact (aged_reapers b).reaped.send _

end Timers

section Deadlines

variable [TcpSocket σ]

/-- Nothing that is half open is older than its deadline; a deferred flow that is has been
aborted. -/
structure Timely (s : Forwarder σ μ) : Prop where
  handshakes : ∀ id up, (s.flow id).up = some up → up.handshake.isSome = true →
    s.shared.now - up.openedMs ≤ proxyHsTimeoutMs
  associations : ∀ key u, s.socksUdp.lookup key = some u → u.handshake.isSome = true →
    s.shared.now - u.createdMs ≤ proxyHsTimeoutMs
  deferred : ∀ id up, (s.flow id).up = some up → up.isPending = true →
    pendingSniTimeoutMs < s.shared.now - up.openedMs →
    ∀ socket, (s.flow id).socket = some socket → (TcpSocket.view socket).state = .closed
  dnsTcp : ∀ token job, s.dnsTcp.lookup token = some job →
    s.shared.now - job.createdMs ≤ dnsTcpTimeoutMs
  dnsTls : ∀ token job, s.dnsTls.lookup token = some job →
    s.shared.now - job.createdMs ≤ dnsTlsTimeoutMs

/-- No association whose handshake is overdue has been used since. -/
def Unrefreshed (s : Forwarder σ μ) : Prop :=
  ∀ key u, s.socksUdp.lookup key = some u → u.handshake.isSome = true →
    proxyHsTimeoutMs < s.shared.now - u.createdMs → proxyHsTimeoutMs < s.shared.now - u.lastUsedMs

theorem handshake_of_failLate {now : ℤ} {x : Flow σ μ} {up : TcpUpstream μ}
    (hup : (failLate now x).up = some up) (hhs : up.handshake.isSome = true) :
    now - up.openedMs ≤ proxyHsTimeoutMs := by
  unfold failLate at hup
  cases hx : x.up with
  | none =>
    rw [hx] at hup
    cases hx.symm.trans hup
  | some up' =>
    rw [hx] at hup
    dsimp only at hup
    split_ifs at hup with hlate
    obtain rfl := Option.some.inj (hx.symm.trans hup)
    simp only [hhs, Bool.true_and, decide_eq_true_eq] at hlate
    exact Int.not_lt.mp hlate

theorem up_abortLate (now : ℤ) (x : Flow σ μ) : (abortLate now x).up = x.up := by
  unfold abortLate
  cases hx : x.up with
  | none => exact hx
  | some up =>
    dsimp only
    split_ifs
    · exact hx
    · exact hx

theorem closed_of_abortLate [LawfulTcpSocket σ] {now : ℤ} {x : Flow σ μ} {up : TcpUpstream μ}
    (hup : x.up = some up) (hpending : up.isPending = true)
    (hlate : pendingSniTimeoutMs < now - up.openedMs) {socket : σ}
    (hsocket : (abortLate now x).socket = some socket) :
    (TcpSocket.view socket).state = .closed := by
  unfold abortLate at hsocket
  rw [hup] at hsocket
  simp only [hpending, Bool.true_and, decide_eq_true_eq, if_pos hlate] at hsocket
  obtain ⟨s, -, rfl⟩ := Option.map_eq_some_iff.mp hsocket
  rw [LawfulTcpSocket.view_abort]

/-- An association that is not overdue by its last use is not idle either. -/
theorem lookup_of_reaped {s t : Forwarder σ μ} (h : s.Reaped t) (key : UdpKey)
    (u : Socks5UdpSession) (hhs : u.handshake.isSome = true) :
    t.socksUdp.lookup key = some u ↔
      s.socksUdp.lookup key = some u ∧ s.shared.now - u.lastUsedMs ≤ proxyHsTimeoutMs := by
  have hstuck : (!stuckSocks s.shared.now u) = true ↔
      s.shared.now - u.lastUsedMs ≤ proxyHsTimeoutMs := by
    simp [stuckSocks, hhs]
  rw [h.socksUdp, Option.filter_eq_some_iff, Option.filter_eq_some_iff, hstuck]
  constructor
  · rintro ⟨⟨hu, -⟩, hrecent⟩
    exact ⟨hu, hrecent⟩
  · rintro ⟨hu, hrecent⟩
    refine ⟨⟨hu, ?_⟩, hrecent⟩
    simp only [idleSocks, Bool.not_eq_true', decide_eq_false_iff_not]
    unfold udpIdleMs
    unfold proxyHsTimeoutMs at hrecent
    omega

theorem timely_of_reaped_iff [LawfulTcpSocket σ] {s t : Forwarder σ μ} (h : s.Reaped t) :
    Timely t ↔ Unrefreshed s := by
  constructor
  · intro ht key u hu hhs hold
    by_contra hrecent
    have hkept := (lookup_of_reaped h key u hhs).mpr ⟨hu, Int.not_lt.mp hrecent⟩
    have := ht.associations key u hkept hhs
    rw [h.now] at this
    exact absurd hold (Int.not_lt.mpr this)
  · intro hs
    refine ⟨fun id up hup hhs => ?_, fun key u hu hhs => ?_,
      fun id up hup hpending hlate socket hsocket => ?_, fun token job hjob => ?_,
      fun token job hjob => ?_⟩
    · rw [h.flow, up_abortLate] at hup
      rw [h.now]
      exact handshake_of_failLate hup hhs
    · obtain ⟨hu, hrecent⟩ := (lookup_of_reaped h key u hhs).mp hu
      rw [h.now]
      by_contra hold
      exact absurd (hs key u hu hhs (Int.not_le.mp hold)) (Int.not_lt.mpr hrecent)
    · rw [h.flow] at hsocket hup
      rw [up_abortLate] at hup
      rw [h.now] at hlate
      exact closed_of_abortLate hup hpending hlate hsocket
    · rw [h.dnsTcp, Option.filter_eq_some_iff] at hjob
      rw [h.now]
      simpa [lateDnsTcp] using hjob.2
    · rw [h.dnsTls, Option.filter_eq_some_iff] at hjob
      rw [h.now]
      simpa [lateDnsTls] using hjob.2

variable [Splice μ]

/-- A service pass leaves nothing overdue. -/
def PassTimely (s : Forwarder σ μ) : Input σ μ → Prop
  | .service polls order emitted => Timely (s.service polls order emitted)
  | _ => True

/-- A service pass finds no overdue association that has been used since. -/
def PassUnrefreshed (s : Forwarder σ μ) : Input σ μ → Prop
  | .service _ _ _ => Unrefreshed s
  | _ => True

theorem passTimely_iff [LawfulTcpSocket σ] [LawfulSplice μ] (s : Forwarder σ μ)
    (a : Input σ μ) : PassTimely s a ↔ PassUnrefreshed s a := by
  cases a with
  | service polls order emitted =>
    obtain ⟨b, hsame, hreaped⟩ := service_reaped s polls order emitted
    refine (timely_of_reaped_iff hreaped).trans ?_
    unfold Unrefreshed
    rw [hsame.socksUdp, hsame.now]
    exact Iff.rfl
  | _ => exact Iff.rfl

/-- In exactly the runs in which no pass finds an overdue association that has been used since,
every pass leaves nothing overdue. -/
theorem passes_timely_iff [LawfulTcpSocket σ] [LawfulSplice μ] (w : Wire) (config : Config μ)
    (as : List (Input σ μ)) :
    (automaton w config).EachStep PassTimely (new config) as ↔
      (automaton w config).EachStep PassUnrefreshed (new config) as :=
  Automaton.eachStep_congr (I := fun _ => True) (fun _ _ _ _ _ => trivial)
    (fun s a _ => passTimely_iff s a) trivial as

end Deadlines

/-- The proxy never answers, and the app tries once. -/
def triesOnce : List (Input PlainSocket PlainSplice) :=
  [.answers [.opened, .opened] true, .packet (udpPacket 80) 10, .elapse 12000,
    .service (fun _ => .still) [] []]

theorem passes_timely_triesOnce :
    (automaton .plain socksConfig).EachStep PassTimely (new socksConfig) triesOnce := by
  refine (passes_timely_iff .plain socksConfig triesOnce).mpr
    ⟨trivial, trivial, trivial, ?_, trivial⟩
  intro key u hu _ hold
  rcases of_lookup_insert hu with ⟨-, rfl⟩ | hnone
  · exact hold
  · cases hnone

/-- The app tries again after six seconds; twelve seconds after it was made, the association is
still in its handshake. -/
theorem retry_keeps_association :
    ¬ (automaton .plain socksConfig : Automaton (Forwarder PlainSocket PlainSplice) _).EachStep
      PassTimely (new socksConfig)
      [.answers [.opened, .opened] true, .packet (udpPacket 80) 10, .elapse 6000,
        .packet (udpPacket 80) 10, .elapse 6000, .service (fun _ => .still) [] []] := by
  rintro ⟨-, -, -, -, -, hlast, -⟩
  have hassoc := hlast.associations ⟨⟨ip4 10 111 222 2, 40000⟩, ⟨ip4 9 9 9 9, 80⟩⟩ _ rfl
  exact absurd (hassoc (by decide +kernel)) (by decide +kernel)

end Forwarder

end Adwarden.Core
