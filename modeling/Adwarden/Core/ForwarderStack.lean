import Adwarden.Core.ForwarderActs

/-! The stack within the forwarder. Its tables are those of the TCP stack by itself, after the calls
that the steps of the forwarder make on it. -/
namespace Adwarden.Core
open Adwarden.Lib Adwarden.Net Adwarden.Tls

variable {σ μ : Type}

/-- The sockets of the forwarder as the library of the stack; `add` names their handles. -/
def socketLibrary (σ : Type) [TcpSocket σ] (add : List Stack.SocketHandle → Stack.SocketHandle) :
    Stack.Smoltcp :=
  ⟨add, fun server => (TcpSocket.listen server tcpRxBuf tcpTxBuf : Option σ).isSome⟩

def TcpFlow.of (flow : Stack.TcpFlow) : TcpFlow := ⟨flow.tuple, flow.closedNotified⟩

namespace NetStack

/-- `n` has the tables of `s`, except that it has already told of the flows in `told`. -/
structure Tracks (told : List FlowId) (n : Stack.NetStack) (s : NetStack) : Prop where
  flows : ∀ id, (n.flows.lookup id).map TcpFlow.of = (s.flows.lookup id).map fun f =>
    { f with closedNotified := f.closedNotified || decide (id ∈ told) }
  byTuple : ∀ t, n.byTuple.lookup t = s.byTuple.lookup t
  nextId : n.nextId = s.nextId
  maxFlows : n.maxFlows = s.maxFlows

variable {told told' : List FlowId} {n : Stack.NetStack} {s : NetStack} {id : FlowId}

theorem tracks_new : Tracks [] (.new defaultMaxFlows) .new :=
  ⟨fun _ => rfl, fun _ => rfl, rfl, rfl⟩

theorem Tracks.congr (h : Tracks told n s) (hmem : ∀ id, id ∈ told ↔ id ∈ told') :
    Tracks told' n s := by
  refine ⟨fun id => ?_, h.byTuple, h.nextId, h.maxFlows⟩
  rw [h.flows id]
  simp only [hmem id]

theorem Tracks.lookup (h : Tracks [] n s) (id : FlowId) :
    (n.flows.lookup id).map TcpFlow.of = s.flows.lookup id := by
  simpa using h.flows id

theorem Tracks.mem_iff (h : Tracks told n s) : id ∈ n.flows ↔ id ∈ s.flows := by
  have hsome := congrArg Option.isSome (h.flows id)
  rw [Option.isSome_map, Option.isSome_map] at hsome
  rw [← AList.lookup_isSome, ← AList.lookup_isSome, hsome]

theorem Tracks.size (h : Tracks told n s) : n.flows.keys.length = s.flows.keys.length := by
  refine List.Perm.length_eq ?_
  rw [List.perm_ext_iff_of_nodup n.flows.keys_nodup s.flows.keys_nodup]
  exact fun id => h.mem_iff

/-- A flow is found in both, with its tuple. -/
theorem Tracks.cases (h : Tracks told n s) (id : FlowId) :
    (n.flows.lookup id = none ∧ s.flows.lookup id = none) ∨
      ∃ flow f, n.flows.lookup id = some flow ∧ s.flows.lookup id = some f ∧
        flow.tuple = f.tuple ∧ flow.closedNotified = (f.closedNotified || decide (id ∈ told)) := by
  have hid := h.flows id
  cases hn : n.flows.lookup id with
  | none =>
    rw [hn, Option.map_none, eq_comm, Option.map_eq_none_iff] at hid
    exact Or.inl ⟨rfl, hid⟩
  | some flow =>
    rw [hn, Option.map_some, eq_comm, Option.map_eq_some_iff] at hid
    obtain ⟨f, hf, hsame⟩ := hid
    obtain ⟨htuple, htold⟩ := TcpFlow.mk.inj hsame
    exact Or.inr ⟨flow, f, rfl, hf, htuple.symm, htold.symm⟩

/-- A flow is gone from both. -/
theorem Tracks.erase (h : Tracks (id :: told) n s) {sockets : Stack.SocketSet} {t : FourTuple} :
    Tracks told
      { n with sockets := sockets, flows := n.flows.erase id, byTuple := n.byTuple.erase t }
      { s with flows := s.flows.erase id, byTuple := s.byTuple.erase t } where
  flows := fun id' => by
    by_cases hid : id' = id
    · subst hid
      simp
    · simpa [AList.lookup_erase_ne hid, hid] using h.flows id'
  byTuple := fun t' => by
    by_cases ht : t' = t
    · subst ht
      simp
    · simpa [AList.lookup_erase_ne ht] using h.byTuple t'
  nextId := h.nextId
  maxFlows := h.maxFlows

end NetStack

namespace Forwarder

section Frame

variable [TcpSocket σ] [Splice μ] {P : Egress → Prop} {C : Causes} {s s' : Forwarder σ μ}

theorem Act.stack (hact : Act P C s s') (hnew : ¬ C.created) (hend : ¬ C.removed) :
    s'.stack = s.stack := by
  cases hact with
  | same _ hs _ => exact hs.stack
  | listen tuple socket _ h => exact absurd h hnew
  | remove id _ h => exact absurd h hend
  | _ => rfl

theorem Acts.stack (hacts : Acts P C s s') (hnew : ¬ C.created) (hend : ¬ C.removed) :
    s'.stack = s.stack :=
  eq_of_acts (fun _ _ hact => hact.stack hnew hend) hacts

/-- Acts that create no flow and end none. -/
abbrev Inner : Forwarder σ μ → Forwarder σ μ → Prop := Acts (fun _ => True) .inner

theorem Inner.stack (h : Inner s s') : s'.stack = s.stack := Acts.stack h not_false not_false

end Frame

section Calls

variable [TcpSocket σ] {add : List Stack.SocketHandle → Stack.SocketHandle} {w : Wire}
  {s : Forwarder σ μ} {n : Stack.NetStack} {told : List FlowId}

/-- The stack and the forwarder create the same flows. -/
theorem onTcpPacket_tracks (h : NetStack.Tracks [] n s.stack) (packet : Bytes) :
    (n.onTcpPacket (socketLibrary σ add) w packet).1 = (s.onTcpPacket (peekTcp w packet)).1 ∧
      NetStack.Tracks [] (n.onTcpPacket (socketLibrary σ add) w packet).2
        (s.onTcpPacket (peekTcp w packet)).2.stack := by
  unfold Stack.NetStack.onTcpPacket onTcpPacket
  cases peekTcp w packet with
  | none => exact ⟨rfl, h⟩
  | some peek =>
    dsimp only
    rw [h.byTuple, h.maxFlows, h.size]
    split_ifs
    · exact ⟨rfl, h⟩
    · have hlistens : (socketLibrary σ add).listens peek.server =
          (TcpSocket.listen peek.server tcpRxBuf tcpTxBuf : Option σ).isSome := rfl
      unfold Stack.NetStack.createFlow
      dsimp only
      rw [hlistens]
      cases (TcpSocket.listen peek.server tcpRxBuf tcpTxBuf : Option σ) with
      | none => exact ⟨rfl, h⟩
      | some socket =>
        simp only [Option.isSome_some, Bool.not_true, Bool.false_eq_true, if_false, h.nextId]
        refine ⟨trivial, fun id => ?_, fun t => ?_, rfl, h.maxFlows⟩
        · by_cases hid : id = s.stack.nextId
          · subst hid
            simp [TcpFlow.of]
          · simpa [AList.lookup_insert_ne hid] using h.lookup id
        · by_cases ht : t = ⟨peek.app, peek.server⟩
          · subst ht
            simp
          · simpa [AList.lookup_insert_ne ht] using h.byTuple t
    · exact ⟨rfl, h⟩

/-- A packet creates the same flow in whatever stands around the stack. -/
theorem onTcpPacket_stack {t : Forwarder σ μ} (h : t.stack = s.stack) (peek : Option TcpPeek) :
    (t.onTcpPacket peek).2.stack = (s.onTcpPacket peek).2.stack := by
  unfold onTcpPacket
  cases peek with
  | none => exact h
  | some peek =>
    dsimp only
    rw [h]
    split_ifs
    · exact h
    · cases (TcpSocket.listen peek.server tcpRxBuf tcpTxBuf : Option σ) with
      | none => exact h
      | some socket => rfl
    · exact h

omit [TcpSocket σ] in
theorem removeFlow_tracks {id : FlowId} (h : NetStack.Tracks (id :: told) n s.stack)
    (hb : Stack.Bookkept n) :
    ∃ n', n.removeFlow id = some n' ∧ Stack.Bookkept n' ∧
      NetStack.Tracks told n' (s.removeFlow id).stack := by
  obtain ⟨n', hremove, hb', -⟩ := hb.removeFlow id
  refine ⟨n', hremove, hb', ?_⟩
  unfold Stack.NetStack.removeFlow at hremove
  unfold removeFlow
  rcases h.cases id with ⟨hn, hs⟩ | ⟨flow, f, hn, hs, htuple, -⟩
  · rw [hn] at hremove
    obtain rfl := Option.some.inj hremove
    rw [hs]
    refine ⟨fun id' => ?_, h.byTuple, h.nextId, h.maxFlows⟩
    by_cases hid : id' = id
    · subst hid
      rw [hn, hs]
      rfl
    · simpa [hid] using h.flows id'
  · simp only [hn, Option.bind_eq_bind, Option.bind_eq_some_iff] at hremove
    obtain ⟨sockets, -, hremove⟩ := hremove
    obtain rfl := Option.some.inj hremove
    rw [hs, htuple]
    exact h.erase

/-- What the sockets of the flows are, by their handles. -/
def socketState (s : Forwarder σ μ) (n : Stack.NetStack) (handle : Stack.SocketHandle) :
    TcpState :=
  match n.snapshot.find? fun p => p.2 == handle with
  | some p => ((s.flow p.1).socket.map fun socket => (TcpSocket.view socket).state).getD .listen
  | none => .closed

theorem socketState_eq (hb : Stack.Bookkept n) {id : FlowId} {flow : Stack.TcpFlow}
    (hflow : n.flows.lookup id = some flow) :
    s.socketState n flow.handle =
      ((s.flow id).socket.map fun socket => (TcpSocket.view socket).state).getD .listen := by
  have hmem : (id, flow.handle) ∈ n.snapshot :=
    List.mem_map.mpr ⟨⟨id, flow⟩, AList.mem_lookup_iff.mp hflow, rfl⟩
  unfold socketState
  cases hfind : n.snapshot.find? fun p => p.2 == flow.handle with
  | none => exact absurd (List.find?_eq_none.mp hfind _ hmem) (by simp)
  | some p =>
    obtain ⟨⟨id', flow'⟩, hentry, rfl⟩ := List.mem_map.mp (List.mem_of_find?_eq_some hfind)
    have hflow' : n.flows.lookup id' = some flow' := AList.mem_lookup_iff.mpr hentry
    have hsame : flow'.handle = flow.handle := by simpa using List.find?_some hfind
    obtain rfl := hb.distinct id' id flow' flow hflow' hflow hsame
    rfl

theorem mem_closedFlows {id : FlowId} :
    id ∈ s.closedFlows ↔ ∃ f socket, s.stack.flows.lookup id = some f ∧
      (s.flow id).socket = some socket ∧ f.closedNotified = false ∧
      (TcpSocket.view socket).state = .closed := by
  unfold closedFlows
  rw [List.mem_filter, ← AList.mem_keys, ← AList.lookup_isSome]
  cases s.stack.flows.lookup id <;> cases (s.flow id).socket <;> simp

/-- A poll tells of the flows that the forwarder finds closed. -/
theorem poll_tracks (h : NetStack.Tracks [] n s.stack) (hb : Stack.Bookkept n) :
    ∃ outcome n', n.poll (s.socketState n) n.snapshot = some (outcome, n') ∧
      Stack.Bookkept n' ∧ NetStack.Tracks s.closedFlows n' s.stack := by
  obtain ⟨outcome, n', hpoll, hb', hn⟩ := hb.poll (s.socketState n) (List.Perm.refl _)
  refine ⟨outcome, n', hpoll, hb', ?_⟩
  have hclosed (id : FlowId) : id ∈ outcome.closed ↔ id ∈ s.closedFlows := by
    simp only [Stack.NetStack.poll, Option.bind_eq_bind, Option.bind_eq_some_iff] at hpoll
    obtain ⟨⟨closed, n₁⟩, hflows, hend⟩ := hpoll
    obtain ⟨rfl, rfl⟩ := Prod.mk.inj (Option.some.inj hend)
    rw [Stack.mem_pollFlows n.snapshot_nodup hflows, mem_closedFlows]
    constructor
    · rintro ⟨p, hp, rfl, hstate, flow, hflow, huntold⟩
      obtain ⟨⟨id, flow'⟩, hentry, rfl⟩ := List.mem_map.mp hp
      rw [Stack.NetStack.evolved_flows] at hflow
      obtain rfl := Option.some.inj (hflow.symm.trans (AList.mem_lookup_iff.mpr hentry))
      have hs := h.lookup id
      rw [hflow, Option.map_some] at hs
      have hstate : s.socketState n flow.handle = .closed := hstate
      rw [socketState_eq hb hflow] at hstate
      cases hsocket : (s.flow id).socket with
      | none => simp [hsocket] at hstate
      | some socket =>
        rw [hsocket] at hstate
        exact ⟨_, socket, hs.symm, rfl, huntold, hstate⟩
    · rintro ⟨f, socket, hf, hsocket, huntold, hstate⟩
      have hs := h.lookup id
      rw [hf, Option.map_eq_some_iff] at hs
      obtain ⟨flow, hflow, rfl⟩ := hs
      refine ⟨(id, flow.handle), List.mem_map.mpr ⟨⟨id, flow⟩, AList.mem_lookup_iff.mp hflow, rfl⟩,
        rfl, ?_, flow, hflow, huntold⟩
      refine (socketState_eq hb hflow).trans ?_
      rw [hsocket]
      exact hstate
  refine NetStack.Tracks.congr ⟨fun id => ?_, fun t => ?_, ?_, ?_⟩ hclosed
  · rw [hn.lookup, Stack.NetStack.evolved_flows, Option.map_map, ← h.lookup id, Option.map_map]
    rfl
  · rw [hn.byTuple]
    exact h.byTuple t
  · rw [hn.nextId]
    exact h.nextId
  · rw [hn.maxFlows]
    exact h.maxFlows

end Calls

section Steps

variable [TcpSocket σ] [Splice μ] {w : Wire} {s s' : Forwarder σ μ}

theorem onTcp_stack (s : Forwarder σ μ) (packet : Bytes) (d : Decoded) (owner : ℤ) :
    (s.onTcp w packet d owner).stack = s.stack ∨
      (s.onTcp w packet d owner).stack = (s.onTcpPacket (peekTcp w packet)).2.stack := by
  unfold onTcp
  extract_lets v t r
  split_ifs
  · exact Or.inl rfl
  · exact Or.inl rfl
  · exact Or.inl rfl
  · have ht : t.stack = s.stack := rfl
    have haccount : (t.account d v.1.uid false none).stack = t.stack :=
      Inner.stack (acts_account t d v.1.uid false none)
    have hr : r.2.stack = (s.onTcpPacket (peekTcp w packet)).2.stack :=
      onTcpPacket_stack (haccount.trans ht) _
    right
    split
    · exact hr
    · next id server hflow =>
      obtain ⟨hlive, ⟨socket, hflow, hlisten⟩, -, -⟩ := onTcpPacket_some hflow
      exact (Inner.stack (acts_openTcp r.2 id server v.1.uid hlive hflow hlisten trivial)).trans hr

theorem onUdp_stack (s : Forwarder σ μ) (packet : Bytes) (d : Decoded) (owner : ℤ)
    (hd : decode packet = some d) (hudp : d.proto = .udp) :
    (s.onUdp w packet d owner).stack = s.stack :=
  Acts.stack (C := { Causes.inner with judged := True }) (acts_onUdp w s packet d owner hd hudp
    (fun _ => permitted_any s packet) trivial) not_false not_false

theorem onTunPacket_stack (s : Forwarder σ μ) (packet : Bytes) (owner : ℤ) :
    (s.onTunPacket w packet owner).stack = s.stack ∨
      (s.onTunPacket w packet owner).stack = (s.onTcpPacket (peekTcp w packet)).2.stack := by
  unfold onTunPacket
  cases hd : decode packet with
  | none => exact Or.inl rfl
  | some d =>
    dsimp only
    split
    · exact onTcp_stack s packet d owner
    · next hudp => exact Or.inl (onUdp_stack s packet d owner hd hudp)
    · left
      split_ifs <;> rfl

/-- What a step makes of the stack: a packet may be for it, and a service pass polls it. -/
theorem stack_of_step [LawfulSplice μ] {a : Input σ μ} (h : step w s a = some s') :
    s'.stack = s.stack ∨
      (∃ packet, s'.stack = (s.onTcpPacket (peekTcp w packet)).2.stack) ∨
      ∃ polls, s'.stack = (s.pollSockets polls).sweepClosed.stack := by
  cases a with
  | packet packet owner =>
    obtain rfl := Option.some.inj h
    exact (onTunPacket_stack s packet owner).imp_right fun h => Or.inl ⟨packet, h⟩
  | service polls order emitted =>
    simp only [step] at h
    split_ifs at h
    obtain rfl := Option.some.inj h
    exact Or.inr (Or.inr ⟨polls, Inner.stack (acts_service_swept s polls order emitted)⟩)
  | ready token event =>
    obtain rfl := Option.some.inj h
    exact Or.inl (Inner.stack ((acts_deliver s token event).trans
      (acts_onReady _ token event (mayRelay_any _))))
  | arrive token a =>
    obtain rfl := Option.some.inj h
    exact Or.inl (Inner.stack (acts_arrive s token a trivial))
  | command c =>
    obtain rfl := Option.some.inj h
    cases c <;> exact Or.inl rfl
  | elapse ms =>
    obtain rfl := Option.some.inj h
    exact Or.inl rfl
  | answers dials relayConnects =>
    obtain rfl := Option.some.inj h
    exact Or.inl rfl
  | splices c =>
    obtain rfl := Option.some.inj h
    exact Or.inl rfl

end Steps

section Runs

variable [TcpSocket σ] [Splice μ] (l : Stack.Smoltcp) (w : Wire) (max : ℕ) {config : Config μ}
  {s s' : Forwarder σ μ} {o : Stack.Observed}

omit [TcpSocket σ] [Splice μ] in
/-- The flows that were told of are removed one by one. -/
theorem sweep_tracks {ids : List FlowId} (h : NetStack.Tracks ids o.stack s.stack)
    (hb : Stack.Bookkept o.stack) :
    ∃ o', (Stack.calls l w max).runFrom o (ids.map .removeFlow) = some o' ∧
      NetStack.Tracks [] o'.stack
        (ids.foldl (fun s id => (s.onFlow id Flow.teardownTcp).removeFlow id) s).stack := by
  induction ids generalizing o s with
  | nil => exact ⟨o, rfl, h⟩
  | cons id ids ih =>
    have htorn : NetStack.Tracks (id :: ids) o.stack (s.onFlow id Flow.teardownTcp).stack := h
    obtain ⟨n', hremove, hb', h'⟩ := removeFlow_tracks htorn hb
    have hstep : (Stack.calls l w max).step o (.removeFlow id) = some { o with stack := n' } := by
      rw [Stack.calls_step (c := .removeFlow id) trivial]
      simp only [Stack.Observed.call, hremove, Option.bind_eq_bind, Option.bind_some]
    obtain ⟨o', hrun, hend⟩ := ih (o := { o with stack := n' }) h' hb'
    exact ⟨o', (Automaton.runFrom_cons _).mpr ⟨_, hstep, hrun⟩, hend⟩

omit [Splice μ] in
/-- A service pass polls the stack, and removes the flows that it tells of. -/
theorem sweepClosed_tracks (h : NetStack.Tracks [] o.stack s.stack)
    (hb : Stack.Bookkept o.stack) :
    ∃ o', (Stack.calls l w max).runFrom o (.poll (s.socketState o.stack) o.stack.snapshot ::
        s.closedFlows.map .removeFlow) = some o' ∧
      NetStack.Tracks [] o'.stack s.sweepClosed.stack := by
  obtain ⟨outcome, n', hpoll, hb', h'⟩ := poll_tracks h hb
  have hstep : (Stack.calls l w max).step o (.poll (s.socketState o.stack) o.stack.snapshot) =
      some { o with stack := n', closed := o.closed ++ outcome.closed } := by
    rw [Stack.calls_step (c := .poll _ _) (List.Perm.refl _)]
    simp only [Stack.Observed.call, hpoll, Option.bind_eq_bind, Option.bind_some]
  obtain ⟨o', hrun, hend⟩ := sweep_tracks l w max
    (o := { o with stack := n', closed := o.closed ++ outcome.closed }) h' hb'
  exact ⟨o', (Automaton.runFrom_cons _).mpr ⟨_, hstep, hrun⟩, hend⟩

variable {w max} [LawfulSplice μ]

/-- Each step is made of calls on the stack. -/
theorem step_tracks {add : List Stack.SocketHandle → Stack.SocketHandle} {a : Input σ μ}
    (h : NetStack.Tracks [] o.stack s.stack) (hb : Stack.Bookkept o.stack)
    (hstep : step w s a = some s') :
    ∃ cs o', (Stack.calls (socketLibrary σ add) w max).runFrom o cs = some o' ∧
      NetStack.Tracks [] o'.stack s'.stack := by
  rcases stack_of_step hstep with hs | ⟨packet, hs⟩ | ⟨polls, hs⟩
  · exact ⟨[], o, rfl, hs ▸ h⟩
  · refine ⟨[.onTcpPacket packet], _,
      (Automaton.runFrom_cons _).mpr ⟨_, Stack.calls_step trivial, rfl⟩, ?_⟩
    rw [hs]
    exact (onTcpPacket_tracks h packet).2
  · have hpolled : (s.pollSockets polls).stack = s.stack := Inner.stack (acts_pollSockets s polls)
    have h : NetStack.Tracks [] o.stack (s.pollSockets polls).stack := hpolled ▸ h
    obtain ⟨o', hrun, hend⟩ := sweepClosed_tracks (socketLibrary σ add) w max h hb
    exact ⟨_, o', hrun, hs ▸ hend⟩

/-- Whatever the forwarder does, its stack goes through calls on the TCP stack, none of which
panics. -/
theorem stack_calls {add : List Stack.SocketHandle → Stack.SocketHandle}
    (hadd : (socketLibrary σ add).Lawful) {as : List (Input σ μ)}
    (h : (automaton w config).run as = some s) :
    ∃ cs o, (Stack.calls (socketLibrary σ add) w defaultMaxFlows).run cs = some o ∧
      NetStack.Tracks [] o.stack s.stack := by
  have hinit : (Stack.calls (socketLibrary σ add) w defaultMaxFlows).Reachable
      (Stack.calls (socketLibrary σ add) w defaultMaxFlows).init := ⟨[], rfl⟩
  obtain ⟨cs, o, hrun, -, htracks⟩ := Automaton.runFrom_simulates
    (R := fun (s : Forwarder σ μ) o =>
      (Stack.calls (socketLibrary σ add) w defaultMaxFlows).Reachable o ∧
        NetStack.Tracks [] o.stack s.stack)
    (fun s o a s' hso hstep => by
      obtain ⟨⟨before, hbefore⟩, htracks⟩ := hso
      obtain ⟨cs, o', hrun, hend⟩ :=
        step_tracks htracks (Stack.Kept.reachable hadd ⟨before, hbefore⟩).books hstep
      exact ⟨cs, o', hrun, ⟨before ++ cs, (Automaton.runFrom_append _).mpr ⟨o, hbefore, hrun⟩⟩,
        hend⟩)
    (s := .new config) ⟨hinit, NetStack.tracks_new⟩ h
  exact ⟨cs, o, hrun, htracks⟩

/-- The books of the stack of the forwarder: a tuple leads to the live flow that has it, ids are
not given twice, and the flows fit the capacity. -/
theorem stack_bookkept (h : (automaton w config).Reachable s) :
    (∀ t id, s.stack.byTuple.lookup t = some id ↔
        ∃ f, s.stack.flows.lookup id = some f ∧ f.tuple = t) ∧
      (∀ id ∈ s.stack.flows, id < s.stack.nextId) ∧
      s.stack.flows.keys.length ≤ defaultMaxFlows := by
  obtain ⟨as, has⟩ := h
  have hadd : (socketLibrary σ Stack.firstFree).Lawful := ⟨Stack.firstFree_notMem⟩
  obtain ⟨cs, o, hrun, htracks⟩ := stack_calls hadd has
  have hkept := Stack.Kept.reachable hadd ⟨cs, hrun⟩
  refine ⟨fun t id => ?_, fun id hid => ?_, ?_⟩
  · rw [← htracks.byTuple, hkept.books.byTuple, ← htracks.lookup id]
    unfold Stack.Leads
    simp [TcpFlow.of]
  · rw [← htracks.nextId]
    exact hkept.books.numbered id (htracks.mem_iff.mpr hid)
  · rw [← htracks.size]
    exact hkept.books.capped.trans hkept.maxFlows.le

end Runs

end Forwarder

end Adwarden.Core
