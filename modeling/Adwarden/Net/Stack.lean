import Adwarden.Lib.Automaton
import Adwarden.Lib.Registry
import Adwarden.Net.Packet
import Adwarden.Net.Tcp

/-! The flow bookkeeping of the TCP stack: flows, the tuples that find them and the sockets they
hold, over any sequence of calls. -/
namespace Adwarden.Net.Stack
open Adwarden.Lib

abbrev FlowId := ℕ

abbrev SocketHandle := ℕ

structure FourTuple where
  app : SocketAddr
  server : SocketAddr
deriving DecidableEq

structure TcpFlow where
  handle : SocketHandle
  tuple : FourTuple
  closedNotified : Bool
deriving DecidableEq

structure PollOutcome where
  newFlows : List (FlowId × SocketAddr) := []
  closed : List FlowId := []

/-- The sockets of the library: the handles in use, and the states of their sockets. -/
structure SocketSet where
  handles : List SocketHandle
  state : SocketHandle → TcpState

/-- What is used of the library: the handle it gives to a new socket among those in use, and
whether a socket can listen on an endpoint. -/
structure Smoltcp where
  add : List SocketHandle → SocketHandle
  listens : SocketAddr → Bool

/-- A new socket gets a handle that no other has. -/
structure Smoltcp.Lawful (l : Smoltcp) : Prop where
  add_notMem : ∀ used, l.add used ∉ used

namespace SocketSet

/-- `none` is the panic on a handle without a socket. -/
def get (sockets : SocketSet) (handle : SocketHandle) : Option TcpState :=
  if handle ∈ sockets.handles then some (sockets.state handle) else none

def set (sockets : SocketSet) (handle : SocketHandle) (state : TcpState) : SocketSet :=
  { sockets with state := Function.update sockets.state handle state }

def remove (sockets : SocketSet) (handle : SocketHandle) : Option SocketSet :=
  if handle ∈ sockets.handles then
    some { sockets with handles := sockets.handles.filter (· ≠ handle) }
  else none

end SocketSet

structure NetStack where
  sockets : SocketSet
  flows : AList fun _ : FlowId => TcpFlow
  byTuple : AList fun _ : FourTuple => FlowId
  nextId : FlowId
  maxFlows : ℕ

namespace NetStack

/-- The stack after `set_max_flows`. -/
def new (max : ℕ) : NetStack where
  sockets := ⟨[], fun _ => .closed⟩
  flows := ∅
  byTuple := ∅
  nextId := 1
  maxFlows := Nat.max max 1

section Calls

variable (l : Smoltcp) (w : Wire)

def createFlow (s : NetStack) (tuple : FourTuple) : Option (FlowId × SocketAddr) × NetStack :=
  if !l.listens tuple.server then (none, s)
  else
    let handle := l.add s.sockets.handles
    let id := s.nextId
    (some (id, tuple.server),
      { s with
        sockets := { s.sockets with handles := handle :: s.sockets.handles }.set handle .listen
        nextId := id + 1
        flows := s.flows.insert id ⟨handle, tuple, false⟩
        byTuple := s.byTuple.insert tuple id })

/-- A TCP packet read off the tunnel; the queue of the device is left out. -/
def onTcpPacket (s : NetStack) (packet : Bytes) : Option (FlowId × SocketAddr) × NetStack :=
  match peekTcp w packet with
  | none => (none, s)
  | some peek =>
    let tuple : FourTuple := ⟨peek.app, peek.server⟩
    if peek.syn && !peek.ack && (s.byTuple.lookup tuple).isNone then
      if s.maxFlows ≤ s.flows.keys.length then (none, s) else s.createFlow l tuple
    else (none, s)

/-- The flow of a closed socket, if nobody was told of it. -/
def noticeClosed (s : NetStack) (id : FlowId) (state : TcpState) : List FlowId × NetStack :=
  if state = .closed then
    match s.flows.lookup id with
    | some flow =>
      if !flow.closedNotified then
        ([id], { s with flows := s.flows.insert id { flow with closedNotified := true } })
      else ([], s)
    | none => ([], s)
  else ([], s)

def pollFlows : List (FlowId × SocketHandle) → NetStack → Option (List FlowId × NetStack)
  | [], s => some ([], s)
  | (id, handle) :: rest, s => do
    let state ← s.sockets.get handle
    let (closed, s) := s.noticeClosed id state
    let (more, s) ← pollFlows rest s
    some (closed ++ more, s)

def snapshot (s : NetStack) : List (FlowId × SocketHandle) :=
  s.flows.entries.map fun e => (e.1, e.2.handle)

/-- The interface has polled: the sockets have taken other states. -/
def evolved (s : NetStack) (evolve : SocketHandle → TcpState) : NetStack :=
  { s with sockets := { s.sockets with state := evolve } }

theorem evolved_flows (s : NetStack) (evolve : SocketHandle → TcpState) :
    (s.evolved evolve).flows = s.flows := rfl

/-- A poll in which the sockets take the states `evolve`; the order of the flows is that of
`order`. -/
def poll (s : NetStack) (evolve : SocketHandle → TcpState) (order : List (FlowId × SocketHandle)) :
    Option (PollOutcome × NetStack) := do
  let (closed, s) ← pollFlows order (s.evolved evolve)
  some ({ closed := closed }, s)

def tcpCloseApp (s : NetStack) (id : FlowId) : Option NetStack :=
  match s.flows.lookup id with
  | none => some s
  | some flow => do
    let state ← s.sockets.get flow.handle
    some { s with sockets := s.sockets.set flow.handle state.close }

def tcpAbort (s : NetStack) (id : FlowId) : Option NetStack :=
  match s.flows.lookup id with
  | none => some s
  | some flow => do
    let _ ← s.sockets.get flow.handle
    some { s with sockets := s.sockets.set flow.handle .closed }

def removeFlow (s : NetStack) (id : FlowId) : Option NetStack :=
  match s.flows.lookup id with
  | none => some s
  | some flow => do
    let sockets ← s.sockets.remove flow.handle
    some { s with
      sockets := sockets, flows := s.flows.erase id, byTuple := s.byTuple.erase flow.tuple }

end Calls

end NetStack

/-- A call, with what the library makes of the sockets in it. -/
inductive Call where
  | onTcpPacket (packet : Bytes)
  | poll (evolve : SocketHandle → TcpState) (order : List (FlowId × SocketHandle))
  | tcpAbort (id : FlowId)
  | tcpCloseApp (id : FlowId)
  | removeFlow (id : FlowId)

/-- A poll goes through the flows in some order. -/
def Call.Possible (s : NetStack) : Call → Prop
  | .poll _ order => order.Perm s.snapshot
  | _ => True

instance (s : NetStack) (c : Call) : Decidable (c.Possible s) := by
  cases c <;> unfold Call.Possible <;> infer_instance

/-- The stack, and what it has reported. -/
structure Observed where
  stack : NetStack
  created : List (FlowId × SocketAddr)
  closed : List FlowId

variable (l : Smoltcp) (w : Wire)

/-- `none` where a call panics. -/
def Observed.call (o : Observed) : Call → Option Observed
  | .onTcpPacket packet =>
    let (flow, stack) := o.stack.onTcpPacket l w packet
    some { o with stack := stack, created := o.created ++ flow.toList }
  | .poll evolve order => do
    let (outcome, stack) ← o.stack.poll evolve order
    some { o with stack := stack, closed := o.closed ++ outcome.closed }
  | .tcpAbort id => do
    let stack ← o.stack.tcpAbort id
    some { o with stack := stack }
  | .tcpCloseApp id => do
    let stack ← o.stack.tcpCloseApp id
    some { o with stack := stack }
  | .removeFlow id => do
    let stack ← o.stack.removeFlow id
    some { o with stack := stack }

def calls (max : ℕ) : Automaton Observed Call where
  init := ⟨.new max, [], []⟩
  step o c := if c.Possible o.stack then o.call l w c else none

theorem calls_step {l : Smoltcp} {w : Wire} {max : ℕ} {o : Observed} {c : Call}
    (hc : c.Possible o.stack) : (calls l w max).step o c = o.call l w c :=
  if_pos hc

/-- A tuple leads to the flow that has it, and to no other. -/
def Leads (s : NetStack) (t : FourTuple) (id : FlowId) : Prop :=
  ∃ flow, s.flows.lookup id = some flow ∧ flow.tuple = t

structure Bookkept (s : NetStack) : Prop where
  byTuple : Registers s.byTuple (Leads s)
  numbered : ∀ id ∈ s.flows, id < s.nextId
  owned : ∀ id flow, s.flows.lookup id = some flow → flow.handle ∈ s.sockets.handles
  distinct : ∀ id id' flow flow', s.flows.lookup id = some flow →
    s.flows.lookup id' = some flow' → flow.handle = flow'.handle → id = id'
  capped : s.flows.keys.length ≤ s.maxFlows

theorem Bookkept.new (max : ℕ) : Bookkept (.new max) where
  byTuple := Registers.empty fun t id h => by
    obtain ⟨flow, hflow, -⟩ := h
    cases hflow
  numbered := fun id h => absurd h (AList.notMem_empty id)
  owned := fun id flow h => by cases h
  distinct := fun id id' flow flow' h => by cases h
  capped := Nat.zero_le _

/-- What a poll does to the flows: those in `closed` have been told of. -/
structure Notifies (closed : List FlowId) (s s' : NetStack) : Prop where
  sockets : s'.sockets = s.sockets
  byTuple : s'.byTuple = s.byTuple
  nextId : s'.nextId = s.nextId
  maxFlows : s'.maxFlows = s.maxFlows
  size : s'.flows.keys.length = s.flows.keys.length
  lookup : ∀ id, s'.flows.lookup id = (s.flows.lookup id).map fun flow =>
    { flow with closedNotified := flow.closedNotified || decide (id ∈ closed) }
  nodup : closed.Nodup
  untold : ∀ id ∈ closed, ∃ flow, s.flows.lookup id = some flow ∧ flow.closedNotified = false

theorem Notifies.refl (s : NetStack) : Notifies [] s s where
  sockets := rfl
  byTuple := rfl
  nextId := rfl
  maxFlows := rfl
  size := rfl
  lookup := fun id => by simp
  nodup := List.nodup_nil
  untold := fun id h => absurd h List.not_mem_nil

theorem Notifies.trans {a b : List FlowId} {s s' s'' : NetStack} (h : Notifies a s s')
    (h' : Notifies b s' s'') : Notifies (a ++ b) s s'' where
  sockets := h'.sockets.trans h.sockets
  byTuple := h'.byTuple.trans h.byTuple
  nextId := h'.nextId.trans h.nextId
  maxFlows := h'.maxFlows.trans h.maxFlows
  size := h'.size.trans h.size
  lookup := fun id => by
    rw [h'.lookup, h.lookup, Option.map_map]
    congr 1
    funext flow
    simp [List.mem_append, Bool.or_assoc]
  nodup := by
    refine List.nodup_append.mpr ⟨h.nodup, h'.nodup, ?_⟩
    rintro id ha _ hb rfl
    obtain ⟨flow, hflow, huntold⟩ := h'.untold id hb
    rw [h.lookup, Option.map_eq_some_iff] at hflow
    obtain ⟨flow, -, rfl⟩ := hflow
    simp [ha] at huntold
  untold := fun id hid => by
    rcases List.mem_append.mp hid with ha | hb
    · exact h.untold id ha
    · obtain ⟨flow, hflow, huntold⟩ := h'.untold id hb
      rw [h.lookup, Option.map_eq_some_iff] at hflow
      obtain ⟨flow, hflow, rfl⟩ := hflow
      refine ⟨flow, hflow, ?_⟩
      rw [Bool.or_eq_false_iff] at huntold
      exact huntold.1

private theorem notifies_one {s : NetStack} {id : FlowId} {flow : TcpFlow}
    (hflow : s.flows.lookup id = some flow) (huntold : flow.closedNotified = false) :
    Notifies [id] s
      { s with flows := s.flows.insert id { flow with closedNotified := true } } where
  sockets := rfl
  byTuple := rfl
  nextId := rfl
  maxFlows := rfl
  size := by
    have hmem : id ∈ s.flows.keys := AList.lookup_isSome.mp (by rw [hflow]; rfl)
    have hpos := List.length_pos_of_mem hmem
    rw [AList.keys_insert, List.length_cons, List.length_erase_of_mem hmem]
    omega
  lookup := fun id' => by
    by_cases hid : id' = id
    · subst hid
      rw [AList.lookup_insert, hflow]
      simp
    · rw [AList.lookup_insert_ne hid]
      simp [hid]
  nodup := List.nodup_singleton id
  untold := fun id' hid => by
    rw [List.mem_singleton.mp hid]
    exact ⟨flow, hflow, huntold⟩

theorem noticeClosed_notifies (s : NetStack) (id : FlowId) (state : TcpState) :
    Notifies (s.noticeClosed id state).1 s (s.noticeClosed id state).2 := by
  unfold NetStack.noticeClosed
  split_ifs
  · cases hflow : s.flows.lookup id with
    | none => exact .refl s
    | some flow =>
      cases huntold : flow.closedNotified with
      | false => simpa [huntold] using notifies_one hflow huntold
      | true => simpa [huntold] using Notifies.refl s
  · exact .refl s

theorem pollFlows_notifies {s : NetStack} {order : List (FlowId × SocketHandle)}
    (h : ∀ p ∈ order, p.2 ∈ s.sockets.handles) :
    ∃ closed s', NetStack.pollFlows order s = some (closed, s') ∧ Notifies closed s s' := by
  induction order generalizing s with
  | nil => exact ⟨[], s, rfl, .refl s⟩
  | cons p order ih =>
    obtain ⟨id, handle⟩ := p
    have hget : s.sockets.get handle = some (s.sockets.state handle) :=
      if_pos (h _ (List.mem_cons_self ..))
    have hone := noticeClosed_notifies s id (s.sockets.state handle)
    obtain ⟨closed, s', hpoll, hrest⟩ :=
      @ih (s.noticeClosed id (s.sockets.state handle)).2 fun p hp => by
        rw [hone.sockets]
        exact h p (List.mem_cons_of_mem _ hp)
    refine ⟨_, s', ?_, hone.trans hrest⟩
    simp only [NetStack.pollFlows, hget, Option.bind_eq_bind, Option.bind_some, hpoll]

/-- The socket of a flow is closed, and nobody was told of it. -/
def NetStack.Ended (s : NetStack) (p : FlowId × SocketHandle) : Prop :=
  s.sockets.state p.2 = .closed ∧ ∃ flow, s.flows.lookup p.1 = some flow ∧
    flow.closedNotified = false

theorem mem_noticeClosed {s : NetStack} {id id' : FlowId} {handle : SocketHandle} :
    id' ∈ (s.noticeClosed id (s.sockets.state handle)).1 ↔ id' = id ∧ s.Ended (id, handle) := by
  unfold NetStack.noticeClosed NetStack.Ended
  dsimp only
  split_ifs with hstate
  · cases hflow : s.flows.lookup id with
    | none => simp
    | some flow => cases huntold : flow.closedNotified <;> simp [hstate, huntold]
  · simp [hstate]

theorem ended_noticeClosed {s : NetStack} {id : FlowId} {state : TcpState}
    {p : FlowId × SocketHandle} (hne : p.1 ≠ id) :
    (s.noticeClosed id state).2.Ended p ↔ s.Ended p := by
  unfold NetStack.noticeClosed NetStack.Ended
  split_ifs
  · cases s.flows.lookup id with
    | none => exact Iff.rfl
    | some flow =>
      dsimp only
      split_ifs
      · rw [AList.lookup_insert_ne hne]
      · exact Iff.rfl
  · exact Iff.rfl

/-- A poll tells of the flows that have ended, and of no other. -/
theorem mem_pollFlows {s s' : NetStack} {order : List (FlowId × SocketHandle)}
    {closed : List FlowId} (hids : (order.map Prod.fst).Nodup)
    (h : NetStack.pollFlows order s = some (closed, s')) {id : FlowId} :
    id ∈ closed ↔ ∃ p ∈ order, p.1 = id ∧ s.Ended p := by
  induction order generalizing s closed with
  | nil =>
    obtain ⟨rfl, -⟩ := Prod.mk.inj (Option.some.inj h)
    simp
  | cons p order ih =>
    obtain ⟨first, handle⟩ := p
    obtain ⟨hfirst, hids⟩ := List.nodup_cons.mp hids
    simp only [NetStack.pollFlows, Option.bind_eq_bind, Option.bind_eq_some_iff] at h
    obtain ⟨state, hstate, ⟨more, s₁⟩, hrest, hend⟩ := h
    obtain ⟨rfl, rfl⟩ := Prod.mk.inj (Option.some.inj hend)
    obtain rfl : s.sockets.state handle = state := by
      unfold SocketSet.get at hstate
      split_ifs at hstate
      exact Option.some.inj hstate
    have hother (p : FlowId × SocketHandle) (hp : p ∈ order) :
        (s.noticeClosed first (s.sockets.state handle)).2.Ended p ↔ s.Ended p :=
      ended_noticeClosed fun heq => hfirst (List.mem_map.mpr ⟨p, hp, heq⟩)
    rw [List.mem_append, mem_noticeClosed, ih hids hrest, List.exists_mem_cons_iff, @eq_comm _ id]
    refine or_congr Iff.rfl (exists_congr fun p => and_congr_right fun hp => ?_)
    rw [hother p hp]

theorem NetStack.snapshot_nodup (s : NetStack) : (s.snapshot.map Prod.fst).Nodup := by
  rw [NetStack.snapshot, List.map_map]
  exact s.flows.nodupKeys

/-- A poll goes through, and only tells of flows. -/
theorem Bookkept.poll {s : NetStack} (h : Bookkept s) (evolve : SocketHandle → TcpState)
    {order : List (FlowId × SocketHandle)} (horder : order.Perm s.snapshot) :
    ∃ outcome s', s.poll evolve order = some (outcome, s') ∧ Bookkept s' ∧
      Notifies outcome.closed (s.evolved evolve) s' := by
  have hhandles : ∀ p ∈ order, p.2 ∈ s.sockets.handles := by
    intro p hp
    obtain ⟨⟨id, flow⟩, he, rfl⟩ := List.mem_map.mp (horder.mem_iff.mp hp)
    exact h.owned id flow (AList.mem_lookup_iff.mpr he)
  obtain ⟨closed, s', hpoll, hn⟩ := @pollFlows_notifies (s.evolved evolve) order hhandles
  have hback : ∀ {id flow}, s'.flows.lookup id = some flow → ∃ flow',
      s.flows.lookup id = some flow' ∧ flow.handle = flow'.handle ∧ flow.tuple = flow'.tuple := by
    intro id flow hflow
    rw [hn.lookup, Option.map_eq_some_iff] at hflow
    obtain ⟨flow', hflow', rfl⟩ := hflow
    exact ⟨flow', hflow', rfl, rfl⟩
  have hrun : s.poll evolve order = some ({ closed := closed }, s') := by
    simp only [NetStack.poll, hpoll, Option.bind_eq_bind, Option.bind_some]
  refine ⟨_, s', hrun, ?_, hn⟩
  constructor
  · rw [hn.byTuple]
    refine h.byTuple.congr fun t id => ?_
    constructor
    · rintro ⟨flow, hflow, rfl⟩
      obtain ⟨flow', hflow', -, htuple⟩ := hback hflow
      exact ⟨flow', hflow', htuple.symm⟩
    · rintro ⟨flow, hflow, rfl⟩
      refine ⟨{ flow with closedNotified := flow.closedNotified || decide (id ∈ closed) }, ?_, rfl⟩
      rw [hn.lookup, NetStack.evolved_flows, hflow, Option.map_some]
  · intro id hid
    rw [hn.nextId]
    obtain ⟨flow, hflow⟩ := Option.isSome_iff_exists.mp (AList.lookup_isSome.mpr hid)
    obtain ⟨flow', hflow', -⟩ := hback hflow
    exact h.numbered id (AList.lookup_isSome.mp (by rw [hflow']; rfl))
  · intro id flow hflow
    obtain ⟨flow', hflow', hhandle, -⟩ := hback hflow
    rw [hn.sockets, hhandle]
    exact h.owned id flow' hflow'
  · intro id id' flow flow' hflow hflow' hsame
    obtain ⟨f, hf, hhf, -⟩ := hback hflow
    obtain ⟨f', hf', hhf', -⟩ := hback hflow'
    exact h.distinct id id' f f' hf hf' (by rw [← hhf, ← hhf', hsame])
  · rw [hn.size, hn.maxFlows]
    exact h.capped

/-- A flow is created for a SYN without ACK whose tuple has no live flow, under a new id. -/
theorem onTcpPacket_spec (s : NetStack) (packet : Bytes) :
    s.onTcpPacket l w packet = (none, s) ∨
      ∃ peek, peekTcp w packet = some peek ∧ peek.syn = true ∧ peek.ack = false ∧
        s.byTuple.lookup ⟨peek.app, peek.server⟩ = none ∧ s.flows.keys.length < s.maxFlows ∧
        s.onTcpPacket l w packet = s.createFlow l ⟨peek.app, peek.server⟩ := by
  unfold NetStack.onTcpPacket
  cases hpeek : peekTcp w packet with
  | none => exact .inl rfl
  | some peek =>
    dsimp only
    split_ifs with hsyn hcap
    · exact .inl rfl
    · simp only [Bool.and_eq_true, Bool.not_eq_true', Option.isNone_iff_eq_none] at hsyn
      exact .inr ⟨peek, rfl, hsyn.1.1, hsyn.1.2, hsyn.2, Nat.not_le.mp hcap, rfl⟩
    · exact .inl rfl

variable {l w}

theorem createFlow_maxFlows (s : NetStack) (tuple : FourTuple) :
    (s.createFlow l tuple).2.maxFlows = s.maxFlows := by
  unfold NetStack.createFlow
  split_ifs <;> rfl

theorem Bookkept.createFlow (hl : l.Lawful) {s : NetStack} (h : Bookkept s) {tuple : FourTuple}
    (htuple : s.byTuple.lookup tuple = none) (hcap : s.flows.keys.length < s.maxFlows) :
    Bookkept (s.createFlow l tuple).2 := by
  unfold NetStack.createFlow
  split_ifs
  · exact h
  have hid : s.nextId ∉ s.flows := fun hmem => Nat.lt_irrefl _ (h.numbered _ hmem)
  have hnone : s.flows.lookup s.nextId = none := AList.lookup_eq_none.mpr hid
  have hfresh := hl.add_notMem s.sockets.handles
  have hcases : ∀ {id flow},
      (s.flows.insert s.nextId ⟨l.add s.sockets.handles, tuple, false⟩).lookup id = some flow →
      (id = s.nextId ∧ flow = ⟨l.add s.sockets.handles, tuple, false⟩) ∨
        s.flows.lookup id = some flow := of_lookup_insert
  constructor
  · refine h.byTuple.insert (AList.lookup_eq_none.mp htuple) fun t id => ?_
    constructor
    · rintro ⟨flow, hflow, rfl⟩
      rcases hcases hflow with ⟨rfl, rfl⟩ | hflow
      · exact .inr ⟨rfl, rfl⟩
      · exact .inl ⟨flow, hflow, rfl⟩
    · rintro (⟨flow, hflow, rfl⟩ | ⟨rfl, rfl⟩)
      · have hne : id ≠ s.nextId := by
          rintro rfl
          rw [hnone] at hflow
          cases hflow
        exact ⟨flow, (AList.lookup_insert_ne hne).trans hflow, rfl⟩
      · exact ⟨_, AList.lookup_insert _, rfl⟩
  · intro id hmem
    rcases AList.mem_insert _ |>.mp hmem with rfl | hmem
    · exact Nat.lt_succ_self _
    · exact Nat.lt_succ_of_lt (h.numbered id hmem)
  · intro id flow hflow
    rcases hcases hflow with ⟨rfl, rfl⟩ | hflow
    · exact List.mem_cons_self ..
    · exact List.mem_cons_of_mem _ (h.owned id flow hflow)
  · intro id id' flow flow' hflow hflow' hsame
    rcases hcases hflow with ⟨rfl, rfl⟩ | hflow <;> rcases hcases hflow' with ⟨rfl, rfl⟩ | hflow'
    · rfl
    · exact absurd (h.owned _ _ hflow') (hsame ▸ hfresh)
    · exact absurd (h.owned _ _ hflow) (hsame.symm ▸ hfresh)
    · exact h.distinct id id' flow flow' hflow hflow' hsame
  · change (s.flows.insert s.nextId _).keys.length ≤ s.maxFlows
    have hnot : s.nextId ∉ s.flows.keys := hid
    rw [AList.keys_insert, List.length_cons, List.erase_of_not_mem hnot]
    omega

/-- A call on the socket of a flow finds it, and leaves the flows alone. -/
theorem Bookkept.tcpCloseApp {s : NetStack} (h : Bookkept s) (id : FlowId) :
    ∃ s', s.tcpCloseApp id = some s' ∧ Bookkept s' ∧ s'.flows = s.flows ∧
      s'.nextId = s.nextId ∧ s'.maxFlows = s.maxFlows := by
  unfold NetStack.tcpCloseApp
  cases hflow : s.flows.lookup id with
  | none => exact ⟨s, rfl, h, rfl, rfl, rfl⟩
  | some flow =>
    have hget : s.sockets.get flow.handle = some (s.sockets.state flow.handle) :=
      if_pos (h.owned id flow hflow)
    refine ⟨{ s with sockets := s.sockets.set flow.handle (s.sockets.state flow.handle).close },
      by simp only [hget, Option.bind_eq_bind, Option.bind_some], ?_, rfl, rfl, rfl⟩
    exact ⟨h.byTuple, h.numbered, h.owned, h.distinct, h.capped⟩

theorem Bookkept.tcpAbort {s : NetStack} (h : Bookkept s) (id : FlowId) :
    ∃ s', s.tcpAbort id = some s' ∧ Bookkept s' ∧ s'.flows = s.flows ∧
      s'.nextId = s.nextId ∧ s'.maxFlows = s.maxFlows := by
  unfold NetStack.tcpAbort
  cases hflow : s.flows.lookup id with
  | none => exact ⟨s, rfl, h, rfl, rfl, rfl⟩
  | some flow =>
    have hget : s.sockets.get flow.handle = some (s.sockets.state flow.handle) :=
      if_pos (h.owned id flow hflow)
    refine ⟨{ s with sockets := s.sockets.set flow.handle .closed },
      by simp only [hget, Option.bind_eq_bind, Option.bind_some], ?_, rfl, rfl, rfl⟩
    exact ⟨h.byTuple, h.numbered, h.owned, h.distinct, h.capped⟩

theorem Bookkept.removeFlow {s : NetStack} (h : Bookkept s) (id : FlowId) :
    ∃ s', s.removeFlow id = some s' ∧ Bookkept s' ∧ s'.nextId = s.nextId ∧
      s'.maxFlows = s.maxFlows ∧
      ∀ id' flow, s'.flows.lookup id' = some flow → s.flows.lookup id' = some flow := by
  unfold NetStack.removeFlow
  cases hflow : s.flows.lookup id with
  | none => exact ⟨s, rfl, h, rfl, rfl, fun _ _ h => h⟩
  | some flow =>
    obtain ⟨sockets, hsockets⟩ : ∃ sockets : SocketSet, sockets =
      ⟨s.sockets.handles.filter (· ≠ flow.handle), s.sockets.state⟩ := ⟨_, rfl⟩
    have hremove : s.sockets.remove flow.handle = some sockets := by
      rw [hsockets]
      exact if_pos (h.owned id flow hflow)
    have hother : ∀ {id' flow'}, (s.flows.erase id).lookup id' = some flow' →
        id' ≠ id ∧ s.flows.lookup id' = some flow' := by
      intro id' flow' hflow'
      refine ⟨?_, of_lookup_erase hflow'⟩
      rintro rfl
      rw [AList.lookup_erase] at hflow'
      cases hflow'
    refine ⟨{ s with
      sockets := sockets, flows := s.flows.erase id, byTuple := s.byTuple.erase flow.tuple },
      by simp only [hremove, Option.bind_eq_bind, Option.bind_some], ?_, rfl, rfl,
      fun id' flow' hflow' => (hother hflow').2⟩
    constructor
    · refine h.byTuple.erase ⟨flow, hflow, rfl⟩ fun t id' => ?_
      constructor
      · rintro ⟨flow', hflow', rfl⟩
        obtain ⟨hne, hflow'⟩ := hother hflow'
        exact ⟨⟨flow', hflow', rfl⟩, fun heq => hne heq.2⟩
      · rintro ⟨⟨flow', hflow', rfl⟩, hne⟩
        have hid : id' ≠ id := by
          rintro rfl
          obtain rfl := Option.some.inj (hflow.symm.trans hflow')
          exact hne ⟨rfl, rfl⟩
        exact ⟨flow', (AList.lookup_erase_ne hid).trans hflow', rfl⟩
    · intro id' hmem
      exact h.numbered id' (AList.mem_erase.mp hmem).2
    · intro id' flow' hflow'
      obtain ⟨hne, hlive⟩ := hother hflow'
      subst hsockets
      refine List.mem_filter.mpr ⟨h.owned id' flow' hlive, decide_eq_true fun hsame => ?_⟩
      exact hne (h.distinct id' id flow' flow hlive hflow hsame)
    · intro a b fa fb ha hb hsame
      exact h.distinct a b fa fb (hother ha).2 (hother hb).2 hsame
    · change (s.flows.erase id).keys.length ≤ s.maxFlows
      rw [AList.keys_erase]
      exact Nat.le_trans (List.length_erase_le) h.capped

/-- What was reported: ids in the order they were given, and closed flows once. -/
structure Reported (o : Observed) : Prop where
  created : (o.created.map Prod.fst).Pairwise (· < ·)
  given : ∀ id ∈ o.created.map Prod.fst, id < o.stack.nextId
  closed : o.closed.Nodup
  ended : ∀ id ∈ o.closed, id < o.stack.nextId
  told : ∀ id ∈ o.closed, ∀ flow, o.stack.flows.lookup id = some flow →
    flow.closedNotified = true

theorem createFlow_reported {o : Observed} (h : Reported o) (tuple : FourTuple) :
    Reported { o with
      stack := (o.stack.createFlow l tuple).2
      created := o.created ++ (o.stack.createFlow l tuple).1.toList } := by
  unfold NetStack.createFlow
  split_ifs
  · simpa using h
  · refine ⟨?_, ?_, h.closed, fun id hid => Nat.lt_succ_of_lt (h.ended id hid), ?_⟩
    · simp only [Option.toList_some, List.map_append, List.map_singleton]
      refine List.pairwise_append.mpr ⟨h.created, List.pairwise_singleton _ _, ?_⟩
      intro a ha b hb
      rw [List.mem_singleton.mp hb]
      exact h.given a ha
    · intro id hid
      simp only [Option.toList_some, List.map_append, List.map_singleton, List.mem_append,
        List.mem_singleton] at hid
      rcases hid with hid | rfl
      · exact Nat.lt_succ_of_lt (h.given id hid)
      · exact Nat.lt_succ_self _
    · intro id hid flow hflow
      rcases of_lookup_insert hflow with ⟨rfl, -⟩ | hflow
      · exact absurd (h.ended _ hid) (Nat.lt_irrefl _)
      · exact h.told id hid flow hflow

/-- Every call that is possible returns, and keeps the books. -/
theorem call_keeps (hl : l.Lawful) {o : Observed} (hb : Bookkept o.stack) (h : Reported o)
    {c : Call} (hc : c.Possible o.stack) :
    ∃ o', o.call l w c = some o' ∧ Bookkept o'.stack ∧ Reported o' ∧
      o'.stack.maxFlows = o.stack.maxFlows := by
  cases c with
  | onTcpPacket packet =>
    refine ⟨{ o with
      stack := (o.stack.onTcpPacket l w packet).2
      created := o.created ++ (o.stack.onTcpPacket l w packet).1.toList }, rfl, ?_⟩
    rcases onTcpPacket_spec l w o.stack packet with hnone | ⟨peek, -, -, -, hfree, hcap, hcreate⟩
    · rw [hnone]
      exact ⟨hb, by simpa using h, rfl⟩
    · rw [hcreate]
      exact ⟨hb.createFlow hl hfree hcap, createFlow_reported h _, createFlow_maxFlows _ _⟩
  | poll evolve order =>
    obtain ⟨outcome, s', hpoll, hb', hn⟩ := hb.poll evolve hc
    refine ⟨{ o with stack := s', closed := o.closed ++ outcome.closed },
      by simp only [Observed.call, hpoll, Option.bind_eq_bind, Option.bind_some], hb', ?_,
      hn.maxFlows⟩
    refine ⟨h.created, ?_, ?_, ?_, ?_⟩
    · intro id hid
      exact hn.nextId.symm ▸ h.given id hid
    · refine List.nodup_append.mpr ⟨h.closed, hn.nodup, ?_⟩
      rintro id hold _ hnew rfl
      obtain ⟨flow, hflow, huntold⟩ := hn.untold id hnew
      rw [h.told id hold flow hflow] at huntold
      cases huntold
    · intro id hid
      change id < s'.nextId
      rw [hn.nextId]
      rcases List.mem_append.mp hid with hold | hnew
      · exact h.ended id hold
      · obtain ⟨flow, hflow, -⟩ := hn.untold id hnew
        exact hb.numbered id (AList.lookup_isSome.mp (Option.isSome_iff_exists.mpr ⟨flow, hflow⟩))
    · intro id hid flow hflow
      change s'.flows.lookup id = some flow at hflow
      rw [hn.lookup, Option.map_eq_some_iff] at hflow
      obtain ⟨flow', hflow', rfl⟩ := hflow
      rcases List.mem_append.mp hid with hold | hnew
      · simp [h.told id hold flow' hflow']
      · simp [hnew]
  | tcpAbort id =>
    obtain ⟨s', hrun, hb', hflows, hnext, hmax⟩ := hb.tcpAbort id
    refine ⟨{ o with stack := s' },
      by simp only [Observed.call, hrun, Option.bind_eq_bind, Option.bind_some], hb', ?_, hmax⟩
    exact ⟨h.created, hnext.symm ▸ h.given, h.closed, hnext.symm ▸ h.ended, hflows.symm ▸ h.told⟩
  | tcpCloseApp id =>
    obtain ⟨s', hrun, hb', hflows, hnext, hmax⟩ := hb.tcpCloseApp id
    refine ⟨{ o with stack := s' },
      by simp only [Observed.call, hrun, Option.bind_eq_bind, Option.bind_some], hb', ?_, hmax⟩
    exact ⟨h.created, hnext.symm ▸ h.given, h.closed, hnext.symm ▸ h.ended, hflows.symm ▸ h.told⟩
  | removeFlow id =>
    obtain ⟨s', hrun, hb', hnext, hmax, hsub⟩ := hb.removeFlow id
    refine ⟨{ o with stack := s' },
      by simp only [Observed.call, hrun, Option.bind_eq_bind, Option.bind_some], hb', ?_, hmax⟩
    exact ⟨h.created, hnext.symm ▸ h.given, h.closed, hnext.symm ▸ h.ended,
      fun id' hid flow hflow => h.told id' hid flow (hsub id' flow hflow)⟩

/-- What holds of a stack whose capacity was set to `max`. -/
structure Kept (max : ℕ) (o : Observed) : Prop where
  books : Bookkept o.stack
  reports : Reported o
  maxFlows : o.stack.maxFlows = Nat.max max 1

theorem Kept.reachable (hl : l.Lawful) {max : ℕ} {o : Observed}
    (h : (calls l w max).Reachable o) : Kept max o := by
  refine Automaton.Keeps.reachable (P := Kept max) ?_ ?_ h
  · intro o c o' ho hstep
    by_cases hc : c.Possible o.stack
    · obtain ⟨next, hcall, hb, hr, hmax⟩ := @call_keeps l w hl o ho.books ho.reports c hc
      have hsame : (calls l w max).step o c = some next := (calls_step hc).trans hcall
      obtain rfl := Option.some.inj (hsame.symm.trans hstep)
      exact ⟨hb, hr, hmax.trans ho.maxFlows⟩
    · have hnone : (calls l w max).step o c = none := if_neg hc
      rw [hnone] at hstep
      cases hstep
  · exact ⟨.new max, ⟨.nil, fun _ h => absurd h List.not_mem_nil, .nil,
      fun _ h => absurd h List.not_mem_nil, fun _ h => absurd h List.not_mem_nil⟩, rfl⟩

/-- After any sequence of calls: tuples and live flows lead to each other, no id was given twice and
none is given again, the flows fit the capacity, a flow is created only for a SYN without ACK whose
tuple has no live flow, no flow was reported closed twice, every flow has a socket of its own, and
the next call does not panic. -/
theorem flow_bookkeeping (hl : l.Lawful) {max : ℕ} {cs : List Call} {o : Observed}
    (h : (calls l w max).run cs = some o) :
    (∀ t id, o.stack.byTuple.lookup t = some id ↔
        ∃ flow, o.stack.flows.lookup id = some flow ∧ flow.tuple = t) ∧
      (o.created.map Prod.fst).Nodup ∧ o.stack.flows.keys.length ≤ Nat.max max 1 ∧
      (∀ packet id server, (o.stack.onTcpPacket l w packet).1 = some (id, server) →
        id ∉ o.created.map Prod.fst ∧ ∃ peek, peekTcp w packet = some peek ∧
          peek.syn = true ∧ peek.ack = false ∧ peek.server = server ∧
          ∀ id' flow, o.stack.flows.lookup id' = some flow →
            flow.tuple ≠ ⟨peek.app, peek.server⟩) ∧
      o.closed.Nodup ∧
      (∀ id flow, o.stack.flows.lookup id = some flow →
        flow.handle ∈ o.stack.sockets.handles ∧
          ∀ id' flow', o.stack.flows.lookup id' = some flow' → flow'.handle = flow.handle →
            id' = id) ∧
      ∀ c : Call, c.Possible o.stack → ((calls l w max).step o c).isSome := by
  have hk := Kept.reachable hl ⟨cs, h⟩
  refine ⟨hk.books.byTuple, hk.reports.created.imp Nat.ne_of_lt, ?_, ?_, hk.reports.closed, ?_, ?_⟩
  · rw [← hk.maxFlows]
    exact hk.books.capped
  · intro packet id server hnew
    rcases onTcpPacket_spec l w o.stack packet with
      hnone | ⟨peek, hpeek, hsyn, hack, hfree, -, hcreate⟩
    · rw [hnone] at hnew
      cases hnew
    · rw [hcreate, NetStack.createFlow] at hnew
      split_ifs at hnew
      obtain ⟨rfl, rfl⟩ := Prod.mk.inj (Option.some.inj hnew)
      refine ⟨fun hmem => Nat.lt_irrefl _ (hk.reports.given _ hmem), peek, hpeek, hsyn, hack, rfl,
        ?_⟩
      rintro id' flow hflow htuple
      have hlead := (hk.books.byTuple _ _).mpr ⟨flow, hflow, htuple⟩
      rw [hfree] at hlead
      cases hlead
  · intro id flow hflow
    exact ⟨hk.books.owned id flow hflow, fun id' flow' hflow' hsame =>
      hk.books.distinct id' id flow' flow hflow' hflow hsame⟩
  · intro c hc
    obtain ⟨o', hcall, -⟩ := @call_keeps l w hl o hk.books hk.reports c hc
    have hstep : (calls l w max).step o c = some o' := (calls_step hc).trans hcall
    rw [hstep]
    rfl

/-- The first handle that is free. -/
def firstFree (used : List SocketHandle) : SocketHandle :=
  ((List.range (used.length + 1)).find? fun h => h ∉ used).getD 0

theorem firstFree_notMem (used : List SocketHandle) : firstFree used ∉ used := by
  unfold firstFree
  cases hfind : (List.range (used.length + 1)).find? fun h => h ∉ used with
  | some h => simpa using List.find?_some hfind
  | none =>
    have hsub : List.range (used.length + 1) ⊆ used := by
      intro h hh
      simpa using List.find?_eq_none.mp hfind h hh
    have hlen := (List.subperm_of_subset List.nodup_range hsub).length_le
    rw [List.length_range] at hlen
    omega

def firstFreeSockets : Smoltcp := ⟨firstFree, fun server => server.port ≠ 0⟩

theorem firstFreeSockets_lawful : firstFreeSockets.Lawful := ⟨firstFree_notMem⟩

/-- A SYN from port 40000 to port 80. -/
def synPacket : Bytes :=
  [0x45, 0, 0, 40, 0, 0, 0, 0, 64, 6, 0, 0, 10, 215, 173, 2, 93, 184, 216, 34,
    0x9C, 0x40, 0, 80, 0, 0, 0, 0, 0, 0, 0, 0, 0x50, 0x02, 0xFF, 0xFF, 0, 0, 0, 0]

/-- A retransmitted SYN, a close seen twice, and the same tuple again after the removal. -/
def reconnect : List Call :=
  [.onTcpPacket synPacket, .onTcpPacket synPacket, .poll (fun _ => .closed) [(1, 0)],
    .poll (fun _ => .closed) [(1, 0)], .removeFlow 1, .onTcpPacket synPacket]

theorem flow_bookkeeping_reconnect :
    ∃ o, (calls firstFreeSockets .plain 1).run reconnect = some o ∧
      o.created.map Prod.fst = [1, 2] ∧ o.closed = [1] ∧ (o.created.map Prod.fst).Nodup ∧
      o.closed.Nodup := by
  have hrun : ((calls firstFreeSockets .plain 1).run reconnect).map
      (fun o => (o.created.map Prod.fst, o.closed)) = some ([1, 2], [1]) := by decide +kernel
  obtain ⟨o, ho, hreports⟩ := Option.map_eq_some_iff.mp hrun
  obtain ⟨hcreated, hclosed⟩ := Prod.mk.inj hreports
  have h := flow_bookkeeping firstFreeSockets_lawful ho
  exact ⟨o, ho, hcreated, hclosed, h.2.1, h.2.2.2.2.1⟩

end Adwarden.Net.Stack
