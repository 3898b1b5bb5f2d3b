import Adwarden.Core.ForwarderNotes
import Adwarden.Core.Pcap

/-! The datapath thread and its lifecycle: the loop over the tunnel and the sockets, the queue of
control messages that other threads fill and the waker that ends its polls. A panic of the thread,
a poisoned lock, the heartbeat and the contents of HTTP archives are left out. -/
namespace Adwarden.Core
open Adwarden.Lib Adwarden.Net Adwarden.Tls

/-- A control message. An engine comes as what was loaded; `unread` is one whose file cannot be. -/
inductive Control where
  | live (c : Command)
  | unread
  | startPcap (fd ringBytes : ℕ)
  | stopPcap
  | exportHar (fd : ℕ)

/-- The descriptors that come with a message, and are the loop's henceforth. -/
def Control.fds : Control → List ℕ
  | .startPcap fd _ => [fd]
  | .exportHar fd => [fd]
  | _ => []

/-- What a message makes of the settings. -/
def Control.settings (s : Settings) : Control → Settings
  | .live c => s.apply c
  | _ => s

/-- An event in the ranges of its types, with the time at which it was made. -/
def Event.record (e : Event) (now : UInt64) : Record where
  toEvent := { e with
    uid := e.uid.bmod (2 ^ 32)
    length := e.length % 2 ^ 32
    src := (e.src ++ List.replicate 16 0).take 16
    dst := (e.dst ++ List.replicate 16 0).take 16 }
  timestampMs := now
  uid_range := ⟨Int.le_bmod (by decide), Int.bmod_lt (by decide)⟩
  length_lt := Nat.mod_lt _ (by decide)
  src_length := by simp
  dst_length := by simp

namespace Forwarder

variable {σ μ : Type}

def telemetryHot (s : Forwarder σ μ) : Bool :=
  s.shared.firewall.logOpen || !s.shared.firewall.isEmpty

/-- The aggregate as one event, if there is anything in it. -/
def takeCoarse (s : Forwarder σ μ) (now : UInt64) : Option Record × Forwarder σ μ :=
  if s.coarse.packets = 0 then (none, s)
  else
    let cap (v : ℕ) : UInt32 := .ofNat (min v (2 ^ 32 - 1))
    let c := s.coarse
    (some (.coarse (cap c.packets) (.ofNat c.bytes) (cap c.tcp) (cap c.udp) (cap c.dns) now),
      { s with coarse := {} })

end Forwarder

/-- What the loop runs on: the header views, the bytes of the packets it sends, and the files. -/
structure Host where
  wire : Wire
  bytes : Outbound → Bytes
  disk : Disk

def maxBatch : ℕ := 256

def flushInterval (hot : Bool) : ℤ := if hot then 150 else 1000

def tunBuffer : ℕ := 65536

/-- Where the datapath thread is; events are handled once there is nothing left to apply. -/
inductive Pc where
  | starting
  | checking
  | polling
  | draining
  | applying (rest : List Control)
  | writing
  | flushing
  | leaving
  | exited

/-- How far `stop` has come. -/
inductive Stopper where
  | idle
  | stored
  | joining
  | joined
deriving DecidableEq

/-- `unwoken` counts the senders that have queued a message and are still to wake the poll. From
`sent` on the fields are histories: the messages queued and applied, the drains since the stop, the
descriptors closed, the batches handed to the app, what crossed the tunnel, and how much of that
before the last capture was started. -/
structure Runtime (σ μ : Type) where
  stop : Bool
  commands : List Control
  woken : Bool
  unwoken : ℕ
  stopper : Stopper
  pc : Pc
  forwarder : Forwarder σ μ
  pcap : Option PcapWriter
  keyLog : Bytes
  hot : Bool
  lastFlush : ℤ
  tunFd : ℕ
  sent : List Control
  applied : List Control
  lateDrains : ℕ
  closed : List ℕ
  blobs : List Bytes
  traffic : List Crossing
  captureFrom : ℕ

/-- A step of one of the threads: of a sender, of the one that stops the session, of the datapath
thread, or of the world. -/
inductive RuntimeAct (σ μ : Type) [TcpSocket σ] [Splice μ] where
  | push (c : Control)
  | wake
  | storeStop
  | wakeStop
  | join
  | enter (ok : Bool)
  | check
  | poll (ok sawWake : Bool)
  | drain
  | apply
  | packet (packet : Bytes) (owner : ℤ) (timestamp : ℕ)
  | ready (token : Token) (event : Flow.Readiness) (keylog : Bytes)
  | service (polls : FlowId → Poll σ) (order : List FlowId) (emitted : List Bytes)
      (keylog : Bytes)
  | write (stamps : ℕ → ℕ)
  | flush (clock : ℕ → UInt64)
  | leave (clock : ℕ → UInt64)
  | world (i : Input σ μ)

variable {σ μ : Type}

def RuntimeAct.isPacket [TcpSocket σ] [Splice μ] : RuntimeAct σ μ → Bool
  | .packet _ _ _ => true
  | _ => false

/-- The steps that are none of the forwarder. -/
def Input.isWorld [TcpSocket σ] [Splice μ] : Input σ μ → Bool
  | .elapse _ | .arrive _ _ | .answers _ _ | .splices _ => true
  | _ => false

namespace Runtime

def new (tunFd : ℕ) (config : Config μ) : Runtime σ μ where
  stop := false
  commands := []
  woken := false
  unwoken := 0
  stopper := .idle
  pc := .starting
  forwarder := .new config
  pcap := none
  keyLog := []
  hot := false
  lastFlush := 0
  tunFd := tunFd
  sent := []
  applied := []
  lateDrains := 0
  closed := []
  blobs := []
  traffic := []
  captureFrom := 0

/-- The descriptor of the capture that is active. -/
def pcapFd (s : Runtime σ μ) : List ℕ := (s.pcap.map PcapWriter.fd).toList

def setForwarder (s : Runtime σ μ) (f : Forwarder σ μ) : Runtime σ μ := { s with forwarder := f }

/-- The capture that was active is closed when another takes its place, and the new file when its
header cannot be written. -/
def startPcap (disk : Disk) (s : Runtime σ μ) (fd ringBytes : ℕ) : Runtime σ μ :=
  let cap := if 0 < ringBytes then some ringBytes else none
  match PcapWriter.new disk fd pcapSnaplen cap with
  | some writer =>
    { s with
      pcap := some writer
      closed := s.closed ++ s.pcapFd
      captureFrom := s.traffic.length }
  | none => { s with pcap := none, closed := s.closed ++ fd :: s.pcapFd }

/-- One turn of the loop of `apply_commands`. -/
def applyCommand (disk : Disk) (s : Runtime σ μ) : Control → Runtime σ μ
  | .live c => s.setForwarder (s.forwarder.apply c)
  | .unread => s
  | .startPcap fd ringBytes => s.startPcap disk fd ringBytes
  | .stopPcap => { s with pcap := none, closed := s.closed ++ s.pcapFd }
  | .exportHar fd => { s with closed := s.closed ++ [fd] }

/-- What crosses the tunnel is shown to the capture, if one is active. -/
def cross (disk : Disk) (s : Runtime σ μ) (cs : List Crossing) : Runtime σ μ :=
  { s with
    pcap := s.pcap.map fun writer => cs.foldl (PcapWriter.tap disk) writer
    traffic := s.traffic ++ cs }

/-- What `take_outbox` shows to the capture: the secrets first, then the packets for the tunnel. -/
def outgoing (host : Host) (s : Runtime σ μ) (stamps : ℕ → ℕ) : List Crossing :=
  .secrets s.keyLog ::
    s.forwarder.outbox.zipIdx.map fun p => .packet (stamps p.2) (host.bytes p.1)

def takeOutbox (host : Host) (s : Runtime σ μ) (stamps : ℕ → ℕ) : Runtime σ μ :=
  { s.cross host.disk (s.outgoing host stamps) with
    keyLog := []
    forwarder := { s.forwarder with outbox := [] } }

/-- The events of the batch, the aggregate behind them. -/
def batch (s : Runtime σ μ) (clock : ℕ → UInt64) : List Record :=
  let events := s.forwarder.shared.batcher
  (events.zipIdx.map fun p => p.1.record (clock p.2)) ++
    (s.forwarder.takeCoarse (clock events.length)).1.toList

/-- Hand the batch to the app. -/
def flush (s : Runtime σ μ) (clock : ℕ → UInt64) : Runtime σ μ :=
  let f := (s.forwarder.takeCoarse (clock s.forwarder.shared.batcher.length)).2
  { s with
    forwarder := { f with shared := { f.shared with batcher := [] } }
    blobs := s.blobs ++ (Batcher.drainEncoded ⟨s.batch clock⟩).1.toList
    lastFlush := f.shared.now }

def flushDue (s : Runtime σ μ) : Bool :=
  decide (maxBatch ≤ s.forwarder.shared.batcher.length) ||
    decide (flushInterval s.hot ≤ s.forwarder.shared.now - s.lastFlush)

section Step

variable [TcpSocket σ] [Splice μ]

def step (host : Host) (s : Runtime σ μ) : RuntimeAct σ μ → Option (Runtime σ μ)
  | .push c =>
    some { s with commands := s.commands ++ [c], sent := s.sent ++ [c], unwoken := s.unwoken + 1 }
  | .wake => if s.unwoken = 0 then none else some { s with unwoken := s.unwoken - 1, woken := true }
  | .storeStop =>
    if s.stopper = .idle then some { s with stop := true, stopper := .stored } else none
  | .wakeStop =>
    if s.stopper = .stored then some { s with woken := true, stopper := .joining } else none
  | .join =>
    match s.pc with
    | .exited => if s.stopper = .joining then some { s with stopper := .joined } else none
    | _ => none
  | .enter ok =>
    match s.pc with
    | .starting =>
      some (if ok then { s with pc := .checking }
        else { s with pc := .exited, closed := s.closed ++ [s.tunFd] })
    | _ => none
  | .check =>
    match s.pc with
    | .checking =>
      some (if s.stop then { s with pc := .leaving }
        else { s with pc := .polling, hot := s.forwarder.telemetryHot })
    | _ => none
  | .poll ok sawWake =>
    match s.pc with
    | .polling =>
      if sawWake && !s.woken then none
      else some { s with
        pc := if ok then .draining else .leaving
        woken := s.woken && !sawWake }
    | _ => none
  | .drain =>
    match s.pc with
    | .draining =>
      some { s with
        pc := .applying s.commands
        commands := []
        lateDrains := if s.stop then s.lateDrains + 1 else s.lateDrains }
    | _ => none
  | .apply =>
    match s.pc with
    | .applying (c :: rest) =>
      some { s.applyCommand host.disk c with pc := .applying rest, applied := s.applied ++ [c] }
    | _ => none
  | .packet packet owner timestamp =>
    match s.pc with
    | .applying [] =>
      if packet = [] ∨ tunBuffer < packet.length then none
      else some ((s.cross host.disk [.packet timestamp packet]).setForwarder
        (s.forwarder.onTunPacket host.wire packet owner))
    | _ => none
  | .ready token event keylog =>
    match s.pc with
    | .applying [] =>
      some { s with
        forwarder := (s.forwarder.deliver token event).onReady token event
        keyLog := s.keyLog ++ keylog }
    | _ => none
  | .service polls order emitted keylog =>
    match s.pc with
    | .applying [] =>
      if order.Perm (s.forwarder.activeFlows polls) then
        some { s with
          pc := .writing
          forwarder := s.forwarder.service polls order emitted
          keyLog := s.keyLog ++ keylog }
      else none
    | _ => none
  | .write stamps =>
    match s.pc with
    | .writing => some { s.takeOutbox host stamps with pc := .flushing }
    | _ => none
  | .flush clock =>
    match s.pc with
    | .flushing => some { if s.flushDue then s.flush clock else s with pc := .checking }
    | _ => none
  | .leave clock =>
    match s.pc with
    | .leaving =>
      some { s.flush clock with
        pc := .exited
        pcap := none
        closed := s.closed ++ s.pcapFd ++ [s.tunFd] }
    | _ => none
  | .world i => if i.isWorld then (s.forwarder.step host.wire i).map s.setForwarder else none

/-- A session that is started with a tunnel and a configuration. -/
def automaton (host : Host) (tunFd : ℕ) (config : Config μ) :
    Automaton (Runtime σ μ) (RuntimeAct σ μ) where
  init := .new tunFd config
  step := step host

end Step

section Frames

/-- A message touches the forwarder, the capture and what is closed. -/
theorem applyCommand_frame (disk : Disk) (s : Runtime σ μ) (c : Control) :
    ∃ f pcap closed n,
      s.applyCommand disk c =
        { s with forwarder := f, pcap := pcap, closed := closed, captureFrom := n } ∧
      f.settings = c.settings s.forwarder.settings ∧ f.accounts = s.forwarder.accounts ∧
      (closed ++ (pcap.map PcapWriter.fd).toList).Perm (s.closed ++ s.pcapFd ++ c.fds) := by
  cases c with
  | live c =>
    refine ⟨_, s.pcap, s.closed, s.captureFrom, rfl, Forwarder.settings_apply s.forwarder c,
      Forwarder.accounts_apply s.forwarder c, ?_⟩
    simp [Control.fds, pcapFd]
  | unread =>
    refine ⟨s.forwarder, s.pcap, s.closed, s.captureFrom, rfl, rfl, rfl, ?_⟩
    simp [Control.fds, pcapFd]
  | startPcap fd ringBytes =>
    simp only [applyCommand, startPcap, Control.fds]
    split
    · next writer hnew =>
      refine ⟨s.forwarder, some writer, _, _, rfl, rfl, rfl, ?_⟩
      have hfd : writer.fd = fd := congrArg Prod.fst (PcapWriter.new_spec disk hnew).1
      simp [hfd]
    · refine ⟨s.forwarder, none, _, s.captureFrom, rfl, rfl, rfl, ?_⟩
      have hswap : (fd :: s.pcapFd).Perm (s.pcapFd ++ [fd]) := (List.perm_append_singleton fd _).symm
      simpa using hswap.append_left s.closed
  | stopPcap =>
    refine ⟨s.forwarder, none, _, s.captureFrom, rfl, rfl, rfl, ?_⟩
    simp [Control.fds]
  | exportHar fd =>
    refine ⟨s.forwarder, s.pcap, _, s.captureFrom, rfl, rfl, rfl, ?_⟩
    have hswap : ([fd] ++ s.pcapFd).Perm (s.pcapFd ++ [fd]) := List.perm_append_comm
    simpa [Control.fds, pcapFd] using hswap.append_left s.closed

theorem fd_cross (disk : Disk) (s : Runtime σ μ) (cs : List Crossing) :
    (s.cross disk cs).pcap.map PcapWriter.fd = s.pcap.map PcapWriter.fd := by
  have hfd (w : PcapWriter) : (cs.foldl (PcapWriter.tap disk) w).fd = w.fd :=
    congrArg Prod.fst (PcapWriter.header_foldl_tap disk w cs)
  simp [cross, Function.comp_def, hfd]

end Frames

section Cases

variable [TcpSocket σ] [Splice μ] (host : Host)

/-- What each step does, and when it can be taken. -/
inductive Steps (s : Runtime σ μ) : RuntimeAct σ μ → Runtime σ μ → Prop
  | push (c : Control) : Steps s (.push c)
      { s with commands := s.commands ++ [c], sent := s.sent ++ [c], unwoken := s.unwoken + 1 }
  | wake (h : s.unwoken ≠ 0) : Steps s .wake { s with unwoken := s.unwoken - 1, woken := true }
  | storeStop (h : s.stopper = .idle) :
      Steps s .storeStop { s with stop := true, stopper := .stored }
  | wakeStop (h : s.stopper = .stored) :
      Steps s .wakeStop { s with woken := true, stopper := .joining }
  | join (hpc : s.pc = .exited) (h : s.stopper = .joining) :
      Steps s .join { s with stopper := .joined }
  | enter (hpc : s.pc = .starting) : Steps s (.enter true) { s with pc := .checking }
  | giveUp (hpc : s.pc = .starting) :
      Steps s (.enter false) { s with pc := .exited, closed := s.closed ++ [s.tunFd] }
  | check (hpc : s.pc = .checking) (h : s.stop = false) :
      Steps s .check { s with pc := .polling, hot := s.forwarder.telemetryHot }
  | checkStop (hpc : s.pc = .checking) (h : s.stop = true) : Steps s .check { s with pc := .leaving }
  | poll (hpc : s.pc = .polling) (sawWake woken : Bool) :
      Steps s (.poll true sawWake) { s with pc := .draining, woken := woken }
  | pollFailed (hpc : s.pc = .polling) (sawWake woken : Bool) :
      Steps s (.poll false sawWake) { s with pc := .leaving, woken := woken }
  | drain (hpc : s.pc = .draining) : Steps s .drain
      { s with
        pc := .applying s.commands
        commands := []
        lateDrains := if s.stop then s.lateDrains + 1 else s.lateDrains }
  | apply (c : Control) (rest : List Control) (hpc : s.pc = .applying (c :: rest)) : Steps s .apply
      { s.applyCommand host.disk c with pc := .applying rest, applied := s.applied ++ [c] }
  | packet (hpc : s.pc = .applying []) (packet : Bytes) (owner : ℤ) (timestamp : ℕ)
      (hlen : packet.length ≤ tunBuffer) : Steps s (.packet packet owner timestamp)
      ((s.cross host.disk [.packet timestamp packet]).setForwarder
        (s.forwarder.onTunPacket host.wire packet owner))
  | ready (hpc : s.pc = .applying []) (token : Token) (event : Flow.Readiness) (keylog : Bytes) :
      Steps s (.ready token event keylog)
      { s with
        forwarder := (s.forwarder.deliver token event).onReady token event
        keyLog := s.keyLog ++ keylog }
  | service (hpc : s.pc = .applying []) (polls : FlowId → Poll σ) (order : List FlowId)
      (emitted : List Bytes) (keylog : Bytes) : Steps s (.service polls order emitted keylog)
      { s with
        pc := .writing
        forwarder := s.forwarder.service polls order emitted
        keyLog := s.keyLog ++ keylog }
  | write (hpc : s.pc = .writing) (stamps : ℕ → ℕ) :
      Steps s (.write stamps) { s.takeOutbox host stamps with pc := .flushing }
  | flush (hpc : s.pc = .flushing) (clock : ℕ → UInt64) (h : s.flushDue = true) :
      Steps s (.flush clock) { s.flush clock with pc := .checking }
  | gather (hpc : s.pc = .flushing) (clock : ℕ → UInt64) (h : s.flushDue = false) :
      Steps s (.flush clock) { s with pc := .checking }
  | leave (hpc : s.pc = .leaving) (clock : ℕ → UInt64) : Steps s (.leave clock)
      { s.flush clock with
        pc := .exited
        pcap := none
        closed := s.closed ++ s.pcapFd ++ [s.tunFd] }
  | world (i : Input σ μ) (f : Forwarder σ μ) (hset : f.settings = s.forwarder.settings)
      (hacc : f.accounts = s.forwarder.accounts) : Steps s (.world i) (s.setForwarder f)

theorem silent_world {s f : Forwarder σ μ} {w : Wire} {i : Input σ μ} (hi : i.isWorld = true)
    (h : s.step w i = some f) : f.settings = s.settings ∧ f.accounts = s.accounts := by
  cases i with
  | elapse ms =>
    obtain rfl := Option.some.inj h
    exact ⟨rfl, rfl⟩
  | arrive token a =>
    obtain rfl := Option.some.inj h
    exact Forwarder.silent_arrive s token a
  | answers dials relayConnects =>
    obtain rfl := Option.some.inj h
    exact ⟨rfl, rfl⟩
  | splices c =>
    obtain rfl := Option.some.inj h
    exact ⟨rfl, rfl⟩
  | _ => cases hi

theorem steps_of_step {s s' : Runtime σ μ} {a : RuntimeAct σ μ} (h : s.step host a = some s') :
    Steps host s a s' := by
  cases a with
  | push c =>
    obtain rfl := Option.some.inj h
    exact .push c
  | wake =>
    simp only [step] at h
    split_ifs at h with hw
    obtain rfl := Option.some.inj h
    exact .wake hw
  | storeStop =>
    simp only [step] at h
    split_ifs at h with hs
    obtain rfl := Option.some.inj h
    exact .storeStop hs
  | wakeStop =>
    simp only [step] at h
    split_ifs at h with hs
    obtain rfl := Option.some.inj h
    exact .wakeStop hs
  | join =>
    simp only [step] at h
    split at h
    · next hpc =>
      split_ifs at h with hs
      obtain rfl := Option.some.inj h
      exact .join hpc hs
    · cases h
  | enter ok =>
    simp only [step] at h
    split at h
    · next hpc =>
      obtain rfl := Option.some.inj h
      cases ok with
      | true => exact .enter hpc
      | false => exact .giveUp hpc
    · cases h
  | check =>
    simp only [step] at h
    split at h
    · next hpc =>
      obtain rfl := Option.some.inj h
      by_cases hs : s.stop = true
      · rw [if_pos hs]
        exact .checkStop hpc hs
      · rw [if_neg hs]
        exact .check hpc (Bool.eq_false_of_not_eq_true hs)
    · cases h
  | poll ok sawWake =>
    simp only [step] at h
    split at h
    · next hpc =>
      by_cases hsaw : (sawWake && !s.woken) = true
      · rw [if_pos hsaw] at h
        cases h
      · rw [if_neg hsaw] at h
        obtain rfl := Option.some.inj h
        cases ok with
        | true => exact .poll hpc sawWake _
        | false => exact .pollFailed hpc sawWake _
    · cases h
  | drain =>
    simp only [step] at h
    split at h
    · next hpc =>
      obtain rfl := Option.some.inj h
      exact .drain hpc
    · cases h
  | apply =>
    simp only [step] at h
    split at h
    · next c rest hpc =>
      obtain rfl := Option.some.inj h
      exact .apply c rest hpc
    · cases h
  | packet packet owner timestamp =>
    simp only [step] at h
    split at h
    · next hpc =>
      split_ifs at h with hlen
      obtain rfl := Option.some.inj h
      exact .packet hpc packet owner timestamp (Nat.le_of_not_lt fun hlt => hlen (.inr hlt))
    · cases h
  | ready token event keylog =>
    simp only [step] at h
    split at h
    · next hpc =>
      obtain rfl := Option.some.inj h
      exact .ready hpc token event keylog
    · cases h
  | service polls order emitted keylog =>
    simp only [step] at h
    split at h
    · next hpc =>
      split_ifs at h
      obtain rfl := Option.some.inj h
      exact .service hpc polls order emitted keylog
    · cases h
  | write stamps =>
    simp only [step] at h
    split at h
    · next hpc =>
      obtain rfl := Option.some.inj h
      exact .write hpc stamps
    · cases h
  | flush clock =>
    simp only [step] at h
    split at h
    · next hpc =>
      obtain rfl := Option.some.inj h
      by_cases hdue : s.flushDue = true
      · rw [if_pos hdue]
        exact .flush hpc clock hdue
      · rw [if_neg hdue]
        exact .gather hpc clock (Bool.eq_false_of_not_eq_true hdue)
    · cases h
  | leave clock =>
    simp only [step] at h
    split at h
    · next hpc =>
      obtain rfl := Option.some.inj h
      exact .leave hpc clock
    · cases h
  | world i =>
    simp only [step] at h
    split_ifs at h with hi
    obtain ⟨f, hf, rfl⟩ := Option.map_eq_some_iff.mp h
    obtain ⟨hset, hacc⟩ := silent_world hi hf
    exact .world i f hset hacc

end Cases

end Runtime

end Adwarden.Core
