import Adwarden.Core.Runtime

/-! The control channel of the datapath thread, over every interleaving of the threads: the order of
the messages, the settings in force, wake-ups, the end of the session and the descriptors. -/
namespace Adwarden.Core
open Adwarden.Lib Adwarden.Net Adwarden.Tls

variable {σ μ : Type}

namespace Pc

/-- What has been drained and not applied yet. -/
def inHand : Pc → List Control
  | applying rest => rest
  | _ => []

/-- A poll is under way, or has just returned. -/
def collecting : Pc → Bool
  | polling | draining => true
  | _ => false

/-- The last poll has returned, and its wake with it. -/
def returned : Pc → Bool
  | draining | leaving | exited => true
  | _ => false

end Pc

namespace Runtime

/-- The descriptors that the loop has in use. -/
def inUse (s : Runtime σ μ) : List ℕ :=
  match s.pc with
  | .exited => []
  | _ => s.tunFd :: s.pcapFd

theorem inUse_running {s : Runtime σ μ} (h : s.pc ≠ .exited) : s.inUse = s.tunFd :: s.pcapFd := by
  unfold inUse
  split
  · next he => exact absurd he h
  · rfl

/-- What holds of the control channel in every state. -/
structure Channel (config : Config μ) (s : Runtime σ μ) : Prop where
  /-- Messages are applied in the order they were queued in, each once. -/
  fifo : s.sent = s.applied ++ s.pc.inHand ++ s.commands
  /-- The settings in force are those that the messages applied make of the configuration. -/
  settings : s.forwarder.settings =
    s.applied.foldl Control.settings (Forwarder.new (σ := σ) config).settings
  /-- A poll that goes on while a message waits is about to be woken. -/
  noticed : s.pc = .polling → s.commands ≠ [] → s.woken = true ∨ 0 < s.unwoken
  /-- So is one that goes on after the stop. -/
  stopped : s.pc = .polling → s.stop = true → s.woken = true ∨ s.stopper = .stored
  /-- Messages are drained once at most after it. -/
  late : s.lateDrains ≤ 1
  /-- `stop` returns when the thread has ended. -/
  joined : s.stopper = .joined → s.pc = .exited
  /-- Each descriptor is in use, or still with its message, or has been closed once. -/
  fds : (s.tunFd :: s.sent.flatMap Control.fds).Perm
    (s.closed ++ s.inUse ++ (s.pc.inHand ++ s.commands).flatMap Control.fds)

section Forwarding

/-! Of the settings only a message changes anything. -/

theorem settings_flush (s : Runtime σ μ) (clock : ℕ → UInt64) :
    (s.flush clock).forwarder.settings = s.forwarder.settings := by
  unfold flush Forwarder.takeCoarse
  dsimp only
  split_ifs <;> rfl

variable [TcpSocket σ]

theorem settings_onTunPacket (w : Wire) (f : Forwarder σ μ) (packet : Bytes) (owner : ℤ) :
    (f.onTunPacket w packet owner).settings = f.settings := by
  cases hd : decode packet with
  | none => simp [Forwarder.onTunPacket, hd]
  | some d => exact (Forwarder.entered_onTunPacket w f owner hd).settings

end Forwarding

section Invariant

/-- What the channel rests on from one step to the next. -/
structure Steady (config : Config μ) (s : Runtime σ μ) : Prop where
  fifo : s.sent = s.applied ++ s.pc.inHand ++ s.commands
  settings : s.forwarder.settings =
    s.applied.foldl Control.settings (Forwarder.new (σ := σ) config).settings
  waiting : s.commands ≠ [] → s.woken = true ∨ 0 < s.unwoken ∨ s.pc.returned = true
  flag : s.stop = true → s.stopper ≠ .idle
  stopped : s.stop = true → s.woken = true ∨ s.stopper = .stored ∨ s.pc ≠ .polling
  late : s.lateDrains = 0 ∨ (s.lateDrains = 1 ∧ s.stop = true ∧ s.pc.collecting = false)
  joined : s.stopper = .joined → s.pc = .exited
  fresh : s.pc = .starting → s.pcap = none
  fds : (s.tunFd :: s.sent.flatMap Control.fds).Perm
    (s.closed ++ s.inUse ++ (s.pc.inHand ++ s.commands).flatMap Control.fds)

variable {config : Config μ} {s : Runtime σ μ}

theorem Steady.channel (h : s.Steady config) : s.Channel config where
  fifo := h.fifo
  settings := h.settings
  noticed := by
    intro hpc hne
    rcases h.waiting hne with hw | hu | hr
    · exact .inl hw
    · exact .inr hu
    · rw [hpc] at hr
      cases hr
  stopped := by
    intro hpc hstop
    rcases h.stopped hstop with hw | hs | hne
    · exact .inl hw
    · exact .inr hs
    · exact absurd hpc hne
  late := by
    rcases h.late with h0 | ⟨h1, -⟩ <;> omega
  joined := h.joined
  fds := h.fds

theorem steady_new (tunFd : ℕ) (config : Config μ) : (new tunFd config : Runtime σ μ).Steady config where
  fifo := rfl
  settings := rfl
  waiting h := absurd rfl h
  flag h := nomatch h
  stopped h := nomatch h
  late := .inl rfl
  joined h := nomatch h
  fresh _ := rfl
  fds := .refl _

/-- The thread goes on, with the same messages in hand. -/
theorem Steady.goto (h : s.Steady config) {pc : Pc} (hhand : pc.inHand = s.pc.inHand)
    (hreturned : s.pc.returned = true → pc.returned = true)
    (hpoll : pc = .polling → s.stop = false) (hcollect : pc.collecting = true →
      s.pc.collecting = true ∨ s.stop = false) (hexit : s.pc ≠ .exited) (hexit' : pc ≠ .exited)
    (hstart : pc ≠ .starting) :
    ({ s with pc := pc } : Runtime σ μ).Steady config := by
  have huse : ({ s with pc := pc } : Runtime σ μ).inUse = s.inUse := by
    rw [inUse_running hexit, inUse_running hexit']
    rfl
  refine { h with
    fifo := ?_, waiting := ?_, stopped := ?_, late := ?_, joined := ?_
    fresh := fun hp => absurd hp hstart, fds := ?_ }
  · rw [hhand]
    exact h.fifo
  · intro hne
    rcases h.waiting hne with hw | hu | hr
    · exact .inl hw
    · exact .inr (.inl hu)
    · exact .inr (.inr (hreturned hr))
  · intro hstop
    refine .inr (.inr fun hp => ?_)
    rw [hpoll hp] at hstop
    cases hstop
  · rcases h.late with h0 | ⟨h1, hstop, hc⟩
    · exact .inl h0
    · refine .inr ⟨h1, hstop, Bool.eq_false_of_not_eq_true fun hp => ?_⟩
      rcases hcollect hp with hc' | hs
      · rw [hc] at hc'
        cases hc'
      · rw [hs] at hstop
        cases hstop
  · intro hj
    exact absurd (h.joined hj) hexit
  · rw [huse, hhand]
    exact h.fds

/-- The thread has applied all, and leaves the channel as it is. -/
theorem Steady.frame (h : s.Steady config) {f : Forwarder σ μ} {pcap : Option PcapWriter}
    (hf : f.settings = s.forwarder.settings)
    (hpcap : pcap.map PcapWriter.fd = s.pcap.map PcapWriter.fd) (keyLog : Bytes) (lastFlush : ℤ)
    (blobs : List Bytes) (traffic : List Crossing) :
    ({ s with
      forwarder := f, pcap := pcap, keyLog := keyLog, lastFlush := lastFlush, blobs := blobs
      traffic := traffic } : Runtime σ μ).Steady config := by
  refine { h with settings := hf.trans h.settings, fresh := ?_, fds := ?_ }
  · intro hp
    rw [h.fresh hp] at hpcap
    exact Option.map_eq_none_iff.mp hpcap
  · have hfds := h.fds
    unfold inUse pcapFd at hfds ⊢
    rwa [hpcap]

theorem Steady.apply (h : s.Steady config) (disk : Disk) {c : Control} {rest : List Control}
    (hpc : s.pc = .applying (c :: rest)) :
    ({ s.applyCommand disk c with
      pc := .applying rest, applied := s.applied ++ [c] } : Runtime σ μ).Steady config := by
  obtain ⟨f, pcap, closed, n, hframe, hset, -, hfds⟩ := applyCommand_frame disk s c
  have hfifo := h.fifo
  have hwait := h.waiting
  have hlate := h.late
  have hold := h.fds
  rw [inUse_running (by rw [hpc]; exact Pc.noConfusion)] at hold
  rw [hpc] at hfifo hwait hlate hold
  rw [hframe]
  refine { h with
    fifo := ?_, settings := ?_, waiting := hwait, stopped := fun _ => .inr (.inr Pc.noConfusion)
    late := hlate, joined := ?_, fresh := Pc.noConfusion, fds := ?_ }
  · simpa [Pc.inHand] using hfifo
  · rw [List.foldl_append, ← h.settings]
    exact hset
  · intro hj
    have he := h.joined hj
    rw [hpc] at he
    cases he
  · change (s.tunFd :: s.sent.flatMap Control.fds).Perm
      (closed ++ s.tunFd :: (pcap.map PcapWriter.fd).toList ++
        (rest ++ s.commands).flatMap Control.fds)
    rw [List.perm_iff_count] at hold hfds ⊢
    intro fd
    have hcount := hold fd
    have hmoved := hfds fd
    simp only [Pc.inHand, List.cons_append, List.flatMap_cons, List.count_append,
      List.count_cons] at hcount hmoved ⊢
    omega

theorem Steady.drain (h : s.Steady config) (hpc : s.pc = .draining) :
    ({ s with
      pc := .applying s.commands
      commands := []
      lateDrains := if s.stop then s.lateDrains + 1 else s.lateDrains } : Runtime σ μ).Steady
        config := by
  have hfifo := h.fifo
  have hfds := h.fds
  have hrun : s.pc ≠ .exited := by
    rw [hpc]
    exact Pc.noConfusion
  rw [inUse_running hrun, hpc] at hfds
  rw [hpc] at hfifo
  have hlate : s.lateDrains = 0 := by
    rcases h.late with h0 | ⟨-, -, hc⟩
    · exact h0
    · rw [hpc] at hc
      cases hc
  refine { h with
    fifo := ?_, waiting := fun hne => absurd rfl hne, stopped := fun _ => .inr (.inr Pc.noConfusion)
    late := ?_, joined := fun hj => absurd (h.joined hj) hrun, fresh := Pc.noConfusion, fds := ?_ }
  · simpa [Pc.inHand] using hfifo
  · dsimp only
    rw [hlate]
    cases hs : s.stop with
    | true => exact .inr ⟨rfl, rfl, rfl⟩
    | false => exact .inl rfl
  · simpa [Pc.inHand, inUse, pcapFd] using hfds

theorem Steady.polled (h : s.Steady config) (hpc : s.pc = .polling) (woken : Bool) {pc : Pc}
    (hhand : pc.inHand = []) (hreturned : pc.returned = true) (hexit : pc ≠ .exited) :
    ({ s with pc := pc, woken := woken } : Runtime σ μ).Steady config := by
  have hrun : s.pc ≠ .exited := by
    rw [hpc]
    exact Pc.noConfusion
  have hne : pc ≠ .polling := by
    rintro rfl
    cases hreturned
  have hstart : pc ≠ .starting := by
    rintro rfl
    cases hreturned
  have hgone : ({ s with pc := pc } : Runtime σ μ).Steady config := by
    apply h.goto
    · rw [hhand, hpc]
      rfl
    · exact fun _ => hreturned
    · exact fun hp => absurd hp hne
    · exact fun _ => .inl (by rw [hpc]; rfl)
    · exact hrun
    · exact hexit
    · exact hstart
  exact { hgone with
    waiting := fun _ => .inr (.inr hreturned), stopped := fun _ => .inr (.inr hne) }

/-- The end of the thread, with everything closed that it had in use. -/
theorem Steady.ended (h : s.Steady config) (hpc : s.pc = .starting ∨ s.pc = .leaving)
    {f : Forwarder σ μ} (hf : f.settings = s.forwarder.settings) (lastFlush : ℤ)
    (blobs : List Bytes) :
    ({ s with
      forwarder := f, lastFlush := lastFlush, blobs := blobs, pc := .exited, pcap := none
      closed := s.closed ++ s.pcapFd ++ [s.tunFd] } : Runtime σ μ).Steady config := by
  have hhand : s.pc.inHand = [] := by
    rcases hpc with hp | hp <;> rw [hp] <;> rfl
  have hrun : s.pc ≠ .exited := by
    rcases hpc with hp | hp <;> rw [hp] <;> exact Pc.noConfusion
  have hfifo := h.fifo
  have hfds := h.fds
  rw [inUse_running hrun, hhand] at hfds
  rw [hhand] at hfifo
  refine { h with
    fifo := hfifo, settings := hf.trans h.settings, waiting := fun _ => .inr (.inr rfl)
    stopped := fun _ => .inr (.inr Pc.noConfusion), late := ?_, joined := fun _ => rfl
    fresh := Pc.noConfusion, fds := ?_ }
  · rcases h.late with h0 | ⟨h1, hstop, -⟩
    · exact .inl h0
    · exact .inr ⟨h1, hstop, rfl⟩
  · refine hfds.trans ?_
    have hswap : (s.tunFd :: s.pcapFd).Perm (s.pcapFd ++ [s.tunFd]) :=
      (List.perm_append_singleton _ _).symm
    have hall := (hswap.append_left s.closed).append_right (s.commands.flatMap Control.fds)
    simpa [Pc.inHand, inUse] using hall

variable [TcpSocket σ] [Splice μ]

theorem Steady.step {host : Host} {s s' : Runtime σ μ} {a : RuntimeAct σ μ} (h : s.Steady config)
    (hs : Steps host s a s') : s'.Steady config := by
  cases hs with
  | push c =>
    refine { h with fifo := ?_, waiting := fun _ => .inr (.inl (Nat.succ_pos _)), fds := ?_ }
    · rw [h.fifo, List.append_assoc, List.append_assoc]
    · have hfds := h.fds.append_right c.fds
      simpa [List.flatMap_append, inUse, pcapFd] using hfds
  | wake hu => exact { h with waiting := fun _ => .inl rfl, stopped := fun _ => .inl rfl }
  | storeStop hidle =>
    refine { h with
      flag := fun _ => Stopper.noConfusion, stopped := fun _ => .inr (.inl rfl), late := ?_
      joined := Stopper.noConfusion }
    rcases h.late with h0 | ⟨h1, -, hc⟩
    · exact .inl h0
    · exact .inr ⟨h1, rfl, hc⟩
  | wakeStop hstored =>
    exact { h with
      waiting := fun _ => .inl rfl, flag := fun _ => Stopper.noConfusion
      stopped := fun _ => .inl rfl, joined := Stopper.noConfusion }
  | join hpc hjoin =>
    refine { h with
      flag := fun _ => Stopper.noConfusion, stopped := fun _ => .inr (.inr ?_)
      joined := fun _ => hpc }
    rw [hpc]
    exact Pc.noConfusion
  | enter hpc =>
    apply h.goto <;> simp [hpc, Pc.inHand, Pc.returned, Pc.collecting]
  | giveUp hpc =>
    have hended := h.ended (.inl hpc) rfl s.lastFlush s.blobs
    have hnone := h.fresh hpc
    have hsame : ({ s with pc := .exited, closed := s.closed ++ [s.tunFd] } : Runtime σ μ) =
        { s with
          forwarder := s.forwarder, lastFlush := s.lastFlush, blobs := s.blobs, pc := .exited
          pcap := none, closed := s.closed ++ s.pcapFd ++ [s.tunFd] } := by
      simp [pcapFd, hnone]
    rwa [hsame]
  | check hpc hstop =>
    have hgone : ({ s with pc := .polling } : Runtime σ μ).Steady config := by
      apply h.goto <;> simp [hpc, hstop, Pc.inHand, Pc.returned]
    exact { hgone with }
  | checkStop hpc hstop =>
    apply h.goto <;> simp [hpc, Pc.inHand, Pc.returned, Pc.collecting]
  | poll hpc sawWake woken => exact h.polled hpc woken rfl rfl Pc.noConfusion
  | pollFailed hpc sawWake woken => exact h.polled hpc woken rfl rfl Pc.noConfusion
  | drain hpc => exact h.drain hpc
  | apply c rest hpc => exact h.apply host.disk hpc
  | packet hpc packet owner timestamp hlen =>
    exact h.frame (settings_onTunPacket host.wire s.forwarder packet owner)
      (fd_cross host.disk s [.packet timestamp packet]) s.keyLog s.lastFlush s.blobs _
  | ready hpc token event keylog =>
    have hready := s.forwarder.reports_onReady token event
    exact h.frame hready.settings rfl _ s.lastFlush s.blobs s.traffic
  | service hpc polls order emitted keylog =>
    have hserved := s.forwarder.reports_service polls order emitted
    have hframe := h.frame hserved.settings rfl (s.keyLog ++ keylog) s.lastFlush s.blobs s.traffic
    apply hframe.goto <;> simp [hpc, Pc.inHand, Pc.returned, Pc.collecting]
  | write hpc stamps =>
    have hframe := h.frame (f := { s.forwarder with outbox := [] }) rfl
      (fd_cross host.disk s (s.outgoing host stamps)) [] s.lastFlush s.blobs
      (s.traffic ++ s.outgoing host stamps)
    apply hframe.goto <;> simp [hpc, Pc.inHand, Pc.returned, Pc.collecting]
  | flush hpc clock hdue =>
    have hframe := h.frame (settings_flush s clock) rfl s.keyLog (s.flush clock).lastFlush
      (s.flush clock).blobs s.traffic
    apply hframe.goto <;> simp [hpc, Pc.inHand, Pc.returned, Pc.collecting]
  | gather hpc clock hdue =>
    apply h.goto <;> simp [hpc, Pc.inHand, Pc.returned, Pc.collecting]
  | leave hpc clock => exact h.ended (.inr hpc) (settings_flush s clock) _ _
  | world i f hset hacc => exact h.frame hset rfl s.keyLog s.lastFlush s.blobs s.traffic

end Invariant

section Main

variable [TcpSocket σ] [Splice μ]

/-- In every run of a session, however its threads interleave: the messages are applied in the order
in which they are queued, each once; the settings in force are what the messages applied make of the
configuration, whatever packets and events come between; no poll goes on past a message or the stop
without a wake-up under way; after the stop messages are drained once at most, and `stop` returns
when the thread has ended; and each descriptor is in use, waits with its message, or has been
closed, once. -/
theorem control_channel {host : Host} {tunFd : ℕ} {config : Config μ} {s : Runtime σ μ}
    (h : (automaton host tunFd config).Reachable s) : s.Channel config := by
  have hkeeps : (automaton (σ := σ) host tunFd config).Keeps (Steady config) := by
    intro s a s' hs hstep
    exact hs.step (steps_of_step host hstep)
  exact (hkeeps.reachable (steady_new tunFd config) h).channel

end Main

/-- A host whose files take everything. -/
def plainHost : Host where
  wire := .plain
  bytes _ := []
  disk _ _ _ := some 64

/-- A capture is started while the session is being stopped, and an export too late. -/
def stopsInATurn : List (RuntimeAct PlainSocket PlainSplice) :=
  [.enter true, .push (.startPcap 7 0), .check, .wake, .poll true true, .storeStop, .drain,
    .push (.exportHar 8), .apply, .service (fun _ => .still) [] [] [], .write id, .flush fun _ => 0,
    .wakeStop, .check, .leave fun _ => 0, .join]

theorem control_channel_stopped :
    ∃ s, (automaton plainHost 3 plainConfig).run stopsInATurn = some s ∧
      s.closed = [7, 3] ∧ s.applied.length = 1 ∧ s.commands.flatMap Control.fds = [8] ∧
      s.stopper = .joined ∧ s.Channel plainConfig := by
  refine ⟨_, rfl, rfl, rfl, rfl, rfl, ?_⟩
  exact @control_channel _ _ _ _ plainHost 3 plainConfig _ ⟨stopsInATurn, rfl⟩

end Runtime

end Adwarden.Core
