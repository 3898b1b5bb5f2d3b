import Adwarden.Core.RuntimeControl
import Adwarden.Lib.Ledger

/-! The capture of a session: its file against the traffic since it was started. -/
namespace Adwarden.Core
open Adwarden.Lib Adwarden.Net Adwarden.Tls

variable {σ μ : Type} [TcpSocket σ] [Splice μ]

/-- The secrets that the TLS sessions log in a step. -/
def RuntimeAct.keylog : RuntimeAct σ μ → Bytes
  | .ready _ _ keylog => keylog
  | .service _ _ _ keylog => keylog
  | _ => []

def Crossing.keylog : Crossing → Bytes
  | .secrets keylog => keylog
  | .packet _ _ => []

namespace Runtime

/-- What crosses the tunnel in a step: a packet that is read, or what is taken for the tunnel behind
the secrets logged until then. -/
def crossings (host : Host) (s : Runtime σ μ) : RuntimeAct σ μ → List Crossing
  | .packet packet _ timestamp => [.packet timestamp packet]
  | .write stamps => s.outgoing host stamps
  | _ => []

theorem traffic_step {host : Host} {s s' : Runtime σ μ} {a : RuntimeAct σ μ}
    (h : s.step host a = some s') : s'.traffic = s.traffic ++ s.crossings host a := by
  have hsame {t : List Crossing} (ht : t = s.traffic) : t = s.traffic ++ [] := by
    rw [ht, List.append_nil]
  cases steps_of_step host h with
  | packet hpc packet owner timestamp hlen => rfl
  | write hpc stamps => rfl
  | apply c rest hpc =>
    obtain ⟨f, pcap, closed, n, hframe, -⟩ := applyCommand_frame host.disk s c
    rw [hframe]
    exact hsame rfl
  | _ => exact hsame rfl

omit [TcpSocket σ] [Splice μ] in
theorem keylog_outgoing (host : Host) (s : Runtime σ μ) (stamps : ℕ → ℕ) :
    (s.outgoing host stamps).flatMap Crossing.keylog = s.keyLog := by
  have hpackets (ps : List (Outbound × ℕ)) : (ps.map fun p =>
      Crossing.packet (stamps p.2) (host.bytes p.1)).flatMap Crossing.keylog = [] := by
    simp [List.flatMap_map, Crossing.keylog]
  rw [outgoing, List.flatMap_cons, hpackets, List.append_nil]
  rfl

theorem keylog_step {host : Host} {s s' : Runtime σ μ} {a : RuntimeAct σ μ} {logged : Bytes}
    (hs : logged = s.traffic.flatMap Crossing.keylog ++ s.keyLog)
    (h : s.step host a = some s') :
    logged ++ a.keylog = s'.traffic.flatMap Crossing.keylog ++ s'.keyLog := by
  have hlog (hk : a.keylog = []) (ht : s'.traffic = s.traffic) (hl : s'.keyLog = s.keyLog) :
      logged ++ a.keylog = s'.traffic.flatMap Crossing.keylog ++ s'.keyLog := by
    rw [hk, ht, hl, hs, List.append_nil]
  cases steps_of_step host h with
  | packet hpc packet owner timestamp hlen =>
    subst hs
    simp [RuntimeAct.keylog, cross, setForwarder, Crossing.keylog]
  | ready hpc token event keylog =>
    rw [hs, List.append_assoc]
    rfl
  | service hpc polls order emitted keylog =>
    rw [hs, List.append_assoc]
    rfl
  | write hpc stamps =>
    change logged ++ [] = (s.traffic ++ s.outgoing host stamps).flatMap Crossing.keylog ++ []
    rw [hs, List.flatMap_append, keylog_outgoing]
  | apply c rest hpc =>
    obtain ⟨f, pcap, closed, n, hframe, -⟩ := applyCommand_frame host.disk s c
    rw [hframe] at hlog ⊢
    exact hlog rfl rfl rfl
  | _ => exact hlog rfl rfl rfl

/-- The active capture has been shown the traffic since its start. -/
def Filming (disk : Disk) (s : Runtime σ μ) : Prop :=
  ∀ w, s.pcap = some w → s.captureFrom ≤ s.traffic.length ∧
    ∃ opening, PcapWriter.new disk w.fd pcapSnaplen w.cap = some opening ∧
      w = (s.traffic.drop s.captureFrom).foldl (PcapWriter.tap disk) opening

omit [TcpSocket σ] [Splice μ] in
theorem Filming.cross {disk : Disk} {s : Runtime σ μ} (h : s.Filming disk) (cs : List Crossing) :
    (s.cross disk cs).Filming disk := by
  intro w' hw'
  obtain ⟨w, hw, rfl⟩ := Option.map_eq_some_iff.mp hw'
  obtain ⟨hfrom, opening, hnew, hshown⟩ := h w hw
  have hheader := PcapWriter.header_foldl_tap disk w cs
  have hfd : (cs.foldl (PcapWriter.tap disk) w).fd = w.fd := congrArg Prod.fst hheader
  have hcap : (cs.foldl (PcapWriter.tap disk) w).cap = w.cap := congrArg (fun p => p.2.2) hheader
  refine ⟨hfrom.trans (by simp [Runtime.cross]), opening, by rw [hfd, hcap, hnew], ?_⟩
  change _ = ((s.traffic ++ cs).drop s.captureFrom).foldl (PcapWriter.tap disk) opening
  rw [List.drop_append_of_le_length hfrom, List.foldl_append, ← hshown]

omit [TcpSocket σ] [Splice μ] in
theorem Filming.applyCommand {disk : Disk} {s : Runtime σ μ} (h : s.Filming disk) (c : Control) :
    (s.applyCommand disk c).Filming disk := by
  cases c with
  | live c => exact h
  | unread => exact h
  | exportHar fd => exact h
  | stopPcap =>
    intro w hw
    cases hw
  | startPcap fd ringBytes =>
    change (s.startPcap disk fd ringBytes).Filming disk
    unfold startPcap
    dsimp only
    split
    · next writer hnew =>
      have hheader := (PcapWriter.new_spec disk hnew).1
      intro w hw
      obtain rfl := Option.some.inj hw
      refine ⟨Nat.le_refl _, writer, ?_, ?_⟩
      · have hfd : writer.fd = fd := congrArg Prod.fst hheader
        have hcap := congrArg (fun p => p.2.2) hheader
        rw [hfd]
        exact (congrArg _ hcap).trans hnew
      · rw [List.drop_length]
        rfl
    · intro w hw
      cases hw

theorem Filming.step {host : Host} {s s' : Runtime σ μ} {a : RuntimeAct σ μ}
    (hs : s.Filming host.disk) (h : s.step host a = some s') : s'.Filming host.disk := by
  cases steps_of_step host h with
  | packet hpc packet owner timestamp hlen => exact hs.cross [.packet timestamp packet]
  | write hpc stamps => exact hs.cross (s.outgoing host stamps)
  | apply c rest hpc => exact hs.applyCommand c
  | leave hpc clock =>
    intro w hw
    cases hw
  | _ => exact hs

/-- In every run of a session: what crosses the tunnel is recorded packet by packet, in its order,
and each secret that a TLS session logs once, in front of the packets that are taken for the tunnel
after it; and the file of the active capture has, in this order, blocks of what crossed since it was
started. When its disk takes all that is written, these are all of them, or the shortest part in
front, of one block at least, that reaches the byte cap. -/
theorem capture_file {host : Host} {tunFd : ℕ} {config : Config μ}
    {as : List (RuntimeAct σ μ)} {s : Runtime σ μ}
    (h : (automaton host tunFd config).run as = some s) :
    s.traffic = (automaton host tunFd config).emitted (crossings host) (.new tunFd config) as ∧
    as.flatMap RuntimeAct.keylog = s.traffic.flatMap Crossing.keylog ++ s.keyLog ∧
    ∀ w, s.pcap = some w →
      let blocks := PcapWriter.blocksOf pcapSnaplen (s.traffic.drop s.captureFrom)
      (∃ kept, kept.Sublist blocks ∧
        w.blocks = [.section, .interface pcapSnaplen] ++ kept) ∧
      ∀ size, PcapWriter.Roomy host.disk size → ∃ kept,
        w.blocks = [.section, .interface pcapSnaplen] ++ kept ∧
          PcapWriter.Kept size w.cap (size (.interface pcapSnaplen)) blocks kept := by
  have hinit : ([] : List (RuntimeAct σ μ)).flatMap RuntimeAct.keylog =
      (new tunFd config : Runtime σ μ).traffic.flatMap Crossing.keylog ++
        (new tunFd config : Runtime σ μ).keyLog := rfl
  have hkeylog := Automaton.runFrom_history (A := automaton host tunFd config)
    (R := fun s as => as.flatMap RuntimeAct.keylog =
      s.traffic.flatMap Crossing.keylog ++ s.keyLog)
    (fun s as a s' hs hstep => by
      rw [List.flatMap_append, List.flatMap_singleton]
      exact keylog_step hs hstep) hinit h
  refine ⟨Automaton.emitted_eq traffic (fun s a s' => traffic_step) h, hkeylog, ?_⟩
  have hstart : (new tunFd config : Runtime σ μ).Filming host.disk := by
    intro w hw
    cases hw
  have hfilming : s.Filming host.disk :=
    (show (automaton host tunFd config).Keeps (Filming host.disk) from
      fun s a s' => Filming.step).runFrom hstart h
  intro w hw blocks
  obtain ⟨-, opening, hnew, hshown⟩ := hfilming w hw
  obtain ⟨hheader, hblocks, hgoing, hwritten⟩ := PcapWriter.new_spec host.disk hnew
  have hsnap : opening.snaplen = pcapSnaplen := congrArg (fun p => p.2.1) hheader
  have hcap : opening.cap = w.cap := congrArg (fun p => p.2.2) hheader
  rw [PcapWriter.foldl_tap, hsnap] at hshown
  rw [← hblocks]
  constructor
  · obtain ⟨kept, hsub, hkept⟩ := PcapWriter.foldl_offer_sublist host.disk opening blocks
    exact ⟨kept, hsub, by rw [hshown]; exact hkept⟩
  · intro size hdisk
    obtain ⟨kept, hkept, hcut⟩ := PcapWriter.foldl_offer_kept hdisk hgoing blocks
    have hsize : opening.written = size (.interface pcapSnaplen) :=
      Option.some.inj (hwritten.symm.trans (hdisk w.fd 1 _))
    rw [hcap, hsize] at hcut
    exact ⟨kept, by rw [hshown]; exact hkept, hcut⟩

/-- A capture that may take 100 bytes is started, and two packets arrive. -/
def capturesTwo : List (RuntimeAct PlainSocket PlainSplice) :=
  [.enter true, .push (.startPcap 7 100), .check, .poll true false, .drain, .apply,
    .packet [0x45] 10 1, .packet [0x60] 10 2, .service (fun _ => .still) [] [] [5], .write id]

theorem capture_file_cut :
    ∃ s, (automaton plainHost 3 plainConfig).run capturesTwo = some s ∧
      s.traffic = [.packet 1 [0x45], .packet 2 [0x60], .secrets [5]] ∧
      ∃ w, s.pcap = some w ∧
        w.blocks = [.section, .interface pcapSnaplen, .enhancedPacket 1 1 [0x45]] ∧
        PcapWriter.Kept (fun _ => 64) (some 100) 64
          (PcapWriter.blocksOf pcapSnaplen (s.traffic.drop s.captureFrom))
          [.enhancedPacket 1 1 [0x45]] := by
  obtain ⟨s, hs, htraffic, hpcap⟩ : ∃ s,
      (automaton plainHost 3 plainConfig).run capturesTwo = some s ∧
      s.traffic = [.packet 1 [0x45], .packet 2 [0x60], .secrets [5]] ∧
      s.pcap.map (fun w => (w.blocks, w.cap)) =
        some ([.section, .interface pcapSnaplen, .enhancedPacket 1 1 [0x45]], some 100) :=
    ⟨_, rfl, rfl, rfl⟩
  obtain ⟨w, hw, hfile⟩ := Option.map_eq_some_iff.mp hpcap
  obtain ⟨hblocks, hcap⟩ := Prod.mk.inj hfile
  obtain ⟨kept, hkept, hcut⟩ := ((capture_file hs).2.2 w hw).2 (fun _ => 64) fun _ _ _ => rfl
  have hone : kept = [.enhancedPacket 1 1 [0x45]] :=
    List.append_cancel_left (hkept.symm.trans hblocks)
  rw [hcap, hone] at hcut
  exact ⟨s, hs, htraffic, w, hw, hblocks, hcut⟩

end Runtime

end Adwarden.Core
