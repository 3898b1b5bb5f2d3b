import Adwarden.Core.ForwarderActs
import Adwarden.Core.Verdicts

/-! The firewall within the forwarder. It is that of the device, after the updates and the packets
that the steps of the forwarder bring to it. -/
namespace Adwarden.Core
open Adwarden.Lib Adwarden.Net Adwarden.Tls

variable {σ μ : Type}

section Devices

/-- What an event makes of a firewall. -/
def Firewall.event (s : Firewall) : DeviceEvent → Firewall
  | .update u => s.update u
  | .packet key lookup => (s.verdict key lookup).2
  | _ => s

/-- The events that the firewall sees: connections come and go without it. -/
def DeviceEvent.reaches : DeviceEvent → Bool
  | .update _ => true
  | .packet _ _ => true
  | _ => false

theorem Device.step_firewall {d d' : Device} {e : DeviceEvent} (h : d.step e = some d') :
    d'.firewall = d.firewall.event e := by
  cases e with
  | update u =>
    obtain rfl := Option.some.inj h
    rfl
  | opens key uid =>
    simp only [Device.step] at h
    split_ifs at h
    obtain rfl := Option.some.inj h
    rfl
  | ends key =>
    obtain rfl := Option.some.inj h
    rfl
  | packet key lookup =>
    simp only [Device.step] at h
    split_ifs at h
    obtain rfl := Option.some.inj h
    rfl

theorem Firewall.event_of_not_reaches (s : Firewall) {e : DeviceEvent} (h : e.reaches = false) :
    s.event e = s := by
  cases e with
  | opens key uid => rfl
  | ends key => rfl
  | update u => cases h
  | packet key lookup => cases h

/-- Only what reaches the firewall counts. -/
theorem device_firewall {d d' : Device} {es : List DeviceEvent}
    (h : device.runFrom d es = some d') :
    d'.firewall = (es.filter DeviceEvent.reaches).foldl Firewall.event d.firewall := by
  induction es generalizing d with
  | nil =>
    obtain rfl := Option.some.inj h
    rfl
  | cons e es ih =>
    obtain ⟨d₁, hstep, hrest⟩ := (Automaton.runFrom_cons _).mp h
    rw [ih hrest, Device.step_firewall hstep]
    cases he : e.reaches with
    | true => rw [List.filter_cons_of_pos he, List.foldl_cons]
    | false =>
      rw [List.filter_cons_of_neg (Bool.eq_false_iff.mp he),
        Firewall.event_of_not_reaches _ he]

/-- The event by itself: a packet is of a connection that is open for it only. -/
def DeviceEvent.alone : DeviceEvent → List DeviceEvent
  | .packet key lookup => [.opens key lookup, .packet key lookup, .ends key]
  | e => [e]

theorem DeviceEvent.filter_alone {es : List DeviceEvent} (h : ∀ e ∈ es, e.reaches = true) :
    (es.flatMap DeviceEvent.alone).filter DeviceEvent.reaches = es := by
  induction es with
  | nil => rfl
  | cons e es ih =>
    have hrest := ih fun e he => h e (List.mem_cons_of_mem _ he)
    rw [List.flatMap_cons, List.filter_append, hrest]
    cases e with
    | update u => rfl
    | packet key lookup => rfl
    | opens key uid => cases h _ List.mem_cons_self
    | ends key => cases h _ List.mem_cons_self

/-- Whatever is to reach the firewall reaches that of some device. -/
theorem exists_device {es : List DeviceEvent} (h : ∀ e ∈ es, e.reaches = true) (s : Firewall) :
    ∃ d, device.runFrom ⟨s, ∅⟩ (es.flatMap DeviceEvent.alone) = some d := by
  induction es generalizing s with
  | nil => exact ⟨_, rfl⟩
  | cons e es ih =>
    have hrest (s : Firewall) := ih (fun e he => h e (List.mem_cons_of_mem _ he)) s
    rw [List.flatMap_cons]
    cases e with
    | update u => exact hrest (s.update u)
    | packet key lookup =>
      obtain ⟨d, hd⟩ := hrest (s.verdict key lookup).2
      refine ⟨d, (Automaton.runFrom_append _).mpr ⟨⟨(s.verdict key lookup).2, ∅⟩, ?_, hd⟩⟩
      have hopen : (AList.singleton key lookup : AList fun _ : FlowKey => ℤ).lookup key =
          some lookup := by
        rw [← AList.insert_empty, AList.lookup_insert]
      have hclosed : (AList.singleton key lookup : AList fun _ : FlowKey => ℤ).erase key = ∅ := by
        rw [← AList.insert_empty, erase_insert]
        rfl
      simp [DeviceEvent.alone, Automaton.runFrom, device, Device.step, hopen, hclosed]
    | opens key uid => cases h _ List.mem_cons_self
    | ends key => cases h _ List.mem_cons_self

end Devices

namespace Forwarder

/-- The 5-tuple under which a packet is judged. -/
def judgedKey (d : Decoded) (proto : UInt8) : FlowKey := ⟨proto, d.src, d.srcPort, d.dst, d.dstPort⟩

/-- The packets that are judged: not those that carry encrypted DNS over QUIC. -/
def judges (s : Forwarder σ μ) (packet : Bytes) (owner : ℤ) : List DeviceEvent :=
  match decode packet with
  | none => []
  | some d =>
    match d.proto with
    | .tcp => [.packet (judgedKey d protoTcp) owner]
    | .udp => if s.dropsDoq d then [] else [.packet (judgedKey d protoUdp) owner]
    | _ => []

variable [TcpSocket σ] [Splice μ]

/-- What a step brings to the firewall. -/
def brings (s : Forwarder σ μ) : Input σ μ → List DeviceEvent
  | .packet packet owner => s.judges packet owner
  | .command (.setFirewall rules) => [.update (.setFirewall rules)]
  | .command (.setTransport transport) => [.update (.setTransport transport)]
  | .command (.setLogOpen isOpen) => [.update (.setLogOpen isOpen)]
  | _ => []

omit [TcpSocket σ] [Splice μ] in
theorem reaches_judges {s : Forwarder σ μ} {packet : Bytes} {owner : ℤ} {e : DeviceEvent}
    (he : e ∈ s.judges packet owner) : e.reaches = true := by
  unfold judges at he
  cases hd : decode packet with
  | none => simp [hd] at he
  | some d =>
    cases hproto : d.proto <;> simp only [hd, hproto] at he
    case tcp => rw [List.mem_singleton.mp he, DeviceEvent.reaches]
    case udp =>
      split_ifs at he
      · cases he
      · rw [List.mem_singleton.mp he, DeviceEvent.reaches]
    all_goals cases he

theorem reaches_brings {s : Forwarder σ μ} {a : Input σ μ} {e : DeviceEvent}
    (he : e ∈ s.brings a) : e.reaches = true := by
  unfold brings at he
  split at he
  · exact reaches_judges he
  · rw [List.mem_singleton.mp he, DeviceEvent.reaches]
  · rw [List.mem_singleton.mp he, DeviceEvent.reaches]
  · rw [List.mem_singleton.mp he, DeviceEvent.reaches]
  · cases he

section Frame

variable {P : Egress → Prop} {C : Causes} {s s' : Forwarder σ μ}

theorem Act.firewall (hact : Act P C s s') (hjudged : ¬ C.judged) :
    s'.shared.firewall = s.shared.firewall := by
  cases hact with
  | same _ _ hfirewall => exact hfirewall.resolve_right hjudged
  | flow id h' x hacts => exact hacts.sameConfig.firewall
  | remove id _ _ =>
    unfold removeFlow
    split <;> rfl
  | _ => rfl

theorem Acts.firewall (hacts : Acts P C s s') (hjudged : ¬ C.judged) :
    s'.shared.firewall = s.shared.firewall :=
  eq_of_acts (f := fun s : Forwarder σ μ => s.shared.firewall)
    (fun _ _ hact => hact.firewall hjudged) hacts

/-- Acts during which no verdict is asked for, and no rule changes. -/
abbrev Unjudged : Forwarder σ μ → Forwarder σ μ → Prop :=
  Acts (fun _ => True) { Causes.any with judged := False }

theorem Unjudged.firewall (h : Unjudged s s') : s'.shared.firewall = s.shared.firewall :=
  Acts.firewall h not_false

end Frame

section Steps

variable {w : Wire} {s s' : Forwarder σ μ}

theorem onTunPacket_firewall (s : Forwarder σ μ) (packet : Bytes) (owner : ℤ) :
    (s.onTunPacket w packet owner).shared.firewall =
      (s.judges packet owner).foldl Firewall.event s.shared.firewall := by
  unfold onTunPacket judges
  cases hd : decode packet with
  | none => rfl
  | some d =>
    dsimp only
    cases hproto : d.proto with
    | tcp =>
      exact Unjudged.firewall (acts_onTcp_judged w s packet d owner (fun _ _ => trivial) trivial)
    | udp =>
      cases hdoq : s.dropsDoq d with
      | true =>
        unfold onUdp
        dsimp only
        rw [if_pos hdoq]
        rfl
      | false =>
        exact Unjudged.firewall (acts_onUdp_judged w s packet d owner hd hproto hdoq fun _ =>
          permitted_any s packet)
    | _ =>
      dsimp only
      split_ifs <;> rfl

/-- What a step makes of the firewall is what it brings to it. -/
theorem firewall_of_step [LawfulSplice μ] {a : Input σ μ} (h : step w s a = some s') :
    s'.shared.firewall = (s.brings a).foldl Firewall.event s.shared.firewall := by
  cases a with
  | packet packet owner =>
    obtain rfl := Option.some.inj h
    exact onTunPacket_firewall s packet owner
  | service polls order emitted =>
    simp only [step] at h
    split_ifs at h
    obtain rfl := Option.some.inj h
    exact Unjudged.firewall (acts_service s polls order emitted trivial)
  | ready token event =>
    obtain rfl := Option.some.inj h
    exact Unjudged.firewall ((acts_deliver s token event).trans
      (acts_onReady _ token event (mayRelay_any _)))
  | arrive token a =>
    obtain rfl := Option.some.inj h
    exact Unjudged.firewall (acts_arrive s token a trivial)
  | command c =>
    obtain rfl := Option.some.inj h
    cases c <;> rfl
  | elapse ms =>
    obtain rfl := Option.some.inj h
    rfl
  | answers dials relayConnects =>
    obtain rfl := Option.some.inj h
    rfl
  | splices c =>
    obtain rfl := Option.some.inj h
    rfl

end Steps

section Runs

variable (w : Wire)

/-- What a run brings to the firewall. -/
def bringsAll : Forwarder σ μ → List (Input σ μ) → List DeviceEvent
  | _, [] => []
  | s, a :: as => s.brings a ++ ((step w s a).map fun s' => bringsAll s' as).getD []

variable {w} [LawfulSplice μ] {config : Config μ} {s s' : Forwarder σ μ}

theorem firewall_of_run {as : List (Input σ μ)}
    (h : (automaton w config).runFrom s as = some s') :
    s'.shared.firewall = (bringsAll w s as).foldl Firewall.event s.shared.firewall := by
  induction as generalizing s with
  | nil =>
    obtain rfl := Option.some.inj h
    rfl
  | cons a as ih =>
    obtain ⟨s₁, hstep, hrest⟩ := (Automaton.runFrom_cons _).mp h
    have hstep : step w s a = some s₁ := hstep
    rw [bringsAll, hstep, List.foldl_append, ih hrest, firewall_of_step hstep]
    rfl

/-- A device whose connections come and go as they like, and to which everything else comes that a
run brings to the firewall, after the setting it starts with. -/
structure Hosts (w : Wire) (config : Config μ) (as : List (Input σ μ)) (es : List DeviceEvent) :
    Prop where
  reaching : es.filter DeviceEvent.reaches =
    .update (.setLogOpen config.logOpen) :: bringsAll w (.new config) as

omit [LawfulSplice μ] in
theorem reaches_bringsAll {e : DeviceEvent} {as : List (Input σ μ)}
    (he : e ∈ bringsAll w s as) : e.reaches = true := by
  induction as generalizing s with
  | nil => cases he
  | cons a as ih =>
    rw [bringsAll, List.mem_append] at he
    rcases he with he | he
    · exact reaches_brings he
    · cases hstep : step w s a with
      | none => simp [hstep] at he
      | some s₁ =>
        rw [hstep] at he
        exact ih he

omit [LawfulSplice μ] in
/-- Every run is hosted by some device. -/
theorem exists_hosts (w : Wire) (config : Config μ) (as : List (Input σ μ)) :
    ∃ es d, Hosts w config as es ∧ device.run es = some d := by
  have hall : ∀ e ∈ DeviceEvent.update (.setLogOpen config.logOpen) :: bringsAll w (.new config) as,
      e.reaches = true := by
    intro e he
    rcases List.mem_cons.mp he with rfl | he
    · rfl
    · exact reaches_bringsAll he
  obtain ⟨d, hd⟩ := exists_device hall Firewall.new
  exact ⟨_, d, ⟨DeviceEvent.filter_alone hall⟩, hd⟩

variable {as : List (Input σ μ)} {es : List DeviceEvent}

/-- The firewall of the forwarder is that of the device. -/
theorem Hosts.firewall {d : Device} (h : Hosts w config as es)
    (hrun : (automaton w config).run as = some s) (hdevice : device.run es = some d) :
    d.firewall = s.shared.firewall := by
  rw [device_firewall hdevice, h.reaching, firewall_of_run hrun]
  rfl

/-- A packet that the forwarder judges is judged by the policy of the app that owns its connection,
as long as no 5-tuple is mixed up. -/
theorem Hosts.judged {t : Watched} (h : Hosts w config as es)
    (hrun : (automaton w config).run as = some s) (hdevice : watched.run es = some t)
    (hes : watched.EachStep Unmixed watched.init es) {d : Decoded} {proto : UInt8}
    {owner lookup : ℤ} (hpacket : Unmixed t (.packet (judgedKey d proto) lookup))
    (howner : t.device.owners.lookup (judgedKey d proto) = some owner) :
    (s.judge d proto lookup).1.blocked = s.shared.firewall.policyBlocks owner := by
  have hserves : t.Serves :=
    hes.runFrom (fun _ _ _ hs hunmixed hstep => hs.step hunmixed hstep) .new hdevice
  have hrunDevice : device.run es = some t.device := by
    have hmap := Automaton.runFrom_map Watched.device watched_step watched.init es
    rw [show watched.runFrom watched.init es = some t from hdevice] at hmap
    exact hmap
  have hfirewall := h.firewall hrun hrunDevice
  have hjudged := (hserves.judged_iff howner).mpr hpacket owner howner
  rw [hfirewall] at hjudged
  exact hjudged

end Runs

end Forwarder

end Adwarden.Core
