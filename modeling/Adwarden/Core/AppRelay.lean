import Adwarden.Core.Sessions

/-! The relay of an app's bytes to its upstream: none is lost, and they keep their order. -/
namespace Adwarden.Core
open Relation Adwarden.Lib Adwarden.Net Adwarden.Tls

variable {σ μ : Type}

/-- The bytes that wait for the server name. -/
def Classify.held : Classify → Bytes
  | .settled => []
  | .pendingSni buf => buf

theorem Shared.held_openUpstream (h : Shared μ) (server : SocketAddr) (uid : ℤ) (io : UpstreamIo)
    (token : Token) : (h.openUpstream server uid io token).classify.held = [] := by
  unfold openUpstream
  dsimp only
  split_ifs <;> rfl

/-- What an upstream has been sent, against the bytes that `v` shows the app to have sent. -/
structure TcpUpstream.RelaysApp (up : TcpUpstream μ) (v : SocketView) : Prop where
  written : up.relayed <+: v.received
  rest : up.io.writeFailed = false → up.relayed ++ up.toUpstream ++ up.classify.held = v.taken
  early : up.connecting = true ∨ up.handshake.isSome = true → up.relayed = []
  shut : up.io.writeShut = true → v.state.peerFinished = true ∧ up.relayed = v.received

section Carrying

/-- What every act keeps, with `data` taken from the app and not placed yet. What a flush that
fails has written stays in the queue. -/
structure UpCore.Carries (c : UpCore) (v : SocketView) (data : Bytes) : Prop where
  staged : ∃ sent again, c.relayed = sent ++ again ∧ again <+: c.toUpstream ∧
    (c.writeFailed = false → again = []) ∧
    sent ++ c.toUpstream ++ c.kind.classify.held ++ data = v.taken
  early : c.connecting = true ∨ c.handshaking = true → c.relayed = []
  shut : c.writeShut = true → v.state.peerFinished = true ∧ v.unread = [] ∧
    c.toUpstream = [] ∧ c.kind.classify.held = [] ∧ data = []

namespace UpCore.Carries

variable {c : UpCore} {v : SocketView} {data : Bytes}

theorem view (h : c.Carries v data) {v' : SocketView} (ht : v'.taken = v.taken)
    (hf : v.state.peerFinished = true → v'.state.peerFinished = true ∧ v'.unread = v.unread) :
    c.Carries v' data where
  staged := by
    rw [ht]
    exact h.staged
  early := h.early
  shut hs := by
    obtain ⟨hfin, hu, hrest⟩ := h.shut hs
    obtain ⟨hfin', hu'⟩ := hf hfin
    exact ⟨hfin', hu'.trans hu, hrest⟩

theorem of_socketAct [TcpSocket σ] [LawfulTcpSocket σ] {s : σ} {t : Option σ}
    (h : c.Carries (TcpSocket.view s) data) (hact : SocketAct (some s) t) :
    ∃ s', t = some s' ∧ c.Carries (TcpSocket.view s') data := by
  cases hact with
  | keep => exact ⟨s, rfl, h⟩
  | abort =>
    refine ⟨_, rfl, h.view ?_ ?_⟩ <;> rw [LawfulTcpSocket.view_abort]
    exact fun _ => ⟨rfl, rfl⟩
  | close =>
    refine ⟨_, rfl, h.view ?_ ?_⟩ <;> rw [LawfulTcpSocket.view_close]
    refine fun hf => ⟨?_, rfl⟩
    revert hf
    dsimp only
    cases (TcpSocket.view s).state <;> decide
  | send bytes =>
    refine ⟨_, rfl, h.view ?_ ?_⟩ <;> rw [LawfulTcpSocket.view_sendSlice]
    · rfl
    · exact fun hf => ⟨hf, rfl⟩

/-- All that has been taken goes out when the queue is written. -/
theorem relayed_prefix (h : c.Carries v data) : c.relayed <+: v.taken := by
  obtain ⟨sent, again, hr, ⟨rest, ht⟩, -, hall⟩ := h.staged
  refine ⟨rest ++ c.kind.classify.held ++ data, ?_⟩
  rw [← hall, hr, ← ht]
  simp only [List.append_assoc]

theorem relayed_of_shut (h : c.Carries v data) (hs : c.writeShut = true) :
    c.relayed = v.received := by
  obtain ⟨-, hu, hq, hheld, hd⟩ := h.shut hs
  obtain ⟨sent, again, hr, hagain, -, hall⟩ := h.staged
  rw [hq] at hagain
  have hnil : again = [] := List.prefix_nil.mp hagain
  unfold SocketView.received
  rw [hu, ← hall, hr, hnil, hq, hheld, hd]
  simp only [List.append_nil]

/-- A handshake writes nothing of the app's. -/
theorem handshake (h : c.Carries v data) (hh : c.handshaking = true) (going failed : Bool) :
    ({ c with handshaking := going, writeFailed := failed } : UpCore).Carries v data where
  staged := by
    obtain ⟨sent, again, hr, hagain, -, hall⟩ := h.staged
    have hnil := List.append_eq_nil_iff.mp (hr.symm.trans (h.early (Or.inr hh)))
    exact ⟨sent, again, hr, hagain, fun _ => hnil.2, hall⟩
  early _ := h.early (Or.inr hh)
  shut := h.shut

theorem connected (h : c.Carries v data) :
    ({ c with connecting := false } : UpCore).Carries v data where
  staged := h.staged
  early hc := h.early (Or.inr (hc.resolve_left (by simp)))
  shut := h.shut

/-- Bytes move from what is held and what was taken to the end of the queue. -/
theorem enqueue (h : c.Carries v data) (kind : FlowKind) (hk : kind.classify = .settled)
    (raw : Bytes) :
    ({ c with
      kind := kind
      toUpstream := c.toUpstream ++ (c.kind.classify.held ++ data)
      raw := raw } : UpCore).Carries v [] where
  staged := by
    obtain ⟨sent, again, hr, hagain, hok, hall⟩ := h.staged
    refine ⟨sent, again, hr, hagain.trans (List.prefix_append _ _), hok, ?_⟩
    rw [← hall, hk]
    simp [Classify.held]
  early := h.early
  shut hs := by
    obtain ⟨hfin, hu, hq, hheld, hd⟩ := h.shut hs
    refine ⟨hfin, hu, ?_, ?_, rfl⟩
    · rw [hq, hheld, hd]
      rfl
    · rw [hk]
      rfl

theorem take (h : c.Carries v []) : c.Carries v.drain v.unread where
  staged := by
    obtain ⟨sent, again, hr, hagain, hok, hall⟩ := h.staged
    refine ⟨sent, again, hr, hagain, hok, ?_⟩
    change _ = v.taken ++ v.unread
    rw [← hall, List.append_nil]
  early := h.early
  shut hs := by
    obtain ⟨hfin, hu, hq, hheld, -⟩ := h.shut hs
    exact ⟨hfin, rfl, hq, hheld, hu⟩

theorem buffer {up : TcpUpstream μ} [Splice μ] (h : up.core.Carries v data) {buf : Bytes}
    (hbuf : up.classify = .pendingSni buf) :
    ({ up with classify := .pendingSni (buf ++ data) } : TcpUpstream μ).core.Carries v [] where
  staged := by
    obtain ⟨sent, again, hr, hagain, hok, hall⟩ := h.staged
    refine ⟨sent, again, hr, hagain, hok, ?_⟩
    rw [← hall]
    change _ ++ (buf ++ data) ++ [] = _ ++ up.classify.held ++ data
    rw [hbuf]
    simp [Classify.held, TcpUpstream.core]
  early := h.early
  shut hs := by
    obtain ⟨hfin, hu, hq, hheld, hd⟩ := h.shut hs
    change up.classify.held = [] at hheld
    rw [hbuf] at hheld
    refine ⟨hfin, hu, hq, ?_, rfl⟩
    change buf ++ data = []
    rw [show buf = [] from hheld, hd]
    rfl

/-- The write side is closed when the app has finished and nothing is left to write. -/
theorem closeWrite [TcpSocket σ] [Splice μ] {s : σ} {up : TcpUpstream μ} {x : Flow σ μ}
    (h : up.core.Carries (TcpSocket.view s) data) (hs : x.socket = some s)
    (hfin : x.appFinished = true) (hq : up.toUpstream = []) (hsettled : up.classify = .settled)
    (hd : data = []) : up.closeWrite.core.Carries (TcpSocket.view s) data := by
  unfold TcpUpstream.closeWrite
  split_ifs
  · exact h
  · refine ⟨h.staged, h.early, fun _ => ?_⟩
    unfold Flow.appFinished at hfin
    rw [hs] at hfin
    obtain ⟨hp, hu⟩ := Bool.and_eq_true_iff.mp hfin
    refine ⟨hp, List.isEmpty_iff.mp hu, hq, ?_, hd⟩
    change up.classify.held = []
    rw [hsettled]
    rfl

end UpCore.Carries

end Carrying

namespace Micro

variable [TcpSocket σ] [Splice μ]

/-- A flow that is neither spliced nor rewritten carries the bytes of its app. -/
def CarriesApp (m : Micro σ μ) : Prop :=
  ∀ up, m.flow.up = some up → IsRaw up.core →
    ∃ socket, m.flow.socket = some socket ∧ up.core.Carries (TcpSocket.view socket) m.data

variable {m m' : Micro σ μ}

theorem CarriesApp.setUp (h : m.CarriesApp) {up up' : TcpUpstream μ} (hup : m.flow.up = some up)
    (hraw : IsRaw up'.core → IsRaw up.core)
    (hc : ∀ v, up.core.Carries v m.data → up'.core.Carries v m.data) :
    (m.setUp up').CarriesApp := by
  intro u hu hr
  obtain rfl := Option.some.inj hu
  obtain ⟨socket, hs, hcar⟩ := h up hup (hraw hr)
  exact ⟨socket, hs, hc _ hcar⟩

theorem not_isRaw_of_mitm {up : TcpUpstream μ} (h : up.mitm.isSome = true) : ¬ IsRaw up.core := by
  intro hr
  have hdns : up.mitm.map Splice.isDns = none := hr.1
  rw [Option.map_eq_none_iff.mp hdns] at h
  cases h

variable [LawfulTcpSocket σ]

theorem CarriesApp.flush (h : m.CarriesApp) :
    ({ m with flow := m.flow.flushToUpstream } : Micro σ μ).CarriesApp := by
  obtain ⟨shared, ⟨socket, up, calls⟩, data⟩ := m
  cases up with
  | none => exact h
  | some up =>
    unfold Flow.flushToUpstream
    dsimp only
    by_cases hskip : (up.connecting || up.handshake.isSome || up.toUpstream.isEmpty) = true
    · rw [if_pos hskip]
      exact h
    · rw [if_neg hskip]
      simp only [Bool.or_eq_true, not_or, Bool.not_eq_true] at hskip
      obtain ⟨⟨hconn, hhs⟩, hempty⟩ := hskip
      have hq : up.toUpstream ≠ [] := by simpa using hempty
      have hearly : ¬ (up.connecting = true ∨ up.handshake.isSome = true) := by simp [hconn, hhs]
      have hshut {v : SocketView} (hcar : up.core.Carries v data) (hs : up.io.writeShut = true) :
          False := hq (hcar.shut hs).2.2.1
      have hside : (up.io.send up.toUpstream).2.writeShut = up.io.writeShut := by
        obtain ⟨writes, failed, hio⟩ := up.io.send_frame up.toUpstream
        rw [hio]
      cases hw : up.io.writeFailed with
      | true =>
        obtain ⟨hcount, hsame⟩ := @UpstreamIo.send_of_writeFailed _ up.toUpstream hw
        have hfailed : (up.io.send up.toUpstream).1.failed = true := by
          simp [UpstreamIo.send, hw, hq]
        rw [if_pos hfailed]
        intro u hu hr
        obtain rfl := Option.some.inj hu
        obtain ⟨s, hsock, hcar⟩ := h up rfl hr
        obtain rfl : socket = some s := hsock
        obtain ⟨s', hs', hcar'⟩ := hcar.of_socketAct (.abort (some s))
        refine ⟨s', hs', ?_⟩
        rw [hcount, hsame]
        simpa using hcar'
      | false =>
        have hwf := @UpstreamIo.send_writeFailed _ up.toUpstream hw
        split_ifs with hfailed
        · intro u hu hr
          obtain rfl := Option.some.inj hu
          obtain ⟨s, hsock, hcar⟩ := h up rfl hr
          obtain rfl : socket = some s := hsock
          obtain ⟨s', hs', hcar'⟩ := hcar.of_socketAct (.abort (some s))
          refine ⟨s', hs', ⟨?_, fun hc => absurd hc hearly, fun hs => ?_⟩⟩
          · obtain ⟨sent, again, hrel, -, hok, hall⟩ := hcar'.staged
            refine ⟨sent, up.toUpstream.take (up.io.send up.toUpstream).1.count, ?_,
              List.take_prefix _ _, fun hno => ?_, hall⟩
            · change up.relayed ++ _ = _
              rw [show up.relayed = sent ++ again from hrel, hok hw, List.append_nil]
            · change (up.io.send up.toUpstream).2.writeFailed = false at hno
              rw [hwf, hfailed] at hno
              cases hno
          · exact absurd (hside.symm.trans hs) fun hs => hshut hcar hs
        · intro u hu hr
          obtain rfl := Option.some.inj hu
          obtain ⟨s, hsock, hcar⟩ := h up rfl hr
          refine ⟨s, hsock, ⟨?_, fun hc => absurd hc hearly, fun hs => ?_⟩⟩
          · obtain ⟨sent, again, hrel, -, hok, hall⟩ := hcar.staged
            refine ⟨up.relayed ++ up.toUpstream.take (up.io.send up.toUpstream).1.count, [],
              (List.append_nil _).symm, List.nil_prefix, fun _ => rfl, ?_⟩
            change up.relayed ++ _ ++ up.toUpstream.drop _ ++ up.classify.held ++ data = _
            rw [List.append_assoc up.relayed, List.take_append_drop, ← hall,
              show up.relayed = sent ++ again from hrel, hok hw, List.append_nil]
            rfl
          · exact absurd (hside.symm.trans hs) fun hs => hshut hcar hs

theorem CarriesApp.move (h : m.CarriesApp) (hmove : Move m m') : m'.CarriesApp := by
  cases hmove with
  | note batcher pinned forward80 => exact h
  | call s calls hs =>
    intro up hup hr
    obtain ⟨socket, hsock, hcar⟩ := h up hup hr
    rw [hsock] at hs
    exact hcar.of_socketAct hs
  | teardown =>
    intro up hup
    unfold Flow.teardownTcp at hup
    cases hnone : m.flow.up with
    | none =>
      rw [hnone] at hup
      dsimp only at hup
      rw [hnone] at hup
      cases hup
    | some u =>
      rw [hnone] at hup
      cases hup
  | edit up up' hup hc =>
    refine h.setUp hup ?_ ?_
    · rw [hc]
      exact id
    · intro v hcar
      rwa [hc]
  | handshake up up' going failed hup hh hc =>
    refine h.setUp hup ?_ ?_
    · rw [hc]
      exact id
    · intro v hcar
      rw [hc]
      exact hcar.handshake hh going failed
  | connected up up' hup hc =>
    refine h.setUp hup ?_ ?_
    · rw [hc]
      exact id
    · intro v hcar
      rw [hc]
      exact hcar.connected
  | flush => exact h.flush
  | closeWrite up hup hclosed =>
    intro u hu hr
    obtain rfl := Option.some.inj hu
    have hr : IsRaw up.core := by
      unfold IsRaw TcpUpstream.core at hr ⊢
      rwa [TcpUpstream.kind_closeWrite] at hr
    obtain ⟨socket, hsock, hcar⟩ := h up hup hr
    rcases hclosed with hm | ⟨hfin, hq, hsettled, hd⟩
    · exact absurd hr (not_isRaw_of_mitm hm)
    · exact ⟨socket, hsock, hcar.closeWrite hsock hfin hq hsettled hd⟩
  | spliceOut up up' out hup hm hc =>
    intro u hu hr
    obtain rfl := Option.some.inj hu
    rw [hc] at hr
    exact absurd hr (not_isRaw_of_mitm hm)

theorem CarriesApp.act (h : m.CarriesApp) (hact : Act m m') : m'.CarriesApp := by
  cases hact with
  | move _ hmove => exact h.move hmove
  | take hopen hdata =>
    intro up hup hr
    obtain ⟨socket, hsock, hcar⟩ := h up hup hr
    obtain ⟨socket', hsock', hview⟩ := tcpTakeAppData_snd socket
    refine ⟨socket', by rw [hsock]; exact hsock', ?_⟩
    rw [hsock, tcpTakeAppData_fst, hview]
    rw [hdata] at hcar
    exact hcar.take
  | discard hno =>
    intro up hup hr
    exact absurd hr (hno up hup)
  | buffer up buf hup hbuf hpeek =>
    intro u hu hr
    obtain rfl := Option.some.inj hu
    obtain ⟨socket, hsock, hcar⟩ := h up hup hr
    exact ⟨socket, hsock, hcar.buffer hbuf⟩
  | settleRaw up up' buf sni hup hbuf hpeek hclass hc =>
    intro u hu hr
    obtain rfl := Option.some.inj hu
    rw [hc] at hr ⊢
    obtain ⟨socket, hsock, hcar⟩ := h up hup hr
    have hheld : up.core.kind.classify.held = buf := by
      change up.classify.held = buf
      rw [hbuf]
      rfl
    refine ⟨socket, hsock, ?_⟩
    rw [← hheld]
    exact hcar.enqueue _ rfl _
  | settleSplice up up' splice buf sni hup hbuf hpeek hclass hc =>
    intro u hu hr
    obtain rfl := Option.some.inj hu
    rw [hc] at hr
    exact absurd hr.1 (by simp)
  | rewrite up up' out hup hf hc =>
    intro u hu hr
    obtain rfl := Option.some.inj hu
    rw [hc] at hr
    have hno : up.httpForward.isSome = false := hr.2
    rw [hno] at hf
    cases hf
  | queueRaw up hup hraw hsettled =>
    intro u hu hr
    obtain rfl := Option.some.inj hu
    obtain ⟨socket, hsock, hcar⟩ := h up hup hraw
    have hheld : up.core.kind.classify.held ++ m.data = m.data := by
      change up.classify.held ++ m.data = m.data
      rw [hsettled]
      rfl
    refine ⟨socket, hsock, ?_⟩
    have hput := hcar.enqueue up.kind hsettled (up.raw ++ m.data)
    rwa [hheld] at hput

theorem CarriesApp.acts (h : m.CarriesApp) (hacts : Acts m m') : m'.CarriesApp := by
  induction hacts with
  | refl => exact h
  | tail _ hact ih => exact ih.act hact

end Micro

namespace Forwarder

variable [TcpSocket σ] [Splice μ] [LawfulTcpSocket σ] {P : Egress → Prop} {C : Causes}
  {s s' : Forwarder σ μ}

theorem Act.carriesApp (hact : Act P C s s')
    (h : ∀ id, Micro.CarriesApp ⟨s.shared, s.flow id, []⟩) (id : FlowId) :
    Micro.CarriesApp ⟨s'.shared, s'.flow id, []⟩ := by
  have hset (shared : Shared μ) (id' : FlowId) (x : Flow σ μ)
      (hx : Micro.CarriesApp ⟨shared, x, []⟩) :
      Micro.CarriesApp ⟨shared, (s.setFlow id' x).flow id, []⟩ := by
    rw [flow_setFlow]
    split_ifs
    · exact hx
    · exact h id
  cases hact with
  | same _ hs _ =>
    have hsame : s'.flow id = s.flow id := by
      unfold Forwarder.flow
      rw [hs.flows]
    rw [hsame]
    exact h id
  | flow id' h' x hacts => exact hset h' id' x ((h id').acts hacts)
  | world id' x hworld =>
    refine hset s.shared id' x ?_
    cases hworld with
    | poll p =>
      intro up hup hr
      obtain ⟨socket, hsock, hcar⟩ := h id' up hup hr
      have hev := LawfulTcpSocket.evolves (p.polled socket)
      exact ⟨p.run socket, by rw [hsock]; rfl, hcar.view hev.taken hev.finished⟩
    | hear news =>
      intro up hup hr
      obtain ⟨up', hup', rfl⟩ := Option.map_eq_some_iff.mp hup
      exact h id' up' hup' hr
    | deliver readable =>
      intro up hup hr
      obtain ⟨up', hup', rfl⟩ := Option.map_eq_some_iff.mp hup
      exact h id' up' hup' hr
  | listen tuple socket _ _ => exact hset s.shared _ ⟨some socket, none, []⟩ fun up hup => by cases hup
  | openUp id' server uid tls socket _ hflow hlisten _ =>
    refine hset s.shared id' _ fun up hup _ => ?_
    obtain rfl := Option.some.inj hup
    refine ⟨socket, by rw [hflow], ?_⟩
    rw [LawfulTcpSocket.view_listen hlisten]
    refine ⟨⟨[], [], rfl, List.nil_prefix, fun _ => rfl, ?_⟩, fun _ => rfl, fun hs => by cases hs⟩
    have hheld := s.shared.held_openUpstream server uid (.dialed tls) s.nextToken
    exact (List.append_nil _).trans hheld
  | remove id' hup _ =>
    unfold removeFlow
    split
    · exact h id
    · exact hset s.shared id' _ fun up hu => by cases hup.symm.trans hu
  | _ => exact h id

variable [LawfulSplice μ] {w : Wire} {config : Config μ}

/-- Whatever a flow's socket toward the server accepts, it relays the bytes of its app in order,
and closes the write side behind the last of them. -/
theorem app_relay_lossless (h : (automaton w config).Reachable s) {id : FlowId}
    {up : TcpUpstream μ} (hup : (s.flow id).up = some up) (hsplice : up.mitm = none)
    (hforward : up.httpForward = none) :
    ∃ socket, (s.flow id).socket = some socket ∧ up.RelaysApp (TcpSocket.view socket) := by
  have hall := invariant_of_acts
    (I := fun s : Forwarder σ μ => ∀ id, Micro.CarriesApp ⟨s.shared, s.flow id, []⟩)
    (fun _ _ hup => by cases hup) (fun _ _ hact hs => hact.carriesApp hs) h
  obtain ⟨socket, hsock, hcar⟩ := hall id up hup ⟨by
    change up.mitm.map Splice.isDns = none
    rw [hsplice]
    rfl, by
    change up.httpForward.isSome = false
    rw [hforward]
    rfl⟩
  refine ⟨socket, hsock, ⟨?_, fun hw => ?_, hcar.early, fun hs => ?_⟩⟩
  · exact hcar.relayed_prefix.trans (List.prefix_append _ _)
  · obtain ⟨sent, again, hr, -, hok, hrest⟩ := hcar.staged
    rw [hok hw, List.append_nil] at hr
    rw [← hrest, List.append_nil, ← hr]
    rfl
  · exact ⟨(hcar.shut hs).1, hcar.relayed_of_shut hs⟩

end Forwarder

/-- A SYN from port 40000 of the tunnel address to 9.9.9.9. -/
def synPacket (port : UInt16) : Bytes :=
  let ports : Bytes := [0x9C, 0x40, (port >>> 8).toUInt8, port.toUInt8]
  [0x45, 0, 0, 40, 0, 0, 0, 0, 64, 6, 0, 0, 10, 111, 222, 2, 9, 9, 9, 9] ++ ports ++
    [0, 0, 0, 0, 0, 0, 0, 0, 0x50, 0x02, 0xFF, 0xFF, 0, 0, 0, 0]

namespace Forwarder

/-- A flow to port 80 is opened, and its upstream connects. -/
def connects : List (Input PlainSocket PlainSplice) :=
  [.answers [.opened] true, .packet (synPacket 80) 10, .ready 16 ⟨false, true, false, false⟩]

/-- The app sends three bytes and its FIN; the upstream takes two of them, and later the rest. -/
def sendsThree : List (Input PlainSocket PlainSplice) :=
  [.arrive 16 ⟨⟨[], false, false, false, [.accepted 2], []⟩, []⟩,
    .service (fun _ => .arrives [1, 2, 3] true false) [1] [],
    .arrive 16 ⟨⟨[], false, false, false, [.wouldBlock, .accepted 5], []⟩, []⟩,
    .service (fun _ => .still) [1] [], .service (fun _ => .still) [1] []]

theorem app_relay_lossless_three :
    ∃ (s : Forwarder PlainSocket PlainSplice) (up : TcpUpstream PlainSplice),
      (automaton .plain plainConfig).run (connects ++ sendsThree) = some s ∧
      (s.flow 1).up = some up ∧ up.relayed = [1, 2, 3] ∧ up.io.writeShut = true ∧
      ∃ socket, (s.flow 1).socket = some socket ∧ up.RelaysApp (TcpSocket.view socket) := by
  refine ⟨_, _, rfl, rfl, by decide +kernel, by decide +kernel, ?_⟩
  exact @app_relay_lossless PlainSocket PlainSplice _ _ _ _ _ .plain plainConfig
    ⟨connects ++ sendsThree, rfl⟩ _ _ rfl rfl rfl

end Forwarder

end Adwarden.Core
