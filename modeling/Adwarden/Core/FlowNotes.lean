import Adwarden.Core.EventCodec
import Adwarden.Core.FlowActs

/-! What the methods on a flow report, among settings that they only read. -/
namespace Adwarden.Core
open Adwarden.Net Adwarden.Tls

variable {σ μ : Type}

/-- What the live updates change of the fields that the flows share. -/
structure SharedSettings where
  engine : Option FilterEngine
  encryptedDnsMode : EncryptedDnsMode
  rules : Rules
  transport : UInt8
  logOpen : Bool
  cosmeticElementHiding : Bool
  cosmeticScriptlets : Bool

def Shared.settings (h : Shared μ) : SharedSettings where
  engine := h.engine
  encryptedDnsMode := h.encryptedDnsMode
  rules := h.firewall.rules
  transport := h.firewall.transport
  logOpen := h.firewall.logOpen
  cosmeticElementHiding := h.cosmeticElementHiding
  cosmeticScriptlets := h.cosmeticScriptlets

/-- An event of a TCP flow that stands for no packet. -/
structure Event.IsReport (e : Event) : Prop where
  plain : e.kind ≠ kindCoarse
  proto : e.proto = protoCode .tcp
  length : e.length = 0

theorem Event.isReport_ofServer (server : SocketAddr) {kind : UInt8} (verdict : UInt8) (uid : ℤ)
    (domain : Option Str) (h : kind ≠ kindCoarse) :
    (ofServer server kind verdict uid domain).IsReport :=
  ⟨h, rfl, rfl⟩

theorem Event.isReport_blockedFlow (server : SocketAddr) (uid : ℤ) :
    ((blockedFlow server).withUid uid).IsReport :=
  isReport_ofServer server verdictBlock uid none (show kindFlow ≠ kindCoarse by decide)

theorem Event.isReport_flowTo (server : SocketAddr) (uid : ℤ) (host : Str) :
    (((flowTo server).withUid uid).withDomain (some host)).IsReport :=
  isReport_ofServer server verdictAllow uid (some host) (show kindFlow ≠ kindCoarse by decide)

namespace Shared

/-- The settings stay, and what is pushed are reports. -/
structure Reports (h h' : Shared μ) : Prop where
  settings : h'.settings = h.settings
  events : ∃ es, h'.batcher = h.batcher ++ es ∧ ∀ e ∈ es, e.IsReport

namespace Reports

theorem refl (h : Shared μ) : h.Reports h := ⟨rfl, [], (List.append_nil _).symm, by simp⟩

theorem trans {a b c : Shared μ} (hab : a.Reports b) (hbc : b.Reports c) : a.Reports c := by
  obtain ⟨es, hes, hre⟩ := hab.events
  obtain ⟨fs, hfs, hrf⟩ := hbc.events
  refine ⟨hbc.settings.trans hab.settings, es ++ fs, ?_, ?_⟩
  · rw [hfs, hes, List.append_assoc]
  · intro e he
    rcases List.mem_append.mp he with he | he
    · exact hre e he
    · exact hrf e he

/-- Neither the settings nor the events are touched. -/
theorem of_eq {h h' : Shared μ} (hs : h'.settings = h.settings) (hb : h'.batcher = h.batcher) :
    h.Reports h' :=
  ⟨hs, [], by rw [hb, List.append_nil], by simp⟩

theorem push (h : Shared μ) {es : List Event} (hes : ∀ e ∈ es, e.IsReport) :
    h.Reports (h.push es) :=
  ⟨rfl, es, rfl, hes⟩

theorem push_one (h : Shared μ) {e : Event} (he : e.IsReport) : h.Reports (h.push [e]) := by
  apply push
  intro e' hmem
  rwa [List.mem_singleton.mp hmem]

end Reports

end Shared

namespace Flow
open Shared

theorem reports_teardownTcp (h : Shared μ) (x : Flow σ μ) : h.Reports (teardownTcp h x).1 := by
  unfold teardownTcp
  cases x.up with
  | none => exact .refl h
  | some up => exact .of_eq rfl rfl

section Methods

variable [TcpSocket σ] [Splice μ]

omit [Splice μ] in
theorem reports_failProxy (h : Shared μ) (x : Flow σ μ) : h.Reports (failProxy h x).1 := by
  unfold failProxy
  extract_lets es
  refine .trans (.push h ?_) (reports_teardownTcp _ _)
  intro e he
  cases hup : x.up with
  | none => simp [es, hup] at he
  | some up =>
    obtain rfl : e = (Event.blockedFlow up.server).withUid up.uid := by simpa [es, hup] using he
    exact Event.isReport_blockedFlow up.server up.uid

theorem reports_handshakeLoop (eof : Bool) (n : ℕ) (input : Bytes) (h : Shared μ)
    (x : Flow σ μ) : h.Reports (handshakeLoop eof n input h x).1 := by
  induction n generalizing input h x with
  | zero => exact .refl h
  | succ n ih =>
    unfold handshakeLoop
    cases x.up with
    | none => exact .refl h
    | some up =>
      dsimp only
      cases up.handshake with
      | none => exact .refl h
      | some hs =>
        dsimp only
        rcases hs.step input with ⟨r, hs'⟩
        cases r with
        | error e =>
          have hset (forward : Bool) : h.Reports { h with httpForward80 := forward } :=
            .of_eq rfl rfl
          exact (hset _).trans (reports_failProxy _ _)
        | ok out =>
          cases out with
          | write bytes =>
            dsimp only
            split_ifs
            · exact reports_failProxy _ _
            · exact .refl h
            · exact ih _ _ _
          | read =>
            dsimp only
            split_ifs
            · exact reports_failProxy _ _
            · exact .refl h
          | done leftover => exact .refl h

theorem reports_driveProxyHandshake (h : Shared μ) (x : Flow σ μ) :
    h.Reports (driveProxyHandshake h x).1 := by
  unfold driveProxyHandshake
  cases x.up with
  | none => exact reports_failProxy h x
  | some up =>
    dsimp only
    generalize (if up.io.handshaking then up.io.pumpTls else (true, up.io)) = tls
    split_ifs
    · exact reports_failProxy h _
    · exact .refl h
    · exact reports_failProxy h _
    · exact .refl h
    · split
      · exact reports_failProxy h _
      · exact reports_handshakeLoop true 5 _ h _
      · exact reports_handshakeLoop false 5 _ h _

omit [TcpSocket σ] in
theorem reports_notePinIfRejected (h : Shared μ) (x : Flow σ μ) :
    h.Reports (notePinIfRejected h x).1 := by
  unfold notePinIfRejected
  cases x.up with
  | none => exact .refl h
  | some up =>
    dsimp only
    cases up.mitm with
    | none => exact .refl h
    | some m =>
      dsimp only
      split
      · exact .refl h
      · have hpinned (pinned : List (ℤ × IpAddr)) :
            h.Reports { h with pinned := pinned } := .of_eq rfl rfl
        refine (hpinned _).trans (.push_one _ ?_)
        exact Event.isReport_ofServer up.server verdictAllow up.uid _
          (show kindTlsPinned ≠ kindCoarse by decide)

theorem reports_pumpMitm (h : Shared μ) (up : TcpUpstream μ) (m : μ) :
    h.Reports (pumpMitm h up m).1 := by
  unfold pumpMitm
  split
  · apply Reports.push
    intro e he
    obtain ⟨domain, -, rfl⟩ := List.mem_map.mp he
    exact Event.isReport_ofServer up.server verdictBlock up.uid (some domain)
      (show kindDnsBlock ≠ kindCoarse by decide)
  · exact .refl h

theorem reports_driveMitm (h : Shared μ) (x : Flow σ μ) : h.Reports (driveMitm h x).1 := by
  unfold driveMitm
  cases x.up with
  | none => exact .refl h
  | some up =>
    dsimp only
    cases up.mitm with
    | none => exact .refl h
    | some m =>
      have hpump := reports_pumpMitm h up m
      dsimp only
      split
      · exact hpump.trans (reports_notePinIfRejected _ _)
      · exact hpump

theorem reports_settle (h : Shared μ) (x : Flow σ μ) (up : TcpUpstream μ) (sni : Option Str)
    (buffered : Bytes) : h.Reports (settle h x up sni buffered).1 := by
  unfold settle
  extract_lets logged marked
  have hlogged : h.Reports logged := by
    by_cases hlog : h.firewall.logOpen = true
    · rw [show logged = _ from if_pos hlog]
      apply Reports.push
      intro e he
      obtain ⟨host, -, rfl⟩ := List.mem_map.mp he
      exact Event.isReport_flowTo up.server up.uid host
    · rw [show logged = h from if_neg hlog]
      exact .refl h
  cases h.classification up.uid up.server sni with
  | doh m => exact reports_driveMitm h _
  | blocked =>
    refine .trans (.push_one h ?_) (reports_teardownTcp _ _)
    exact Event.isReport_blockedFlow up.server up.uid
  | cosmetic m => exact hlogged.trans (reports_driveMitm logged _)
  | raw => exact hlogged

theorem reports_classifyPending (h : Shared μ) (x : Flow σ μ) (data : Bytes) :
    h.Reports (classifyPending h x data).1 := by
  unfold classifyPending
  cases x.up with
  | none => exact .refl h
  | some up =>
    dsimp only
    cases up.classify with
    | settled => exact .refl h
    | pendingSni buf =>
      dsimp only
      cases peekPending (buf ++ data) with
      | none => exact .refl h
      | some sni => exact reports_settle h x _ sni _

omit [TcpSocket σ] [Splice μ] in
theorem reports_observeSni (h : Shared μ) (x : Flow σ μ) (data : Bytes) :
    h.Reports (observeSni h x data).1 := by
  unfold observeSni
  cases x.up with
  | none => exact .refl h
  | some up =>
    dsimp only
    split
    · exact .refl h
    · split
      · next host _ =>
        apply Reports.push_one
        exact Event.isReport_flowTo up.server up.uid host
      · exact .refl h

theorem reports_relayAppData (h : Shared μ) (x : Flow σ μ) (data : Bytes) :
    h.Reports (relayAppData h x data).2.1 := by
  unfold relayAppData
  cases x.up with
  | none => exact .refl h
  | some up =>
    dsimp only
    cases up.mitm with
    | some m => exact reports_driveMitm h _
    | none =>
      dsimp only
      by_cases hd : data = []
      · rw [if_pos hd]
        exact .refl h
      · rw [if_neg hd]
        cases up.httpForward with
        | some hf =>
          dsimp only
          rcases hf.push data with ⟨r, hf'⟩
          cases r with
          | ok bytes => exact .refl h
          | error e => exact reports_failProxy h _
        | none =>
          split_ifs
          · exact reports_observeSni h x data
          · exact .refl h

theorem reports_relayTaken (h : Shared μ) (x : Flow σ μ) (data : Bytes) :
    h.Reports (relayTaken h x data).1 := by
  unfold relayTaken
  split
  · exact reports_classifyPending h x data
  · have hrelay := reports_relayAppData h x data
    dsimp only
    split
    · exact hrelay
    · exact hrelay

theorem reports_servicePass (h : Shared μ) (x : Flow σ μ) : h.Reports (servicePass h x).1 := by
  unfold servicePass
  cases x.up with
  | none => exact reports_relayTaken h _ _
  | some up =>
    dsimp only
    split_ifs
    · exact .refl h
    · exact reports_driveProxyHandshake h x
    · exact reports_relayTaken h _ _

theorem reports_readUpstream (h : Shared μ) (x : Flow σ μ) (isMitm : Bool) :
    h.Reports (readUpstream h x isMitm).1 := by
  cases isMitm with
  | true => exact reports_driveMitm h _
  | false => exact .refl h

theorem reports_onReadyRelay (h : Shared μ) (x : Flow σ μ) (event : Readiness) :
    h.Reports (onReadyRelay h x event).1 := by
  unfold onReadyRelay
  extract_lets y isMitm r
  have hread : h.Reports r.1 := by
    by_cases hr : event.readable = true
    · rw [show r = readUpstream h y isMitm from if_pos hr]
      exact reports_readUpstream h y isMitm
    · rw [show r = (h, y) from if_neg hr]
      exact .refl h
  split_ifs
  · exact hread.trans (reports_readUpstream _ _ isMitm)
  · exact hread

theorem reports_onReady (h : Shared μ) (x : Flow σ μ) (event : Readiness) :
    h.Reports (onReady h x event).1 := by
  unfold onReady
  cases x.up with
  | none => exact reports_onReadyRelay h x event
  | some up =>
    cases hconn : (event.writable && up.connecting) with
    | true =>
      simp only [hconn, if_true, Bool.true_and]
      split_ifs
      · exact .refl h
      · exact reports_driveProxyHandshake h _
      · exact reports_onReadyRelay h _ event
    | false =>
      simp only [hconn, Bool.false_eq_true, if_false, Bool.false_and]
      split_ifs
      · exact reports_driveProxyHandshake h _
      · exact reports_onReadyRelay h _ event

end Methods

end Flow

end Adwarden.Core
