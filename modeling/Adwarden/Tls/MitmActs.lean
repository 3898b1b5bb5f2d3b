import Adwarden.Tls.Mitm

/-! The elementary acts of a splice. Each of its operations is made of them; what they keep, every
operation keeps. -/
namespace Adwarden.Tls
open Adwarden.Lib

variable {σ κ : Type} {H : Hpack} [ServerSession σ] [TlsSession κ]

section Sessions

theorem SameHandshake.refl (s : σ) : SameHandshake s s := ⟨rfl, rfl⟩

theorem SameHandshake.trans {s s₁ s₂ : σ} (h : SameHandshake s s₁) (h' : SameHandshake s₁ s₂) :
    SameHandshake s s₂ :=
  ⟨h'.isHandshaking.trans h.isHandshaking, h'.serverName.trans h.serverName⟩

variable [LawfulServer σ]

theorem intake_sameHandshake (s : σ) (data : Bytes) : SameHandshake s (intake s data).session := by
  refine intakeLoop.run_induction (P := fun i i' => SameHandshake i.session i'.session)
    { session := s, data } ?_ ?_
  · intro i i' h
    simp only [intakeLoop] at h
    split_ifs at h
    · obtain rfl := Turn.leave.inj h
      exact .refl _
    · split at h
      · next n s' hr =>
        split_ifs at h
        obtain rfl := Turn.leave.inj h
        exact LawfulServer.readTls_ok _ _ _ _ hr
      · next s' hr =>
        obtain rfl := Turn.leave.inj h
        exact LawfulServer.readTls_error _ _ _ hr
  · intro i i' h ih
    simp only [intakeLoop] at h
    split_ifs at h
    split at h
    · next n s' hr =>
      split_ifs at h
      obtain rfl := Turn.goOn.inj h
      exact (LawfulServer.readTls_ok _ _ _ _ hr).trans ih
    · cases h

theorem outflow_sameHandshake (s : σ) : SameHandshake s (outflow s).session := by
  refine outflowLoop.run_induction (P := fun o o' => SameHandshake o.session o'.session)
    { session := s } ?_ ?_
  · intro o o' h
    simp only [outflowLoop] at h
    split_ifs at h
    · split at h
      · cases h
      · next s' hw =>
        obtain rfl := Turn.leave.inj h
        have := LawfulServer.writeTls o.session
        rwa [hw] at this
    · obtain rfl := Turn.leave.inj h
      exact .refl _
  · intro o o' h ih
    simp only [outflowLoop] at h
    split_ifs at h
    split at h
    · next b s' hw =>
      obtain rfl := Turn.goOn.inj h
      have := LawfulServer.writeTls o.session
      rw [hw] at this
      exact this.trans ih
    · cases h

end Sessions

namespace TlsMitm

/-- One act, with what it does with plaintext. -/
inductive Act (p : Profile) (isBlocked : Str → Bool) :
    TlsMitm σ κ H → List MitmEvent → TlsMitm σ κ H → Prop
  | server {m : TlsMitm σ κ H} {s : σ} (h : SameHandshake m.server s) :
    Act p isBlocked m [] { m with server := s }
  | packets {m : TlsMitm σ κ H} (closed : Bool) (hf : m.failed = false) :
    Act p isBlocked m [] { m with
      server := (TlsSession.processNewPackets m.server).2, appClosed := m.appClosed || closed }
  | client {m : TlsMitm σ κ H} {c c' : κ} (closed : Bool) (hc : m.client = some c) :
    Act p isBlocked m [] { m with
      client := some c', upstreamClosed := m.upstreamClosed || closed }
  | fail {m : TlsMitm σ κ H} (side : FailSide) : Act p isBlocked m [] (m.markFailed side)
  | opened {m : TlsMitm σ κ H} {name : Str} {c : κ} (hf : m.failed = false) (hc : m.client = none)
      (hn : ServerSession.serverName m.server = some name)
      (hconnect : m.clientConfig.connect name = some c) :
    Act p isBlocked m [] { m with
      host := some name, plaintext := m.plaintext.setHost name, client := some c }
  | refused {m : TlsMitm σ κ H} {name : Str} (hf : m.failed = false) (hc : m.client = none)
      (hn : ServerSession.serverName m.server = some name) :
    Act p isBlocked m [] ({ m with
      host := some name, plaintext := m.plaintext.setHost name }.markFailed .other)
  | request {m : TlsMitm σ κ H} {h : Http} {c : κ} {raw : Bytes} {s : σ} {x : MitmEvent}
      {l : Link σ κ Http} (hc : m.client = some c) (hp : m.plaintext = .http h)
      (hread : TlsSession.read m.server bufSize = some (raw, s))
      (hx : httpRequest { server := s, client := c, layer := h } raw = .ok (x, l)) :
    Act p isBlocked m [x] { m with
      server := l.server, client := some l.client, plaintext := .http l.layer }
  | response {m : TlsMitm σ κ H} {h : Http} {c c' : κ} {raw : Bytes} {x : MitmEvent}
      {l : Link σ κ Http} (hc : m.client = some c) (hp : m.plaintext = .http h)
      (hread : TlsSession.read c bufSize = some (raw, c'))
      (hx : httpResponse p { server := m.server, client := c', layer := h } raw = .ok (x, l)) :
    Act p isBlocked m [x] { m with
      server := l.server, client := some l.client, plaintext := .http l.layer }
  | query {m : TlsMitm σ κ H} {d : DnsStream H} {c : κ} {raw : Bytes} {s : σ} {x : MitmEvent}
      {l : Link σ κ (DnsStream H)} (hc : m.client = some c) (hp : m.plaintext = .dns d)
      (hread : TlsSession.read m.server bufSize = some (raw, s))
      (hx : dnsQuery p isBlocked { server := s, client := c, layer := d } raw = .ok (x, l)) :
    Act p isBlocked m [x] { m with
      server := l.server, client := some l.client, plaintext := .dns l.layer }
  | answer {m : TlsMitm σ κ H} {d : DnsStream H} {c c' : κ} {raw : Bytes} {x : MitmEvent}
      {l : Link σ κ (DnsStream H)} (hc : m.client = some c) (hp : m.plaintext = .dns d)
      (hread : TlsSession.read c bufSize = some (raw, c'))
      (hx : dnsAnswer { server := m.server, client := c', layer := d } raw = .ok (x, l)) :
    Act p isBlocked m [x] { m with
      server := l.server, client := some l.client, plaintext := .dns l.layer }
  | finish {m : TlsMitm σ κ H} : Act p isBlocked m [.finished] m.finish

/-- Acts one after the other, with what they do with plaintext. -/
inductive Acts (p : Profile) (isBlocked : Str → Bool) :
    TlsMitm σ κ H → List MitmEvent → TlsMitm σ κ H → Prop
  | nil {m : TlsMitm σ κ H} : Acts p isBlocked m [] m
  | cons {m m₁ m₂ : TlsMitm σ κ H} {xs ys : List MitmEvent} (h : Act p isBlocked m xs m₁)
      (hs : Acts p isBlocked m₁ ys m₂) : Acts p isBlocked m (xs ++ ys) m₂

variable {p : Profile} {isBlocked : Str → Bool} {m m₁ m₂ : TlsMitm σ κ H} {xs ys : List MitmEvent}

theorem Act.acts (h : Act p isBlocked m xs m₁) : Acts p isBlocked m xs m₁ := by
  have := Acts.cons h .nil
  rwa [List.append_nil] at this

theorem Acts.trans (h : Acts p isBlocked m xs m₁) (h' : Acts p isBlocked m₁ ys m₂) :
    Acts p isBlocked m (xs ++ ys) m₂ := by
  induction h with
  | nil => exact h'
  | cons ha _ ih =>
    rw [List.append_assoc]
    exact .cons ha (ih h')

/-- What one act keeps, acts keep. -/
theorem Acts.invariant {P : List MitmEvent → TlsMitm σ κ H → Prop}
    (hact : ∀ {zs m xs m'}, P zs m → Act p isBlocked m xs m' → P (zs ++ xs) m')
    (h : Acts p isBlocked m xs m₁) {z : List MitmEvent} (hm : P z m) : P (z ++ xs) m₁ := by
  induction h generalizing z with
  | nil => rwa [List.append_nil]
  | cons ha _ ih =>
    rw [← List.append_assoc]
    exact ih (hact hm ha)

section Operations

variable (p isBlocked) in
theorem finish_acts (m : TlsMitm σ κ H) : Acts p isBlocked m [.finished] m.finish := Act.finish.acts

private theorem client_act (p : Profile) (isBlocked : Str → Bool) {m : TlsMitm σ κ H} {c : κ}
    (hc : m.client = some c) (c' : κ) : Acts p isBlocked m [] { m with client := some c' } := by
  have h : Act p isBlocked m [] { m with
    client := some c', upstreamClosed := m.upstreamClosed || false } := .client false hc
  simpa using h.acts

variable (p isBlocked) in
theorem recvFromUpstream_acts (m : TlsMitm σ κ H) (data : Bytes) :
    Acts p isBlocked m [] (m.recvFromUpstream data) := by
  unfold recvFromUpstream
  cases hc : m.client with
  | none => exact .nil
  | some c =>
    dsimp only
    split_ifs
    · exact (client_act p isBlocked hc _).trans (Act.fail .upstream).acts
    · exact client_act p isBlocked hc _

omit [TlsSession κ] in
@[simp] theorem markFailed_failed (m : TlsMitm σ κ H) (side : FailSide) :
    (m.markFailed side).failed = true := by
  unfold markFailed
  split_ifs with hf
  · exact hf
  · rfl

/-- A part of a pump is made of acts, without plaintext, and an error is a failed splice. -/
structure Sound (p : Profile) (isBlocked : Str → Bool) (m : TlsMitm σ κ H)
    (r : Except (TlsMitm σ κ H) (TlsMitm σ κ H)) : Prop where
  error : ∀ m', r = .error m' → Acts p isBlocked m [] m' ∧ m'.failed = true
  ok : ∀ m', r = .ok m' → Acts p isBlocked m [] m' ∧ m'.failed = false

theorem Sound.of_error {m' : TlsMitm σ κ H} (h : Acts p isBlocked m [] m')
    (hf : m'.failed = true) : Sound p isBlocked m (.error m') where
  error := by
    rintro _ ⟨⟩
    exact ⟨h, hf⟩
  ok := by
    rintro _ ⟨⟩

theorem Sound.of_ok {m' : TlsMitm σ κ H} (h : Acts p isBlocked m [] m')
    (hf : m'.failed = false) : Sound p isBlocked m (.ok m') where
  error := by
    rintro _ ⟨⟩
  ok := by
    rintro _ ⟨⟩
    exact ⟨h, hf⟩

theorem Sound.bind {r : Except (TlsMitm σ κ H) (TlsMitm σ κ H)}
    {f : TlsMitm σ κ H → Except (TlsMitm σ κ H) (TlsMitm σ κ H)} (h : Sound p isBlocked m r)
    (hf : ∀ m', m'.failed = false → Sound p isBlocked m' (f m')) :
    Sound p isBlocked m (r.bind f) := by
  cases r with
  | error m' =>
    obtain ⟨hacts, hfail⟩ := h.error m' rfl
    exact .of_error hacts hfail
  | ok m' =>
    obtain ⟨hacts, hok⟩ := h.ok m' rfl
    constructor
    · intro m'' he
      obtain ⟨hacts', hfail⟩ := (hf m' hok).error m'' he
      exact ⟨hacts.trans hacts', hfail⟩
    · intro m'' he
      obtain ⟨hacts', hok'⟩ := (hf m' hok).ok m'' he
      exact ⟨hacts.trans hacts', hok'⟩

private theorem processServer_sound (hf : m.failed = false) :
    Sound p isBlocked m m.processServer := by
  have hact : ∀ closed, Acts p isBlocked m [] { m with
      server := (TlsSession.processNewPackets m.server).2
      appClosed := m.appClosed || closed } := fun closed => (Act.packets closed hf).acts
  unfold processServer
  generalize TlsSession.processNewPackets m.server = r at hact ⊢
  obtain ⟨closed | closed, server⟩ := r
  · have hserver := (hact false).trans (Act.fail .app).acts
    simp only [Bool.or_false] at hserver
    exact .of_error hserver (markFailed_failed _ _)
  · exact .of_ok (hact closed) hf

private theorem openClient_sound (hf : m.failed = false) : Sound p isBlocked m m.openClient := by
  unfold openClient
  split
  · next name hc hn =>
    have hrefused : Sound p isBlocked m (.error ({ m with
        host := some name, plaintext := m.plaintext.setHost name }.markFailed .other)) :=
      .of_error (Act.refused hf hc hn).acts (markFailed_failed _ _)
    dsimp only
    split_ifs
    · split
      · next c hconnect => exact .of_ok (Act.opened hf hc hn hconnect).acts hf
      · exact hrefused
    · exact hrefused
  · exact .of_ok .nil hf

private theorem processClient_sound (hf : m.failed = false) :
    Sound p isBlocked m m.processClient := by
  unfold processClient
  cases hc : m.client with
  | none => exact .of_ok .nil hf
  | some c =>
    dsimp only
    generalize TlsSession.processNewPackets c = r
    obtain ⟨closed | closed, c'⟩ := r
    · have hclient := (client_act p isBlocked hc c').trans (Act.fail .upstream).acts
      exact .of_error hclient (markFailed_failed _ _)
    · exact .of_ok (Act.client closed hc).acts hf

variable (p isBlocked) in
theorem advance_sound (hf : m.failed = false) : Sound p isBlocked m m.advance :=
  ((processServer_sound hf).bind fun _ => openClient_sound).bind fun _ => processClient_sound

variable (p isBlocked) in
/-- A loop whose iterations are acts is made of acts. -/
private theorem readLoop_acts {α τ : Type} [TlsSession τ] {get : Link σ κ α → τ}
    {set : Link σ κ α → τ → Link σ κ α}
    {handle : Link σ κ α → Bytes → Except Panic (MitmEvent × Link σ κ α)} {hkeeps}
    (toMitm : Link σ κ α → TlsMitm σ κ H)
    (hact : ∀ {l raw s x l'}, TlsSession.read (get l) bufSize = some (raw, s) →
      handle (set l s) raw = .ok (x, l') → Act p isBlocked (toMitm l) [x] (toMitm l'))
    {l l' : Link σ κ α} (hrun : (readLoop get set handle hkeeps).run l = .ok (xs, l')) :
    Acts p isBlocked (toMitm l) xs (toMitm l') := by
  refine (Drain.run_invariant (P := fun o l' => Acts p isBlocked (toMitm l) o (toMitm l'))
    (o := []) .nil ?_ hrun).1
  intro o l₁ o₁ l₂ h hs
  obtain ⟨⟨raw, s⟩, hread, hs⟩ := Option.map_eq_some_iff.mp hs
  cases hh : handle (set l₁ s) raw with
  | error e => simp [hh, Except.map] at hs
  | ok r =>
    obtain ⟨rfl, rfl⟩ : [r.1] = o₁ ∧ r.2 = l₂ := by simpa [hh, Except.map] using hs
    exact h.trans (hact hread hh).acts

variable (p isBlocked) in
/-- A pass over a link is made of acts when each of its directions is. -/
private theorem crossLink_acts {α : Type} {app upstream : Drain (Link σ κ α) Panic MitmEvent}
    (toMitm : Link σ κ α → TlsMitm σ κ H)
    (hup : ∀ {l xs l'}, app.run l = .ok (xs, l') → Acts p isBlocked (toMitm l) xs (toMitm l'))
    (hdown : ∀ {l xs l'}, upstream.run l = .ok (xs, l') →
      Acts p isBlocked (toMitm l) xs (toMitm l'))
    {l l' : Link σ κ α} (h : crossLink app upstream l = .ok (xs, l')) :
    Acts p isBlocked (toMitm l) xs (toMitm l') := by
  obtain ⟨⟨up, l₁⟩, hfirst, h⟩ := Except.of_bind_ok h
  obtain ⟨⟨down, l₂⟩, hthen, h⟩ := Except.of_bind_ok h
  obtain ⟨rfl, rfl⟩ := Prod.mk.inj (Except.ok.inj h)
  exact (hup hfirst).trans (hdown hthen)

theorem crossPlaintext_acts {dnsFilter : Option (Str → Bool)} {m' : TlsMitm σ κ H}
    (h : m.crossPlaintext p dnsFilter = .ok (xs, m')) :
    Acts p (dnsFilter.getD fun _ => false) m xs m' := by
  unfold crossPlaintext at h
  cases hc : m.client with
  | none =>
    rw [hc] at h
    obtain ⟨rfl, rfl⟩ := Prod.mk.inj (Except.ok.inj h)
    exact .nil
  | some c =>
    rw [hc] at h
    cases hp : m.plaintext with
    | http t =>
      rw [hp] at h
      obtain ⟨⟨xs', l'⟩, hcross, h⟩ := exists_of_map_ok h
      obtain ⟨rfl, rfl⟩ := Prod.mk.inj h
      let toMitm : Link σ κ Http → TlsMitm σ κ H := fun l =>
        { m with server := l.server, client := some l.client, plaintext := .http l.layer }
      have hstart : toMitm { server := m.server, client := c, layer := t } = m := by
        simp [toMitm, ← hc, ← hp]
      have hacts := crossLink_acts p (dnsFilter.getD fun _ => false) toMitm
        (fun hrun => readLoop_acts p _ toMitm (fun hread hx => .request rfl rfl hread hx) hrun)
        (fun hrun => readLoop_acts p _ toMitm (fun hread hx => .response rfl rfl hread hx) hrun)
        hcross
      rwa [hstart] at hacts
    | dns d =>
      rw [hp] at h
      obtain ⟨⟨xs', l'⟩, hcross, h⟩ := exists_of_map_ok h
      obtain ⟨rfl, rfl⟩ := Prod.mk.inj h
      let toMitm : Link σ κ (DnsStream H) → TlsMitm σ κ H := fun l =>
        { m with server := l.server, client := some l.client, plaintext := .dns l.layer }
      have hstart : toMitm { server := m.server, client := c, layer := d } = m := by
        simp [toMitm, ← hc, ← hp]
      have hacts := crossLink_acts p (dnsFilter.getD fun _ => false) toMitm
        (fun hrun => readLoop_acts p _ toMitm (fun hread hx => .query rfl rfl hread hx) hrun)
        (fun hrun => readLoop_acts p _ toMitm (fun hread hx => .answer rfl rfl hread hx) hrun)
        hcross
      rwa [hstart] at hacts

end Operations

/-- A splice after bytes have come in, which are not decrypted yet. -/
structure Received (m m' : TlsMitm σ κ H) : Prop where
  handshake : SameHandshake m.server m'.server
  client : m'.client = none ↔ m.client = none
  host : m'.host = m.host
  plaintext : m'.plaintext = m.plaintext

section Pump

omit [TlsSession κ] in
theorem Received.fail {m m' : TlsMitm σ κ H} (h : Received m m') (side : FailSide) :
    Received m (m'.markFailed side) := by
  unfold markFailed
  split_ifs
  · exact h
  · exact ⟨h.handshake, h.client, h.host, h.plaintext⟩

theorem recvFromUpstream_received (m : TlsMitm σ κ H) (data : Bytes) :
    Received m (m.recvFromUpstream data) := by
  unfold recvFromUpstream
  cases hc : m.client with
  | none => exact ⟨.refl _, Iff.rfl, rfl, rfl⟩
  | some c =>
    have h : Received m { m with client := some (intake c data).session } :=
      ⟨.refl _, by simp [hc], rfl, rfl⟩
    dsimp only
    split_ifs
    · exact h.fail .upstream
    · exact h

variable [LawfulServer σ]

omit [TlsSession κ] in
theorem recvFromApp_received (m : TlsMitm σ κ H) (data : Bytes) :
    Received m (m.recvFromApp data) := by
  have h : Received m { m with server := (intake m.server data).session } :=
    ⟨intake_sameHandshake _ _, Iff.rfl, rfl, rfl⟩
  unfold recvFromApp
  dsimp only
  split_ifs
  · exact h.fail .app
  · exact h

variable (p isBlocked) in
theorem recvFromApp_acts (m : TlsMitm σ κ H) (data : Bytes) :
    Acts p isBlocked m [] (m.recvFromApp data) := by
  have hs : Acts p isBlocked m [] { m with server := (intake m.server data).session } :=
    (Act.server (intake_sameHandshake m.server data)).acts
  unfold recvFromApp
  dsimp only
  split_ifs
  · exact hs.trans (Act.fail .app).acts
  · exact hs

variable (p isBlocked) in
private theorem propagateClose_acts (m : TlsMitm σ κ H) :
    Acts p isBlocked m [] m.propagateClose := by
  let m₁ : TlsMitm σ κ H := { m with
    client := if m.appClosed then m.client.map TlsSession.sendCloseNotify else m.client }
  have hclient : Acts p isBlocked m [] m₁ := by
    rcases Option.eq_none_or_eq_some m.client with hc | ⟨c, hc⟩
    · have hsame : (if m.appClosed then m.client.map TlsSession.sendCloseNotify else m.client) =
          m.client := by simp [hc]
      dsimp only [m₁]
      rw [hsame]
      exact .nil
    · dsimp only [m₁]
      split_ifs
      · rw [hc]
        exact client_act p isBlocked hc _
      · exact .nil
  have hserver : SameHandshake m₁.server
      (if m.upstreamClosed then TlsSession.sendCloseNotify m.server else m.server) := by
    split_ifs
    · exact LawfulServer.sendCloseNotify _
    · exact .refl _
  exact hclient.trans (Act.server hserver).acts

variable (p isBlocked) in
private theorem collect_acts (m : TlsMitm σ κ H) :
    (∀ m', m.collect = .error m' → Acts p isBlocked m [] m' ∧ m'.failed = true) ∧
    ∀ io m', m.collect = .ok (io, m') → Acts p isBlocked m [] m' := by
  have hserver : Acts p isBlocked m [] { m with server := (outflow m.server).session } :=
    (Act.server (outflow_sameHandshake m.server)).acts
  unfold collect
  dsimp only
  split_ifs
  · refine ⟨?_, fun _ _ h => by cases h⟩
    rintro _ ⟨⟩
    exact ⟨hserver.trans (Act.fail .other).acts, markFailed_failed _ _⟩
  · cases hc : m.client with
    | none =>
      refine ⟨fun _ h => (by cases h), ?_⟩
      rintro _ _ ⟨⟩
      simpa [hc] using hserver
    | some c =>
      have hclient : Acts p isBlocked m [] { m with
          server := (outflow m.server).session, client := some (outflow c).session } :=
        hserver.trans (@client_act _ _ _ _ _ p isBlocked { m with
          server := (outflow m.server).session } _ hc _)
      dsimp only
      split_ifs
      · refine ⟨?_, fun _ _ h => by cases h⟩
        rintro _ ⟨⟩
        exact ⟨hclient.trans (Act.fail .other).acts, markFailed_failed _ _⟩
      · refine ⟨fun _ h => (by cases h), ?_⟩
        rintro _ _ ⟨⟩
        exact hclient

omit [LawfulServer σ] in
theorem pumpImpl_failed {dnsFilter : Option (Str → Bool)} (hf : m.failed = true) :
    m.pumpImpl p dnsFilter = .ok (failedPump [] m) := by
  rw [pumpImpl, if_pos hf]

omit [ServerSession σ] [TlsSession κ] [LawfulServer σ] in
/-- The capture is all that finishing touches. -/
theorem finish_eq (m : TlsMitm σ κ H) : ∃ t, m.finish = { m with plaintext := t } := by
  unfold finish
  split
  · exact ⟨_, rfl⟩
  · exact ⟨m.plaintext, rfl⟩

/-- A pump is made of acts, and reports the splice closed when it has failed or both sides have
closed. -/
theorem pumpImpl_acts {dnsFilter : Option (Str → Bool)} {r : Pumped σ κ H}
    (h : m.pumpImpl p dnsFilter = .ok r) :
    Acts p (dnsFilter.getD fun _ => false) m r.events r.mitm ∧
      r.io.closed = (r.mitm.failed || (r.mitm.appClosed && r.mitm.upstreamClosed)) := by
  cases hf : m.failed with
  | true =>
    rw [pumpImpl_failed hf] at h
    obtain rfl := Except.ok.inj h
    exact ⟨.nil, by simp [failedPump, hf]⟩
  | false =>
    have hadv := advance_sound p (dnsFilter.getD fun _ => false) hf
    rw [pumpImpl, if_neg (by simp [hf])] at h
    cases ha : m.advance with
    | error m₁ =>
      rw [ha] at h
      obtain rfl := Except.ok.inj h
      obtain ⟨hacts, hfail⟩ := hadv.error m₁ ha
      exact ⟨hacts, by simp [failedPump, hfail]⟩
    | ok m₁ =>
      rw [ha] at h
      obtain ⟨⟨xs, m₂⟩, hcross, hr⟩ := exists_of_map_ok h
      have hthere := (hadv.ok m₁ ha).1.trans (crossPlaintext_acts hcross)
      have hclose := hthere.trans (propagateClose_acts p (dnsFilter.getD fun _ => false) m₂)
      rw [List.append_nil] at hclose
      have hcollect := collect_acts p (dnsFilter.getD fun _ => false) m₂.propagateClose
      cases hio : m₂.propagateClose.collect with
      | error m₃ =>
        simp only [hio] at hr
        subst hr
        obtain ⟨hacts, hfail⟩ := hcollect.1 m₃ hio
        refine ⟨?_, by simp [failedPump, hfail]⟩
        have := hclose.trans hacts
        rwa [List.append_nil] at this
      | ok out =>
        obtain ⟨io, m₃⟩ := out
        simp only [hio] at hr
        subst hr
        have hall := hclose.trans (hcollect.2 io m₃ hio)
        rw [List.append_nil] at hall
        dsimp only
        split_ifs with hc
        · obtain ⟨t, ht⟩ := m₃.finish_eq
          exact ⟨hall.trans (finish_acts p (dnsFilter.getD fun _ => false) m₃), by rw [ht]⟩
        · exact ⟨hall, rfl⟩

omit [TlsSession κ] [LawfulServer σ] in
private theorem isDns_markFailed (m : TlsMitm σ κ H) (side : FailSide) :
    (m.markFailed side).isDns = m.isDns := by
  unfold markFailed
  split_ifs <;> rfl

omit [LawfulServer σ] in
private theorem isDns_act (h : m.Act p isBlocked xs m₁) : m₁.isDns = m.isDns := by
  cases h with
  | server | packets | client => rfl
  | fail side => exact isDns_markFailed m side
  | opened =>
    cases hp : m.plaintext <;> simp only [isDns, Plaintext.setHost, hp]
  | refused =>
    rw [isDns_markFailed]
    cases hp : m.plaintext <;> simp only [isDns, Plaintext.setHost, hp]
  | request _ hp | response _ hp | query _ hp | answer _ hp => simp only [isDns, hp]
  | finish =>
    cases hp : m.plaintext <;> simp only [isDns, finish, hp]

omit [LawfulServer σ] in
theorem isDns_acts (h : m.Acts p isBlocked xs m₁) : m₁.isDns = m.isDns :=
  h.invariant (P := fun _ m' => m'.isDns = m.isDns) (fun h ha => (isDns_act ha).trans h)
    (z := []) rfl

/-- What the forwarder has of a pump. A panic ends the datapath, and the splice with it. -/
def afterPump (m : TlsMitm σ κ H) : Except Panic (Pumped σ κ H) → MitmIo × TlsMitm σ κ H
  | .ok r => (r.io, r.mitm)
  | .error _ => ({ closed := true }, m)

omit [LawfulServer σ] in
instance : Splice (TlsMitm σ κ H) where
  isDns := isDns
  host m := m.host
  certRejected m := m.certRejected
  recvFromApp := recvFromApp
  recvFromUpstream := recvFromUpstream
  pump m := m.afterPump (m.pump .release)
  pumpDns isBlocked m := m.afterPump (m.pumpDns .release isBlocked)
  takeDnsBlocked := takeDnsBlocked
  setCosmetic := setCosmetic

private theorem isDns_afterPump {dnsFilter : Option (Str → Bool)} (m : TlsMitm σ κ H) :
    (m.afterPump (m.pumpImpl .release dnsFilter)).2.isDns = m.isDns := by
  cases h : m.pumpImpl .release dnsFilter with
  | error e => rfl
  | ok r => exact isDns_acts (pumpImpl_acts h).1

/-- What holds of the forwarder with any lawful splice holds of it with this one. -/
instance : LawfulSplice (TlsMitm σ κ H) where
  isDns_recvFromApp m data := isDns_acts (recvFromApp_acts .release (fun _ => false) m data)
  isDns_recvFromUpstream m data :=
    isDns_acts (recvFromUpstream_acts .release (fun _ => false) m data)
  isDns_pump m := isDns_afterPump m
  isDns_pumpDns _ m := isDns_afterPump m
  isDns_takeDnsBlocked m := by
    cases hp : m.plaintext <;> simp only [Splice.isDns, Splice.takeDnsBlocked, isDns, takeDnsBlocked, hp]
  isDns_setCosmetic m css js := by
    cases hp : m.plaintext <;> simp only [Splice.isDns, Splice.setCosmetic, isDns, setCosmetic, hp]

/-- The session configurations that the CA allows, plain and for DoH. A server session may fail to
start. -/
structure Configs (σ κ : Type) where
  serverConfig : Option σ
  clientConfig : ClientConfig κ
  serverConfigDoh : Option σ
  clientConfigDoh : ClientConfig κ

/-- The splices that are started with them. -/
def Configs.splices (c : Configs σ κ) (H : Hpack) : MitmConfigs (TlsMitm σ κ H) where
  newSplice := c.serverConfig.map fun server => .new server c.clientConfig
  newSpliceDns
    | .dot => c.serverConfig.map fun server => .newDns server c.clientConfig .dot
    | .doh => c.serverConfigDoh.map fun server => .newDns server c.clientConfigDoh .doh

omit [LawfulServer σ] in
theorem Configs.splices_lawful (c : Configs σ κ) (H : Hpack) : (c.splices H).Lawful where
  newSplice m h := by
    obtain ⟨server, -, rfl⟩ := Option.map_eq_some_iff.mp h
    rfl
  newSpliceDns kind m h := by
    cases kind with
    | dot =>
      obtain ⟨server, -, rfl⟩ := Option.map_eq_some_iff.mp h
      rfl
    | doh =>
      obtain ⟨server, -, rfl⟩ := Option.map_eq_some_iff.mp h
      rfl

end Pump

end TlsMitm

end Adwarden.Tls
