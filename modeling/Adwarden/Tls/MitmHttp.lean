import Adwarden.Tls.MitmFailure
import Adwarden.Tls.RequestQueue

/-! An HTTP splice under the datapath: its plaintext goes through one rewriter, from the first byte
on with the cosmetic payload of its host. -/
namespace Adwarden.Tls
open Adwarden.Lib

def MitmEvent.rewriterOp : MitmEvent → Option Rewriter.Op
  | .fromApp raw _ => some (.request raw)
  | .fromUpstream raw _ => some (.response raw)
  | .finished => none

def rewriterOps (zs : List MitmEvent) : List Rewriter.Op := zs.filterMap MitmEvent.rewriterOp

namespace Rewriter

variable {p : Profile} {rw₀ rw : Rewriter} {ops : List Op} {emits : List RespEmit} {log : Log}

theorem runOps_append (h : rw₀.runOps p ops = .ok (emits, rw)) (ops' : List Op) :
    rw₀.runOps p (ops ++ ops') = (rw.runOps p ops').map fun r => (emits ++ r.1, r.2) := by
  induction ops generalizing rw₀ emits with
  | nil =>
    obtain ⟨rfl, rfl⟩ := Prod.mk.inj (Except.ok.inj h)
    cases h : rw₀.runOps p ops' with
    | error e => simp [h, Except.map]
    | ok r => simp [h, Except.map]
  | cons op ops ih =>
    cases op with
    | request d => exact ih h
    | response d =>
      rw [runOps] at h
      rw [List.cons_append, runOps]
      cases hd : rw₀.feedResponse p d with
      | error e =>
        rw [hd] at h
        cases h
      | ok r =>
        rw [hd] at h
        obtain ⟨r', hr', heq⟩ := exists_of_map_ok h
        obtain ⟨rfl, rfl⟩ := Prod.mk.inj heq
        simp only [ih hr']
        cases r'.2.runOps p ops' with
        | error e => rfl
        | ok r => simp [Except.map]

def Log.append (a b : Log) : Log where
  sent := a.sent ++ b.sent
  pushed := a.pushed ++ b.pushed
  popped := a.popped ++ b.popped

theorem logOps_append (h : rw₀.logOps p ops = .ok (log, rw)) (ops' : List Op) :
    rw₀.logOps p (ops ++ ops') = (rw.logOps p ops').map fun r => (log.append r.1, r.2) := by
  induction ops generalizing rw₀ log with
  | nil =>
    obtain ⟨rfl, rfl⟩ := Prod.mk.inj (Except.ok.inj h)
    cases h : rw₀.logOps p ops' with
    | error e => simp [h, Except.map]
    | ok r => simp [h, Except.map, Log.append]
  | cons op ops ih =>
    cases op with
    | request d =>
      rw [logOps] at h
      obtain ⟨r', hr', heq⟩ := exists_of_map_ok h
      obtain ⟨rfl, rfl⟩ := Prod.mk.inj heq
      rw [List.cons_append, logOps, ih hr']
      cases r'.2.logOps p ops' with
      | error e => rfl
      | ok r => simp [Except.map, Log.append]
    | response d =>
      rw [logOps] at h
      rw [List.cons_append, logOps]
      cases hd : rw₀.feedResponse p d with
      | error e =>
        rw [hd] at h
        cases h
      | ok r =>
        rw [hd] at h
        obtain ⟨r', hr', heq⟩ := exists_of_map_ok h
        obtain ⟨rfl, rfl⟩ := Prod.mk.inj heq
        simp only [ih hr']
        cases r'.2.logOps p ops' with
        | error e => rfl
        | ok r => simp [Except.map, Log.append]

/-- Without a payload, both directions pass through. -/
theorem runOps_inactive (ha : rw₀.active = false) (hq : rw₀.reqBuf = []) (hr : rw₀.respBuf = [])
    {rw' : Rewriter} (h : rw₀.runOps p ops = .ok (emits, rw))
    (hlog : rw₀.logOps p ops = .ok (log, rw')) :
    emits.flatMap RespEmit.render = responseFed ops ∧ log.sent = requestFed ops := by
  have hreq : ∀ d, rw₀.feedRequest d = (d, rw₀) := by
    intro d
    have hsame : { rw₀ with reqBuf := [] } = rw₀ := by rw [← hq]
    rw [feedRequest, if_pos (by simp [ha]), hsame, hq, List.nil_append]
  have hresp : ∀ d, rw₀.feedResponse p d = .ok ([.body d [] []], rw₀) := by
    intro d
    have hsame : { rw₀ with respBuf := [] } = rw₀ := by rw [← hr]
    rw [feedResponse, if_pos (by simp [ha]), hsame, hr, List.nil_append]
  induction ops generalizing emits log with
  | nil =>
    obtain ⟨rfl, rfl⟩ := Prod.mk.inj (Except.ok.inj h)
    obtain ⟨rfl, rfl⟩ := Prod.mk.inj (Except.ok.inj hlog)
    exact ⟨rfl, rfl⟩
  | cons op ops ih =>
    cases op with
    | request d =>
      rw [runOps, hreq] at h
      rw [logOps, hreq] at hlog
      obtain ⟨r', hr', heq⟩ := exists_of_map_ok hlog
      obtain ⟨rfl, rfl⟩ := Prod.mk.inj heq
      obtain ⟨hrender, hsent⟩ := ih h hr'
      exact ⟨by simpa [responseFed] using hrender, by simp [requestFed, hsent]⟩
    | response d =>
      simp only [runOps, hresp] at h
      simp only [logOps, hresp] at hlog
      obtain ⟨r, hrun, heq⟩ := exists_of_map_ok h
      obtain ⟨rfl, rfl⟩ := Prod.mk.inj heq
      obtain ⟨r', hr', heq⟩ := exists_of_map_ok hlog
      obtain ⟨rfl, rfl⟩ := Prod.mk.inj heq
      obtain ⟨hrender, hsent⟩ := ih hrun hr'
      constructor
      · simp [responseFed, hrender, RespEmit.render]
      · simpa [requestFed] using hsent

/-- What has been read and written is what one rewriter makes of it, from `rw₀` to `rw`. -/
def Forwards (p : Profile) (rw₀ : Rewriter) (zs : List MitmEvent) (rw : Rewriter) : Prop :=
  ∃ emits log, rw₀.runOps p (rewriterOps zs) = .ok (emits, rw) ∧
    rw₀.logOps p (rewriterOps zs) = .ok (log, rw) ∧
    zs.flatMap MitmEvent.toApp = emits.flatMap RespEmit.render ∧
    zs.flatMap MitmEvent.toUpstream = log.sent

variable {zs : List MitmEvent}

theorem Forwards.start (h : rewriterOps zs = []) (happ : zs.flatMap MitmEvent.toApp = [])
    (hup : zs.flatMap MitmEvent.toUpstream = []) : Forwards p rw₀ zs rw₀ :=
  ⟨[], {}, by rw [h]; rfl, by rw [h]; rfl, happ, hup⟩

theorem Forwards.request (h : Forwards p rw₀ zs rw) (raw : Bytes) :
    Forwards p rw₀ (zs ++ [.fromApp raw { toUpstream := (rw.feedRequest raw).1 }])
      (rw.feedRequest raw).2 := by
  obtain ⟨emits, log, hrun, hlog, happ, hup⟩ := h
  refine ⟨emits, log.append { sent := (rw.feedRequest raw).1, pushed := rw.pushedBy raw },
    ?_, ?_, ?_, ?_⟩
  · simp [rewriterOps, MitmEvent.rewriterOp] at hrun ⊢
    rw [runOps_append hrun]
    simp [runOps, Except.map]
  · simp [rewriterOps, MitmEvent.rewriterOp] at hlog ⊢
    rw [logOps_append hlog]
    simp [logOps, Except.map]
  · simp [happ, MitmEvent.toApp]
  · simp [hup, MitmEvent.toUpstream, Log.append]

theorem Forwards.response (h : Forwards p rw₀ zs rw) {raw : Bytes} {rw' : Rewriter}
    (hf : rw.feedResponse p raw = .ok (emits, rw')) :
    Forwards p rw₀ (zs ++ [.fromUpstream raw (emits.flatMap RespEmit.render)]) rw' := by
  obtain ⟨emits', log, hrun, hlog, happ, hup⟩ := h
  refine ⟨emits' ++ emits, log.append { popped := rw.poppedBy p raw }, ?_, ?_, ?_, ?_⟩
  · simp [rewriterOps, MitmEvent.rewriterOp] at hrun ⊢
    rw [runOps_append hrun]
    simp [runOps, hf, Except.map]
  · simp [rewriterOps, MitmEvent.rewriterOp] at hlog ⊢
    rw [logOps_append hlog]
    simp [logOps, hf, Except.map]
  · simp [happ, MitmEvent.toApp]
  · simp [hup, MitmEvent.toUpstream, Log.append]

theorem Forwards.finished (h : Forwards p rw₀ zs rw) : Forwards p rw₀ (zs ++ [.finished]) rw := by
  have hops : rewriterOps (zs ++ [.finished]) = rewriterOps zs := by
    simp [rewriterOps, MitmEvent.rewriterOp]
  obtain ⟨emits, log, hrun, hlog, happ, hup⟩ := h
  refine ⟨emits, log, by rwa [hops], by rwa [hops], ?_, ?_⟩
  · simp [happ, MitmEvent.toApp]
  · simp [hup, MitmEvent.toUpstream]

end Rewriter

/-- The plaintext of an HTTP splice has gone through one rewriter. -/
def HttpForwards (p : Profile) {σ κ : Type} {H : Hpack} (rw₀ : Rewriter) (zs : List MitmEvent)
    (m : TlsMitm σ κ H) : Prop :=
  ∃ t, m.plaintext = .http t ∧ Rewriter.Forwards p rw₀ zs t.rewriter

section Splice

variable {σ κ : Type} {H : Hpack} [ServerSession σ] [TlsSession κ] {p : Profile}
  {isBlocked : Str → Bool} {rw₀ : Rewriter} {zs xs : List MitmEvent} {m m' : TlsMitm σ κ H}

omit [TlsSession κ] in
theorem markFailed_plaintext (m : TlsMitm σ κ H) (side : FailSide) :
    (m.markFailed side).plaintext = m.plaintext := by
  unfold TlsMitm.markFailed
  split_ifs <;> rfl

theorem HttpForwards.act (h : HttpForwards p rw₀ zs m) (ha : m.Act p isBlocked xs m') :
    HttpForwards p rw₀ (zs ++ xs) m' := by
  obtain ⟨t, hp, hf⟩ := h
  cases ha with
  | server hs => exact ⟨t, hp, by rwa [List.append_nil]⟩
  | packets closed hok => exact ⟨t, hp, by rwa [List.append_nil]⟩
  | client closed hc => exact ⟨t, hp, by rwa [List.append_nil]⟩
  | fail side => exact ⟨t, by rw [markFailed_plaintext, hp], by rwa [List.append_nil]⟩
  | @opened name c hok hc hn hconnect =>
    exact ⟨{ t with tap := t.tap.setHost name }, by rw [hp]; rfl, by rwa [List.append_nil]⟩
  | @refused name hok hc hn =>
    refine ⟨{ t with tap := t.tap.setHost name }, ?_, by rwa [List.append_nil]⟩
    rw [markFailed_plaintext, hp]
    rfl
  | @request t' c raw s x l hc hp' hread hx =>
    obtain rfl : t' = t := by rw [hp] at hp'; exact (Plaintext.http.inj hp').symm
    obtain ⟨rfl, rfl⟩ := Prod.mk.inj (Except.ok.inj hx)
    exact ⟨_, rfl, hf.request raw⟩
  | @response t' c c' raw x l hc hp' hread hx =>
    obtain rfl : t' = t := by rw [hp] at hp'; exact (Plaintext.http.inj hp').symm
    obtain ⟨r, hr, heq⟩ := exists_of_map_ok hx
    obtain ⟨rfl, rfl⟩ := Prod.mk.inj heq
    exact ⟨_, rfl, hf.response hr⟩
  | query hc hp' =>
    rw [hp] at hp'
    cases hp'
  | answer hc hp' =>
    rw [hp] at hp'
    cases hp'
  | finish =>
    refine ⟨{ t with tap := t.tap.finish }, ?_, hf.finished⟩
    simp only [TlsMitm.finish, hp]

end Splice

section FirstPump

variable {σ κ : Type} {H : Hpack} [ServerSession σ] [TlsSession κ] {p : Profile}
  {dnsFilter : Option (Str → Bool)} {m m₁ : TlsMitm σ κ H}

namespace TlsMitm

private theorem of_bind_ok {ε α β : Type} {x : Except ε α} {f : α → Except ε β} {b : β}
    (h : x.bind f = .ok b) : ∃ a, x = .ok a ∧ f a = .ok b := by
  cases x with
  | error e => cases h
  | ok a => exact ⟨a, rfl, h⟩

/-- The three parts of what a pump decrypts, where none fails. -/
private theorem advance_ok (h : m.advance = .ok m₁) :
    ∃ closed b, { m with
        server := (TlsSession.processNewPackets m.server).2
        appClosed := m.appClosed || closed : TlsMitm σ κ H }.openClient = .ok b ∧
      b.processClient = .ok m₁ := by
  obtain ⟨b, hb, hclient⟩ := of_bind_ok h
  obtain ⟨a, ha, hopen⟩ := of_bind_ok hb
  unfold processServer at ha
  generalize hr : TlsSession.processNewPackets m.server = r at ha
  obtain ⟨closed | closed, server⟩ := r
  · cases ha
  · obtain rfl := Except.ok.inj ha
    exact ⟨closed, b, hopen, hclient⟩

omit [TlsSession κ] in
/-- The upstream session is started as soon as the app has named its host. -/
private theorem openClient_ok {a b : TlsMitm σ κ H} (h : a.openClient = .ok b) :
    (b = a ∧ (a.client = none → ServerSession.serverName a.server = none)) ∨
      ∃ name c, a.clientConfig.connect name = some c ∧ b.client = some c ∧ b.server = a.server := by
  unfold openClient at h
  split at h
  · next name hc hn =>
    dsimp only at h
    split_ifs at h
    split at h
    · next c hconnect =>
      obtain rfl := Except.ok.inj h
      exact Or.inr ⟨name, c, hconnect, rfl, rfl⟩
    · cases h
  · next hno =>
    obtain rfl := Except.ok.inj h
    refine Or.inl ⟨rfl, fun hc => ?_⟩
    cases hn : ServerSession.serverName a.server with
    | none => rfl
    | some name => exact absurd hn (hno name hc)

private theorem processClient_none {b : TlsMitm σ κ H} (hc : b.client = none) :
    b.processClient = .ok b := by
  unfold processClient
  rw [hc]

private theorem processClient_some {b : TlsMitm σ κ H} {c : κ} (hc : b.client = some c)
    (h : b.processClient = .ok m₁) :
    m₁.client = some (TlsSession.processNewPackets c).2 ∧ m₁.server = b.server := by
  unfold processClient at h
  rw [hc] at h
  dsimp only at h
  generalize TlsSession.processNewPackets c = r at h ⊢
  obtain ⟨closed | closed, c'⟩ := r
  · cases h
  · obtain rfl := Except.ok.inj h
    exact ⟨rfl, rfl⟩

/-- While there is no upstream session, the app has not named its host. -/
theorem advance_unnamed (h : m.advance = .ok m₁) (hc : m₁.client = none) :
    ServerSession.serverName m₁.server = none := by
  obtain ⟨closed, b, hopen, hclient⟩ := advance_ok h
  cases hb : b.client with
  | some c =>
    rw [(processClient_some hb hclient).1] at hc
    cases hc
  | none =>
    rw [processClient_none hb] at hclient
    obtain rfl := Except.ok.inj hclient
    obtain ⟨rfl, hn⟩ | ⟨name, c, -, hsome, -⟩ := openClient_ok hopen
    · exact hn hb
    · rw [hb] at hsome
      cases hsome

variable [LawfulServer σ] [LawfulSession κ]

/-- In the pump that learns the host, neither side has plaintext to read. -/
theorem advance_first (hcfg : m.clientConfig.Lawful) (hc : m.client = none)
    (hn : ServerSession.serverName m.server = none) (h : m.advance = .ok m₁) :
    TlsSession.readable m₁.server = 0 ∧ ∀ c, m₁.client = some c → TlsSession.readable c = 0 := by
  have hserver := LawfulSession.readable_handshaking _
    (LawfulServer.handshaking_of_serverName m.server hn)
  obtain ⟨closed, b, hopen, hclient⟩ := advance_ok h
  obtain ⟨hb, -⟩ | ⟨name, c, hconnect, hb, hbs⟩ := openClient_ok hopen
  · have hbc : b.client = none := by rw [hb, hc]
    rw [processClient_none hbc] at hclient
    obtain rfl := Except.ok.inj hclient
    refine ⟨by rw [hb]; exact hserver, fun c hsome => ?_⟩
    rw [hbc] at hsome
    cases hsome
  · obtain ⟨hc₁, hs₁⟩ := processClient_some hb hclient
    rw [hs₁, hbs]
    refine ⟨hserver, fun c' hsome => ?_⟩
    rw [hc₁] at hsome
    obtain rfl := Option.some.inj hsome
    exact LawfulSession.readable_handshaking _ (hcfg.connect name c hconnect)

omit [ServerSession σ] [TlsSession κ] [LawfulServer σ] [LawfulSession κ] in
/-- A loop with nothing to read does nothing. -/
private theorem readLoop_dry {α τ : Type} [TlsSession τ] [LawfulSession τ] {get : Link σ κ α → τ}
    {set : Link σ κ α → τ → Link σ κ α}
    {handle : Link σ κ α → Bytes → Except Panic (MitmEvent × Link σ κ α)} {hkeeps}
    {l : Link σ κ α} (h : TlsSession.readable (get l) = 0) :
    (readLoop get set handle hkeeps).run l = .ok ([], l) := by
  refine Drain.run_none ?_
  have hnone := (LawfulSession.read_eq_none (get l) bufSize (by decide)).mpr h
  simp only [readLoop, hnone, Option.map_none]

theorem crossPlaintext_dry {zs : List MitmEvent} {m' : TlsMitm σ κ H}
    (hs : TlsSession.readable m.server = 0)
    (hc : ∀ c, m.client = some c → TlsSession.readable c = 0)
    (h : m.crossPlaintext p dnsFilter = .ok (zs, m')) : zs = [] := by
  unfold crossPlaintext at h
  cases hcl : m.client with
  | none =>
    rw [hcl] at h
    exact (Prod.mk.inj (Except.ok.inj h)).1.symm
  | some c =>
    rw [hcl] at h
    have hdry := hc c hcl
    cases hp : m.plaintext with
    | http t =>
      rw [hp] at h
      obtain ⟨r, hr, heq⟩ := exists_of_map_ok h
      rw [crossLink, requestLoop, readLoop_dry hs] at hr
      simp only [Except.ok_bind, responseLoop] at hr
      rw [readLoop_dry hdry] at hr
      obtain rfl := Except.ok.inj hr
      exact (Prod.mk.inj heq).1.symm
    | dns d =>
      rw [hp] at h
      obtain ⟨r, hr, heq⟩ := exists_of_map_ok h
      rw [crossLink, queryLoop, readLoop_dry hs] at hr
      simp only [Except.ok_bind, answerLoop] at hr
      rw [readLoop_dry hdry] at hr
      obtain rfl := Except.ok.inj hr
      exact (Prod.mk.inj heq).1.symm

omit [LawfulSession κ] in
private theorem propagateClose_received (m : TlsMitm σ κ H) : Received m m.propagateClose := by
  refine ⟨?_, ?_, rfl, rfl⟩
  · simp only [propagateClose]
    split_ifs
    · exact LawfulServer.sendCloseNotify _
    · exact .refl _
  · simp only [propagateClose]
    split_ifs
    · exact Option.map_eq_none_iff
    · exact Iff.rfl

omit [LawfulSession κ] in
private theorem collect_received (m : TlsMitm σ κ H) :
    (∀ m', m.collect = .error m' → Received m m') ∧
    ∀ io m', m.collect = .ok (io, m') → Received m m' := by
  have hs : Received m { m with server := (outflow m.server).session } :=
    ⟨outflow_sameHandshake _, Iff.rfl, rfl, rfl⟩
  unfold collect
  dsimp only
  split_ifs
  · refine ⟨?_, fun _ _ h => by cases h⟩
    rintro _ ⟨⟩
    exact hs.fail .other
  · cases hc : m.client with
    | none =>
      refine ⟨fun _ h => (by cases h), ?_⟩
      rintro _ _ ⟨⟩
      exact ⟨hs.handshake, by simp [hc], rfl, rfl⟩
    | some c =>
      have hu : Received m { m with
          server := (outflow m.server).session, client := some (outflow c).session } :=
        ⟨hs.handshake, by simp [hc], rfl, rfl⟩
      dsimp only
      split_ifs
      · refine ⟨?_, fun _ _ h => by cases h⟩
        rintro _ ⟨⟩
        exact hu.fail .other
      · refine ⟨fun _ h => (by cases h), ?_⟩
        rintro _ _ ⟨⟩
        exact hu

omit [LawfulSession κ] in
/-- A pump that has not failed before plaintext crosses: what it does before and after. -/
theorem pumpImpl_crossed {r : Pumped σ κ H} (hf : m.failed = false)
    (h : m.pumpImpl p dnsFilter = .ok r) :
    (r.events = [] ∧ r.mitm.failed = true) ∨ ∃ m₁ zs m₂, m.advance = .ok m₁ ∧
      m₁.crossPlaintext p dnsFilter = .ok (zs, m₂) ∧
      (∀ e ∈ r.events, e ∈ zs ∨ e = .finished) ∧
      SameHandshake m₂.server r.mitm.server ∧ (r.mitm.client = none ↔ m₂.client = none) := by
  rw [pumpImpl, if_neg (by simp [hf])] at h
  cases ha : m.advance with
  | error m₁ =>
    have hfail := ((advance_sound p (fun _ => false) hf).error m₁ ha).2
    rw [ha] at h
    obtain rfl := Except.ok.inj h
    exact Or.inl ⟨rfl, hfail⟩
  | ok m₁ =>
    rw [ha] at h
    obtain ⟨⟨zs, m₂⟩, hcross, hr⟩ := exists_of_map_ok h
    right
    have hprop := propagateClose_received m₂
    obtain ⟨herr, hok⟩ := collect_received m₂.propagateClose
    refine ⟨m₁, zs, m₂, rfl, hcross, ?_⟩
    cases hio : m₂.propagateClose.collect with
    | error m₃ =>
      simp only [hio] at hr
      subst hr
      have hthen := herr m₃ hio
      exact ⟨fun e he => Or.inl he, hprop.handshake.trans hthen.handshake,
        hthen.client.trans hprop.client⟩
    | ok out =>
      obtain ⟨io, m₃⟩ := out
      simp only [hio] at hr
      subst hr
      have hthen := hok io m₃ hio
      obtain ⟨t, ht⟩ := m₃.finish_eq
      dsimp only
      split_ifs
      · rw [ht]
        refine ⟨fun e he => ?_, hprop.handshake.trans hthen.handshake,
          hthen.client.trans hprop.client⟩
        rcases List.mem_append.mp he with he | he
        · exact Or.inl he
        · exact Or.inr (List.mem_singleton.mp he)
      · exact ⟨fun e he => Or.inl he, hprop.handshake.trans hthen.handshake,
          hthen.client.trans hprop.client⟩

/-- Nothing crosses up to the pump that learns the host. -/
theorem pumpImpl_first {r : Pumped σ κ H} (hcfg : m.clientConfig.Lawful) (hc : m.client = none)
    (hn : m.failed = false → ServerSession.serverName m.server = none)
    (h : m.pumpImpl p dnsFilter = .ok r) : ∀ e ∈ r.events, e = .finished := by
  cases hf : m.failed with
  | true =>
    obtain rfl := Except.ok.inj ((pumpImpl_failed hf).symm.trans h)
    intro e he
    cases he
  | false =>
    obtain ⟨he, -⟩ | ⟨m₁, zs, m₂, ha, hcross, hev, -⟩ := pumpImpl_crossed hf h
    · rw [he]
      intro e he
      cases he
    · obtain ⟨hs, hcl⟩ := advance_first hcfg hc (hn hf) ha
      obtain rfl := crossPlaintext_dry hs hcl hcross
      intro e he
      exact (hev e he).resolve_left List.not_mem_nil

omit [LawfulSession κ] in
/-- A pump that leaves no upstream session has not learned the host. -/
theorem pumpImpl_unnamed {r : Pumped σ κ H} (h : m.pumpImpl p dnsFilter = .ok r)
    (hc : r.mitm.client = none) (hok : r.mitm.failed = false) :
    ServerSession.serverName r.mitm.server = none := by
  cases hf : m.failed with
  | true =>
    obtain rfl := Except.ok.inj ((pumpImpl_failed hf).symm.trans h)
    rw [failedPump, hf] at hok
    cases hok
  | false =>
    obtain ⟨-, hfail⟩ | ⟨m₁, zs, m₂, ha, hcross, -, hs, hcl⟩ := pumpImpl_crossed hf h
    · rw [hok] at hfail
      cases hfail
    · have hc₂ := hcl.mp hc
      have hstay : m₁.client = none ∧ m₂.server = m₁.server := by
        unfold crossPlaintext at hcross
        cases hc₁ : m₁.client with
        | none =>
          rw [hc₁] at hcross
          obtain ⟨-, rfl⟩ := Prod.mk.inj (Except.ok.inj hcross)
          exact ⟨rfl, rfl⟩
        | some c =>
          rw [hc₁] at hcross
          dsimp only at hcross
          split at hcross
          all_goals
            obtain ⟨r, -, heq⟩ := exists_of_map_ok hcross
            obtain ⟨-, rfl⟩ := Prod.mk.inj heq
            cases hc₂
      rw [hs.serverName, hstay.2]
      exact advance_unnamed ha hstay.1

end TlsMitm

end FirstPump

/-- The rewriter of a splice that was handed this payload. -/
def provisioned : Option (Str × Str) → Rewriter
  | none => {}
  | some payload => ({} : Rewriter).setCosmetic payload.1 payload.2

/-- A rewriter that is handed its payload has not seen anything. -/
theorem provisioned_fresh (c : Option (Str × Str)) : ∃ active blob,
    provisioned c = { active, blob } := by
  cases c with
  | none => exact ⟨_, _, rfl⟩
  | some payload =>
    by_cases h : payload.1 ≠ [] ∨ payload.2 ≠ []
    · rw [provisioned, Rewriter.setCosmetic, if_pos h]
      exact ⟨_, _, rfl⟩
    · rw [provisioned, Rewriter.setCosmetic, if_neg h]
      exact ⟨_, _, rfl⟩

theorem requestFed_rewriterOps (zs : List MitmEvent) :
    Rewriter.requestFed (rewriterOps zs) = zs.flatMap MitmEvent.rawFromApp := by
  induction zs with
  | nil => rfl
  | cons e zs ih =>
    rw [List.flatMap_cons, ← ih]
    cases e <;> rfl

theorem responseFed_rewriterOps (zs : List MitmEvent) :
    Rewriter.responseFed (rewriterOps zs) = zs.flatMap MitmEvent.rawFromUpstream := by
  induction zs with
  | nil => rfl
  | cons e zs ih =>
    rw [List.flatMap_cons, ← ih]
    cases e <;> rfl

namespace Interception

variable {σ κ : Type} {H : Hpack} [ServerSession σ] [TlsSession κ] [LawfulServer σ]
  [LawfulSession κ] {p : Profile} {clientConfig : ClientConfig κ} {w w' : Interception σ κ H}

/-- An HTTP splice under the datapath: nothing crosses before the payload is handed over, and all
that crosses goes through the rewriter with it. -/
structure Provisioned (p : Profile) (clientConfig : ClientConfig κ) (w : Interception σ κ H) :
    Prop where
  guarded : Guarded w.events w.mitm
  config : w.mitm.clientConfig = clientConfig
  unnamed : w.mitm.client = none → w.mitm.failed = false →
    ServerSession.serverName w.mitm.server = none
  waiting : w.cosmetic = none → w.mitm.host = none
  forwards : HttpForwards p (provisioned w.cosmetic) w.events w.mitm

omit [LawfulServer σ] [LawfulSession κ] in
private theorem config_act {isBlocked : Str → Bool} {xs : List MitmEvent} {m m' : TlsMitm σ κ H}
    (ha : m.Act p isBlocked xs m') : m'.clientConfig = m.clientConfig := by
  have hfail : ∀ (m : TlsMitm σ κ H) side, (m.markFailed side).clientConfig = m.clientConfig := by
    intro m side
    unfold TlsMitm.markFailed
    split_ifs <;> rfl
  cases ha with
  | fail side => exact hfail _ _
  | refused => exact hfail _ _
  | finish =>
    obtain ⟨t, ht⟩ := m.finish_eq
    rw [ht]
  | _ => rfl

omit [LawfulServer σ] [LawfulSession κ] in
private theorem config_keeps (p : Profile) (clientConfig : ClientConfig κ) :
    Keeps p fun (_ : List MitmEvent) (m : TlsMitm σ κ H) => m.clientConfig = clientConfig :=
  .of_act (fun h ha => (config_act ha).trans h) fun _ h => h

omit [ServerSession σ] [TlsSession κ] [LawfulServer σ] [LawfulSession κ] in
private theorem forwards_take {rw₀ : Rewriter} {zs : List MitmEvent} {m : TlsMitm σ κ H}
    (h : HttpForwards p rw₀ zs m) : HttpForwards p rw₀ zs m.takeTransactions.2 := by
  obtain ⟨t, hp, hf⟩ := h
  refine ⟨{ t with tap := t.tap.takeTransactions.2 }, ?_, hf⟩
  simp only [TlsMitm.takeTransactions, hp]

omit [ServerSession σ] [TlsSession κ] [LawfulServer σ] [LawfulSession κ] in
/-- A payload that is handed over before anything crosses. -/
private theorem forwards_provision {zs : List MitmEvent} {m : TlsMitm σ κ H}
    (h : HttpForwards p {} zs m) (hz : ∀ e ∈ zs, e = .finished) (css js : Str) :
    HttpForwards p (({} : Rewriter).setCosmetic css js) zs (m.setCosmetic css js) := by
  have hops : rewriterOps zs = [] := List.filterMap_eq_nil_iff.mpr fun e he => by rw [hz e he]; rfl
  obtain ⟨t, hp, emits, log, hrun, hlog, happ, hup⟩ := h
  have hrw : t.rewriter = {} := by
    rw [hops] at hrun
    exact (Prod.mk.inj (Except.ok.inj hrun)).2.symm
  refine ⟨{ t with rewriter := t.rewriter.setCosmetic css js }, ?_, ?_⟩
  · simp only [TlsMitm.setCosmetic, hp]
  · rw [hrw]
    refine .start hops ?_ ?_
    · exact List.flatMap_eq_nil_iff.mpr fun e he => by rw [hz e he]; rfl
    · exact List.flatMap_eq_nil_iff.mpr fun e he => by rw [hz e he]; rfl

omit [LawfulSession κ] in
/-- A splice that has not failed had not failed before the step. -/
private theorem not_failed {op : MitmOp} (hs : w.step p op = some w')
    (hg : Guarded w.events w.mitm) (hf : w'.mitm.failed = false) : w.mitm.failed = false := by
  by_contra hf'
  rw [((step_follows hs hg).later.failed (by simpa using hf')).1] at hf
  cases hf

omit [ServerSession σ] [TlsSession κ] [LawfulServer σ] [LawfulSession κ] in
private theorem unopened_of_waiting {zs : List MitmEvent} {m : TlsMitm σ κ H} [ServerSession σ]
    (hg : Guarded zs m) (hh : m.host = none) : m.client = none := by
  by_contra hc
  have := hg.opened (Option.isSome_iff_ne_none.mpr hc)
  rw [hh] at this
  cases this

omit [ServerSession σ] [TlsSession κ] [LawfulServer σ] [LawfulSession κ] in
private theorem settle_http {payload : Str → Str × Str} {t : Http}
    (hp : w.mitm.plaintext = .http t) :
    w.settle payload = (w.provisionCosmetics payload).drainMitmTransactions := by
  have hdns : w.mitm.isDns = false := by simp only [TlsMitm.isDns, hp]
  rw [settle, hdns, if_neg (by simp)]

omit [ServerSession σ] [TlsSession κ] [LawfulServer σ] [LawfulSession κ] in
private theorem drain_host (w : Interception σ κ H) :
    w.drainMitmTransactions.mitm.host = w.mitm.host := by
  unfold drainMitmTransactions TlsMitm.takeTransactions
  split <;> rfl

/-- A drive of a splice that has not been handed its payload. -/
private theorem Provisioned.drive_waiting {isBlocked : Str → Bool} {r : Pumped σ κ H}
    (payload : Str → Str × Str) (hcfg : clientConfig.Lawful) (h : Provisioned p clientConfig w)
    (hw : w.cosmetic = none) (hr : w.pump p isBlocked = .ok r) :
    (((w.pumped r).settle payload).cosmetic = none →
      ((w.pumped r).settle payload).mitm.host = none) ∧
    HttpForwards p (provisioned ((w.pumped r).settle payload).cosmetic)
      ((w.pumped r).settle payload).events ((w.pumped r).settle payload).mitm := by
  obtain ⟨t, hp, -⟩ := h.forwards
  have hc := unopened_of_waiting h.guarded (h.waiting hw)
  have hfirst : ∀ e ∈ r.events, e = .finished := by
    unfold pump at hr
    split_ifs at hr
    · exact TlsMitm.pumpImpl_first (h.config ▸ hcfg) hc (h.unnamed hc) hr
    · exact TlsMitm.pumpImpl_first (h.config ▸ hcfg) hc (h.unnamed hc) hr
  have hz : ∀ e ∈ w.events ++ r.events, e = .finished := by
    intro e he
    rcases List.mem_append.mp he with he | he
    · exact h.guarded.unopened hc e he
    · exact hfirst e he
  have hfwd : HttpForwards p {} (w.events ++ r.events) r.mitm := by
    have hf := h.forwards
    rw [hw] at hf
    exact (pump_acts hr).1.invariant (P := HttpForwards p {}) (fun h ha => h.act ha) hf
  obtain ⟨t', hp', -⟩ := id hfwd
  have hsettle : (w.pumped r).settle payload =
      ((w.pumped r).provisionCosmetics payload).drainMitmTransactions := settle_http hp'
  have hcos : (w.pumped r).cosmetic = none := hw
  have hmitm : (w.pumped r).mitm = r.mitm := rfl
  rw [hsettle]
  cases hh : r.mitm.host with
  | none =>
    have hstay : (w.pumped r).provisionCosmetics payload = w.pumped r := by
      simp only [provisionCosmetics, hcos, hmitm, hh]
    rw [hstay]
    refine ⟨fun _ => (drain_host _).trans hh, ?_⟩
    have htake := forwards_take hfwd
    have hnone : (w.pumped r).drainMitmTransactions.cosmetic = none := hw
    rw [hnone]
    exact htake
  | some host =>
    have hset : (w.pumped r).provisionCosmetics payload = { w.pumped r with
        mitm := r.mitm.setCosmetic (payload host).1 (payload host).2
        cosmetic := some (payload host) } := by
      simp only [provisionCosmetics, hcos, hmitm, hh]
    rw [hset]
    exact ⟨fun hn => (by cases hn), forwards_take (forwards_provision hfwd hz _ _)⟩

omit [LawfulSession κ] in
/-- A drive of a splice that has been handed its payload. -/
private theorem Provisioned.drive_provisioned {isBlocked : Str → Bool}
    {r : Pumped σ κ H} {c : Str × Str} (payload : Str → Str × Str)
    (h : Provisioned p clientConfig w) (hw : w.cosmetic = some c)
    (hr : w.pump p isBlocked = .ok r) :
    ((w.pumped r).settle payload).cosmetic = some c ∧
    HttpForwards p (provisioned (some c)) ((w.pumped r).settle payload).events
      ((w.pumped r).settle payload).mitm := by
  have hfwd : HttpForwards p (provisioned (some c)) (w.events ++ r.events) r.mitm := by
    have hf := h.forwards
    rw [hw] at hf
    exact (pump_acts hr).1.invariant (P := HttpForwards p (provisioned (some c)))
      (fun h ha => h.act ha) hf
  obtain ⟨t', hp', -⟩ := id hfwd
  have hsettle : (w.pumped r).settle payload =
      ((w.pumped r).provisionCosmetics payload).drainMitmTransactions := settle_http hp'
  have hcos : (w.pumped r).cosmetic = some c := hw
  have hstay : (w.pumped r).provisionCosmetics payload = w.pumped r := by
    simp only [provisionCosmetics, hcos]
  rw [hsettle, hstay]
  exact ⟨hw, forwards_take hfwd⟩

theorem Provisioned.step {op : MitmOp} (hcfg : clientConfig.Lawful)
    (h : Provisioned p clientConfig w) (hs : w.step p op = some w') :
    Provisioned p clientConfig w' := by
  have hg := (Guarded.keeps p).step hs h.guarded
  have hc := (config_keeps p clientConfig).step hs h.config
  have hok := not_failed hs h.guarded
  obtain ⟨m, -, hrecv, hacts, rfl⟩ | ⟨isBlocked, payload, r, -, hr, rfl⟩ | ⟨-, rfl⟩ :=
    step_cases hs
  · refine ⟨hg, hc, fun hn hf => ?_, fun hw => hrecv.host.trans (h.waiting hw), ?_⟩
    · rw [hrecv.handshake.serverName]
      exact h.unnamed (hrecv.client.mp hn) (hok hf)
    · obtain ⟨t, hp, hf⟩ := h.forwards
      exact ⟨t, hrecv.plaintext.trans hp, hf⟩
  · have hunnamed : ((w.pumped r).settle payload).mitm.client = none →
        ((w.pumped r).settle payload).mitm.failed = false →
        ServerSession.serverName ((w.pumped r).settle payload).mitm.server = none := by
      obtain ⟨t, cosmetic, txns, blocked, ht⟩ := settle_eq payload (w.pumped r)
      rw [ht]
      unfold pump at hr
      split_ifs at hr
      · exact TlsMitm.pumpImpl_unnamed hr
      · exact TlsMitm.pumpImpl_unnamed hr
    cases hw : w.cosmetic with
    | none =>
      obtain ⟨hwait, hfwd⟩ := h.drive_waiting payload hcfg hw hr
      exact ⟨hg, hc, hunnamed, hwait, hfwd⟩
    | some c =>
      obtain ⟨hset, hfwd⟩ := h.drive_provisioned payload hw hr
      refine ⟨hg, hc, hunnamed, fun hn => ?_, hset ▸ hfwd⟩
      rw [hset] at hn
      cases hn
  · obtain ⟨t, txns, ht⟩ := teardown_eq w
    refine ⟨hg, hc, ?_, ?_, ?_⟩
    · rw [ht] at hok ⊢
      exact fun hn hf => h.unnamed hn hf
    · rw [ht]
      exact h.waiting
    · have hfin := (TlsMitm.finish_acts p (fun _ => false) w.mitm).invariant
        (P := HttpForwards p (provisioned w.cosmetic)) (fun h ha => h.act ha) h.forwards
      exact forwards_take hfin

section Choice

omit [ServerSession σ] [TlsSession κ] [LawfulServer σ] [LawfulSession κ] in
/-- A payload is handed over once, for the host that is known then. -/
theorem settle_cosmetic (payload : Str → Str × Str) (w : Interception σ κ H) :
    (w.settle payload).cosmetic = w.cosmetic ∨ w.cosmetic = none ∧
      ∃ host, w.mitm.host = some host ∧ (w.settle payload).cosmetic = some (payload host) := by
  unfold settle drainMitmTransactions
  dsimp only
  split_ifs
  · exact Or.inl rfl
  · unfold provisionCosmetics
    split
    · next host hc hh => exact Or.inr ⟨hc, host, hh, rfl⟩
    · exact Or.inl rfl

/-- The payload `c` is what the engine of a drive has for the host: of the drive that learned it. -/
def Chosen (A : Automaton (Interception σ κ H) MitmOp) (ops : List MitmOp) (host : Option Str)
    (c : Str × Str) : Prop :=
  ∃ before isBlocked payload after w₀ w₁ name,
    ops = before ++ .drive isBlocked payload :: after ∧ A.run before = some w₀ ∧
      w₀.mitm.host = none ∧ A.step w₀ (.drive isBlocked payload) = some w₁ ∧
      w₁.mitm.host = some name ∧ host = some name ∧ c = payload name

variable {m : TlsMitm σ κ H} {ops : List MitmOp}

omit [LawfulSession κ] in
/-- A payload that was chosen stays, and so does the host. -/
private theorem Chosen.step {op : MitmOp} {c : Str × Str} (hg : Guarded w.events w.mitm)
    (h : Chosen (automaton p m) ops w.mitm.host c) (hs : w.step p op = some w') :
    Chosen (automaton p m) (ops ++ [op]) w'.mitm.host c := by
  obtain ⟨before, isBlocked, payload, after, w₀, w₁, name, rfl, hbefore, hnone, hdrive, hname, hhost,
    hc⟩ := h
  refine ⟨before, isBlocked, payload, after ++ [op], w₀, w₁, name, by simp, hbefore, hnone, hdrive,
    hname, ?_, hc⟩
  rw [(step_follows hs hg).later.host (by rw [hhost]; rfl)]
  exact hhost

omit [LawfulSession κ] in
/-- The payload that a splice has was chosen for its host. -/
private theorem chosen_step {op : MitmOp} (hrun : (automaton p m).run ops = some w)
    (hw : Provisioned p clientConfig w)
    (h : ∀ c, w.cosmetic = some c → Chosen (automaton p m) ops w.mitm.host c)
    (hs : w.step p op = some w') :
    ∀ c, w'.cosmetic = some c → Chosen (automaton p m) (ops ++ [op]) w'.mitm.host c := by
  intro c hc
  have hkept (hsame : w'.cosmetic = w.cosmetic) :
      Chosen (automaton p m) (ops ++ [op]) w'.mitm.host c :=
    (h c (hsame.symm.trans hc)).step hw.guarded hs
  obtain ⟨m', -, -, -, rfl⟩ | ⟨isBlocked, payload, r, rfl, hr, rfl⟩ | ⟨-, rfl⟩ := step_cases (id hs)
  · exact hkept rfl
  · rcases settle_cosmetic payload (w.pumped r) with hsame | ⟨hnone, name, hname, hset⟩
    · exact hkept hsame
    · obtain ⟨t, cosmetic, txns, blocked, ht⟩ := settle_eq payload (w.pumped r)
      have hhost : ((w.pumped r).settle payload).mitm.host = some name := by
        rw [ht]
        exact hname
      refine ⟨ops, isBlocked, payload, [], w, _, name, rfl, hrun, hw.waiting hnone, hs, hhost, hhost,
        ?_⟩
      exact Option.some.inj (hc.symm.trans hset)
  · obtain ⟨t, txns, ht⟩ := teardown_eq w
    exact hkept (by rw [ht])

end Choice

/-- In every order of arrivals, drives and the teardown, and whatever the engine is at each drive:
what an HTTP splice writes to either side is what one rewriter, with the payload of the host from
the first byte on, makes of what was read from the other. The payload is what the engine had for
the host when that was learned. Without one, what is written is what was read; with one, the
requests go upstream with `identity` asked for, while no response gives the rewriter up. -/
theorem splice_forwards (p : Profile) (server : σ) (clientConfig : ClientConfig κ)
    (hcfg : clientConfig.Lawful) (hserver : ServerSession.serverName server = none)
    {ops : List MitmOp}
    (hrun : (automaton p (.withPlaintext server clientConfig (.http {} : Plaintext H))).run ops =
      some w) :
    (w.mitm.host.isSome = true → w.cosmetic.isSome = true) ∧
    (∀ c, w.cosmetic = some c →
      Chosen (automaton p (.withPlaintext server clientConfig (.http {} : Plaintext H))) ops
        w.mitm.host c) ∧
    (∃ emits log rw, (provisioned w.cosmetic).runOps p (rewriterOps w.events) = .ok (emits, rw) ∧
      (provisioned w.cosmetic).logOps p (rewriterOps w.events) = .ok (log, rw) ∧
      w.events.flatMap MitmEvent.toApp = emits.flatMap RespEmit.render ∧
      w.events.flatMap MitmEvent.toUpstream = log.sent) ∧
    ((provisioned w.cosmetic).active = false →
      w.events.flatMap MitmEvent.toUpstream = w.events.flatMap MitmEvent.rawFromApp ∧
      w.events.flatMap MitmEvent.toApp = w.events.flatMap MitmEvent.rawFromUpstream) ∧
    ((provisioned w.cosmetic).active = true →
      (provisioned w.cosmetic).Steady p (rewriterOps w.events) →
      ∀ written kept heads,
        Requests .head (w.events.flatMap MitmEvent.rawFromApp) written kept heads →
        w.events.flatMap MitmEvent.toUpstream = written) := by
  have hstart : Provisioned p clientConfig
      { mitm := .withPlaintext server clientConfig (.http {} : Plaintext H) } :=
    ⟨guarded_start server clientConfig _, rfl, fun _ _ => hserver, fun _ => rfl,
      {}, rfl, .start rfl rfl rfl⟩
  have hinit : (automaton p (.withPlaintext server clientConfig (.http {} : Plaintext H))).run [] =
      some { mitm := .withPlaintext server clientConfig (.http {} : Plaintext H) } := rfl
  obtain ⟨-, h, hchosen⟩ := Automaton.runFrom_history
    (A := automaton p (.withPlaintext server clientConfig (.http {} : Plaintext H)))
    (R := fun w ops =>
      (automaton p (.withPlaintext server clientConfig (.http {} : Plaintext H))).run ops = some w ∧
      Provisioned p clientConfig w ∧ ∀ c, w.cosmetic = some c →
        Chosen (automaton p (.withPlaintext server clientConfig (.http {} : Plaintext H))) ops
          w.mitm.host c)
    (fun w ops op w' hw hs => ⟨Automaton.run_concat hw.1 hs, hw.2.1.step hcfg hs,
      chosen_step hw.1 hw.2.1 hw.2.2 hs⟩)
    ⟨hinit, hstart, fun c hc => (by cases hc)⟩ hrun
  obtain ⟨t, -, emits, log, hops, hlog, happ, hup⟩ := h.forwards
  obtain ⟨active, blob, hfresh⟩ := provisioned_fresh w.cosmetic
  refine ⟨fun hh => ?_, hchosen, ⟨emits, log, _, hops, hlog, happ, hup⟩, fun hoff => ?_,
    fun hon hsteady written kept heads hreq => ?_⟩
  · by_contra hc
    rw [h.waiting (by simpa using hc)] at hh
    cases hh
  · have hbufs : (provisioned w.cosmetic).reqBuf = [] ∧ (provisioned w.cosmetic).respBuf = [] := by
      rw [hfresh]
      exact ⟨rfl, rfl⟩
    obtain ⟨hrender, hsent⟩ := Rewriter.runOps_inactive hoff hbufs.1 hbufs.2 hops hlog
    rw [requestFed_rewriterOps] at hsent
    rw [responseFed_rewriterOps] at hrender
    exact ⟨hup.trans hsent, happ.trans hrender⟩
  · have hrests : (provisioned w.cosmetic).Rests := by
      rw [hfresh]
      exact Or.inr (Or.inl ⟨rfl, rfl, Nat.zero_le _⟩)
    have hahead : (provisioned w.cosmetic).Ahead (Rewriter.requestFed (rewriterOps w.events))
        written kept heads := by
      rw [hfresh, requestFed_rewriterOps]
      exact .of hreq rfl
    exact hup.trans (Rewriter.logOps_ahead hon hrests hahead hsteady hlog).1

private def handshakes : List MitmOp :=
  [.fromApp (PlainSession.record 1 (ascii "a.b")), .drive (fun _ => false) (fun _ => (Str.lit "x", [])),
    .fromUpstream (PlainSession.record 20 []), .fromApp (PlainSession.record 20 []),
    .drive (fun _ => false) (fun _ => ([], []))]

private def pageLoad : List MitmOp :=
  handshakes ++ [.fromApp (PlainSession.record 23 (ascii "HEAD / HTTP/1.1\r\nHost: a.b\r\n\r\n")),
    .drive (fun _ => false) (fun _ => ([], []))]

private def askedHost : Bytes :=
  ascii "HEAD / HTTP/1.1\r\nHost: a.b\r\nAccept-Encoding: identity\r\n\r\n"

private def pageSplice : Automaton (Interception PlainSession PlainSession literalHpack) MitmOp :=
  automaton .release (.withPlaintext {} PlainSession.clientConfig (.http {}))

/-- A request on a splice with a payload. -/
theorem splice_forwards_request : ∃ w : Interception PlainSession PlainSession literalHpack,
    pageSplice.run pageLoad = some w ∧
      w.cosmetic = some (Str.lit "x", []) ∧ w.events.flatMap MitmEvent.toUpstream = askedHost ∧
      Chosen pageSplice pageLoad w.mitm.host (Str.lit "x", []) ∧
      ∃ emits log rw,
        (provisioned w.cosmetic).runOps .release (rewriterOps w.events) = .ok (emits, rw) ∧
        (provisioned w.cosmetic).logOps .release (rewriterOps w.events) = .ok (log, rw) ∧
        log.sent = askedHost := by
  have hrun : ((pageSplice.run pageLoad).map fun w =>
      (w.cosmetic, w.events.flatMap MitmEvent.toUpstream)) =
      some (some (Str.lit "x", []), askedHost) := by decide +kernel
  obtain ⟨w, hw, hvals⟩ := Option.map_eq_some_iff.mp hrun
  obtain ⟨hc, hup⟩ := Prod.mk.inj hvals
  obtain ⟨-, hchosen, ⟨emits, log, rw, hops, hlog, -, hsent⟩, -, -⟩ := splice_forwards .release
    ({} : PlainSession) PlainSession.clientConfig PlainSession.clientConfig_lawful rfl hw
  exact ⟨w, hw, hc, hup, hchosen _ hc, emits, log, rw, hops, hlog, hsent.symm.trans hup⟩

end Interception

end Adwarden.Tls
