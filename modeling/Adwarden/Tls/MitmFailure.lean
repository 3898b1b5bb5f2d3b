import Adwarden.Tls.MitmRun

/-! How a splice fails and closes: the first failure is kept, and an app is only said to have
refused the certificate while nothing of its plaintext has been read. -/
namespace Adwarden.Tls
open Adwarden.Lib

variable {σ κ : Type} {H : Hpack} [ServerSession σ]

/-- What holds of a splice and the record of its plaintext, from its start on. -/
structure Guarded (zs : List MitmEvent) (m : TlsMitm σ κ H) : Prop where
  rejected : m.certRejected = true → m.failed = true ∧ TlsSession.isHandshaking m.server = true
  read : ∀ raw out, .fromApp raw out ∈ zs → TlsSession.isHandshaking m.server = false
  unopened : m.client = none → ∀ e ∈ zs, e = .finished
  opened : m.client.isSome = true → m.host.isSome = true
  unnamed : m.client = none → m.failed = false → m.host = none

namespace Guarded

variable {p : Profile} {isBlocked : Str → Bool} {zs xs : List MitmEvent} {m m' : TlsMitm σ κ H}

theorem withPlaintext (h : Guarded zs m) (t : Plaintext H) :
    Guarded zs { m with plaintext := t } :=
  ⟨h.rejected, h.read, h.unopened, h.opened, h.unnamed⟩

theorem finished (h : Guarded zs m) : Guarded (zs ++ [.finished]) m where
  rejected := h.rejected
  read := by simpa using h.read
  unopened hn e he := by
    rcases List.mem_append.mp he with he | he
    · exact h.unopened hn e he
    · exact List.mem_singleton.mp he
  opened := h.opened
  unnamed := h.unnamed

theorem fail (h : Guarded zs m) (side : FailSide) : Guarded zs (m.markFailed side) := by
  unfold TlsMitm.markFailed
  split_ifs
  · exact h
  · refine ⟨fun hr => ⟨rfl, ?_⟩, h.read, h.unopened, h.opened, fun _ hf => (by cases hf)⟩
    simp only [Bool.and_eq_true] at hr
    exact hr.2

/-- Plaintext of the app crosses, which is read once the handshake is over. -/
theorem fromApp (h : Guarded zs m) {raw : Bytes} {out : DnsCross} {s : σ} {c : κ} {t : Plaintext H}
    (hc : m.client.isSome = true) (hopen : TlsSession.isHandshaking m.server = false)
    (hs : SameHandshake m.server s) : Guarded (zs ++ [.fromApp raw out])
      { m with server := s, client := some c, plaintext := t } where
  rejected hr := by
    rw [(h.rejected hr).2] at hopen
    cases hopen
  read _ _ _ := hs.isHandshaking.trans hopen
  unopened hn := by cases hn
  opened _ := h.opened hc
  unnamed hn := by cases hn

theorem fromUpstream (h : Guarded zs m) {raw out : Bytes} {s : σ} {c : κ} {t : Plaintext H}
    (hc : m.client.isSome = true) (hs : SameHandshake m.server s) :
    Guarded (zs ++ [.fromUpstream raw out])
      { m with server := s, client := some c, plaintext := t } where
  rejected hr := by
    obtain ⟨hf, hh⟩ := h.rejected hr
    exact ⟨hf, hs.isHandshaking.trans hh⟩
  read raw' out' hmem := by
    have := h.read raw' out' (by simpa using hmem)
    exact hs.isHandshaking.trans this
  unopened hn := by cases hn
  opened _ := h.opened hc
  unnamed hn := by cases hn

variable [TlsSession κ] [LawfulServer σ]

omit [TlsSession κ] in
theorem handshake_over {s s' : σ} {n : ℕ} {raw : Bytes} (hn : 0 < n)
    (h : TlsSession.read s n = some (raw, s')) : TlsSession.isHandshaking s = false := by
  by_contra hh
  have hr := LawfulSession.readable_handshaking s (by simpa using hh)
  rw [(LawfulSession.read_eq_none s n hn).mpr hr] at h
  cases h

theorem act (h : Guarded zs m) (ha : m.Act p isBlocked xs m') : Guarded (zs ++ xs) m' := by
  cases ha with
  | @server s hs =>
    rw [List.append_nil]
    constructor
    · intro hr
      obtain ⟨hf, hh⟩ := h.rejected hr
      exact ⟨hf, hs.isHandshaking.trans hh⟩
    · exact fun raw out hmem => hs.isHandshaking.trans (h.read raw out hmem)
    · exact h.unopened
    · exact h.opened
    · exact h.unnamed
  | packets closed hf =>
    rw [List.append_nil]
    refine ⟨fun hr => ?_, fun raw out hmem => ?_, h.unopened, h.opened, h.unnamed⟩
    · rw [(h.rejected hr).1] at hf
      cases hf
    · by_contra hh
      have := LawfulServer.processNewPackets m.server (by simpa using hh)
      rw [h.read raw out hmem] at this
      cases this
  | client closed hc =>
    rw [List.append_nil]
    exact ⟨h.rejected, h.read, fun hn => (by cases hn), fun _ => h.opened (by rw [hc]; rfl),
      fun hn => (by cases hn)⟩
  | fail side =>
    rw [List.append_nil]
    exact h.fail side
  | opened hf hc hn hconnect =>
    rw [List.append_nil]
    exact ⟨h.rejected, h.read, fun hn => (by cases hn), fun _ => rfl, fun hn => (by cases hn)⟩
  | @refused name hf hc hn =>
    rw [List.append_nil]
    have hfail : ({ m with host := some name, plaintext := m.plaintext.setHost name } :
        TlsMitm σ κ H).markFailed .other = { m with
          host := some name, plaintext := m.plaintext.setHost name, failed := true
          certRejected := false } := by
      simp [TlsMitm.markFailed, hf]
    rw [hfail]
    exact ⟨fun hr => (by cases hr), h.read, h.unopened, fun _ => rfl, fun _ hf => (by cases hf)⟩
  | @request t c raw s x l hc hp hread hx =>
    obtain ⟨rfl, rfl⟩ := Prod.mk.inj (Except.ok.inj hx)
    exact h.fromApp (by rw [hc]; rfl) (handshake_over (by decide) hread)
      (LawfulServer.read _ _ _ _ hread)
  | @response t c c' raw x l hc hp hread hx =>
    obtain ⟨r, -, hr⟩ := exists_of_map_ok hx
    obtain ⟨rfl, rfl⟩ := Prod.mk.inj hr
    exact h.fromUpstream (by rw [hc]; rfl) (LawfulServer.writeAll _ _)
  | @query d c raw s x l hc hp hread hx =>
    obtain ⟨r, -, hr⟩ := exists_of_map_ok hx
    obtain ⟨rfl, rfl⟩ := Prod.mk.inj hr
    have hs := LawfulServer.read _ _ _ _ hread
    refine h.fromApp (by rw [hc]; rfl) (handshake_over (by decide) hread) ?_
    dsimp only
    split_ifs
    · exact hs
    · exact hs.trans (LawfulServer.writeAll _ _)
  | @answer d c c' raw x l hc hp hread hx =>
    obtain ⟨rfl, rfl⟩ := Prod.mk.inj (Except.ok.inj hx)
    exact h.fromUpstream (by rw [hc]; rfl) (LawfulServer.writeAll _ _)
  | finish =>
    obtain ⟨t, ht⟩ := m.finish_eq
    rw [ht]
    exact (h.withPlaintext t).finished

theorem keeps (p : Profile) : Interception.Keeps p (Guarded (σ := σ) (κ := κ) (H := H)) :=
  .of_act act fun t h => h.withPlaintext t

end Guarded

/-- What a splice does not take back. -/
structure Later (m₀ m : TlsMitm σ κ H) : Prop where
  failed : m₀.failed = true → m.failed = true ∧ m.certRejected = m₀.certRejected
  appClosed : m₀.appClosed = true → m.appClosed = true
  upstreamClosed : m₀.upstreamClosed = true → m.upstreamClosed = true
  host : m₀.host.isSome = true → m.host = m₀.host

namespace Later

variable {p : Profile} {isBlocked : Str → Bool} {zs xs : List MitmEvent} {m₀ m m' : TlsMitm σ κ H}

omit [ServerSession σ] in
theorem refl (m : TlsMitm σ κ H) : Later m m := ⟨fun h => ⟨h, rfl⟩, id, id, fun _ => rfl⟩

omit [ServerSession σ] in
theorem trans {m₁ m₂ m₃ : TlsMitm σ κ H} (h : Later m₁ m₂) (h' : Later m₂ m₃) : Later m₁ m₃ where
  failed hf := by
    obtain ⟨hf₂, hr⟩ := h.failed hf
    obtain ⟨hf₃, hr'⟩ := h'.failed hf₂
    exact ⟨hf₃, hr'.trans hr⟩
  appClosed hc := h'.appClosed (h.appClosed hc)
  upstreamClosed hc := h'.upstreamClosed (h.upstreamClosed hc)
  host hh := by
    have heq := h.host hh
    rw [h'.host (by rwa [heq]), heq]

theorem fail (h : Later m₀ m) (side : FailSide) : Later m₀ (m.markFailed side) := by
  unfold TlsMitm.markFailed
  split_ifs with hf
  · exact h
  · exact ⟨fun h₀ => absurd (h.failed h₀).1 hf, h.appClosed, h.upstreamClosed, h.host⟩

/-- The host is not known yet when the upstream session is started. -/
theorem not_named (h : Later m₀ m) (hg : Guarded zs m) (hf : m.failed = false)
    (hc : m.client = none) : ¬ m₀.host.isSome = true := by
  intro h₀
  rw [← h.host h₀, hg.unnamed hc hf] at h₀
  cases h₀

omit [ServerSession σ] in
theorem withPlaintext (h : Later m₀ m) (t : Plaintext H) : Later m₀ { m with plaintext := t } :=
  ⟨h.failed, h.appClosed, h.upstreamClosed, h.host⟩

variable [TlsSession κ]

theorem act (h : Later m₀ m) (hg : Guarded zs m) (ha : m.Act p isBlocked xs m') : Later m₀ m' := by
  cases ha with
  | server hs => exact ⟨h.failed, h.appClosed, h.upstreamClosed, h.host⟩
  | packets closed hf =>
    exact ⟨h.failed, fun h₀ => (by simp [h.appClosed h₀]), h.upstreamClosed, h.host⟩
  | client closed hc =>
    exact ⟨h.failed, h.appClosed, fun h₀ => (by simp [h.upstreamClosed h₀]), h.host⟩
  | fail side => exact h.fail side
  | opened hf hc hn hconnect =>
    exact ⟨h.failed, h.appClosed, h.upstreamClosed, fun h₀ => absurd h₀ (h.not_named hg hf hc)⟩
  | @refused name hf hc hn =>
    have hnamed : Later m₀ { m with host := some name, plaintext := m.plaintext.setHost name } :=
      ⟨h.failed, h.appClosed, h.upstreamClosed, fun h₀ => absurd h₀ (h.not_named hg hf hc)⟩
    exact hnamed.fail .other
  | request => exact ⟨h.failed, h.appClosed, h.upstreamClosed, h.host⟩
  | response => exact ⟨h.failed, h.appClosed, h.upstreamClosed, h.host⟩
  | query => exact ⟨h.failed, h.appClosed, h.upstreamClosed, h.host⟩
  | answer => exact ⟨h.failed, h.appClosed, h.upstreamClosed, h.host⟩
  | finish =>
    obtain ⟨t, ht⟩ := m.finish_eq
    rw [ht]
    exact ⟨h.failed, h.appClosed, h.upstreamClosed, h.host⟩

variable [LawfulServer σ]

theorem keeps (p : Profile) (m₀ : TlsMitm σ κ H) :
    Interception.Keeps p fun zs m => Guarded zs m ∧ Later m₀ m :=
  .of_act (fun h ha => ⟨h.1.act ha, h.2.act h.1 ha⟩)
    fun t h => ⟨h.1.withPlaintext t, h.2.withPlaintext t⟩

end Later

namespace Interception

variable [TlsSession κ] [LawfulServer σ] {p : Profile} {m : TlsMitm σ κ H}
  {w w' : Interception σ κ H}

omit [TlsSession κ] [LawfulServer σ] in
theorem guarded_start (server : σ) (clientConfig : ClientConfig κ) (plaintext : Plaintext H) :
    Guarded [] (TlsMitm.withPlaintext server clientConfig plaintext) :=
  ⟨fun hr => (by cases hr), fun _ _ hmem => (by cases hmem), fun _ _ hmem => (by cases hmem),
    fun hc => (by cases hc), fun _ _ => rfl⟩

/-- Both sides have closed, or the splice has failed. -/
def Over (m : TlsMitm σ κ H) : Prop :=
  m.failed = true ∨ (m.appClosed = true ∧ m.upstreamClosed = true)

omit [ServerSession σ] [TlsSession κ] [LawfulServer σ] in
theorem Over.later {m m' : TlsMitm σ κ H} (h : Over m) (hl : Later m m') : Over m' := by
  rcases h with hf | ⟨ha, hu⟩
  · exact Or.inl (hl.failed hf).1
  · exact Or.inr ⟨hl.appClosed ha, hl.upstreamClosed hu⟩

theorem pump_closed {isBlocked : Str → Bool} {r : Pumped σ κ H} (h : w.pump p isBlocked = .ok r) :
    r.io.closed = true ↔ Over r.mitm := by
  rw [(pump_acts h).2]
  simp [Over]

/-- The state after a step against the one before it. -/
structure Follows (w w' : Interception σ κ H) : Prop where
  guarded : Guarded w'.events w'.mitm
  later : Later w.mitm w'.mitm
  ended : (w.closed = true → Over w.mitm) → w'.closed = true → Over w'.mitm
  closed : (w.closed = true → Over w.mitm) → w.closed = true → w'.closed = true
  stopped : w.mitm.failed = true → w'.toApp = w.toApp ∧ w'.toUpstream = w.toUpstream ∧
    ∃ k, w'.events = w.events ++ List.replicate k .finished

theorem step_follows {op : MitmOp} (hs : w.step p op = some w') (hg : Guarded w.events w.mitm) :
    Follows w w' := by
  obtain ⟨hg', hl⟩ := (Later.keeps p w.mitm).step hs ⟨hg, .refl w.mitm⟩
  obtain ⟨m, -, -, -, rfl⟩ | ⟨isBlocked, payload, r, -, hr, rfl⟩ | ⟨-, rfl⟩ := step_cases hs
  · exact ⟨hg', hl, fun hw hc => (hw hc).later hl, fun _ => id, fun _ => ⟨rfl, rfl, 0, by simp⟩⟩
  · obtain ⟨t, cosmetic, txns, blocked, ht⟩ := settle_eq payload (w.pumped r)
    rw [ht] at hg' hl ⊢
    have hover : r.io.closed = true ↔ Over r.mitm := pump_closed hr
    have hlr : Later w.mitm r.mitm := ⟨hl.failed, hl.appClosed, hl.upstreamClosed, hl.host⟩
    refine ⟨hg', hl, fun _ hc => hover.mp hc, fun hw hc => hover.mpr ((hw hc).later hlr), ?_⟩
    intro hf
    obtain rfl := Except.ok.inj (hr.symm.trans (pump_failed isBlocked hf))
    exact ⟨by simp [pumped, TlsMitm.failedPump], by simp [pumped, TlsMitm.failedPump], 0,
      by simp [pumped, TlsMitm.failedPump]⟩
  · obtain ⟨t, txns, ht⟩ := teardown_eq w
    rw [ht] at hg' hl ⊢
    exact ⟨hg', hl, fun hw hc => (hw hc).later hl, fun _ => id, fun _ => ⟨rfl, rfl, 1, rfl⟩⟩

omit [TlsSession κ] [LawfulServer σ] in
theorem Follows.refl (hg : Guarded w.events w.mitm) : Follows w w :=
  ⟨hg, .refl _, id, fun _ => id, fun _ => ⟨rfl, rfl, 0, by simp⟩⟩

omit [TlsSession κ] [LawfulServer σ] in
theorem Follows.trans {w₁ w₂ w₃ : Interception σ κ H} (h : Follows w₁ w₂) (h' : Follows w₂ w₃) :
    Follows w₁ w₃ where
  guarded := h'.guarded
  later := h.later.trans h'.later
  ended hw := h'.ended (h.ended hw)
  closed hw hc := h'.closed (h.ended hw) (h.closed hw hc)
  stopped hf := by
    obtain ⟨ha, hu, k, he⟩ := h.stopped hf
    obtain ⟨ha', hu', k', he'⟩ := h'.stopped (h.later.failed hf).1
    refine ⟨ha'.trans ha, hu'.trans hu, k + k', ?_⟩
    rw [he', he, List.append_assoc, ← List.replicate_add]

theorem run_follows {ops : List MitmOp} (hg : Guarded w.events w.mitm)
    (hrun : (automaton p m).runFrom w ops = some w') : Follows w w' :=
  Automaton.Keeps.runFrom (A := automaton p m) (P := Follows w)
    (fun _ _ _ hw hs => hw.trans (step_follows hs hw.guarded)) (.refl hg) hrun

/-- In every order of arrivals, drives and the teardown: an app is only said to have refused the
certificate when none of its plaintext has been read, nothing crosses before the host is known, a
splice that was reported closed is reported closed from then on, its host does not change, and
after a failure neither side is given anything, and its cause does not change. -/
theorem splice_failure_latches (p : Profile) (server : σ) (clientConfig : ClientConfig κ)
    (plaintext : Plaintext H) {ops more : List MitmOp}
    (hw : (automaton p (.withPlaintext server clientConfig plaintext)).run ops = some w)
    (hw' : (automaton p (.withPlaintext server clientConfig plaintext)).runFrom w more = some w') :
    (w.mitm.certRejected = true →
      w.mitm.failed = true ∧ ∀ raw out, .fromApp raw out ∉ w.events) ∧
    (∀ e ∈ w.events, e ≠ .finished → w.mitm.host.isSome = true ∧ w.mitm.client.isSome = true) ∧
    (w.closed = true → w'.closed = true) ∧
    (w.mitm.host.isSome = true → w'.mitm.host = w.mitm.host) ∧
    (w.mitm.failed = true →
      w'.mitm.failed = true ∧ w'.mitm.certRejected = w.mitm.certRejected ∧
      w'.toApp = w.toApp ∧ w'.toUpstream = w.toUpstream ∧
      (∃ k, w'.events = w.events ++ List.replicate k .finished) ∧
      ∀ isBlocked payload w'', w'.step p (.drive isBlocked payload) = some w'' →
        w''.closed = true) := by
  have hfirst : Follows _ w := run_follows (guarded_start server clientConfig plaintext) hw
  have hthen := run_follows hfirst.guarded hw'
  have hover : w.closed = true → Over w.mitm := hfirst.ended fun hc => (by cases hc)
  refine ⟨?_, ?_, hthen.closed hover, hthen.later.host, ?_⟩
  · intro hr
    obtain ⟨hf, hh⟩ := hfirst.guarded.rejected hr
    refine ⟨hf, fun raw out hmem => ?_⟩
    rw [hfirst.guarded.read raw out hmem] at hh
    cases hh
  · intro e he hne
    have hc : w.mitm.client.isSome = true := by
      by_contra hc
      exact hne (hfirst.guarded.unopened (by simpa using hc) e he)
    exact ⟨hfirst.guarded.opened hc, hc⟩
  · intro hf
    obtain ⟨hf', hr⟩ := hthen.later.failed hf
    obtain ⟨ha, hu, k, hk⟩ := hthen.stopped hf
    refine ⟨hf', hr, ha, hu, ⟨k, hk⟩, ?_⟩
    intro isBlocked payload w'' hs
    obtain ⟨m, hop, -⟩ | ⟨isBlocked', payload', r, -, hr, rfl⟩ | ⟨hop, -⟩ := step_cases hs
    · exact absurd rfl (hop isBlocked payload)
    · obtain rfl := Except.ok.inj (hr.symm.trans (pump_failed isBlocked' hf'))
      obtain ⟨t, cosmetic, txns, blocked, ht⟩ :=
        settle_eq payload' (w'.pumped (TlsMitm.failedPump [] w'.mitm))
      rw [ht]
      rfl
    · cases hop

/-- An app that sends an alert where its handshake should end. -/
private def refusal : List MitmOp :=
  [.fromApp (PlainSession.record 1 (ascii "a.b")), .drive (fun _ => false) (fun _ => ([], [])),
    .fromApp (PlainSession.record 21 []), .drive (fun _ => false) (fun _ => ([], []))]

private def afterRefusal : List MitmOp :=
  [.fromApp (PlainSession.record 20 []), .fromUpstream (PlainSession.record 20 []),
    .drive (fun _ => false) (fun _ => ([], []))]

private def plainSplice : Automaton (Interception PlainSession PlainSession literalHpack) MitmOp :=
  automaton .release (.withPlaintext {} PlainSession.clientConfig (.http {}))

theorem splice_failure_latches_refusal : ∃ w w',
    plainSplice.run refusal = some w ∧ plainSplice.runFrom w afterRefusal = some w' ∧
      w.mitm.certRejected = true ∧ (∀ raw out, .fromApp raw out ∉ w.events) ∧
      w'.mitm.certRejected = true ∧ w'.closed = true := by
  have hrun : (plainSplice.run refusal).map (fun w => (w.mitm.certRejected, w.closed)) =
      some (true, true) := by decide +kernel
  have hmore : (plainSplice.runFrom plainSplice.init (refusal ++ afterRefusal)).isSome = true := by
    decide +kernel
  obtain ⟨w', hall⟩ := Option.isSome_iff_exists.mp hmore
  obtain ⟨w, hw, hw'⟩ := plainSplice.runFrom_append.mp hall
  have hr : plainSplice.run refusal = some w := hw
  rw [hr] at hrun
  obtain ⟨hrej, hcl⟩ := by simpa using hrun
  obtain ⟨hfirst, -, hclosed, -, hfailed⟩ := splice_failure_latches .release ({} : PlainSession)
    PlainSession.clientConfig (.http {} : Plaintext literalHpack) hr hw'
  obtain ⟨hf, hnone⟩ := hfirst hrej
  exact ⟨w, w', hr, hw', hrej, hnone, (hfailed hf).2.1.trans hrej, hclosed hcl⟩

end Interception

end Adwarden.Tls
