import Adwarden.Core.ProxyRun
import Adwarden.Core.Sessions

/-! Where the datagrams of a SOCKS5 association go: to a relay that the proxy has announced on the
control connection. -/
namespace Adwarden.Core
open Relation Adwarden.Lib Adwarden.Net Adwarden.Tls

namespace Handshake

/-- `h` is where `start` is after it has been sent `read`: they have the same outlook on all that
may follow. -/
def Resumes (start : Handshake) (read : Bytes) (h : Handshake) : Prop :=
  ∀ more, (start.outlook (read ++ more)).2 = (h.outlook (h.inbuf ++ more)).2

variable {start h h' : Handshake} {read input : Bytes}

theorem Resumes.refl (hempty : h.inbuf = []) : h.Resumes [] h := by
  intro more
  rw [hempty]

/-- A step that does not fail goes on from there, or opens what the bytes so far open. -/
theorem Resumes.step {answer : Except ProxyError Step} (hr : start.Resumes read h)
    (hs : h.step input = (answer, h')) :
    match answer with
    | .ok (.done leftover) => (start.outlook (read ++ input)).2 = .opened h'.bound leftover
    | .ok _ => start.Resumes (read ++ input) h'
    | .error _ => True := by
  by_cases hcap : handshakeBufCap < (h.inbuf ++ input).length
  · rw [step_overflow hcap] at hs
    obtain ⟨rfl, -⟩ := Prod.mk.inj hs
    trivial
  · have hcase := step_case h input (Nat.not_lt.mp hcap)
    rw [hs] at hcase
    cases hcase with
    | error _ => trivial
    | done hb =>
      dsimp only
      rw [hr input, hb]
    | write hx _ _ =>
      intro more
      rw [List.append_assoc, hr, ← List.append_assoc, hx]
    | read _ =>
      intro more
      rw [List.append_assoc, hr, ← List.append_assoc]
      exact congrArg Prod.snd (outlook_inbuf _ _ _).symm

end Handshake

theorem flushIo_input (io : UpstreamIo) (out : Bytes) :
    (flushIo io out).2.1.unread = io.unread ∧ (flushIo io out).2.1.fin = io.fin := by
  unfold flushIo
  split_ifs
  · exact ⟨rfl, rfl⟩
  · obtain ⟨writes, failed, hsend⟩ := io.send_frame out
    dsimp only
    rw [hsend]
    exact ⟨rfl, rfl⟩

/-- Where a handshake is that has been sent `read` since it was at `start`. -/
def Handshake.Reaches (start : Handshake) (read : Bytes) : HsPump × Driving → Prop
  | (.pending, d) => start.Resumes read d.hs
  | (.done leftover, d) => (start.outlook read).2 = .opened d.hs.bound leftover
  | (.failed, _) => True

section Driving

variable {start : Handshake} {read input : Bytes} {d : Driving}

/-- The fuel only runs out once the input has been fed. -/
theorem stepLoop_reaches {eof : Bool} {n : ℕ} (hn : 0 < n ∨ input = [])
    (hr : start.Resumes read d.hs) :
    start.Reaches (read ++ input) (stepLoop eof n input d) ∧
      (stepLoop eof n input d).2.io.unread = d.io.unread ∧
      (stepLoop eof n input d).2.io.fin = d.io.fin := by
  induction n generalizing read input d with
  | zero =>
    obtain rfl := hn.resolve_left (Nat.lt_irrefl 0)
    rw [List.append_nil]
    exact ⟨hr, rfl, rfl⟩
  | succ n ih =>
    unfold stepLoop
    rcases hs : d.hs.step input with ⟨answer, h'⟩
    have hstep := hr.step hs
    rcases answer with e | bytes | _ | leftover
    · exact ⟨trivial, rfl, rfl⟩
    · dsimp only
      have hflush := flushIo_input d.io (d.hsOut ++ bytes)
      split_ifs
      · exact ⟨trivial, hflush⟩
      · exact ⟨hstep, hflush⟩
      · have hrest := @ih (read ++ input) []
          ⟨(flushIo d.io (d.hsOut ++ bytes)).2.1, h', (flushIo d.io (d.hsOut ++ bytes)).2.2⟩
          (Or.inr rfl) hstep
        rw [List.append_nil] at hrest
        exact ⟨hrest.1, hrest.2.1.trans hflush.1, hrest.2.2.trans hflush.2⟩
    · cases eof with
      | true => exact ⟨trivial, rfl, rfl⟩
      | false => exact ⟨hstep, rfl, rfl⟩
    · exact ⟨hstep, rfl, rfl⟩

/-- A pump of the handshake takes some of what has arrived. -/
theorem pumpHandshake_reaches (chunk : ℕ) (hr : start.Resumes read d.hs) :
    ∃ input, d.io.unread = input ++ (pumpHandshake chunk d).2.io.unread ∧
      (pumpHandshake chunk d).2.io.fin = d.io.fin ∧
      start.Reaches (read ++ input) (pumpHandshake chunk d) := by
  have hflush := flushIo_input d.io d.hsOut
  unfold pumpHandshake
  extract_lets out d₁ r d₂
  split_ifs
  · exact ⟨[], hflush.1.symm, hflush.2, trivial⟩
  · refine ⟨[], hflush.1.symm, hflush.2, ?_⟩
    rw [List.append_nil]
    exact hr
  · obtain ⟨hunread, hfin⟩ := d₁.io.readAll_split chunk
    have hsplit : d.io.unread = r.1 ++ r.2.2.unread := hflush.1.symm.trans hunread.symm
    have hfin : r.2.2.fin = d.io.fin := hfin.trans hflush.2
    have hloop (eof : Bool) : ∃ input, d.io.unread = input ++ (stepLoop eof 5 r.1 d₂).2.io.unread ∧
        (stepLoop eof 5 r.1 d₂).2.io.fin = d.io.fin ∧
        start.Reaches (read ++ input) (stepLoop eof 5 r.1 d₂) := by
      obtain ⟨hreach, hu, hf⟩ := @stepLoop_reaches start read r.1 d₂ eof 5 (Or.inl (by decide)) hr
      exact ⟨r.1, by rw [hu]; exact hsplit, hf.trans hfin, hreach⟩
    split
    · exact ⟨r.1, hsplit, hfin, trivial⟩
    · exact hloop true
    · exact hloop false

end Driving

/-- What a proxy has said on a control connection announces `relay`: a negotiation and a good reply
to the request, whose bound address stands for `relay`. -/
def Proxy.Announces (p : Proxy) (heard : Bytes) (relay : SocketAddr) : Prop :=
  ∃ negotiated reply bound behind, heard = negotiated ++ reply ++ behind ∧
    (negotiated = [0x05, 0x00] ∨ ∃ version, negotiated = [0x05, 0x02, version, 0x00]) ∧
    Handshake.ReplyForm reply (some bound) ∧ relay = p.relayAt bound

section Announcing

variable {p : Proxy} {heard : Bytes} {relay : SocketAddr}

theorem Proxy.Announces.append (h : p.Announces heard relay) (more : Bytes) :
    p.Announces (heard ++ more) relay := by
  obtain ⟨negotiated, reply, bound, behind, rfl, hneg, hreply, hrelay⟩ := h
  refine ⟨negotiated, reply, bound, behind ++ more, ?_, hneg, hreply, hrelay⟩
  rw [List.append_assoc, List.append_assoc]

theorem Proxy.announces_of_opened {bound : SocketAddr} {behind : Bytes}
    (h : ((Handshake.udpAssociate p).outlook heard).2 = .opened (some bound) behind) :
    p.Announces heard (p.relayAt bound) := by
  obtain ⟨negotiated, reply, hs, hneg, -, -, hreply⟩ :=
    (Handshake.socksOutlook_start (.udpAssociate p) .udpAssociate heard).opened _ _ h
  exact ⟨negotiated, reply, bound, behind, hs, hneg, hreply, rfl⟩

end Announcing

namespace Socks5UdpSession

/-- The association is what the proxy `p` makes of it by saying `heard` on the control connection.
What is behind the FIN does not count. -/
structure Faithful (p : Proxy) (heard : Bytes) (u : Socks5UdpSession) : Prop where
  hearing : ∀ h, u.handshake = some h → ∃ read, (Handshake.udpAssociate p).Resumes read h ∧
    read ++ u.ctrl.unread <+: heard ∧ (u.ctrl.fin = false → read ++ u.ctrl.unread = heard)
  announced : ∀ relay, u.relay = some relay → p.Announces heard relay
  ready : u.ready = u.relay.isSome

variable {p : Proxy} {heard : Bytes} {u u' : Socks5UdpSession}

/-- A new association: nothing has been heard. -/
theorem faithful_new (h : u.control = (.dialed false, some (.udpAssociate p), none, false)) :
    u.Faithful p [] := by
  obtain ⟨hctrl, hrest⟩ := Prod.mk.inj h
  obtain ⟨hhandshake, hrest⟩ := Prod.mk.inj hrest
  obtain ⟨hrelay, hready⟩ := Prod.mk.inj hrest
  refine ⟨fun h' hh => ?_, fun relay hr => ?_, ?_⟩
  · rw [hhandshake] at hh
    obtain rfl := Option.some.inj hh
    refine ⟨[], .refl rfl, ?_, fun _ => ?_⟩
    · rw [hctrl]
      exact List.prefix_rfl
    · rw [hctrl]
      rfl
  · rw [hrelay] at hr
    cases hr
  · rw [hrelay, hready]
    rfl

theorem Faithful.congr (hu : u.Faithful p heard) (h : u'.control = u.control) :
    u'.Faithful p heard := by
  obtain ⟨hctrl, hrest⟩ := Prod.mk.inj h
  obtain ⟨hhandshake, hrest⟩ := Prod.mk.inj hrest
  obtain ⟨hrelay, hready⟩ := Prod.mk.inj hrest
  refine ⟨?_, ?_, ?_⟩
  · rw [hctrl, hhandshake]
    exact hu.hearing
  · rw [hrelay]
    exact hu.announced
  · rw [hrelay, hready]
    exact hu.ready

theorem Faithful.hear (hu : u.Faithful p heard) (news : IoNews) :
    ({ u with ctrl := u.ctrl.hear news } : Socks5UdpSession).Faithful p (heard ++ news.bytes) where
  hearing := by
    intro h hh
    obtain ⟨read, hresumes, hprefix, hall⟩ := hu.hearing h hh
    refine ⟨read, hresumes, ?_, ?_⟩
    · unfold UpstreamIo.hear
      cases hfin : u.ctrl.fin with
      | true =>
        simp only [if_true, List.append_nil]
        exact hprefix.trans (List.prefix_append ..)
      | false =>
        simp only [Bool.false_eq_true, if_false]
        rw [← List.append_assoc, hall hfin]
    · intro hfin
      have hopen : u.ctrl.fin = false := (Bool.or_eq_false_iff.mp hfin).1
      simp only [UpstreamIo.hear, hopen, Bool.false_eq_true, if_false]
      rw [← List.append_assoc, hall hopen]
  announced := fun relay hr => (hu.announced relay hr).append _
  ready := hu.ready

/-- The relay of a granted association has been announced. -/
theorem Faithful.granted {relay : SocketAddr} (hu : u.Faithful p heard)
    (h : u.Granted (some p) relay) : p.Announces heard relay := by
  obtain ⟨q, hs, leftover, d, bound, hp, hh, hpump, hbound, rfl⟩ := h
  obtain rfl := Option.some.inj hp
  obtain ⟨read, hresumes, hprefix, -⟩ := hu.hearing hs hh
  obtain ⟨input, hunread, -, hreach⟩ :=
    pumpHandshake_reaches (d := ⟨u.ctrl, hs, u.hsOut⟩) 2048 hresumes
  rw [hpump] at hunread hreach
  have hopened : ((Handshake.udpAssociate p).outlook (read ++ input)).2 =
      .opened d.hs.bound leftover := hreach
  rw [hbound] at hopened
  obtain ⟨more, rfl⟩ := hprefix
  have hannounced := (Proxy.announces_of_opened hopened).append (d.io.unread ++ more)
  rw [show u.ctrl.unread = input ++ d.io.unread from hunread]
  simpa only [List.append_assoc] using hannounced

theorem Faithful.relaysTo {relay : SocketAddr} (hu : u.Faithful p heard)
    (h : u.RelaysTo (some p) relay) : p.Announces heard relay := by
  rcases h with hrelay | hgranted
  · exact hu.announced relay hrelay
  · exact hu.granted hgranted

/-- Nothing is heard while the association changes. -/
theorem Faithful.change (hu : u.Faithful p heard)
    (h : u.Change (fun _ => False) (some p) u') : u'.Faithful p heard := by
  cases h with
  | keep h => exact hu.congr h
  | hear hN => exact hN.elim
  | @pump _ hs d hh hpump hu' =>
    obtain ⟨hctrl, hrest⟩ := Prod.mk.inj hu'
    obtain ⟨hhandshake, hrest⟩ := Prod.mk.inj hrest
    obtain ⟨hrelay, hready⟩ := Prod.mk.inj hrest
    obtain ⟨read, hresumes, hprefix, hall⟩ := hu.hearing hs hh
    obtain ⟨input, hunread, hfin, hreach⟩ :=
      pumpHandshake_reaches (d := ⟨u.ctrl, hs, u.hsOut⟩) 2048 hresumes
    rw [hpump] at hunread hfin hreach
    have hunread : u.ctrl.unread = input ++ d.io.unread := hunread
    have hfin : d.io.fin = u.ctrl.fin := hfin
    refine ⟨fun h' hh' => ⟨read ++ input, ?_, ?_, fun hopen => ?_⟩, ?_, ?_⟩
    · rw [hhandshake] at hh'
      obtain rfl := Option.some.inj hh'
      exact hreach
    · rw [hctrl, List.append_assoc, ← hunread]
      exact hprefix
    · rw [hctrl, hfin] at hopen
      rw [hctrl, List.append_assoc, ← hunread]
      exact hall hopen
    · rw [hrelay]
      exact hu.announced
    · rw [hrelay, hready]
      exact hu.ready
  | grant hgranted hu' =>
    obtain ⟨hhandshake, hrest⟩ := Prod.mk.inj hu'
    obtain ⟨hrelay, hready⟩ := Prod.mk.inj hrest
    refine ⟨fun h' hh' => ?_, fun relay hr => ?_, ?_⟩
    · rw [show u'.handshake = none from hhandshake] at hh'
      cases hh'
    · rw [show u'.relay = some _ from hrelay] at hr
      obtain rfl := Option.some.inj hr
      exact hu.granted hgranted
    · rw [show u'.relay = some _ from hrelay, show u'.ready = true from hready]
      rfl

end Socks5UdpSession

namespace Forwarder

variable {σ μ : Type} {p : Proxy}

/-- Each association is one that was there before, and as true to what is heard as it was, or is a
new one with a new token. -/
def Carries (p : Proxy) (s s' : Forwarder σ μ) : Prop :=
  s.nextToken ≤ s'.nextToken ∧ ∀ key u', s'.socksUdp.lookup key = some u' →
    (∃ u, s.socksUdp.lookup key = some u ∧ u'.ctrlToken = u.ctrlToken ∧
      ∀ heard, u.Faithful p heard → u'.Faithful p heard) ∨
    s.nextToken ≤ u'.ctrlToken ∧ u'.Faithful p []

theorem Carries.refl (s : Forwarder σ μ) : Carries p s s :=
  ⟨Nat.le_refl _, fun _ u' hu' => Or.inl ⟨u', hu', rfl, fun _ h => h⟩⟩

theorem Carries.trans {a b c : Forwarder σ μ} (hab : Carries p a b) (hbc : Carries p b c) :
    Carries p a c := by
  refine ⟨hab.1.trans hbc.1, fun key u'' hu'' => ?_⟩
  rcases hbc.2 key u'' hu'' with ⟨u', hu', htoken', hkeep'⟩ | ⟨hnew, hfaithful⟩
  · rcases hab.2 key u' hu' with ⟨u, hu, htoken, hkeep⟩ | ⟨hnew, hfaithful⟩
    · exact Or.inl ⟨u, hu, htoken'.trans htoken, fun heard h => hkeep' heard (hkeep heard h)⟩
    · rw [← htoken'] at hnew
      exact Or.inr ⟨hnew, hkeep' [] hfaithful⟩
  · exact Or.inr ⟨hab.1.trans hnew, hfaithful⟩

variable [TcpSocket σ] [Splice μ] {s s' : Forwarder σ μ}

section Acts

variable {P : Egress → Prop}

/-- An act during which nothing is heard. -/
theorem Act.carries (hproxy : s.shared.proxy = some p) (hact : Act P .silent s s') :
    Carries p s s' := by
  refine ⟨(keepsTokens_of_tokens hact.tokens).1, ?_⟩
  have hsame := (Carries.refl (p := p) s).2
  cases hact with
  | same _ hs _ =>
    rw [hs.socksUdp]
    exact hsame
  | remove id _ _ =>
    unfold removeFlow
    split <;> exact hsame
  | addSocks key u hnew hcontrol hident =>
    intro key' u' hu'
    rcases of_lookup_insert hu' with ⟨rfl, rfl⟩ | hu'
    · obtain ⟨q, hq, hcontrol⟩ := hcontrol
      rw [hproxy] at hq
      obtain rfl := Option.some.inj hq
      exact Or.inr ⟨(Prod.mk.inj hident).1.ge, Socks5UdpSession.faithful_new hcontrol⟩
    · exact hsame key' u' hu'
  | setSocks key u u₁ hu hident hchange =>
    intro key' u' hu'
    rcases of_lookup_insert hu' with ⟨rfl, rfl⟩ | hu'
    · rw [hproxy] at hchange
      exact Or.inl ⟨u, hu, (Prod.mk.inj hident).1, fun heard h => h.change hchange⟩
    · exact hsame key' u' hu'
  | dropSocks key u _ => exact fun key' u' hu' => hsame key' u' (of_lookup_erase hu')
  | _ => exact hsame

theorem Acts.carries (hproxy : s.shared.proxy = some p) (hacts : Acts P .silent s s') :
    s'.shared.proxy = some p ∧ Carries p s s' := by
  induction hacts with
  | refl => exact ⟨hproxy, .refl s⟩
  | tail _ hact ih => exact ⟨hact.proxy.trans ih.1, ih.2.trans (hact.carries ih.1)⟩

end Acts

section Arrivals

variable {token : Token} {a : Arrival}

omit [TcpSocket σ] [Splice μ] in
/-- News of a control connection reaches its association; nothing else is heard on one. -/
theorem arrive_socks {key : UdpKey} {u' : Socks5UdpSession}
    (hu' : (s.arrive token a).socksUdp.lookup key = some u') :
    ∃ u, s.socksUdp.lookup key = some u ∧ u'.ctrlToken = u.ctrlToken ∧
      (s.shared.routes.lookup token = some (.socksCtrl key) ∧
          u' = { u with ctrl := u.ctrl.hear a.io } ∨
        s.shared.routes.lookup token ≠ some (.socksCtrl key) ∧ u'.control = u.control) := by
  have hkeep (hroute : s.shared.routes.lookup token ≠ some (.socksCtrl key))
      (hu' : s.socksUdp.lookup key = some u') : ∃ u, s.socksUdp.lookup key = some u ∧
      u'.ctrlToken = u.ctrlToken ∧ (s.shared.routes.lookup token = some (.socksCtrl key) ∧
          u' = { u with ctrl := u.ctrl.hear a.io } ∨
        s.shared.routes.lookup token ≠ some (.socksCtrl key) ∧ u'.control = u.control) :=
    ⟨u', hu', rfl, Or.inr ⟨hroute, rfl⟩⟩
  unfold arrive at hu'
  cases hr : s.shared.routes.lookup token with
  | none =>
    rw [hr] at hu' hkeep
    exact hkeep (by simp) hu'
  | some route =>
    rw [hr] at hu' hkeep
    cases route with
    | socksCtrl key' =>
      dsimp only at hu'
      cases hu : s.socksUdp.lookup key' with
      | none =>
        rw [hu] at hu'
        refine hkeep (fun heq => ?_) hu'
        obtain rfl := Route.socksCtrl.inj (Option.some.inj heq)
        rw [show s.socksUdp.lookup key' = some u' from hu'] at hu
        cases hu
      | some u =>
        rw [hu] at hu'
        by_cases hk : key = key'
        · subst hk
          rw [AList.lookup_insert] at hu'
          obtain rfl := Option.some.inj hu'
          exact ⟨u, hu, rfl, Or.inl ⟨rfl, rfl⟩⟩
        · rw [AList.lookup_insert_ne hk] at hu'
          refine hkeep (fun heq => ?_) hu'
          exact hk (Route.socksCtrl.inj (Option.some.inj heq)).symm
    | socksRelay key' =>
      dsimp only at hu'
      cases hu : s.socksUdp.lookup key' with
      | none =>
        rw [hu] at hu'
        exact hkeep (by simp) hu'
      | some u =>
        rw [hu] at hu'
        rcases of_lookup_insert hu' with ⟨rfl, rfl⟩ | hu'
        · exact ⟨u, hu, rfl, Or.inr ⟨by simp, rfl⟩⟩
        · exact hkeep (by simp) hu'
    | tcp id => exact hkeep (by simp) hu'
    | udp key' =>
      dsimp only at hu'
      split at hu' <;> exact hkeep (by simp) hu'
    | dnsTcp =>
      dsimp only at hu'
      split at hu' <;> exact hkeep (by simp) hu'
    | dnsTls =>
      dsimp only at hu'
      split at hu' <;> exact hkeep (by simp) hu'

end Arrivals

/-- What is heard at a token in the course of a run. -/
def heard (token : Token) : List (Input σ μ) → Bytes
  | [] => []
  | .arrive t a :: as => (if t = token then a.io.bytes else []) ++ heard token as
  | _ :: as => heard token as

theorem heard_append (token : Token) (as bs : List (Input σ μ)) :
    heard token (as ++ bs) = heard token as ++ heard token bs := by
  induction as with
  | nil => rfl
  | cons a as ih =>
    cases a with
    | arrive t news => rw [List.cons_append, heard, heard, ih, List.append_assoc]
    | _ => exact ih

variable {w : Wire} {config : Config μ}

/-- The association was made in the course of the run `as`, and is what the proxy has made of it
by what was heard on its control connection since. -/
def Traced (w : Wire) (config : Config μ) (p : Proxy) (as : List (Input σ μ))
    (u : Socks5UdpSession) : Prop :=
  ∃ before after s₀, as = before ++ after ∧ (automaton w config).run before = some s₀ ∧
    s₀.nextToken ≤ u.ctrlToken ∧ u.Faithful p (heard u.ctrlToken after)

/-- What was heard at `token` after it was given out announces `relay`. -/
def Announced (w : Wire) (config : Config μ) (p : Proxy) (as : List (Input σ μ)) (token : Token)
    (relay : SocketAddr) : Prop :=
  ∃ before after s₀, as = before ++ after ∧ (automaton w config).run before = some s₀ ∧
    s₀.nextToken ≤ token ∧ p.Announces (heard token after) relay

theorem Traced.announced {as : List (Input σ μ)} {u : Socks5UdpSession} {relay : SocketAddr}
    (h : Traced w config p as u) (hrelay : u.RelaysTo (some p) relay) :
    Announced w config p as u.ctrlToken relay := by
  obtain ⟨before, after, s₀, has, hrun, htoken, hfaithful⟩ := h
  exact ⟨before, after, s₀, has, hrun, htoken, hfaithful.relaysTo hrelay⟩

variable [LawfulSplice μ]

/-- A step traces what it keeps and what it makes. -/
theorem traced_step {as : List (Input σ μ)} {a : Input σ μ}
    (hrun : (automaton w config).run as = some s) (hproxy : s.shared.proxy = some p)
    (hstep : step w s a = some s')
    (h : ∀ key u, s.socksUdp.lookup key = some u → Traced w config p as u) :
    ∀ key u, s'.socksUdp.lookup key = some u → Traced w config p (as ++ [a]) u := by
  intro key u' hu'
  by_cases harrive : ∃ token news, a = .arrive token news
  · obtain ⟨token, news, rfl⟩ := harrive
    obtain rfl := Option.some.inj hstep
    obtain ⟨u, hu, htoken, hcase⟩ := arrive_socks hu'
    obtain ⟨before, after, s₀, rfl, hbefore, hnew, hfaithful⟩ := h key u hu
    have hroute : s.shared.routes.lookup u.ctrlToken = some (.socksCtrl key) := by
      refine ((consistent_of_reachable ⟨before ++ after, hrun⟩).routed _ _).mpr ?_
      simp only [Owns, hu, Option.map_some]
    refine ⟨before, after ++ [.arrive token news], s₀, by rw [List.append_assoc], hbefore,
      by rw [htoken]; exact hnew, ?_⟩
    rw [htoken, heard_append]
    rcases hcase with ⟨hctrl, rfl⟩ | ⟨hother, hcontrol⟩
    · have heq : token = u.ctrlToken := by
        have howns := ((consistent_of_reachable ⟨before ++ after, hrun⟩).routed _ _).mp hctrl
        simp only [Owns, hu, Option.map_some, Option.some.injEq] at howns
        exact howns.symm
      simp only [heard, if_pos heq, List.append_nil]
      exact hfaithful.hear news.io
    · have hne : token ≠ u.ctrlToken := by
        rintro rfl
        exact hother hroute
      simp only [heard, if_neg hne, List.append_nil]
      exact hfaithful.congr hcontrol
  · have hacts : Acts (fun _ => True) .silent s s' :=
      acts_step hstep (fun packet _ _ _ => permitted_any s packet) (mayRelay_any s)
        (fun token news ha => harrive ⟨token, news, ha⟩) trivial trivial trivial
    have hsilent (token : Token) : heard token [a] = [] := by
      cases a with
      | arrive token news => exact absurd ⟨token, news, rfl⟩ harrive
      | _ => rfl
    rcases (hacts.carries hproxy).2.2 key u' hu' with ⟨u, hu, htoken, hkeep⟩ | ⟨hnew, hfaithful⟩
    · obtain ⟨before, after, s₀, rfl, hbefore, hnew, hfaithful⟩ := h key u hu
      refine ⟨before, after ++ [a], s₀, by rw [List.append_assoc], hbefore,
        by rw [htoken]; exact hnew, ?_⟩
      rw [htoken, heard_append, hsilent, List.append_nil]
      exact hkeep _ hfaithful
    · refine ⟨as, [a], s, rfl, hrun, hnew, ?_⟩
      rw [hsilent]
      exact hfaithful

/-- Every association there is was made by the run, and is true to what was heard since. -/
theorem traced_of_run {as : List (Input σ μ)} (hproxy : config.proxy = some p)
    (hrun : (automaton w config).run as = some s) :
    ∀ key u, s.socksUdp.lookup key = some u → Traced w config p as u := by
  have hstart : (automaton w config).run [] = some (new config : Forwarder σ μ) ∧
      ∀ key u, (new config : Forwarder σ μ).socksUdp.lookup key = some u →
        Traced w config p ([] : List (Input σ μ)) u := by
    refine ⟨rfl, fun key u hu => ?_⟩
    rw [show (new config : Forwarder σ μ).socksUdp = ∅ from rfl, AList.lookup_empty] at hu
    cases hu
  refine (Automaton.runFrom_history (A := automaton w config)
    (R := fun s as => (automaton w config).run as = some s ∧
      ∀ key u, s.socksUdp.lookup key = some u → Traced w config p as u) ?_ hstart hrun).2
  rintro s as a s' ⟨hrun, htraced⟩ hstep
  have hrun' : (automaton w config).run (as ++ [a]) = some s' :=
    (automaton w config).runFrom_append.mpr ⟨s, hrun, Automaton.runFrom_cons _ |>.mpr
      ⟨s', hstep, rfl⟩⟩
  refine ⟨hrun', traced_step hrun ?_ hstep htraced⟩
  exact (proxy_of_reachable ⟨as, hrun⟩).trans hproxy

end Forwarder

end Adwarden.Core
