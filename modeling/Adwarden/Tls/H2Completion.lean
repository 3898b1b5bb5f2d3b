import Adwarden.Tls.DohTrace

/-! What becomes of the requests that are complete when an HTTP/2 DoH connection fails. -/
namespace Adwarden.Tls
open Adwarden.Lib

variable {H : Hpack} {isBlocked : Str → Bool}

/-- The name and the answer of a request that is answered locally. -/
def h2Answer (isBlocked : Str → Bool) (req : H2Request) : Option (Str × Delivery) :=
  match h2Verdict isBlocked [] req with
  | .respond name contentType body => some (name, ⟨req.streamId, 200, contentType, body⟩)
  | .forward _ => none

def learnAuthorityH2 (authority : Str) (req : H2Request) : Str :=
  if authority = [] ∧ req.authority ≠ [] then req.authority else authority

/-- The bytes sent upstream for those of the requests that are forwarded. -/
def forwardedBytes (isBlocked : Str → Bool) : Str → List H2Request → Bytes
  | _, [] => []
  | authority, req :: reqs =>
    let authority := learnAuthorityH2 authority req
    (match h2Verdict isBlocked authority req with
      | .forward bytes => bytes
      | .respond _ _ _ => []) ++ forwardedBytes isBlocked authority reqs

/-- Each of the requests, completed in a call that leads from `d` to `d'` and has left `server`
after its input, is answered, or forwarded and queued. -/
structure HandlesAll (isBlocked : Str → Bool) (reqs : List H2Request) (server : H2Server H)
    (d d' : Doh H) (es : List DnsEmit) : Prop where
  queued : d'.pending = d.pending ++ (reqs.filter (isForwarded isBlocked)).map H2Request.streamId
  forwarded : DnsEmit.toUpstream es = forwardedBytes isBlocked d.authority reqs
  named : DnsEmit.names es = (reqs.filterMap (h2Answer isBlocked)).map (·.1)
  answered : DnsEmit.toApp es =
    (server.deliverAll ((reqs.filterMap (h2Answer isBlocked)).map (·.2))).out

variable (isBlocked) in
/-- A request is answered or forwarded, whatever the authority. -/
theorem h2Answer_cases (authority : Str) (req : H2Request) :
    (∃ name contentType body, h2Verdict isBlocked authority req = .respond name contentType body ∧
      isForwarded isBlocked req = false ∧
      h2Answer isBlocked req = some (name, ⟨req.streamId, 200, contentType, body⟩)) ∨
    ∃ bytes, h2Verdict isBlocked authority req = .forward bytes ∧
      isForwarded isBlocked req = true ∧ h2Answer isBlocked req = none := by
  unfold isForwarded h2Answer h2Verdict
  cases extractQuery req.method req.path req.contentType req.body with
  | wire wire => cases hb : blockWire isBlocked wire <;> simp [hb]
  | jsonName name => cases hb : isBlocked name <;> simp [hb]
  | unknown => simp

variable (isBlocked) in
/-- What the loop over the requests does. -/
theorem foldl_h2Request (reqs : List H2Request) (f : H2Feed H) :
    (reqs.foldl (h2Request isBlocked) f).server =
        f.server.deliverAll ((reqs.filterMap (h2Answer isBlocked)).map (·.2)) ∧
      DnsEmit.toUpstream (reqs.foldl (h2Request isBlocked) f).emits =
        DnsEmit.toUpstream f.emits ++ forwardedBytes isBlocked f.authority reqs ∧
      DnsEmit.names (reqs.foldl (h2Request isBlocked) f).emits =
        DnsEmit.names f.emits ++ (reqs.filterMap (h2Answer isBlocked)).map (·.1) ∧
      DnsEmit.toApp (reqs.foldl (h2Request isBlocked) f).emits = DnsEmit.toApp f.emits := by
  induction reqs generalizing f with
  | nil => simp [forwardedBytes, H2Server.deliverAll]
  | cons req reqs ih =>
    rw [List.foldl_cons]
    obtain ⟨h1, h2, h3, h4⟩ := ih (h2Request isBlocked f req)
    rw [h1, h2, h3, h4]
    rcases h2Answer_cases isBlocked (learnAuthorityH2 f.authority req) req with
      ⟨name, contentType, body, hv, -, ha⟩ | ⟨bytes, hv, -, ha⟩
    · unfold learnAuthorityH2 at hv
      simp [h2Request, hv, ha, H2Server.deliverAll, forwardedBytes, learnAuthorityH2]
    · unfold learnAuthorityH2 at hv
      simp [h2Request, hv, ha, forwardedBytes, learnAuthorityH2]

/-- Responses depend on the encoder and the output so far only. -/
theorem deliverAll_out_congr {s s' : H2Server H} (ds : List Delivery) (henc : s.enc = s'.enc)
    (hout : s.out = s'.out) : (s.deliverAll ds).out = (s'.deliverAll ds).out := by
  induction ds generalizing s s' with
  | nil => exact hout
  | cons d ds ih =>
    refine ih ?_ ?_
    · simp only [H2Server.respond, H2Server.writeFrame, henc]
    · simp only [H2Server.respond, H2Server.writeFrame, henc, hout]

variable (isBlocked) in
/-- A call of `h2_feed` handles the requests it completes exactly when it does not both complete
one and fail. -/
theorem handlesAll_iff {d : Doh H} {server : H2Server H} (hd : d.h2 = some server)
    (hready : server.failed = false → server.ready = []) (input : Bytes) :
    HandlesAll isBlocked (H2Event.requests (server.inputEvents input)) (server.onInput input) d
        (d.h2Feed isBlocked input).2 (d.h2Feed isBlocked input).1 ↔
      ((server.onInput input).failed = true →
        H2Event.requests (server.inputEvents input) = []) := by
  have hall := server.onInput_ready input
  generalize H2Event.requests (server.inputEvents input) = reqs at hall ⊢
  unfold Doh.h2Feed
  rw [hd]
  dsimp only
  cases hf : (server.onInput input).failed with
  | true =>
    simp only [if_true, true_implies]
    constructor
    · rintro ⟨hq, -, hn, -⟩
      have hfwd : reqs.filter (isForwarded isBlocked) = [] := by simpa using hq
      have hans : reqs.filterMap (h2Answer isBlocked) = [] := by simpa using hn.symm
      rw [List.eq_nil_iff_forall_not_mem]
      intro req hm
      rcases h2Answer_cases isBlocked [] req with ⟨name, contentType, body, -, -, ha⟩ |
        ⟨bytes, -, hf, -⟩
      · have := List.filterMap_eq_nil_iff.mp hans req hm
        rw [ha] at this
        simp at this
      · have := List.filter_eq_nil_iff.mp hfwd req hm
        exact this hf
    · rintro rfl
      exact ⟨by simp, by simp [forwardedBytes], by simp,
        by simp [H2Server.deliverAll, H2Server.takeOut]⟩
  | false =>
    have hnf : server.failed = false := by
      by_contra hne
      rw [Bool.not_eq_false] at hne
      simp [H2Server.onInput, hne] at hf
    rw [hready hnf, List.nil_append] at hall
    simp only [Bool.false_eq_true, if_false, false_implies, iff_true]
    have hreqs : (server.onInput input).takeRequests.1 = reqs := hall
    obtain ⟨h1, h2, h3, h4⟩ := foldl_h2Request isBlocked reqs
      { server := (server.onInput input).takeRequests.2, authority := d.authority,
        pending := d.pending }
    rw [hreqs]
    refine ⟨?_, ?_, ?_, ?_⟩
    · exact foldl_h2Request_pending reqs _
    · simp [h2]
    · simp [h3]
    · simp only [DnsEmit.toApp_append, h4, DnsEmit.toApp_nil, DnsEmit.toApp_map_app,
        List.nil_append, H2Server.takeOut, h1]
      exact deliverAll_out_congr _ rfl rfl

theorem frameStep_settled {s s' : H2Server H} {o : List Empty} (hs : s.Settled)
    (h : s.frameStep = some (o, s')) : s'.Settled := by
  obtain ⟨-, ⟨-, rfl⟩ | ⟨f, rest, -, rfl⟩⟩ := H2Server.frameStep_cases h
  · exact fun h => by simp at h
  · exact H2Server.onFrame_settled (s := { s with inbuf := rest }) hs f

theorem onInput_settled {s : H2Server H} (hs : s.Settled) (data : Bytes) :
    (s.onInput data).Settled := by
  rcases s.onInput_cases data with ⟨hstreams, -, -, hc, hf⟩ | ⟨-, s₀, h₀, ho, -⟩
  · intro h id stream hl hne hh hend
    exact hs (hf h) id stream (hstreams ▸ hl) (hc ▸ hne) hh hend
  · obtain ⟨hstreams, -, hf, hc⟩ := H2Server.frameStart_same h₀
    have hstart : s₀.Settled := by
      intro h id stream hl hne hh hend
      exact hs (hf ▸ h) id stream (hstreams ▸ hl) (hc ▸ hne) hh hend
    rw [ho]
    refine (H2Server.frameTracer H).run_invariant (P := fun _ t => t.Settled) (o := []) hstart ?_
    intro o t o' t' hP hstep
    obtain ⟨-, o'', hstep⟩ := (Machine.observe_step _).mp hstep
    exact frameStep_settled hP hstep

/-- What a call that reads HTTP/2 frames does with the requests they complete: every stream with its
headers and its end has been surfaced, and every surfaced request is handled. -/
def CallHandles (isBlocked : Str → Bool) (d : Doh H) (data : Bytes) (es : List DnsEmit)
    (d' : Doh H) : Prop :=
  ∀ server input, d.h2Input data = some (server, input) →
    (server.onInput input).Settled ∧
      HandlesAll isBlocked (H2Event.requests (server.inputEvents input)) (server.onInput input)
        d d' es

/-- A call that fails the connection completes no request before. -/
def CallUncut (d : Doh H) (data : Bytes) : Prop :=
  ∀ server input, d.h2Input data = some (server, input) →
    (server.onInput input).failed = true → H2Event.requests (server.inputEvents input) = []

instance (d : Doh H) (data : Bytes) : Decidable (CallUncut d data) :=
  match h : d.h2Input data with
  | none => .isTrue fun _ _ hin => by simp [h] at hin
  | some (server, input) =>
    decidable_of_iff ((server.onInput input).failed = true →
        H2Event.requests (server.inputEvents input) = []) (by simp [CallUncut, h])

/-- A property of every `on_app_data` call of a run. -/
def AllCalls (p : Profile)
    (P : (Str → Bool) → Doh H → Bytes → List DnsEmit → Doh H → Prop) : Doh H → List DohOp → Prop
  | _, [] => True
  | d, .app isBlocked data :: ops =>
    match d.onAppData p isBlocked data with
    | .error _ => True
    | .ok (es, d') => P isBlocked d data es d' ∧ AllCalls p P d' ops
  | d, .upstream data :: ops => AllCalls p P (d.onUpstreamData data).2 ops

instance decidableAllCalls (p : Profile)
    (P : (Str → Bool) → Doh H → Bytes → List DnsEmit → Doh H → Prop)
    [∀ b d data es d', Decidable (P b d data es d')] :
    (d : Doh H) → (ops : List DohOp) → Decidable (AllCalls p P d ops)
  | _, [] => .isTrue trivial
  | d, .app isBlocked data :: ops =>
    match h : d.onAppData p isBlocked data with
    | .error _ => .isTrue (by simp [AllCalls, h])
    | .ok (es, d') =>
      have := decidableAllCalls p P d' ops
      decidable_of_iff (P isBlocked d data es d' ∧ AllCalls p P d' ops) (by simp [AllCalls, h])
  | d, .upstream data :: ops => decidableAllCalls p P (d.onUpstreamData data).2 ops

/-- Between calls the frames are settled and no completed request is left over. -/
structure Drained (d : Doh H) : Prop where
  settled : ∀ server, d.h2 = some server → server.Settled
  ready : ∀ server, d.h2 = some server → server.failed = false → server.ready = []

theorem settled_fresh : (({} : H2Server H)).Settled := fun _ _ _ hl => by simp at hl

theorem respond_settled {s : H2Server H} (hs : s.Settled) (d : Delivery) :
    (s.respond d.streamId d.status d.contentType d.body).Settled := by
  intro h id stream hl hne hh hend
  by_cases hid : id = d.streamId
  · have hnone : (s.respond d.streamId d.status d.contentType d.body).streams.lookup id = none := by
      rw [hid]
      exact AList.lookup_erase _ _
    rw [hnone] at hl
    simp at hl
  · exact hs h id stream ((AList.lookup_erase_ne hid).symm.trans hl) hne hh hend

theorem deliverAll_drained {s : H2Server H} (hs : s.Settled) (ds : List Delivery) :
    (s.deliverAll ds).Settled ∧ (s.deliverAll ds).ready = s.ready ∧
      (s.deliverAll ds).failed = s.failed := by
  induction ds generalizing s with
  | nil => exact ⟨hs, rfl, rfl⟩
  | cons d ds ih => exact ih (respond_settled hs d)

variable (isBlocked) in
/-- The flow after a call of `h2_feed`. -/
theorem h2Feed_drained {d : Doh H} {server : H2Server H} (hd : d.h2 = some server)
    (hs : server.Settled) (input : Bytes) : Drained (d.h2Feed isBlocked input).2 := by
  have hin := onInput_settled hs input
  unfold Doh.h2Feed
  rw [hd]
  dsimp only
  cases hf : (server.onInput input).failed with
  | true =>
    simp only [if_true]
    constructor <;> intro server' hs' <;> obtain rfl := Option.some.inj hs'
    · exact hin
    · intro h
      have : (server.onInput input).failed = false := h
      rw [hf] at this
      simp at this
  | false =>
    simp only [Bool.false_eq_true, if_false]
    obtain ⟨h1, -, -, -⟩ := foldl_h2Request isBlocked (server.onInput input).ready
      { server := (server.onInput input).takeRequests.2, authority := d.authority,
        pending := d.pending }
    obtain ⟨h2, h3, -⟩ := deliverAll_drained
      (s := (server.onInput input).takeRequests.2) hin
      ((((server.onInput input).ready).filterMap (h2Answer isBlocked)).map (·.2))
    rw [← h1] at h2 h3
    constructor <;> intro server' hs' <;> obtain rfl := Option.some.inj hs'
    · exact h2
    · intro _
      exact h3

section Call

variable {p : Profile} {d d' : Doh H} {data : Bytes} {es : List DnsEmit}

/-- An `on_app_data` call that reads HTTP/2 frames is a call of `h2_feed`. -/
theorem onAppData_h2Feed {server : H2Server H} {input : Bytes}
    (happ : d.onAppData p isBlocked data = .ok (es, d'))
    (hin : d.h2Input data = some (server, input)) :
    ∃ d₀ : Doh H, d₀.h2 = some server ∧ d₀.pending = d.pending ∧ d₀.authority = d.authority ∧
      d₀.h2Feed isBlocked input = (es, d') := by
  unfold Doh.onAppData at happ
  unfold Doh.h2Input at hin
  cases hp : d.proto with
  | h1 => simp [hp] at hin
  | h2 =>
    rw [hp] at happ hin
    obtain ⟨server', hs, he⟩ := Option.map_eq_some_iff.mp hin
    obtain ⟨rfl, rfl⟩ := Prod.mk.inj he
    exact ⟨d, hs, rfl, rfl, Except.ok.inj happ⟩
  | undecided =>
    rw [hp] at happ hin
    dsimp only at happ hin
    split_ifs at hin with hx
    obtain ⟨rfl, rfl⟩ := Prod.mk.inj (Option.some.inj hin)
    rw [hx] at happ
    exact ⟨{ d with proto := .h2, h2 := some {}, appBuf := [] }, rfl, rfl, rfl,
      Except.ok.inj happ⟩

theorem h1Feed_h2 (h : d.h1Feed p isBlocked data = .ok (es, d')) : d'.h2 = d.h2 := by
  unfold Doh.h1Feed at h
  cases hr : d.toH1Side.h1Feed p isBlocked data with
  | error e =>
    rw [hr] at h
    simp [Except.map] at h
  | ok r =>
    rw [hr] at h
    obtain ⟨-, rfl⟩ := Prod.mk.inj (Except.ok.inj h)
    rfl

/-- A call that reads no HTTP/2 frames leaves the server as it is. -/
theorem onAppData_idle (happ : d.onAppData p isBlocked data = .ok (es, d'))
    (hin : d.h2Input data = none) : d'.h2 = d.h2 := by
  unfold Doh.onAppData at happ
  unfold Doh.h2Input at hin
  cases hp : d.proto with
  | h1 =>
    rw [hp] at happ
    exact h1Feed_h2 happ
  | h2 =>
    rw [hp] at happ hin
    have hnone : d.h2 = none := by simpa using hin
    have hd' := Except.ok.inj happ
    simp only [Doh.h2Feed, hnone, Prod.mk.injEq] at hd'
    rw [← hd'.2, hnone]
  | undecided =>
    rw [hp] at happ hin
    dsimp only at happ hin
    split_ifs at hin with hx
    cases hproto : decideProto (d.appBuf ++ data) with
    | none =>
      rw [hproto] at happ
      obtain ⟨-, rfl⟩ := Prod.mk.inj (Except.ok.inj happ)
      rfl
    | some proto =>
      rw [hproto] at happ hx
      cases proto with
      | h2 => exact absurd rfl hx
      | h1 =>
        have hsame := h1Feed_h2 happ
        exact hsame
      | undecided =>
        obtain ⟨-, rfl⟩ := Prod.mk.inj (Except.ok.inj happ)
        rfl

theorem Drained.h2Input (h : Drained d) {server : H2Server H} {input : Bytes}
    (hin : d.h2Input data = some (server, input)) :
    server.Settled ∧ (server.failed = false → server.ready = []) := by
  unfold Doh.h2Input at hin
  split at hin
  · split_ifs at hin
    obtain ⟨rfl, -⟩ := Prod.mk.inj (Option.some.inj hin)
    exact ⟨settled_fresh, fun _ => rfl⟩
  · obtain ⟨server', hs, he⟩ := Option.map_eq_some_iff.mp hin
    obtain ⟨rfl, -⟩ := Prod.mk.inj he
    exact ⟨h.settled _ hs, h.ready _ hs⟩
  · simp at hin

theorem Drained.onAppData (h : Drained d) (happ : d.onAppData p isBlocked data = .ok (es, d')) :
    Drained d' := by
  cases hin : d.h2Input data with
  | none =>
    have hsame := onAppData_idle happ hin
    exact ⟨fun s hs => h.settled s (hsame ▸ hs), fun s hs => h.ready s (hsame ▸ hs)⟩
  | some r =>
    obtain ⟨server, input⟩ := r
    obtain ⟨d₀, hd₀, -, -, hfeed⟩ := onAppData_h2Feed happ hin
    have hdrained := h2Feed_drained isBlocked hd₀ (h.h2Input hin).1 input
    rwa [hfeed] at hdrained

theorem Drained.onUpstreamData (h : Drained d) : Drained (d.onUpstreamData data).2 := by
  unfold Doh.onUpstreamData
  cases hp : d.proto with
  | undecided => exact h
  | h1 => exact h
  | h2 =>
    unfold Doh.h2Upstream
    cases hs : d.h2 with
    | none => exact ⟨fun s hs' => by simp at hs', fun s hs' => by simp at hs'⟩
    | some server =>
      have hall := deliverAll_drained (h.settled server hs)
      dsimp only
      constructor <;> intro server' hs' <;> obtain rfl := Option.some.inj hs'
      · exact (hall _).1
      · intro hf
        exact (hall _).2.1.trans (h.ready server hs ((hall _).2.2.symm.trans hf))

/-- One call handles its requests exactly when it does not both complete one and fail. -/
theorem callHandles_iff (h : Drained d) (happ : d.onAppData p isBlocked data = .ok (es, d')) :
    CallHandles isBlocked d data es d' ↔ CallUncut d data := by
  constructor
  · intro hc server input hin
    obtain ⟨d₀, hd₀, hpend, hauth, hfeed⟩ := onAppData_h2Feed happ hin
    obtain ⟨hq, hu, hn, ha⟩ := (hc server input hin).2
    refine (handlesAll_iff isBlocked hd₀ (h.h2Input hin).2 input).mp ?_
    rw [hfeed]
    exact ⟨hpend ▸ hq, hauth ▸ hu, hn, ha⟩
  · intro hc server input hin
    obtain ⟨d₀, hd₀, hpend, hauth, hfeed⟩ := onAppData_h2Feed happ hin
    refine ⟨onInput_settled (h.h2Input hin).1 input, ?_⟩
    obtain ⟨hq, hu, hn, ha⟩ :=
      (handlesAll_iff isBlocked hd₀ (h.h2Input hin).2 input).mpr (hc server input hin)
    rw [hfeed] at hq hu hn ha
    exact ⟨hpend ▸ hq, hauth ▸ hu, hn, ha⟩

end Call

theorem allCalls_handles_iff (p : Profile) {d : Doh H} (h : Drained d) (ops : List DohOp) :
    AllCalls p CallHandles d ops ↔ AllCalls p (fun _ d data _ _ => CallUncut d data) d ops := by
  induction ops generalizing d with
  | nil => exact Iff.rfl
  | cons op ops ih =>
    cases op with
    | upstream data => exact ih h.onUpstreamData
    | app isBlocked data =>
      simp only [AllCalls]
      cases happ : d.onAppData p isBlocked data with
      | error e => exact Iff.rfl
      | ok r => exact and_congr (callHandles_iff h happ) (ih (h.onAppData happ))

theorem drained_fresh : Drained ({} : Doh H) where
  settled _ h := by simp at h
  ready _ h := by simp at h

/-- In a run, every call handles the requests it completes exactly when no call that fails the
connection completes one before. -/
theorem doh_h2_completed_handled_iff (p : Profile) (ops : List DohOp) :
    AllCalls p CallHandles ({} : Doh H) ops ↔
      AllCalls p (fun _ d data _ _ => CallUncut d data) ({} : Doh H) ops :=
  allCalls_handles_iff p drained_fresh ops

def goawayFrame : Bytes := frameBytes tGoaway 0 0 [0, 0, 0, 0, 0, 0, 0, 0]

/-- A query in the same call as the GOAWAY after it is neither answered nor forwarded; in a call of
its own it is forwarded. -/
theorem doh_h2_goaway_drops :
    ¬ AllCalls .release CallHandles ({} : Doh literalHpack)
        [.app (fun _ => false) (orgFrames ++ goawayFrame)] ∧
      AllCalls .release CallHandles ({} : Doh literalHpack)
        [.app (fun _ => false) orgFrames, .app (fun _ => false) goawayFrame] := by
  rw [allCalls_handles_iff .release drained_fresh, allCalls_handles_iff .release drained_fresh]
  decide +kernel

end Adwarden.Tls
