import Adwarden.Lib.Drain
import Adwarden.Lib.Pipeline
import Adwarden.Tls.DohOrder
import Adwarden.Tls.UpstreamParse

/-! Which HTTP/2 stream an answer from the resolver reaches: requests are queued as they are
forwarded, and each response that the parser reports takes the oldest. -/
namespace Adwarden.Tls
open Adwarden.Lib

variable {H : Hpack} {p : Profile} {isBlocked : Str → Bool}

/-- What the resolver sends for one request: interim responses, then the final one. -/
structure Answer where
  interims : List RespHead
  final : Message

namespace Answer

def wire (a : Answer) : Bytes := a.interims.flatMap RespHead.encode ++ a.final.wire

structure WellFormed (lines : ℕ) (a : Answer) : Prop where
  interims : ∀ h ∈ a.interims, h.WellFormed ∧ Interim h.status ∧ h.status ≠ 101
  final : a.final.WellFormed lines
  last : ¬ Interim a.final.head.status

end Answer

/-- The streams whose requests a run has forwarded and the responses it has delivered, in order. -/
structure PairingLog where
  forwarded : List UInt32 := []
  delivered : List Delivery := []

def isForwarded (isBlocked : Str → Bool) (req : H2Request) : Bool :=
  match h2Verdict isBlocked [] req with
  | .forward _ => true
  | .respond _ _ _ => false

namespace Doh

/-- The streams whose requests `h2_feed` forwards on this input. -/
def h2Forwards (isBlocked : Str → Bool) (d : Doh H) (data : Bytes) : List UInt32 :=
  match d.h2 with
  | none => []
  | some server =>
    let server := server.onInput data
    if server.failed then []
    else (server.ready.filter (isForwarded isBlocked)).map H2Request.streamId

def forwards (isBlocked : Str → Bool) (d : Doh H) (data : Bytes) : List UInt32 :=
  match d.proto with
  | .undecided =>
    if decideProto (d.appBuf ++ data) = some .h2 then
      ({ d with h2 := some {} } : Doh H).h2Forwards isBlocked (d.appBuf ++ data)
    else []
  | .h2 => d.h2Forwards isBlocked data
  | .h1 => []

def deliveries (d : Doh H) (data : Bytes) : List Delivery :=
  match d.proto with
  | .h2 => (d.h2Upstream data).1
  | .undecided | .h1 => []

/-- Successive calls of both directions. -/
def runLogged (p : Profile) (isBlocked : Str → Bool) :
    PairingLog → Doh H → List DnsStream.Op → Except Panic (PairingLog × Doh H)
  | log, d, [] => .ok (log, d)
  | log, d, .app data :: ops =>
    match d.onAppData p isBlocked data with
    | .error e => .error e
    | .ok (_, d') =>
      d'.runLogged p isBlocked
        { log with forwarded := log.forwarded ++ d.forwards isBlocked data } ops
  | log, d, .upstream data :: ops =>
    (d.onUpstreamData data).2.runLogged p isBlocked
      { log with delivered := log.delivered ++ d.deliveries data } ops

end Doh

/-- A run of an HTTP/2 flow on which the resolver answers the forwarded requests in order, each
after it was forwarded. -/
structure Answered (H : Hpack) (p : Profile) (isBlocked : Str → Bool) (lines : ℕ)
    (answers : List Answer) (ops : List DnsStream.Op) : Prop where
  h2 : decideProto (appFed ops) ≠ some .h1
  wellFormed : ∀ a ∈ answers, a.WellFormed lines
  upstream : ∀ pre, pre <+: ops → ∀ log d,
    ({} : Doh H).runLogged p isBlocked {} pre = .ok (log, d) →
    upstreamFed pre <+: (answers.take log.forwarded.length).flatMap Answer.wire

theorem Answered.initial {lines : ℕ} {answers : List Answer} {pre ops : List DnsStream.Op}
    (h : Answered H p isBlocked lines answers ops) (hpre : pre <+: ops) :
    Answered H p isBlocked lines answers pre where
  h2 hx := by
    obtain ⟨more, hmore⟩ := appFed_mono hpre
    exact h.h2 (hmore ▸ decideProto_append hx more)
  wellFormed := h.wellFormed
  upstream q hq := h.upstream q (hq.trans hpre)

/-- What `respond` writes for deliveries, from the state of the header encoder. -/
def H2Server.responded (enc : H.Encoder) (ds : List Delivery) : Bytes :=
  (({ enc } : H2Server H).deliverAll ds).out

/-- A call for bytes of the resolver sends the app what `respond` writes for its deliveries. -/
def Doh.Responds (d : Doh H) (data : Bytes) : Prop :=
  (d.onUpstreamData data).1 = match d.h2 with
    | some server => H2Server.responded server.enc (d.deliveries data)
    | none => []

/-- The answers that the parser reports as they are, each as one response. -/
structure Answer.Readable (a : Answer) : Prop where
  alone : a.interims = []
  final : a.final.Readable

variable (isBlocked) in
/-- Whether a request is forwarded does not depend on the authority. -/
theorem h2Verdict_cases (authority : Str) (req : H2Request) :
    (∃ name contentType body, h2Verdict isBlocked authority req = .respond name contentType body ∧
      isForwarded isBlocked req = false) ∨
    ∃ bytes, h2Verdict isBlocked authority req = .forward bytes ∧
      isForwarded isBlocked req = true := by
  unfold isForwarded h2Verdict
  cases extractQuery req.method req.path req.contentType req.body with
  | wire wire => cases hb : blockWire isBlocked wire <;> simp [hb]
  | jsonName name => cases hb : isBlocked name <;> simp [hb]
  | unknown => simp

/-- The queue grows by the streams that are forwarded. -/
theorem foldl_h2Request_pending (reqs : List H2Request) (f : H2Feed H) :
    (reqs.foldl (h2Request isBlocked) f).pending =
      f.pending ++ (reqs.filter (isForwarded isBlocked)).map H2Request.streamId := by
  induction reqs generalizing f with
  | nil => simp
  | cons req reqs ih =>
    rw [List.foldl_cons, ih]
    rcases h2Verdict_cases isBlocked
        (if f.authority = [] ∧ req.authority ≠ [] then req.authority else f.authority) req with
      ⟨name, contentType, body, hv, hf⟩ | ⟨bytes, hv, hf⟩
    · simp [h2Request, hv, hf]
    · simp [h2Request, hv, hf]

variable (isBlocked) in
theorem Doh.h2Feed_pending {d : Doh H} {server : H2Server H} (hd : d.h2 = some server)
    (data : Bytes) : ∃ server' authority, (d.h2Feed isBlocked data).2 =
      { d with h2 := some server', authority,
               pending := d.pending ++ d.h2Forwards isBlocked data } := by
  cases hf : (server.onInput data).failed with
  | true =>
    refine ⟨(server.onInput data).takeOut.2, d.authority, ?_⟩
    simp [Doh.h2Feed, Doh.h2Forwards, hd, hf]
  | false =>
    let f : H2Feed H := (server.onInput data).ready.foldl (h2Request isBlocked)
      { server := (server.onInput data).takeRequests.2, authority := d.authority,
        pending := d.pending }
    refine ⟨f.server.takeOut.2, f.authority, ?_⟩
    simp [f, Doh.h2Feed, Doh.h2Forwards, hd, hf, H2Server.takeRequests, foldl_h2Request_pending]

theorem deliver_eq {pending : List UInt32} {responses : List UpResponse}
    (h : responses.length ≤ pending.length) :
    deliver pending responses =
      (List.zipWith UpResponse.deliveredTo responses (pending.take responses.length),
        pending.drop responses.length) := by
  induction responses generalizing pending with
  | nil => cases pending <;> rfl
  | cons resp responses ih =>
    cases pending with
    | nil => simp at h
    | cons streamId pending =>
      simp only [List.length_cons, Nat.add_le_add_iff_right] at h
      simp [deliver, ih h]

theorem Doh.h2Upstream_eq {d : Doh H} {server : H2Server H} {data : Bytes}
    {responses : List UpResponse} {up : H1Responses} (hd : d.h2 = some server)
    (hfeed : d.up.feed data = (responses, up)) (hlen : responses.length ≤ d.pending.length) :
    ∃ out server', d.h2Upstream data =
      (List.zipWith UpResponse.deliveredTo responses (d.pending.take responses.length), out,
        { d with up, pending := d.pending.drop responses.length, h2 := some server' }) := by
  simp only [Doh.h2Upstream, hfeed, hd, deliver_eq hlen]
  exact ⟨_, _, rfl⟩

/-- `respond` adds to what is to be sent, and asks only the encoder. -/
theorem H2Server.deliverAll_out (s : H2Server H) (ds : List Delivery) :
    (s.deliverAll ds).out = s.out ++ responded s.enc ds := by
  unfold responded
  induction ds generalizing s with
  | nil => exact (List.append_nil _).symm
  | cons d ds ih =>
    have hone (t : H2Server H) : (t.deliverAll (d :: ds)).out =
        (t.respond d.streamId d.status d.contentType d.body).out ++ _ := ih _
    rw [hone, hone, ← List.append_assoc]
    simp [respond, writeFrame]

/-- Between calls nothing is left to be sent. -/
def Doh.Drained (d : Doh H) : Prop := ∀ server, d.h2 = some server → server.out = []

variable (isBlocked) in
theorem Doh.Drained.h2Feed {d : Doh H} (h : d.Drained) (data : Bytes) :
    (d.h2Feed isBlocked data).2.Drained := by
  unfold Doh.h2Feed
  cases hd : d.h2 with
  | none => exact h
  | some server =>
    dsimp only
    split_ifs
    · rintro _ ⟨⟩
      rfl
    · rintro _ ⟨⟩
      rfl

theorem Doh.Drained.onAppData {d d' : Doh H} {data : Bytes} {es : List DnsEmit} (h : d.Drained)
    (hs : d.onAppData p isBlocked data = .ok (es, d')) : d'.Drained := by
  have hh1 {d : Doh H} {data : Bytes} (h : d.Drained)
      (hs : d.h1Feed p isBlocked data = .ok (es, d')) : d'.Drained := by
    obtain ⟨⟨es, side⟩, -, heq⟩ := exists_of_map_ok hs
    obtain ⟨-, rfl⟩ := Prod.mk.inj heq
    exact h
  unfold Doh.onAppData at hs
  cases hp : d.proto with
  | undecided =>
    rw [hp] at hs
    dsimp only at hs
    split at hs
    · have hfresh : ({ d with proto := .h2, h2 := some {}, appBuf := [] } : Doh H).Drained := by
        rintro _ ⟨⟩
        rfl
      obtain ⟨-, rfl⟩ := Prod.mk.inj (Except.ok.inj hs)
      exact hfresh.h2Feed isBlocked _
    · exact hh1 (d := { d with proto := .h1, appBuf := d.appBuf ++ data }) h hs
    · obtain ⟨-, rfl⟩ := Prod.mk.inj (Except.ok.inj hs)
      exact h
  | h2 =>
    rw [hp] at hs
    obtain ⟨-, rfl⟩ := Prod.mk.inj (Except.ok.inj hs)
    exact h.h2Feed isBlocked data
  | h1 =>
    rw [hp] at hs
    exact hh1 h hs

theorem Doh.Drained.onUpstreamData {d : Doh H} (h : d.Drained) (data : Bytes) :
    (d.onUpstreamData data).2.Drained := by
  unfold Doh.onUpstreamData
  cases d.proto with
  | undecided => exact h
  | h1 => exact h
  | h2 =>
    unfold Doh.h2Upstream
    cases hd : d.h2 with
    | none => nofun
    | some server =>
      rintro _ ⟨⟩
      rfl

theorem Doh.Drained.runLogged {d d' : Doh H} {log log' : PairingLog} {ops : List DnsStream.Op}
    (h : d.Drained) (hr : d.runLogged p isBlocked log ops = .ok (log', d')) : d'.Drained := by
  induction ops generalizing d log with
  | nil =>
    obtain ⟨-, rfl⟩ := Prod.mk.inj (Except.ok.inj hr)
    exact h
  | cons op ops ih =>
    cases op with
    | app data =>
      unfold Doh.runLogged at hr
      split at hr
      · cases hr
      · next es d₁ hd₁ => exact ih (h.onAppData hd₁) hr
    | upstream data => exact ih (h.onUpstreamData data) hr

theorem runLogged_concat {d d' : Doh H} {log log' : PairingLog} {ops : List DnsStream.Op}
    (hr : d.runLogged p isBlocked log ops = .ok (log', d')) (data : Bytes) :
    d.runLogged p isBlocked log (ops ++ [.upstream data]) =
      .ok ({ log' with delivered := log'.delivered ++ d'.deliveries data },
        (d'.onUpstreamData data).2) := by
  induction ops generalizing d log with
  | nil =>
    obtain ⟨rfl, rfl⟩ := Prod.mk.inj (Except.ok.inj hr)
    rfl
  | cons op ops ih =>
    cases op with
    | app data' =>
      rw [List.cons_append]
      unfold Doh.runLogged at hr ⊢
      split at hr
      · cases hr
      · exact ih hr
    | upstream data' => exact ih hr

/-- The deliveries are all that a call on an HTTP/2 flow sends. -/
theorem Doh.Drained.responds {d : Doh H} (h : d.Drained) (hp : d.proto = .h2) (data : Bytes) :
    d.Responds data := by
  unfold Doh.Responds
  cases hd : d.h2 with
  | none => simp [Doh.onUpstreamData, Doh.h2Upstream, hp, hd]
  | some server =>
    have hout := server.deliverAll_out (deliver d.pending (d.up.feed data).1).1
    rw [h server hd, List.nil_append] at hout
    simpa only [Doh.onUpstreamData, Doh.deliveries, Doh.h2Upstream, hp, hd, H2Server.takeOut]
      using hout

/-- An HTTP/2 flow that has read the app bytes `b`, and of the responses `done ++ left` all but
`rest`. -/
structure Paired (lines : ℕ) (done left : List Message) (b rest : Bytes) (log : PairingLog)
    (d : Doh H) : Prop where
  proto : (d.proto = .undecided ∧ d.appBuf = b ∧ log.forwarded = []) ∨
    (d.proto = .h2 ∧ d.h2.isSome)
  pending : d.pending = log.forwarded.drop done.length
  delivered : log.delivered = List.zipWith UpResponse.deliveredTo (done.map Message.response)
    (log.forwarded.take done.length)
  queued : done.length ≤ log.forwarded.length
  at_ : RespAt lines d.up rest left
  halted : responsesStep (some maxHeaderBytes) ⟨d.up, false⟩ = none
  due : ∀ m t, left = m :: t → (wires t).length < rest.length

section Step

variable {lines : ℕ} {done left : List Message} {b rest : Bytes} {log : PairingLog} {d : Doh H}

private theorem Paired.h2Feed (h : Paired lines done left b rest log d) {server : H2Server H}
    (hp : d.proto = .h2) (hd : d.h2 = some server) (data b' : Bytes) :
    Paired lines done left b' rest
      { log with forwarded := log.forwarded ++ d.h2Forwards isBlocked data }
      (d.h2Feed isBlocked data).2 := by
  obtain ⟨server', authority, he⟩ := Doh.h2Feed_pending isBlocked hd data
  rw [he]
  refine ⟨Or.inr ⟨hp, rfl⟩, ?_, ?_, ?_, h.at_, h.halted, h.due⟩
  · simp only [h.pending, List.drop_append_of_le_length h.queued]
  · simp only [h.delivered, List.take_append_of_le_length h.queued]
  · simp only [List.length_append]
    exact h.queued.trans (Nat.le_add_right _ _)

variable (p isBlocked) in
theorem Paired.onAppData (h : Paired lines done left b rest log d) {data : Bytes}
    (hh1 : decideProto (b ++ data) ≠ some .h1) :
    ∃ es d', d.onAppData p isBlocked data = .ok (es, d') ∧ Paired lines done left (b ++ data) rest
      { log with forwarded := log.forwarded ++ d.forwards isBlocked data } d' := by
  rcases h.proto with ⟨hp, rfl, hnil⟩ | ⟨hp, hs⟩
  · cases hx : decideProto (d.appBuf ++ data) with
    | none =>
      refine ⟨[], { d with appBuf := d.appBuf ++ data }, by simp [Doh.onAppData, hp, hx], ?_⟩
      have hf : d.forwards isBlocked data = [] := by simp [Doh.forwards, hp, hx]
      simp only [hf, List.append_nil]
      exact ⟨Or.inl ⟨hp, rfl, hnil⟩, h.pending, h.delivered, h.queued, h.at_, h.halted, h.due⟩
    | some proto =>
      cases proto with
      | undecided => exact absurd hx (decideProto_ne_undecided _)
      | h1 => exact absurd hx hh1
      | h2 =>
        let d₁ : Doh H := { d with proto := .h2, h2 := some {}, appBuf := [] }
        have h₁ : Paired lines done left [] rest log d₁ :=
          ⟨Or.inr ⟨rfl, rfl⟩, h.pending, h.delivered, h.queued, h.at_, h.halted, h.due⟩
        have hf : d.forwards isBlocked data = d₁.h2Forwards isBlocked (d.appBuf ++ data) := by
          simp [Doh.forwards, hp, hx, d₁, Doh.h2Forwards]
        rw [hf]
        exact ⟨_, _, by simp [Doh.onAppData, hp, hx, d₁]; rfl,
          h₁.h2Feed rfl rfl (d.appBuf ++ data) (d.appBuf ++ data)⟩
  · obtain ⟨server, hd⟩ := Option.isSome_iff_exists.mp hs
    have hf : d.forwards isBlocked data = d.h2Forwards isBlocked data := by
      simp [Doh.forwards, hp]
    rw [hf]
    exact ⟨_, _, by simp [Doh.onAppData, hp]; rfl, h.h2Feed hp hd data (b ++ data)⟩

theorem wire_ne_nil {m : Message} (hm : m.WellFormed lines) : m.wire ≠ [] := by
  intro he
  have hle := findHeaderEnd_le (RespHead.findHeaderEnd_encode hm.head m.wireBody)
  have hlen := congrArg List.length he
  simp only [Message.wire, List.length_append, List.length_nil] at hlen
  omega

/-- As many responses are done as lie within the bytes that their requests account for. -/
theorem done_le {done left : List Message} {n : ℕ}
    (hw : ∀ m ∈ done ++ left, m.WellFormed lines)
    (h : (wires done).length ≤ (wires ((done ++ left).take n)).length) : done.length ≤ n := by
  by_contra hlt
  have htake : (done ++ left).take n = done.take n :=
    List.take_append_of_le_length (by omega)
  rw [htake] at h
  have hsplit : wires done = wires (done.take n) ++ wires (done.drop n) := by
    rw [wires, wires, wires, ← List.flatMap_append, List.take_append_drop]
  obtain ⟨m, t, hm⟩ : ∃ m t, done.drop n = m :: t := by
    cases hd : done.drop n with
    | nil =>
      have := congrArg List.length hd
      simp only [List.length_drop, List.length_nil] at this
      omega
    | cons m t => exact ⟨m, t, rfl⟩
  have hmem : m ∈ done := List.drop_subset n done (by simp [hm])
  have hpos := List.length_pos_iff.mpr (wire_ne_nil (hw m (by simp [hmem])))
  rw [hsplit, hm] at h
  simp only [wires, List.flatMap_cons, List.length_append] at h
  omega

theorem Paired.onUpstreamData {data : Bytes}
    (h : Paired lines done left b (data ++ rest) log d)
    (hw : ∀ m ∈ done ++ left, m.WellFormed lines) (hread : ∀ m ∈ left, m.Readable)
    {u : Bytes} (hu : u ++ data ++ rest = wires (done ++ left))
    (hcausal : u ++ data <+: wires ((done ++ left).take log.forwarded.length))
    (hd : lines ≤ maxHeaderBytes ∨ data.length ≤ maxHeaderBytes) :
    ∃ done' left', done ++ left = done' ++ left' ∧ Paired lines done' left' b rest
      { log with delivered := log.delivered ++ d.deliveries data } (d.onUpstreamData data).2 := by
  rcases h.proto with ⟨hp, hb, hnil⟩ | ⟨hp, hs⟩
  · obtain ⟨-, rfl⟩ : u = [] ∧ data = [] := by simpa [hnil, wires] using hcausal
    refine ⟨done, left, rfl, ?_⟩
    simpa [Doh.onUpstreamData, Doh.deliveries, hp] using h
  · obtain ⟨server, hserver⟩ := Option.isSome_iff_exists.mp hs
    obtain ⟨done₁, left', hruns⟩ := responsesFeeder_run_at h.at_.ext (Room.piece h.halted hd)
      fun m hm => ⟨hw m (by simp [hm]), hread m hm⟩
    obtain ⟨⟨responses, up, broke⟩, hr⟩ : ∃ r, (responsesFeeder (some maxHeaderBytes)).run
      ⟨{ d.up with buf := d.up.buf ++ data }, false⟩ = r := ⟨_, rfl⟩
    rw [hr] at hruns
    obtain ⟨rfl, hrep, hbroke, hat, hhalt, hdue⟩ := hruns
    obtain rfl : broke = false := hbroke
    obtain rfl : responses = done₁.map Message.response := hrep
    have hsplit : done ++ (done₁ ++ left') = (done ++ done₁) ++ left' := by simp
    have hfeed : d.up.feed data = (done₁.map Message.response, up) := by
      simp only [H1Responses.feed, Feeder.feed]
      exact congrArg (fun r => (r.1, r.2.side)) hr
    have hle : (done ++ done₁).length ≤ log.forwarded.length := by
      rw [hsplit] at hw hcausal hu
      refine done_le hw (hcausal.length_le.trans' ?_)
      have hrest := hat.rest_le
      have hlen := congrArg List.length hu
      simp only [wires, List.flatMap_append, List.length_append] at hlen hrest ⊢
      omega
    have hpend : (done₁.map Message.response).length ≤ d.pending.length := by
      rw [List.length_map, h.pending, List.length_drop]
      rw [List.length_append] at hle
      omega
    refine ⟨done ++ done₁, left', hsplit, ?_⟩
    obtain ⟨out, server', hup⟩ := Doh.h2Upstream_eq hserver hfeed hpend
    simp only [Doh.onUpstreamData, Doh.deliveries, hp, hup]
    refine ⟨Or.inr ⟨rfl, rfl⟩, ?_, ?_, hle, hat, hhalt, hdue⟩
    · simp [h.pending]
    · have hlen : (done.map Message.response).length = (log.forwarded.take done.length).length := by
        rw [List.length_map, List.length_take, Nat.min_eq_left h.queued]
      rw [List.map_append, List.length_append, List.take_add, List.zipWith_append hlen,
        ← h.delivered, h.pending, List.length_map]

end Step

variable (p isBlocked) in
/-- The run so far and the calls still to come. -/
theorem run_paired {lines : ℕ} (ms : List Message)
    (hw : ∀ m ∈ ms, m.WellFormed lines ∧ m.Readable) (ops pre : List DnsStream.Op)
    (hh2 : decideProto (appFed (pre ++ ops)) ≠ some .h1)
    (hup : ∀ q, q <+: ops → ∀ log d, ({} : Doh H).runLogged p isBlocked {} (pre ++ q) = .ok (log, d) →
      upstreamFed (pre ++ q) <+: wires (ms.take log.forwarded.length))
    (hd : lines ≤ maxHeaderBytes ∨ ∀ d, .upstream d ∈ ops → d.length ≤ maxHeaderBytes)
    {log : PairingLog} {d : Doh H} {done left : List Message} {rest : Bytes}
    (hms : ms = done ++ left) (hrest : upstreamFed pre ++ rest = wires ms)
    (hrun : ∀ q, ({} : Doh H).runLogged p isBlocked {} (pre ++ q) = d.runLogged p isBlocked log q)
    (h : Paired lines done left (appFed pre) rest log d) :
    ∃ log' d' done' left' rest', d.runLogged p isBlocked log ops = .ok (log', d') ∧
      ms = done' ++ left' ∧ upstreamFed (pre ++ ops) ++ rest' = wires ms ∧
      Paired lines done' left' (appFed (pre ++ ops)) rest' log' d' := by
  induction ops generalizing pre log d done left rest with
  | nil => exact ⟨log, d, done, left, rest, rfl, hms, by simpa using hrest, by simpa using h⟩
  | cons op ops ih =>
    have hassoc : pre ++ op :: ops = (pre ++ [op]) ++ ops := by simp
    have hup' : ∀ q, q <+: ops → ∀ log d,
        ({} : Doh H).runLogged p isBlocked {} ((pre ++ [op]) ++ q) = .ok (log, d) →
        upstreamFed ((pre ++ [op]) ++ q) <+: wires (ms.take log.forwarded.length) := by
      intro q hq log d hr
      have := hup (op :: q) (by simpa using hq) log d (by simpa using hr)
      simpa using this
    have hd' : lines ≤ maxHeaderBytes ∨ ∀ d, .upstream d ∈ ops → d.length ≤ maxHeaderBytes :=
      hd.imp id fun hd d hm => hd d (by simp [hm])
    rw [hassoc] at hh2 ⊢
    cases op with
    | app data =>
      have ha : appFed (pre ++ [.app data]) = appFed pre ++ data := by simp [appFed]
      have hu : upstreamFed (pre ++ [.app data]) = upstreamFed pre := by simp [upstreamFed]
      have hh1 : decideProto (appFed pre ++ data) ≠ some .h1 := by
        intro hx
        refine hh2 ?_
        have := appFed_mono (List.prefix_append (pre ++ [.app data]) ops)
        obtain ⟨more, hmore⟩ := this
        rw [← hmore, ha]
        exact decideProto_append hx more
      obtain ⟨es, d', hd₁, h'⟩ := h.onAppData p isBlocked hh1
      rw [← ha] at h'
      have hrun' : ∀ q, ({} : Doh H).runLogged p isBlocked {} ((pre ++ [.app data]) ++ q) =
          d'.runLogged p isBlocked
            { log with forwarded := log.forwarded ++ d.forwards isBlocked data } q := by
        intro q
        rw [List.append_assoc, hrun]
        simp [Doh.runLogged, hd₁]
      obtain ⟨log', d'', done', left', rest', hr, hrec⟩ := ih (pre ++ [.app data]) hh2 hup' hd'
        hms (by rwa [hu]) hrun' h'
      exact ⟨log', d'', done', left', rest', by simp [Doh.runLogged, hd₁, hr], hrec⟩
    | upstream data =>
      have ha : appFed (pre ++ [.upstream data]) = appFed pre := by simp [appFed]
      have hu : upstreamFed (pre ++ [.upstream data]) = upstreamFed pre ++ data := by
        simp [upstreamFed]
      have hrun' : ∀ q, ({} : Doh H).runLogged p isBlocked {} ((pre ++ [.upstream data]) ++ q) =
          (d.onUpstreamData data).2.runLogged p isBlocked
            { log with delivered := log.delivered ++ d.deliveries data } q := by
        intro q
        rw [List.append_assoc, hrun]
        rfl
      have hcausal := hup' [] (List.nil_prefix) _ _ (hrun' [])
      rw [List.append_nil, hu] at hcausal
      obtain ⟨rest₁, hrest₁⟩ : upstreamFed pre ++ data <+: wires ms :=
        hcausal.trans ⟨wires (ms.drop log.forwarded.length), by
          rw [wires, wires, wires, ← List.flatMap_append, List.take_append_drop]⟩
      obtain rfl : rest = data ++ rest₁ := by
        rw [← hrest, List.append_assoc] at hrest₁
        exact (List.append_cancel_left hrest₁).symm
      subst hms
      obtain ⟨done', left', hms', h'⟩ := h.onUpstreamData (fun m hm => (hw m hm).1)
        (fun m hm => (hw m (by simp [hm])).2) hrest₁ hcausal (hd.imp id fun hd => hd data (by simp))
      rw [← ha] at h'
      obtain ⟨log', d'', done'', left'', rest', hr, hrec⟩ := ih (pre ++ [.upstream data]) hh2 hup'
        hd' hms' (by rw [hu, hrest₁]) hrun' h'
      exact ⟨log', d'', done'', left'', rest', by simp [Doh.runLogged, hr], hrec⟩

theorem wires_answers {answers : List Answer} (h : ∀ a ∈ answers, a.interims = []) :
    answers.flatMap Answer.wire = wires (answers.map Answer.final) := by
  induction answers with
  | nil => rfl
  | cons a answers ih =>
    rw [List.flatMap_cons, ih fun a ha => h a (by simp [ha])]
    simp [Answer.wire, h a (by simp), wires]

/-- A run under the condition, from the start. -/
theorem Answered.paired {lines : ℕ} {answers : List Answer} {ops : List DnsStream.Op}
    (hrun : Answered H p isBlocked lines answers ops) (hread : ∀ a ∈ answers, a.Readable)
    (hlines : lines ≤ maxHeaderBytes ∨ ∀ d, .upstream d ∈ ops → d.length ≤ maxHeaderBytes) :
    ∃ log d done left rest, ({} : Doh H).runLogged p isBlocked {} ops = .ok (log, d) ∧
      answers.map Answer.final = done ++ left ∧
      upstreamFed ops ++ rest = wires (answers.map Answer.final) ∧
      Paired lines done left (appFed ops) rest log d := by
  have halone : ∀ a ∈ answers, a.interims = [] := fun a ha => (hread a ha).alone
  have hw : ∀ m ∈ answers.map Answer.final, m.WellFormed lines ∧ m.Readable := by
    simp only [List.mem_map]
    rintro _ ⟨a, ha, rfl⟩
    exact ⟨(hrun.wellFormed a ha).final, (hread a ha).final⟩
  have hstart : Paired (H := H) lines [] (answers.map Answer.final) []
      (wires (answers.map Answer.final)) {} {} := by
    refine ⟨Or.inl ⟨rfl, rfl, rfl⟩, rfl, rfl, Nat.le_refl _, .head rfl, rfl, ?_⟩
    rintro m t hm
    rw [hm] at hw ⊢
    have := List.length_pos_iff.mpr (wire_ne_nil (hw m (by simp)).1)
    simp only [wires, List.flatMap_cons, List.length_append]
    omega
  obtain ⟨log, d, done, left, rest, hr, hms, hu, hp⟩ := run_paired p isBlocked
    (answers.map Answer.final) hw ops [] hrun.h2 (fun q hq log d hq' => by
      rw [List.nil_append, ← List.map_take, ← wires_answers fun a ha =>
        halone a (List.take_subset _ _ ha)]
      exact hrun.upstream q hq log d hq') hlines rfl rfl (fun q => rfl) hstart
  exact ⟨log, d, done, left, rest, hr, hms, hu, hp⟩

/-- The resolver sends nothing before a request was forwarded, so what the app is sent for its bytes
are deliveries. -/
theorem Answered.responds {lines : ℕ} {answers : List Answer} {ops pre : List DnsStream.Op}
    {data : Bytes} (hrun : Answered H p isBlocked lines answers ops)
    (hread : ∀ a ∈ answers, a.Readable)
    (hlines : lines ≤ maxHeaderBytes ∨ ∀ d, .upstream d ∈ ops → d.length ≤ maxHeaderBytes)
    (hpre : pre ++ [.upstream data] <+: ops) {log : PairingLog} {d : Doh H}
    (hr : ({} : Doh H).runLogged p isBlocked {} pre = .ok (log, d)) : d.Responds data := by
  have hpre' : pre <+: ops := (List.prefix_append _ _).trans hpre
  obtain ⟨log', d', _, _, _, hr', -, -, hp⟩ := (hrun.initial hpre').paired hread
    (hlines.imp id fun h d hd => h d (hpre'.subset hd))
  obtain ⟨rfl, rfl⟩ := Prod.mk.inj (Except.ok.inj (hr'.symm.trans hr))
  rcases hp.proto with ⟨hproto, -, hnil⟩ | ⟨hproto, -⟩
  · have hfed : upstreamFed (pre ++ [.upstream data]) = upstreamFed pre ++ data := by
      simp [upstreamFed]
    have hnext : ({} : Doh H).runLogged p isBlocked {} (pre ++ [.upstream data]) = _ :=
      runLogged_concat hr data
    have hnone := hrun.upstream _ hpre _ _ hnext
    obtain ⟨-, rfl⟩ : upstreamFed pre = [] ∧ data = [] := by simpa [hfed, hnil] using hnone
    cases hd : d'.h2 with
    | none => simp [Doh.Responds, Doh.onUpstreamData, hproto, hd]
    | some server =>
      simp [Doh.Responds, Doh.onUpstreamData, Doh.deliveries, hproto, hd, H2Server.responded,
        H2Server.deliverAll]
  · have hfresh : ({} : Doh H).Drained := by
      intro server h
      cases h
    exact (hfresh.runLogged hr).responds hproto data

/-- When no interim response comes and each final one is readable, the answers that have arrived
in full are exactly the responses delivered, each to the stream of its request, and what the app is
sent is what `respond` writes for them. -/
theorem doh_h2_pairing {lines : ℕ} {answers : List Answer} {ops : List DnsStream.Op}
    (hrun : Answered H p isBlocked lines answers ops) (hread : ∀ a ∈ answers, a.Readable)
    (hlines : lines ≤ maxHeaderBytes ∨ ∀ d, .upstream d ∈ ops → d.length ≤ maxHeaderBytes) :
    (∃ log d, ({} : Doh H).runLogged p isBlocked {} ops = .ok (log, d) ∧
      whole (upstreamFed ops).length (answers.map Answer.wire) ≤ log.forwarded.length ∧
      log.delivered = List.zipWith (fun a => a.final.response.deliveredTo)
        (answers.take (whole (upstreamFed ops).length (answers.map Answer.wire)))
        (log.forwarded.take (whole (upstreamFed ops).length (answers.map Answer.wire)))) ∧
    ∀ pre data, pre ++ [.upstream data] <+: ops → ∀ log d,
      ({} : Doh H).runLogged p isBlocked {} pre = .ok (log, d) → d.Responds data := by
  refine ⟨?_, fun pre data hpre log d hr => hrun.responds hread hlines hpre hr⟩
  obtain ⟨log, d, done, left, rest, hr, hms, hu, hp⟩ := hrun.paired hread hlines
  have hwire : answers.map Answer.wire = (answers.map Answer.final).map Message.wire := by
    rw [List.map_map]
    refine List.map_congr_left fun a ha => ?_
    simp [Answer.wire, (hread a ha).alone]
  have hlen := congrArg List.length hu
  have hcount : whole (upstreamFed ops).length (answers.map Answer.wire) = done.length := by
    have hrest := hp.at_.rest_le
    rw [hms] at hlen
    rw [hwire, hms, List.map_append, ← List.length_map (f := Message.wire)]
    simp only [wires, List.flatMap_def, List.map_append, List.flatten_append, List.length_append]
      at hlen hrest
    refine whole_append (by omega) ?_
    rintro w t hwt
    obtain ⟨m, t', rfl, rfl, -⟩ := List.map_eq_cons_iff.mp hwt
    have := hp.due m t' rfl
    simp only [wires, List.flatMap_def, List.map_cons, List.flatten_cons, List.length_append]
      at this hlen
    omega
  refine ⟨log, d, hr, hcount ▸ hp.queued, ?_⟩
  have hdone : done.map Message.response =
      (answers.take done.length).map fun a => a.final.response := by
    have htake : (answers.map Answer.final).take done.length = done := by
      rw [hms, List.take_left' rfl]
    rw [← List.map_take] at htake
    conv_lhs => rw [← htake]
    rw [List.map_map]
    rfl
  rw [hcount, hp.delivered, hdone, List.zipWith_map_left]

private def query (id : UInt32) (name : Bytes) : Bytes :=
  frameBytes tHeaders (fEndHeaders ||| fEndStream) id
    ([0x82, 0x04, 10] ++ ascii "/?name=" ++ name)

private def queryOrg : Bytes := preface ++ query 1 (ascii "org")

private def continueHead : RespHead :=
  { code := ascii "100", reason := ascii "Continue", fields := [] }

private def twoBytes : List Field := [{ name := ascii "Content-Length", value := ascii " 2" }]

private def okMessage : Message where
  head := { code := ascii "200", reason := ascii "OK", fields := twoBytes }
  wireBody := ascii "ok"
  body := ascii "ok"

private def noMessage : Message where
  head := { code := ascii "404", reason := ascii "No", fields := twoBytes }
  wireBody := ascii "no"
  body := ascii "no"

/-- A message whose only field says that its body has two bytes. -/
private structure Message.TwoBytes (m : Message) : Prop where
  code : m.head.code.length = 3 ∧ ∀ b ∈ m.head.code, isDigit b
  cr : CR ∉ m.head.reason
  lf : LF ∉ m.head.reason
  fields : m.head.fields = twoBytes
  bodied : ¬ Bodiless m.head.status
  wireBody : m.wireBody = m.body
  body : m.body.length = 2

set_option maxRecDepth 4000 in
private theorem Message.TwoBytes.wellFormed {m : Message} (h : m.TwoBytes) : m.WellFormed 0 := by
  have hlen : fieldValues m.head.headers "content-length" = [Str.ofNat 2] := by
    rw [RespHead.headers, h.fields]
    decide
  refine ⟨⟨h.code, h.cr, h.lf, ?_⟩, ?_⟩
  · rw [h.fields]
    simp only [twoBytes, List.mem_singleton, forall_eq]
    exact ⟨by decide, by decide, by decide, by decide⟩
  · rw [h.wireBody]
    refine .sized h.bodied ⟨?_, ?_, ?_⟩ (by rw [h.body]; decide)
    · simp [hlen]
    · simp only [hlen, List.mem_singleton, forall_eq, h.body]
      exact ⟨Str.toDigits_isDigits (by omega) (by omega) _,
        (Str.toDigits_digits (by omega) (by omega) _).2⟩
    · rw [RespHead.headers, h.fields]
      decide

private theorem Message.TwoBytes.readable {m : Message} (h : m.TwoBytes)
    (hfinal : ¬ Interim m.head.status) (hreason : (Str.fromUtf8 m.head.reason).isSome) :
    m.Readable := by
  have hnone : fieldValues m.head.headers "transfer-encoding" = [] := by
    rw [RespHead.headers, h.fields]
    decide
  exact ⟨hfinal, hreason, fun hc => absurd hc (by simp [ChunkedCoding, hnone]), fun _ _ => by
    rw [h.body]
    decide⟩

set_option maxRecDepth 4000 in
private theorem okMessage_sized : okMessage.TwoBytes :=
  ⟨by decide, by decide, by decide, rfl, by decide, rfl, rfl⟩

set_option maxRecDepth 4000 in
private theorem noMessage_sized : noMessage.TwoBytes :=
  ⟨by decide, by decide, by decide, rfl, by decide, rfl, rfl⟩

set_option maxRecDepth 4000 in
private theorem continueHead_wellFormed : continueHead.WellFormed :=
  ⟨by decide, by decide, by decide, by simp [continueHead]⟩

private def inTurn (answers : List Answer) (pre : List DnsStream.Op) : Bool :=
  match ({} : Doh literalHpack).runLogged .release (fun _ => false) {} pre with
  | .ok (log, _) => (upstreamFed pre).isPrefixOf
      ((answers.take log.forwarded.length).flatMap Answer.wire)
  | .error _ => true

private theorem answered_of_inTurn {answers : List Answer} {ops : List DnsStream.Op}
    (hh2 : decideProto (appFed ops) ≠ some .h1) (hw : ∀ a ∈ answers, a.WellFormed 0)
    (hturn : ∀ pre ∈ ops.inits, inTurn answers pre) :
    Answered literalHpack .release (fun _ => false) 0 answers ops := by
  refine ⟨hh2, hw, fun pre hpre log d hr => ?_⟩
  have h := hturn pre ((List.mem_inits _ _).mpr hpre)
  rw [inTurn, hr] at h
  exact List.isPrefixOf_iff_prefix.mp h

/-- Two streams wait for the resolver, whose second answer is cut inside its head. -/
private def twoStreams : List DnsStream.Op :=
  [.app queryOrg, .app (query 3 (ascii "net")), .upstream (okMessage.wire ++ noMessage.wire.take 20),
    .upstream (noMessage.wire.drop 20)]

theorem doh_h2_pairing_two :
    (∃ log d, ({} : Doh literalHpack).runLogged .release (fun _ => false) {} twoStreams =
        .ok (log, d) ∧
      log.delivered = [okMessage.response.deliveredTo 1, noMessage.response.deliveredTo 3]) ∧
    ∀ log d, ({} : Doh literalHpack).runLogged .release (fun _ => false) {} (twoStreams.take 3) =
      .ok (log, d) → d.Responds (noMessage.wire.drop 20) := by
  have hrun : Answered literalHpack .release (fun _ => false) 0 [⟨[], okMessage⟩, ⟨[], noMessage⟩]
      twoStreams := by
    refine answered_of_inTurn (by decide +kernel) ?_ (by decide +kernel)
    intro a ha
    rcases List.mem_pair.mp ha with rfl | rfl
    · exact ⟨by simp, okMessage_sized.wellFormed, by decide⟩
    · exact ⟨by simp, noMessage_sized.wellFormed, by decide⟩
  have hread : ∀ a ∈ [(⟨[], okMessage⟩ : Answer), ⟨[], noMessage⟩], a.Readable := by
    intro a ha
    rcases List.mem_pair.mp ha with rfl | rfl
    · exact ⟨rfl, okMessage_sized.readable (by decide) (by decide +kernel)⟩
    · exact ⟨rfl, noMessage_sized.readable (by decide) (by decide +kernel)⟩
  obtain ⟨⟨log, d, hr, -, hd⟩, hresponds⟩ := doh_h2_pairing hrun hread (Or.inl (by decide))
  have hn : whole (upstreamFed twoStreams).length
      ([⟨[], okMessage⟩, ⟨[], noMessage⟩].map Answer.wire) = 2 := by decide +kernel
  have hforwarded : (({} : Doh literalHpack).runLogged .release (fun _ => false) {} twoStreams).map
      (fun r => r.1.forwarded) = .ok [1, 3] := by decide +kernel
  rw [hr] at hforwarded
  have hlog : log.forwarded = [1, 3] := Except.ok.inj hforwarded
  rw [hn, hlog] at hd
  exact ⟨⟨log, d, hr, hd⟩, hresponds _ _ (List.prefix_refl _)⟩

/-- An interim response takes the place of the answer, and the answer is dropped. -/
theorem doh_h2_interim_delivered :
    Answered literalHpack .release (fun _ => false) 0 [⟨[continueHead], okMessage⟩]
      [.app queryOrg, .upstream (continueHead.encode ++ okMessage.wire)] ∧
    (({} : Doh literalHpack).runLogged .release (fun _ => false) {}
        [.app queryOrg, .upstream (continueHead.encode ++ okMessage.wire)]).map
      (fun r => (r.1.forwarded, r.1.delivered)) =
      .ok ([1], [⟨1, 100, Str.lit "application/dns-message", []⟩]) := by
  refine ⟨answered_of_inTurn (by decide +kernel) ?_ (by decide +kernel), by decide +kernel⟩
  simp only [List.mem_singleton, forall_eq]
  exact ⟨by simpa using ⟨continueHead_wellFormed, by decide, by decide⟩,
    okMessage_sized.wellFormed, by decide⟩

end Adwarden.Tls
