import Adwarden.Lib.Pipeline
import Adwarden.Tls.DohPanic

/-! The order of responses on an HTTP/1.1 DoH connection: blocked requests are answered at once,
the others by the resolver. -/
namespace Adwarden.Tls
open Adwarden.Lib

variable {H : Hpack} {p : Profile} {isBlocked : Str → Bool}

/-- A request on the connection, and the resolver's response to it if it is forwarded. -/
structure Exchange where
  request : Bytes
  response : Bytes

/-- `req` is one whole request: its head is followed and its body is as long as the head declares,
or the head is not followed. -/
inductive IsRequest (req : Bytes) : Prop
  | followed {hend : ℕ} {h : H1Head} (he : findHeaderEnd req = some hend)
      (hh : h1Head (req.take hend) = some h) (hlen : hend + h.bodyLen = req.length)
      (hsize : req.length < usizeSize)
  | unfollowed {hend : ℕ} (he : findHeaderEnd req = some hend)
      (hh : h1Head (req.take hend) = none)

def requestHead (req : Bytes) : Option (ℕ × H1Head) :=
  (findHeaderEnd req).bind fun hend => (h1Head (req.take hend)).map fun h => (hend, h)

def isRequest (req : Bytes) : Bool :=
  match requestHead req with
  | some (hend, h) => hend + h.bodyLen = req.length ∧ req.length < usizeSize
  | none => (findHeaderEnd req).isSome

theorem isRequest_iff (req : Bytes) : isRequest req ↔ IsRequest req := by
  constructor
  · unfold isRequest
    cases he : findHeaderEnd req with
    | none => simp [requestHead, he]
    | some hend =>
      cases hh : h1Head (req.take hend) with
      | none => exact fun _ => .unfollowed he hh
      | some h =>
        simp only [requestHead, he, hh, Option.bind_some, Option.map_some, decide_eq_true_eq]
        exact fun hlen => .followed he hh hlen.1 hlen.2
  · intro hr
    cases hr with
    | followed he hh hlen hsize => simpa [isRequest, requestHead, he, hh] using ⟨hlen, hsize⟩
    | unfollowed he hh => simp [isRequest, requestHead, he, hh]

instance (req : Bytes) : Decidable (IsRequest req) := decidable_of_iff _ (isRequest_iff req)

/-- The local response to a request whose query is blocked. -/
def localAnswer (isBlocked : Str → Bool) (req : Bytes) (hend : ℕ) (h : H1Head) : Option Bytes :=
  (h1Answer isBlocked h.method h.target (h1ContentType h.headers) (req.drop hend)).map (·.2)

/-- Who answers each request. From the first request that is not followed on, the resolver does. -/
def slots (isBlocked : Str → Bool) : List Exchange → List (Slot UInt8)
  | [] => []
  | e :: es =>
    match requestHead e.request with
    | none => (e :: es).map fun e => { answer := none, response := e.response }
    | some (hend, h) =>
      { answer := localAnswer isBlocked e.request hend h, response := e.response } ::
        slots isBlocked es

/-- How many requests lie within the first `n` bytes of the connection. -/
def completed (n : ℕ) (es : List Exchange) : ℕ := whole n (es.map Exchange.request)

def requestStream (es : List Exchange) : Bytes := es.flatMap Exchange.request

/-- The slots of the requests that lie within the first `n` bytes. -/
def handled (isBlocked : Str → Bool) (es : List Exchange) (n : ℕ) : List (Slot UInt8) :=
  (slots isBlocked es).take (completed n es)

theorem localPart_of_remote (es : List Exchange) (n : ℕ) :
    ((es.map fun e => ({ answer := none, response := e.response } : Slot UInt8)).take n).flatMap
      Slot.localPart = [] := by
  induction es generalizing n with
  | nil => simp
  | cons e es ih =>
    cases n with
    | zero => rfl
    | succ n => simpa [Slot.localPart] using ih n

theorem toApp_h1Request (h : H1Head) (req : Bytes) (hend : ℕ) :
    DnsEmit.toApp (h1Request isBlocked h.method h.target (h1ContentType h.headers)
      (req.drop hend) req) = (localAnswer isBlocked req hend h).getD [] := by
  unfold h1Request localAnswer
  cases h1Answer isBlocked h.method h.target (h1ContentType h.headers) (req.drop hend) with
  | none => simp
  | some r => simp

/-- A buffer that is still inside its first request waits. -/
theorem h1Step_partial {s : H1Side} {rest req : Bytes} (hs : s.h1Passthrough = false)
    (hreq : s.appBuf ++ rest = req) (hlt : s.appBuf.length < req.length) (hr : IsRequest req)
    (hf : (requestHead req).isSome) : h1Step p isBlocked ⟨s, none⟩ = none := by
  cases hr with
  | unfollowed he hh => simp [requestHead, he, hh] at hf
  | @followed hend h he hh hlen hsize =>
    cases hb : findHeaderEnd s.appBuf with
    | none => simp [h1Step, hs, hb]
    | some hend' =>
      have happ := findHeaderEnd_append rest hb
      rw [hreq, he] at happ
      obtain rfl := Option.some.inj happ
      have hle := (findHeaderEnd_le hb).2
      rw [← hreq, List.take_append_of_le_length hle] at hh
      rw [h1Step_of_head hs hb, h1Iteration_fits hb hh (by omega), if_pos (by omega)]

/-- A whole request that is followed is taken off the buffer in one iteration. -/
theorem h1Step_request {req : Bytes} {hend : ℕ} {h : H1Head} (hr : IsRequest req)
    (hf : requestHead req = some (hend, h)) (authority : Str) (b : Bytes) :
    (h1Feeder p isBlocked).step ⟨{ appBuf := req ++ b, authority }, none⟩ = some (
      h1Request isBlocked h.method h.target (h1ContentType h.headers) (req.drop hend) req,
      ⟨{ appBuf := b, authority := learnAuthority authority h.headers }, none⟩) := by
  cases hr with
  | unfollowed he hh => simp [requestHead, he, hh] at hf
  | followed he hh hlen hsize =>
    simp only [requestHead, he, hh, Option.bind_some, Option.map_some, Option.some.injEq,
      Prod.mk.injEq] at hf
    obtain ⟨rfl, rfl⟩ := hf
    have hle := (findHeaderEnd_le he).2
    have hstep := h1Step_fits p isBlocked
      (s := { appBuf := req ++ b, authority }) rfl (findHeaderEnd_append b he)
      (by rwa [List.take_append_of_le_length hle]) (by omega)
      (by rw [List.length_append]; omega)
    simp only [hlen, List.take_left', List.drop_left'] at hstep
    exact hstep

/-- A request that is not followed leaves nothing to answer. -/
theorem h1Feeder_run_unfollowed {req b rest : Bytes} (hr : IsRequest req)
    (hf : requestHead req = none) (authority : Str) (hb : b <+: req ++ rest) :
    ((h1Feeder p isBlocked).run ⟨{ appBuf := b, authority }, none⟩).2.panic = none ∧
      DnsEmit.toApp ((h1Feeder p isBlocked).run ⟨{ appBuf := b, authority }, none⟩).1 = [] := by
  cases hr with
  | followed he hh => simp [requestHead, he, hh] at hf
  | @unfollowed n he hh =>
    cases hbe : findHeaderEnd b with
    | none =>
      have hstop : (h1Feeder p isBlocked).step ⟨{ appBuf := b, authority }, none⟩ = none := by
        simp [h1Feeder, h1Step, hbe]
      rw [(h1Feeder p isBlocked).run_none hstop]
      exact ⟨rfl, rfl⟩
    | some hend =>
      obtain ⟨x, hx⟩ := hb
      have happ := findHeaderEnd_append x hbe
      rw [hx, findHeaderEnd_append rest he] at happ
      have hn : n = hend := Option.some.inj happ
      subst hn
      have hhead : h1Head (b.take n) = none := by
        have htake : b.take n = (b ++ x).take n :=
          (List.take_append_of_le_length (findHeaderEnd_le hbe).2).symm
        rw [htake, hx,
          List.take_append_of_le_length (findHeaderEnd_le he).2]
        exact hh
      have hstep : (h1Feeder p isBlocked).step ⟨{ appBuf := b, authority }, none⟩ =
          some ([], ⟨{ appBuf := b, authority, h1Passthrough := true }, none⟩) :=
        h1Step_passthrough (s := { appBuf := b, authority }) rfl hbe hhead
      rw [(h1Feeder p isBlocked).run_some hstep, h1Feeder_run_passthrough p isBlocked rfl]
      simp

variable (p isBlocked) in
/-- What the filter has answered after any prefix of the connection. -/
theorem h1Feeder_run_answers (es : List Exchange) (hes : ∀ e ∈ es, IsRequest e.request)
    (b : Bytes) (authority : Str) (hb : b <+: requestStream es) :
    ((h1Feeder p isBlocked).run ⟨{ appBuf := b, authority }, none⟩).2.panic = none ∧
      DnsEmit.toApp ((h1Feeder p isBlocked).run ⟨{ appBuf := b, authority }, none⟩).1 =
        (handled isBlocked es b.length).flatMap Slot.localPart := by
  induction es generalizing b authority with
  | nil =>
    obtain rfl : b = [] := by simpa [requestStream] using hb
    rw [(h1Feeder p isBlocked).run_none rfl]
    simp [handled, slots]
  | cons e es ih =>
    have hr := hes e (by simp)
    have hstream : requestStream (e :: es) = e.request ++ requestStream es := rfl
    rw [hstream] at hb
    cases hf : requestHead e.request with
    | none =>
      have hlocal : (handled isBlocked (e :: es) b.length).flatMap Slot.localPart = [] := by
        rw [handled, slots, hf]
        exact localPart_of_remote (e :: es) _
      rw [hlocal]
      exact h1Feeder_run_unfollowed hr hf authority hb
    | some r =>
      obtain ⟨hend, h⟩ := r
      have hsl : slots isBlocked (e :: es) =
          { answer := localAnswer isBlocked e.request hend h, response := e.response } ::
            slots isBlocked es := by rw [slots, hf]
      by_cases hle : e.request.length ≤ b.length
      · obtain ⟨b', rfl⟩ := List.prefix_of_prefix_length_le (List.prefix_append _ _) hb hle
        obtain ⟨hpanic, happ⟩ := ih (fun e he => hes e (by simp [he])) b'
          (learnAuthority authority h.headers) ((List.prefix_append_right_inj _).mp hb)
        rw [(h1Feeder p isBlocked).run_some (h1Step_request hr hf authority b')]
        refine ⟨hpanic, ?_⟩
        rw [DnsEmit.toApp_append, toApp_h1Request, happ]
        simp [handled, hsl, completed, whole, Slot.localPart]
      · obtain ⟨rest, hrest⟩ := List.prefix_of_prefix_length_le hb (List.prefix_append _ _)
          (Nat.le_of_not_le hle)
        have hstop : (h1Feeder p isBlocked).step ⟨{ appBuf := b, authority }, none⟩ = none :=
          h1Step_partial (s := { appBuf := b, authority }) rfl hrest (Nat.not_le.mp hle) hr
            (by simp [hf])
        rw [(h1Feeder p isBlocked).run_none hstop]
        simp [handled, completed, whole, hle]

def appFed (ops : List DnsStream.Op) : Bytes :=
  ops.flatMap fun | .app d => d | .upstream _ => []

def upstreamFed (ops : List DnsStream.Op) : Bytes :=
  ops.flatMap fun | .app _ => [] | .upstream d => d

/-- A run on one HTTP/1.1 connection: the app sends the requests in any cut, and the resolver
sends the responses to the forwarded ones, in order and each after its request. -/
structure Pipelined (isBlocked : Str → Bool) (es : List Exchange) (ops : List DnsStream.Op) :
    Prop where
  requests : ∀ e ∈ es, IsRequest e.request
  h1 : ¬ preface <+: requestStream es
  app : appFed ops <+: requestStream es
  upstream : ∀ pre, pre <+: ops →
    upstreamFed pre <+: (handled isBlocked es (appFed pre).length).flatMap Slot.relayed

/-- Whenever a call completes a blocked request, the responses to all requests before it have been
relayed in full. -/
def AnsweredInTurn (isBlocked : Str → Bool) (es : List Exchange) (ops : List DnsStream.Op) : Prop :=
  ∀ pre d, pre ++ [.app d] <+: ops → ∀ i s, (slots isBlocked es)[i]? = some s → s.answer.isSome →
    completed (appFed pre).length es ≤ i → i < completed (appFed pre ++ d).length es →
      (((slots isBlocked es).take i).flatMap Slot.relayed).length ≤ (upstreamFed pre).length

/-- What the state remembers of the app bytes `b`: all of them while the protocol is undecided,
what the loop has left of them afterwards. -/
inductive FedH1 (p : Profile) (isBlocked : Str → Bool) (b : Bytes) : DnsStream H → Prop
  | undecided (blocked : List Str) (hb : decideProto b = none) :
      FedH1 p isBlocked b { blocked, inner := .doh { appBuf := b } }
  | decided (blocked : List Str)
      (hp : ((h1Feeder p isBlocked).run ⟨{ appBuf := b }, none⟩).2.panic = none) :
      FedH1 p isBlocked b { blocked, inner := .doh {
        toH1Side := ((h1Feeder p isBlocked).run ⟨{ appBuf := b }, none⟩).2.side, proto := .h1 } }

theorem decideProto_ne_undecided (b : Bytes) : decideProto b ≠ some .undecided := by
  unfold decideProto
  split_ifs <;> simp

/-- Read as HTTP/1.1, the preface is a request without a query and one that is not followed. -/
theorem slots_preface : slots isBlocked
    [⟨preface.take 18, []⟩, ⟨preface.drop 18, []⟩] = [⟨none, []⟩, ⟨none, []⟩] := by
  have h1 : requestHead (preface.take 18) = some (18, ⟨Str.lit "PRI", Str.lit "*", [], 0⟩) := by
    decide
  have h2 : requestHead (preface.drop 18) = none := by decide
  have hq : extractQuery (Str.lit "PRI") (Str.lit "*") (h1ContentType []) [] = .unknown := by
    decide
  simp [slots, h1, h2, localAnswer, h1Answer, hq]

/-- Nothing that may still become the preface is answered. -/
theorem toApp_undecided {b : Bytes} (hb : decideProto b = none) :
    DnsEmit.toApp ((h1Feeder p isBlocked).run ⟨{ appBuf := b }, none⟩).1 = [] := by
  have hpre : b <+: preface := by
    unfold decideProto at hb
    split_ifs at hb with _ _ h
    exact h
  have hreq : ∀ e ∈ [(⟨preface.take 18, []⟩ : Exchange), ⟨preface.drop 18, []⟩],
      IsRequest e.request := by
    simp only [List.mem_cons, List.not_mem_nil, or_false, forall_eq_or_imp, forall_eq]
    refine ⟨@IsRequest.followed _ 18 ⟨Str.lit "PRI", Str.lit "*", [], 0⟩ ?_ ?_ ?_ ?_,
      @IsRequest.unfollowed _ 6 ?_ ?_⟩ <;> decide
  have happ := (h1Feeder_run_answers p isBlocked _ hreq b [] hpre).2
  rw [happ, handled, slots_preface]
  match completed b.length _ with
  | 0 => rfl
  | 1 => rfl
  | n + 2 => simp [Slot.localPart]

theorem FedH1.onUpstreamData {b : Bytes} {s : DnsStream H} (hs : FedH1 p isBlocked b s)
    (d : Bytes) : s.onUpstreamData d = (d, s) := by
  cases hs <;> rfl

/-- One call answers exactly what its bytes complete. -/
theorem FedH1.onAppData {b : Bytes} {s : DnsStream H} (hs : FedH1 p isBlocked b s) (d : Bytes)
    (hh2 : decideProto (b ++ d) ≠ some .h2)
    (hp : ((h1Feeder p isBlocked).run ⟨{ appBuf := b ++ d }, none⟩).2.panic = none) :
    ∃ out s', s.onAppData p isBlocked d = .ok (out, s') ∧ FedH1 p isBlocked (b ++ d) s' ∧
      DnsEmit.toApp ((h1Feeder p isBlocked).run ⟨{ appBuf := b ++ d }, none⟩).1 =
        DnsEmit.toApp ((h1Feeder p isBlocked).run ⟨{ appBuf := b }, none⟩).1 ++ out.toApp := by
  cases hs with
  | undecided blocked hb =>
    rw [toApp_undecided hb]
    cases hx : decideProto (b ++ d) with
    | none =>
      refine ⟨{}, _, ?_, .undecided blocked hx, by simp [toApp_undecided hx]⟩
      simp [DnsStream.onAppData, Doh.onAppData, hx, Except.map, DnsEmit.cross]
    | some proto =>
      cases proto with
      | undecided => exact absurd hx (decideProto_ne_undecided _)
      | h2 => exact absurd hx hh2
      | h1 =>
        refine ⟨DnsEmit.cross ((h1Feeder p isBlocked).run ⟨{ appBuf := b ++ d }, none⟩).1, _, ?_,
          .decided (blocked ++
            DnsEmit.names ((h1Feeder p isBlocked).run ⟨{ appBuf := b ++ d }, none⟩).1) hp, rfl⟩
        simp [DnsStream.onAppData, Doh.onAppData, hx, Doh.h1Feed, H1Side.h1Feed, Feeder.feed,
          Feeder.ext_nil, hp, Except.map]
  | decided blocked hb =>
    have hrun := h1Feeder_incremental.run_ext (F := h1Feeder p isBlocked)
      ⟨{ appBuf := b }, none⟩ d
    change (h1Feeder p isBlocked).run ⟨{ appBuf := b ++ d }, none⟩ = _ at hrun
    obtain ⟨⟨o, side, panic⟩, hr⟩ :
      ∃ r, (h1Feeder p isBlocked).run ⟨{ appBuf := b }, none⟩ = r := ⟨_, rfl⟩
    rw [hr] at hb hrun ⊢
    obtain rfl : panic = none := hb
    have hdec := FedH1.decided (H := H) (b := b ++ d)
      (blocked ++ DnsEmit.names ((h1Feeder p isBlocked).feed ⟨side, none⟩ d).1) hp
    rw [hrun] at hp hdec
    refine ⟨DnsEmit.cross ((h1Feeder p isBlocked).feed ⟨side, none⟩ d).1, _, ?_, hdec, ?_⟩
    · simp only at hp
      simp [DnsStream.onAppData, Doh.onAppData, Doh.h1Feed, H1Side.h1Feed, hp, Except.map]
    · simp [hrun, DnsEmit.cross]

theorem IsRequest.ne_nil {req : Bytes} (h : IsRequest req) : req ≠ [] := by
  rintro rfl
  have hnone : findHeaderEnd [] = none := by decide
  cases h with
  | followed he => simp [hnone] at he
  | unfollowed he => simp [hnone] at he

theorem completed_zero {es : List Exchange} (hes : ∀ e ∈ es, IsRequest e.request) :
    completed 0 es = 0 := by
  refine whole_zero ?_
  simp only [List.mem_map]
  rintro _ ⟨e, he, rfl⟩
  exact (hes e he).ne_nil

theorem completed_all (es : List Exchange) :
    completed (requestStream es).length es = es.length := by
  rw [completed, requestStream, List.flatMap_def, whole_flatten, List.length_map]

variable (isBlocked) in
theorem slots_length (es : List Exchange) : (slots isBlocked es).length = es.length := by
  induction es with
  | nil => rfl
  | cons e es ih =>
    rw [slots]
    split
    · simp
    · simp [ih]

variable (isBlocked) in
/-- The slots completed by the next `d` bytes. -/
theorem handled_append (es : List Exchange) {m n : ℕ} (h : m ≤ n) :
    handled isBlocked es n = handled isBlocked es m ++
      ((slots isBlocked es).take (completed n es)).drop (completed m es) := by
  have hle : completed m es ≤ completed n es := whole_mono _ h
  have ht : handled isBlocked es m =
      ((slots isBlocked es).take (completed n es)).take (completed m es) := by
    rw [handled, List.take_take, Nat.min_eq_left hle]
  rw [ht, List.take_append_drop, handled]

theorem appFed_mono {pre ops : List DnsStream.Op} (h : pre <+: ops) :
    appFed pre <+: appFed ops := by
  obtain ⟨post, rfl⟩ := h
  simp [appFed]

theorem preface_prefix_of_h2 {b : Bytes} (h : decideProto b = some .h2) : preface <+: b := by
  unfold decideProto at h
  split_ifs at h with hle heq
  · rw [← heq]
    exact List.take_prefix _ _
  · simp at h
  · simp at h

/-- The condition, read on the slots that one call completes. -/
theorem batch_inTurn {es : List Exchange} {pre ops : List DnsStream.Op} {d : Bytes}
    (hturn : AnsweredInTurn isBlocked es ops) (hpre : pre ++ [.app d] <+: ops) (i : ℕ)
    (s : Slot UInt8)
    (hs : (((slots isBlocked es).take (completed (appFed pre ++ d).length es)).drop
      (completed (appFed pre).length es))[i]? = some s) (ha : s.answer.isSome) :
    ((handled isBlocked es (appFed pre).length ++
      (((slots isBlocked es).take (completed (appFed pre ++ d).length es)).drop
        (completed (appFed pre).length es)).take i).flatMap Slot.relayed).length ≤
          (upstreamFed pre).length := by
  rw [List.getElem?_drop, List.getElem?_take] at hs
  split_ifs at hs with hi
  have h := hturn pre d hpre _ s hs ha (Nat.le_add_right _ _) hi
  have ht : (slots isBlocked es).take (completed (appFed pre).length es + i) =
      handled isBlocked es (appFed pre).length ++
        (((slots isBlocked es).take (completed (appFed pre ++ d).length es)).drop
          (completed (appFed pre).length es)).take i := by
    rw [handled, List.take_add, List.drop_take, List.take_take, Nat.min_eq_left (by omega)]
  rwa [← ht]

/-- One call of either direction keeps the merge in order. -/
theorem run_merged (es : List Exchange) (ops : List DnsStream.Op) (pre : List DnsStream.Op)
    (s : DnsStream H) (out : Bytes) (hrun : Pipelined isBlocked es (pre ++ ops))
    (hturn : AnsweredInTurn isBlocked es (pre ++ ops)) (hs : FedH1 p isBlocked (appFed pre) s)
    (hm : Slot.Merged (handled isBlocked es (appFed pre).length) (upstreamFed pre) out) :
    ∃ out' s', s.runOps p isBlocked ops = .ok (out', s') ∧
      Slot.Merged (handled isBlocked es (appFed (pre ++ ops)).length) (upstreamFed (pre ++ ops))
        (out ++ out') := by
  induction ops generalizing pre s out with
  | nil => exact ⟨[], s, rfl, by simpa using hm⟩
  | cons op ops ih =>
    have hassoc : pre ++ op :: ops = (pre ++ [op]) ++ ops := by simp
    rw [hassoc] at hrun hturn ⊢
    have hpre : pre ++ [op] <+: (pre ++ [op]) ++ ops := List.prefix_append _ _
    cases op with
    | upstream d =>
      have hu : upstreamFed (pre ++ [.upstream d]) = upstreamFed pre ++ d := by simp [upstreamFed]
      have ha : appFed (pre ++ [.upstream d]) = appFed pre := by simp [appFed]
      have hle := hrun.upstream _ hpre
      rw [hu, ha] at hle
      obtain ⟨out', s', hout, hm'⟩ := ih (pre ++ [.upstream d]) s (out ++ d) hrun hturn
        (by rwa [ha]) (by rw [hu, ha]; exact hm.relay hle)
      refine ⟨d ++ out', s', ?_, by simpa using hm'⟩
      simp [DnsStream.runOps, hs.onUpstreamData, hout, Except.map]
    | app d =>
      have hu : upstreamFed (pre ++ [.app d]) = upstreamFed pre := by simp [upstreamFed]
      have ha : appFed (pre ++ [.app d]) = appFed pre ++ d := by simp [appFed]
      have hstream : appFed pre ++ d <+: requestStream es := by
        rw [← ha]
        exact (appFed_mono hpre).trans hrun.app
      have hh2 : decideProto (appFed pre ++ d) ≠ some .h2 := fun h =>
        hrun.h1 ((preface_prefix_of_h2 h).trans hstream)
      obtain ⟨hpanic, happ⟩ := h1Feeder_run_answers p isBlocked es
        hrun.requests (appFed pre ++ d) [] hstream
      obtain ⟨-, happ₀⟩ := h1Feeder_run_answers p isBlocked es
        hrun.requests (appFed pre) [] ((List.prefix_append _ _).trans hstream)
      obtain ⟨x, s', hx, hs', hout⟩ := hs.onAppData d hh2 hpanic
      have hnew := handled_append isBlocked es
        (show (appFed pre).length ≤ (appFed pre ++ d).length by simp)
      rw [happ, happ₀, hnew, List.flatMap_append] at hout
      have hxapp := List.append_cancel_left hout
      have hbatch := hm.batch (hrun.upstream pre ((List.prefix_append _ _).trans hpre))
        (batch_inTurn hturn hpre)
      rw [← hnew, hxapp, ← ha, ← hu] at hbatch
      rw [← ha] at hs'
      obtain ⟨out', s'', hout', hm'⟩ := ih (pre ++ [.app d]) s' (out ++ x.toApp) hrun hturn hs'
        hbatch
      refine ⟨x.toApp ++ out', s'', ?_, by simpa using hm'⟩
      simp [DnsStream.runOps, hx, hout', Except.map]

/-- Under that condition the app receives the responses in the order of its requests, each whole
before the next begins, and all of them once everything has been fed. -/
theorem doh_h1_in_order (p : Profile) (isBlocked : Str → Bool) (es : List Exchange)
    (ops : List DnsStream.Op) (hrun : Pipelined isBlocked es ops)
    (hturn : AnsweredInTurn isBlocked es ops) :
    ∃ delivered s, (DnsStream.new H .doh).runOps p isBlocked ops = .ok (delivered, s) ∧
      delivered <+: (slots isBlocked es).flatMap Slot.expected ∧
      (appFed ops = requestStream es →
        upstreamFed ops = (slots isBlocked es).flatMap Slot.relayed →
        delivered = (slots isBlocked es).flatMap Slot.expected) := by
  obtain ⟨delivered, s, hd, hm⟩ := run_merged (H := H) es ops [] (DnsStream.new H .doh) [] hrun
    hturn (.undecided [] rfl) (by
      have h0 : handled isBlocked es (appFed []).length = [] := by
        simp [handled, appFed, completed_zero hrun.requests]
      rw [h0]
      exact Slot.Merged.nil)
  refine ⟨delivered, s, hd, ?_, ?_⟩
  · refine hm.prefix.trans ⟨((slots isBlocked es).drop
      (completed (appFed ([] ++ ops)).length es)).flatMap Slot.expected, ?_⟩
    rw [handled, ← List.flatMap_append, List.take_append_drop]
  · intro happ hup
    have hall : handled isBlocked es (appFed ops).length = slots isBlocked es := by
      rw [handled, happ, completed_all, ← slots_length isBlocked, List.take_length]
    rw [List.nil_append, List.nil_append, hall] at hm
    exact hm.complete (by rw [hup])

private def getName (name : String) : Bytes :=
  ascii "GET /?name=" ++ ascii name ++ ascii " HTTP/1.1\r\n\r\n"

private def okResponse : Bytes := ascii "HTTP/1.1 200 OK\r\nContent-Length: 2\r\n\r\nok"

private def blockAds (name : Str) : Bool := name == Str.lit "ads"

private def goodThenAds : List Exchange := [⟨getName "org", okResponse⟩, ⟨getName "ads", []⟩]

private theorem slots_goodThenAds : slots blockAds goodThenAds =
    [⟨none, okResponse⟩, ⟨some (h1Response (Str.lit "application/dns-json")
      (Str.toBytes (jsonNxdomain (Str.lit "ads")))), []⟩] := by decide +kernel

/-- A blocked request that follows the relayed response of an allowed one. -/
theorem doh_h1_in_order_ads :
    ∃ delivered s, (DnsStream.new literalHpack .doh).runOps .release blockAds
        [.app (getName "org"), .upstream okResponse, .app (getName "ads")] = .ok (delivered, s) ∧
      delivered = okResponse ++ h1Response (Str.lit "application/dns-json")
        (Str.toBytes (jsonNxdomain (Str.lit "ads"))) := by
  have hrun : Pipelined blockAds goodThenAds
      [.app (getName "org"), .upstream okResponse, .app (getName "ads")] := by
    refine ⟨by decide +kernel, by decide +kernel, by decide +kernel, fun pre hpre => ?_⟩
    have h : ∀ pre ∈ List.inits [DnsStream.Op.app (getName "org"), .upstream okResponse,
        .app (getName "ads")], upstreamFed pre <+:
          (handled blockAds goodThenAds (appFed pre).length).flatMap Slot.relayed := by decide +kernel
    exact h pre ((List.mem_inits _ _).mpr hpre)
  have hturn : AnsweredInTurn blockAds goodThenAds
      [.app (getName "org"), .upstream okResponse, .app (getName "ads")] := by
    intro pre d hpre i s hs ha _ hhi
    have h2 : i = 1 := by
      rw [slots_goodThenAds] at hs
      match i, hs with
      | 0, hs =>
        obtain rfl := Option.some.inj hs
        simp at ha
      | 1, _ => rfl
    subst h2
    rcases pre with _ | ⟨x, _ | ⟨y, _ | ⟨z, pre⟩⟩⟩
    · obtain rfl : d = getName "org" := by simpa using hpre
      exact absurd hhi (by decide +kernel)
    · simp at hpre
    · obtain ⟨rfl, rfl, rfl⟩ : x = .app (getName "org") ∧ y = .upstream okResponse ∧
          d = getName "ads" := by simpa using hpre
      decide +kernel
    · simp at hpre
  obtain ⟨delivered, s, hd, -, hall⟩ := doh_h1_in_order (H := literalHpack) .release blockAds
    goodThenAds _ hrun hturn
  refine ⟨delivered, s, hd, (hall (by decide +kernel) (by decide +kernel)).trans (by decide +kernel)⟩

/-- Two requests in one call: the answer to the second overtakes the response to the first. -/
theorem doh_h1_overtakes :
    Pipelined blockAds goodThenAds [.app (getName "org" ++ getName "ads"), .upstream okResponse] ∧
    ((DnsStream.new literalHpack .doh).runOps .release blockAds
        [.app (getName "org" ++ getName "ads"), .upstream okResponse]).map Prod.fst =
      .ok (h1Response (Str.lit "application/dns-json")
        (Str.toBytes (jsonNxdomain (Str.lit "ads"))) ++ okResponse) ∧
    ¬ h1Response (Str.lit "application/dns-json") (Str.toBytes (jsonNxdomain (Str.lit "ads"))) ++
      okResponse <+: (slots blockAds goodThenAds).flatMap Slot.expected := by
  refine ⟨⟨by decide +kernel, by decide +kernel, by decide +kernel, fun pre hpre => ?_⟩,
    by decide +kernel, by decide +kernel⟩
  have h : ∀ pre ∈ List.inits [DnsStream.Op.app (getName "org" ++ getName "ads"),
      .upstream okResponse], upstreamFed pre <+:
        (handled blockAds goodThenAds (appFed pre).length).flatMap Slot.relayed := by
    decide +kernel
  exact h pre ((List.mem_inits _ _).mpr hpre)

end Adwarden.Tls
