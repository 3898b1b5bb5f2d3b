import Adwarden.Lib.Loop
import Adwarden.Tls.Chunk

/-! The HTTP capture of one intercepted flow: both decrypted directions are parsed, and each
request is paired with its response. -/
namespace Adwarden.Tls
open Adwarden.Lib

/-- A parsed request, with a size-capped copy of its body. -/
structure HttpRequest where
  method : Str
  target : Str
  httpVersion : Str
  headers : Headers
  body : Bytes := []
  bodySize : ℕ := 0
  headersSize : ℕ
  bodyTruncated : Bool := false
deriving DecidableEq

structure HttpResponse where
  status : ℕ
  statusText : Str
  httpVersion : Str
  headers : Headers
  body : Bytes := []
  bodySize : ℕ := 0
  headersSize : ℕ
  bodyTruncated : Bool := false
deriving DecidableEq

/-- A request and its response, with the authority of the URL. -/
structure HttpTransaction where
  host : Option Str
  request : HttpRequest
  response : HttpResponse
deriving DecidableEq

/-- Accumulates a body; what exceeds the capture is only counted. -/
structure BodyReader where
  framing : Framing
  capture : Capture := {}
deriving DecidableEq

/-- The outcome of `BodyReader::consume`: the step, the reader and the buffer it leaves. -/
structure BodyConsumed where
  step : Step
  reader : BodyReader
  rest : Bytes

/-- Consume as much of `buf` as belongs to this body. -/
def BodyReader.consume (r : BodyReader) (buf : Bytes) : BodyConsumed :=
  match r.framing with
  | .length remaining =>
    if remaining = 0 then { step := .done, reader := r, rest := buf }
    else
      let n := min remaining buf.length
      { step := if remaining - n = 0 then .done else .needMore
        reader := { framing := .length (remaining - n)
                    capture := pushCapped r.capture (buf.take n) }
        rest := buf.drop n }
  | .untilClose =>
    { step := .needMore, reader := { r with capture := pushCapped r.capture buf }, rest := [] }
  | .chunked reader =>
    let c := reader.consume buf
    { step := c.step
      reader := { framing := .chunked c.reader, capture := pushCapped r.capture c.decoded }
      rest := c.rest }

structure ParsedHead where
  startLine : Bytes
  headers : Headers
  size : ℕ
deriving DecidableEq

inductive HeadStep where
  | needMore
  | error
  | head (h : ParsedHead) (rest : Bytes)
deriving DecidableEq

/-- If `buf` holds a complete header block, parse and drain it. -/
def takeHead (buf : Bytes) : HeadStep :=
  match findHeaderEnd buf with
  | none => if maxHeaderBytes < buf.length then .error else .needMore
  | some hend =>
    match parseHeadFields (buf.take (hend - 4)) with
    | some (startLine, headers) => .head { startLine, headers, size := hend } (buf.drop hend)
    | none => .error

/-- A completed request that awaits its response. -/
structure Pending where
  request : HttpRequest
  methodIsHead : Bool
deriving DecidableEq

structure HttpTap where
  sni : Option Str := none
  disabled : Bool := false
  reqBuf : Bytes := []
  reqPartial : Option (HttpRequest × BodyReader) := none
  respBuf : Bytes := []
  respPartial : Option (HttpResponse × BodyReader) := none
  pending : List Pending := []
  completed : List HttpTransaction := []
deriving DecidableEq

def hostOf (request : HttpRequest) : Option Str := header request.headers "host"

def attachBodyReq (request : HttpRequest) (body : BodyReader) : HttpRequest :=
  { request with
    body := body.capture.captured
    bodySize := body.capture.wireLen
    bodyTruncated := body.capture.truncated }

def attachBodyResp (response : HttpResponse) (body : BodyReader) : HttpResponse :=
  { response with
    body := body.capture.captured
    bodySize := body.capture.wireLen
    bodyTruncated := body.capture.truncated }

namespace HttpTap

def new : HttpTap := {}

/-- Record the connection's SNI, the authority of a request without a `Host` field. -/
def setHost (t : HttpTap) (host : Str) : HttpTap :=
  if t.sni.isNone then { t with sni := some host } else t

def disable (t : HttpTap) : HttpTap :=
  { t with disabled := true, reqBuf := [], respBuf := [], reqPartial := none, respPartial := none }

def pushPending (t : HttpTap) (request : HttpRequest) : HttpTap :=
  { t with
    pending := t.pending ++
      [{ request, methodIsHead := request.method.eqIgnoreAsciiCase (Str.lit "HEAD") }] }

/-- Pair a finished response with the front pending request. -/
def completeResponse (t : HttpTap) (response : HttpResponse) : HttpTap :=
  match t.pending with
  | [] => t.disable
  | p :: pending =>
    { t with
      pending
      completed := t.completed ++
        [{ host := (hostOf p.request).or t.sni, request := p.request, response }] }

/-- One iteration of `drain_requests`. A head and its body take an iteration each. -/
def requestTurn (t : HttpTap) : Turn HttpTap :=
  match t.reqPartial with
  | none =>
    match takeHead t.reqBuf with
    | .needMore => .leave t
    | .error => .leave t.disable
    | .head h rest =>
      match parseRequestLine h.startLine with
      | none => .leave t.disable
      | some (method, target, httpVersion) =>
        let request : HttpRequest :=
          { method, target, httpVersion, headers := h.headers, headersSize := h.size }
        match requestFraming request.headers with
        | some framing => .goOn { t with reqBuf := rest, reqPartial := some (request, { framing }) }
        | none => .goOn ({ t with reqBuf := rest }.pushPending request)
  | some (request, body) =>
    let c := body.consume t.reqBuf
    match c.step with
    | .needMore => .leave { t with reqBuf := c.rest, reqPartial := some (request, c.reader) }
    | .error => .leave t.disable
    | .done =>
      .goOn ({ t with reqBuf := c.rest, reqPartial := none }.pushPending
        (attachBodyReq request c.reader))

/-- One iteration of `drain_responses`. -/
def responseTurn (t : HttpTap) : Turn HttpTap :=
  match t.respPartial with
  | none =>
    match takeHead t.respBuf with
    | .needMore => .leave t
    | .error => .leave t.disable
    | .head h rest =>
      match parseStatusLine h.startLine with
      | none => .leave t.disable
      | some (httpVersion, status, statusText) =>
        let response : HttpResponse :=
          { status, statusText, httpVersion, headers := h.headers, headersSize := h.size }
        let t := { t with respBuf := rest }
        -- An interim response does not consume the pending request.
        if 100 ≤ status ∧ status ≤ 199 ∧ status ≠ 101 then .goOn t
        else
          let methodIsHead := (t.pending.head?.map Pending.methodIsHead).getD false
          match responseFraming status methodIsHead response.headers with
          | none =>
            if status = 101 then .leave (t.completeResponse response).disable
            else .goOn (t.completeResponse response)
          | some framing => .goOn { t with respPartial := some (response, { framing }) }
  | some (response, body) =>
    let c := body.consume t.respBuf
    match c.step with
    | .needMore => .leave { t with respBuf := c.rest, respPartial := some (response, c.reader) }
    | .error => .leave t.disable
    | .done =>
      .goOn ({ t with respBuf := c.rest, respPartial := none }.completeResponse
        (attachBodyResp response c.reader))

/-- A body that is done has left a buffer that is no longer. -/
theorem consume_rest_le (r : BodyReader) (buf : Bytes) :
    (r.consume buf).rest.length ≤ buf.length := by
  obtain ⟨framing, capture⟩ := r
  cases framing with
  | length remaining =>
    by_cases h0 : remaining = 0 <;> simp [BodyReader.consume, h0]
  | untilClose => simp [BodyReader.consume]
  | chunked reader =>
    exact (chunkFeeder (some maxHeaderBytes)).run_invariant (P := fun _ l => l.buf.length ≤ buf.length)
      (s := { state := reader.state, buf }) (o := []) (Nat.le_refl _)
      fun _ _ _ _ hl hs => Nat.le_trans (chunkStep_buf_le hs) hl

theorem takeHead_rest {buf : Bytes} {h : ParsedHead} {rest : Bytes}
    (he : takeHead buf = .head h rest) : rest.length < buf.length := by
  unfold takeHead at he
  split at he
  · split_ifs at he
  · next hend hf =>
    split at he
    · obtain ⟨-, rfl⟩ := HeadStep.head.inj he
      have := findHeaderEnd_le hf
      rw [List.length_drop]
      omega
    · simp at he

theorem requestTurn_decreases {t t' : HttpTap} (h : requestTurn t = .goOn t') :
    2 * t'.reqBuf.length + t'.reqPartial.isSome.toNat <
      2 * t.reqBuf.length + t.reqPartial.isSome.toNat := by
  unfold requestTurn at h
  split at h
  · next hp =>
    split at h
    · simp at h
    · simp at h
    · next hd rest ht =>
      have := takeHead_rest ht
      split at h
      · simp at h
      · dsimp only at h
        split at h <;> obtain rfl := Turn.goOn.inj h
        · simp
          omega
        · simp [hp, pushPending]
          omega
  · next request body hp =>
    have := consume_rest_le body t.reqBuf
    dsimp only at h
    split at h
    · simp at h
    · simp at h
    · obtain rfl := Turn.goOn.inj h
      simp [hp, pushPending]
      omega

theorem completeResponse_respBuf (t : HttpTap) (response : HttpResponse) :
    (t.completeResponse response).respBuf.length ≤ t.respBuf.length ∧
      ((t.completeResponse response).respPartial.isSome → t.respPartial.isSome) := by
  unfold completeResponse
  split <;> simp [disable]

theorem responseTurn_decreases {t t' : HttpTap} (h : responseTurn t = .goOn t') :
    2 * t'.respBuf.length + t'.respPartial.isSome.toNat <
      2 * t.respBuf.length + t.respPartial.isSome.toNat := by
  unfold responseTurn at h
  split at h
  · next hp =>
    split at h
    · simp at h
    · simp at h
    · next hd rest ht =>
      have := takeHead_rest ht
      split at h
      · simp at h
      · next httpVersion status statusText hs =>
        dsimp only at h
        split at h
        · obtain rfl := Turn.goOn.inj h
          simp [hp]
          omega
        · split at h
          · split at h
            · simp at h
            · obtain rfl := Turn.goOn.inj h
              have hle := completeResponse_respBuf { t with respBuf := rest }
                { status, statusText, httpVersion, headers := hd.headers, headersSize := hd.size }
              simp only [hp, Option.isSome_none, Bool.false_eq_true, imp_false,
                Bool.not_eq_true] at hle ⊢
              rw [hle.2]
              simp only [Bool.toNat_false]
              omega
          · obtain rfl := Turn.goOn.inj h
            simp
            omega
  · next response body hp =>
    have := consume_rest_le body t.respBuf
    dsimp only at h
    split at h
    · simp at h
    · simp at h
    · obtain rfl := Turn.goOn.inj h
      have hle := completeResponse_respBuf
        { t with respBuf := (body.consume t.respBuf).rest, respPartial := none }
        (attachBodyResp response (body.consume t.respBuf).reader)
      simp only [hp, Option.isSome_none, Option.isSome_some, Bool.false_eq_true, imp_false,
        Bool.not_eq_true] at hle ⊢
      rw [hle.2]
      simp only [Bool.toNat_false, Bool.toNat_true]
      omega

def requestLoop : Loop HttpTap where
  body := requestTurn
  measure t := 2 * t.reqBuf.length + t.reqPartial.isSome.toNat
  decreases := requestTurn_decreases

def responseLoop : Loop HttpTap where
  body := responseTurn
  measure t := 2 * t.respBuf.length + t.respPartial.isSome.toNat
  decreases := responseTurn_decreases

def drainRequests (t : HttpTap) : HttpTap := requestLoop.run t

def drainResponses (t : HttpTap) : HttpTap := responseLoop.run t

/-- Feed decrypted request bytes. -/
def feedRequest (t : HttpTap) (data : Bytes) : HttpTap :=
  if t.disabled ∨ data = [] then t else { t with reqBuf := t.reqBuf ++ data }.drainRequests

/-- Feed decrypted response bytes. -/
def feedResponse (t : HttpTap) (data : Bytes) : HttpTap :=
  if t.disabled ∨ data = [] then t else { t with respBuf := t.respBuf ++ data }.drainResponses

def takeTransactions (t : HttpTap) : List HttpTransaction × HttpTap :=
  (t.completed, { t with completed := [] })

/-- The connection closed: a response whose body runs until then is complete. -/
def finish (t : HttpTap) : HttpTap :=
  if t.disabled then t
  else
    match t.respPartial with
    | none => { t with disabled := true }
    | some (response, body) =>
      let t := { t with respPartial := none }
      match body.framing with
      | .untilClose =>
        { t.completeResponse (attachBodyResp response body) with disabled := true }
      | _ => { t with disabled := true }

end HttpTap

end Adwarden.Tls
