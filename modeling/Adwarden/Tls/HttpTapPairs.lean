import Adwarden.Tls.HttpTapGrammar
import Adwarden.Tls.UpstreamParse

/-! The capture followed along whole conversations: each request is paired with its final
response, however both streams are cut and interleaved. -/
namespace Adwarden.Tls
open Adwarden.Lib

namespace HttpTap

/-- `wire` carries `body` after a request head with these fields. -/
inductive RequestBody (headers : Headers) : (wire body : Bytes) → Prop
  | none (hn : fieldValues headers "content-length" = [])
      (ht : fieldValues headers "transfer-encoding" = []) : RequestBody headers [] []
  | sized {body : Bytes} (hn : DeclaresLength headers body.length) (hsize : body.length < usizeSize) :
      RequestBody headers body body
  | chunked {wire body : Bytes} (hc : ChunkedCoding headers)
      (hw : Chunked maxHeaderBytes wire body) : RequestBody headers wire body

/-- A request on the wire, with the body it stands for. -/
structure Request where
  head : ReqHead
  wireBody : Bytes
  body : Bytes

namespace Request

def headers (r : Request) : Headers := r.head.head.headers

structure WellFormed (r : Request) : Prop where
  head : r.head.WellFormed
  size : r.head.head.encode.length ≤ maxHeaderBytes
  body : RequestBody r.headers r.wireBody r.body

def wire (r : Request) : Bytes := r.head.head.encode ++ r.wireBody

/-- The request as its head alone is captured. -/
def opened (r : Request) : HttpRequest where
  method := asciiStr r.head.method
  target := asciiStr r.head.target
  httpVersion := Str.lit "HTTP/1.1"
  headers := r.headers
  headersSize := r.head.head.encode.length

/-- The request as it is to be captured. -/
def captured (r : Request) : HttpRequest :=
  { r.opened with
    body := r.body.take maxBodyCapture
    bodySize := r.body.length
    bodyTruncated := maxBodyCapture < r.body.length }

def isHead (r : Request) : Bool := r.head.method = ascii "HEAD"

/-- A method is `HEAD` or differs from it in more than case, and a chunked body is announced by the
first `Transfer-Encoding` field. -/
structure Readable (r : Request) : Prop where
  method : eqIgnoreAsciiCase r.head.method (ascii "HEAD") → r.isHead
  coding : ChunkedCoding r.headers → isChunked r.headers

def pending (r : Request) : Pending := { request := r.captured, methodIsHead := r.isHead }

end Request

/-- `wire` carries `body` after a final response head with these fields. -/
inductive ResponseBody (toHead : Bool) (status : ℕ) (headers : Headers) : (wire body : Bytes) → Prop
  | toHead (hs : toHead = true) : ResponseBody toHead status headers [] []
  | delimited {wire body : Bytes} (hs : toHead = false)
      (hb : BodyOf maxHeaderBytes status headers wire body) :
      ResponseBody toHead status headers wire body
  | untilClose {body : Bytes} (hs : toHead = false) (hb : ¬ Bodiless status)
      (hc : ¬ ChunkedCoding headers) (hn : fieldValues headers "content-length" = []) :
      ResponseBody toHead status headers body body

/-- A request and the responses to it: any number of interim ones, and the final one. -/
structure Exchange where
  request : Request
  interims : List RespHead
  response : Message

namespace Exchange

/-- The final response lasts until the connection closes. -/
def Closes (e : Exchange) : Prop :=
  e.request.isHead = false ∧ ¬ Bodiless e.response.head.status ∧
    ¬ ChunkedCoding e.response.head.headers ∧
    fieldValues e.response.head.headers "content-length" = []

structure WellFormed (e : Exchange) : Prop where
  request : e.request.WellFormed
  interims : ∀ h ∈ e.interims, h.WellFormed ∧ h.encode.length ≤ maxHeaderBytes ∧
    Interim h.status ∧ h.status ≠ 101
  head : e.response.head.WellFormed
  size : e.response.head.encode.length ≤ maxHeaderBytes
  final : ¬ Interim e.response.head.status
  body : ResponseBody e.request.isHead e.response.head.status e.response.head.headers
    e.response.wireBody e.response.body

/-- The reason phrases are UTF-8, and the first `Transfer-Encoding` field says whether a body is
chunked. -/
structure Readable (e : Exchange) : Prop where
  request : e.request.Readable
  interims : ∀ h ∈ e.interims, (Str.fromUtf8 h.reason).isSome
  reason : (Str.fromUtf8 e.response.head.reason).isSome
  coding : e.request.isHead = false → ¬ Bodiless e.response.head.status →
    (isChunked e.response.head.headers ↔ ChunkedCoding e.response.head.headers)

/-- What precedes the final response. -/
def leadIn (e : Exchange) : Bytes := e.interims.flatMap RespHead.encode

def responseWire (e : Exchange) : Bytes := e.leadIn ++ e.response.wire

def opened (e : Exchange) : HttpResponse where
  status := e.response.head.status
  statusText := (Str.fromUtf8 e.response.head.reason).getD []
  httpVersion := Str.lit "HTTP/1.1"
  headers := e.response.head.headers
  headersSize := e.response.head.encode.length

/-- The response as it is to be captured. -/
def captured (e : Exchange) : HttpResponse :=
  { e.opened with
    body := e.response.body.take maxBodyCapture
    bodySize := e.response.body.length
    bodyTruncated := maxBodyCapture < e.response.body.length }

def transaction (sni : Option Str) (e : Exchange) : HttpTransaction where
  host := (hostOf e.request.captured).or sni
  request := e.request.captured
  response := e.captured

end Exchange

def requests (rs : List Request) : Bytes := rs.flatMap Request.wire

def responses (es : List Exchange) : Bytes := es.flatMap Exchange.responseWire

/-- A call of the capture. -/
inductive Op where
  | request (data : Bytes)
  | response (data : Bytes)
  | take

def apply (t : HttpTap) : Op → List HttpTransaction × HttpTap
  | .request data => ([], t.feedRequest data)
  | .response data => ([], t.feedResponse data)
  | .take => t.takeTransactions

/-- All transactions taken by a sequence of calls, and the capture they leave. -/
def runOps (t : HttpTap) : List Op → List HttpTransaction × HttpTap
  | [] => ([], t)
  | op :: ops => ((t.apply op).1 ++ (runOps (t.apply op).2 ops).1, (runOps (t.apply op).2 ops).2)

def Op.requestBytes : Op → Bytes
  | .request data => data
  | _ => []

def Op.responseBytes : Op → Bytes
  | .response data => data
  | _ => []

/-- When the head of a final response has been fed, its request has been fed completely. -/
def InOrder (es : List Exchange) (ops : List Op) : Prop :=
  ∀ fed, fed <+: ops → ∀ done e rest, es = done ++ e :: rest →
    (responses done ++ e.leadIn ++ e.response.head.encode).length ≤
      (fed.flatMap Op.responseBytes).length →
    (requests ((done ++ [e]).map Exchange.request)).length ≤ (fed.flatMap Op.requestBytes).length

theorem fieldValues_contentLength {headers : Headers}
    (h : fieldValues headers "content-length" = []) : contentLength headers = none := by
  simp [contentLength, header_eq_head, h]

section Request

variable {r : Request}

set_option maxRecDepth 4000 in
theorem Request.Readable.pushed (hr : r.Readable) (hw : r.WellFormed) :
    (asciiStr r.head.method).eqIgnoreAsciiCase (Str.lit "HEAD") = r.isHead := by
  have hascii : IsAscii r.head.method := fun b hb => nameByte_ascii (hw.head.method.2 b hb)
  have hlit : Str.lit "HEAD" = asciiStr (ascii "HEAD") := by decide
  have hhead : IsAscii (ascii "HEAD") := by
    unfold IsAscii
    decide
  rw [hlit, Str.eqIgnoreAsciiCase_asciiStr hascii hhead]
  cases hh : r.isHead with
  | true =>
    have hm : r.head.method = ascii "HEAD" := by simpa [Request.isHead] using hh
    rw [hm]
    decide
  | false =>
    rw [Bool.eq_false_iff]
    intro he
    simp [hr.method he] at hh

theorem requestFraming_none {headers : Headers} (hc : isChunked headers = false)
    (hn : contentLength headers = none ∨ contentLength headers = some 0) :
    requestFraming headers = none := by
  rcases hn with hn | hn <;> simp [requestFraming, hc, hn]

theorem requestFraming_length {headers : Headers} {n : ℕ} (hc : isChunked headers = false)
    (hn : contentLength headers = some n) (hpos : n ≠ 0) :
    requestFraming headers = some (.length n) := by
  obtain ⟨m, rfl⟩ := Nat.exists_eq_succ_of_ne_zero hpos
  simp [requestFraming, hc, hn]

/-- What a request head announces: no body, or the reader of the body behind it. -/
theorem Request.framing_at (hr : r.Readable) (hw : r.WellFormed) (x : Bytes) :
    (requestFraming r.headers = none ∧ r.wireBody = [] ∧ r.body = []) ∨
    ∃ framing, requestFraming r.headers = some framing ∧
      BodyAt x r.body { framing } (r.wireBody ++ x) := by
  obtain ⟨head, wireBody, body⟩ := r
  obtain ⟨-, -, hb⟩ := hw
  obtain ⟨-, hcoding⟩ := hr
  cases hb with
  | none hn ht =>
    left
    refine ⟨requestFraming_none ?_ (Or.inl (fieldValues_contentLength hn)), rfl, rfl⟩
    simp [isChunked, header_eq_head, ht]
  | sized hn hsize =>
    by_cases hne : wireBody = []
    · subst hne
      exact Or.inl ⟨requestFraming_none hn.isChunked (Or.inr (hn.contentLength hsize)), rfl, rfl⟩
    · right
      refine ⟨_, requestFraming_length hn.isChunked (hn.contentLength hsize) (by simpa using hne),
        ?_⟩
      exact .sized (a := []) rfl hne
  | chunked hc hwire =>
    right
    refine ⟨.chunked {}, by simp [requestFraming, hcoding hc], ?_⟩
    exact .chunked (a := []) rfl (.size rfl hwire (by simp))

theorem Request.attached (r : Request) {b : BodyReader} (hb : b.capture = .of r.body) :
    attachBodyReq r.opened b = r.captured := by
  simp [attachBodyReq, hb, Capture.of, Request.captured]

theorem Request.captured_nil (h : r.body = []) : r.captured = r.opened := by
  simp [Request.captured, h, Request.opened]

theorem pushPending_eq (hr : r.Readable) (hw : r.WellFormed) (t : HttpTap) :
    t.pushPending r.captured = { t with pending := t.pending ++ [r.pending] } := by
  have hm : r.captured.method = asciiStr r.head.method := rfl
  simp only [pushPending, hm, hr.pushed hw, Request.pending]

/-- Where the capture stands in the requests `rs`, of which `buf ++ rest` is still to be read. -/
inductive ReqAt (buf rest : Bytes) : Option (HttpRequest × BodyReader) → List Request → Prop
  | head {rs : List Request} (h : buf ++ rest = requests rs) : ReqAt buf rest none rs
  | body {r : Request} {rs : List Request} {b : BodyReader}
      (h : BodyAt (requests rs) r.body b (buf ++ rest)) : ReqAt buf rest (some (r.opened, b)) (r :: rs)

/-- The outcome of one iteration from a position: more input is due before the end of the first
request, or the loop goes on, perhaps with a request completed. -/
inductive ReqTurns (t : HttpTap) (rest : Bytes) (rs : List Request) : Turn HttpTap → Prop
  | waits {b : Bytes} {p : Option (HttpRequest × BodyReader)} (hat : ReqAt b rest p rs)
      (hdue : ∀ r l, rs = r :: l → (requests l).length < rest.length) :
      ReqTurns t rest rs (.leave { t with reqBuf := b, reqPartial := p })
  | head {b : Bytes} {p : Option (HttpRequest × BodyReader)} (hat : ReqAt b rest p rs) :
      ReqTurns t rest rs (.goOn { t with reqBuf := b, reqPartial := p })
  | done {b : Bytes} {r : Request} {l : List Request} (hl : rs = r :: l) (hat : ReqAt b rest none l) :
      ReqTurns t rest rs (.goOn
        { t with reqBuf := b, reqPartial := none, pending := t.pending ++ [r.pending] })

theorem takeHead_nil : takeHead [] = .needMore := rfl

private theorem requestTurn_head {t : HttpTap} {rest : Bytes} {rs : List Request}
    (hp : t.reqPartial = none) (h : t.reqBuf ++ rest = requests rs)
    (hrs : ∀ r ∈ rs, r.WellFormed ∧ r.Readable) : ReqTurns t rest rs (requestTurn t) := by
  have hleave : takeHead t.reqBuf = .needMore →
      requestTurn t = .leave { t with reqBuf := t.reqBuf, reqPartial := none } := by
    intro ht
    simp only [requestTurn, hp, ht]
    rw [← hp]
  cases rs with
  | nil =>
    obtain ⟨hb, rfl⟩ : t.reqBuf = [] ∧ rest = [] := by simpa [requests] using h
    rw [hleave (by rw [hb, takeHead_nil])]
    exact .waits (.head (by simp [hb, requests])) (by simp)
  | cons r l =>
    obtain ⟨hw, hr⟩ := hrs r (by simp)
    have hb : t.reqBuf ++ rest = r.head.head.encode ++ (r.wireBody ++ requests l) := by
      rw [h]
      simp [requests, Request.wire]
    rcases takeHead_at hw.head.head hw.size hb with ⟨ht, hlt⟩ | ⟨b, ht, hrest⟩
    · rw [hleave ht]
      refine .waits (.head h) ?_
      rintro _ _ ⟨⟩
      rw [List.length_append] at hlt
      omega
    · have hturn {o : Option Framing} (ho : requestFraming r.headers = o) :
          requestTurn t = o.elim
            (.goOn ({ t with reqBuf := b, reqPartial := none }.pushPending r.opened))
            fun framing =>
              .goOn { t with reqBuf := b, reqPartial := some (r.opened, { framing }) } := by
        have hline : parseRequestLine r.head.head.start =
            some (asciiStr r.head.method, asciiStr r.head.target, Str.lit "HTTP/1.1") :=
          r.head.parseRequestLine_requestLine hw.head
        simp only [requestTurn, hp, ht, hline]
        generalize hg : requestFraming _ = g
        obtain rfl : g = o := hg.symm.trans ho
        cases g <;> rfl
      rcases Request.framing_at hr hw (requests l) with ⟨hf, hwb, hbody⟩ | ⟨framing, hf, hat⟩
      · rw [hturn hf, Option.elim_none, ← Request.captured_nil hbody, pushPending_eq hr hw]
        exact .done rfl (.head (by simpa [hwb] using hrest))
      · rw [hturn hf]
        exact .head (.body (by rwa [hrest]))

private theorem requestTurn_body {t : HttpTap} {rest : Bytes} {r : Request} {l : List Request}
    {b : BodyReader} (hp : t.reqPartial = some (r.opened, b))
    (h : BodyAt (requests l) r.body b (t.reqBuf ++ rest)) (hw : r.WellFormed) (hr : r.Readable) :
    ReqTurns t rest (r :: l) (requestTurn t) := by
  have hc := consume_at h
  obtain ⟨c, hcon⟩ : ∃ c, b.consume t.reqBuf = c := ⟨_, rfl⟩
  rw [hcon] at hc
  cases hc with
  | waits hat hdue =>
    simp only [requestTurn, hp, hcon]
    refine .waits (.body hat) ?_
    rintro _ _ ⟨⟩
    exact hdue
  | done hcap hx =>
    simp only [requestTurn, hp, hcon, r.attached hcap]
    rw [pushPending_eq hr hw]
    exact .done rfl (.head hx)

theorem requestTurn_at {t : HttpTap} {rest : Bytes} {rs : List Request}
    (h : ReqAt t.reqBuf rest t.reqPartial rs) (hrs : ∀ r ∈ rs, r.WellFormed ∧ r.Readable) :
    ReqTurns t rest rs (requestTurn t) := by
  generalize hp : t.reqPartial = p at h
  cases h with
  | head h => exact requestTurn_head hp h hrs
  | body h =>
    obtain ⟨hw, hr⟩ := hrs _ (List.mem_cons_self ..)
    exact requestTurn_body hp h hw hr

/-- What a whole call leaves: the requests completed are pending, and more input is due before the
end of the next. -/
structure ReqRuns (t : HttpTap) (rest : Bytes) (rs done left : List Request) (b : Bytes)
    (p : Option (HttpRequest × BodyReader)) : Prop where
  split : rs = done ++ left
  drained : t.drainRequests =
    { t with reqBuf := b, reqPartial := p, pending := t.pending ++ done.map Request.pending }
  at_ : ReqAt b rest p left
  due : ∀ r l, left = r :: l → (requests l).length < rest.length

theorem drainRequests_at {t : HttpTap} {rest : Bytes} {rs : List Request}
    (h : ReqAt t.reqBuf rest t.reqPartial rs) (hrs : ∀ r ∈ rs, r.WellFormed ∧ r.Readable) :
    ∃ done left b p, ReqRuns t rest rs done left b p := by
  suffices ∀ t, ∀ rs, ReqAt t.reqBuf rest t.reqPartial rs → (∀ r ∈ rs, r.WellFormed ∧ r.Readable) →
      ∃ done left b p, rs = done ++ left ∧ requestLoop.run t = { t with
          reqBuf := b, reqPartial := p, pending := t.pending ++ done.map Request.pending } ∧
        ReqAt b rest p left ∧ ∀ r l, left = r :: l → (requests l).length < rest.length by
    obtain ⟨done, left, b, p, hs, hd, hat, hdue⟩ := this t rs h hrs
    exact ⟨done, left, b, p, hs, hd, hat, hdue⟩
  intro t
  refine requestLoop.run_induction (P := fun t t' => ∀ rs, ReqAt t.reqBuf rest t.reqPartial rs →
      (∀ r ∈ rs, r.WellFormed ∧ r.Readable) →
      ∃ done left b p, rs = done ++ left ∧ t' = { t with
          reqBuf := b, reqPartial := p, pending := t.pending ++ done.map Request.pending } ∧
        ReqAt b rest p left ∧ ∀ r l, left = r :: l → (requests l).length < rest.length) t ?_ ?_
  · intro t t' hb rs hat hrs
    have hturn := requestTurn_at hat hrs
    rw [show requestTurn t = .leave t' from hb] at hturn
    cases hturn with
    | waits hat' hdue => exact ⟨[], rs, _, _, rfl, by simp, hat', hdue⟩
  · intro t t' hb ih rs hat hrs
    have hturn := requestTurn_at hat hrs
    rw [show requestTurn t = .goOn t' from hb] at hturn
    cases hturn with
    | head hat' =>
      obtain ⟨done, left, b, p, hs, hrun, hat'', hdue⟩ := ih rs hat' hrs
      exact ⟨done, left, b, p, hs, hrun, hat'', hdue⟩
    | @done b r l hl hat' =>
      obtain ⟨done, left, b', p, hs, hrun, hat'', hdue⟩ :=
        ih l hat' fun r hm => hrs r (by simp [hl, hm])
      refine ⟨r :: done, left, b', p, by rw [hl, hs]; rfl, ?_, hat'', hdue⟩
      rw [hrun]
      simp

end Request

section Response

variable {e : Exchange}

theorem Exchange.attached (e : Exchange) {b : BodyReader} (hb : b.capture = .of e.response.body) :
    attachBodyResp e.opened b = e.captured := by
  simp [attachBodyResp, hb, Capture.of, Exchange.captured]

theorem Exchange.captured_nil (h : e.response.body = []) : e.captured = e.opened := by
  simp [Exchange.captured, h, Exchange.opened]

/-- A final response takes its request off the queue. -/
theorem completeResponse_eq (t : HttpTap) {waiting : List Request}
    (h : t.pending = (e.request :: waiting).map Request.pending) :
    t.completeResponse e.captured = { t with
      pending := waiting.map Request.pending
      completed := t.completed ++ [e.transaction t.sni] } := by
  simp [completeResponse, h, Request.pending, Exchange.transaction]

/-- What a final response head announces: no body, the reader of the body behind it, or a body
that lasts until the connection closes. -/
theorem Exchange.framing_at (hr : e.Readable) (hw : e.WellFormed) (x : Bytes) :
    (responseFraming e.response.head.status e.request.isHead e.response.head.headers = none ∧
        e.response.wireBody = [] ∧ e.response.body = []) ∨
    (∃ framing, responseFraming e.response.head.status e.request.isHead e.response.head.headers =
        some framing ∧ BodyAt x e.response.body { framing } (e.response.wireBody ++ x)) ∨
    (responseFraming e.response.head.status e.request.isHead e.response.head.headers =
        some .untilClose ∧ e.response.wireBody = e.response.body ∧ e.Closes) := by
  have hcoding := hr.coding
  have hb := hw.body
  have hcl : e.request.isHead = false → ¬ Bodiless e.response.head.status →
      ¬ ChunkedCoding e.response.head.headers →
      fieldValues e.response.head.headers "content-length" = [] → e.Closes :=
    fun h1 h2 h3 h4 => ⟨h1, h2, h3, h4⟩
  obtain ⟨request, interims, ⟨head, wireBody, body⟩⟩ := e
  dsimp only at hcoding hb hcl ⊢
  generalize request.isHead = toHead at hb hcl hcoding ⊢
  cases hb with
  | toHead hs =>
    left
    subst hs
    exact ⟨by simp [responseFraming], rfl, rfl⟩
  | delimited hs hb =>
    subst hs
    cases hb with
    | none hs => exact Or.inl ⟨responseFraming_bodiless hs _, rfl, rfl⟩
    | sized hs hn hsize =>
      have hf := responseFraming_body hs head.headers
      simp only [hn.isChunked, hn.contentLength hsize, Bool.false_eq_true, if_false] at hf
      by_cases hne : wireBody = []
      · subst hne
        exact Or.inl ⟨hf, rfl, rfl⟩
      · obtain ⟨n, hn'⟩ := Nat.exists_eq_succ_of_ne_zero (n := wireBody.length) (by simpa using hne)
        refine Or.inr (Or.inl ⟨.length wireBody.length, ?_, .sized (a := []) rfl hne⟩)
        rw [hf, hn']
        rfl
    | chunked hs hc hwire =>
      refine Or.inr (Or.inl ⟨.chunked {}, ?_, .chunked (a := []) rfl (.size rfl hwire (by simp))⟩)
      rw [responseFraming_body hs, if_pos ((hcoding rfl hs).mpr hc)]
  | untilClose hs hbl hc hn =>
    subst hs
    refine Or.inr (Or.inr ⟨?_, rfl, hcl rfl hbl hc hn⟩)
    rw [responseFraming_body hbl, if_neg fun h => hc ((hcoding rfl hbl).mp h),
      fieldValues_contentLength hn]

/-- Where the capture stands in the responses to `es`, of which `buf ++ rest` is still to be
read. -/
inductive RespAt (buf rest : Bytes) : Option (HttpResponse × BodyReader) → List Exchange → Prop
  | nil (h : buf ++ rest = []) : RespAt buf rest none []
  | head {ints : List RespHead} {l : List Exchange} {e : Exchange} (hsuf : ints <:+ e.interims)
      (h : buf ++ rest = ints.flatMap RespHead.encode ++ (e.response.wire ++ responses l)) :
      RespAt buf rest none (e :: l)
  | body {l : List Exchange} {e : Exchange} {b : BodyReader}
      (h : BodyAt (responses l) e.response.body b (buf ++ rest))
      (hlen : rest.length ≤ (e.response.wireBody ++ responses l).length) :
      RespAt buf rest (some (e.opened, b)) (e :: l)
  | untilClose {e : Exchange} {a : Bytes} (hcl : e.Closes)
      (h : a ++ (buf ++ rest) = e.response.body)
      (hlen : rest.length ≤ e.response.wireBody.length) :
      RespAt buf rest (some (e.opened, ⟨.untilClose, .of a⟩)) [e]

theorem RespAt.start {buf rest : Bytes} {es : List Exchange} (h : buf ++ rest = responses es) :
    RespAt buf rest none es := by
  cases es with
  | nil => exact .nil h
  | cons e l =>
    refine .head (List.suffix_refl _) ?_
    rw [h]
    simp [responses, Exchange.responseWire, Exchange.leadIn]

/-- The requests of all responses of which the head is complete are waiting, in order. -/
def Ready (rest : Bytes) (waiting : List Request) (es : List Exchange) : Prop :=
  ∀ done e l, es = done ++ e :: l → rest.length ≤ (e.response.wireBody ++ responses l).length →
    (done ++ [e]).map Exchange.request <+: waiting

theorem Ready.first {rest : Bytes} {waiting : List Request} {l : List Exchange}
    (h : Ready rest waiting (e :: l))
    (hlen : rest.length ≤ (e.response.wireBody ++ responses l).length) :
    ∃ w, waiting = e.request :: w ∧ Ready rest w l := by
  obtain ⟨w, hw⟩ := h [] e l rfl hlen
  refine ⟨w, hw.symm, fun done e' l' hl hlen' => ?_⟩
  have hpre := h (e :: done) e' l' (by rw [hl]; rfl) hlen'
  rw [← hw] at hpre
  exact (List.prefix_append_right_inj [e.request]).mp hpre

/-- The outcome of one iteration from a position. -/
inductive RespTurns (t : HttpTap) (rest : Bytes) (waiting : List Request) (es : List Exchange) :
    Turn HttpTap → Prop
  | waits {b : Bytes} {p : Option (HttpResponse × BodyReader)} (hat : RespAt b rest p es)
      (hdue : ∀ e l, es = e :: l → (responses l).length < rest.length) :
      RespTurns t rest waiting es (.leave { t with respBuf := b, respPartial := p })
  | untilClose {e : Exchange} {a : Bytes} (hes : es = [e]) (hcl : e.Closes)
      (ha : a ++ rest = e.response.body) (hlen : rest.length ≤ e.response.wireBody.length) :
      RespTurns t rest waiting es (.leave { t with
        respBuf := [], respPartial := some (e.opened, ⟨.untilClose, .of a⟩) })
  | head {b : Bytes} {p : Option (HttpResponse × BodyReader)} (hat : RespAt b rest p es) :
      RespTurns t rest waiting es (.goOn { t with respBuf := b, respPartial := p })
  | done {b : Bytes} {e : Exchange} {l : List Exchange} {w : List Request} (hl : es = e :: l)
      (hw : waiting = e.request :: w) (hready : Ready rest w l) (hat : RespAt b rest none l) :
      RespTurns t rest waiting es (.goOn { t with
        respBuf := b
        respPartial := none
        pending := w.map Request.pending
        completed := t.completed ++ [e.transaction t.sni] })

variable {t : HttpTap} {rest : Bytes} {waiting : List Request} {l : List Exchange}

private theorem responseTurn_leave (hp : t.respPartial = none)
    (ht : takeHead t.respBuf = .needMore) :
    responseTurn t = .leave { t with respBuf := t.respBuf, respPartial := none } := by
  simp only [responseTurn, hp, ht]
  rw [← hp]

private theorem responseTurn_interim {ints : List RespHead} {h : RespHead}
    (hp : t.respPartial = none) (hsuf : h :: ints <:+ e.interims) (hw : e.WellFormed)
    (hr : e.Readable) (hb : t.respBuf ++ rest =
      h.encode ++ (ints.flatMap RespHead.encode ++ (e.response.wire ++ responses l))) :
    RespTurns t rest waiting (e :: l) (responseTurn t) := by
  obtain ⟨hwf, hsize, hint, h101⟩ := hw.interims h (hsuf.mem (by simp))
  obtain ⟨reason, hreason⟩ := Option.isSome_iff_exists.mp (hr.interims h (hsuf.mem (by simp)))
  rcases takeHead_at hwf.head hsize hb with ⟨ht, hlt⟩ | ⟨b, ht, hrest⟩
  · rw [responseTurn_leave hp ht]
    refine .waits (.head hsuf (by rw [hb]; simp)) ?_
    rintro _ _ ⟨⟩
    simp only [List.length_append] at hlt
    omega
  · have hturn : responseTurn t = .goOn { t with respBuf := b, respPartial := none } := by
      simp only [responseTurn, hp, ht, RespHead.parseStatusLine_statusLine hwf hreason]
      rw [if_pos ⟨hint.1, hint.2, h101⟩]
    rw [hturn]
    exact .head (.head ((List.suffix_cons _ _).trans hsuf) hrest)

private theorem responseTurn_final (hp : t.respPartial = none)
    (hpend : t.pending = waiting.map Request.pending) (hready : Ready rest waiting (e :: l))
    (hlast : e.Closes → l = []) (hw : e.WellFormed) (hr : e.Readable)
    (hb : t.respBuf ++ rest = e.response.wire ++ responses l) :
    RespTurns t rest waiting (e :: l) (responseTurn t) := by
  obtain ⟨reason, hreason⟩ := Option.isSome_iff_exists.mp hr.reason
  have hb' : t.respBuf ++ rest =
      e.response.head.encode ++ (e.response.wireBody ++ responses l) := by
    rw [hb, Message.wire, List.append_assoc]
  rcases takeHead_at hw.head.head hw.size hb' with ⟨ht, hlt⟩ | ⟨b, ht, hrest⟩
  · rw [responseTurn_leave hp ht]
    refine .waits (.head List.nil_suffix (by simpa using hb)) ?_
    rintro _ _ ⟨⟩
    rw [List.length_append] at hlt
    omega
  · have hlen : rest.length ≤ (e.response.wireBody ++ responses l).length := by
      rw [← hrest, List.length_append]
      omega
    obtain ⟨w, rfl, hreadyl⟩ := hready.first hlen
    have hint : ¬ (100 ≤ e.response.head.status ∧ e.response.head.status ≤ 199) := hw.final
    have hopened : e.opened =
        { status := e.response.head.status, statusText := reason
          httpVersion := Str.lit "HTTP/1.1", headers := e.response.head.headers
          headersSize := e.response.head.encode.length } := by
      simp [Exchange.opened, hreason]
    have hturn {o : Option Framing} (ho : responseFraming e.response.head.status
        e.request.isHead e.response.head.headers = o) :
        responseTurn t = o.elim
          (.goOn ({ t with respBuf := b, respPartial := none }.completeResponse e.opened))
          fun framing =>
            .goOn { t with respBuf := b, respPartial := some (e.opened, { framing }) } := by
      simp only [responseTurn, hp, ht, RespHead.parseStatusLine_statusLine hw.head hreason, hpend,
        List.map_cons, List.head?_cons, Option.map_some, Option.getD_some, Request.pending]
      rw [if_neg (fun h => hint ⟨h.1, h.2.1⟩), hopened]
      have h101 : e.response.head.status ≠ 101 := by omega
      rw [if_neg h101]
      generalize hg : responseFraming _ _ _ = g
      obtain rfl : g = o := hg.symm.trans ho
      cases g <;> rfl
    rcases e.framing_at hr hw (responses l) with ⟨hf, hwb, hbody⟩ | ⟨framing, hf, hat⟩ |
      ⟨hf, hwb, hcl⟩
    · rw [hturn hf, Option.elim_none, ← Exchange.captured_nil hbody,
        completeResponse_eq { t with respBuf := b, respPartial := none } hpend]
      exact .done rfl rfl hreadyl (.start (by simpa [hwb] using hrest))
    · rw [hturn hf]
      exact .head (.body (by rwa [hrest]) hlen)
    · obtain rfl := hlast hcl
      rw [hturn hf]
      have hrest' : b ++ rest = e.response.body := by simpa [responses, hwb] using hrest
      exact .head (.untilClose (a := []) hcl hrest' (by simpa [responses] using hlen))

private theorem responseTurn_body {b : BodyReader} (hp : t.respPartial = some (e.opened, b))
    (hpend : t.pending = waiting.map Request.pending) (hready : Ready rest waiting (e :: l))
    (h : BodyAt (responses l) e.response.body b (t.respBuf ++ rest))
    (hlen : rest.length ≤ (e.response.wireBody ++ responses l).length) :
    RespTurns t rest waiting (e :: l) (responseTurn t) := by
  have hc := consume_at h
  obtain ⟨c, hcon⟩ : ∃ c, b.consume t.respBuf = c := ⟨_, rfl⟩
  rw [hcon] at hc
  cases hc with
  | waits hat hdue =>
    simp only [responseTurn, hp, hcon]
    refine .waits (.body hat hlen) ?_
    rintro _ _ ⟨⟩
    exact hdue
  | @done _ buf hcap hx =>
    obtain ⟨w, rfl, hreadyl⟩ := hready.first hlen
    simp only [responseTurn, hp, hcon, e.attached hcap]
    rw [completeResponse_eq { t with respBuf := buf, respPartial := none } hpend]
    exact .done rfl rfl hreadyl (.start hx)

theorem responseTurn_at {es : List Exchange} (h : RespAt t.respBuf rest t.respPartial es)
    (hpend : t.pending = waiting.map Request.pending) (hready : Ready rest waiting es)
    (hes : ∀ e ∈ es, e.WellFormed ∧ e.Readable) (hlast : ∀ e ∈ es.dropLast, ¬ e.Closes) :
    RespTurns t rest waiting es (responseTurn t) := by
  generalize hp : t.respPartial = p at h
  cases h with
  | nil h =>
    obtain ⟨hb, -⟩ : t.respBuf = [] ∧ rest = [] := by simpa using h
    rw [responseTurn_leave hp (by rw [hb, takeHead_nil])]
    exact .waits (.nil h) (by simp)
  | @head ints l e hsuf h =>
    obtain ⟨hw, hr⟩ := hes e (List.mem_cons_self ..)
    cases ints with
    | nil =>
      refine responseTurn_final hp hpend hready (fun hcl => ?_) hw hr (by simpa using h)
      cases l with
      | nil => rfl
      | cons e' l => exact absurd hcl (hlast e (by simp))
    | cons hd ints => exact responseTurn_interim hp hsuf hw hr (by simpa using h)
  | body h hlen => exact responseTurn_body hp hpend hready h hlen
  | @untilClose e a hcl h hlen =>
    have hturn : responseTurn t = .leave { t with
        respBuf := [], respPartial := some (e.opened, ⟨.untilClose, .of (a ++ t.respBuf)⟩) } := by
      simp [responseTurn, hp, BodyReader.consume, pushCapped_of]
    rw [hturn]
    exact .untilClose rfl hcl (by rw [List.append_assoc, h]) hlen

/-- More input is due before the end of the next response, or that lasts until the close. -/
def RespDue (rest b : Bytes) (p : Option (HttpResponse × BodyReader)) (left : List Exchange) :
    Prop :=
  ∀ e l, left = e :: l → (responses l).length < rest.length ∨
    l = [] ∧ b = [] ∧ ∃ a, p = some (e.opened, ⟨.untilClose, .of a⟩) ∧ a ++ rest = e.response.body

/-- What a whole call leaves: the responses completed have been paired with the first requests
that were waiting. -/
structure RespRuns (t t' : HttpTap) (rest : Bytes) (waiting : List Request)
    (es done left : List Exchange) (w : List Request) (b : Bytes)
    (p : Option (HttpResponse × BodyReader)) : Prop where
  split : es = done ++ left
  waiting : waiting = done.map Exchange.request ++ w
  drained : t' = { t with
    respBuf := b
    respPartial := p
    pending := w.map Request.pending
    completed := t.completed ++ done.map (Exchange.transaction t.sni) }
  at_ : RespAt b rest p left
  due : RespDue rest b p left

theorem drainResponses_at {es : List Exchange} (h : RespAt t.respBuf rest t.respPartial es)
    (hpend : t.pending = waiting.map Request.pending) (hready : Ready rest waiting es)
    (hes : ∀ e ∈ es, e.WellFormed ∧ e.Readable) (hlast : ∀ e ∈ es.dropLast, ¬ e.Closes) :
    ∃ done left w b p, RespRuns t t.drainResponses rest waiting es done left w b p := by
  suffices ∀ t, ∀ waiting es, RespAt t.respBuf rest t.respPartial es →
      t.pending = waiting.map Request.pending → Ready rest waiting es →
      (∀ e ∈ es, e.WellFormed ∧ e.Readable) → (∀ e ∈ es.dropLast, ¬ e.Closes) →
      ∃ done left w b p, RespRuns t (responseLoop.run t) rest waiting es done left w b p from
    this t waiting es h hpend hready hes hlast
  intro t
  refine responseLoop.run_induction (P := fun t t' => ∀ waiting es,
    RespAt t.respBuf rest t.respPartial es → t.pending = waiting.map Request.pending →
    Ready rest waiting es → (∀ e ∈ es, e.WellFormed ∧ e.Readable) →
    (∀ e ∈ es.dropLast, ¬ e.Closes) →
    ∃ done left w b p, RespRuns t t' rest waiting es done left w b p) t ?_ ?_
  · intro t t' hb waiting es hat hpend hready hes hlast
    have hturn := responseTurn_at hat hpend hready hes hlast
    rw [show responseTurn t = .leave t' from hb] at hturn
    cases hturn with
    | waits hat' hdue =>
      exact ⟨[], es, waiting, _, _, rfl, rfl, by simp [← hpend], hat',
        fun e l hl => Or.inl (hdue e l hl)⟩
    | @untilClose e a hes' hcl ha hlen =>
      subst hes'
      refine ⟨[], [e], waiting, [], some (e.opened, ⟨.untilClose, .of a⟩), rfl, rfl,
        by simp [← hpend], .untilClose hcl (by simpa using ha) hlen, ?_⟩
      rintro _ _ ⟨⟩
      exact Or.inr ⟨rfl, rfl, a, rfl, ha⟩
  · intro t t' hb ih waiting es hat hpend hready hes hlast
    have hturn := responseTurn_at hat hpend hready hes hlast
    rw [show responseTurn t = .goOn t' from hb] at hturn
    cases hturn with
    | head hat' =>
      obtain ⟨done, left, w, b, p, hruns⟩ := ih waiting es hat' hpend hready hes hlast
      exact ⟨done, left, w, b, p, hruns.split, hruns.waiting, hruns.drained, hruns.at_, hruns.due⟩
    | @done b e l w hl hw hready' hat' =>
      subst hl
      obtain ⟨done, left, w', b', p, hruns⟩ := ih w l hat' rfl hready'
        (fun e' hm => hes e' (by simp [hm])) fun e' hm => hlast e' (by
          cases l with
          | nil => simp at hm
          | cons e₁ l => exact List.mem_cons_of_mem _ hm)
      refine ⟨e :: done, left, w', b', p, by rw [hruns.split]; rfl, ?_, ?_, hruns.at_, hruns.due⟩
      · rw [hw, hruns.waiting]
        rfl
      · rw [hruns.drained]
        simp

end Response

section Run

variable {host : Option Str} {rs : List Request} {es : List Exchange}

/-- Where a run of the capture stands: `answered` have been paired, `waiting` are pending,
`reqRest` and `respRest` are still to be fed. -/
structure Follows (host : Option Str) (rs : List Request) (es : List Exchange)
    (reqRest respRest : Bytes) (out : List HttpTransaction) (t : HttpTap)
    (answered left : List Exchange) (waiting unread : List Request) : Prop where
  sni : t.sni = host
  enabled : t.disabled = false
  asked : rs = answered.map Exchange.request ++ waiting ++ unread
  answers : es = answered ++ left
  reqAt : ReqAt t.reqBuf reqRest t.reqPartial unread
  reqDue : ∀ r l, unread = r :: l → (requests l).length < reqRest.length
  respAt : RespAt t.respBuf respRest t.respPartial left
  respDue : RespDue respRest t.respBuf t.respPartial left
  pending : t.pending = waiting.map Request.pending
  completed : out ++ t.completed = answered.map (Exchange.transaction host)

/-- The conversations that the capture is to follow. -/
structure Conversation (rs : List Request) (es : List Exchange) (more : List Request) : Prop where
  asked : rs = es.map Exchange.request ++ more
  each : ∀ e ∈ es, e.WellFormed ∧ e.Readable
  more : ∀ r ∈ more, r.WellFormed ∧ r.Readable
  last : ∀ e ∈ es.dropLast, ¬ e.Closes

theorem ReqAt.ext {b d rest : Bytes} {p : Option (HttpRequest × BodyReader)}
    (h : ReqAt b (d ++ rest) p rs) : ReqAt (b ++ d) rest p rs := by
  cases h with
  | head h => exact .head (by simpa using h)
  | body h => exact .body (by simpa using h)

theorem RespAt.ext {b d rest : Bytes} {p : Option (HttpResponse × BodyReader)}
    (h : RespAt b (d ++ rest) p es) : RespAt (b ++ d) rest p es := by
  cases h with
  | nil h => exact .nil (by simpa using h)
  | head hsuf h => exact .head hsuf (by simpa using h)
  | body h hlen =>
    rw [List.length_append] at hlen
    exact .body (by simpa using h) (by omega)
  | untilClose hcl h hlen =>
    rw [List.length_append] at hlen
    exact .untilClose hcl (by simpa using h) (by omega)

theorem RespAt.closes {b rest : Bytes} {p : Option (HttpResponse × BodyReader)} {e : Exchange}
    {c : Capture} (h : RespAt b rest p [e]) (hp : p = some (e.opened, ⟨.untilClose, c⟩)) :
    e.Closes := by
  cases h with
  | head => simp at hp
  | body h =>
    obtain ⟨-, rfl⟩ := Prod.mk.inj (Option.some.inj hp)
    cases h
  | untilClose hcl => exact hcl

variable {reqRest respRest : Bytes} {out : List HttpTransaction} {t : HttpTap}
  {answered left : List Exchange} {waiting unread : List Request} {more : List Request}

theorem Conversation.request (hc : Conversation rs es more) :
    ∀ r ∈ rs, r.WellFormed ∧ r.Readable := by
  intro r hr
  rw [hc.asked, List.mem_append, List.mem_map] at hr
  rcases hr with ⟨e, he, rfl⟩ | hr
  · exact ⟨(hc.each e he).1.request, (hc.each e he).2.request⟩
  · exact hc.more r hr

theorem Follows.feedRequest {d : Bytes} (hc : Conversation rs es more)
    (h : Follows host rs es (d ++ reqRest) respRest out t answered left waiting unread) :
    ∃ waiting' unread', Follows host rs es reqRest respRest out (t.feedRequest d) answered left
      waiting' unread' := by
  by_cases hd : d = []
  · subst hd
    refine ⟨waiting, unread, ?_⟩
    simpa [HttpTap.feedRequest] using h
  · obtain ⟨done, left', b, p, hruns⟩ :=
      drainRequests_at (t := { t with reqBuf := t.reqBuf ++ d }) h.reqAt.ext fun r hr =>
        hc.request r (by simp [h.asked, hr])
    have hfeed : t.feedRequest d =
        { t with reqBuf := b, reqPartial := p, pending := t.pending ++ done.map Request.pending } := by
      rw [HttpTap.feedRequest, if_neg (by simp [h.enabled, hd])]
      exact hruns.drained
    refine ⟨waiting ++ done, left', ?_⟩
    rw [hfeed]
    exact {
      sni := h.sni
      enabled := h.enabled
      asked := by rw [h.asked, hruns.split]; simp
      answers := h.answers
      reqAt := hruns.at_
      reqDue := hruns.due
      respAt := h.respAt
      respDue := h.respDue
      pending := by simp [h.pending]
      completed := h.completed }

theorem Follows.feedResponse {d : Bytes} (hc : Conversation rs es more)
    (h : Follows host rs es reqRest (d ++ respRest) out t answered left waiting unread)
    (hready : Ready respRest waiting left) :
    ∃ answered' left' waiting', Follows host rs es reqRest respRest out (t.feedResponse d) answered'
      left' waiting' unread := by
  by_cases hd : d = []
  · subst hd
    refine ⟨answered, left, waiting, ?_⟩
    simpa [HttpTap.feedResponse] using h
  · obtain ⟨done, left', w, b, p, hruns⟩ :=
      drainResponses_at (t := { t with respBuf := t.respBuf ++ d }) h.respAt.ext h.pending hready
        (fun e he => hc.each e (by simp [h.answers, he])) fun e he => hc.last e (by
          have hne : left ≠ [] := by
            rintro rfl
            simp at he
          rw [h.answers, List.dropLast_append_of_ne_nil hne]
          exact List.mem_append_right _ he)
    have hfeed : t.feedResponse d = { t with
        respBuf := b
        respPartial := p
        pending := w.map Request.pending
        completed := t.completed ++ done.map (Exchange.transaction t.sni) } := by
      rw [HttpTap.feedResponse, if_neg (by simp [h.enabled, hd])]
      exact hruns.drained
    refine ⟨answered ++ done, left', w, ?_⟩
    rw [hfeed]
    exact {
      sni := h.sni
      enabled := h.enabled
      asked := by rw [h.asked, hruns.waiting]; simp
      answers := by rw [h.answers, hruns.split]; simp
      reqAt := h.reqAt
      reqDue := h.reqDue
      respAt := hruns.at_
      respDue := hruns.due
      pending := rfl
      completed := by simp [← List.append_assoc, h.completed, h.sni] }

theorem requests_append (a b : List Request) : requests (a ++ b) = requests a ++ requests b :=
  List.flatMap_append

theorem responses_append (a b : List Exchange) : responses (a ++ b) = responses a ++ responses b :=
  List.flatMap_append

/-- When a response head is complete, the request it answers has been read. -/
theorem Follows.ready {reqFed respFed respRest' : Bytes} (hc : Conversation rs es more)
    (h : Follows host rs es reqRest respRest out t answered left waiting unread)
    (hreq : reqFed ++ reqRest = requests rs) (hresp : respFed ++ respRest' = responses es)
    (horder : ∀ done e rest, es = done ++ e :: rest →
      (responses done ++ e.leadIn ++ e.response.head.encode).length ≤ respFed.length →
      (requests ((done ++ [e]).map Exchange.request)).length ≤ reqFed.length) :
    Ready respRest' waiting left := by
  intro done e l hl hlen
  have hes : es = (answered ++ done) ++ e :: l := by rw [h.answers, hl, List.append_assoc]
  have hfed : (requests ((answered ++ done ++ [e]).map Exchange.request)).length ≤
      reqFed.length := by
    apply horder (answered ++ done) e l hes
    have htotal := congrArg List.length hresp
    rw [hes, responses_append, show responses (e :: l) = e.responseWire ++ responses l from rfl,
      Exchange.responseWire, Message.wire] at htotal
    simp only [List.length_append] at htotal hlen ⊢
    omega
  have hsplit : waiting ++ unread = (done ++ [e]).map Exchange.request ++
      (l.map Exchange.request ++ more) := by
    have hall := h.asked.symm.trans hc.asked
    rw [hes] at hall
    simp only [List.map_append, List.map_cons, List.append_assoc, List.map_nil,
      List.append_cancel_left_eq] at hall ⊢
    simpa using hall
  by_cases hle : ((done ++ [e]).map Exchange.request).length ≤ waiting.length
  · exact List.prefix_of_prefix_length_le ⟨_, hsplit.symm⟩ (List.prefix_append _ _) hle
  · -- Otherwise the first unread request is among them, and it has not been fed completely.
    exfalso
    obtain ⟨z, hz⟩ := List.prefix_of_prefix_length_le (List.prefix_append waiting unread)
      ⟨_, hsplit.symm⟩ (Nat.le_of_not_le hle)
    cases z with
    | nil =>
      rw [← hz] at hle
      simp at hle
    | cons r z =>
      obtain ⟨u, hu⟩ : ∃ u, unread = r :: u := by
        rw [← hz, List.append_assoc, List.append_cancel_left_eq] at hsplit
        exact ⟨_, hsplit⟩
      have hdue := h.reqDue r u hu
      have htotal := congrArg List.length hreq
      rw [h.asked, hu, requests_append, requests_append,
        show requests (r :: u) = r.wire ++ requests u from rfl] at htotal
      rw [List.append_assoc, List.map_append, requests_append, ← hz, requests_append,
        show requests (r :: z) = r.wire ++ requests z from rfl] at hfed
      simp only [List.length_append] at htotal hfed
      omega

/-- A sequence of calls is followed from any point of the conversation. -/
theorem Follows.runOps (hc : Conversation rs es more) {pre ops : List Op}
    (horder : InOrder es (pre ++ ops))
    (h : Follows host rs es (ops.flatMap Op.requestBytes ++ reqRest)
      (ops.flatMap Op.responseBytes ++ respRest) out t answered left waiting unread)
    (hreq : (pre ++ ops).flatMap Op.requestBytes ++ reqRest = requests rs)
    (hresp : (pre ++ ops).flatMap Op.responseBytes ++ respRest = responses es) :
    ∃ answered' left' waiting' unread', Follows host rs es reqRest respRest
      (out ++ (runOps t ops).1) (runOps t ops).2 answered' left' waiting' unread' := by
  induction ops generalizing pre out t answered left waiting unread with
  | nil => exact ⟨answered, left, waiting, unread, by simpa [HttpTap.runOps] using h⟩
  | cons op ops ih =>
    have hstep : ∃ answered' left' waiting' unread', Follows host rs es
        (ops.flatMap Op.requestBytes ++ reqRest) (ops.flatMap Op.responseBytes ++ respRest)
        (out ++ (t.apply op).1) (t.apply op).2 answered' left' waiting' unread' := by
      cases op with
      | request d =>
        simp only [List.flatMap_cons, Op.requestBytes, Op.responseBytes, List.nil_append,
          List.append_assoc] at h
        obtain ⟨waiting', unread', h'⟩ := h.feedRequest hc
        exact ⟨answered, left, waiting', unread', by simpa [HttpTap.apply] using h'⟩
      | response d =>
        simp only [List.flatMap_cons, Op.requestBytes, Op.responseBytes, List.nil_append,
          List.append_assoc] at h
        have hreq' : (pre ++ [Op.response d]).flatMap Op.requestBytes ++
            (ops.flatMap Op.requestBytes ++ reqRest) = requests rs := by
          rw [← hreq]
          simp
        have hresp' : (pre ++ [Op.response d]).flatMap Op.responseBytes ++
            (ops.flatMap Op.responseBytes ++ respRest) = responses es := by
          rw [← hresp]
          simp
        have hready := h.ready hc hreq' hresp' (horder _ ⟨ops, by simp⟩)
        obtain ⟨answered', left', waiting', h'⟩ := h.feedResponse hc hready
        exact ⟨answered', left', waiting', unread, by simpa [HttpTap.apply] using h'⟩
      | take =>
        refine ⟨answered, left, waiting, unread, h.sni, h.enabled, h.asked, h.answers, h.reqAt,
          h.reqDue, h.respAt, h.respDue, h.pending, ?_⟩
        simpa [HttpTap.apply, takeTransactions] using h.completed
    obtain ⟨answered', left', waiting', unread', h'⟩ := hstep
    have happ : pre ++ op :: ops = (pre ++ [op]) ++ ops := by simp
    rw [happ] at horder hreq hresp
    obtain ⟨a, l, w, u, hend⟩ := ih horder h' hreq hresp
    exact ⟨a, l, w, u, by simpa [HttpTap.runOps] using hend⟩

variable (host) in
theorem Follows.start (hc : Conversation rs es more) :
    Follows host rs es (requests rs) (responses es) [] { sni := host } [] es [] rs where
  sni := rfl
  enabled := rfl
  asked := rfl
  answers := rfl
  reqAt := .head rfl
  reqDue := by
    rintro r l rfl
    have hlen := (findHeaderEnd_le (Head.findHeaderEnd_encode
      (hc.request r (by simp)).1.head.head [])).1
    simp only [requests, List.flatMap_cons, Request.wire, List.length_append]
    omega
  respAt := .start rfl
  respDue := by
    rintro e l rfl
    have hlen := (findHeaderEnd_le (RespHead.findHeaderEnd_encode
      (hc.each e (by simp)).1.head [])).1
    left
    simp only [responses, List.flatMap_cons, Exchange.responseWire, Message.wire,
      List.length_append]
    omega
  pending := rfl
  completed := rfl

/-- Once all responses have been fed, only a response that lasts until the close is left. -/
theorem Follows.all
    (h : Follows host rs es reqRest [] out t answered left waiting unread) :
    (left = [] ∧ t.respPartial = none) ∨ ∃ e, left = [e] ∧
      t.respPartial = some (e.opened, ⟨.untilClose, .of e.response.body⟩) := by
  cases left with
  | nil =>
    have hat := h.respAt
    generalize t.respPartial = p at hat
    cases hat
    exact Or.inl ⟨rfl, rfl⟩
  | cons e l =>
    rcases h.respDue e l rfl with hlt | ⟨rfl, -, a, hp, ha⟩
    · simp at hlt
    · rw [List.append_nil] at ha
      exact Or.inr ⟨e, rfl, by rw [hp, ha]⟩

variable (host) in
theorem runOps_start (hc : Conversation rs es more) {ops : List Op} (horder : InOrder es ops)
    (hreq : ops.flatMap Op.requestBytes <+: requests rs)
    (hresp : ops.flatMap Op.responseBytes = responses es) :
    ∃ reqRest answered left waiting unread,
      ops.flatMap Op.requestBytes ++ reqRest = requests rs ∧
      Follows host rs es reqRest [] (runOps { sni := host } ops).1 (runOps { sni := host } ops).2
        answered left waiting unread := by
  obtain ⟨reqRest, hreq⟩ := hreq
  have hstart := Follows.start host hc
  have horder' : InOrder es ([] ++ ops) := horder
  rw [← hreq, ← hresp, ← List.append_nil (ops.flatMap Op.responseBytes)] at hstart
  obtain ⟨a, l, w, u, hend⟩ := hstart.runOps hc horder' hreq
    (by rw [List.append_nil]; exact hresp)
  exact ⟨reqRest, a, l, w, u, hreq, hend⟩

/-- However both streams of a conversation are cut and interleaved, the transactions are the pairs
of the i-th request and the i-th final response, in order, with each body captured up to the cap;
a last response without a length is complete when the connection closes. -/
theorem transactions_paired (host : Option Str) (es : List Exchange) (more : List Request)
    (ops : List Op) (hes : ∀ e ∈ es, e.WellFormed ∧ e.Readable)
    (hmore : ∀ r ∈ more, r.WellFormed ∧ r.Readable) (hlast : ∀ e ∈ es.dropLast, ¬ e.Closes)
    (hreq : ops.flatMap Op.requestBytes <+: requests (es.map Exchange.request ++ more))
    (hresp : ops.flatMap Op.responseBytes = responses es) (horder : InOrder es ops) :
    (runOps { sni := host } ops).1 ++ (runOps { sni := host } ops).2.finish.takeTransactions.1 =
        es.map (Exchange.transaction host) ∧
      ((∀ e ∈ es.getLast?, ¬ e.Closes) →
        (runOps { sni := host } ops).1 ++ (runOps { sni := host } ops).2.takeTransactions.1 =
          es.map (Exchange.transaction host)) := by
  have hc : Conversation (es.map Exchange.request ++ more) es more := ⟨rfl, hes, hmore, hlast⟩
  obtain ⟨reqRest, answered, left, waiting, unread, hfed, h⟩ :=
    runOps_start host hc horder hreq hresp
  have hready := h.ready hc hfed (by rw [List.append_nil]; exact hresp) (horder ops List.prefix_rfl)
  obtain ⟨⟨out, t⟩, hrun⟩ : ∃ r, runOps { sni := host } ops = r := ⟨_, rfl⟩
  rw [hrun] at h ⊢
  dsimp only at h ⊢
  rcases h.all with ⟨rfl, hp⟩ | ⟨e, rfl, hp⟩
  · have hall : es = answered := by simpa using h.answers
    have hdone : out ++ t.completed = es.map (Exchange.transaction host) := by
      rw [hall, h.completed]
    have hfinish : t.finish = { t with disabled := true } := by
      simp [finish, h.enabled, hp]
    exact ⟨by simpa [hfinish, takeTransactions] using hdone, fun _ => hdone⟩
  · obtain ⟨w, rfl, -⟩ := hready.first (by simp)
    have hcl := h.respAt.closes hp
    have hfinish : t.finish.completed = t.completed ++ [e.transaction host] := by
      have hcomp := completeResponse_eq { t with respPartial := none } h.pending
      rw [finish, if_neg (by simp [h.enabled])]
      simp only [hp]
      rw [e.attached (b := ⟨.untilClose, .of e.response.body⟩) rfl, hcomp]
      simp only [h.sni]
    refine ⟨?_, fun hclose => ?_⟩
    · rw [takeTransactions, hfinish, ← List.append_assoc, h.completed, h.answers]
      simp
    · exact absurd hcl (hclose e (by simp [h.answers]))

/-- Calls that feed all requests first are in order. -/
theorem InOrder.requestsFirst (hw : ∀ e ∈ es, e.response.head.WellFormed) {data : Bytes}
    (h : requests (es.map Exchange.request) = data) (ops : List Op) :
    InOrder es (.request data :: ops) := by
  intro fed hfed done e rest hes hlen
  cases fed with
  | nil =>
    have hpos : 0 < e.response.head.encode.length := by
      have := (findHeaderEnd_le (RespHead.findHeaderEnd_encode (hw e (by simp [hes])) [])).1
      omega
    simp only [List.length_append, List.flatMap_nil, List.length_nil] at hlen
    omega
  | cons op fed =>
    obtain ⟨rfl, -⟩ := List.cons_prefix_cons.mp hfed
    have hall : es = (done ++ [e]) ++ rest := by simp [hes]
    have hle : (requests ((done ++ [e]).map Exchange.request)).length ≤ data.length := by
      rw [← h, hall, @List.map_append _ _ _ (done ++ [e]), requests_append, List.length_append]
      exact Nat.le_add_right _ _
    simp only [List.flatMap_cons, Op.requestBytes, List.length_append]
    omega

end Run

section Example

/-- A conversation fed as a whole, requests first. -/
def feedAll (es : List Exchange) : List Op :=
  [.request (requests (es.map Exchange.request)), .response (responses es)]

private def bare (method : String) : Request := ⟨⟨ascii method, ascii "/", []⟩, [], []⟩

private theorem bare_readable {method : String} (h : fieldValues (bare method).headers
    "transfer-encoding" = []) (hm : eqIgnoreAsciiCase (ascii method) (ascii "HEAD") →
    (bare method).isHead) : (bare method).Readable :=
  ⟨hm, fun hc => absurd hc (by simp [ChunkedCoding, h])⟩

private theorem bare_wellFormed {method : String} (hw : (bare method).head.WellFormed)
    (hs : (bare method).head.head.encode.length ≤ maxHeaderBytes) : (bare method).WellFormed :=
  ⟨hw, hs, .none rfl rfl⟩

set_option maxRecDepth 4000 in
private theorem bareHead_wellFormed {method : String} (h : ascii method ≠ [])
    (hm : ∀ b ∈ ascii method, isNameByte b) : (bare method).head.WellFormed :=
  ⟨⟨h, hm⟩, ⟨(by decide : ascii "/" ≠ []), (by decide : ∀ b ∈ ascii "/", isTargetByte b)⟩,
    by simp [bare]⟩

private def finalHead (reason : Bytes) (fields : List Field) : RespHead :=
  ⟨ascii "200", reason, fields⟩

private def lengthOf (n : String) : Field := ⟨ascii "Content-Length", ascii n⟩

set_option maxRecDepth 4000 in
private theorem lengthOf_wellFormed {n : String} (h : CR ∉ ascii n ∧ LF ∉ ascii n) :
    (lengthOf n).WellFormed :=
  ⟨(by decide : ascii "Content-Length" ≠ []),
    (by decide : ∀ b ∈ ascii "Content-Length", isNameByte b), h.1, h.2⟩

set_option maxRecDepth 4000 in
private theorem finalHead_wellFormed {reason : Bytes} {fields : List Field}
    (hr : CR ∉ reason ∧ LF ∉ reason) (hf : ∀ f ∈ fields, f.WellFormed) :
    (finalHead reason fields).WellFormed :=
  ⟨(by decide : (ascii "200").length = 3 ∧ ∀ b ∈ ascii "200", isDigit b), hr.1, hr.2, hf⟩

/-- A `HEAD` request, and a `GET` request whose response, after an interim one, lasts until the
connection closes. -/
private def headThenGet : List Exchange :=
  [⟨bare "HEAD", [], ⟨finalHead (ascii "OK") [lengthOf "100"], [], []⟩⟩,
    ⟨bare "GET", [⟨ascii "103", [], []⟩], ⟨finalHead (ascii "OK") [], ascii "hi", ascii "hi"⟩⟩]

set_option maxRecDepth 4000 in
private theorem headThenGet_each : ∀ e ∈ headThenGet, e.WellFormed ∧ e.Readable := by
  have hhead : (bare "HEAD").WellFormed :=
    bare_wellFormed (bareHead_wellFormed (by decide) (by decide)) (by decide)
  have hget : (bare "GET").WellFormed :=
    bare_wellFormed (bareHead_wellFormed (by decide) (by decide)) (by decide)
  have hcoding : fieldValues (finalHead (ascii "OK") []).headers "transfer-encoding" = [] := by
    decide
  have hnot : ¬ ChunkedCoding (finalHead (ascii "OK") []).headers := by
    simp [ChunkedCoding, hcoding]
  simp only [headThenGet, List.mem_cons, List.not_mem_nil, or_false]
  rintro e (rfl | rfl)
  · refine ⟨⟨hhead, by simp, finalHead_wellFormed (by decide) ?_, by decide,
      by decide, .toHead (by decide)⟩, bare_readable (by decide) (by decide), by simp, by decide,
      fun h => absurd h (by decide)⟩
    simp only [List.mem_singleton, forall_eq]
    exact lengthOf_wellFormed (by decide)
  · refine ⟨⟨hget, ?_, finalHead_wellFormed (by decide) (by simp), by decide,
      by decide, .untilClose (by decide) (by decide) hnot (by decide)⟩,
      bare_readable (by decide) (by decide), by simp; decide, by decide, fun _ _ => ?_⟩
    · simp only [List.mem_singleton, forall_eq]
      exact ⟨⟨by decide, by decide, by decide, by simp⟩, by decide,
        by decide, by decide⟩
    · exact iff_of_false (by decide) hnot

/-- The responses cut inside a head, with the transactions taken in between. -/
theorem transactions_paired_two :
    (runOps {} [.request (requests (headThenGet.map Exchange.request)),
        .response ((responses headThenGet).take 50), .take,
        .response ((responses headThenGet).drop 50)]).1 ++
      (runOps {} [.request (requests (headThenGet.map Exchange.request)),
        .response ((responses headThenGet).take 50), .take,
        .response ((responses headThenGet).drop 50)]).2.finish.takeTransactions.1 =
      headThenGet.map (Exchange.transaction none) := by
  refine (transactions_paired none headThenGet [] _ headThenGet_each (by simp) ?_ ?_ ?_
    (.requestsFirst (fun e he => (headThenGet_each e he).1.head) rfl _)).1
  · simp only [headThenGet, List.dropLast, List.mem_singleton, forall_eq]
    exact fun h => absurd h.1 (by decide)
  · exact ⟨[], by simp [Op.requestBytes]⟩
  · simp [Op.responseBytes]

/-- A reason phrase in Latin-1. -/
private def latin : List Exchange :=
  [⟨bare "GET", [], ⟨finalHead [0xE9] [lengthOf "0"], [], []⟩⟩]

private def codingOf (coding : String) : Field := ⟨ascii "Transfer-Encoding", ascii coding⟩

/-- A list of codings over two fields. -/
private def twoCodings : List Exchange :=
  [⟨bare "GET", [], ⟨finalHead (ascii "OK") [codingOf "gzip", codingOf "chunked"],
    ascii "0\r\n\r\n", []⟩⟩]

set_option maxRecDepth 4000 in
private theorem latin_wellFormed : ∀ e ∈ latin, e.WellFormed := by
  have hget : (bare "GET").WellFormed :=
    bare_wellFormed (bareHead_wellFormed (by decide) (by decide)) (by decide)
  have hvalues : fieldValues (finalHead [0xE9] [lengthOf "0"]).headers "content-length" =
      [Str.lit "0"] := by decide
  simp only [latin, List.mem_singleton, forall_eq]
  refine ⟨hget, by simp, finalHead_wellFormed (by decide) ?_, by decide, by decide,
    .delimited (by decide) (.sized (by decide) ⟨?_, ?_, by decide⟩ (by decide))⟩
  · simp only [List.mem_singleton, forall_eq]
    exact lengthOf_wellFormed (by decide)
  · simp [hvalues]
  · simp only [hvalues, List.mem_singleton, forall_eq]
    exact ⟨⟨by decide, by simp [Str.lit]; exact ⟨0, by decide⟩⟩, by decide⟩

set_option maxRecDepth 4000 in
private theorem twoCodings_wellFormed : ∀ e ∈ twoCodings, e.WellFormed := by
  have hget : (bare "GET").WellFormed :=
    bare_wellFormed (bareHead_wellFormed (by decide) (by decide)) (by decide)
  have hcoding : ChunkedCoding
      (finalHead (ascii "OK") [codingOf "gzip", codingOf "chunked"]).headers :=
    ⟨Str.lit "chunked", by decide, by decide⟩
  have hwire : Chunked maxHeaderBytes (ascii "0\r\n\r\n") [] :=
    @Chunked.last maxHeaderBytes _ [] sizeLine_zero (by decide) (by simp)
  simp only [twoCodings, List.mem_singleton, forall_eq]
  refine ⟨hget, by simp, finalHead_wellFormed (by decide) ?_, by decide, by decide,
    .delimited (by decide) (.chunked (by decide) hcoding hwire)⟩
  simp only [List.mem_cons, List.not_mem_nil, or_false]
  rintro f (rfl | rfl) <;> exact ⟨by decide, by decide, by decide, by decide⟩

/-- A well-formed conversation, fed in order, whose transactions are not its pairs. -/
structure Mispaired (es : List Exchange) (ops : List Op) : Prop where
  each : ∀ e ∈ es, e.WellFormed
  last : ∀ e ∈ es.dropLast, ¬ e.Closes
  asked : ops.flatMap Op.requestBytes = requests (es.map Exchange.request)
  answered : ops.flatMap Op.responseBytes = responses es
  order : InOrder es ops
  differ : (runOps {} ops).1 ++ (runOps {} ops).2.finish.takeTransactions.1 ≠
    es.map (Exchange.transaction none)

theorem transactions_mispaired :
    Mispaired latin (feedAll latin) ∧ Mispaired twoCodings (feedAll twoCodings) := by
  have hfed : ∀ es : List Exchange, (∀ e ∈ es, e.WellFormed) →
      (feedAll es).flatMap Op.requestBytes = requests (es.map Exchange.request) ∧
      (feedAll es).flatMap Op.responseBytes = responses es ∧ InOrder es (feedAll es) :=
    fun es hw => ⟨by simp [feedAll, Op.requestBytes], by simp [feedAll, Op.responseBytes],
      .requestsFirst (fun e he => (hw e he).head) rfl _⟩
  constructor
  · obtain ⟨h1, h2, h3⟩ := hfed latin latin_wellFormed
    exact ⟨latin_wellFormed, by simp [latin], h1, h2, h3, by decide +kernel⟩
  · obtain ⟨h1, h2, h3⟩ := hfed twoCodings twoCodings_wellFormed
    exact ⟨twoCodings_wellFormed, by simp [twoCodings], h1, h2, h3, by decide +kernel⟩

end Example

end HttpTap

end Adwarden.Tls
