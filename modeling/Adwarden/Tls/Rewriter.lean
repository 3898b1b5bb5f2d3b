import Adwarden.Rust.Panic
import Adwarden.Tls.Anchor
import Adwarden.Tls.Chunk
import Adwarden.Tls.HeadEdit

/-! The HTTP/1.1 rewriter for cosmetic filtering: it forces `Accept-Encoding: identity` on requests
and injects a payload into HTML responses. -/
namespace Adwarden.Tls
open Adwarden.Lib

inductive ReqState where
  /-- Between messages: looking for a request head. -/
  | head
  /-- Forwarding a request body of `n` remaining bytes. -/
  | body (n : ℕ)
deriving DecidableEq

/-- How the remaining body is framed. -/
inductive BodyKind where
  | length (remaining : ℕ)
  | chunked (reader : ChunkReader)
  | close
deriving DecidableEq

/-- State while scanning an injectable response body for the anchor. -/
structure BodyScan where
  /-- The head, held until the anchor is decided on. -/
  origHead : Bytes
  /-- Buffered body prefix, decoded when chunked. -/
  scan : Bytes := []
  body : BodyKind
  clOriginal : Option ℕ
  bodyDone : Bool := false
deriving DecidableEq

inductive RespState where
  /-- Accumulating the response head. -/
  | head
  /-- Buffering the body prefix of an injectable response to find the anchor. -/
  | buffer (scan : BodyScan)
  /-- Anchor resolved: streaming the remaining body. -/
  | stream (kind : BodyKind)
  /-- Forwarding the body of a response that is not injectable. -/
  | pass (kind : BodyKind)
deriving DecidableEq

structure Rewriter where
  /-- Off until a payload is provisioned: both directions pass through. -/
  active : Bool := false
  blob : Bytes := []
  /-- Set after a protocol that cannot be followed: everything is copied verbatim from then on. -/
  disabled : Bool := false
  req : ReqState := .head
  reqBuf : Bytes := []
  resp : RespState := .head
  respBuf : Bytes := []
  /-- HEAD-ness of the requests awaiting a response, in order. -/
  pendingHead : List Bool := []
deriving DecidableEq

/-- What the response side writes, with the head and body bytes it stands for. -/
inductive RespEmit where
  /-- A head, as received or edited. -/
  | head (raw text : Bytes)
  /-- Bytes of the stream, with an insertion between them. -/
  | body (pre insert post : Bytes)
  /-- Decoded body bytes in a chunk of their own, with an insertion between them. -/
  | chunk (pre insert post : Bytes)
  /-- A stretch of chunked coding as received, and the body bytes in it. -/
  | coded (wire decoded : Bytes)
  | lastChunk
deriving DecidableEq

namespace RespEmit

def render : RespEmit → Bytes
  | .head _ text => text
  | .body pre insert post => pre ++ insert ++ post
  | .chunk pre insert post => rechunk (pre ++ insert ++ post)
  | .coded wire _ => wire
  | .lastChunk => ascii "0\r\n\r\n"

def carried : RespEmit → Bytes
  | .head raw _ => raw
  | .body pre _ post => pre ++ post
  | .chunk pre _ post => pre ++ post
  | .coded _ decoded => decoded
  | .lastChunk => []

end RespEmit

namespace Rewriter

/-- Provision the cosmetic payload for this flow's host. -/
def setCosmetic (rw : Rewriter) (css js : Str) : Rewriter :=
  if css ≠ [] ∨ js ≠ [] then
    { rw with
      active := true
      blob := ascii "<!--adw-cosmetic-->" ++
        (if js ≠ [] then ascii "<script>" ++ Str.toBytes js ++ ascii "</script>" else []) ++
        (if css ≠ [] then
          ascii "<style id=\"adw-cosmetic\">" ++ Str.toBytes css ++ ascii "</style>" else []) }
  else { rw with active := false }

/-- The method and the headers of a request head without its terminator. -/
def requestHead (fields : Bytes) : Option (Str × Headers) := do
  let (start, headers) ← parseHeadFields fields
  let (method, _, _) ← parseRequestLine start
  some (method, headers)

/-- One iteration of the loop in `drive_request`; `none` when it returns without effect. -/
def stepRequest (rw : Rewriter) : Option (Bytes × Rewriter) :=
  if rw.disabled then none
  else match rw.req with
    | .head =>
      match findHeaderEnd rw.reqBuf with
      | none =>
        if maxHeaderBytes < rw.reqBuf.length then
          some (rw.reqBuf, { rw with disabled := true, reqBuf := [] })
        else none
      | some hend =>
        match requestHead (rw.reqBuf.take (hend - 4)) with
        | none => some (rw.reqBuf, { rw with disabled := true, reqBuf := [] })
        | some (method, headers) =>
          let edited := editRequestHead (rw.reqBuf.take hend)
          let pendingHead := rw.pendingHead ++ [method.eqIgnoreAsciiCase (Str.lit "HEAD")]
          let rest := rw.reqBuf.drop hend
          match requestFraming headers with
          | none => some (edited, { rw with pendingHead, reqBuf := rest })
          | some (.length n) => some (edited, { rw with pendingHead, reqBuf := rest, req := .body n })
          -- Chunked request bodies are not followed: hand the rest of the connection through.
          | some _ => some (edited ++ rest, { rw with pendingHead, disabled := true, reqBuf := [] })
    | .body remaining =>
      let take := min remaining rw.reqBuf.length
      if remaining - take = 0 then
        some (rw.reqBuf.take take, { rw with reqBuf := rw.reqBuf.drop take, req := .head })
      else if take = 0 then none
      else some (rw.reqBuf.take take,
        { rw with reqBuf := rw.reqBuf.drop take, req := .body (remaining - take) })

private def requestMeasure (rw : Rewriter) : ℕ :=
  if rw.disabled then 0
  else 2 * rw.reqBuf.length + 1 + match rw.req with
    | .head => 0
    | .body _ => 1

private theorem stepRequest_decreases {rw rw' : Rewriter} {o : Bytes}
    (h : rw.stepRequest = some (o, rw')) : requestMeasure rw' < requestMeasure rw := by
  by_cases hd : rw.disabled = true
  · simp [stepRequest, hd] at h
  · simp only [stepRequest, hd, Bool.false_eq_true, if_false] at h
    split at h
    · next hreq =>
      split at h
      · split_ifs at h
        obtain ⟨-, rfl⟩ := by simpa using h
        simp [requestMeasure, hd, hreq]
      · next hend he =>
        have hle := findHeaderEnd_le he
        split at h
        · obtain ⟨-, rfl⟩ := by simpa using h
          simp [requestMeasure, hd, hreq]
        · split at h <;> obtain ⟨-, rfl⟩ := by simpa using h
          all_goals simp [requestMeasure, hd, hreq]
          all_goals omega
    · next remaining hreq =>
      split_ifs at h <;> obtain ⟨-, rfl⟩ := by simpa using h
      all_goals simp [requestMeasure, hd, hreq]
      all_goals omega

def requestFeeder : Feeder Rewriter UInt8 UInt8 where
  step := stepRequest
  measure := requestMeasure
  decreases := stepRequest_decreases
  ext rw d := { rw with reqBuf := rw.reqBuf ++ d }
  ext_nil rw := by simp
  ext_append rw a b := by simp

/-- Feed app to upstream plaintext; returns the bytes to forward. -/
def feedRequest (rw : Rewriter) (data : Bytes) : Bytes × Rewriter :=
  if ¬ rw.active ∨ rw.disabled then (rw.reqBuf ++ data, { rw with reqBuf := [] })
  else requestFeeder.feed rw data

/-- The status and the headers of a response head without its terminator. -/
def responseHead (fields : Bytes) : Option (ℕ × Headers) := do
  let (start, headers) ← parseHeadFields fields
  let (_, status, _) ← parseStatusLine start
  some (status, headers)

def framingToKind : Framing → BodyKind
  | .length n => .length n
  | .chunked r => .chunked r
  | .untilClose => .close

/-- The outcome of a response step; `go` to keep draining. -/
structure RespIter where
  emits : List RespEmit := []
  rw : Rewriter
  go : Bool

def disableFlushResp (rw : Rewriter) (emits : List RespEmit) : RespIter where
  emits := emits ++ [.body rw.respBuf [] []]
  rw := { rw with disabled := true, respBuf := [] }
  go := false

/-- Parse the next response head and route it. -/
def stepResponseHead (rw : Rewriter) : RespIter :=
  match findHeaderEnd rw.respBuf with
  | none =>
    if maxHeaderBytes < rw.respBuf.length then rw.disableFlushResp [] else { rw, go := false }
  | some hend =>
    let rawHead := rw.respBuf.take hend
    match responseHead (rw.respBuf.take (hend - 4)) with
    | none => rw.disableFlushResp []
    | some (status, headers) =>
      let rw := { rw with respBuf := rw.respBuf.drop hend }
      if 100 ≤ status ∧ status ≤ 199 ∧ status ≠ 101 then
        { emits := [.head rawHead rawHead], rw, go := true }
      else
        let methodIsHead := rw.pendingHead.headD false
        let rw := { rw with pendingHead := rw.pendingHead.tail }
        if status = 101 then rw.disableFlushResp [.head rawHead rawHead]
        else match responseFraming status methodIsHead headers with
          | none => { emits := [.head rawHead rawHead], rw, go := true }
          | some framing =>
            let body := framingToKind framing
            if injectable status headers then
              let scan := { origHead := rawHead, body, clOriginal := contentLength headers }
              { rw := { rw with resp := .buffer scan }, go := true }
            else
              { emits := [.head rawHead rawHead], rw := { rw with resp := .pass body }, go := true }

/-- What is taken off the buffer for a body: the wire bytes, the body bytes in them and those that
fit the capture. -/
structure Pulled where
  step : Step
  body : BodyKind
  wire : Bytes
  decoded : Bytes
  bytes : Bytes
  rest : Bytes

/-- Take off `buf` what belongs to the body. -/
def pullBody (kind : BodyKind) (buf : Bytes) : Pulled :=
  match kind with
  | .length remaining =>
    let take := min remaining buf.length
    let taken := buf.take take
    { step := if remaining - take = 0 then .done else .needMore
      body := .length (remaining - take)
      wire := taken, decoded := taken, bytes := taken, rest := buf.drop take }
  | .chunked reader =>
    let c := reader.consume buf
    { step := c.step
      body := .chunked c.reader
      wire := buf.take (buf.length - c.rest.length)
      decoded := c.decoded
      bytes := (pushCapped {} c.decoded).captured
      rest := c.rest }
  | .close =>
    { step := .needMore, body := .close, wire := buf, decoded := buf, bytes := buf, rest := [] }

def isChunkedKind : BodyKind → Bool
  | .chunked _ => true
  | _ => false

/-- Body bytes as they are written, in a chunk of their own when the body is chunked. -/
def bodyEmit (kind : BodyKind) (pre insert post : Bytes) : RespEmit :=
  if isChunkedKind kind then .chunk pre insert post else .body pre insert post

/-- The end of a body that is written anew. -/
def lastEmits (kind : BodyKind) : List RespEmit := if isChunkedKind kind then [.lastChunk] else []

/-- The state in which the rest of a body is streamed, or the next head is read. -/
def afterScan (kind : BodyKind) (bodyDone : Bool) : List RespEmit × RespState :=
  match kind with
  | .length remaining => ([], if remaining = 0 then .head else .stream kind)
  | .chunked _ => if bodyDone then (lastEmits kind, .head) else ([], .stream kind)
  | .close => ([], .stream kind)

/-- Buffer an injectable body prefix and, once the anchor is decided on, write it. -/
def stepResponseBuffer (p : Profile) (rw : Rewriter) (bs : BodyScan) : Except Panic RespIter := do
  let pulled := pullBody bs.body rw.respBuf
  let rw := { rw with respBuf := pulled.rest }
  let scan := bs.scan ++ pulled.bytes
  if pulled.step = .error then
    .ok { emits := [.head bs.origHead bs.origHead, .chunk scan [] [], .lastChunk]
          rw := { rw with disabled := true }
          go := false }
  else
    let bodyDone := bs.bodyDone || pulled.step == .done
    let (last, resp) := afterScan pulled.body bodyDone
    match decideAnchor scan bodyDone with
    | none =>
      .ok { rw := { rw with resp := .buffer { bs with scan, body := pulled.body, bodyDone } }
            go := false }
    | some (some a) =>
      let newCl ← match bs.clOriginal with
        | some cl => (usizeAdd p cl rw.blob.length).map some
        | none => .ok none
      let head := .head bs.origHead (editResponseHead bs.origHead newCl)
      .ok { emits := head :: bodyEmit pulled.body (scan.take a) rw.blob (scan.drop a) :: last
            rw := { rw with resp }
            go := true }
    | some none =>
      .ok { emits := .head bs.origHead bs.origHead :: bodyEmit pulled.body scan [] [] :: last
            rw := { rw with resp }
            go := true }

/-- Stream the tail of an injected or abandoned body. -/
def stepResponseStream (rw : Rewriter) (kind : BodyKind) : RespIter :=
  let pulled := pullBody kind rw.respBuf
  let rw := { rw with respBuf := pulled.rest }
  let emit := bodyEmit kind pulled.bytes [] []
  match pulled.step with
  | .done => { emits := emit :: lastEmits kind, rw, go := true }
  | .needMore => { emits := [emit], rw := { rw with resp := .stream pulled.body }, go := false }
  | .error => { emits := emit :: lastEmits kind, rw := { rw with disabled := true }, go := false }

/-- Forward the body of a response that is not injected into, detecting its end. -/
def stepResponsePass (rw : Rewriter) (kind : BodyKind) : RespIter :=
  let pulled := pullBody kind rw.respBuf
  let rw := { rw with respBuf := pulled.rest }
  let emit := if isChunkedKind kind then .coded pulled.wire pulled.decoded
    else .body pulled.bytes [] []
  match pulled.step with
  | .done => { emits := [emit], rw, go := true }
  | .needMore => { emits := [emit], rw := { rw with resp := .pass pulled.body }, go := false }
  | .error => rw.disableFlushResp [emit]

/-- One iteration of the loop in `drive_response`, which takes the state and leaves `Head`. -/
def stepResponse (p : Profile) (rw : Rewriter) : Except Panic RespIter :=
  let taken := { rw with resp := .head }
  match rw.resp with
  | .head => .ok taken.stepResponseHead
  | .buffer scan => taken.stepResponseBuffer p scan
  | .stream kind => .ok (taken.stepResponseStream kind)
  | .pass kind => .ok (taken.stepResponsePass kind)

end Rewriter

/-- The state of the loop in `drive_response`. -/
inductive RespLoop where
  | running (rw : Rewriter)
  | returned (rw : Rewriter)
  | panicked (e : Panic)

namespace Rewriter

def responseLoop (p : Profile) : RespLoop → Option (List RespEmit × RespLoop)
  | .running rw =>
    match rw.stepResponse p with
    | .ok it => some (it.emits, if it.go then .running it.rw else .returned it.rw)
    | .error e => some ([], .panicked e)
  | .returned _ => none
  | .panicked _ => none

theorem pullBody_rest_le (kind : BodyKind) (buf : Bytes) :
    (pullBody kind buf).rest.length ≤ buf.length := by
  cases kind with
  | length n => simp [pullBody]
  | close => simp [pullBody]
  | chunked r =>
    exact (chunkFeeder (some maxHeaderBytes)).run_invariant
      (P := fun _ l => l.buf.length ≤ buf.length) (s := { state := r.state, buf }) (o := [])
      (Nat.le_refl _) fun _ _ _ _ hl hs => Nat.le_trans (chunkStep_buf_le hs) hl

private def respRank : RespState → ℕ
  | .head => 0
  | .stream _ | .pass _ => 1
  | .buffer _ => 2

private def responseMeasure : RespLoop → ℕ
  | .running rw => 4 * rw.respBuf.length + respRank rw.resp + 1
  | .returned _ => 0
  | .panicked _ => 0

/-- All that reading a head can do. -/
inductive HeadStep (rw : Rewriter) : RespIter → Prop
  | wait (he : findHeaderEnd rw.respBuf = none) (hle : rw.respBuf.length ≤ maxHeaderBytes) :
      HeadStep rw { rw, go := false }
  | oversized (he : findHeaderEnd rw.respBuf = none) (hlt : maxHeaderBytes < rw.respBuf.length) :
      HeadStep rw (rw.disableFlushResp [])
  | unparsed {hend : ℕ} (he : findHeaderEnd rw.respBuf = some hend)
      (hh : responseHead (rw.respBuf.take (hend - 4)) = none) :
      HeadStep rw (rw.disableFlushResp [])
  | interim {hend status : ℕ} {headers : Headers} (he : findHeaderEnd rw.respBuf = some hend)
      (hh : responseHead (rw.respBuf.take (hend - 4)) = some (status, headers))
      (hs : 100 ≤ status ∧ status ≤ 199 ∧ status ≠ 101) :
      HeadStep rw
        { emits := [.head (rw.respBuf.take hend) (rw.respBuf.take hend)]
          rw := { rw with respBuf := rw.respBuf.drop hend }, go := true }
  | switch {hend : ℕ} {headers : Headers} (he : findHeaderEnd rw.respBuf = some hend)
      (hh : responseHead (rw.respBuf.take (hend - 4)) = some (101, headers)) :
      HeadStep rw
        { emits := [.head (rw.respBuf.take hend) (rw.respBuf.take hend),
            .body (rw.respBuf.drop hend) [] []]
          rw := { rw with pendingHead := rw.pendingHead.tail, disabled := true, respBuf := [] }
          go := false }
  | bodiless {hend status : ℕ} {headers : Headers} (he : findHeaderEnd rw.respBuf = some hend)
      (hh : responseHead (rw.respBuf.take (hend - 4)) = some (status, headers))
      (hf : responseFraming status (rw.pendingHead.headD false) headers = none) :
      HeadStep rw
        { emits := [.head (rw.respBuf.take hend) (rw.respBuf.take hend)]
          rw := { rw with pendingHead := rw.pendingHead.tail, respBuf := rw.respBuf.drop hend }
          go := true }
  | inject {hend status : ℕ} {headers : Headers} {framing : Framing}
      (he : findHeaderEnd rw.respBuf = some hend)
      (hh : responseHead (rw.respBuf.take (hend - 4)) = some (status, headers))
      (hf : responseFraming status (rw.pendingHead.headD false) headers = some framing)
      (hi : injectable status headers) :
      HeadStep rw
        { rw := { rw with
            pendingHead := rw.pendingHead.tail, respBuf := rw.respBuf.drop hend
            resp := .buffer { origHead := rw.respBuf.take hend, body := framingToKind framing,
                              clOriginal := contentLength headers } }
          go := true }
  | pass {hend status : ℕ} {headers : Headers} {framing : Framing}
      (he : findHeaderEnd rw.respBuf = some hend)
      (hh : responseHead (rw.respBuf.take (hend - 4)) = some (status, headers))
      (hf : responseFraming status (rw.pendingHead.headD false) headers = some framing)
      (hi : injectable status headers = false) :
      HeadStep rw
        { emits := [.head (rw.respBuf.take hend) (rw.respBuf.take hend)]
          rw := { rw with
            pendingHead := rw.pendingHead.tail, respBuf := rw.respBuf.drop hend
            resp := .pass (framingToKind framing) }
          go := true }

theorem stepResponseHead_cases (rw : Rewriter) : HeadStep rw rw.stepResponseHead := by
  unfold stepResponseHead
  cases he : findHeaderEnd rw.respBuf with
  | none =>
    simp only
    split_ifs with hlt
    · exact .oversized he hlt
    · exact .wait he (Nat.not_lt.mp hlt)
  | some hend =>
    cases hh : responseHead (rw.respBuf.take (hend - 4)) with
    | none => simpa only [hh] using .unparsed he hh
    | some r =>
      obtain ⟨status, headers⟩ := r
      simp only [hh]
      by_cases hs : 100 ≤ status ∧ status ≤ 199 ∧ status ≠ 101
      · rw [if_pos hs]
        exact .interim he hh hs
      · rw [if_neg hs]
        by_cases h101 : status = 101
        · subst h101
          exact .switch he hh
        · rw [if_neg h101]
          cases hf : responseFraming status (rw.pendingHead.headD false) headers with
          | none => exact .bodiless he hh hf
          | some framing =>
            cases hi : injectable status headers with
            | true => exact .inject he hh hf hi
            | false => exact .pass he hh hf hi

/-- All that buffering a body prefix can do with what was pulled, short of a panic. -/
inductive BufferStep (p : Profile) (rw : Rewriter) (bs : BodyScan) (pulled : Pulled) :
    RespIter → Prop
  | malformed (he : pulled.step = .error) :
      BufferStep p rw bs pulled
        { emits := [.head bs.origHead bs.origHead, .chunk (bs.scan ++ pulled.bytes) [] [],
            .lastChunk]
          rw := { rw with respBuf := pulled.rest, disabled := true }
          go := false }
  | wait (he : pulled.step ≠ .error)
      (hd : decideAnchor (bs.scan ++ pulled.bytes) (bs.bodyDone || pulled.step == .done) = none) :
      BufferStep p rw bs pulled
        { rw := { rw with
            respBuf := pulled.rest
            resp := .buffer { bs with
              scan := bs.scan ++ pulled.bytes
              body := pulled.body
              bodyDone := bs.bodyDone || pulled.step == .done } }
          go := false }
  | inject {a : ℕ} {newCl : Option ℕ} (he : pulled.step ≠ .error)
      (hd : decideAnchor (bs.scan ++ pulled.bytes) (bs.bodyDone || pulled.step == .done) =
        some (some a))
      (hcl : (bs.clOriginal = none ∧ newCl = none) ∨
        ∃ cl n, bs.clOriginal = some cl ∧ usizeAdd p cl rw.blob.length = .ok n ∧ newCl = some n) :
      BufferStep p rw bs pulled
        { emits := .head bs.origHead (editResponseHead bs.origHead newCl) ::
            bodyEmit pulled.body ((bs.scan ++ pulled.bytes).take a) rw.blob
              ((bs.scan ++ pulled.bytes).drop a) ::
            (afterScan pulled.body (bs.bodyDone || pulled.step == .done)).1
          rw := { rw with
            respBuf := pulled.rest
            resp := (afterScan pulled.body (bs.bodyDone || pulled.step == .done)).2 }
          go := true }
  | abandon (he : pulled.step ≠ .error)
      (hd : decideAnchor (bs.scan ++ pulled.bytes) (bs.bodyDone || pulled.step == .done) =
        some none) :
      BufferStep p rw bs pulled
        { emits := .head bs.origHead bs.origHead ::
            bodyEmit pulled.body (bs.scan ++ pulled.bytes) [] [] ::
            (afterScan pulled.body (bs.bodyDone || pulled.step == .done)).1
          rw := { rw with
            respBuf := pulled.rest
            resp := (afterScan pulled.body (bs.bodyDone || pulled.step == .done)).2 }
          go := true }

theorem stepResponseBuffer_cases {p : Profile} {rw : Rewriter} {bs : BodyScan} {it : RespIter}
    (h : rw.stepResponseBuffer p bs = .ok it) :
    BufferStep p rw bs (pullBody bs.body rw.respBuf) it := by
  unfold stepResponseBuffer at h
  dsimp only at h
  split_ifs at h with he
  · obtain rfl := Except.ok.inj h
    exact .malformed he
  · split at h
    · next hd =>
      obtain rfl := Except.ok.inj h
      exact .wait he hd
    · next a hd =>
      cases hcl : bs.clOriginal with
      | none =>
        simp only [hcl, Except.ok_bind] at h
        obtain rfl := Except.ok.inj h
        exact .inject he hd (Or.inl ⟨hcl, rfl⟩)
      | some cl =>
        cases hadd : usizeAdd p cl rw.blob.length with
        | error e => simp [hcl, hadd, Except.map] at h
        | ok n =>
          simp only [hcl, hadd, Except.map, Except.ok_bind] at h
          obtain rfl := Except.ok.inj h
          exact .inject he hd (Or.inr ⟨cl, n, hcl, hadd, rfl⟩)
    · next hd =>
      obtain rfl := Except.ok.inj h
      exact .abandon he hd

theorem Step.eq_needMore {s : Step} (he : s ≠ .error) (hd : s ≠ .done) : s = .needMore := by
  cases s <;> simp_all

private theorem stepResponseHead_go {rw : Rewriter} (hr : rw.resp = .head)
    (h : rw.stepResponseHead.go = true) :
    4 * rw.stepResponseHead.rw.respBuf.length + respRank rw.stepResponseHead.rw.resp <
      4 * rw.respBuf.length := by
  generalize hit : rw.stepResponseHead = it at h ⊢
  have hc := hit ▸ rw.stepResponseHead_cases
  cases hc with
  | wait | oversized | unparsed | switch => simp [disableFlushResp] at h
  | interim he | bodiless he | inject he | pass he =>
    have hle := findHeaderEnd_le he
    simp [respRank, hr]
    omega

private theorem stepResponse_go {p : Profile} {rw : Rewriter} {it : RespIter}
    (h : rw.stepResponse p = .ok it) (hgo : it.go = true) :
    4 * it.rw.respBuf.length + respRank it.rw.resp <
      4 * rw.respBuf.length + respRank rw.resp := by
  unfold stepResponse at h
  cases hr : rw.resp with
  | head =>
    simp only [hr] at h
    obtain rfl := Except.ok.inj h
    have := @stepResponseHead_go { rw with resp := .head } rfl hgo
    simpa [respRank] using this
  | buffer bs =>
    simp only [hr] at h
    have hle := pullBody_rest_le bs.body rw.respBuf
    have h2 : respRank (.buffer bs) = 2 := rfl
    rw [h2]
    have hrank : ∀ kind bodyDone, respRank (afterScan kind bodyDone).2 ≤ 1 := by
      intro kind bodyDone
      unfold afterScan
      split <;> (try split_ifs) <;> simp [respRank]
    cases stepResponseBuffer_cases h with
    | malformed | wait => simp at hgo
    | inject | abandon =>
      have := hrank (pullBody bs.body rw.respBuf).body
        (bs.bodyDone || (pullBody bs.body rw.respBuf).step == .done)
      dsimp only at hle this ⊢
      omega
  | stream kind =>
    simp only [hr] at h
    obtain rfl := Except.ok.inj h
    have hle := pullBody_rest_le kind rw.respBuf
    unfold stepResponseStream at hgo ⊢
    cases hs : (pullBody kind rw.respBuf).step with
    | done =>
      simp only [hs, respRank]
      omega
    | needMore => simp [hs] at hgo
    | error => simp [hs] at hgo
  | pass kind =>
    simp only [hr] at h
    obtain rfl := Except.ok.inj h
    have hle := pullBody_rest_le kind rw.respBuf
    unfold stepResponsePass at hgo ⊢
    cases hs : (pullBody kind rw.respBuf).step with
    | done =>
      simp only [hs, respRank]
      omega
    | needMore => simp [hs] at hgo
    | error => simp [hs, disableFlushResp] at hgo

private theorem responseLoop_decreases {p : Profile} {l l' : RespLoop} {o : List RespEmit}
    (h : responseLoop p l = some (o, l')) : responseMeasure l' < responseMeasure l := by
  cases l with
  | returned => simp [responseLoop] at h
  | panicked => simp [responseLoop] at h
  | running rw =>
    simp only [responseLoop] at h
    split at h
    · next it hit =>
      obtain ⟨-, rfl⟩ := by simpa using h
      split_ifs with hgo
      · have := stepResponse_go hit hgo
        simp only [responseMeasure]
        omega
      · simp [responseMeasure]
    · obtain ⟨-, rfl⟩ := by simpa using h
      simp [responseMeasure]

def responseMachine (p : Profile) : Machine RespLoop RespEmit where
  step := responseLoop p
  measure := responseMeasure
  decreases := responseLoop_decreases

def driveResponse (p : Profile) (rw : Rewriter) : Except Panic (List RespEmit × Rewriter) :=
  let r := (responseMachine p).run (.running rw)
  match r.2 with
  | .running rw | .returned rw => .ok (r.1, rw)
  | .panicked e => .error e

/-- Feed upstream to app plaintext; returns what is written to the app. -/
def feedResponse (p : Profile) (rw : Rewriter) (data : Bytes) :
    Except Panic (List RespEmit × Rewriter) :=
  if ¬ rw.active ∨ rw.disabled then
    .ok ([.body (rw.respBuf ++ data) [] []], { rw with respBuf := [] })
  else driveResponse p { rw with respBuf := rw.respBuf ++ data }

end Rewriter

end Adwarden.Tls
