import Adwarden.Lib.Transducer
import Adwarden.Rust.Str
import Mathlib.Data.List.AList

/-! The server half of HTTP/2 that the DoH filter needs: framing and stream bookkeeping. -/
namespace Adwarden.Tls
open Adwarden.Lib

/-- The client connection preface that opens every HTTP/2 connection. -/
def preface : Bytes := ascii "PRI * HTTP/2.0\r\n\r\nSM\r\n\r\n"

def maxFrame : ℕ := 16384

/-- Refuse to buffer an unreasonably large header block or body. -/
def maxStreamBytes : ℕ := 64 * 1024

def tData : UInt8 := 0x0
def tHeaders : UInt8 := 0x1
def tRstStream : UInt8 := 0x3
def tSettings : UInt8 := 0x4
def tPing : UInt8 := 0x6
def tGoaway : UInt8 := 0x7
def tWindowUpdate : UInt8 := 0x8
def tContinuation : UInt8 := 0x9

def fAck : UInt8 := 0x1
def fEndStream : UInt8 := 0x1
def fEndHeaders : UInt8 := 0x4
def fPadded : UInt8 := 0x8
def fPriority : UInt8 := 0x20

/-- The HPACK library: a decoder and an encoder, each a state machine over header blocks. A
failed `decode` returns no headers. -/
structure Hpack where
  Decoder : Type
  Encoder : Type
  newDecoder : Decoder
  newEncoder : Encoder
  decode : Decoder → Bytes → Decoder × Option (List (Bytes × Bytes))
  encode : Encoder → List (Bytes × Bytes) → Encoder × Bytes

/-- A length-prefixed string without Huffman coding, shorter than 127 bytes. -/
def literalString : Bytes → Option (Bytes × Bytes)
  | n :: rest =>
    if n < 127 ∧ n.toNat ≤ rest.length then some (rest.take n.toNat, rest.drop n.toNat) else none
  | [] => none

/-- Header blocks of a few static-table fields and of literals without indexing. -/
def literalFields : (fuel : ℕ) → Bytes → Option (List (Bytes × Bytes))
  | _, [] => some []
  | 0, _ => none
  | fuel + 1, b :: rest => do
    if b = 0x82 then some ((ascii ":method", ascii "GET") :: (← literalFields fuel rest))
    else if b = 0x83 then some ((ascii ":method", ascii "POST") :: (← literalFields fuel rest))
    else if b = 0x84 then some ((ascii ":path", ascii "/") :: (← literalFields fuel rest))
    else if b = 0x01 then
      let (v, rest) ← literalString rest
      some ((ascii ":authority", v) :: (← literalFields fuel rest))
    else if b = 0x04 then
      let (v, rest) ← literalString rest
      some ((ascii ":path", v) :: (← literalFields fuel rest))
    else if b = 0x00 then
      let (k, rest) ← literalString rest
      let (v, rest) ← literalString rest
      some ((k, v) :: (← literalFields fuel rest))
    else none

/-- HPACK without its dynamic table: the blocks `literalFields` reads are decoded as any HPACK
decoder decodes them, and blocks are encoded with literal fields only. -/
def literalHpack : Hpack where
  Decoder := Unit
  Encoder := Unit
  newDecoder := ()
  newEncoder := ()
  decode _ block := ((), literalFields block.length block)
  encode _ fields := ((), fields.flatMap fun kv =>
    0 :: UInt8.ofNat kv.1.length :: kv.1 ++ UInt8.ofNat kv.2.length :: kv.2)

/-- A completed request stream, ready to filter. -/
structure H2Request where
  streamId : UInt32
  method : Str
  path : Str
  authority : Str
  contentType : Str
  body : Bytes
deriving DecidableEq

structure Stream where
  method : Str := []
  path : Str := []
  authority : Str := []
  contentType : Str := []
  body : Bytes := []
  headerBlock : Bytes := []
  headersDone : Bool := false
  endStream : Bool := false
  /-- Surfaced as a request already. -/
  dispatched : Bool := false
deriving DecidableEq

structure H2Server (H : Hpack) where
  inbuf : Bytes := []
  prefaceSeen : Bool := false
  settingsSent : Bool := false
  dec : H.Decoder := H.newDecoder
  enc : H.Encoder := H.newEncoder
  streams : AList (fun _ : UInt32 => Stream) := ∅
  /-- The stream between its HEADERS and its END_HEADERS. -/
  continuation : Option UInt32 := none
  out : Bytes := []
  ready : List H2Request := []
  failed : Bool := false

/-- One serialized frame. -/
def frameBytes (ty flags : UInt8) (streamId : UInt32) (payload : Bytes) : Bytes :=
  let len := payload.length
  let id := streamId &&& 0x7fffffff
  [UInt8.ofNat (len / 65536), UInt8.ofNat (len / 256), UInt8.ofNat len, ty, flags,
    (id >>> 24).toUInt8, (id >>> 16).toUInt8, (id >>> 8).toUInt8, id.toUInt8] ++ payload

/-- The DATA frames of a response body, in chunks of at most `maxFrame`. -/
def dataFrames (streamId : UInt32) : (fuel : ℕ) → Bytes → Bytes
  | 0, _ => []
  | fuel + 1, body =>
    if body = [] then []
    else
      let rest := body.drop maxFrame
      frameBytes tData (if rest = [] then fEndStream else 0) streamId (body.take maxFrame) ++
        dataFrames streamId fuel rest

namespace H2Server

variable {H : Hpack}

def writeFrame (s : H2Server H) (ty flags : UInt8) (streamId : UInt32) (payload : Bytes) :
    H2Server H :=
  { s with out := s.out ++ frameBytes ty flags streamId payload }

/-- Queue a full response (HEADERS and DATA, END_STREAM) for `streamId`. -/
def respond (s : H2Server H) (streamId : UInt32) (status : ℕ) (contentType : Str) (body : Bytes) :
    H2Server H :=
  let headers := [(ascii ":status", Str.toBytes (Str.ofNat status)),
    (ascii "content-type", Str.toBytes contentType),
    (ascii "content-length", Str.toBytes (Str.ofNat body.length))]
  let (enc, block) := H.encode s.enc headers
  let flags := if body = [] then fEndHeaders ||| fEndStream else fEndHeaders
  let s := { s with enc }.writeFrame tHeaders flags streamId block
  { s with
    out := s.out ++ dataFrames streamId body.length body
    streams := s.streams.erase streamId }

/-- Surface a stream once, when it has its headers and its end. -/
def maybeDispatch (s : H2Server H) (streamId : UInt32) : H2Server H :=
  match s.streams.lookup streamId with
  | none => s
  | some stream =>
    if stream.headersDone ∧ stream.endStream ∧ ¬ stream.dispatched then
      { s with
        streams := s.streams.insert streamId { stream with dispatched := true, body := [] }
        ready := s.ready ++ [{
          streamId
          method := stream.method
          path := stream.path
          authority := stream.authority
          contentType := stream.contentType
          body := stream.body }] }
    else s

def recordHeader (stream : Stream) (kv : Bytes × Bytes) : Stream :=
  let v := Str.fromUtf8Lossy kv.2
  if kv.1 = ascii ":method" then { stream with method := v }
  else if kv.1 = ascii ":path" then { stream with path := v }
  else if kv.1 = ascii ":authority" then { stream with authority := v }
  else if kv.1 = ascii "content-type" then { stream with contentType := v }
  else stream

/-- Decode a completed header block and record the request pseudo-headers. -/
def finishHeaders (s : H2Server H) (streamId : UInt32) : H2Server H :=
  match s.streams.lookup streamId with
  | none => s
  | some stream =>
    let block := stream.headerBlock
    let stream := { stream with headerBlock := [] }
    let s := { s with streams := s.streams.insert streamId stream }
    match H.decode s.dec block with
    | (dec, none) => { s with dec, failed := true }
    | (dec, some headers) =>
      let stream := headers.foldl recordHeader { stream with headersDone := true }
      { s with dec, streams := s.streams.insert streamId stream }.maybeDispatch streamId

def onSettings (s : H2Server H) (flags : UInt8) : H2Server H :=
  if flags &&& fAck = 0 then s.writeFrame tSettings fAck 0 [] else s

def onPing (s : H2Server H) (flags : UInt8) (payload : Bytes) : H2Server H :=
  if flags &&& fAck = 0 ∧ payload.length = 8 then s.writeFrame tPing fAck 0 payload else s

/-- Strip the pad length (PADDED): the padding to cut and what follows. -/
def padding (flags : UInt8) (payload : Bytes) : Option (ℕ × Bytes) :=
  if flags &&& fPadded ≠ 0 then
    match payload with
    | [] => none
    | pad :: p => some (pad.toNat, p)
  else some (0, payload)

/-- The header block fragment of a HEADERS payload. -/
def headersFragment (flags : UInt8) (payload : Bytes) : Option Bytes := do
  let (pad, p) ← padding flags payload
  let p ← if flags &&& fPriority ≠ 0 then
      if p.length < 5 then none else some (p.drop 5)
    else some p
  if p.length < pad then none else some (p.take (p.length - pad))

def onHeaders (s : H2Server H) (flags : UInt8) (streamId : UInt32) (payload : Bytes) :
    H2Server H :=
  if streamId = 0 then { s with failed := true }
  else match headersFragment flags payload with
    | none => { s with failed := true }
    | some fragment =>
      let stream := (s.streams.lookup streamId).getD {}
      if maxStreamBytes < stream.headerBlock.length + fragment.length then
        { s with streams := s.streams.insert streamId stream, failed := true }
      else
        let stream := { stream with
          headerBlock := stream.headerBlock ++ fragment
          endStream := flags &&& fEndStream ≠ 0 }
        let s := { s with streams := s.streams.insert streamId stream }
        if flags &&& fEndHeaders ≠ 0 then s.finishHeaders streamId
        else { s with continuation := some streamId }

def onContinuation (s : H2Server H) (flags : UInt8) (streamId : UInt32) (payload : Bytes) :
    H2Server H :=
  match s.streams.lookup streamId with
  | none => { s with failed := true }
  | some stream =>
    if maxStreamBytes < stream.headerBlock.length + payload.length then { s with failed := true }
    else
      let stream := { stream with headerBlock := stream.headerBlock ++ payload }
      let s := { s with streams := s.streams.insert streamId stream }
      if flags &&& fEndHeaders ≠ 0 then { s with continuation := none }.finishHeaders streamId
      else s

def onData (s : H2Server H) (flags : UInt8) (streamId : UInt32) (payload : Bytes) : H2Server H :=
  match padding flags payload with
  | none => { s with failed := true }
  | some (pad, p) =>
    if p.length < pad then { s with failed := true }
    else
      let p := p.take (p.length - pad)
      match s.streams.lookup streamId with
      | none => s
      | some stream =>
        if maxStreamBytes < stream.body.length + p.length then { s with failed := true }
        else
          let stream := { stream with
            body := stream.body ++ p
            endStream := flags &&& fEndStream ≠ 0 || stream.endStream }
          { s with streams := s.streams.insert streamId stream }.maybeDispatch streamId

def onFrame (s : H2Server H) (ty flags : UInt8) (streamId : UInt32) (payload : Bytes) :
    H2Server H :=
  if s.continuation.any fun o => ty ≠ tContinuation ∨ streamId ≠ o then { s with failed := true }
  else if ty = tSettings then s.onSettings flags
  else if ty = tPing then s.onPing flags payload
  else if ty = tHeaders then s.onHeaders flags streamId payload
  else if ty = tContinuation then s.onContinuation flags streamId payload
  else if ty = tData then s.onData flags streamId payload
  else if ty = tRstStream then { s with streams := s.streams.erase streamId }
  else if ty = tGoaway then { s with failed := true }
  else s

/-- One iteration of the loop in `parse_frames`. -/
def frameStep (s : H2Server H) : Option (List Empty × H2Server H) :=
  if s.failed then none
  else match s.inbuf with
    | l2 :: l1 :: l0 :: ty :: flags :: i3 :: i2 :: i1 :: i0 :: rest =>
      let len := l2.toNat * 65536 + l1.toNat * 256 + l0.toNat
      let streamId := (i3.toUInt32 <<< 24 ||| i2.toUInt32 <<< 16 ||| i1.toUInt32 <<< 8 |||
        i0.toUInt32) &&& 0x7fffffff
      if maxStreamBytes < len then some ([], { s with failed := true })
      else if rest.length < len then none
      else some ([], { s with inbuf := rest.drop len }.onFrame ty flags streamId (rest.take len))
    | _ => none

@[simp] theorem writeFrame_inbuf (s : H2Server H) (ty flags : UInt8) (id : UInt32) (p : Bytes) :
    (s.writeFrame ty flags id p).inbuf = s.inbuf := rfl

@[simp] theorem maybeDispatch_inbuf (s : H2Server H) (id : UInt32) :
    (s.maybeDispatch id).inbuf = s.inbuf := by
  unfold maybeDispatch
  split
  · rfl
  · split_ifs <;> rfl

@[simp] theorem finishHeaders_inbuf (s : H2Server H) (id : UInt32) :
    (s.finishHeaders id).inbuf = s.inbuf := by
  unfold finishHeaders
  split
  · rfl
  · dsimp only
    split <;> simp

@[simp] theorem onHeaders_inbuf (s : H2Server H) (flags : UInt8) (id : UInt32) (p : Bytes) :
    (s.onHeaders flags id p).inbuf = s.inbuf := by
  unfold onHeaders
  by_cases h0 : id = 0
  · simp [h0]
  · cases headersFragment flags p with
    | none => simp [h0]
    | some fragment =>
      simp only [h0, if_false]
      split_ifs <;> simp

@[simp] theorem onContinuation_inbuf (s : H2Server H) (flags : UInt8) (id : UInt32) (p : Bytes) :
    (s.onContinuation flags id p).inbuf = s.inbuf := by
  unfold onContinuation
  cases s.streams.lookup id with
  | none => rfl
  | some stream =>
    dsimp only
    split_ifs <;> simp

@[simp] theorem onData_inbuf (s : H2Server H) (flags : UInt8) (id : UInt32) (p : Bytes) :
    (s.onData flags id p).inbuf = s.inbuf := by
  unfold onData
  split
  · rfl
  · split_ifs
    · rfl
    · dsimp only
      split
      · rfl
      · split_ifs <;> simp

theorem onFrame_inbuf (s : H2Server H) (ty flags : UInt8) (id : UInt32) (p : Bytes) :
    (s.onFrame ty flags id p).inbuf = s.inbuf := by
  unfold onFrame onSettings onPing
  split_ifs <;> simp

private def frameMeasure (s : H2Server H) : ℕ := if s.failed then 0 else s.inbuf.length + 1

private theorem frameStep_decreases {s s' : H2Server H} {o : List Empty}
    (h : s.frameStep = some (o, s')) : frameMeasure s' < frameMeasure s := by
  unfold frameStep at h
  split_ifs at h with hf
  split at h
  · next rest hb =>
    dsimp only at h
    split_ifs at h <;> obtain ⟨-, rfl⟩ := by simpa using h
    · simp [frameMeasure, hf]
    · have hle : ∀ t : H2Server H, frameMeasure t ≤ t.inbuf.length + 1 := by
        intro t
        unfold frameMeasure
        split_ifs <;> omega
      refine lt_of_le_of_lt (hle _) ?_
      simp only [onFrame_inbuf, frameMeasure, hf, hb, List.length_drop, List.length_cons]
      simp only [Bool.false_eq_true, if_false]
      omega
  · simp at h

def frameFeeder (H : Hpack) : Feeder (H2Server H) Empty UInt8 where
  step := frameStep
  measure := frameMeasure
  decreases := frameStep_decreases
  ext s d := { s with inbuf := s.inbuf ++ d }
  ext_nil s := by simp
  ext_append s a b := by simp

/-- `on_input` once the server preface has been written. -/
def onBytes (s : H2Server H) (data : Bytes) : H2Server H :=
  let s := { s with inbuf := s.inbuf ++ data }
  if s.prefaceSeen then ((frameFeeder H).run s).2
  else if s.inbuf.length < preface.length then s
  else if s.inbuf.take preface.length ≠ preface then { s with failed := true }
  else ((frameFeeder H).run
    { s with inbuf := s.inbuf.drop preface.length, prefaceSeen := true }).2

/-- Feed decrypted bytes received from the app. -/
def onInput (s : H2Server H) (data : Bytes) : H2Server H :=
  if s.failed then s
  else if s.settingsSent then s.onBytes data
  else
    let s := s.writeFrame tSettings 0 0 []
    let s := s.writeFrame tWindowUpdate 0 0 [0x7f, 0xff, 0, 0]
    { s with settingsSent := true }.onBytes data

def takeOut (s : H2Server H) : Bytes × H2Server H := (s.out, { s with out := [] })

def takeRequests (s : H2Server H) : List H2Request × H2Server H :=
  (s.ready, { s with ready := [] })

end H2Server

end Adwarden.Tls
