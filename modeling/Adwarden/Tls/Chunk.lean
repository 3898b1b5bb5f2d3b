import Adwarden.Lib.Transducer
import Adwarden.Tls.Head

/-! The incremental `Transfer-Encoding: chunked` decoder and message framing. -/
namespace Adwarden.Tls
open Adwarden.Lib

/-- Max header block, chunk-size line or trailer line buffered by the parsers. -/
def maxHeaderBytes : ℕ := 64 * 1024

/-- Max body bytes stored per message; the rest is counted but discarded. -/
def maxBodyCapture : ℕ := 512 * 1024

inductive Step where
  | needMore
  | done
  | error
deriving DecidableEq

/-- A size-capped copy of a body: `captured`, `wire_len` and `truncated`. -/
structure Capture where
  captured : Bytes := []
  wireLen : ℕ := 0
  truncated : Bool := false
deriving DecidableEq

def pushCapped (c : Capture) (data : Bytes) : Capture :=
  let room := maxBodyCapture - c.captured.length
  if data.length ≤ room then
    { c with captured := c.captured ++ data, wireLen := c.wireLen + data.length }
  else
    { captured := c.captured ++ data.take room
      wireLen := c.wireLen + data.length
      truncated := true }

inductive ChunkState where
  /-- Reading the hex size line. -/
  | size (line : Bytes)
  /-- Reading the remaining data bytes of the current chunk. -/
  | data (remaining : ℕ)
  /-- Consuming the line end that terminates a chunk's data. -/
  | dataCrlf
  /-- After the zero chunk: consuming trailer lines to the blank line. -/
  | trailer (line : Bytes)
deriving DecidableEq

structure ChunkReader where
  state : ChunkState := .size []
deriving DecidableEq

def trimCrlf (line : Bytes) : Bytes :=
  (line.reverse.dropWhile fun b => b == LF || b == CR).reverse

def parseHex (bytes : Bytes) : Option ℕ := do
  let text := Str.trim (← Str.fromUtf8 bytes)
  if text = [] then none else Str.fromStrRadix usizeBits 16 text

/-- The size declared by a chunk-size line, which may carry `;ext` extensions. -/
def chunkSize (line : Bytes) : Option ℕ := parseHex ((splitOn 59 (trimCrlf line)).headD [])

/-- What a reader of lines makes of its buffer: nothing there, a stretch of line longer than
`cap`, a stretch to stash until the line end arrives, or a whole line and what follows it. -/
inductive LineRead where
  | wait
  | tooLong
  | stash (line : Bytes)
  | line (line rest : Bytes)

/-- `cap` is the longest stretch without a line end that one call accepts. -/
def readLine (cap : Option ℕ) (line buf : Bytes) : LineRead :=
  match position LF buf with
  | some pos => .line (line ++ buf.take (pos + 1)) (buf.drop (pos + 1))
  | none =>
    if buf = [] then .wait
    else if cap.any (· < buf.length) then .tooLong
    else .stash (line ++ buf)

/-- The state of the loop in `ChunkReader::consume`. `status` is `needMore` while it runs. -/
structure ChunkLoop where
  state : ChunkState
  buf : Bytes
  status : Step := .needMore
deriving DecidableEq

/-- One iteration of the loop. It emits the decoded data bytes. -/
def chunkStep (cap : Option ℕ) : ChunkLoop → Option (Bytes × ChunkLoop)
  | ⟨.size line, buf, .needMore⟩ =>
    match readLine cap line buf with
    | .wait => none
    | .tooLong => some ([], ⟨.size line, buf, .error⟩)
    | .stash line => some ([], ⟨.size line, [], .needMore⟩)
    | .line line rest =>
      match chunkSize line with
      | none => some ([], ⟨.size line, rest, .error⟩)
      | some 0 => some ([], ⟨.trailer [], rest, .needMore⟩)
      | some (n + 1) => some ([], ⟨.data (n + 1), rest, .needMore⟩)
  | ⟨.data 0, buf, .needMore⟩ => some ([], ⟨.dataCrlf, buf, .needMore⟩)
  | ⟨.data (_ + 1), [], .needMore⟩ => none
  | ⟨.data (n + 1), b :: buf, .needMore⟩ =>
    some ((b :: buf).take (n + 1),
      ⟨.data (n - buf.length), (b :: buf).drop (n + 1), .needMore⟩)
  | ⟨.dataCrlf, [], .needMore⟩ => none
  | ⟨.dataCrlf, b :: buf, .needMore⟩ =>
    -- A CR is consumed together with the byte after it, whatever that byte is.
    if b = CR then
      match buf with
      | [] => none
      | _ :: buf => some ([], ⟨.size [], buf, .needMore⟩)
    else some ([], ⟨.size [], buf, .needMore⟩)
  | ⟨.trailer line, buf, .needMore⟩ =>
    match readLine cap line buf with
    | .wait => none
    | .tooLong => some ([], ⟨.trailer line, buf, .error⟩)
    | .stash line => some ([], ⟨.trailer line, [], .needMore⟩)
    | .line line rest =>
      if trimCrlf line = [] then some ([], ⟨.trailer [], rest, .done⟩)
      else some ([], ⟨.trailer [], rest, .needMore⟩)
  | ⟨_, _, .done⟩ => none
  | ⟨_, _, .error⟩ => none

theorem chunkStep_stopped {cap : Option ℕ} {l : ChunkLoop} (h : l.status ≠ .needMore) :
    chunkStep cap l = none := by
  unfold chunkStep
  split <;> simp_all

theorem readLine_line {cap : Option ℕ} {line buf l rest : Bytes}
    (h : readLine cap line buf = .line l rest) : rest.length < buf.length := by
  unfold readLine at h
  split at h
  · next pos hpos =>
    have := position_lt hpos
    simp only [LineRead.line.injEq] at h
    rw [← h.2, List.length_drop]
    omega
  · split_ifs at h

theorem readLine_stash {cap : Option ℕ} {line buf l : Bytes}
    (h : readLine cap line buf = .stash l) : 0 < buf.length ∧ l = line ++ buf := by
  unfold readLine at h
  split at h
  · simp at h
  · split_ifs at h with hb
    simp only [LineRead.stash.injEq] at h
    exact ⟨List.length_pos_iff.mpr hb, h.symm⟩

theorem readLine_wait {cap : Option ℕ} {line buf : Bytes} (h : readLine cap line buf = .wait) :
    buf = [] := by
  unfold readLine at h
  split at h
  · simp at h
  · by_contra hb
    rw [if_neg hb] at h
    split_ifs at h

def chunkMeasure : ChunkLoop → ℕ
  | ⟨.data _, buf, _⟩ => 2 * buf.length + 2
  | ⟨_, buf, .needMore⟩ => 2 * buf.length + 1
  | ⟨_, buf, _⟩ => 2 * buf.length

private theorem chunkStep_decreases {cap : Option ℕ} {s s' : ChunkLoop} {o : Bytes}
    (h : chunkStep cap s = some (o, s')) : chunkMeasure s' < chunkMeasure s := by
  unfold chunkStep at h
  split at h
  · split at h
    · simp at h
    · obtain ⟨-, rfl⟩ := by simpa using h
      simp [chunkMeasure]
    · next hr =>
      obtain ⟨-, rfl⟩ := by simpa using h
      have := (readLine_stash hr).1
      simp [chunkMeasure]
      omega
    · next hr =>
      have := readLine_line hr
      split at h <;> obtain ⟨-, rfl⟩ := by simpa using h
      all_goals simp only [chunkMeasure]; omega
  · obtain ⟨-, rfl⟩ := by simpa using h
    simp [chunkMeasure]
  · simp at h
  · obtain ⟨-, rfl⟩ := by simpa using h
    simp only [chunkMeasure, List.length_drop, List.length_cons]
    omega
  · simp at h
  · split_ifs at h
    · split at h
      · simp at h
      · obtain ⟨-, rfl⟩ := by simpa using h
        simp only [chunkMeasure, List.length_cons]
        omega
    · obtain ⟨-, rfl⟩ := by simpa using h
      simp only [chunkMeasure, List.length_cons]
      omega
  · split at h
    · simp at h
    · obtain ⟨-, rfl⟩ := by simpa using h
      simp [chunkMeasure]
    · next hr =>
      obtain ⟨-, rfl⟩ := by simpa using h
      have := (readLine_stash hr).1
      simp [chunkMeasure]
      omega
    · next hr =>
      have := readLine_line hr
      split_ifs at h <;> obtain ⟨-, rfl⟩ := by simpa using h
      all_goals simp only [chunkMeasure]; omega
  · simp at h
  · simp at h

/-- The decoder only takes bytes off its buffer. -/
theorem chunkStep_buf_le {cap : Option ℕ} {s s' : ChunkLoop} {o : Bytes}
    (h : chunkStep cap s = some (o, s')) : s'.buf.length ≤ s.buf.length := by
  have hd := chunkStep_decreases h
  obtain ⟨st, buf, status⟩ := s
  obtain ⟨st', buf', status'⟩ := s'
  cases st <;> cases st' <;> cases status <;> cases status' <;> simp_all [chunkMeasure] <;> omega

def chunkFeeder (cap : Option ℕ) : Feeder ChunkLoop UInt8 UInt8 where
  step := chunkStep cap
  measure := chunkMeasure
  decreases := chunkStep_decreases
  ext s d := { s with buf := s.buf ++ d }
  ext_nil s := by simp
  ext_append s a b := by simp

/-- The result of `ChunkReader::consume` on a buffer: the step, the reader and the buffer it
leaves, and the data bytes it passed on. -/
structure Consumed where
  step : Step
  reader : ChunkReader
  rest : Bytes
  decoded : Bytes

def ChunkReader.consumeWithin (cap : Option ℕ) (r : ChunkReader) (buf : Bytes) : Consumed :=
  let out := (chunkFeeder cap).run { state := r.state, buf }
  { step := out.2.status, reader := ⟨out.2.state⟩, rest := out.2.buf, decoded := out.1 }

def ChunkReader.consume (r : ChunkReader) (buf : Bytes) : Consumed :=
  r.consumeWithin (some maxHeaderBytes) buf

/-- How a message body is delimited on the wire. -/
inductive Framing where
  | length (remaining : ℕ)
  | chunked (reader : ChunkReader)
  | untilClose
deriving DecidableEq

/-- Body framing for a request: chunked or a positive `Content-Length`, else none. -/
def requestFraming (headers : Headers) : Option Framing :=
  if isChunked headers then some (.chunked {})
  else match contentLength headers with
    | some (n + 1) => some (.length (n + 1))
    | _ => none

/-- Body framing for a response, honouring the statuses and methods that have no body. -/
def responseFraming (status : ℕ) (methodIsHead : Bool) (headers : Headers) : Option Framing :=
  if methodIsHead ∨ status = 204 ∨ status = 304 ∨ (100 ≤ status ∧ status ≤ 199) then none
  else if isChunked headers then some (.chunked {})
  else match contentLength headers with
    | some 0 => none
    | some n => some (.length n)
    | none => some .untilClose

end Adwarden.Tls
