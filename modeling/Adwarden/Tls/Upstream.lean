import Adwarden.Tls.Chunk

/-! The incremental parser of the resolver's HTTP/1.1 responses. -/
namespace Adwarden.Tls
open Adwarden.Lib

/-- One HTTP/1.1 response parsed from the upstream stream. -/
structure UpResponse where
  status : ℕ
  contentType : Str
  body : Bytes
deriving DecidableEq

structure BodyAcc where
  status : ℕ
  contentType : Str
  framing : Framing
  capture : Capture := {}
deriving DecidableEq

structure H1Responses where
  buf : Bytes := []
  body : Option BodyAcc := none
deriving DecidableEq

/-- The outcome of `consume_body`: the step, the accumulated body and the buffer it leaves. -/
structure BodyRead where
  step : Step
  acc : BodyAcc
  rest : Bytes

/-- Consume as much of `buf` as belongs to the current response body. -/
def consumeBody (cap : Option ℕ) (acc : BodyAcc) (buf : Bytes) : BodyRead :=
  match acc.framing with
  | .length remaining =>
    if remaining = 0 then { step := .done, acc, rest := buf }
    else
      let n := min remaining buf.length
      { step := if remaining - n = 0 then .done else .needMore
        acc := { acc with
          framing := .length (remaining - n)
          capture := { acc.capture with
            captured := acc.capture.captured ++ buf.take n
            wireLen := acc.capture.wireLen + n } }
        rest := buf.drop n }
  | .chunked reader =>
    let c := reader.consumeWithin cap buf
    { step := c.step
      acc := { acc with framing := .chunked c.reader, capture := pushCapped acc.capture c.decoded }
      rest := c.rest }
  | .untilClose =>
    { step := .needMore
      acc := { acc with
        capture := { acc.capture with captured := acc.capture.captured ++ buf } }
      rest := [] }

/-- The state of the loop in `H1Responses::feed`; `broke` marks a `break` other than the wait for
more input. -/
structure ResponsesLoop where
  side : H1Responses
  broke : Bool := false
deriving DecidableEq

/-- What the head of a response says: status, content type and body framing. -/
def responseHead (head : Bytes) : Option (ℕ × Str × Option Framing) := do
  let (start, headers) ← parseHeadFields head
  let (_, status, _) ← parseStatusLine start
  some (status, (header headers "content-type").getD [], responseFraming status false headers)

/-- One iteration of the loop. A head and its body take an iteration each. -/
def responsesStep (cap : Option ℕ) : ResponsesLoop → Option (List UpResponse × ResponsesLoop)
  | ⟨_, true⟩ => none
  | ⟨⟨buf, none⟩, false⟩ =>
    match findHeaderEnd buf with
    | none => none
    | some hend =>
      match responseHead (buf.take hend) with
      | none => some ([], ⟨⟨buf.drop hend, none⟩, true⟩)
      | some (status, contentType, none) =>
        some ([{ status, contentType, body := [] }], ⟨⟨buf.drop hend, none⟩, false⟩)
      | some (status, contentType, some framing) =>
        some ([], ⟨⟨buf.drop hend, some { status, contentType, framing }⟩, false⟩)
  | ⟨⟨buf, some acc⟩, false⟩ =>
    let r := consumeBody cap acc buf
    match r.step with
    | .done =>
      some ([⟨r.acc.status, r.acc.contentType, r.acc.capture.captured⟩],
        ⟨⟨r.rest, none⟩, false⟩)
    | .needMore =>
      if r.rest = buf ∧ r.acc.framing = acc.framing then none
      else some ([], ⟨⟨r.rest, some r.acc⟩, false⟩)
    | .error => some ([], ⟨⟨r.rest, none⟩, true⟩)

private def bodyMeasure (framing : Framing) (buf : Bytes) : ℕ :=
  match framing with
  | .chunked r => chunkMeasure ⟨r.state, buf, .needMore⟩
  | _ => 2 * buf.length + 1

private def responsesMeasure : ResponsesLoop → ℕ
  | ⟨_, true⟩ => 0
  | ⟨⟨buf, none⟩, false⟩ => 2 * buf.length + 1
  | ⟨⟨buf, some acc⟩, false⟩ => bodyMeasure acc.framing buf + 1

private theorem bodyMeasure_bounds (framing : Framing) (buf : Bytes) :
    2 * buf.length + 1 ≤ bodyMeasure framing buf ∧
      bodyMeasure framing buf ≤ 2 * buf.length + 2 := by
  unfold bodyMeasure chunkMeasure
  split
  · split <;> simp_all
  · omega

/-- A body that wants more either stands still or has come nearer to the end of its buffer. -/
private theorem consumeBody_needMore {cap : Option ℕ} {acc : BodyAcc} {buf : Bytes}
    (h : (consumeBody cap acc buf).step = .needMore) :
    ((consumeBody cap acc buf).rest = buf ∧
        (consumeBody cap acc buf).acc.framing = acc.framing) ∨
      bodyMeasure (consumeBody cap acc buf).acc.framing (consumeBody cap acc buf).rest <
        bodyMeasure acc.framing buf := by
  obtain ⟨status, ct, framing, capture⟩ := acc
  cases framing with
  | length remaining =>
    by_cases h0 : remaining = 0
    · simp [consumeBody, h0] at h
    · cases buf with
      | nil => left; simp [consumeBody, h0]
      | cons b buf =>
        right
        simp only [consumeBody, h0, if_false, bodyMeasure, List.length_drop, List.length_cons]
        omega
  | untilClose =>
    cases buf with
    | nil => left; simp [consumeBody]
    | cons b buf => right; simp [consumeBody, bodyMeasure]
  | chunked reader =>
    have hm := (chunkFeeder cap).run_measure ⟨reader.state, buf, .needMore⟩
    simp only [consumeBody, ChunkReader.consumeWithin] at h ⊢
    rcases hm with hm | hm
    · left
      rw [hm]
      exact ⟨rfl, rfl⟩
    · right
      have he : (chunkFeeder cap).measure = chunkMeasure := rfl
      rw [he] at hm
      obtain ⟨⟨st, rest, status⟩, hr⟩ : ∃ r, ((chunkFeeder cap).run
          ⟨reader.state, buf, .needMore⟩).2 = r := ⟨_, rfl⟩
      rw [hr] at h hm ⊢
      obtain rfl : status = .needMore := h
      exact hm

private theorem consumeBody_done {cap : Option ℕ} {acc : BodyAcc} {buf : Bytes}
    (h : (consumeBody cap acc buf).step = .done) :
    2 * (consumeBody cap acc buf).rest.length + 1 ≤ bodyMeasure acc.framing buf := by
  obtain ⟨status, ct, framing, capture⟩ := acc
  cases framing with
  | length remaining =>
    by_cases h0 : remaining = 0
    · simp [consumeBody, bodyMeasure, h0]
    · simp only [consumeBody, bodyMeasure, h0, if_false, List.length_drop]
      omega
  | untilClose => simp [consumeBody] at h
  | chunked reader =>
    have hm := (chunkFeeder cap).run_measure ⟨reader.state, buf, .needMore⟩
    have hlow : ∀ s : ChunkLoop, 2 * s.buf.length ≤ chunkMeasure s := by
      rintro ⟨s, b, st⟩
      cases s <;> cases st <;> simp [chunkMeasure]
    simp only [consumeBody, ChunkReader.consumeWithin, bodyMeasure] at h ⊢
    rcases hm with hm | hm
    · simp [hm] at h
    · exact Nat.lt_of_le_of_lt (hlow _) hm

private theorem responsesStep_decreases {cap : Option ℕ} {s s' : ResponsesLoop}
    {o : List UpResponse} (h : responsesStep cap s = some (o, s')) :
    responsesMeasure s' < responsesMeasure s := by
  unfold responsesStep at h
  split at h
  · simp at h
  · split at h
    · simp at h
    · next hend he =>
      have hle := findHeaderEnd_le he
      split at h <;> obtain ⟨-, rfl⟩ := by simpa using h
      · simp [responsesMeasure]
      · simp only [responsesMeasure, List.length_drop]
        omega
      · next framing _ =>
        have := (bodyMeasure_bounds framing (List.drop hend ‹Bytes›)).2
        simp only [responsesMeasure, List.length_drop] at this ⊢
        omega
  · next buf acc =>
    dsimp only at h
    split at h
    · next hs =>
      obtain ⟨-, rfl⟩ := by simpa using h
      have := consumeBody_done hs
      simp only [responsesMeasure]
      omega
    · next hs =>
      split_ifs at h with hc
      obtain ⟨-, rfl⟩ := by simpa using h
      have := (consumeBody_needMore hs).resolve_left hc
      simp only [responsesMeasure]
      omega
    · obtain ⟨-, rfl⟩ := by simpa using h
      simp [responsesMeasure]

def responsesFeeder (cap : Option ℕ) : Feeder ResponsesLoop UpResponse UInt8 where
  step := responsesStep cap
  measure := responsesMeasure
  decreases := responsesStep_decreases
  ext s d := { s with side := { s.side with buf := s.side.buf ++ d } }
  ext_nil s := by simp
  ext_append s a b := by simp

def H1Responses.feed (s : H1Responses) (data : Bytes) : List UpResponse × H1Responses :=
  let r := (responsesFeeder (some maxHeaderBytes)).feed ⟨s, false⟩ data
  (r.1, r.2.side)

end Adwarden.Tls
