import Adwarden.Tls.Message
import Adwarden.Tls.Upstream

/-! The upstream response parser followed along a sequence of responses, wherever the input is
cut. -/
namespace Adwarden.Tls
open Adwarden.Lib

def wires (ms : List Message) : Bytes := ms.flatMap Message.wire

def Message.response (m : Message) : UpResponse :=
  { status := m.head.status, contentType := m.contentType, body := m.body }

/-- The final responses that the parser reports as they are: the reason phrase is UTF-8, a chunked
body is announced by the first `Transfer-Encoding` field and fits the capture. -/
structure Message.Readable (m : Message) : Prop where
  final : ¬ Interim m.head.status
  reason : (Str.fromUtf8 m.head.reason).isSome
  coding : ChunkedCoding m.head.headers → ¬ Bodiless m.head.status → isChunked m.head.headers
  captured : ChunkedCoding m.head.headers → ¬ Bodiless m.head.status →
    m.body.length ≤ maxBodyCapture

theorem responseFraming_bodiless {status : ℕ} (h : Bodiless status) (headers : Headers) :
    responseFraming status false headers = none := by
  unfold Bodiless Interim at h
  unfold responseFraming
  rw [if_pos (by tauto)]

theorem responseFraming_body {status : ℕ} (h : ¬ Bodiless status) (headers : Headers) :
    responseFraming status false headers =
      if isChunked headers then some (.chunked {})
      else match contentLength headers with
        | some 0 => none
        | some n => some (.length n)
        | none => some .untilClose := by
  unfold Bodiless Interim at h
  unfold responseFraming
  exact if_neg (by simp only [Bool.false_eq_true, false_or]; omega)

variable {lines : ℕ}

theorem responseHead_encode {m : Message} (hw : m.head.WellFormed)
    (hr : (Str.fromUtf8 m.head.reason).isSome) :
    responseHead m.head.encode = some (m.head.status, m.contentType,
      responseFraming m.head.status false m.head.headers) := by
  obtain ⟨reason, hreason⟩ := Option.isSome_iff_exists.mp hr
  simp [responseHead, RespHead.parseHeadFields_encode hw,
    RespHead.parseStatusLine_statusLine hw hreason, Message.contentType]

/-- The parser stands in a sequence of responses `ms`, of which `buf ++ rest` is still to read. -/
inductive RespAt (lines : ℕ) : H1Responses → (rest : Bytes) → List Message → Prop
  | head {buf rest : Bytes} {ms : List Message} (h : buf ++ rest = wires ms) :
      RespAt lines ⟨buf, none⟩ rest ms
  | sized {buf rest todo : Bytes} {m : Message} {ms : List Message} {c : Capture}
      (h : buf ++ rest = todo ++ wires ms) (hne : todo ≠ []) (hb : c.captured ++ todo = m.body)
      (hlen : (buf ++ rest).length ≤ (wires (m :: ms)).length) :
      RespAt lines ⟨buf, some ⟨m.head.status, m.contentType, .length todo.length, c⟩⟩ rest (m :: ms)
  | chunked {buf rest todo : Bytes} {st : ChunkState} {m : Message} {ms : List Message}
      {c : Capture} (h : ChunkAt lines (wires ms) st (buf ++ rest) todo)
      (hb : c.captured ++ todo = m.body) (hcap : m.body.length ≤ maxBodyCapture)
      (hlen : (buf ++ rest).length ≤ (wires (m :: ms)).length) :
      RespAt lines ⟨buf, some ⟨m.head.status, m.contentType, .chunked ⟨st⟩, c⟩⟩ rest (m :: ms)

/-- No stretch of a chunk line in the buffer is longer than the parser accepts. -/
def Room (lines : ℕ) (s : H1Responses) : Prop :=
  match s.body with
  | some ⟨_, _, .chunked r, _⟩ => Fits (some maxHeaderBytes) lines r.state s.buf
  | some _ => lines ≤ maxHeaderBytes ∨ s.buf.length ≤ maxHeaderBytes
  | none => lines ≤ maxHeaderBytes ∨
      ∀ hend, findHeaderEnd s.buf = some hend → s.buf.length - hend ≤ maxHeaderBytes

theorem pushCapped_of_le {c : Capture} {o todo body : Bytes} (hb : c.captured ++ (o ++ todo) = body)
    (hcap : body.length ≤ maxBodyCapture) : (pushCapped c o).captured = c.captured ++ o := by
  have hlen := congrArg List.length hb
  simp only [List.length_append] at hlen
  simp only [pushCapped]
  rw [if_pos (by omega)]

/-- What one iteration does from a position: it waits for a response that is still incomplete, or
it goes on and reports a response when it has read it. -/
def RespSteps (lines : ℕ) (s : H1Responses) (rest : Bytes) (ms : List Message) : Prop :=
  (responsesStep (some maxHeaderBytes) ⟨s, false⟩ = none ∧
    ∀ m t, ms = m :: t → (wires t).length < rest.length) ∨
  ∃ s', Room lines s' ∧
    ((responsesStep (some maxHeaderBytes) ⟨s, false⟩ = some ([], ⟨s', false⟩) ∧
        RespAt lines s' rest ms) ∨
      ∃ m t, ms = m :: t ∧
        responsesStep (some maxHeaderBytes) ⟨s, false⟩ = some ([m.response], ⟨s', false⟩) ∧
        RespAt lines s' rest t)

private theorem respSteps_sized {buf rest todo : Bytes} {m : Message} {ms : List Message}
    {c : Capture} (h : buf ++ rest = todo ++ wires ms) (hne : todo ≠ [])
    (hb : c.captured ++ todo = m.body) (hlen : (buf ++ rest).length ≤ (wires (m :: ms)).length)
    (hr : lines ≤ maxHeaderBytes ∨ buf.length ≤ maxHeaderBytes) :
    RespSteps lines ⟨buf, some ⟨m.head.status, m.contentType, .length todo.length, c⟩⟩ rest
      (m :: ms) := by
  have hpos := List.length_pos_iff.mpr hne
  have h0 : todo.length ≠ 0 := by omega
  by_cases hbuf : buf = []
  · left
    subst hbuf
    refine ⟨by simp [responsesStep, consumeBody, hne], ?_⟩
    rintro _ _ ⟨⟩
    have := congrArg List.length h
    simp only [List.length_append, List.length_nil] at this
    omega
  · right
    by_cases hle : todo.length ≤ buf.length
    · obtain ⟨past, rfl⟩ := List.prefix_of_prefix_length_le ⟨wires ms, h.symm⟩
        (List.prefix_append _ _) hle
      refine ⟨⟨past, none⟩, ?_, Or.inr ⟨m, ms, rfl, ?_, .head ?_⟩⟩
      · refine hr.imp id fun hb => ?_
        intro hend _
        simp only [List.length_append] at hb ⊢
        omega
      · simp [responsesStep, consumeBody, hne, hb, Message.response]
      · simpa using h
    · obtain ⟨more, rfl⟩ := List.prefix_of_prefix_length_le (List.prefix_append buf rest)
        ⟨wires ms, h.symm⟩ (by omega)
      have hmore : more ≠ [] := by
        rintro rfl
        simp at hle
      refine ⟨⟨[], some ⟨m.head.status, m.contentType, .length more.length,
        { c with captured := c.captured ++ buf, wireLen := c.wireLen + buf.length }⟩⟩, ?_,
        Or.inl ⟨?_, .sized (by simpa using h) hmore (by simpa using hb) ?_⟩⟩
      · exact hr.imp id fun _ => by simp
      · have hmin : min (buf ++ more).length buf.length = buf.length := by simp
        simp only [responsesStep, consumeBody, hmin, h0, if_false, List.take_length,
          List.drop_length]
        simp [hmore, Ne.symm hbuf]
      · simp only [List.length_append, List.length_nil] at hlen ⊢
        omega

private theorem respSteps_chunked {buf rest todo : Bytes} {st : ChunkState} {m : Message}
    {ms : List Message} {c : Capture} (h : ChunkAt lines (wires ms) st (buf ++ rest) todo)
    (hb : c.captured ++ todo = m.body) (hcap : m.body.length ≤ maxBodyCapture)
    (hlen : (buf ++ rest).length ≤ (wires (m :: ms)).length)
    (hr : Fits (some maxHeaderBytes) lines st buf) :
    RespSteps lines ⟨buf, some ⟨m.head.status, m.contentType, .chunked ⟨st⟩, c⟩⟩ rest
      (m :: ms) := by
  obtain ⟨todo', hrun⟩ := chunkFeeder_run_at h hr
  have hbuf : ((chunkFeeder (some maxHeaderBytes)).run ⟨st, buf, .needMore⟩).2.buf.length ≤
      buf.length :=
    (chunkFeeder (some maxHeaderBytes)).run_invariant (P := fun _ l => l.buf.length ≤ buf.length)
      (o := []) (Nat.le_refl _) fun _ _ _ _ hl hs => Nat.le_trans (chunkStep_buf_le hs) hl
  obtain ⟨⟨o, st', buf', status⟩, hres⟩ :
    ∃ r, (chunkFeeder (some maxHeaderBytes)).run ⟨st, buf, .needMore⟩ = r := ⟨_, rfl⟩
  rw [hres] at hrun hbuf
  have hbody : c.captured ++ (o ++ todo') = m.body := by rw [← hrun.stepped.body, hb]
  have hpush := pushCapped_of_le hbody hcap
  have hconsume : consumeBody (some maxHeaderBytes)
      ⟨m.head.status, m.contentType, .chunked ⟨st⟩, c⟩ buf =
        ⟨status, ⟨m.head.status, m.contentType, .chunked ⟨st'⟩, pushCapped c o⟩, buf'⟩ := by
    simp [consumeBody, ChunkReader.consumeWithin, hres]
  rcases hrun.stepped.at_ with ⟨hst, hat⟩ | ⟨hst, htr, rfl, hend⟩
  · obtain rfl : status = .needMore := hst
    by_cases hsame : buf' = buf ∧ Framing.chunked ⟨st'⟩ = Framing.chunked ⟨st⟩
    · left
      refine ⟨by simp only [responsesStep, hconsume, if_pos hsame], ?_⟩
      rintro _ _ ⟨⟩
      exact hrun.due rfl
    · right
      refine ⟨⟨buf', some ⟨m.head.status, m.contentType, .chunked ⟨st'⟩, pushCapped c o⟩⟩,
        hrun.fits, Or.inl ⟨by simp only [responsesStep, hconsume, if_neg hsame],
          .chunked hat ?_ hcap ?_⟩⟩
      · rw [hpush, List.append_assoc, hbody]
      · simp only [List.length_append] at hlen hbuf ⊢
        omega
  · obtain rfl : status = .done := hst
    right
    refine ⟨⟨buf', none⟩, ?_, Or.inr ⟨m, ms, rfl, ?_, .head hend⟩⟩
    · have hfits := hrun.fits
      obtain ⟨-, hl⟩ := hfits maxHeaderBytes rfl
      refine hl.imp id fun hl => fun hend _ => ?_
      rw [htr] at hl
      exact Nat.le_trans (Nat.sub_le _ _) hl
    · simp only [responsesStep, hconsume]
      rw [List.append_nil] at hbody
      simp [hpush, hbody, Message.response]

/-- After a head: the response has no body, or the parser turns to it. -/
private theorem respSteps_body {buf b' rest : Bytes} {hend : ℕ} {m : Message} {t : List Message}
    (hm : m.WellFormed lines) (hread : m.Readable) (he : findHeaderEnd buf = some hend)
    (hhead : responseHead (buf.take hend) = some (m.head.status, m.contentType,
      responseFraming m.head.status false m.head.headers))
    (hdrop : buf.drop hend = b') (hrest : b' ++ rest = m.wireBody ++ wires t)
    (hlen : (b' ++ rest).length ≤ (wires (m :: t)).length)
    (hroom : lines ≤ maxHeaderBytes ∨ b'.length ≤ maxHeaderBytes) :
    RespSteps lines ⟨buf, none⟩ rest (m :: t) := by
  right
  obtain ⟨head, wireBody, body⟩ := m
  have hnone : Room lines ⟨b', none⟩ := hroom.imp id fun hb _ _ => by
    dsimp only
    omega
  cases hm.body with
  | none hs =>
    rw [responseFraming_bodiless hs] at hhead
    refine ⟨⟨b', none⟩, hnone, Or.inr ⟨_, t, rfl, ?_, .head (by simpa using hrest)⟩⟩
    simp [responsesStep, he, hhead, hdrop, Message.response]
  | sized hs hn hsize =>
    rw [responseFraming_body hs, hn.isChunked, hn.contentLength hsize] at hhead
    by_cases hb : wireBody = []
    · subst hb
      refine ⟨⟨b', none⟩, hnone, Or.inr ⟨_, t, rfl, ?_, .head (by simpa using hrest)⟩⟩
      simp only [Bool.false_eq_true, if_false, List.length_nil] at hhead
      simp [responsesStep, he, hhead, hdrop, Message.response]
    · obtain ⟨n, hn'⟩ : ∃ n, wireBody.length = n + 1 :=
        ⟨wireBody.length - 1, by have := List.length_pos_iff.mpr hb; omega⟩
      refine ⟨⟨b', some ⟨head.status, Message.contentType ⟨head, wireBody, wireBody⟩,
        .length wireBody.length, {}⟩⟩, hroom, Or.inl ⟨?_, .sized hrest hb rfl hlen⟩⟩
      simp only [Bool.false_eq_true, if_false, hn'] at hhead
      simp [responsesStep, he, hhead, hdrop, hn']
  | chunked hs hc hwire =>
    rw [responseFraming_body hs, hread.coding hc hs] at hhead
    refine ⟨⟨b', some ⟨head.status, Message.contentType ⟨head, wireBody, body⟩, .chunked ⟨.size []⟩,
      {}⟩⟩, ?_, Or.inl ⟨?_, .chunked (.size hrest hwire (by simp)) rfl (hread.captured hc hs) hlen⟩⟩
    · intro c hc
      obtain rfl := Option.mem_some_iff.mp hc
      exact ⟨by simp [maxHeaderBytes], hroom⟩
    · simp only [if_true] at hhead
      simp [responsesStep, he, hhead, hdrop]

private theorem respSteps_head {buf rest : Bytes} {ms : List Message}
    (h : buf ++ rest = wires ms) (hw : ∀ m ∈ ms, m.WellFormed lines ∧ m.Readable)
    (hr : Room lines ⟨buf, none⟩) : RespSteps lines ⟨buf, none⟩ rest ms := by
  cases he : findHeaderEnd buf with
  | none =>
    left
    refine ⟨by simp [responsesStep, he], ?_⟩
    rintro m t rfl
    obtain ⟨hm, -⟩ := hw m (by simp)
    by_contra hge
    have hhead := RespHead.findHeaderEnd_encode hm.head (m.wireBody ++ wires t)
    have hall : buf ++ rest = m.head.encode ++ (m.wireBody ++ wires t) := by
      rw [h]
      simp [wires, Message.wire]
    rw [← hall] at hhead
    have hle := findHeaderEnd_append_none he hhead
    have hlen := congrArg List.length hall
    simp only [List.length_append] at hlen
    omega
  | some hend =>
    cases ms with
    | nil =>
      exfalso
      have hle := (findHeaderEnd_le he)
      have : buf = [] := by
        have := congrArg List.length h
        simp [wires] at this
        exact this.1
      simp [this] at hle
      omega
    | cons m t =>
      obtain ⟨hm, hread⟩ := hw m (by simp)
      have hall : buf ++ rest = m.head.encode ++ (m.wireBody ++ wires t) := by
        rw [h]
        simp [wires, Message.wire]
      have hend' : hend = m.head.encode.length := by
        have h1 := findHeaderEnd_append rest he
        rw [hall, RespHead.findHeaderEnd_encode hm.head] at h1
        exact (Option.some.inj h1).symm
      obtain ⟨b', rfl⟩ : m.head.encode <+: buf :=
        List.prefix_of_prefix_length_le ⟨_, hall.symm⟩ (List.prefix_append _ _)
          (by rw [← hend']; exact (findHeaderEnd_le he).2)
      have hrest : b' ++ rest = m.wireBody ++ wires t := by simpa using hall
      have hlen : (b' ++ rest).length ≤ (wires (m :: t)).length := by
        simp only [hrest, wires, List.flatMap_cons, Message.wire, List.length_append]
        omega
      have hroom : lines ≤ maxHeaderBytes ∨ b'.length ≤ maxHeaderBytes := by
        refine hr.imp id fun hb => ?_
        have := hb hend he
        simp only [List.length_append] at this
        omega
      have hhead : responseHead ((m.head.encode ++ b').take hend) = some (m.head.status,
          m.contentType, responseFraming m.head.status false m.head.headers) := by
        rw [hend', List.take_left' rfl]
        exact responseHead_encode hm.head hread.reason
      have hdrop : (m.head.encode ++ b').drop hend = b' := by rw [hend', List.drop_left' rfl]
      exact respSteps_body hm hread he hhead hdrop hrest hlen hroom

theorem responsesStep_at {s : H1Responses} {rest : Bytes} {ms : List Message}
    (h : RespAt lines s rest ms) (hr : Room lines s)
    (hw : ∀ m ∈ ms, m.WellFormed lines ∧ m.Readable) : RespSteps lines s rest ms := by
  cases h with
  | head h => exact respSteps_head h hw hr
  | sized h hne hb hlen => exact respSteps_sized h hne hb hlen hr
  | chunked h hb hcap hlen => exact respSteps_chunked h hb hcap hlen hr

/-- What a whole call from a position leaves: the responses it reports, and a position in the
others with more input due before the end of the first. -/
structure RespRuns (lines : ℕ) (rest : Bytes) (ms : List Message)
    (r : List UpResponse × ResponsesLoop) (done left : List Message) : Prop where
  split : ms = done ++ left
  reported : r.1 = done.map Message.response
  unbroken : r.2.broke = false
  at_ : RespAt lines r.2.side rest left
  halted : responsesStep (some maxHeaderBytes) r.2 = none
  due : ∀ m t, left = m :: t → (wires t).length < rest.length

theorem responsesFeeder_run_at {s : H1Responses} {rest : Bytes} {ms : List Message}
    (h : RespAt lines s rest ms) (hr : Room lines s)
    (hw : ∀ m ∈ ms, m.WellFormed lines ∧ m.Readable) :
    ∃ done left, RespRuns lines rest ms ((responsesFeeder (some maxHeaderBytes)).run ⟨s, false⟩)
      done left := by
  suffices ∀ l : ResponsesLoop, ∀ ms, l.broke = false → RespAt lines l.side rest ms →
      Room lines l.side → (∀ m ∈ ms, m.WellFormed lines ∧ m.Readable) →
      ∃ done left, RespRuns lines rest ms ((responsesFeeder (some maxHeaderBytes)).run l) done left
    from this ⟨s, false⟩ ms rfl h hr hw
  intro l
  refine (responsesFeeder (some maxHeaderBytes)).run_induction (P := fun l r => ∀ ms,
    l.broke = false → RespAt lines l.side rest ms → Room lines l.side →
    (∀ m ∈ ms, m.WellFormed lines ∧ m.Readable) →
    ∃ done left, RespRuns lines rest ms r done left) l ?_ ?_
  · rintro ⟨s, _⟩ hnone ms rfl hat hr hw
    have hn : responsesStep (some maxHeaderBytes) ⟨s, false⟩ = none := hnone
    refine ⟨[], ms, rfl, rfl, rfl, hat, hn, ?_⟩
    rcases responsesStep_at hat hr hw with ⟨-, hdue⟩ | ⟨s', -, ⟨hs, -⟩ | ⟨_, _, -, hs, -⟩⟩
    · exact hdue
    · simp [hn] at hs
    · simp [hn] at hs
  · rintro ⟨s, _⟩ o l' hsome ih ms rfl hat hr hw
    have hs' : responsesStep (some maxHeaderBytes) ⟨s, false⟩ = some (o, l') := hsome
    rcases responsesStep_at hat hr hw with ⟨hs, -⟩ | ⟨s', hr', ⟨hs, hat'⟩ | ⟨m, t, rfl, hs, hat'⟩⟩
    · simp [hs] at hs'
    · rw [hs] at hs'
      simp only [Option.some.injEq, Prod.mk.injEq] at hs'
      obtain ⟨rfl, rfl⟩ := hs'
      obtain ⟨done, left, hruns⟩ := ih ms rfl hat' hr' hw
      exact ⟨done, left, hruns.split, by simpa using hruns.reported, hruns.unbroken, hruns.at_,
        hruns.halted, hruns.due⟩
    · rw [hs] at hs'
      simp only [Option.some.injEq, Prod.mk.injEq] at hs'
      obtain ⟨rfl, rfl⟩ := hs'
      obtain ⟨done, left, hruns⟩ := ih t rfl hat' hr' fun m hm => hw m (by simp [hm])
      exact ⟨m :: done, left, by simp [hruns.split], by simp [hruns.reported], hruns.unbroken,
        hruns.at_, hruns.halted, hruns.due⟩

/-- A buffer that grows at its end is still a position. -/
theorem RespAt.ext {s : H1Responses} {d rest : Bytes} {ms : List Message}
    (h : RespAt lines s (d ++ rest) ms) : RespAt lines { s with buf := s.buf ++ d } rest ms := by
  cases h with
  | head h => exact .head (by simpa using h)
  | sized h hne hb hlen => exact .sized (by simpa using h) hne hb (by simpa using hlen)
  | chunked h hb hcap hlen => exact .chunked (by simpa using h) hb hcap (by simpa using hlen)

theorem RespAt.rest_le {s : H1Responses} {rest : Bytes} {ms : List Message}
    (h : RespAt lines s rest ms) : rest.length ≤ (wires ms).length := by
  cases h with
  | head h =>
    rw [← h]
    simp
  | sized _ _ _ hlen => exact (by simp : rest.length ≤ _).trans hlen
  | chunked _ _ _ hlen => exact (by simp : rest.length ≤ _).trans hlen

/-- A parser that waits has room for the next piece. -/
theorem Room.piece {s : H1Responses} {d : Bytes}
    (hs : responsesStep (some maxHeaderBytes) ⟨s, false⟩ = none)
    (hd : lines ≤ maxHeaderBytes ∨ d.length ≤ maxHeaderBytes) :
    Room lines { s with buf := s.buf ++ d } := by
  obtain ⟨buf, body⟩ := s
  cases body with
  | none =>
    refine hd.imp id fun hd hend he => ?_
    have hb : findHeaderEnd buf = none := by
      cases hb : findHeaderEnd buf with
      | none => rfl
      | some n =>
        simp only [responsesStep, hb] at hs
        split at hs <;> simp at hs
    have hlt := findHeaderEnd_append_none hb he
    simp only [List.length_append]
    omega
  | some acc =>
    obtain ⟨status, contentType, framing, capture⟩ := acc
    cases framing with
    | length remaining =>
      refine hd.imp id fun hd => ?_
      by_cases h0 : remaining = 0
      · simp [responsesStep, consumeBody, h0] at hs
      · have hb : buf = [] := by
          by_contra hb
          have hpos := List.length_pos_iff.mpr hb
          simp only [responsesStep, consumeBody, h0, if_false] at hs
          split at hs
          · simp at hs
          · next hc =>
            split_ifs at hs with hcond
            have := congrArg List.length hcond.1
            simp only [List.length_drop] at this
            omega
          · simp at hs
        simpa [hb] using hd
    | untilClose =>
      refine hd.imp id fun hd => ?_
      have hb : buf = [] := by
        by_contra hb
        simp [responsesStep, consumeBody, Ne.symm hb] at hs
      simpa [hb] using hd
    | chunked r =>
      obtain ⟨st⟩ := r
      have hw : chunkStep (some maxHeaderBytes) ⟨st, buf, .needMore⟩ = none := by
        have hm := (chunkFeeder (some maxHeaderBytes)).run_halts ⟨st, buf, .needMore⟩
        obtain ⟨⟨o, st', buf', status'⟩, hres⟩ :
          ∃ r, (chunkFeeder (some maxHeaderBytes)).run ⟨st, buf, .needMore⟩ = r := ⟨_, rfl⟩
        rw [hres] at hm
        simp only [responsesStep, consumeBody, ChunkReader.consumeWithin, hres] at hs
        cases status' with
        | done => simp at hs
        | error => simp at hs
        | needMore =>
          simp only at hs
          split_ifs at hs with hc
          obtain ⟨rfl, hf⟩ := hc
          simp only [Framing.chunked.injEq, ChunkReader.mk.injEq] at hf
          rw [← hf]
          exact hm
      rcases hd with hd | hd
      · intro c hc
        obtain rfl := Option.mem_some_iff.mp hc
        exact ⟨by simp [maxHeaderBytes], Or.inl hd⟩
      · exact Fits.piece (by simp [maxHeaderBytes]) hw hd

end Adwarden.Tls
