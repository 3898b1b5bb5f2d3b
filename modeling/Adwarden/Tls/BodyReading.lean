import Adwarden.Tls.RewriterAbandon

/-! A response body read from its first byte on: however it arrives, the rewriter decodes the same
of it. -/
namespace Adwarden.Tls
open Adwarden.Lib

section Short

variable {c : ℕ}

theorem chunkStep_short {l : ChunkLoop} (h : l.buf.length ≤ c) :
    chunkStep (some c) l = chunkStep none l := by
  obtain ⟨st, buf, status⟩ := l
  have hline : ∀ line, readLine (some c) line buf = readLine none line buf := by
    intro line
    unfold readLine
    have hle : ¬ c < buf.length := Nat.not_lt.mpr h
    simp only [Option.any_some, Option.any_none, decide_eq_true_eq, if_neg hle,
      Bool.false_eq_true, if_false]
  cases status with
  | done => rw [chunkStep_stopped (by simp), chunkStep_stopped (by simp)]
  | error => rw [chunkStep_stopped (by simp), chunkStep_stopped (by simp)]
  | needMore =>
    cases st with
    | size line => simp only [chunkStep, hline]
    | trailer line => simp only [chunkStep, hline]
    | data n => cases n <;> cases buf <;> rfl
    | dataCrlf => cases buf <;> rfl

/-- A buffer within the cap on lines holds no line over it. -/
theorem chunkFeeder_run_short {l : ChunkLoop} (h : l.buf.length ≤ c) :
    (chunkFeeder (some c)).run l = (chunkFeeder none).run l := by
  refine (chunkFeeder none).run_induction (P := fun l r => l.buf.length ≤ c →
    (chunkFeeder (some c)).run l = r) l ?_ ?_ h
  · intro l hl hle
    exact (chunkFeeder (some c)).run_none ((chunkStep_short hle).trans hl)
  · intro l o l' hl ih hle
    rw [(chunkFeeder (some c)).run_some ((chunkStep_short hle).trans hl)]
    rw [ih (Nat.le_trans (chunkStep_buf_le hl) hle)]

end Short

namespace Rewriter

/-- How far a body has been read: the body bytes in it, and what is left to the reader. -/
structure BodyRead where
  step : Step
  body : BodyKind
  data : Bytes
  rest : Bytes

/-- All of `wire` read at once, with no limit on a line. -/
def readBody (kind : BodyKind) (wire : Bytes) : BodyRead :=
  match kind with
  | .length n =>
    { step := if n ≤ wire.length then .done else .needMore
      body := .length (n - wire.length), data := wire.take n, rest := wire.drop n }
  | .chunked reader =>
    let c := reader.consumeWithin none wire
    { step := c.step, body := .chunked c.reader, data := c.decoded, rest := c.rest }
  | .close => { step := .needMore, body := .close, data := wire, rest := [] }

/-- What one more piece makes of it. -/
def BodyRead.pull (r : BodyRead) (d : Bytes) : BodyRead :=
  let pulled := pullBody r.body (r.rest ++ d)
  { step := pulled.step, body := pulled.body, data := r.data ++ pulled.bytes, rest := pulled.rest }

section Read

variable {kind : BodyKind} {v d : Bytes}

theorem readBody_chunked : isChunkedKind (readBody kind v).body = isChunkedKind kind := by
  cases kind <;> rfl

/-- A reader that waits holds no more than the CR of a line end. -/
theorem readBody_room (h : (readBody kind v).step = .needMore) :
    (readBody kind v).rest.length ≤ 2 := by
  cases kind with
  | length n =>
    have hlt : v.length < n := by
      by_contra hle
      rw [readBody, if_pos (Nat.not_lt.mp hle)] at h
      cases h
    rw [readBody, List.drop_eq_nil_of_le (Nat.le_of_lt hlt)]
    exact Nat.zero_le 2
  | close => exact Nat.zero_le 2
  | chunked r =>
    have hhalt := (chunkFeeder none).run_halts ⟨r.state, v, .needMore⟩
    simp only [readBody, ChunkReader.consumeWithin] at h ⊢
    generalize (chunkFeeder none).run ⟨r.state, v, .needMore⟩ = out at h hhalt ⊢
    obtain ⟨o, st, rest, status⟩ := out
    obtain rfl : status = .needMore := h
    exact Nat.le_trans (chunkStep_waits hhalt) (slack_le st)

/-- Reading on from what has been read is reading all of it. -/
theorem readBody_append (h : (readBody kind v).step = .needMore) (hd : d.length ≤ maxFeed) :
    readBody kind (v ++ d) = (readBody kind v).pull d := by
  have hroom := readBody_room h
  have hlen : ((readBody kind v).rest ++ d).length ≤ maxHeaderBytes := by
    have hfeed : 2 + maxFeed ≤ maxHeaderBytes := by decide
    rw [List.length_append]
    omega
  have hbytes : (pullBody (readBody kind v).body ((readBody kind v).rest ++ d)).bytes =
      (pullBody (readBody kind v).body ((readBody kind v).rest ++ d)).decoded :=
    pullBody_bytes (Nat.le_trans hlen (by decide))
  rw [BodyRead.pull, hbytes]
  cases kind with
  | length n =>
    have hlt : v.length < n := by
      by_contra hle
      rw [readBody, if_pos (Nat.not_lt.mp hle)] at h
      cases h
    have htake : v.take n = v := List.take_of_length_le (Nat.le_of_lt hlt)
    have hdrop : v.drop n = [] := List.drop_eq_nil_of_le (Nat.le_of_lt hlt)
    simp only [readBody, pullBody, hdrop, htake, List.nil_append, List.length_append,
      List.take_append, List.drop_append, BodyRead.mk.injEq, BodyKind.length.injEq]
    refine ⟨?_, by omega, ?_, ?_⟩
    · split_ifs <;> first | rfl | omega
    · rw [List.take_eq_take_min]
    · rcases Nat.le_total (n - v.length) d.length with hle | hle
      · rw [Nat.min_eq_left hle]
      · rw [Nat.min_eq_right hle, List.drop_eq_nil_of_le hle, List.drop_length]
  | close => rfl
  | chunked r =>
    have hincr := chunkFeeder_incremental.run_ext ⟨r.state, v, .needMore⟩ d
    simp only [readBody, ChunkReader.consumeWithin] at h hlen
    simp only [readBody, pullBody, ChunkReader.consume, ChunkReader.consumeWithin]
    generalize (chunkFeeder none).run ⟨r.state, v, .needMore⟩ = out at h hlen hincr ⊢
    obtain ⟨o, st, rest, status⟩ := out
    obtain rfl : status = .needMore := h
    simp only [chunkFeeder, Feeder.feed] at hincr
    have hshort := @chunkFeeder_run_short maxHeaderBytes ⟨st, rest ++ d, .needMore⟩ hlen
    simp only [chunkFeeder] at hshort ⊢
    rw [hshort, hincr]

/-- More of a body only adds to what has been decoded, and behind its end it adds nothing. -/
theorem readBody_extends (kind : BodyKind) (v d : Bytes) :
    ∃ more, (readBody kind (v ++ d)).data = (readBody kind v).data ++ more ∧
      ((readBody kind v).step ≠ .needMore → more = [] ∧
        (readBody kind (v ++ d)).step = (readBody kind v).step ∧
        (readBody kind (v ++ d)).rest = (readBody kind v).rest ++ d) := by
  cases kind with
  | length n =>
    refine ⟨d.take (n - v.length), List.take_append, ?_⟩
    intro h
    have hle : n ≤ v.length := by
      by_contra hlt
      simp only [readBody, if_neg hlt, ne_eq, not_true_eq_false] at h
    have hle' : n ≤ (v ++ d).length := by
      rw [List.length_append]
      omega
    refine ⟨?_, ?_, ?_⟩
    · rw [Nat.sub_eq_zero_of_le hle, List.take_zero]
    · simp only [readBody, if_pos hle, if_pos hle']
    · exact List.drop_append_of_le_length hle
  | close => exact ⟨d, rfl, fun h => absurd rfl h⟩
  | chunked r =>
    have hincr := chunkFeeder_incremental.run_ext ⟨r.state, v, .needMore⟩ d
    simp only [readBody, ChunkReader.consumeWithin]
    generalize (chunkFeeder none).run ⟨r.state, v, .needMore⟩ = out at hincr ⊢
    obtain ⟨o, st, rest, status⟩ := out
    have hall : (chunkFeeder none).run ⟨r.state, v ++ d, .needMore⟩ =
        (o ++ ((chunkFeeder none).run ⟨st, rest ++ d, status⟩).1,
          ((chunkFeeder none).run ⟨st, rest ++ d, status⟩).2) := hincr
    rw [hall]
    refine ⟨_, rfl, ?_⟩
    intro h
    have hstop : (chunkFeeder none).step ⟨st, rest ++ d, status⟩ = none := chunkStep_stopped h
    rw [(chunkFeeder none).run_none hstop]
    exact ⟨rfl, rfl, rfl⟩

/-- Of a body that the parser has just delimited nothing is read yet. -/
theorem readBody_nil {status : ℕ} {isHead : Bool} {headers : Headers} {framing : Framing}
    (h : responseFraming status isHead headers = some framing) :
    readBody (framingToKind framing) [] =
      { step := .needMore, body := framingToKind framing, data := [], rest := [] } := by
  unfold responseFraming at h
  split_ifs at h with hbody hchunked
  · obtain rfl := Option.some.inj h
    rfl
  · split at h
    · cases h
    · next n hn hcl =>
      obtain rfl := Option.some.inj h
      have hpos : n ≠ 0 := hn
      simp [framingToKind, readBody, hpos]
    · obtain rfl := Option.some.inj h
      rfl

end Read

end Rewriter

/-- The body bytes that a text carries, decoded if it is chunked. -/
def decodeText (coded : Bool) (text : Bytes) : Bytes :=
  if coded then ((chunkFeeder none).run ⟨.size [], text, .needMore⟩).1 else text

/-- Whatever follows it, the text carries `data` first. -/
def SpellsBody (coded : Bool) (text data : Bytes) : Prop :=
  ∀ rest, decodeText coded (text ++ rest) = data ++ decodeText coded rest

section Spell

variable {coded : Bool} {text text' data data' : Bytes}

theorem SpellsBody.append (h : SpellsBody coded text data) (h' : SpellsBody coded text' data') :
    SpellsBody coded (text ++ text') (data ++ data') := by
  intro rest
  rw [List.append_assoc, h, h', List.append_assoc]

theorem SpellsBody.decode (h : SpellsBody coded text data) : decodeText coded text = data := by
  have hall := h []
  have hnil : decodeText coded [] = [] := by cases coded <;> rfl
  rwa [List.append_nil, hnil, List.append_nil] at hall

/-- A chunk carries its data. -/
theorem spells_rechunk (h : data.length < usizeSize) : SpellsBody true (rechunk data) data := by
  intro rest
  unfold rechunk
  split_ifs with hnil
  · rw [hnil]
    rfl
  obtain ⟨b, t, rfl⟩ := List.exists_cons_of_ne_nil hnil
  obtain ⟨line, hline, hlf⟩ := (sizeLine_rechunk h).line
  have hsize := chunkSize_sizeLine (sizeLine_rechunk h)
  rw [hline] at hsize ⊢
  have hread : readLine none [] (line ++ [LF] ++ (b :: t) ++ CRLF ++ rest) =
      .line (line ++ [LF]) ((b :: t) ++ (CRLF ++ rest)) := by
    have hpos := position_line hlf ((b :: t) ++ (CRLF ++ rest))
    have hsplit : line ++ [LF] ++ (b :: t) ++ CRLF ++ rest =
        line ++ LF :: ((b :: t) ++ (CRLF ++ rest)) := by simp
    rw [hsplit, readLine, hpos]
    simp only [List.nil_append, LineRead.line.injEq]
    constructor
    · rw [List.take_length_add_append]
      rfl
    · rw [List.drop_length_add_append]
      rfl
  have hfirst : (chunkFeeder none).step
      ⟨.size [], line ++ [LF] ++ (b :: t) ++ CRLF ++ rest, .needMore⟩ =
      some ([], ⟨.data (t.length + 1), (b :: t) ++ (CRLF ++ rest), .needMore⟩) := by
    simp only [chunkFeeder, chunkStep, hread, hsize]
    rfl
  have hdata : (chunkFeeder none).step
      ⟨.data (t.length + 1), (b :: t) ++ (CRLF ++ rest), .needMore⟩ =
      some (b :: t, ⟨.data 0, CRLF ++ rest, .needMore⟩) := by
    simp [chunkFeeder, chunkStep]
  have hzero : (chunkFeeder none).step ⟨.data 0, CRLF ++ rest, .needMore⟩ =
      some ([], ⟨.dataCrlf, CRLF ++ rest, .needMore⟩) := rfl
  have hcrlf : (chunkFeeder none).step ⟨.dataCrlf, CRLF ++ rest, .needMore⟩ =
      some ([], ⟨.size [], rest, .needMore⟩) := rfl
  simp only [decodeText, if_true]
  rw [(chunkFeeder none).run_some hfirst, (chunkFeeder none).run_some hdata,
    (chunkFeeder none).run_some hzero, (chunkFeeder none).run_some hcrlf]
  rfl

/-- Behind the last chunk nothing is read. -/
theorem decode_lastChunk (rest : Bytes) : decodeText true (ascii "0\r\n\r\n" ++ rest) = [] := by
  have hlast : Chunked 3 (ascii "0\r\n\r\n") [] := by
    have htext : ascii "0\r\n\r\n" = ascii "0\r\n" ++ ([] : List Bytes).flatten ++ CRLF := by decide
    rw [htext]
    exact .last sizeLine_zero (by decide) (by simp)
  exact Rewriter.Chunked.run hlast rest

end Spell

end Adwarden.Tls
