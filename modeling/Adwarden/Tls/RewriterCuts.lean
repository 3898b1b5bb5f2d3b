import Adwarden.Tls.HeadEnd
import Adwarden.Tls.HtmlStream

/-! Whether what the rewriter makes of an HTML response depends on the pieces that the response
arrives in. -/
namespace Adwarden.Tls
open Adwarden.Lib

namespace Rewriter

/-- The body in what is written of a response, if a whole head has been written. -/
def decodedBody (coded : Bool) (out : Bytes) : Option Bytes :=
  (findHeaderEnd out).map fun n => decodeText coded (out.drop n)

/-- What is written of the pieces. -/
def fed (p : Profile) (rw : Rewriter) (ds : List Bytes) : Except Panic Bytes :=
  (rw.runOps p (ds.map .response)).map fun o => o.1.flatMap RespEmit.render

/-- The length that the head of an injected response is given. -/
def newLength (p : Profile) (clOriginal : Option ℕ) (blob : Bytes) : Except Panic (Option ℕ) :=
  match clOriginal with
  | some cl => (usizeAdd p cl blob.length).map some
  | none => .ok none

/-- A payload that `set_cosmetic` has provisioned and a vector holds, between responses. -/
structure Provisioned (rw : Rewriter) : Prop where
  awaits : rw.Awaits
  payload : ∃ css js, (css ≠ [] ∨ js ≠ []) ∧ rw.blob = (rw.setCosmetic css js).blob
  fits : rw.blob.length < 2 ^ 63
  resp : rw.resp = .head
  empty : rw.respBuf = []

/-- However the stream is cut, what is written decodes to the same body; and where the marker is in
its first 64 KiB, nothing is inserted. -/
structure CutIndependent (p : Profile) (rw : Rewriter) (r : HtmlStream) : Prop where
  same : ∀ ds es, CutInto maxFeed r.stream ds → CutInto maxFeed r.stream es →
    ∃ out out', rw.fed p ds = .ok out ∧ rw.fed p es = .ok out' ∧
      decodedBody r.coded out = decodedBody r.coded out'
  marked : contains (r.body.take maxAnchorScan) marker = true → ∀ ds, CutInto maxFeed r.stream ds →
    ∃ out, rw.fed p ds = .ok out ∧ ∀ body, decodedBody r.coded out = some body → body = r.body

/-- Wherever the first decision may fall it is the same, the marker makes it one to insert nothing,
and the new length of an injected response can be computed. -/
structure OneDecision (p : Profile) (rw : Rewriter) (r : HtmlStream) : Prop where
  one : ∀ o o', r.MayCome o → r.MayCome o' → o = o'
  marked : contains (r.body.take maxAnchorScan) marker = true → ∀ a, ¬ r.MayCome (some (some a))
  counted : ∀ a, r.MayCome (some (some a)) →
    ∃ n, newLength p (contentLength r.headers) rw.blob = .ok n

/-- A body with the payload where the decision puts it. -/
def placed (blob : Bytes) (o : Option ℕ) (data : Bytes) : Bytes :=
  match o with
  | some a => data.take a ++ blob ++ data.drop a
  | none => data

/-- The body bytes read so far, written with the payload. -/
def placedEmit (kind : BodyKind) (blob : Bytes) (o : Option ℕ) (data : Bytes) : RespEmit :=
  match o with
  | some a => bodyEmit kind (data.take a) blob (data.drop a)
  | none => bodyEmit kind data [] []

namespace HtmlStream

def scanOf (r : HtmlStream) (q : BodyRead) : BodyScan :=
  { origHead := r.raw, scan := q.data, body := q.body, clOriginal := contentLength r.headers }

/-- The rewriter that has nothing decided when `w` of the stream has arrived. -/
def awaiting (r : HtmlStream) (base : Rewriter) (w : Bytes) : Rewriter :=
  if w.length < r.raw.length then { base with resp := .head, respBuf := w }
  else base.within (.buffer (r.scanOf (r.read (w.drop r.raw.length))))
    (r.read (w.drop r.raw.length)).rest

/-- The head that is written for a decision. -/
def headFor (r : HtmlStream) (p : Profile) (blob : Bytes) (o : Option ℕ) : Except Panic Bytes :=
  match o with
  | some _ => (newLength p (contentLength r.headers) blob).map (editResponseHead r.raw)
  | none => .ok r.raw

/-- `out` is written of the response, once `o` is decided and `w` of the stream has arrived. -/
inductive Committed (r : HtmlStream) (base : Rewriter) (o : Option ℕ) :
    Rewriter → (w out : Bytes) → Prop
  | streaming {head text v : Bytes} (hhead : ∀ x, findHeaderEnd (head ++ x) = some head.length)
      (hs : (r.read v).step = .needMore) (ho : ∀ a, o = some a → a ≤ (r.read v).data.length)
      (ht : SpellsBody r.coded text (placed base.blob o (r.read v).data)) :
      Committed r base o (base.within (.stream (r.read v).body) (r.read v).rest) (r.raw ++ v)
        (head ++ text)
  | ended {head text v : Bytes} (hhead : ∀ x, findHeaderEnd (head ++ x) = some head.length)
      (hs : (r.read v).step = .done)
      (ht : decodeText r.coded text = placed base.blob o (r.read v).data) :
      Committed r base o (base.within .head []) (r.raw ++ v) (head ++ text)
  | failed {rw : Rewriter} {head text v : Bytes} (hd : rw.disabled = true)
      (hhead : ∀ x, findHeaderEnd (head ++ x) = some head.length)
      (hs : (r.read v).step = .error)
      (ht : ∀ x, decodeText r.coded (text ++ x) = placed base.blob o (r.read v).data) :
      Committed r base o rw (r.raw ++ v) (head ++ text)
  | oversized {rw : Rewriter} {w : Bytes} (hd : rw.disabled = true) (hbuf : rw.respBuf = [])
      (ho : o = none) : Committed r base o rw w w

end HtmlStream

section Placed

variable {blob data : Bytes} {o : Option ℕ}

theorem placed_append (h : ∀ a, o = some a → a ≤ data.length) (more : Bytes) :
    placed blob o (data ++ more) = placed blob o data ++ more := by
  cases o with
  | none => rfl
  | some a =>
    have ha := h a rfl
    simp only [placed, List.take_append_of_le_length ha, List.drop_append_of_le_length ha,
      List.append_assoc]

theorem placed_length (blob data : Bytes) (o : Option ℕ) :
    (placed blob o data).length ≤ data.length + blob.length := by
  cases o with
  | none => exact Nat.le_add_right _ _
  | some a =>
    simp only [placed, List.length_append, List.length_take, List.length_drop]
    omega

theorem spells_bodyEmit {kind : BodyKind} {pre insert post : Bytes}
    (h : (pre ++ insert ++ post).length < usizeSize) :
    SpellsBody (isChunkedKind kind) (bodyEmit kind pre insert post).render
      (pre ++ insert ++ post) := by
  unfold bodyEmit
  cases isChunkedKind kind with
  | true => exact spells_rechunk h
  | false => exact fun rest => rfl

theorem spells_placedEmit {kind : BodyKind} (h : data.length + blob.length < usizeSize) :
    SpellsBody (isChunkedKind kind) (placedEmit kind blob o data).render (placed blob o data) := by
  have hle := placed_length blob data o
  cases o with
  | some a => exact spells_bodyEmit (Nat.lt_of_le_of_lt hle h)
  | none =>
    have hspell := @spells_bodyEmit kind data [] []
      (by simpa [placed] using Nat.lt_of_le_of_lt hle h)
    simpa [placedEmit, placed] using hspell

/-- The end of a body that is written anew carries nothing, and nothing is read behind it. -/
theorem decode_lastEmits (kind : BodyKind) {x : Bytes} (h : isChunkedKind kind = true ∨ x = []) :
    decodeText (isChunkedKind kind) ((lastEmits kind).flatMap RespEmit.render ++ x) = [] := by
  cases hk : isChunkedKind kind with
  | true =>
    have hlast : (lastEmits kind).flatMap RespEmit.render = ascii "0\r\n\r\n" := by
      rw [lastEmits, if_pos hk]
      rfl
    rw [hlast]
    exact decode_lastChunk x
  | false =>
    have hlast : lastEmits kind = [] := by rw [lastEmits, hk]; rfl
    rw [hlast]
    rcases h with h | rfl
    · rw [hk] at h
      cases h
    · rfl

end Placed

section Calls

variable {p : Profile} {base : Rewriter} {r : HtmlStream} {q : BodyRead} {v d : Bytes}

theorem driveResponse_of_panic {rw : Rewriter} {e : Panic} (h : rw.stepResponse p = .error e) :
    rw.driveResponse p = .error e := by
  have hs : (responseMachine p).step (.running rw) = some ([], .panicked e) := by
    simp [responseMachine, responseLoop, h]
  have hnone : (responseMachine p).step (.panicked e) = none := rfl
  unfold driveResponse
  rw [(responseMachine p).run_some hs, (responseMachine p).run_none hnone]

theorem driveResponse_idle (base : Rewriter) :
    (base.within .head []).driveResponse p = .ok ([], base.within .head []) := by
  have hstep : (base.within .head []).stepResponse p =
      .ok { rw := base.within .head [], go := false } := rfl
  rw [driveResponse_of_step hstep]
  rfl

theorem step_scan_wait (he : (q.pull d).step ≠ .error)
    (hdec : decideAnchor (q.pull d).data ((q.pull d).step == .done) = none) :
    (base.within (.buffer (r.scanOf q)) (q.rest ++ d)).stepResponse p =
      .ok { rw := base.within (.buffer (r.scanOf (q.pull d))) (q.pull d).rest, go := false } := by
  have hdone := decideAnchor_waits hdec
  rw [hdone] at hdec
  simp only [BodyRead.pull] at he hdec hdone
  simp only [stepResponse, within, stepResponseBuffer, HtmlStream.scanOf, BodyRead.pull, if_neg he,
    Bool.false_or, hdec, hdone]

theorem stepResponseBuffer_error {rw : Rewriter} {bs : BodyScan}
    (he : (pullBody bs.body rw.respBuf).step = .error) :
    rw.stepResponseBuffer p bs =
      .ok { emits := [.head bs.origHead bs.origHead,
              .chunk (bs.scan ++ (pullBody bs.body rw.respBuf).bytes) [] [], .lastChunk]
            rw := { rw with respBuf := (pullBody bs.body rw.respBuf).rest, disabled := true }
            go := false } := by
  unfold stepResponseBuffer
  rw [if_pos he]

theorem step_scan_error (he : (q.pull d).step = .error) :
    (base.within (.buffer (r.scanOf q)) (q.rest ++ d)).stepResponse p =
      .ok { emits := [.head r.raw r.raw, .chunk (q.pull d).data [] [], .lastChunk]
            rw := { base.within .head (q.pull d).rest with disabled := true }, go := false } :=
  @stepResponseBuffer_error p (base.within .head (q.rest ++ d)) (r.scanOf q) he

theorem step_scan_decided {o : Option ℕ} (he : (q.pull d).step ≠ .error)
    (hdec : decideAnchor (q.pull d).data ((q.pull d).step == .done) = some o) :
    (base.within (.buffer (r.scanOf q)) (q.rest ++ d)).stepResponse p =
      (r.headFor p base.blob o).map fun text =>
        { emits := .head r.raw text :: placedEmit (q.pull d).body base.blob o (q.pull d).data ::
            (afterScan (q.pull d).body ((q.pull d).step == .done)).1
          rw := base.within (afterScan (q.pull d).body ((q.pull d).step == .done)).2 (q.pull d).rest
          go := true } := by
  simp only [BodyRead.pull] at he hdec
  simp only [stepResponse, within, stepResponseBuffer, HtmlStream.scanOf, BodyRead.pull, if_neg he,
    Bool.false_or, hdec]
  cases o with
  | none => rfl
  | some a =>
    simp only [HtmlStream.headFor, newLength]
    cases contentLength r.headers with
    | none => rfl
    | some cl =>
      simp only [placedEmit]
      cases usizeAdd p cl base.blob.length <;> rfl

/-- Nothing but the body arrives, so the call ends in the tail of the body, or behind it. -/
theorem afterScan_ends (p : Profile) (base : Rewriter) {kind : BodyKind} {buf : Bytes}
    (he : (pullBody kind buf).step ≠ .error)
    (hrest : (pullBody kind buf).step = .done → (pullBody kind buf).rest = []) :
    ∃ new, (base.within
        (afterScan (pullBody kind buf).body ((pullBody kind buf).step == .done)).2
        (pullBody kind buf).rest).driveResponse p =
      .ok (new, if (pullBody kind buf).step = .done then base.within .head []
        else base.within (.stream (pullBody kind buf).body) (pullBody kind buf).rest) ∧
      new.flatMap RespEmit.render = [] ∧
      (afterScan (pullBody kind buf).body ((pullBody kind buf).step == .done)).1 =
        if (pullBody kind buf).step = .done then lastEmits kind else [] := by
  obtain ⟨new, hdrive, -, hnew, hafter⟩ := afterScan_drive p base he
  refine ⟨new, ?_, hnew, hafter⟩
  rw [hdrive]
  by_cases hs : (pullBody kind buf).step = .done
  · rw [if_pos hs, if_pos hs, hrest hs, driveResponse_idle]
    exact congrArg (fun l => Except.ok (l, _)) (List.append_nil new)
  · rw [if_neg hs, if_neg hs]
    exact congrArg (fun l => Except.ok (l, _)) (List.append_nil new)

theorem pullBody_bytes_le {kind : BodyKind} {buf : Bytes} (h : buf.length ≤ maxBodyCapture) :
    (pullBody kind buf).bytes.length ≤ buf.length := by
  cases kind with
  | length n => exact Nat.le_trans (List.length_take_le _ _) (Nat.min_le_right _ _)
  | close => exact Nat.le_refl _
  | chunked reader =>
    rw [pullBody_bytes h]
    have hlen := (consume_rest reader buf).2
    simp only [pullBody]
    omega

/-- What one piece adds to the body bytes. -/
theorem pull_data (h : q.rest.length ≤ 2) (hd : d.length ≤ maxFeed) :
    (q.pull d).data.length ≤ q.data.length + (2 + maxFeed) := by
  have hfeed : 2 + maxFeed ≤ maxBodyCapture := by decide
  have hlen : (q.rest ++ d).length ≤ 2 + maxFeed := by
    rw [List.length_append]
    omega
  have hle := @pullBody_bytes_le q.body (q.rest ++ d) (Nat.le_trans hlen hfeed)
  rw [BodyRead.pull, List.length_append]
  omega

end Calls

section Commit

variable {p : Profile} {base : Rewriter} {r : HtmlStream} {v w d : Bytes} {o : Option ℕ}

theorem HtmlStream.read_coded (r : HtmlStream) (v : Bytes) :
    isChunkedKind (r.read v).body = r.coded := readBody_chunked

theorem HtmlStream.coded_of_error (h : (r.read v).step = .error) : r.coded = true := by
  unfold HtmlStream.coded
  unfold HtmlStream.read at h
  generalize r.kind = kind at h ⊢
  cases kind with
  | length n =>
    simp only [readBody] at h
    split_ifs at h
  | close => cases h
  | chunked reader => rfl

theorem HtmlStream.headFor_ends {text : Bytes} (h : r.headFor p base.blob o = .ok text)
    (x : Bytes) : findHeaderEnd (text ++ x) = some text.length := by
  cases o with
  | none =>
    obtain rfl := Except.ok.inj h
    exact findHeaderEnd_append x r.ended
  | some a =>
    simp only [HtmlStream.headFor] at h
    cases hn : newLength p (contentLength r.headers) base.blob with
    | error e =>
      rw [hn] at h
      cases h
    | ok n =>
      rw [hn] at h
      obtain rfl := Except.ok.inj h
      exact findHeaderEnd_edited r.ended r.parsed n x

/-- What is written of the bytes read so far fits in a chunk. -/
theorem HtmlStream.scanned_lt (hmore : (r.read v).step = .needMore)
    (hshort : decideAnchor (r.read v).data false = none) (hd : d.length ≤ maxFeed)
    (hfits : base.blob.length < 2 ^ 63) :
    ((r.read v).pull d).data.length + base.blob.length < usizeSize := by
  have hle := @pull_data (r.read v) d (readBody_room hmore) hd
  have hscan := decideAnchor_short hshort
  have hsize : maxAnchorScan + (2 + maxFeed) + 2 ^ 63 < usizeSize := by decide
  omega

/-- The piece on which a chunked body turns out to be broken. -/
theorem scan_breaks (hmore : (r.read v).step = .needMore) (hd : d.length ≤ maxFeed)
    (hlen : ((r.read v).pull d).data.length + base.blob.length < usizeSize)
    (he : ((r.read v).pull d).step = .error) :
    ∃ emits rw',
      (base.within (.buffer (r.scanOf (r.read v))) ((r.read v).rest ++ d)).driveResponse p =
        .ok (emits, rw') ∧
      r.Committed base none rw' (r.raw ++ (v ++ d)) (emits.flatMap RespEmit.render) := by
  have hread : r.read (v ++ d) = (r.read v).pull d := readBody_append hmore hd
  have htrue : r.coded = true := HtmlStream.coded_of_error (hread ▸ he)
  have htext : ∀ x, decodeText r.coded (rechunk ((r.read v).pull d).data ++
      ascii "0\r\n\r\n" ++ x) = placed base.blob none (r.read (v ++ d)).data := by
    intro x
    rw [htrue, List.append_assoc, spells_rechunk (by omega), decode_lastChunk, hread,
      List.append_nil]
    rfl
  have hfailed := @HtmlStream.Committed.failed r base none
    { base.within .head ((r.read v).pull d).rest with disabled := true } r.raw _ _ rfl
    (fun x => findHeaderEnd_append x r.ended) (hread ▸ he) htext
  refine ⟨_, _, driveResponse_of_step (step_scan_error he), ?_⟩
  simpa [RespEmit.render] using hfailed

/-- The piece on which the decision falls, where the new head can be written. -/
theorem scan_places {text : Bytes} (hpre : v ++ d <+: r.wire)
    (hmore : (r.read v).step = .needMore) (hd : d.length ≤ maxFeed)
    (hlen : ((r.read v).pull d).data.length + base.blob.length < usizeSize)
    (he : ((r.read v).pull d).step ≠ .error)
    (hdec : decideAnchor ((r.read v).pull d).data (((r.read v).pull d).step == .done) = some o)
    (hhead : r.headFor p base.blob o = .ok text) :
    ∃ emits rw',
      (base.within (.buffer (r.scanOf (r.read v))) ((r.read v).rest ++ d)).driveResponse p =
        .ok (emits, rw') ∧
      r.Committed base o rw' (r.raw ++ (v ++ d)) (emits.flatMap RespEmit.render) := by
  have hread : r.read (v ++ d) = (r.read v).pull d := readBody_append hmore hd
  have hrest : ((r.read v).pull d).step = .done → ((r.read v).pull d).rest = [] := by
    intro hs
    rw [← hread] at hs ⊢
    exact (HtmlStream.done_end hpre hs).2
  have hspell := @spells_placedEmit base.blob ((r.read v).pull d).data o ((r.read v).pull d).body
    hlen
  have hcoded : isChunkedKind ((r.read v).pull d).body = r.coded := by
    rw [← hread]
    exact r.read_coded _
  rw [hcoded] at hspell
  have hends := @HtmlStream.headFor_ends p base r o text hhead
  have hstep := @step_scan_decided p base r _ _ _ he hdec
  rw [hhead] at hstep
  obtain ⟨new, hdrive, hnew, hafter⟩ := afterScan_ends p base he hrest
  have hcall : (base.within (.buffer (r.scanOf (r.read v)))
      ((r.read v).rest ++ d)).driveResponse p =
      .ok (.head r.raw text :: placedEmit ((r.read v).pull d).body base.blob o
          ((r.read v).pull d).data :: ((afterScan ((r.read v).pull d).body
            (((r.read v).pull d).step == .done)).1 ++ new),
        if ((r.read v).pull d).step = .done then base.within .head []
        else base.within (.stream ((r.read v).pull d).body) ((r.read v).pull d).rest) := by
    rw [driveResponse_of_step hstep, if_pos rfl]
    exact congrArg (Except.map _) hdrive
  have hall : ((afterScan ((r.read v).pull d).body
      (((r.read v).pull d).step == .done)).1 ++ new).flatMap RespEmit.render =
      (if ((r.read v).pull d).step = .done then lastEmits (r.read v).body
        else []).flatMap RespEmit.render := by
    rw [List.flatMap_append, hnew, List.append_nil]
    exact congrArg _ hafter
  refine ⟨_, _, hcall, ?_⟩
  by_cases hs : ((r.read v).pull d).step = .done
  · rw [if_pos hs] at hall ⊢
    have htext : decodeText r.coded
        ((placedEmit ((r.read v).pull d).body base.blob o ((r.read v).pull d).data).render ++
          (lastEmits (r.read v).body).flatMap RespEmit.render) =
        placed base.blob o (r.read (v ++ d)).data := by
      have hlast := @decode_lastEmits (r.read v).body [] (Or.inr rfl)
      rw [r.read_coded, List.append_nil] at hlast
      rw [hspell, hlast, hread, List.append_nil]
    have hended := @HtmlStream.Committed.ended r base o text _ _ hends (hread ▸ hs) htext
    simpa [hall] using hended
  · rw [if_neg hs] at hall ⊢
    have hstreaming := @HtmlStream.Committed.streaming r base o text _ (v ++ d) hends
      (hread ▸ Step.eq_needMore he hs)
      (by
        rintro a rfl
        rw [hread]
        exact decideAnchor_le hdec)
      (by
        rw [hread]
        exact hspell)
    rw [hread] at hstreaming
    simpa [hall] using hstreaming

/-- The piece on which the decision falls. -/
theorem scan_commits (hpre : v ++ d <+: r.wire) (hmore : (r.read v).step = .needMore)
    (hshort : decideAnchor (r.read v).data false = none) (hd : d.length ≤ maxFeed)
    (hfits : base.blob.length < 2 ^ 63) (hdec : r.decision (r.raw ++ (v ++ d)) = some o) :
    (∃ e, r.headFor p base.blob o = .error e ∧
      (base.within (.buffer (r.scanOf (r.read v))) ((r.read v).rest ++ d)).driveResponse p =
        .error e) ∨
    ∃ text emits rw', r.headFor p base.blob o = .ok text ∧
      (base.within (.buffer (r.scanOf (r.read v))) ((r.read v).rest ++ d)).driveResponse p =
        .ok (emits, rw') ∧
      r.Committed base o rw' (r.raw ++ (v ++ d)) (emits.flatMap RespEmit.render) := by
  have hread : r.read (v ++ d) = (r.read v).pull d := readBody_append hmore hd
  have hlen := @HtmlStream.scanned_lt base _ _ _ hmore hshort hd hfits
  rw [r.decision_body, hread] at hdec
  by_cases he : ((r.read v).pull d).step = .error
  · rw [if_pos he] at hdec
    obtain rfl := Option.some.inj hdec
    exact Or.inr ⟨r.raw, (scan_breaks hmore hd hlen he).imp fun _ => .imp fun _ h => ⟨rfl, h⟩⟩
  · rw [if_neg he] at hdec
    cases hhead : r.headFor p base.blob o with
    | error e =>
      have hstep := @step_scan_decided p base r _ _ _ he hdec
      rw [hhead] at hstep
      exact Or.inl ⟨e, rfl, driveResponse_of_panic hstep⟩
    | ok text =>
      obtain ⟨emits, rw', hrun, hnext⟩ := scan_places hpre hmore hd hlen he hdec hhead
      exact Or.inr ⟨text, emits, rw', rfl, hrun, hnext⟩

/-- What a piece adds to the body bytes is written behind what has been written of them. -/
theorem HtmlStream.spells_pull {text : Bytes} (hmore : (r.read v).step = .needMore)
    (hd : d.length ≤ maxFeed) (ho : ∀ a, o = some a → a ≤ (r.read v).data.length)
    (ht : SpellsBody r.coded text (placed base.blob o (r.read v).data)) :
    SpellsBody r.coded (text ++ (bodyEmit (r.read v).body
        (pullBody (r.read v).body ((r.read v).rest ++ d)).bytes [] []).render)
      (placed base.blob o (r.read (v ++ d)).data) := by
  obtain ⟨more, hdata⟩ : ∃ more, (pullBody (r.read v).body ((r.read v).rest ++ d)).bytes = more :=
    ⟨_, rfl⟩
  have hread : r.read (v ++ d) = (r.read v).pull d := readBody_append hmore hd
  have hlen : (more ++ [] ++ []).length < usizeSize := by
    have hfeed : 2 + maxFeed ≤ maxBodyCapture := by decide
    have hsize : 2 + maxFeed < usizeSize := by decide
    have hbuf : ((r.read v).rest ++ d).length ≤ 2 + maxFeed := by
      rw [List.length_append]
      exact Nat.add_le_add (readBody_room hmore) hd
    have hle := @pullBody_bytes_le (r.read v).body _ (Nat.le_trans hbuf hfeed)
    rw [hdata] at hle
    simp only [List.append_nil]
    omega
  have hspell := @spells_bodyEmit (r.read v).body more [] [] hlen
  rw [r.read_coded, List.append_nil, List.append_nil] at hspell
  rw [hread, BodyRead.pull, hdata, placed_append ho]
  exact ht.append hspell

/-- A piece that arrives in the rest of the body. -/
theorem HtmlStream.Committed.feed_streaming {head text : Bytes} (hbase : base.Awaits)
    (hpre : v ++ d <+: r.wire) (hd : d.length ≤ maxFeed)
    (hhead : ∀ x, findHeaderEnd (head ++ x) = some head.length)
    (hmore : (r.read v).step = .needMore) (ho : ∀ a, o = some a → a ≤ (r.read v).data.length)
    (ht : SpellsBody r.coded text (placed base.blob o (r.read v).data)) :
    ∃ emits rw', (base.within (.stream (r.read v).body) (r.read v).rest).feedResponse p d =
        .ok (emits, rw') ∧
      r.Committed base o rw' (r.raw ++ (v ++ d))
        (head ++ (text ++ emits.flatMap RespEmit.render)) := by
  have hread : r.read (v ++ d) = (r.read v).pull d := readBody_append hmore hd
  have hrun : (base.within (.stream (r.read v).body) (r.read v).rest).feedResponse p d =
      (base.within (.stream (r.read v).body) ((r.read v).rest ++ d)).driveResponse p :=
    @feedResponse_running p (base.within (.stream (r.read v).body) (r.read v).rest) hbase.active
      hbase.followed d
  have hall := HtmlStream.spells_pull hmore hd ho ht
  obtain ⟨more, hdata⟩ : ∃ more, (pullBody (r.read v).body ((r.read v).rest ++ d)).bytes = more :=
    ⟨_, rfl⟩
  rw [hdata] at hall
  rw [hrun]
  cases hs : (pullBody (r.read v).body ((r.read v).rest ++ d)).step with
  | needMore =>
    have hstep : (base.within (.stream (r.read v).body) ((r.read v).rest ++ d)).stepResponse p =
        .ok { emits := [bodyEmit (r.read v).body more [] []]
              rw := base.within (.stream ((r.read v).pull d).body) ((r.read v).pull d).rest
              go := false } := by
      simp only [stepResponse, within, stepResponseStream, hs, hdata, BodyRead.pull]
    have hreach : ∀ a, o = some a → a ≤ (r.read (v ++ d)).data.length := by
      intro a ha
      rw [hread, BodyRead.pull, List.length_append]
      exact Nat.le_trans (ho a ha) (Nat.le_add_right _ _)
    refine ⟨_, _, driveResponse_of_step hstep, ?_⟩
    have hnext := HtmlStream.Committed.streaming hhead (by rw [hread]; exact hs) hreach hall
    rw [hread] at hnext
    simpa using hnext
  | done =>
    obtain ⟨-, hrest⟩ := HtmlStream.done_end hpre (by rw [hread]; exact hs)
    rw [hread] at hrest
    have hstep : (base.within (.stream (r.read v).body) ((r.read v).rest ++ d)).stepResponse p =
        .ok { emits := bodyEmit (r.read v).body more [] [] :: lastEmits (r.read v).body
              rw := base.within .head [], go := true } := by
      simp only [BodyRead.pull] at hrest
      simp only [stepResponse, within, stepResponseStream, hs, hdata, hrest]
    have hcall : (base.within (.stream (r.read v).body) ((r.read v).rest ++ d)).driveResponse p =
        .ok (bodyEmit (r.read v).body more [] [] :: lastEmits (r.read v).body ++ [],
          base.within .head []) := by
      rw [driveResponse_of_step hstep, if_pos rfl, driveResponse_idle]
      rfl
    have hlast := @decode_lastEmits (r.read v).body [] (Or.inr rfl)
    rw [r.read_coded, List.append_nil] at hlast
    refine ⟨_, _, hcall, ?_⟩
    have hnext := @HtmlStream.Committed.ended r base o head _ (v ++ d) hhead
      (by rw [hread]; exact hs) ((hall _).trans (by rw [hlast, List.append_nil]))
    simpa using hnext
  | error =>
    have hstep : (base.within (.stream (r.read v).body) ((r.read v).rest ++ d)).stepResponse p =
        .ok { emits := bodyEmit (r.read v).body more [] [] :: lastEmits (r.read v).body
              rw := { base.within .head ((r.read v).pull d).rest with disabled := true }
              go := false } := by
      simp only [stepResponse, within, stepResponseStream, hs, hdata, BodyRead.pull]
    have hfailed : (r.read (v ++ d)).step = .error := by
      rw [hread]
      exact hs
    have hlast : ∀ x, decodeText r.coded
        ((lastEmits (r.read v).body).flatMap RespEmit.render ++ x) = [] := by
      intro x
      rw [← r.read_coded v]
      exact decode_lastEmits _
        (Or.inl ((r.read_coded v).trans (HtmlStream.coded_of_error hfailed)))
    refine ⟨_, _, driveResponse_of_step hstep, ?_⟩
    have hnext := @HtmlStream.Committed.failed r base o
      { base.within .head ((r.read v).pull d).rest with disabled := true } head
      (text ++ (bodyEmit (r.read v).body more [] []).render ++
        (lastEmits (r.read v).body).flatMap RespEmit.render) (v ++ d) rfl hhead hfailed
      (by
        intro x
        rw [List.append_assoc, hall, hlast, List.append_nil])
    simpa using hnext

/-- Nothing of the stream is left behind the body, and an empty piece changes nothing. -/
theorem HtmlStream.Committed.feed_ended {head text : Bytes} (hbase : base.Awaits)
    (hpre : v ++ d <+: r.wire) (hhead : ∀ x, findHeaderEnd (head ++ x) = some head.length)
    (hs : (r.read v).step = .done)
    (ht : decodeText r.coded text = placed base.blob o (r.read v).data) :
    (base.within .head []).feedResponse p d = .ok ([], base.within .head []) ∧
      r.Committed base o (base.within .head []) (r.raw ++ (v ++ d)) (head ++ text) := by
  obtain ⟨rfl, -⟩ := HtmlStream.done_end ((List.prefix_append v d).trans hpre) hs
  obtain rfl : d = [] := by
    have hle := hpre.length_le
    rw [List.length_append] at hle
    exact List.eq_nil_of_length_eq_zero (by omega)
  have hrun : (base.within .head []).feedResponse p [] = (base.within .head []).driveResponse p :=
    @feedResponse_running p (base.within .head []) hbase.active hbase.followed []
  constructor
  · rw [hrun]
    exact driveResponse_idle base
  · rw [List.append_nil]
    exact .ended hhead hs ht

/-- A rewriter that has given up on the body passes on the rest, where nothing is read. -/
theorem HtmlStream.Committed.feed_failed {rw : Rewriter} {head text : Bytes}
    (hdis : rw.disabled = true) (hhead : ∀ x, findHeaderEnd (head ++ x) = some head.length)
    (hs : (r.read v).step = .error)
    (ht : ∀ x, decodeText r.coded (text ++ x) = placed base.blob o (r.read v).data) :
    r.Committed base o { rw with respBuf := [] } (r.raw ++ (v ++ d))
      (head ++ (text ++ (rw.respBuf ++ d))) := by
  obtain ⟨more, hdata, hstop⟩ := readBody_extends r.kind v d
  obtain ⟨rfl, hstep, -⟩ := hstop (by
    intro hmore
    have hs' : (readBody r.kind v).step = .error := hs
    rw [hs'] at hmore
    cases hmore)
  rw [List.append_nil] at hdata
  have hsame : (r.read (v ++ d)).data = (r.read v).data := hdata
  have hbehind : ∀ x, decodeText r.coded (text ++ (rw.respBuf ++ d) ++ x) =
      placed base.blob o (r.read (v ++ d)).data := by
    intro x
    rw [List.append_assoc, ht, hsame]
  exact @HtmlStream.Committed.failed r base o { rw with respBuf := [] } head _ (v ++ d) hdis hhead
    (hstep.trans hs) hbehind

/-- What is written stays the response with what is decided, whatever piece comes next. -/
theorem HtmlStream.Committed.feed {rw : Rewriter} {out : Bytes} (hbase : base.Awaits)
    (h : r.Committed base o rw w out) (hpre : w ++ d <+: r.stream) (hd : d.length ≤ maxFeed) :
    ∃ emits rw', rw.feedResponse p d = .ok (emits, rw') ∧
      r.Committed base o rw' (w ++ d) (out ++ emits.flatMap RespEmit.render) := by
  have hbody : ∀ {v : Bytes}, r.raw ++ v ++ d <+: r.stream → v ++ d <+: r.wire := by
    intro v hv
    rw [List.append_assoc] at hv
    exact (List.prefix_append_right_inj r.raw).mp hv
  cases h with
  | @streaming head text v hhead hmore ho ht =>
    obtain ⟨emits, rw', hrun, hnext⟩ :=
      HtmlStream.Committed.feed_streaming (p := p) hbase (hbody hpre) hd hhead hmore ho ht
    refine ⟨emits, rw', hrun, ?_⟩
    rw [List.append_assoc, List.append_assoc]
    exact hnext
  | @ended head text v hhead hs ht =>
    obtain ⟨hrun, hsame⟩ := HtmlStream.Committed.feed_ended (p := p) hbase (hbody hpre) hhead hs ht
    refine ⟨_, _, hrun, ?_⟩
    rw [List.append_assoc]
    simpa using hsame
  | @failed _ head text v hdis hhead hs ht =>
    refine ⟨_, _, feedResponse_disabled p hdis d, ?_⟩
    have hnext := HtmlStream.Committed.feed_failed (d := d) hdis hhead hs ht
    simpa [RespEmit.render] using hnext
  | oversized hdis hbuf ho =>
    refine ⟨_, _, feedResponse_disabled p hdis d, ?_⟩
    have hnext := @HtmlStream.Committed.oversized r base o { rw with respBuf := [] } (w ++ d) hdis
      rfl ho
    simpa [RespEmit.render, hbuf] using hnext

theorem responseFraming_chunked {status : ℕ} {isHead : Bool} {headers : Headers}
    {reader : ChunkReader}
    (h : responseFraming status isHead headers = some (.chunked reader)) : reader = {} := by
  unfold responseFraming at h
  split_ifs at h
  · exact (Framing.chunked.inj (Option.some.inj h)).symm
  · split at h <;> cases h

theorem HtmlStream.decode_wire (r : HtmlStream) : decodeText r.coded r.wire = r.body := by
  have hframed := r.framed
  have halone := r.alone
  unfold HtmlStream.coded HtmlStream.body HtmlStream.read HtmlStream.kind
  generalize r.framing = framing at hframed halone ⊢
  cases framing with
  | length n =>
    have hle : r.wire.length ≤ n := by
      by_contra hlt
      have hdone : (readBody (framingToKind (.length n)) r.wire).step = .done := by
        simp only [framingToKind, readBody]
        rw [if_pos (by omega)]
      have hnil := congrArg List.length (halone hdone)
      simp only [framingToKind, readBody, List.length_drop, List.length_nil] at hnil
      omega
    exact (List.take_of_length_le hle).symm
  | untilClose => rfl
  | chunked reader =>
    obtain rfl := responseFraming_chunked hframed
    rfl

theorem HtmlStream.Committed.decodes {rw : Rewriter} {out : Bytes}
    (h : r.Committed base o rw r.stream out) :
    decodedBody r.coded out = some (placed base.blob o r.body) := by
  have hbehind : ∀ {head text v : Bytes}, r.stream = r.raw ++ v →
      (∀ x, findHeaderEnd (head ++ x) = some head.length) →
      decodeText r.coded text = placed base.blob o (r.read v).data →
      decodedBody r.coded (head ++ text) = some (placed base.blob o r.body) := by
    intro head text v hv hhead ht
    obtain rfl := List.append_cancel_left hv
    rw [decodedBody, hhead, Option.map_some, List.drop_left, ht]
    rfl
  generalize hw : r.stream = w at h
  cases h with
  | streaming hhead hs ho ht => exact hbehind hw hhead ht.decode
  | ended hhead hs ht => exact hbehind hw hhead ht
  | failed hd hhead hs ht =>
    have hend := ht []
    rw [List.append_nil] at hend
    exact hbehind hw hhead hend
  | oversized hd hbuf ho =>
    rw [← hw, ho, decodedBody, HtmlStream.stream, findHeaderEnd_append r.wire r.ended,
      Option.map_some, List.drop_left, r.decode_wire]
    rfl

end Commit

section Run

variable {p : Profile} {base : Rewriter} {r : HtmlStream} {v w d : Bytes} {o : Option ℕ}

theorem HtmlStream.awaiting_head (h : w.length < r.raw.length) :
    r.awaiting base w = { base with resp := .head, respBuf := w } := by
  rw [HtmlStream.awaiting, if_pos h]

theorem HtmlStream.awaiting_body (r : HtmlStream) (base : Rewriter) (v : Bytes) :
    r.awaiting base (r.raw ++ v) =
      base.within (.buffer (r.scanOf (r.read v))) (r.read v).rest := by
  have hle : ¬ (r.raw ++ v).length < r.raw.length := by
    rw [List.length_append]
    omega
  rw [HtmlStream.awaiting, if_neg hle, List.drop_left]

theorem HtmlStream.awaiting_running (hbase : base.Awaits) (d : Bytes) :
    (r.awaiting base w).feedResponse p d =
      { r.awaiting base w with respBuf := (r.awaiting base w).respBuf ++ d }.driveResponse p := by
  apply feedResponse_running
  · unfold HtmlStream.awaiting
    split_ifs <;> exact hbase.active
  · unfold HtmlStream.awaiting
    split_ifs <;> exact hbase.followed

/-- A piece that reaches the body is scanned behind what has been scanned of it. -/
theorem HtmlStream.awaiting_enters (hbase : base.Awaits) (hw : w ++ d <+: r.stream)
    (hle : r.raw.length ≤ (w ++ d).length) (hnone : r.decision w = none) :
    ∃ v d', w ++ d = r.raw ++ (v ++ d') ∧ d'.length ≤ d.length ∧ v ++ d' <+: r.wire ∧
      (r.read v).step = .needMore ∧ decideAnchor (r.read v).data false = none ∧
      (r.awaiting base w).feedResponse p d =
        (base.within (.buffer (r.scanOf (r.read v))) ((r.read v).rest ++ d')).driveResponse p := by
  rw [HtmlStream.awaiting_running hbase]
  obtain ⟨b, hb, hwire⟩ := HtmlStream.split_of_le hw hle
  by_cases hlt : w.length < r.raw.length
  · refine ⟨[], b, hb, ?_, hwire, ?_, ?_, ?_⟩
    · have hlen := congrArg List.length hb
      rw [List.length_append, List.length_append] at hlen
      omega
    · rw [r.read_nil]
    · rw [r.read_nil]
      show decideAnchor [] false = none
      decide
    · have hframed : responseFraming r.status
          (({ base with resp := .head } : Rewriter).pendingHead.headD false) r.headers =
          some r.framing := by
        rw [show ({ base with resp := .head } : Rewriter).pendingHead.headD false = false from
          hbase.bodied]
        exact r.framed
      have hdrive := @driveResponse_injectable p { base with resp := .head } r.raw b r.status
        r.headers r.framing rfl r.ended r.parsed hframed r.html
      rw [HtmlStream.awaiting_head hlt, r.read_nil]
      simp only [hb]
      exact hdrive
  · obtain ⟨v, rfl, -⟩ := HtmlStream.split_of_le ((List.prefix_append w d).trans hw)
      (Nat.not_lt.mp hlt)
    obtain ⟨hmore, hscan⟩ := HtmlStream.read_waits hnone
    rw [List.append_assoc] at hb
    obtain rfl := List.append_cancel_left hb
    refine ⟨v, d, List.append_assoc _ _ _, Nat.le_refl _, hwire, hmore, hscan, ?_⟩
    rw [r.awaiting_body]
    rfl

/-- Inside the head a piece is held, or the head is given up on. -/
theorem HtmlStream.awaiting_inside (hbase : base.Awaits) (hw : w ++ d <+: r.stream)
    (hlt : (w ++ d).length < r.raw.length) :
    (r.awaiting base w).feedResponse p d =
      .ok (if maxHeaderBytes < (w ++ d).length then
        ([.body (w ++ d) [] []],
          { base with resp := .head, respBuf := [], disabled := true })
        else ([], r.awaiting base (w ++ d))) := by
  have hhead : w.length < r.raw.length := by
    rw [List.length_append] at hlt
    omega
  obtain ⟨x, hx⟩ : w ++ d <+: r.raw :=
    List.prefix_of_prefix_length_le hw (List.prefix_append r.raw r.wire) (Nat.le_of_lt hlt)
  have hend := r.ended
  rw [← hx] at hend hlt
  have hnone := findHeaderEnd_prefix_none hend hlt
  rw [hx] at hlt
  rw [HtmlStream.awaiting_running hbase, HtmlStream.awaiting_head hhead,
    HtmlStream.awaiting_head hlt]
  have hstep : ({ base with resp := .head, respBuf := w ++ d } : Rewriter).stepResponse p =
      .ok (if maxHeaderBytes < (w ++ d).length then
        ({ base with resp := .head, respBuf := w ++ d } : Rewriter).disableFlushResp []
        else { rw := { base with resp := .head, respBuf := w ++ d }, go := false }) := by
    simp only [stepResponse, stepResponseHead, hnone]
  by_cases hover : maxHeaderBytes < (w ++ d).length
  · rw [if_pos hover] at hstep ⊢
    exact driveResponse_of_step hstep
  · rw [if_neg hover] at hstep ⊢
    exact driveResponse_of_step hstep

theorem awaiting_waits (hbase : base.Awaits) (hw : w ++ d <+: r.stream) (hd : d.length ≤ maxFeed)
    (hnone : r.decision w = none) (hdec : r.decision (w ++ d) = none) :
    (r.awaiting base w).feedResponse p d = .ok ([], r.awaiting base (w ++ d)) := by
  by_cases hlt : (w ++ d).length < r.raw.length
  · rw [HtmlStream.decision_head hlt] at hdec
    split_ifs at hdec with hover
    rw [HtmlStream.awaiting_inside hbase hw hlt, if_neg hover]
  · obtain ⟨v, d', hsplit, hle, -, hmore, -, hdrive⟩ :=
      @HtmlStream.awaiting_enters p base r w d hbase hw (Nat.not_lt.mp hlt) hnone
    have hread : r.read (v ++ d') = (r.read v).pull d' :=
      readBody_append hmore (Nat.le_trans hle hd)
    rw [hsplit, r.decision_body, hread] at hdec
    split_ifs at hdec with he
    rw [hdrive, hsplit, r.awaiting_body, driveResponse_of_step (step_scan_wait he hdec), hread]
    rfl

theorem awaiting_commits (hbase : base.Awaits) (hfits : base.blob.length < 2 ^ 63)
    (hw : w ++ d <+: r.stream) (hd : d.length ≤ maxFeed) (hnone : r.decision w = none)
    (hdec : r.decision (w ++ d) = some o) :
    (∃ e, r.headFor p base.blob o = .error e ∧
      (r.awaiting base w).feedResponse p d = .error e) ∨
    ∃ text emits rw', r.headFor p base.blob o = .ok text ∧
      (r.awaiting base w).feedResponse p d = .ok (emits, rw') ∧
      r.Committed base o rw' (w ++ d) (emits.flatMap RespEmit.render) := by
  by_cases hlt : (w ++ d).length < r.raw.length
  · rw [HtmlStream.decision_head hlt] at hdec
    split_ifs at hdec with hover
    obtain rfl := Option.some.inj hdec
    have hfeed := @HtmlStream.awaiting_inside p base r w d hbase hw hlt
    rw [if_pos hover] at hfeed
    refine Or.inr ⟨r.raw, _, _, rfl, hfeed, ?_⟩
    have hover' := @HtmlStream.Committed.oversized r base none
      { base with resp := .head, respBuf := [], disabled := true } (w ++ d) rfl rfl rfl
    simpa [RespEmit.render] using hover'
  · obtain ⟨v, d', hsplit, hle, hwire, hmore, hscan, hdrive⟩ :=
      @HtmlStream.awaiting_enters p base r w d hbase hw (Nat.not_lt.mp hlt) hnone
    rw [hsplit] at hdec ⊢
    rw [hdrive]
    exact scan_commits hwire hmore hscan (Nat.le_trans hle hd) hfits hdec

/-- What a run makes of the rest of the stream, given the decision it comes to. -/
def Yields (r : HtmlStream) (p : Profile) (base : Rewriter)
    (run : Except Panic (List RespEmit × Rewriter)) : (o : Option (Option ℕ)) → Prop
  | none => ∃ rw', run = .ok ([], rw')
  | some o =>
    (∃ e, r.headFor p base.blob o = .error e ∧ run = .error e) ∨
    ∃ text emits rw', r.headFor p base.blob o = .ok text ∧ run = .ok (emits, rw') ∧
      decodedBody r.coded (emits.flatMap RespEmit.render) = some (placed base.blob o r.body)

theorem committed_run {rw : Rewriter} {out : Bytes} {ds : List Bytes} (hbase : base.Awaits)
    (h : r.Committed base o rw w out) (hwhole : w ++ ds.flatten = r.stream)
    (hds : ∀ d ∈ ds, d.length ≤ maxFeed) :
    ∃ emits rw', rw.runOps p (ds.map .response) = .ok (emits, rw') ∧
      decodedBody r.coded (out ++ emits.flatMap RespEmit.render) =
        some (placed base.blob o r.body) := by
  induction ds generalizing rw w out with
  | nil =>
    rw [List.flatten_nil, List.append_nil] at hwhole
    subst hwhole
    refine ⟨[], rw, rfl, ?_⟩
    rw [List.flatMap_nil, List.append_nil]
    exact h.decodes
  | cons d ds ih =>
    rw [List.flatten_cons, ← List.append_assoc] at hwhole
    have hd := hds d (List.mem_cons_self ..)
    obtain ⟨emits, rw', hfeed, hnext⟩ := h.feed (p := p) hbase ⟨_, hwhole⟩ hd
    obtain ⟨emits', rw'', hrun, hdecoded⟩ :=
      ih hnext hwhole fun e he => hds e (List.mem_cons_of_mem _ he)
    refine ⟨emits ++ emits', rw'', ?_, ?_⟩
    · simp only [List.map_cons, runOps, hfeed, hrun, Except.map]
    · rw [List.flatMap_append, ← List.append_assoc]
      exact hdecoded

theorem runOps_yields {ds : List Bytes} (hbase : base.Awaits) (hfits : base.blob.length < 2 ^ 63)
    (hnone : r.decision w = none) (hwhole : w ++ ds.flatten = r.stream)
    (hds : ∀ d ∈ ds, d.length ≤ maxFeed) :
    Yields r p base ((r.awaiting base w).runOps p (ds.map .response))
      (firstDecision r.decision w ds) := by
  induction ds generalizing w with
  | nil => exact ⟨_, rfl⟩
  | cons d ds ih =>
    rw [List.flatten_cons, ← List.append_assoc] at hwhole
    have hd := hds d (List.mem_cons_self ..)
    have hds' : ∀ e ∈ ds, e.length ≤ maxFeed := fun e he => hds e (List.mem_cons_of_mem _ he)
    cases hdec : r.decision (w ++ d) with
    | none =>
      have hfeed := @awaiting_waits p base r w d hbase ⟨_, hwhole⟩ hd hnone hdec
      have hrest := ih hdec hwhole hds'
      rw [firstDecision_none hdec]
      have hrun : (r.awaiting base w).runOps p ((d :: ds).map .response) =
          (r.awaiting base (w ++ d)).runOps p (ds.map .response) := by
        simp only [List.map_cons, runOps, hfeed]
        cases (r.awaiting base (w ++ d)).runOps p (ds.map .response) <;> rfl
      rw [hrun]
      exact hrest
    | some o =>
      rw [firstDecision_some hdec]
      rcases @awaiting_commits p base r w d o hbase hfits ⟨_, hwhole⟩ hd hnone hdec with
        ⟨e, hhead, hfeed⟩ | ⟨text, emits, rw', hhead, hfeed, hcommit⟩
      · refine Or.inl ⟨e, hhead, ?_⟩
        simp only [List.map_cons, runOps, hfeed]
      · obtain ⟨emits', rw'', hrun, hdecoded⟩ := @committed_run p base r _ o rw' _ ds hbase hcommit
          hwhole hds'
        refine Or.inr ⟨text, emits ++ emits', rw'', hhead, ?_, ?_⟩
        · simp only [List.map_cons, runOps, hfeed, hrun, Except.map]
        · rw [List.flatMap_append]
          exact hdecoded

/-- What is written of a cut of the stream depends on what the cut comes to decide. -/
theorem fed_cut {rw : Rewriter} {ds : List Bytes} (hrw : rw.Provisioned)
    (hds : CutInto maxFeed r.stream ds) :
    (∃ a e, firstDecision r.decision [] ds = some (some a) ∧
      newLength p (contentLength r.headers) rw.blob = .error e ∧ rw.fed p ds = .error e) ∨
    ∃ out, rw.fed p ds = .ok out ∧ decodedBody r.coded out =
        (firstDecision r.decision [] ds).map (placed rw.blob · r.body) ∧
      ∀ a, firstDecision r.decision [] ds = some (some a) →
        ∃ n, newLength p (contentLength r.headers) rw.blob = .ok n := by
  have hpos := (findHeaderEnd_le r.ended).1
  have hlt : ([] : Bytes).length < r.raw.length := by
    rw [List.length_nil]
    omega
  have hnone : r.decision [] = none := by
    rw [HtmlStream.decision_head hlt, if_neg (by decide)]
  have hstart : r.awaiting rw [] = rw := by
    rw [HtmlStream.awaiting_head hlt]
    obtain ⟨active, blob, disabled, req, reqBuf, resp, respBuf, pendingHead⟩ := rw
    obtain rfl : resp = .head := hrw.resp
    obtain rfl : respBuf = [] := hrw.empty
    rfl
  have hyields := @runOps_yields p rw r [] ds hrw.awaits hrw.fits hnone hds.whole hds.pieces
  rw [hstart] at hyields
  have hnil : decodedBody r.coded [] = none := rfl
  unfold fed
  cases hfirst : firstDecision r.decision [] ds with
  | none =>
    rw [hfirst] at hyields
    obtain ⟨rw', hrun⟩ := hyields
    refine Or.inr ⟨[], by rw [hrun]; rfl, hnil, ?_⟩
    intro a ha
    cases ha
  | some o =>
    rw [hfirst] at hyields
    rcases hyields with ⟨e, hhead, hrun⟩ | ⟨text, emits, rw', hhead, hrun, hdecoded⟩
    · cases o with
      | none => cases hhead
      | some a =>
        refine Or.inl ⟨a, e, rfl, ?_, by rw [hrun]; rfl⟩
        simp only [HtmlStream.headFor] at hhead
        cases hn : newLength p (contentLength r.headers) rw.blob with
        | error e' =>
          rw [hn] at hhead
          exact congrArg Except.error (Except.error.inj hhead)
        | ok n =>
          rw [hn] at hhead
          cases hhead
    · refine Or.inr ⟨_, by rw [hrun]; rfl, hdecoded, ?_⟩
      intro a ha
      obtain rfl := Option.some.inj ha
      simp only [HtmlStream.headFor] at hhead
      cases hn : newLength p (contentLength r.headers) rw.blob with
      | error e' =>
        rw [hn] at hhead
        cases hhead
      | ok n => exact ⟨n, rfl⟩

end Run

section Places

variable {blob body : Bytes} {a b : ℕ}

/-- How a payload starts. -/
def opening : Bytes := ascii "<!--adw-cosmetic"

theorem Provisioned.opening {rw : Rewriter} (h : rw.Provisioned) : opening <+: rw.blob := by
  obtain ⟨css, js, hne, hblob⟩ := h.payload
  have hcomment : ascii "<!--adw-cosmetic-->" = Rewriter.opening ++ ascii "-->" := by decide
  rw [hblob, setCosmetic, if_pos (hne.imp id id), hcomment]
  simp only [List.append_assoc]
  exact List.prefix_append _ _

/-- A text in front of which the payload can be put as well as behind it starts like the payload. -/
theorem opening_of_commute {mid : Bytes} (ho : opening <+: blob) (hne : mid ≠ [])
    (h : blob ++ mid = mid ++ blob) : opening <+: mid := by
  obtain ⟨rest, rfl⟩ := ho
  have hlen : opening.length = 16 := by decide
  by_cases hle : opening.length ≤ mid.length
  · have hfront : opening <+: mid ++ (opening ++ rest) := by
      rw [← h, List.append_assoc]
      exact List.prefix_append _ _
    exact List.prefix_of_prefix_length_le hfront (List.prefix_append _ _) hle
  · -- Otherwise the payload has its first byte once more within its opening.
    have hlt : mid.length < opening.length := Nat.not_le.mp hle
    have hget : (opening ++ rest ++ mid)[mid.length]? =
        (mid ++ (opening ++ rest))[mid.length]? := by rw [h]
    rw [List.append_assoc, List.getElem?_append_left hlt,
      List.getElem?_append_right (Nat.le_refl _), Nat.sub_self] at hget
    have hfirst : (opening ++ rest)[0]? = some 60 := by
      rw [List.getElem?_append_left (by rw [hlen]; decide)]
      decide
    rw [hfirst] at hget
    have honce : ∀ k < 16, k ≠ 0 → opening[k]? ≠ some 60 := by decide
    exact absurd hget (honce _ (by omega) fun h0 => hne (List.eq_nil_of_length_eq_zero h0))

/-- The payload in another place makes another body, if it is not in the body already. -/
theorem placed_ne_of_lt (ho : opening <+: blob) (hlt : a < b) (hb : b ≤ body.length)
    (hm : contains (body.take b) marker = false) :
    placed blob (some a) body ≠ placed blob (some b) body := by
  intro heq
  obtain ⟨mid, hmid⟩ : ∃ mid, (body.take b).drop a = mid := ⟨_, rfl⟩
  have hlen : mid.length = b - a := by
    rw [← hmid, List.length_drop, List.length_take, Nat.min_eq_left hb]
  have hne : mid ≠ [] := by
    rintro rfl
    rw [List.length_nil] at hlen
    omega
  have htake : body.take b = body.take a ++ mid := by
    have hsplit := List.take_append_drop a (body.take b)
    rw [List.take_take, Nat.min_eq_left (Nat.le_of_lt hlt), hmid] at hsplit
    exact hsplit.symm
  have hdrop : body.drop a = mid ++ body.drop b := by
    have hsplit := List.take_append_drop b body
    rw [htake, List.append_assoc] at hsplit
    have hsplit' := List.take_append_drop a body
    exact List.append_cancel_left (hsplit'.trans hsplit.symm)
  simp only [placed, htake, hdrop, List.append_assoc, List.append_cancel_left_eq] at heq
  rw [← List.append_assoc, ← List.append_assoc, List.append_cancel_right_eq] at heq
  obtain ⟨rest, rfl⟩ := opening_of_commute ho hne heq
  have hfound : contains (body.take b) marker = true := by
    have hcomment : opening = ascii "<!--" ++ marker := by decide
    obtain ⟨j, hj, -⟩ := findSubsequence_infix (body.take a ++ ascii "<!--") rest
      (show findSubsequence marker marker = some 0 by decide)
    rw [htake, hcomment]
    apply Option.isSome_iff_exists.mpr
    exact ⟨j, by simpa using hj⟩
  rw [hm] at hfound
  cases hfound

theorem placed_some_ne (hne : blob ≠ []) : placed blob (some a) body ≠ body := by
  intro heq
  have hlen := congrArg List.length heq
  have hpos := List.length_pos_iff.mpr hne
  simp only [placed, List.length_append, List.length_take, List.length_drop] at hlen
  omega

end Places

section Main

variable {p : Profile} {rw : Rewriter} {r : HtmlStream} {a b : ℕ}

/-- Where the payload may go, there is no marker before it. -/
theorem mayCome_clean (h : r.MayCome (some (some a))) :
    a ≤ r.body.length ∧ contains (r.body.take a) marker = false := by
  generalize ho : some (some a) = o at h
  cases h with
  | undecided => cases ho
  | @decided w d o' hw hle hpre hdec =>
    obtain rfl := Option.some.inj ho
    by_cases hlt : (w ++ d).length < r.raw.length
    · rw [HtmlStream.decision_head hlt] at hdec
      split_ifs at hdec
      cases hdec
    · obtain ⟨v, hv, hwire⟩ := HtmlStream.split_of_le hpre (Nat.not_lt.mp hlt)
      rw [hv, r.decision_body] at hdec
      split_ifs at hdec with he
      · cases hdec
      have hscan := decideAnchor_le hdec
      have hbody := HtmlStream.prefix_body hwire
      refine ⟨Nat.le_trans hscan hbody.length_le, ?_⟩
      by_contra hm
      rw [Bool.not_eq_false] at hm
      obtain ⟨more, hmore⟩ := hbody
      rw [← hmore, List.take_append_of_le_length hscan] at hm
      have hall := contains_append ((r.read v).data.drop a) hm
      rw [List.take_append_drop] at hall
      unfold decideAnchor at hdec
      rw [if_pos (Or.inr hall)] at hdec
      cases hdec

theorem placed_injective (hrw : rw.Provisioned) (ha : r.MayCome (some (some a)))
    (hb : r.MayCome (some (some b)))
    (heq : placed rw.blob (some a) r.body = placed rw.blob (some b) r.body) : a = b := by
  obtain ⟨hale, ham⟩ := mayCome_clean ha
  obtain ⟨hble, hbm⟩ := mayCome_clean hb
  rcases Nat.lt_trichotomy a b with hlt | rfl | hlt
  · exact absurd heq (placed_ne_of_lt hrw.opening hlt hble hbm)
  · rfl
  · exact absurd heq.symm (placed_ne_of_lt hrw.opening hlt hale ham)

theorem Provisioned.blob_ne_nil {rw : Rewriter} (h : rw.Provisioned) : rw.blob ≠ [] := by
  intro hnil
  have hopen := h.opening
  rw [hnil, List.prefix_nil] at hopen
  exact absurd hopen (by decide)

/-- What is written tells what was decided. -/
theorem written_injective {rw : Rewriter} {r : HtmlStream} {o o' : Option (Option ℕ)}
    (hrw : rw.Provisioned) (ho : r.MayCome o) (ho' : r.MayCome o')
    (h : o.map (placed rw.blob · r.body) = o'.map (placed rw.blob · r.body)) : o = o' := by
  match o, o', ho, ho', h with
  | none, none, _, _, _ => rfl
  | none, some _, _, _, heq => cases heq
  | some _, none, _, _, heq => cases heq
  | some none, some none, _, _, _ => rfl
  | some none, some (some b), _, _, heq =>
    exact absurd (Option.some.inj heq).symm (placed_some_ne hrw.blob_ne_nil)
  | some (some a), some none, _, _, heq =>
    exact absurd (Option.some.inj heq) (placed_some_ne hrw.blob_ne_nil)
  | some (some a), some (some b), ha, hb, heq =>
    rw [placed_injective hrw ha hb (Option.some.inj heq)]

/-- What is written of an HTML response does not depend on the pieces that it arrives in exactly if
the first decision is the same wherever it may fall. -/
theorem cut_independent_iff (p : Profile) (rw : Rewriter) (r : HtmlStream) (hrw : rw.Provisioned) :
    CutIndependent p rw r ↔ OneDecision p rw r := by
  constructor
  · intro h
    have hwritten : ∀ {o}, r.MayCome o → ∃ ds, CutInto maxFeed r.stream ds ∧
        firstDecision r.decision [] ds = o ∧ ∃ out, rw.fed p ds = .ok out ∧
          decodedBody r.coded out = o.map (placed rw.blob · r.body) ∧
          ∀ a, o = some (some a) → ∃ n, newLength p (contentLength r.headers) rw.blob = .ok n := by
      intro o ho
      obtain ⟨ds, hds, rfl⟩ := HtmlStream.mayCome_iff.mp ho
      obtain ⟨out, -, hout, -⟩ := h.same ds ds hds hds
      rcases @fed_cut p r rw ds hrw hds with ⟨a, e, -, -, herr⟩ | ⟨out', hout', hbody, hlen⟩
      · rw [hout] at herr
        cases herr
      · exact ⟨ds, hds, rfl, out', hout', hbody, hlen⟩
    refine ⟨?_, ?_, ?_⟩
    · intro o o' ho ho'
      obtain ⟨ds, hds, -, out, hout, hbody, -⟩ := hwritten ho
      obtain ⟨es, hes, -, out', hout', hbody', -⟩ := hwritten ho'
      obtain ⟨_, _, hfed, hfed', hsame⟩ := h.same ds es hds hes
      obtain rfl := Except.ok.inj (hout.symm.trans hfed)
      obtain rfl := Except.ok.inj (hout'.symm.trans hfed')
      rw [hbody, hbody'] at hsame
      exact written_injective hrw ho ho' hsame
    · intro hm a ha
      obtain ⟨ds, hds, -, out, hout, hbody, -⟩ := hwritten ha
      obtain ⟨out', hout', hkept⟩ := h.marked hm ds hds
      obtain rfl := Except.ok.inj (hout.symm.trans hout')
      exact placed_some_ne hrw.blob_ne_nil (hkept _ hbody)
    · intro a ha
      obtain ⟨-, -, -, -, -, -, hlen⟩ := hwritten ha
      exact hlen a rfl
  · rintro ⟨hone, hmarked, hcounted⟩
    have hwritten : ∀ {ds}, CutInto maxFeed r.stream ds → ∃ out, rw.fed p ds = .ok out ∧
        decodedBody r.coded out =
          (firstDecision r.decision [] ds).map (placed rw.blob · r.body) := by
      intro ds hds
      rcases @fed_cut p r rw ds hrw hds with ⟨a, e, hfirst, hlen, -⟩ | ⟨out, hout, hbody, -⟩
      · obtain ⟨n, hn⟩ := hcounted a (HtmlStream.mayCome_iff.mpr ⟨ds, hds, hfirst⟩)
        rw [hlen] at hn
        cases hn
      · exact ⟨out, hout, hbody⟩
    constructor
    · intro ds es hds hes
      obtain ⟨out, hout, hbody⟩ := hwritten hds
      obtain ⟨out', hout', hbody'⟩ := hwritten hes
      have hsame := hone _ _ (HtmlStream.mayCome_iff.mpr ⟨ds, hds, rfl⟩)
        (HtmlStream.mayCome_iff.mpr ⟨es, hes, rfl⟩)
      exact ⟨out, out', hout, hout', by rw [hbody, hbody', hsame]⟩
    · intro hm ds hds
      obtain ⟨out, hout, hbody⟩ := hwritten hds
      refine ⟨out, hout, ?_⟩
      intro body hdecoded
      rw [hbody] at hdecoded
      cases hfirst : firstDecision r.decision [] ds with
      | none =>
        rw [hfirst] at hdecoded
        cases hdecoded
      | some o =>
        rw [hfirst] at hdecoded
        cases o with
        | none => exact (Option.some.inj hdecoded).symm
        | some a =>
          exact absurd (HtmlStream.mayCome_iff.mpr ⟨ds, hds, hfirst⟩) (hmarked hm a)

end Main

section Pages

private def provisioned : Rewriter := ({} : Rewriter).setCosmetic [] (Str.lit "x")

private theorem provisioned_provisioned : provisioned.Provisioned where
  awaits := ⟨by decide, rfl, rfl⟩
  payload := ⟨[], Str.lit "x", Or.inr (by decide), rfl⟩
  fits := by decide +kernel
  resp := rfl
  empty := rfl

private def headPage : HtmlStream where
  raw := ascii "HTTP/1.1 200 OK\r\nContent-Type: text/html\r\nContent-Length: 6\r\n\r\n"
  status := 200
  headers := [(Str.lit "Content-Type", Str.lit "text/html"),
    (Str.lit "Content-Length", Str.lit "6")]
  framing := .length 6
  wire := ascii "<head>"
  ended := by decide +kernel
  parsed := by decide +kernel
  framed := by decide +kernel
  html := by decide +kernel
  alone := by decide +kernel

private theorem headPage_decision : headPage.decision headPage.stream = some (some 6) ∧
    ∀ n ∈ List.range headPage.stream.length, headPage.decision (headPage.stream.take n) = none := by
  decide +kernel

private theorem headPage_mayCome {o : Option (Option ℕ)} (h : headPage.MayCome o) :
    o = some (some 6) := by
  obtain ⟨hwhole, hearly⟩ := headPage_decision
  cases h with
  | undecided h =>
    rw [h.1] at hwhole
    cases hwhole
  | @decided w d a hw hle hpre h =>
    rw [← h]
    have htake : w ++ d = headPage.stream.take (w ++ d).length := List.prefix_iff_eq_take.mp hpre
    rcases Nat.lt_or_ge (w ++ d).length headPage.stream.length with hlt | hge
    · have hnone := hearly _ (List.mem_range.mpr hlt)
      rw [← htake, h] at hnone
      cases hnone
    · rw [htake, List.take_of_length_le hge]
      exact hwhole

/-- A page that ends with its anchor. -/
theorem cut_independent_head : CutIndependent .release provisioned headPage := by
  apply (cut_independent_iff .release provisioned headPage provisioned_provisioned).mpr
  refine ⟨?_, ?_, ?_⟩
  · intro o o' ho ho'
    rw [headPage_mayCome ho, headPage_mayCome ho']
  · intro hm
    exact absurd hm (by decide +kernel)
  · exact fun a ha => ⟨_, rfl⟩

private def markedPage : HtmlStream where
  raw := ascii "HTTP/1.1 200 OK\r\nContent-Type: text/html\r\nContent-Length: 18\r\n\r\n"
  status := 200
  headers := [(Str.lit "Content-Type", Str.lit "text/html"),
    (Str.lit "Content-Length", Str.lit "18")]
  framing := .length 18
  wire := ascii "<head>adw-cosmetic"
  ended := by decide +kernel
  parsed := by decide +kernel
  framed := by decide +kernel
  html := by decide +kernel
  alone := by decide +kernel

/-- A page with the marker behind its anchor: in one piece it is left alone, and cut between the two
it gets the payload. -/
theorem marked_page_injected :
    CutInto maxFeed markedPage.stream [markedPage.stream] ∧
      CutInto maxFeed markedPage.stream [markedPage.raw ++ ascii "<head>", ascii "adw-cosmetic"] ∧
      contains (markedPage.body.take maxAnchorScan) marker = true ∧
      (provisioned.fed .release [markedPage.stream]).map (decodedBody markedPage.coded) =
        .ok (some (ascii "<head>adw-cosmetic")) ∧
      (provisioned.fed .release [markedPage.raw ++ ascii "<head>", ascii "adw-cosmetic"]).map
          (decodedBody markedPage.coded) =
        .ok (some (ascii "<head>" ++ provisioned.blob ++ ascii "adw-cosmetic")) ∧
      ¬ CutIndependent .release provisioned markedPage := by
  have hone : CutInto maxFeed markedPage.stream [markedPage.stream] :=
    ⟨by decide +kernel, by decide +kernel⟩
  have htwo : CutInto maxFeed markedPage.stream
      [markedPage.raw ++ ascii "<head>", ascii "adw-cosmetic"] :=
    ⟨by decide +kernel, by decide +kernel⟩
  have hwhole : (provisioned.fed .release [markedPage.stream]).map
      (decodedBody markedPage.coded) = .ok (some (ascii "<head>adw-cosmetic")) := by
    decide +kernel
  have hcut : (provisioned.fed .release
      [markedPage.raw ++ ascii "<head>", ascii "adw-cosmetic"]).map
      (decodedBody markedPage.coded) =
      .ok (some (ascii "<head>" ++ provisioned.blob ++ ascii "adw-cosmetic")) := by
    decide +kernel
  refine ⟨hone, htwo, by decide +kernel, hwhole, hcut, ?_⟩
  intro h
  obtain ⟨out, out', hout, hout', hsame⟩ := h.same _ _ hone htwo
  rw [hout] at hwhole
  rw [hout'] at hcut
  have hdecoded : decodedBody markedPage.coded out = some (ascii "<head>adw-cosmetic") :=
    Except.ok.inj hwhole
  have hdecoded' : decodedBody markedPage.coded out' =
      some (ascii "<head>" ++ provisioned.blob ++ ascii "adw-cosmetic") := Except.ok.inj hcut
  rw [hdecoded, hdecoded'] at hsame
  exact absurd hsame (by decide +kernel)

end Pages

end Rewriter

end Adwarden.Tls
