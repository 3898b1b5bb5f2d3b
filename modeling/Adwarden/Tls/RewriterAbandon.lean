import Adwarden.Tls.RewriterInsert

/-! Injectable responses that get no payload: when what is written is what was received. -/
namespace Adwarden.Tls
open Adwarden.Lib

namespace RespEmit

/-- The payload that is written between the bytes of the stream. -/
def inserted : RespEmit → Bytes
  | .body _ insert _ => insert
  | .chunk _ insert _ => insert
  | _ => []

@[simp] theorem inserted_head (raw text : Bytes) : (head raw text).inserted = [] := rfl

@[simp] theorem render_head (raw text : Bytes) : (head raw text).render = text := rfl

end RespEmit

/-- A chunked body in its plainest form, with the data of its chunks: sizes in lower-case hex and
without extensions, and no trailer fields. -/
inductive PlainChunks : (wire : Bytes) → (chunks : List Bytes) → Prop
  | last : PlainChunks (ascii "0\r\n\r\n") []
  | chunk {data wire : Bytes} {chunks : List Bytes} (hne : data ≠ [])
      (h : PlainChunks wire chunks) :
      PlainChunks (Str.toBytes (Str.ofNatHex data.length) ++ CRLF ++ data ++ CRLF ++ wire)
        (data :: chunks)

namespace Rewriter

/-- What each piece brings of a body, up to its end. -/
def pulls : BodyKind → Bytes → List Bytes → List Pulled
  | _, _, [] => []
  | kind, buf, d :: ds =>
    let q := pullBody kind (buf ++ d)
    q :: if q.step = .needMore then pulls q.body q.rest ds else []

/-- The pieces bring a whole body, the last of them also the bytes `x` behind it. -/
inductive Brings (x : Bytes) : BodyKind → Bytes → List Bytes → Prop
  | last {kind : BodyKind} {buf d : Bytes} (hs : (pullBody kind (buf ++ d)).step = .done)
      (hr : (pullBody kind (buf ++ d)).rest = x) : Brings x kind buf [d]
  | more {kind : BodyKind} {buf d : Bytes} {ds : List Bytes}
      (hs : (pullBody kind (buf ++ d)).step = .needMore)
      (h : Brings x (pullBody kind (buf ++ d)).body (pullBody kind (buf ++ d)).rest ds) :
      Brings x kind buf (d :: ds)
  /-- A body that the connection delimits is never known to be whole. -/
  | close (hx : x = []) : Brings x .close [] []

/-- The first decision on what is scanned of the body, if any, is to insert nothing. -/
def Abandons : (scan : Bytes) → List Pulled → Prop
  | _, [] => True
  | scan, q :: qs =>
    match decideAnchor (scan ++ q.bytes) (q.step == .done) with
    | none => Abandons (scan ++ q.bytes) qs
    | some a => a = none

/-- The stretches of a body that are written together: all that was scanned when the decision
fell, and then what each piece brings. None if there is no decision. -/
def stretches (data : Pulled → Bytes) : (scan : Bytes) → List Pulled → List Bytes
  | _, [] => []
  | scan, q :: qs =>
    match decideAnchor (scan ++ data q) (q.step == .done) with
    | none => stretches data (scan ++ data q) qs
    | some _ => (scan ++ data q) :: qs.map data

section Pieces

variable {kind : BodyKind} {buf d scan : Bytes} {ds : List Bytes} {data : Pulled → Bytes}
  {q : Pulled} {qs : List Pulled}

theorem pulls_done (h : (pullBody kind (buf ++ d)).step = .done) :
    pulls kind buf (d :: ds) = [pullBody kind (buf ++ d)] := by
  simp [pulls, h]

theorem pulls_more (h : (pullBody kind (buf ++ d)).step = .needMore) :
    pulls kind buf (d :: ds) = pullBody kind (buf ++ d) ::
      pulls (pullBody kind (buf ++ d)).body (pullBody kind (buf ++ d)).rest ds := by
  simp [pulls, h]

theorem abandons_wait (h : decideAnchor (scan ++ q.bytes) (q.step == .done) = none) :
    Abandons scan (q :: qs) ↔ Abandons (scan ++ q.bytes) qs := by
  simp only [Abandons, h]

theorem abandons_decided {a : Option ℕ}
    (h : decideAnchor (scan ++ q.bytes) (q.step == .done) = some a) :
    Abandons scan (q :: qs) ↔ a = none := by
  simp only [Abandons, h]

theorem stretches_wait (h : decideAnchor (scan ++ data q) (q.step == .done) = none) :
    stretches data scan (q :: qs) = stretches data (scan ++ data q) qs := by
  simp only [stretches, h]

theorem stretches_decided {a : Option ℕ}
    (h : decideAnchor (scan ++ data q) (q.step == .done) = some a) :
    stretches data scan (q :: qs) = (scan ++ data q) :: qs.map data := by
  simp only [stretches, h]

end Pieces

/-- A stretch of body bytes as it is written. -/
def written (kind : BodyKind) (data : Bytes) : Bytes := (bodyEmit kind data [] []).render

def lastWritten (kind : BodyKind) : Bytes := (lastEmits kind).flatMap RespEmit.render

/-- What is written of a message whose scan is abandoned. -/
def writtenText (head : Bytes) (kind : BodyKind) (stretches : List Bytes) : Bytes :=
  if stretches = [] then []
  else head ++ stretches.flatMap (written kind) ++ lastWritten kind

section Pull

variable {kind : BodyKind} {buf : Bytes}

/-- Nothing more is pulled until more has arrived. -/
theorem pullBody_again (h : (pullBody kind buf).step = .needMore) :
    pullBody (pullBody kind buf).body (pullBody kind buf).rest =
      { step := .needMore, body := (pullBody kind buf).body, wire := [], decoded := [], bytes := []
        rest := (pullBody kind buf).rest } := by
  cases kind with
  | length n =>
    have hlt : n - min n buf.length ≠ 0 := by
      intro h0
      simp [pullBody, h0] at h
    have hmin : min n buf.length = buf.length := by omega
    simp [pullBody, hmin, hmin ▸ hlt]
  | close => simp [pullBody]
  | chunked r =>
    have hhalt := (chunkFeeder (some maxHeaderBytes)).run_halts ⟨r.state, buf, .needMore⟩
    simp only [pullBody, ChunkReader.consume, ChunkReader.consumeWithin] at h ⊢
    generalize (chunkFeeder (some maxHeaderBytes)).run ⟨r.state, buf, .needMore⟩ = out
      at h hhalt ⊢
    obtain ⟨o, st, rest, status⟩ := out
    obtain rfl : status = .needMore := h
    rw [(chunkFeeder (some maxHeaderBytes)).run_none hhalt]
    simp [pushCapped]

theorem pullBody_close : (pullBody kind buf).body = .close ↔ kind = .close := by
  cases kind <;> simp [pullBody]

theorem written_body : written (pullBody kind buf).body = written kind := by cases kind <;> rfl

theorem lastWritten_body : lastWritten (pullBody kind buf).body = lastWritten kind := by
  cases kind <;> rfl

end Pull

/-- What a run from inside a message writes: `emits` for the message, and then what the rewriter
makes of the bytes `x` behind it, if there is a behind. -/
def Writes (p : Profile) (base : Rewriter) (x : Bytes) (kind : BodyKind)
    (run : Except Panic (List RespEmit × Rewriter)) (emits : List RespEmit) : Prop :=
  (kind = .close ∧ ∃ rw', run = .ok (emits, rw')) ∨
    (kind ≠ .close ∧
      run = ((base.within .head x).driveResponse p).map fun o => (emits ++ o.1, o.2))

section Run

variable {p : Profile} {base : Rewriter} {x : Bytes} {kind : BodyKind}

theorem Writes.prepend {run : Except Panic (List RespEmit × Rewriter)} {emits : List RespEmit}
    (h : Writes p base x kind run emits) (new : List RespEmit) :
    Writes p base x kind (run.map fun o => (new ++ o.1, o.2)) (new ++ emits) := by
  rcases h with ⟨hk, rw', rfl⟩ | ⟨hk, rfl⟩
  · exact Or.inl ⟨hk, rw', rfl⟩
  · refine Or.inr ⟨hk, ?_⟩
    cases (base.within .head x).driveResponse p <;> simp [Except.map]

theorem Writes.body {buf : Bytes} {run : Except Panic (List RespEmit × Rewriter)}
    {emits : List RespEmit} : Writes p base x (pullBody kind buf).body run emits ↔
      Writes p base x kind run emits := by
  simp only [Writes, ne_eq, pullBody_close]

/-- A piece that is waited behind: the rest of the run goes on from there. -/
theorem runOps_wait {rw rw' : Rewriter} {d : Bytes} {new : List RespEmit} (hact : rw.active = true)
    (hd : rw.disabled = false)
    (h : driveResponse p { rw with respBuf := rw.respBuf ++ d } = .ok (new, rw'))
    (ds : List Bytes) : rw.runOps p ((d :: ds).map .response) =
      (rw'.runOps p (ds.map .response)).map fun o => (new ++ o.1, o.2) := by
  rw [List.map_cons, runOps_response hact hd, h]
  rfl

/-- A piece that goes on behind the message. -/
theorem runOps_pass {rw : Rewriter} {d : Bytes} {new : List RespEmit} (hact : rw.active = true)
    (hd : rw.disabled = false)
    (h : driveResponse p { rw with respBuf := rw.respBuf ++ d } =
      ((base.within .head x).driveResponse p).map fun o => (new ++ o.1, o.2)) :
    rw.runOps p ([d].map .response) =
      ((base.within .head x).driveResponse p).map fun o => (new ++ o.1, o.2) := by
  rw [List.map_singleton, runOps_response hact hd, h]
  cases (base.within .head x).driveResponse p <;> simp [Except.map, Except.bind, runOps]

theorem not_close_of_done {buf : Bytes} (h : (pullBody kind buf).step = .done) : kind ≠ .close := by
  rintro rfl
  simp [pullBody] at h

/-- The tail of a body is written piece by piece. -/
theorem stream_writes {buf : Bytes} {feeds : List Bytes} (hact : base.active = true)
    (hd : base.disabled = false) (h : Brings x kind buf feeds) :
    ∃ emits, Writes p base x kind
        ((base.within (.stream kind) buf).runOps p (feeds.map .response)) emits ∧
      emits.flatMap RespEmit.inserted = [] ∧
      emits.flatMap RespEmit.render =
        (pulls kind buf feeds).flatMap (fun q => written kind q.bytes) ++ lastWritten kind := by
  induction h with
  | close hx => exact ⟨[], Or.inl ⟨rfl, _, rfl⟩, rfl, rfl⟩
  | @last kind buf d hs hr =>
    have hins : (bodyEmit kind (pullBody kind (buf ++ d)).bytes [] []).inserted = [] := by
      unfold bodyEmit
      split_ifs <;> rfl
    have hlast : (lastEmits kind).flatMap RespEmit.inserted = [] := by cases kind <;> rfl
    have hstep : stepResponse p (base.within (.stream kind) (buf ++ d)) =
        .ok { emits := bodyEmit kind (pullBody kind (buf ++ d)).bytes [] [] :: lastEmits kind
              rw := base.within .head x, go := true } := by
      simp only [stepResponse, within, stepResponseStream, hs, hr]
    refine ⟨bodyEmit kind (pullBody kind (buf ++ d)).bytes [] [] :: lastEmits kind,
      Or.inr ⟨not_close_of_done hs, runOps_pass hact hd ?_⟩, ?_, ?_⟩
    · exact driveResponse_of_step hstep
    · simp [hins, hlast]
    · simp [pulls, hs, written, lastWritten]
  | @more kind buf d ds hs h ih =>
    obtain ⟨emits, hw, hins, htext⟩ := ih
    have hone : (bodyEmit kind (pullBody kind (buf ++ d)).bytes [] []).inserted = [] := by
      unfold bodyEmit
      split_ifs <;> rfl
    have hstep : stepResponse p (base.within (.stream kind) (buf ++ d)) =
        .ok { emits := [bodyEmit kind (pullBody kind (buf ++ d)).bytes [] []]
              rw := base.within (.stream (pullBody kind (buf ++ d)).body)
                (pullBody kind (buf ++ d)).rest
              go := false } := by
      simp only [stepResponse, within, stepResponseStream, hs]
    have hrun := @runOps_wait p (base.within (.stream kind) buf) _ _ _ hact hd
      (driveResponse_of_step hstep) ds
    refine ⟨[bodyEmit kind (pullBody kind (buf ++ d)).bytes [] []] ++ emits, ?_, ?_, ?_⟩
    · rw [hrun]
      apply Writes.prepend
      exact Writes.body.mp hw
    · simp [hone, hins]
    · simp only [written_body, lastWritten_body] at htext
      simp [pulls, hs, htext, written]

theorem inserted_bodyEmit (data : Bytes) : (bodyEmit kind data [] []).inserted = [] := by
  unfold bodyEmit
  split_ifs <;> rfl

theorem inserted_lastEmits : (lastEmits kind).flatMap RespEmit.inserted = [] := by
  cases kind <;> rfl

theorem afterScan_done {buf : Bytes} (h : (pullBody kind buf).step = .done) :
    afterScan (pullBody kind buf).body true = (lastEmits kind, .head) := by
  cases kind with
  | length n =>
    have h0 : n - min n buf.length = 0 := by
      by_contra hne
      simp [pullBody, hne] at h
    simp [pullBody, afterScan, h0, lastEmits, isChunkedKind]
  | chunked r => rfl
  | close => simp [pullBody] at h

theorem afterScan_more {buf : Bytes} (h : (pullBody kind buf).step = .needMore) :
    afterScan (pullBody kind buf).body false = ([], .stream (pullBody kind buf).body) := by
  cases kind with
  | length n =>
    have hne : n - min n buf.length ≠ 0 := by
      intro h0
      simp [pullBody, h0] at h
    simp [pullBody, afterScan, hne]
  | chunked r => rfl
  | close => rfl

theorem written_nil : written kind [] = [] := by cases kind <;> rfl

variable (p base) in
/-- Once it is decided what to write, the call goes on in the tail of the body, or behind it. -/
theorem afterScan_drive {buf : Bytes} (he : (pullBody kind buf).step ≠ .error) :
    ∃ new, (base.within
        (afterScan (pullBody kind buf).body ((pullBody kind buf).step == .done)).2
        (pullBody kind buf).rest).driveResponse p =
      (if (pullBody kind buf).step = .done then
        (base.within .head (pullBody kind buf).rest).driveResponse p
      else .ok ([], base.within (.stream (pullBody kind buf).body)
        (pullBody kind buf).rest)).map (fun o => (new ++ o.1, o.2)) ∧
      new.flatMap RespEmit.inserted = [] ∧ new.flatMap RespEmit.render = [] ∧
      (afterScan (pullBody kind buf).body ((pullBody kind buf).step == .done)).1 =
        if (pullBody kind buf).step = .done then lastEmits kind else [] := by
  by_cases hs : (pullBody kind buf).step = .done
  · have hafter := afterScan_done hs
    simp only [hs, beq_self_eq_true, hafter, if_true]
    refine ⟨[], ?_, rfl, rfl, trivial⟩
    cases (base.within .head (pullBody kind buf).rest).driveResponse p <;> rfl
  · have hmore := Step.eq_needMore he hs
    have hafter := afterScan_more hmore
    have hbeq : ((pullBody kind buf).step == .done) = false := by rw [hmore]; rfl
    have hagain := pullBody_again hmore
    have hstream : stepResponse p (base.within (.stream (pullBody kind buf).body)
        (pullBody kind buf).rest) =
        .ok { emits := [bodyEmit (pullBody kind buf).body [] [] []]
              rw := base.within (.stream (pullBody kind buf).body) (pullBody kind buf).rest
              go := false } := by
      simp only [stepResponse, within, stepResponseStream, hagain]
    simp only [hbeq, hafter, if_neg hs]
    rw [driveResponse_of_step hstream]
    refine ⟨[bodyEmit (pullBody kind buf).body [] [] []], rfl, ?_, ?_, trivial⟩
    · rw [List.flatMap_singleton, inserted_bodyEmit]
    · rw [List.flatMap_singleton]
      exact written_nil

variable (p base) in
/-- Once the scan is abandoned, the call goes on in the tail of the body, or behind it. -/
theorem abandon_drive {bs : BodyScan} {buf : Bytes} (hdone : bs.bodyDone = false)
    (he : (pullBody bs.body buf).step ≠ .error)
    (hdec : decideAnchor (bs.scan ++ (pullBody bs.body buf).bytes)
      ((pullBody bs.body buf).step == .done) = some none) :
    ∃ new, driveResponse p (base.within (.buffer bs) buf) =
        (if (pullBody bs.body buf).step = .done then
          (base.within .head (pullBody bs.body buf).rest).driveResponse p
        else .ok ([], base.within (.stream (pullBody bs.body buf).body)
          (pullBody bs.body buf).rest)).map (fun o => (new ++ o.1, o.2)) ∧
      new.flatMap RespEmit.inserted = [] ∧
      new.flatMap RespEmit.render = bs.origHead ++
        written bs.body (bs.scan ++ (pullBody bs.body buf).bytes) ++
        (if (pullBody bs.body buf).step = .done then lastWritten bs.body else []) := by
  have hstep : stepResponse p (base.within (.buffer bs) buf) =
      .ok { emits := .head bs.origHead bs.origHead ::
              bodyEmit (pullBody bs.body buf).body (bs.scan ++ (pullBody bs.body buf).bytes) [] [] ::
              (afterScan (pullBody bs.body buf).body ((pullBody bs.body buf).step == .done)).1
            rw := base.within
              (afterScan (pullBody bs.body buf).body ((pullBody bs.body buf).step == .done)).2
              (pullBody bs.body buf).rest
            go := true } := by
    simp only [stepResponse, within, stepResponseBuffer, if_neg he, hdone, Bool.false_or, hdec]
  have htext : (bodyEmit (pullBody bs.body buf).body
      (bs.scan ++ (pullBody bs.body buf).bytes) [] []).render =
        written bs.body (bs.scan ++ (pullBody bs.body buf).bytes) := congrFun written_body _
  obtain ⟨new, hdrive, hins, hnew, hafter⟩ := afterScan_drive p base he
  rw [driveResponse_of_step hstep, if_pos rfl, hdrive, hafter]
  refine ⟨.head bs.origHead bs.origHead ::
    bodyEmit (pullBody bs.body buf).body (bs.scan ++ (pullBody bs.body buf).bytes) [] [] ::
    ((if (pullBody bs.body buf).step = .done then lastEmits bs.body else []) ++ new), ?_, ?_, ?_⟩
  · split_ifs with hs
    · cases (base.within .head (pullBody bs.body buf).rest).driveResponse p with
      | error e => rfl
      | ok o => simp [Except.map]
    · rfl
  · split_ifs <;> simp [inserted_bodyEmit, inserted_lastEmits, hins]
  · split_ifs <;> simp [htext, lastWritten, hnew]

/-- An injectable message into which nothing is inserted. -/
theorem buffer_writes {bs : BodyScan} {buf : Bytes} {feeds : List Bytes}
    (hact : base.active = true) (hd : base.disabled = false) (hdone : bs.bodyDone = false)
    (h : Brings x bs.body buf feeds) (ha : Abandons bs.scan (pulls bs.body buf feeds)) :
    ∃ emits, Writes p base x bs.body
        ((base.within (.buffer bs) buf).runOps p (feeds.map .response)) emits ∧
      emits.flatMap RespEmit.inserted = [] ∧
      emits.flatMap RespEmit.render = writtenText bs.origHead bs.body
        (stretches Pulled.bytes bs.scan (pulls bs.body buf feeds)) := by
  generalize hk : bs.body = kind at h ha ⊢
  induction h generalizing bs with
  | close hx =>
    exact ⟨[], Or.inl ⟨rfl, _, rfl⟩, rfl, rfl⟩
  | @last kind buf d hs hr =>
    subst hk
    have he : (pullBody bs.body (buf ++ d)).step ≠ .error := by simp [hs]
    rw [pulls_done hs] at ha ⊢
    cases hdec : decideAnchor (bs.scan ++ (pullBody bs.body (buf ++ d)).bytes)
        ((pullBody bs.body (buf ++ d)).step == .done) with
    | none => simpa [hs] using decideAnchor_waits hdec
    | some a =>
      obtain rfl := (abandons_decided hdec).mp ha
      obtain ⟨new, hdrive, hins, htext⟩ := abandon_drive p base hdone he hdec
      rw [if_pos hs, hr] at hdrive
      refine ⟨new, Or.inr ⟨not_close_of_done hs, runOps_pass hact hd hdrive⟩, hins, ?_⟩
      rw [htext, if_pos hs, stretches_decided hdec]
      simp [writtenText]
  | @more kind buf d ds hs h ih =>
    subst hk
    have he : (pullBody bs.body (buf ++ d)).step ≠ .error := by simp [hs]
    rw [pulls_more hs] at ha ⊢
    cases hdec : decideAnchor (bs.scan ++ (pullBody bs.body (buf ++ d)).bytes)
        ((pullBody bs.body (buf ++ d)).step == .done) with
    | none =>
      -- Nothing is written, and the scan goes on with the next piece.
      obtain ⟨bs', hbs'⟩ : ∃ bs' : BodyScan, { bs with
          scan := bs.scan ++ (pullBody bs.body (buf ++ d)).bytes
          body := (pullBody bs.body (buf ++ d)).body
          bodyDone := (pullBody bs.body (buf ++ d)).step == .done } = bs' := ⟨_, rfl⟩
      have hstep : stepResponse p (base.within (.buffer bs) (buf ++ d)) =
          .ok { rw := base.within (.buffer bs') (pullBody bs.body (buf ++ d)).rest, go := false } := by
        simp only [stepResponse, within, stepResponseBuffer, if_neg he, hdone, Bool.false_or, hdec,
          ← hbs']
      obtain ⟨emits, hw, hins, htext⟩ := @ih bs' (by rw [← hbs']; simp [hs])
        (by rw [← hbs']) (by rw [← hbs']; exact (abandons_wait hdec).mp ha)
      have hrun := @runOps_wait p (base.within (.buffer bs) buf) _ _ _ hact hd
        (driveResponse_of_step hstep) ds
      refine ⟨emits, ?_, hins, ?_⟩
      · rw [hrun]
        exact Writes.body.mp (hw.prepend [])
      · rw [htext, stretches_wait hdec, ← hbs']
        simp only [writtenText, written_body, lastWritten_body]
    | some a =>
      obtain rfl := (abandons_decided hdec).mp ha
      obtain ⟨new, hdrive, hins, htext⟩ := abandon_drive p base hdone he hdec
      rw [if_neg (by simp [hs])] at hdrive htext
      obtain ⟨emits, hw, hins', htext'⟩ := stream_writes (p := p) hact hd h
      have hrun := @runOps_wait p (base.within (.buffer bs) buf) _ _ _ hact hd hdrive ds
      refine ⟨new ++ emits, ?_, by simp [hins, hins'], ?_⟩
      · rw [hrun]
        simpa only [List.append_nil] using Writes.body.mp (hw.prepend new)
      · rw [stretches_decided hdec, List.flatMap_append, htext, htext']
        simp [writtenText, written_body, lastWritten_body, List.flatMap_map]

end Run

/-- The pieces are the body and what is behind it. -/
theorem Brings.wire {x : Bytes} {kind : BodyKind} {buf : Bytes} {feeds : List Bytes}
    (h : Brings x kind buf feeds) :
    (pulls kind buf feeds).flatMap Pulled.wire ++ x = buf ++ feeds.flatten := by
  induction h with
  | close hx => simp [pulls, hx]
  | @last kind buf d hs hr =>
    have hsplit := pullBody_split kind (buf ++ d)
    rw [pulls_done hs, ← hr]
    simpa using hsplit
  | @more kind buf d ds hs h ih =>
    have hsplit := pullBody_split kind (buf ++ d)
    rw [pulls_more hs, List.flatMap_cons, List.append_assoc, ih, ← List.append_assoc, hsplit]
    simp

/-- A body that is not chunked is taken as it comes. -/
theorem pulls_bytes {kind : BodyKind} (hk : isChunkedKind kind = false) (buf : Bytes)
    (feeds : List Bytes) :
    (pulls kind buf feeds).flatMap Pulled.bytes = (pulls kind buf feeds).flatMap Pulled.wire := by
  induction feeds generalizing kind buf with
  | nil => rfl
  | cons d ds ih =>
    have hone : (pullBody kind (buf ++ d)).bytes = (pullBody kind (buf ++ d)).wire := by
      cases kind <;> first | rfl | simp [isChunkedKind] at hk
    have hkind : isChunkedKind (pullBody kind (buf ++ d)).body = false := by
      cases kind <;> first | rfl | simp [isChunkedKind] at hk
    simp only [pulls, List.flatMap_cons, hone]
    split_ifs
    · rw [ih hkind]
    · rfl

theorem stretches_flatten {data : Pulled → Bytes} {scan : Bytes} {qs : List Pulled}
    (h : stretches data scan qs ≠ []) :
    (stretches data scan qs).flatten = scan ++ qs.flatMap data := by
  induction qs generalizing scan with
  | nil => simp [stretches] at h
  | cons q qs ih =>
    cases hdec : decideAnchor (scan ++ data q) (q.step == .done) with
    | none =>
      rw [stretches_wait hdec] at h ⊢
      rw [ih h]
      simp
    | some a =>
      rw [stretches_decided hdec]
      simp [List.flatMap_def]

/-- At the latest the end of the body brings a decision. -/
theorem Brings.decided {x : Bytes} {kind : BodyKind} {buf scan : Bytes} {feeds : List Bytes}
    (data : Pulled → Bytes) (h : Brings x kind buf feeds) (hk : kind ≠ .close) :
    stretches data scan (pulls kind buf feeds) ≠ [] := by
  induction h generalizing scan with
  | close hx => simp at hk
  | @last kind buf d hs hr =>
    rw [pulls_done hs]
    cases hdec : decideAnchor (scan ++ data (pullBody kind (buf ++ d)))
        ((pullBody kind (buf ++ d)).step == .done) with
    | none => simpa [hs] using decideAnchor_waits hdec
    | some a => simp [stretches_decided hdec]
  | @more kind buf d ds hs h ih =>
    rw [pulls_more hs]
    cases hdec : decideAnchor (scan ++ data (pullBody kind (buf ++ d)))
        ((pullBody kind (buf ++ d)).step == .done) with
    | none =>
      rw [stretches_wait hdec]
      exact ih (by rwa [ne_eq, pullBody_close])
    | some a => simp [stretches_decided hdec]

theorem stretches_congr {f g : Pulled → Bytes} {scan : Bytes} {qs : List Pulled}
    (h : ∀ q ∈ qs, f q = g q) : stretches f scan qs = stretches g scan qs := by
  induction qs generalizing scan with
  | nil => rfl
  | cons q qs ih =>
    have hq := h q (by simp)
    have hqs : ∀ q ∈ qs, f q = g q := fun q hm => h q (by simp [hm])
    cases hdec : decideAnchor (scan ++ g q) (q.step == .done) with
    | none =>
      rw [stretches_wait hdec, stretches_wait (hq ▸ hdec), hq, ih hqs]
    | some a =>
      rw [stretches_decided hdec, stretches_decided (hq ▸ hdec), hq, List.map_congr_left hqs]

section Chunked

variable {x buf wire : Bytes} {feeds : List Bytes}

/-- The pieces decode to what all of the body decodes to at once. -/
theorem Brings.decoded {kind : BodyKind} (h : Brings x kind buf feeds) {r : ChunkReader}
    (hk : kind = .chunked r) : ∃ st,
      (chunkFeeder none).run ⟨r.state, buf ++ feeds.flatten, .needMore⟩ =
        ((pulls kind buf feeds).flatMap Pulled.decoded, ⟨st, x, .done⟩) := by
  induction h generalizing r with
  | close hx => simp at hk
  | @last kind buf d hs hr =>
    subst hk
    rw [pulls_done hs]
    have huncapped := @chunkFeeder_run_uncapped maxHeaderBytes ⟨r.state, buf ++ d, .needMore⟩
    simp only [pullBody, ChunkReader.consume, ChunkReader.consumeWithin] at hs hr ⊢
    rw [List.flatten_singleton, huncapped (by simp [hs])]
    generalize (chunkFeeder (some maxHeaderBytes)).run ⟨r.state, buf ++ d, .needMore⟩ = out at hs hr
    obtain ⟨o, st, rest, status⟩ := out
    obtain rfl : status = .done := hs
    obtain rfl : rest = x := hr
    exact ⟨st, by simp⟩
  | @more kind buf d ds hs h ih =>
    subst hk
    obtain ⟨st, hrun⟩ := ih rfl
    rw [pulls_more hs]
    have hincr := chunkFeeder_incremental.run_ext ⟨r.state, buf ++ d, .needMore⟩ ds.flatten
    have huncapped := @chunkFeeder_run_uncapped maxHeaderBytes ⟨r.state, buf ++ d, .needMore⟩
    simp only [pullBody, ChunkReader.consume, ChunkReader.consumeWithin] at hs hrun ⊢
    rw [huncapped (by simp [hs])] at hincr
    generalize (chunkFeeder (some maxHeaderBytes)).run ⟨r.state, buf ++ d, .needMore⟩ = out
      at hs hrun hincr ⊢
    obtain ⟨o, st', rest, status⟩ := out
    obtain rfl : status = .needMore := hs
    refine ⟨st, ?_⟩
    simp only [chunkFeeder, Feeder.feed] at hincr hrun ⊢
    rw [List.flatten_cons, ← List.append_assoc, hincr, hrun]
    simp

/-- A chunked body decodes in one way. -/
theorem Chunked.run {lines : ℕ} {body : Bytes} (h : Chunked lines wire body) (x : Bytes) :
    ((chunkFeeder none).run ⟨.size [], wire ++ x, .needMore⟩).1 = body := by
  have hat : ChunkAt lines x (.size []) (wire ++ x ++ []) body := .size (by simp) h (by simp)
  obtain ⟨body', hrun⟩ := @chunkFeeder_run_at none lines x [] (wire ++ x) body _ hat
    (by intro c hc; simp at hc)
  rcases hrun.stepped.at_ with ⟨hst, -⟩ | ⟨-, -, rfl, -⟩
  · have := hrun.due hst
    simp at this
  · simpa using hrun.stepped.body.symm

theorem plainChunks_iff {ss : List Bytes} : PlainChunks wire (ss.filter (· ≠ [])) ↔
    wire = ss.flatMap rechunk ++ ascii "0\r\n\r\n" := by
  induction ss generalizing wire with
  | nil =>
    constructor
    · intro h
      cases h
      rfl
    · rintro rfl
      exact .last
  | cons s ss ih =>
    by_cases hs : s = []
    · simpa [hs, rechunk] using ih
    · have hfilter : (s :: ss).filter (· ≠ []) = s :: ss.filter (· ≠ []) := by simp [hs]
      rw [hfilter]
      constructor
      · intro h
        cases h with
        | chunk hne h =>
          rw [ih.mp h]
          simp [rechunk, hs]
      · rintro rfl
        have := PlainChunks.chunk hs (ih.mpr rfl)
        simpa [rechunk, hs] using this

theorem decideAnchor_short {scan : Bytes} (h : decideAnchor scan false = none) :
    scan.length < maxAnchorScan := by
  unfold decideAnchor at h
  by_cases hb : bom16 scan = true ∨ contains scan marker = true
  · simp [hb] at h
  · rw [if_neg hb] at h
    cases hs : anchorStreaming scan with
    | some a => simp [hs] at h
    | none =>
      simp only [hs, Bool.false_eq_true, false_or] at h
      split_ifs at h with hle
      omega

/-- What is scanned is bounded, and so is what one piece adds to it. -/
theorem stretches_bounded {scan : Bytes} {qs : List Pulled} (hscan : scan.length ≤ maxAnchorScan)
    (hq : ∀ q ∈ qs, q.bytes.length ≤ maxBodyCapture) :
    ∀ s ∈ stretches Pulled.bytes scan qs, s.length ≤ maxAnchorScan + maxBodyCapture := by
  induction qs generalizing scan with
  | nil => simp [stretches]
  | cons q qs ih =>
    have hone := hq q (by simp)
    have hqs : ∀ q ∈ qs, q.bytes.length ≤ maxBodyCapture := fun q hm => hq q (by simp [hm])
    cases hdec : decideAnchor (scan ++ q.bytes) (q.step == .done) with
    | none =>
      rw [stretches_wait hdec]
      rw [decideAnchor_waits hdec] at hdec
      exact ih (decideAnchor_short hdec).le hqs
    | some a =>
      rw [stretches_decided hdec]
      intro s hs
      rcases List.mem_cons.mp hs with rfl | hm
      · rw [List.length_append]
        omega
      · obtain ⟨q', hq', rfl⟩ := List.mem_map.mp hm
        have := hqs q' hq'
        omega

/-- Of a chunked body each piece yields what fits one capture. -/
theorem pulls_chunked {kind : BodyKind} (hk : isChunkedKind kind = true) (buf : Bytes)
    (feeds : List Bytes) :
    ∀ q ∈ pulls kind buf feeds, q.bytes = q.decoded.take maxBodyCapture := by
  induction feeds generalizing kind buf with
  | nil => simp [pulls]
  | cons d ds ih =>
    have hone : (pullBody kind (buf ++ d)).bytes =
        (pullBody kind (buf ++ d)).decoded.take maxBodyCapture := by
      cases kind with
      | length n => simp [isChunkedKind] at hk
      | close => simp [isChunkedKind] at hk
      | chunked r =>
        simp only [pullBody, pushCapped, List.length_nil, Nat.sub_zero, List.nil_append]
        split_ifs with hle
        · exact (List.take_of_length_le hle).symm
        · rfl
    have hkind : isChunkedKind (pullBody kind (buf ++ d)).body = true := by
      cases kind <;> first | rfl | simp [isChunkedKind] at hk
    intro q hq
    simp only [pulls, List.mem_cons] at hq
    rcases hq with rfl | hq
    · exact hone
    · split_ifs at hq with hs
      · exact ih hkind _ q hq
      · simp at hq

/-- Nothing is lost of the pieces only if each of them fits. -/
theorem fits_of_flatMap {qs : List Pulled}
    (hb : ∀ q ∈ qs, q.bytes = q.decoded.take maxBodyCapture)
    (h : qs.flatMap Pulled.bytes = qs.flatMap Pulled.decoded) :
    ∀ q ∈ qs, q.decoded.length ≤ maxBodyCapture := by
  have hle : ∀ qs : List Pulled, (∀ q ∈ qs, q.bytes = q.decoded.take maxBodyCapture) →
      (qs.flatMap Pulled.bytes).length ≤ (qs.flatMap Pulled.decoded).length := by
    intro qs hqs
    induction qs with
    | nil => simp
    | cons q qs ih =>
      have hq := congrArg List.length (hqs q (by simp))
      have := ih fun q hm => hqs q (by simp [hm])
      rw [List.length_take] at hq
      simp only [List.flatMap_cons, List.length_append]
      omega
  induction qs with
  | nil => simp
  | cons q qs ih =>
    have hqs : ∀ q ∈ qs, q.bytes = q.decoded.take maxBodyCapture := fun q hm => hb q (by simp [hm])
    have hq := congrArg List.length (hb q (by simp))
    have hrest := hle qs hqs
    have hlen := congrArg List.length h
    rw [List.length_take] at hq
    simp only [List.flatMap_cons, List.length_append] at hlen h
    have hfit : q.decoded.length ≤ maxBodyCapture := by omega
    have hsame : q.bytes = q.decoded := by
      rw [hb q (by simp), List.take_of_length_le hfit]
    rw [hsame, List.append_cancel_left_eq] at h
    intro q' hm
    rcases List.mem_cons.mp hm with rfl | hm
    · exact hfit
    · exact ih hqs h q' hm

end Chunked

/-- What makes the text of an abandoned message the one received, when `feeds` bring its body
`wire`: the body is not chunked, and a decision does fall; or it is chunked, written as plain chunks
that are just the stretches that it is written in, and no piece brings more than fits a capture. -/
def KeepsText (kind : BodyKind) (feeds : List Bytes) (wire : Bytes) : Prop :=
  match kind with
  | .length _ => True
  | .close => ∃ pre, pre <+: feeds ∧ decideAnchor pre.flatten false ≠ none
  | .chunked _ =>
    PlainChunks wire ((stretches Pulled.decoded [] (pulls kind [] feeds)).filter (· ≠ [])) ∧
      ∀ q ∈ pulls kind [] feeds, q.decoded.length ≤ maxBodyCapture

section Text

variable {x raw wire : Bytes} {kind : BodyKind} {feeds : List Bytes}

theorem writtenText_plain (hk : isChunkedKind kind = false) (h : Brings x kind [] feeds)
    (hwire : wire ++ x = feeds.flatten)
    (hdec : stretches Pulled.bytes [] (pulls kind [] feeds) ≠ []) :
    writtenText raw kind (stretches Pulled.bytes [] (pulls kind [] feeds)) = raw ++ wire := by
  have hwritten : written kind = id := by
    funext data
    simp [written, bodyEmit, hk, RespEmit.render]
  have hlast : lastWritten kind = [] := by
    cases kind <;> first | rfl | simp [isChunkedKind] at hk
  have hbody : (pulls kind [] feeds).flatMap Pulled.bytes = wire := by
    have hall := h.wire
    rw [List.nil_append, ← hwire, List.append_cancel_right_eq] at hall
    rw [pulls_bytes hk, hall]
  rw [writtenText, if_neg hdec, hwritten, hlast, List.flatMap_id, stretches_flatten hdec, hbody]
  simp

theorem stretches_close {scan : Bytes} :
    stretches Pulled.bytes scan (pulls .close [] feeds) ≠ [] ↔
      ∃ pre, pre <+: feeds ∧ pre ≠ [] ∧ decideAnchor (scan ++ pre.flatten) false ≠ none := by
  induction feeds generalizing scan with
  | nil =>
    constructor
    · intro h
      simp [pulls, stretches] at h
    · rintro ⟨pre, hpre, hne, -⟩
      exact absurd (List.prefix_nil.mp hpre) hne
  | cons d ds ih =>
    have hpulls : pulls .close [] (d :: ds) =
        pullBody .close ([] ++ d) :: pulls .close [] ds := pulls_more rfl
    rw [hpulls]
    cases hdec : decideAnchor (scan ++ d) false with
    | none =>
      rw [stretches_wait (show decideAnchor (scan ++ (pullBody .close ([] ++ d)).bytes) _ = _ from hdec),
        ih]
      constructor
      · rintro ⟨pre, hpre, hne, h⟩
        exact ⟨d :: pre, List.cons_prefix_cons.mpr ⟨rfl, hpre⟩, by simp,
          by simpa [pullBody] using h⟩
      · rintro ⟨pre, hpre, hne, h⟩
        cases pre with
        | nil => simp at hne
        | cons e pre =>
          obtain ⟨rfl, htail⟩ := List.cons_prefix_cons.mp hpre
          have hne' : pre ≠ [] := by
            rintro rfl
            simp [hdec] at h
          exact ⟨pre, htail, hne', by simpa [pullBody] using h⟩
    | some a =>
      rw [stretches_decided (show decideAnchor (scan ++ (pullBody .close ([] ++ d)).bytes) _ = _ from hdec)]
      refine ⟨fun _ => ⟨[d], ⟨ds, rfl⟩, by simp, by simp [hdec]⟩, fun _ => by simp⟩

theorem writtenText_chunked {r : ChunkReader} (h : Brings x (.chunked r) [] feeds)
    (hr : r.state = .size []) (hwire : wire ++ x = feeds.flatten) :
    writtenText raw (.chunked r) (stretches Pulled.bytes [] (pulls (.chunked r) [] feeds)) =
      raw ++ wire ↔ KeepsText (.chunked r) feeds wire := by
  have hdec : stretches Pulled.bytes [] (pulls (.chunked r) [] feeds) ≠ [] :=
    h.decided Pulled.bytes (by simp)
  have htake := @pulls_chunked (.chunked r) rfl [] feeds
  have hwritten : written (.chunked r) = rechunk := by
    funext data
    simp [written, bodyEmit, isChunkedKind, RespEmit.render]
  have hlast : lastWritten (.chunked r) = ascii "0\r\n\r\n" := rfl
  have hbound : ∀ s ∈ stretches Pulled.bytes [] (pulls (.chunked r) [] feeds),
      s.length ≤ maxAnchorScan + maxBodyCapture := by
    apply stretches_bounded (by simp)
    intro q hq
    rw [htake q hq]
    exact List.length_take_le _ _
  rw [writtenText, if_neg hdec, hwritten, hlast, List.append_assoc, List.append_cancel_left_eq,
    KeepsText, plainChunks_iff]
  constructor
  · intro htext
    have hcoded := chunked_rechunk fun s hs => Nat.lt_of_le_of_lt (hbound s hs) (by decide)
    obtain ⟨st, hrun⟩ := h.decoded rfl
    have hsame : (pulls (.chunked r) [] feeds).flatMap Pulled.bytes =
        (pulls (.chunked r) [] feeds).flatMap Pulled.decoded := by
      have hone := Chunked.run hcoded x
      rw [htext, hwire, stretches_flatten hdec, List.nil_append] at hone
      rw [← hone]
      rw [hr, List.nil_append] at hrun
      rw [hrun]
    have hfits := fits_of_flatMap htake hsame
    refine ⟨?_, hfits⟩
    rw [← htext, stretches_congr fun q hq => by
      rw [htake q hq, List.take_of_length_le (hfits q hq)]]
  · rintro ⟨htext, hfits⟩
    rw [htext, stretches_congr fun q hq => by rw [htake q hq, List.take_of_length_le (hfits q hq)]]

end Text

theorem writtenText_iff {framing : Framing} {status : ℕ} {isHead : Bool} {headers : Headers}
    {x raw wire : Bytes} {feeds : List Bytes}
    (hf : responseFraming status isHead headers = some framing) (hraw : raw ≠ [])
    (h : Brings x (framingToKind framing) [] feeds) (hwire : wire ++ x = feeds.flatten) :
    writtenText raw (framingToKind framing)
        (stretches Pulled.bytes [] (pulls (framingToKind framing) [] feeds)) = raw ++ wire ↔
      KeepsText (framingToKind framing) feeds wire := by
  cases framing with
  | length n =>
    exact iff_of_true (writtenText_plain rfl h hwire (h.decided _ (by simp [framingToKind]))) trivial
  | untilClose =>
    have hiff : stretches Pulled.bytes [] (pulls .close [] feeds) ≠ [] ↔
        KeepsText .close feeds wire := by
      rw [stretches_close, KeepsText]
      constructor
      · rintro ⟨pre, hpre, -, hdec⟩
        exact ⟨pre, hpre, by simpa using hdec⟩
      · rintro ⟨pre, hpre, hdec⟩
        refine ⟨pre, hpre, ?_, by simpa using hdec⟩
        rintro rfl
        exact hdec (by decide)
    refine Iff.trans ⟨fun ht => ?_, writtenText_plain rfl h hwire⟩ hiff
    intro hnil
    rw [writtenText, if_pos hnil] at ht
    exact hraw (List.append_eq_nil_iff.mp ht.symm).1
  | chunked r =>
    have hr : r = {} := by
      unfold responseFraming at hf
      split_ifs at hf
      · exact (Framing.chunked.inj (Option.some.inj hf)).symm
      · split at hf <;> simp at hf
    exact writtenText_chunked h (by rw [hr]) hwire

section Head

variable {p : Profile} {rw : Rewriter}

/-- The head of an injectable message is held, and its body scanned. -/
theorem driveResponse_injectable {raw b : Bytes} {status : ℕ} {headers : Headers}
    {framing : Framing} (hresp : rw.resp = .head) (he : findHeaderEnd raw = some raw.length)
    (hh : responseHead (raw.take (raw.length - 4)) = some (status, headers))
    (hf : responseFraming status (rw.pendingHead.headD false) headers = some framing)
    (hi : injectable status headers = true) :
    driveResponse p { rw with respBuf := raw ++ b } =
      driveResponse p (rw.within
        (.buffer { origHead := raw, body := framingToKind framing
                   clOriginal := contentLength headers }) b) := by
  have he' := findHeaderEnd_append b he
  have htake : (raw ++ b).take (raw.length - 4) = raw.take (raw.length - 4) :=
    List.take_append_of_le_length (by omega)
  have hstatus : ¬ (100 ≤ status ∧ status ≤ 199) := by
    intro hs
    rw [responseFraming, if_pos (by omega)] at hf
    simp at hf
  have hstep : stepResponse p { rw with respBuf := raw ++ b } =
      .ok { rw := rw.within (.buffer { origHead := raw, body := framingToKind framing
                                       clOriginal := contentLength headers }) b
            go := true } := by
    simp only [stepResponse, hresp, stepResponseHead, he', htake, hh]
    rw [if_neg (by omega), if_neg (by omega)]
    simp only [hf, hi, if_true, within, List.take_left, List.drop_left]
  rw [driveResponse_of_step hstep, if_pos rfl]
  cases driveResponse p (rw.within _ b) <;> rfl

/-- Until its head is complete nothing is made of a message. -/
theorem runOps_withheld {pre : List Bytes} (hact : rw.active = true) (hd : rw.disabled = false)
    (hresp : rw.resp = .head) (hnone : findHeaderEnd (rw.respBuf ++ pre.flatten) = none)
    (hle : (rw.respBuf ++ pre.flatten).length ≤ maxHeaderBytes) (ops : List Op) :
    rw.runOps p (pre.map .response ++ ops) =
      { rw with respBuf := rw.respBuf ++ pre.flatten }.runOps p ops := by
  induction pre generalizing rw with
  | nil => simp
  | cons d pre ih =>
    obtain ⟨rw', hrw'⟩ : ∃ rw' : Rewriter, { rw with respBuf := rw.respBuf ++ d } = rw' := ⟨_, rfl⟩
    have hbuf : rw'.respBuf = rw.respBuf ++ d := by rw [← hrw']
    have hall : rw'.respBuf ++ pre.flatten = rw.respBuf ++ (d :: pre).flatten := by
      rw [hbuf, List.flatten_cons, List.append_assoc]
    have hnone' : findHeaderEnd rw'.respBuf = none := by
      cases he : findHeaderEnd rw'.respBuf with
      | none => rfl
      | some n =>
        have := findHeaderEnd_append pre.flatten he
        rw [hall, hnone] at this
        simp at this
    have hshort : ¬ maxHeaderBytes < rw'.respBuf.length := by
      rw [← hall, List.length_append] at hle
      omega
    have hresp' : rw'.resp = .head := by rw [← hrw']; exact hresp
    have hstep : rw'.stepResponse p = .ok { rw := rw', go := false } := by
      have hself : { rw' with resp := .head } = rw' := by rw [← hresp']
      simp only [stepResponse, hresp', hself, stepResponseHead, hnone', if_neg hshort]
    rw [List.map_cons, List.cons_append, runOps_response hact hd, hrw', driveResponse_of_step hstep]
    have hrec := @ih rw' (by rw [← hrw']; exact hact) (by rw [← hrw']; exact hd) hresp'
      (by rw [hall]; exact hnone) (by rw [hall]; exact hle)
    simp only [Bool.false_eq_true, if_false, Except.bind, hrec, List.nil_append]
    rw [hall]
    subst hrw'
    cases runOps p _ ops <;> rfl

end Head

/-- An injectable response into which nothing is inserted, cut into `pre`, the piece `h ++ b` that
completes its head, and `ds`, the last piece with the bytes `x` behind it. What is written of it is
what was received if its head is given up on as oversized, and otherwise exactly if its body keeps
its text. -/
theorem abandoned_verbatim_iff (p : Profile) (rw : Rewriter) {raw wire x h b : Bytes}
    {pre ds : List Bytes} {status : ℕ} {headers : Headers} {framing : Framing}
    (hact : rw.active = true) (hd : rw.disabled = false) (hresp : rw.resp = .head)
    (hbuf : rw.respBuf = []) (hsplit : pre.flatten ++ h = raw) (hne : h ≠ [])
    (he : findHeaderEnd raw = some raw.length)
    (hh : responseHead (raw.take (raw.length - 4)) = some (status, headers))
    (hf : responseFraming status (rw.pendingHead.headD false) headers = some framing)
    (hi : injectable status headers = true)
    (hbody : Brings x (framingToKind framing) [] (b :: ds))
    (hwire : wire ++ x = (b :: ds).flatten) :
    (maxHeaderBytes < pre.flatten.length → ∃ emits rw',
      rw.runOps p ((pre ++ (h ++ b) :: ds).map .response) = .ok (emits, rw') ∧
      emits.flatMap RespEmit.render = raw ++ wire ++ x) ∧
    (pre.flatten.length ≤ maxHeaderBytes →
      Abandons [] (pulls (framingToKind framing) [] (b :: ds)) → ∃ emits,
        Writes p rw x (framingToKind framing)
          (rw.runOps p ((pre ++ (h ++ b) :: ds).map .response)) emits ∧
        emits.flatMap RespEmit.inserted = [] ∧
        (emits.flatMap RespEmit.render = raw ++ wire ↔
          KeepsText (framingToKind framing) (b :: ds) wire)) := by
  have hnone : findHeaderEnd (rw.respBuf ++ pre.flatten) = none := by
    rw [hbuf, List.nil_append]
    rw [← hsplit] at he
    apply findHeaderEnd_prefix_none he
    have := List.length_pos_iff.mpr hne
    rw [List.length_append]
    omega
  constructor
  · intro hlong
    obtain ⟨emits, hrun, htext⟩ := @runOps_oversized p rw pre hact hd hresp hnone (by simp [hbuf])
      (by simpa [hbuf] using hlong) ((h ++ b) :: ds)
    refine ⟨emits, _, hrun, ?_⟩
    rw [htext, hbuf, List.append_assoc raw, hwire, ← hsplit]
    simp
  · intro hshort ha
    have hwithheld := runOps_withheld (p := p) hact hd hresp hnone (by simpa [hbuf] using hshort)
      (((h ++ b) :: ds).map .response)
    rw [hbuf, List.nil_append] at hwithheld
    obtain ⟨bs, hbs⟩ : ∃ bs : BodyScan, { origHead := raw, body := framingToKind framing
                                          clOriginal := contentLength headers } = bs := ⟨_, rfl⟩
    have hdrive : driveResponse p { rw with respBuf := pre.flatten ++ (h ++ b) } =
        driveResponse p (rw.within (.buffer bs) b) := by
      rw [← List.append_assoc, hsplit, ← hbs]
      exact driveResponse_injectable hresp he hh hf hi
    have hscan : ({ rw with respBuf := pre.flatten } : Rewriter).runOps p
        (((h ++ b) :: ds).map .response) =
        (rw.within (.buffer bs) []).runOps p ((b :: ds).map .response) := by
      have hleft := @runOps_response p { rw with respBuf := pre.flatten } hact hd (h ++ b)
        (ds.map .response)
      have hright := @runOps_response p (rw.within (.buffer bs) []) hact hd b (ds.map .response)
      rw [List.map_cons, List.map_cons, hleft, hright, hdrive]
      rfl
    have hkind : bs.body = framingToKind framing := by rw [← hbs]
    have hhead : bs.origHead = raw := by rw [← hbs]
    have hstart : bs.scan = [] := by rw [← hbs]
    obtain ⟨emits, hw, hins, htext⟩ := @buffer_writes p rw x bs [] (b :: ds) hact hd
      (by rw [← hbs]) (hkind ▸ hbody) (by rw [hstart, hkind]; exact ha)
    rw [hkind] at hw htext
    rw [hhead, hstart] at htext
    refine ⟨emits, ?_, hins, ?_⟩
    · rw [List.map_append, hwithheld, hscan]
      exact hw
    · rw [htext]
      refine writtenText_iff hf ?_ hbody hwire
      rintro rfl
      simpa using findHeaderEnd_le he

private def fragmentHead : Bytes :=
  ascii "HTTP/1.1 200 OK\r\nContent-Type: text/html\r\nTransfer-Encoding: chunked\r\n\r\n"

private def fragmentHeaders : Headers :=
  [(Str.lit "Content-Type", Str.lit "text/html"), (Str.lit "Transfer-Encoding", Str.lit "chunked")]

/-- A fragment in one plain chunk. -/
theorem fragment_verbatim : ∃ emits,
    Writes .release { active := true, blob := ascii "b" } [] (.chunked {})
      (runOps .release { active := true, blob := ascii "b" }
        ([fragmentHead ++ ascii "2\r\nhi\r\n", ascii "0\r\n\r\n"].map .response)) emits ∧
    emits.flatMap RespEmit.render = fragmentHead ++ ascii "2\r\nhi\r\n0\r\n\r\n" := by
  have hfirst : (pullBody (.chunked {}) (ascii "2\r\nhi\r\n")).step = .needMore := by decide +kernel
  have hfirstBody : (pullBody (.chunked {}) (ascii "2\r\nhi\r\n")).body = .chunked {} := by
    decide +kernel
  have hfirstRest : (pullBody (.chunked {}) (ascii "2\r\nhi\r\n")).rest = [] := by decide +kernel
  have hlast : (pullBody (.chunked {}) (ascii "0\r\n\r\n")).step = .done := by decide +kernel
  have hbrings : Brings [] (.chunked {}) [] [ascii "2\r\nhi\r\n", ascii "0\r\n\r\n"] := by
    apply Brings.more hfirst
    rw [List.nil_append, hfirstBody, hfirstRest]
    exact .last hlast (by decide +kernel)
  have hpulls : pulls (.chunked {}) [] [ascii "2\r\nhi\r\n", ascii "0\r\n\r\n"] =
      [pullBody (.chunked {}) (ascii "2\r\nhi\r\n"), pullBody (.chunked {}) (ascii "0\r\n\r\n")] := by
    rw [pulls_more hfirst, List.nil_append, hfirstBody, hfirstRest, pulls_done hlast]
    rfl
  have habandons : Abandons [] (pulls (.chunked {}) []
      [ascii "2\r\nhi\r\n", ascii "0\r\n\r\n"]) := by
    rw [hpulls, abandons_wait (by decide +kernel)]
    exact (abandons_decided (a := none) (by decide +kernel)).mpr rfl
  obtain ⟨emits, hw, -, hiff⟩ := (@abandoned_verbatim_iff .release
    { active := true, blob := ascii "b" } fragmentHead (ascii "2\r\nhi\r\n0\r\n\r\n") []
    fragmentHead (ascii "2\r\nhi\r\n") [] [ascii "0\r\n\r\n"] 200 fragmentHeaders (.chunked {})
    rfl rfl rfl rfl rfl (by decide) (by decide +kernel) (by decide +kernel) (by decide +kernel)
    (by decide +kernel) hbrings (by decide)).2 (by decide) habandons
  refine ⟨emits, hw, hiff.mpr ⟨?_, ?_⟩⟩
  · rw [framingToKind, hpulls, plainChunks_iff]
    decide +kernel
  · rw [framingToKind, hpulls]
    decide +kernel

/-- Two chunks are written as one. -/
theorem fragment_rechunked : ∃ emits rw,
    runOps .release { active := true, blob := ascii "b" }
      [.response (fragmentHead ++ ascii "1\r\nh\r\n1\r\ni\r\n0\r\n\r\n")] = .ok (emits, rw) ∧
    emits.flatMap RespEmit.inserted = [] ∧
    emits.flatMap RespEmit.render = fragmentHead ++ ascii "2\r\nhi\r\n0\r\n\r\n" ∧
    emits.flatMap RespEmit.render ≠
      fragmentHead ++ ascii "1\r\nh\r\n1\r\ni\r\n0\r\n\r\n" := by
  obtain ⟨⟨emits, rw⟩, hrun⟩ := runOps_release { active := true, blob := ascii "b" }
    [.response (fragmentHead ++ ascii "1\r\nh\r\n1\r\ni\r\n0\r\n\r\n")]
  have htext : (runOps .release { active := true, blob := ascii "b" }
      [.response (fragmentHead ++ ascii "1\r\nh\r\n1\r\ni\r\n0\r\n\r\n")]).map
      (fun r => (r.1.flatMap RespEmit.inserted, r.1.flatMap RespEmit.render)) =
      .ok ([], fragmentHead ++ ascii "2\r\nhi\r\n0\r\n\r\n") := by decide +kernel
  obtain ⟨hins, htext⟩ : emits.flatMap RespEmit.inserted = [] ∧ emits.flatMap RespEmit.render =
      fragmentHead ++ ascii "2\r\nhi\r\n0\r\n\r\n" := by
    simpa [hrun, Except.map] using htext
  refine ⟨emits, rw, hrun, hins, htext, ?_⟩
  rw [htext]
  decide

end Rewriter

end Adwarden.Tls
