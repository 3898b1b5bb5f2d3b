import Adwarden.Tls.RespRead

/-! What the rewriter has written against what it has received: no head or body byte of a response
goes missing. -/
namespace Adwarden.Tls
open Adwarden.Lib

/-- What holds of the rewriter while the loop runs, when it has returned, and after a panic. -/
def RespLoop.Meets (running returned : Rewriter → Prop) (panicked : Prop) : RespLoop → Prop
  | .running rw => running rw
  | .returned rw => returned rw
  | .panicked _ => panicked

namespace Rewriter

/-- The position of the response side in its stream. -/
def pos (rw : Rewriter) : RespPos :=
  if rw.disabled then .raw
  else match rw.resp with
    | .head => .head
    | .buffer bs => .body bs.body
    | .stream kind => .body kind
    | .pass kind => .body kind

/-- The parts taken off the buffer that a later call will write: a head, and what has been scanned
of its body. -/
def Holds (rw : Rewriter) (waiting : List RespPart) : Prop :=
  if rw.disabled then waiting = []
  else match rw.resp with
    | .buffer bs => ∃ scanned, waiting = .head bs.origHead :: scanned ∧
        scanned.flatMap RespPart.payload = bs.scan
    | _ => waiting = []

theorem holds_disabled {rw : Rewriter} (hd : rw.disabled = true) : rw.Holds [] := by
  unfold Holds
  rw [if_pos hd]

theorem holds_nil {rw : Rewriter} (hr : ∀ bs, rw.resp ≠ .buffer bs) : rw.Holds [] := by
  unfold Holds
  split_ifs
  · rfl
  · split
    · next bs hbs => exact absurd hbs (hr bs)
    · rfl

/-- Nothing waits but for the anchor of a page. -/
theorem Holds.eq_nil {rw : Rewriter} {waiting : List RespPart} (h : rw.Holds waiting)
    (hr : rw.disabled = true ∨ ∀ bs, rw.resp ≠ .buffer bs) : waiting = [] := by
  unfold Holds at h
  split_ifs at h with hd
  · exact h
  · split at h
    · next bs hbs => exact absurd hbs (hr.resolve_left hd bs)
    · exact h

theorem Holds.page {rw : Rewriter} {waiting : List RespPart} {bs : BodyScan} (h : rw.Holds waiting)
    (hd : rw.disabled = false) (hr : rw.resp = .buffer bs) : ∃ scanned,
    waiting = .head bs.origHead :: scanned ∧ scanned.flatMap RespPart.payload = bs.scan := by
  unfold Holds at h
  rw [if_neg (by simp [hd]), hr] at h
  exact h

/-- A part of a response as it is written when nothing is made of it. -/
def asReceived : RespPart → RespEmit
  | .head raw => .head raw raw
  | .body bytes => .body bytes [] []
  | .coded wire decoded => .coded wire decoded

/-- What is written of the parts of a response stream, in their order. Each part stands there as
received, or the body bytes in it do; the head of a page may have been edited, and something
inserted into its body. -/
inductive Written : List RespPart → List RespEmit → Prop
  | nil : Written [] []
  | part {parts : List RespPart} {emits : List RespEmit} (h : Written parts emits)
      (part : RespPart) : Written (parts ++ [part]) (emits ++ [asReceived part])
  | anew {parts : List RespPart} {emits : List RespEmit} (h : Written parts emits)
      (kind : BodyKind) (part : RespPart) :
      Written (parts ++ [part]) (emits ++ [bodyEmit kind part.payload [] []])
  | last {parts : List RespPart} {emits : List RespEmit} (h : Written parts emits) :
      Written parts (emits ++ [.lastChunk])
  | page {parts : List RespPart} {emits : List RespEmit} (h : Written parts emits)
      {raw text pre insert post : Bytes} {scanned : List RespPart} {body : RespEmit}
      (htext : text = raw ∨ ∃ cl, text = editResponseHead raw cl)
      (hbody : body = .body pre insert post ∨ body = .chunk pre insert post)
      (hsplit : pre ++ post = scanned.flatMap RespPart.payload) :
      Written (parts ++ .head raw :: scanned) (emits ++ [.head raw text, body])

section Written

variable {parts : List RespPart} {emits : List RespEmit}

theorem Written.copies (h : Written parts emits) (more : List RespPart) :
    Written (parts ++ more) (emits ++ more.map asReceived) := by
  induction more generalizing parts emits with
  | nil => simpa using h
  | cons part more ih => simpa using ih (h.part part)

theorem Written.lastEmits (h : Written parts emits) (kind : BodyKind) :
    Written parts (emits ++ Rewriter.lastEmits kind) := by
  unfold Rewriter.lastEmits
  split_ifs
  · exact h.last
  · rwa [List.append_nil]

theorem Written.afterScan (h : Written parts emits) (kind : BodyKind) (bodyDone : Bool) :
    Written parts (emits ++ (Rewriter.afterScan kind bodyDone).1) := by
  unfold Rewriter.afterScan
  split
  · rwa [List.append_nil]
  · next reader =>
    split_ifs
    · exact h.lastEmits (.chunked reader)
    · rwa [List.append_nil]
  · rwa [List.append_nil]

theorem bodyEmit_eq (kind : BodyKind) (pre insert post : Bytes) :
    bodyEmit kind pre insert post = .body pre insert post ∨
      bodyEmit kind pre insert post = .chunk pre insert post := by
  unfold bodyEmit
  split_ifs
  · exact Or.inr rfl
  · exact Or.inl rfl

theorem bodyEmit_carried (kind : BodyKind) (pre insert post : Bytes) :
    (bodyEmit kind pre insert post).carried = pre ++ post := by
  unfold bodyEmit
  split_ifs <;> rfl

theorem asReceived_carried (part : RespPart) : (asReceived part).carried = part.payload := by
  cases part with
  | body bytes => exact List.append_nil bytes
  | _ => rfl

/-- No head or body byte of the parts is missing. -/
theorem Written.carried (h : Written parts emits) :
    emits.flatMap RespEmit.carried = parts.flatMap RespPart.payload := by
  induction h with
  | nil => rfl
  | part _ part ih => simp [ih, asReceived_carried]
  | anew _ kind part ih => simp [ih, bodyEmit_carried]
  | last _ ih => simp [ih, RespEmit.carried]
  | page _ _ hbody hsplit ih =>
    have hraw (raw : Bytes) : (RespPart.head raw).payload = raw := rfl
    rcases hbody with rfl | rfl <;> simp [ih, hraw, RespEmit.carried, ← hsplit]

end Written

/-- The bytes `fed` read as a response stream. What has been taken off the buffer of its parts has
been written in their order, but for those that are held. -/
structure Accounted (fed : Bytes) (emits : List RespEmit) (rw : Rewriter) : Prop where
  parts : ∃ done waiting, Reads (done ++ waiting) rw.pos ∧
    (done ++ waiting).flatMap RespPart.wire ++ rw.respBuf = fed ∧ Written done emits ∧
    rw.Holds waiting
  scanning : ∀ bs, rw.resp = .buffer bs → bs.bodyDone = false

/-- Bytes leave the buffer as the next parts; some of what waits, and of these, is written. -/
theorem Accounted.step {fed : Bytes} {emits new : List RespEmit} {rw rw' : Rewriter}
    (h : Accounted fed emits rw) (more : List RespPart)
    (hread : ∀ parts, Reads parts rw.pos → Reads (parts ++ more) rw'.pos)
    (hwire : rw.respBuf = more.flatMap RespPart.wire ++ rw'.respBuf)
    (hwritten : ∀ done waiting, rw.Holds waiting → Written done emits → ∃ written kept,
      waiting ++ more = written ++ kept ∧ Written (done ++ written) (emits ++ new) ∧ rw'.Holds kept)
    (hscan : ∀ bs, rw'.resp = .buffer bs → bs.bodyDone = false) :
    Accounted fed (emits ++ new) rw' := by
  obtain ⟨done, waiting, hr, hw, hd, hh⟩ := h.parts
  obtain ⟨written, kept, hsplit, hd', hh'⟩ := hwritten done waiting hh hd
  have hall : done ++ written ++ kept = done ++ waiting ++ more := by
    rw [List.append_assoc, ← hsplit, List.append_assoc]
  refine ⟨⟨done ++ written, kept, ?_, ?_, hd', hh'⟩, hscan⟩
  · rw [hall]
    exact hread _ hr
  · rw [hall, ← hw, hwire]
    simp

/-- Nothing waits, and the next parts are written as received. -/
theorem Accounted.copy {fed : Bytes} {emits new : List RespEmit} {rw rw' : Rewriter}
    (h : Accounted fed emits rw) (hnil : rw.disabled = true ∨ ∀ bs, rw.resp ≠ .buffer bs)
    (more : List RespPart) (hread : ∀ parts, Reads parts rw.pos → Reads (parts ++ more) rw'.pos)
    (hwire : rw.respBuf = more.flatMap RespPart.wire ++ rw'.respBuf)
    (hnew : new = more.map asReceived)
    (hholds : rw'.Holds []) (hscan : ∀ bs, rw'.resp = .buffer bs → bs.bodyDone = false) :
    Accounted fed (emits ++ new) rw' := by
  refine h.step more hread hwire (fun done waiting hw hd => ?_) hscan
  obtain rfl := hw.eq_nil hnil
  refine ⟨more, [], by simp, ?_, hholds⟩
  rw [hnew]
  exact hd.copies more

/-- The page that is held is written, with what has been scanned of its body and the next part. -/
theorem Accounted.page {fed : Bytes} {emits : List RespEmit} {rw rw' : Rewriter}
    (h : Accounted fed emits rw) {bs : BodyScan} (hd : rw.disabled = false)
    (hr : rw.resp = .buffer bs) (part : RespPart)
    (hread : ∀ parts, Reads parts rw.pos → Reads (parts ++ [part]) rw'.pos)
    (hwire : rw.respBuf = [part].flatMap RespPart.wire ++ rw'.respBuf)
    {text pre insert post : Bytes} {body : RespEmit} {rest : List RespEmit}
    (htext : text = bs.origHead ∨ ∃ cl, text = editResponseHead bs.origHead cl)
    (hbody : body = .body pre insert post ∨ body = .chunk pre insert post)
    (hsplit : pre ++ post = bs.scan ++ part.payload)
    (hrest : ∀ {parts emits}, Written parts emits → Written parts (emits ++ rest))
    (hholds : rw'.Holds []) (hscan : ∀ bs, rw'.resp = .buffer bs → bs.bodyDone = false) :
    Accounted fed (emits ++ (.head bs.origHead text :: body :: rest)) rw' := by
  refine h.step [part] hread hwire (fun done waiting hw hwritten => ?_) hscan
  obtain ⟨scanned, rfl, hs⟩ := hw.page hd hr
  refine ⟨_, [], (List.append_nil _).symm, ?_, hholds⟩
  have hpayload : pre ++ post = (scanned ++ [part]).flatMap RespPart.payload := by
    simpa [hs] using hsplit
  simpa using hrest (hwritten.page htext hbody hpayload)

/-- Nothing waits, and the body bytes of the next part are written anew. -/
theorem Accounted.anew {fed : Bytes} {emits : List RespEmit} {rw rw' : Rewriter}
    (h : Accounted fed emits rw) (hnil : rw.disabled = true ∨ ∀ bs, rw.resp ≠ .buffer bs)
    (kind : BodyKind) (part : RespPart)
    (hread : ∀ parts, Reads parts rw.pos → Reads (parts ++ [part]) rw'.pos)
    (hwire : rw.respBuf = [part].flatMap RespPart.wire ++ rw'.respBuf)
    {bytes : Bytes} {rest : List RespEmit} (hbytes : bytes = part.payload)
    (hrest : ∀ {parts emits}, Written parts emits → Written parts (emits ++ rest))
    (hholds : rw'.Holds []) (hscan : ∀ bs, rw'.resp = .buffer bs → bs.bodyDone = false) :
    Accounted fed (emits ++ (bodyEmit kind bytes [] [] :: rest)) rw' := by
  refine h.step [part] hread hwire (fun done waiting hw hwritten => ?_) hscan
  obtain rfl := hw.eq_nil hnil
  refine ⟨[part], [], rfl, ?_, hholds⟩
  rw [hbytes]
  simpa using hrest (hwritten.anew kind part)

section Step

variable {p : Profile} {fed : Bytes} {emits : List RespEmit} {rw : Rewriter} {it : RespIter}

private theorem accounted_head (h : Accounted fed emits rw) (hd : rw.disabled = false)
    (hr : rw.resp = .head) : Accounted fed (emits ++ rw.stepResponseHead.emits)
      rw.stepResponseHead.rw := by
  have hnil : rw.disabled = true ∨ ∀ bs, rw.resp ≠ .buffer bs := Or.inr (by simp [hr])
  have hpos : rw.pos = .head := by simp [pos, hd, hr]
  generalize hit : rw.stepResponseHead = it
  have hc := hit ▸ rw.stepResponseHead_cases
  cases hc with
  | wait => simpa using h
  | oversized | unparsed =>
    refine h.copy hnil [.body rw.respBuf] (fun parts hp => ?_) ?_ rfl (holds_disabled rfl) ?_
    · simpa [pos, disableFlushResp] using hp.flush rw.respBuf
    · simp [disableFlushResp, RespPart.wire]
    · simp [disableFlushResp, hr]
  | @interim hend status headers he hh hs =>
    refine h.copy hnil [.head (rw.respBuf.take hend)] (fun parts hp => ?_) ?_ rfl
      (holds_nil (by simp [hr])) (by simp [hr])
    · rw [hpos] at hp
      have hf : responseFraming status false headers = none := by
        rw [responseFraming, if_pos (by omega)]
      simpa [pos, hd, hr] using hp.headOf he hh (.message hf)
    · simp [RespPart.wire]
  | @switch hend headers he hh =>
    refine h.copy hnil [.head (rw.respBuf.take hend), .body (rw.respBuf.drop hend)]
      (fun parts hp => ?_) ?_ rfl (holds_disabled rfl) (by simp [hr])
    · rw [hpos] at hp
      simpa [pos] using (hp.headOf he hh (.switch rfl)).raw
    · simp [RespPart.wire]
  | @bodiless hend status headers he hh hf =>
    refine h.copy hnil [.head (rw.respBuf.take hend)] (fun parts hp => ?_) ?_ rfl
      (holds_nil (by simp [hr])) (by simp [hr])
    · rw [hpos] at hp
      simpa [pos, hd, hr] using hp.headOf he hh (.message hf)
    · simp [RespPart.wire]
  | @inject hend status headers framing he hh hf hi =>
    refine h.step [.head (rw.respBuf.take hend)] (fun parts hp => ?_) ?_ ?_ ?_
    · rw [hpos] at hp
      simpa [pos, hd] using hp.headOf he hh (.body hf)
    · simp [RespPart.wire]
    · intro done waiting hw hdone
      obtain rfl := hw.eq_nil hnil
      refine ⟨[], [.head (rw.respBuf.take hend)], rfl, by simpa using hdone, ?_⟩
      simp [Holds, hd]
    · rintro bs hbs
      obtain rfl := RespState.buffer.inj hbs
      rfl
  | @pass hend status headers framing he hh hf hi =>
    refine h.copy hnil [.head (rw.respBuf.take hend)] (fun parts hp => ?_) ?_ rfl
      (holds_nil (by simp)) (by simp)
    · rw [hpos] at hp
      simpa [pos, hd] using hp.headOf he hh (.body hf)
    · simp [RespPart.wire]

/-- Body bytes leave the buffer as the next part. -/
private theorem wire_pulled (kind : BodyKind) (buf : Bytes) :
    buf = [pulledPart kind (pullBody kind buf)].flatMap RespPart.wire ++
      (pullBody kind buf).rest := by
  simpa [pulledPart_wire] using (pullBody_split kind buf).symm

private theorem afterScan_pos {kind : BodyKind} {buf : Bytes}
    (he : (pullBody kind buf).step ≠ .error) (rw : Rewriter) (hd : rw.disabled = false)
    (buf' : Bytes) :
    pos { rw with
      respBuf := buf'
      resp := (afterScan (pullBody kind buf).body ((pullBody kind buf).step == .done)).2 } =
      pulledPos (pullBody kind buf) := by
  cases kind with
  | close => simp [pos, afterScan, pullBody, pulledPos, hd]
  | length n =>
    simp only [pos, afterScan, pullBody, pulledPos, hd]
    split_ifs <;> simp_all
  | chunked r =>
    simp only [pullBody] at he
    by_cases hs : (r.consume buf).step = .done
    · simp [pos, afterScan, pullBody, pulledPos, hd, hs]
    · simp [pos, afterScan, pullBody, pulledPos, hd, Step.eq_needMore he hs]

private theorem afterScan_scanning (kind : BodyKind) (bodyDone : Bool) :
    ∀ bs, (afterScan kind bodyDone).2 ≠ .buffer bs := by
  intro bs
  unfold afterScan
  split <;> (try split_ifs) <;> simp

private theorem accounted_buffer {bs : BodyScan} (h : Accounted fed emits rw)
    (hd : rw.disabled = false) (hr : rw.resp = .buffer bs)
    (hcap : rw.respBuf.length ≤ maxBodyCapture)
    (hit : Rewriter.stepResponseBuffer p { rw with resp := .head } bs = .ok it) :
    Accounted fed (emits ++ it.emits) it.rw := by
  have hdone := h.scanning bs hr
  have hpos : rw.pos = .body bs.body := by simp [pos, hd, hr]
  have hbytes := @pullBody_bytes bs.body _ hcap
  have hpart := pullBody_part bs.body rw.respBuf
  have hpay := pulledPart_payload bs.body rw.respBuf
  have hwire := wire_pulled bs.body rw.respBuf
  have hafter := fun he => @afterScan_pos bs.body rw.respBuf he
    { rw with resp := .head } hd (pullBody bs.body rw.respBuf).rest
  have hc : BufferStep p { rw with resp := .head } bs (pullBody bs.body rw.respBuf) it :=
    stepResponseBuffer_cases hit
  generalize pullBody bs.body rw.respBuf = pulled at *
  have hnone (buf : Bytes) (bodyDone : Bool) : Holds { rw with
      respBuf := buf, resp := (afterScan pulled.body bodyDone).2 } [] :=
    holds_nil (afterScan_scanning _ _)
  cases hc with
  | malformed he =>
    refine h.page hd hr (pulledPart bs.body pulled) (fun parts hp => ?_) hwire (Or.inl rfl)
      (Or.inr rfl) (by simp [hpay, hbytes]) (fun h => h.last) (holds_disabled rfl) (by simp)
    rw [hpos] at hp
    rw [pulledPos, he] at hpart
    simpa [pos] using hp.body hpart
  | wait he hdec =>
    have hw := decideAnchor_waits hdec
    have hneed : pulled.step = .needMore := by
      refine Step.eq_needMore he fun hs => ?_
      simp [hs] at hw
    refine h.step [pulledPart bs.body pulled] (fun parts hp => ?_) hwire ?_ ?_
    · rw [hpos] at hp
      rw [pulledPos, hneed] at hpart
      simpa [pos, hd] using hp.body hpart
    · intro done waiting hw hwritten
      obtain ⟨scanned, rfl, hs⟩ := hw.page hd hr
      refine ⟨[], _, rfl, by simpa using hwritten, ?_⟩
      unfold Holds
      rw [if_neg (by simp [hd])]
      exact ⟨scanned ++ [pulledPart bs.body pulled], rfl, by simp [hs, hpay, hbytes]⟩
    · rintro bs' hbs
      obtain rfl := RespState.buffer.inj hbs
      exact hw
  | inject he hdec =>
    refine h.page hd hr (pulledPart bs.body pulled) (fun parts hp => ?_) hwire (Or.inr ⟨_, rfl⟩)
      (bodyEmit_eq _ _ _ _) ?_ (fun h => h.afterScan _ _) (hnone _ _)
      fun bs' hbs => absurd hbs (afterScan_scanning _ _ bs')
    · rw [hpos] at hp
      simp only [hdone, Bool.false_or, hafter he]
      exact hp.body hpart
    · rw [List.take_append_drop, hpay, hbytes]
  | abandon he hdec =>
    refine h.page hd hr (pulledPart bs.body pulled) (fun parts hp => ?_) hwire (Or.inl rfl)
      (bodyEmit_eq _ _ _ _) (by simp [hpay, hbytes]) (fun h => h.afterScan _ _) (hnone _ _)
      fun bs' hbs => absurd hbs (afterScan_scanning _ _ bs')
    rw [hpos] at hp
    simp only [hdone, Bool.false_or, hafter he]
    exact hp.body hpart

private theorem accounted_stream {kind : BodyKind} (h : Accounted fed emits rw)
    (hd : rw.disabled = false) (hr : rw.resp = .stream kind)
    (hcap : rw.respBuf.length ≤ maxBodyCapture) :
    Accounted fed (emits ++ (stepResponseStream { rw with resp := .head } kind).emits)
      (stepResponseStream { rw with resp := .head } kind).rw := by
  have hpos : rw.pos = .body kind := by simp [pos, hd, hr]
  have hpart := pullBody_part kind rw.respBuf
  have hbytes : (pullBody kind rw.respBuf).bytes =
      (pulledPart kind (pullBody kind rw.respBuf)).payload :=
    (@pullBody_bytes kind _ hcap).trans (pulledPart_payload kind rw.respBuf).symm
  have hnil : rw.disabled = true ∨ ∀ bs, rw.resp ≠ .buffer bs := Or.inr (by simp [hr])
  unfold stepResponseStream
  dsimp only
  cases hs : (pullBody kind rw.respBuf).step with
  | done =>
    refine h.anew hnil kind _ (fun parts hp => ?_) (wire_pulled _ _) hbytes
      (fun h => h.lastEmits kind) (holds_nil (by simp)) (by simp)
    rw [hpos] at hp
    rw [pulledPos, hs] at hpart
    simpa [pos, hd] using hp.body hpart
  | needMore =>
    refine h.anew hnil kind _ (fun parts hp => ?_) (wire_pulled _ _) hbytes
      (fun h => by simpa using h) (holds_nil (by simp)) (by simp)
    rw [hpos] at hp
    rw [pulledPos, hs] at hpart
    simpa [pos, hd] using hp.body hpart
  | error =>
    refine h.anew hnil kind _ (fun parts hp => ?_) (wire_pulled _ _) hbytes
      (fun h => h.lastEmits kind) (holds_disabled rfl) (by simp)
    rw [hpos] at hp
    rw [pulledPos, hs] at hpart
    simpa [pos] using hp.body hpart

private theorem accounted_pass {kind : BodyKind} (h : Accounted fed emits rw)
    (hd : rw.disabled = false) (hr : rw.resp = .pass kind) :
    Accounted fed (emits ++ (stepResponsePass { rw with resp := .head } kind).emits)
      (stepResponsePass { rw with resp := .head } kind).rw := by
  have hpos : rw.pos = .body kind := by simp [pos, hd, hr]
  have hnil : rw.disabled = true ∨ ∀ bs, rw.resp ≠ .buffer bs := Or.inr (by simp [hr])
  have hpart := pullBody_part kind rw.respBuf
  have hemit : (if isChunkedKind kind then
      RespEmit.coded (pullBody kind rw.respBuf).wire (pullBody kind rw.respBuf).decoded
      else .body (pullBody kind rw.respBuf).bytes [] []) =
        asReceived (pulledPart kind (pullBody kind rw.respBuf)) := by
    cases kind <;> rfl
  unfold stepResponsePass
  dsimp only
  rw [hemit]
  cases hs : (pullBody kind rw.respBuf).step with
  | done =>
    refine h.copy hnil [pulledPart kind (pullBody kind rw.respBuf)] (fun parts hp => ?_)
      (wire_pulled _ _) rfl (holds_nil (by simp)) (by simp)
    rw [hpos] at hp
    rw [pulledPos, hs] at hpart
    simpa [pos, hd] using hp.body hpart
  | needMore =>
    refine h.copy hnil [pulledPart kind (pullBody kind rw.respBuf)] (fun parts hp => ?_)
      (wire_pulled _ _) rfl (holds_nil (by simp)) (by simp)
    rw [hpos] at hp
    rw [pulledPos, hs] at hpart
    simpa [pos, hd] using hp.body hpart
  | error =>
    refine h.copy hnil [pulledPart kind (pullBody kind rw.respBuf),
      .body (pullBody kind rw.respBuf).rest] (fun parts hp => ?_) ?_ rfl (holds_disabled rfl)
      (by simp [disableFlushResp])
    · rw [hpos] at hp
      rw [pulledPos, hs] at hpart
      simpa [pos, disableFlushResp] using (hp.body hpart).raw
    · have := wire_pulled kind rw.respBuf
      simpa [disableFlushResp, RespPart.wire] using this

/-- Every iteration keeps the account. -/
theorem stepResponse_accounted (h : Accounted fed emits rw) (hd : rw.disabled = false)
    (hcap : rw.respBuf.length ≤ maxBodyCapture) (hit : rw.stepResponse p = .ok it) :
    Accounted fed (emits ++ it.emits) it.rw := by
  unfold stepResponse at hit
  cases hr : rw.resp with
  | head =>
    have hrw : { rw with resp := .head } = rw := by rw [← hr]
    simp only [hr, hrw] at hit
    obtain rfl := Except.ok.inj hit
    exact accounted_head h hd hr
  | buffer bs =>
    simp only [hr] at hit
    exact accounted_buffer h hd hr hcap hit
  | stream kind =>
    simp only [hr] at hit
    obtain rfl := Except.ok.inj hit
    exact accounted_stream h hd hr hcap
  | pass kind =>
    simp only [hr] at hit
    obtain rfl := Except.ok.inj hit
    exact accounted_pass h hd hr

end Step

theorem stepResponse_respBuf_le {p : Profile} {rw : Rewriter} {it : RespIter}
    (h : rw.stepResponse p = .ok it) : it.rw.respBuf.length ≤ rw.respBuf.length := by
  unfold stepResponse at h
  cases hr : rw.resp with
  | head =>
    simp only [hr] at h
    obtain rfl := Except.ok.inj h
    generalize hit : stepResponseHead { rw with resp := .head } = it
    have hc := hit ▸ stepResponseHead_cases { rw with resp := .head }
    cases hc <;> simp [disableFlushResp]
  | buffer bs =>
    simp only [hr] at h
    have hle := pullBody_rest_le bs.body rw.respBuf
    cases stepResponseBuffer_cases h <;> exact hle
  | stream kind =>
    simp only [hr] at h
    obtain rfl := Except.ok.inj h
    have hle := pullBody_rest_le kind rw.respBuf
    unfold stepResponseStream
    cases hs : (pullBody kind rw.respBuf).step <;> simpa [hs] using hle
  | pass kind =>
    simp only [hr] at h
    obtain rfl := Except.ok.inj h
    have hle := pullBody_rest_le kind rw.respBuf
    unfold stepResponsePass
    cases hs : (pullBody kind rw.respBuf).step <;> simp [hs, disableFlushResp, hle]

/-- The response side leaves the rest of the rewriter alone. -/
theorem stepResponse_frame {p : Profile} {rw : Rewriter} {it : RespIter}
    (h : rw.stepResponse p = .ok it) : it.rw.active = rw.active ∧ it.rw.blob = rw.blob ∧
      it.rw.req = rw.req ∧ it.rw.reqBuf = rw.reqBuf ∧
      (it.go = true → it.rw.disabled = rw.disabled) := by
  unfold stepResponse at h
  cases hr : rw.resp with
  | head =>
    simp only [hr] at h
    obtain rfl := Except.ok.inj h
    generalize hit : stepResponseHead { rw with resp := .head } = it
    have hc := hit ▸ stepResponseHead_cases { rw with resp := .head }
    cases hc <;> simp [disableFlushResp]
  | buffer bs =>
    simp only [hr] at h
    cases stepResponseBuffer_cases h <;> simp
  | stream kind =>
    simp only [hr] at h
    obtain rfl := Except.ok.inj h
    unfold stepResponseStream
    cases hs : (pullBody kind rw.respBuf).step <;> simp [hs]
  | pass kind =>
    simp only [hr] at h
    obtain rfl := Except.ok.inj h
    unfold stepResponsePass
    cases hs : (pullBody kind rw.respBuf).step <;> simp [hs, disableFlushResp]

/-- What an iteration that goes on keeps and the last one ends in, a whole call ends in. -/
theorem driveResponse_rule {p : Profile} {running returned : List RespEmit → Rewriter → Prop}
    {rw rw' : Rewriter} {o : List RespEmit} (h : running [] rw) (hd : rw.disabled = false)
    (hstep : ∀ o r it, running o r → r.disabled = false → r.stepResponse p = .ok it →
      if it.go then running (o ++ it.emits) it.rw else returned (o ++ it.emits) it.rw)
    (hrun : driveResponse p rw = .ok (o, rw')) : returned o rw' := by
  have hinv := (responseMachine p).run_invariant (s := .running rw) (o := [])
    (P := fun o l => l.Meets (fun r => running o r ∧ r.disabled = false) (returned o) True)
    ⟨h, hd⟩ ?_
  · have hhalt := (responseMachine p).run_halts (.running rw)
    unfold driveResponse at hrun
    dsimp only at hrun
    split at hrun
    · next r hl =>
      rw [hl] at hhalt
      simp only [responseMachine, responseLoop] at hhalt
      split at hhalt <;> cases hhalt
    · next r hl =>
      obtain ⟨rfl, rfl⟩ : _ = o ∧ r = rw' := by simpa using hrun
      rw [hl, List.nil_append] at hinv
      exact hinv
    · simp at hrun
  · rintro o l o' l' hl hs
    cases l with
    | returned r => simp [responseMachine, responseLoop] at hs
    | panicked e => simp [responseMachine, responseLoop] at hs
    | running r =>
      simp only [responseMachine, responseLoop] at hs
      cases hit : r.stepResponse p with
      | error e =>
        simp only [hit, Option.some.injEq, Prod.mk.injEq] at hs
        obtain ⟨rfl, rfl⟩ := hs
        trivial
      | ok it =>
        simp only [hit, Option.some.injEq, Prod.mk.injEq] at hs
        obtain ⟨rfl, rfl⟩ := hs
        have hnext := hstep o r it hl.1 hl.2 hit
        cases hgo : it.go with
        | false =>
          rw [hgo] at hnext
          exact hnext
        | true =>
          rw [hgo] at hnext
          exact ⟨hnext, ((stepResponse_frame hit).2.2.2.2 hgo).trans hl.2⟩

/-- What every iteration keeps, a whole call keeps. -/
theorem driveResponse_invariant {p : Profile} {P : List RespEmit → Rewriter → Prop}
    {rw rw' : Rewriter} {o : List RespEmit} (h : P [] rw) (hd : rw.disabled = false)
    (hstep : ∀ o r it, P o r → r.disabled = false → r.stepResponse p = .ok it →
      P (o ++ it.emits) it.rw)
    (hrun : driveResponse p rw = .ok (o, rw')) : P o rw' := by
  refine driveResponse_rule h hd (fun o r it hr hdis hit => ?_) hrun
  rw [ite_self]
  exact hstep o r it hr hdis hit

theorem driveResponse_accounted {p : Profile} {fed : Bytes} {emits o : List RespEmit}
    {rw rw' : Rewriter} (h : Accounted fed emits rw) (hd : rw.disabled = false)
    (hcap : rw.respBuf.length ≤ maxBodyCapture) (hrun : driveResponse p rw = .ok (o, rw')) :
    Accounted fed (emits ++ o) rw' := by
  refine (driveResponse_invariant (P := fun o r => Accounted fed (emits ++ o) r ∧
    r.respBuf.length ≤ maxBodyCapture) ⟨by simpa using h, hcap⟩ hd ?_ hrun).1
  rintro o r it ⟨hacc, hlen⟩ hdis hit
  rw [← List.append_assoc]
  exact ⟨stepResponse_accounted hacc hdis hlen hit, (stepResponse_respBuf_le hit).trans hlen⟩

theorem feedResponse_running (p : Profile) {rw : Rewriter} (hact : rw.active = true)
    (hd : rw.disabled = false) (data : Bytes) :
    rw.feedResponse p data = driveResponse p { rw with respBuf := rw.respBuf ++ data } := by
  rw [feedResponse, if_neg (by simp [hact, hd])]

/-- The request side, in state `req` with `buf` to read, meets a message that it does not follow:
an oversized head, one that does not parse, or a body that is not delimited by a length. -/
inductive GivesUp : (req : ReqState) → (buf : Bytes) → Prop
  | oversized {buf : Bytes} (he : findHeaderEnd buf = none) (hlt : maxHeaderBytes < buf.length) :
      GivesUp .head buf
  | unparsed {buf : Bytes} {hend : ℕ} (he : findHeaderEnd buf = some hend)
      (hh : requestHead (buf.take (hend - 4)) = none) : GivesUp .head buf
  | coded {buf : Bytes} {hend : ℕ} {method : Str} {headers : Headers} {framing : Framing}
      (he : findHeaderEnd buf = some hend)
      (hh : requestHead (buf.take (hend - 4)) = some (method, headers))
      (hf : requestFraming headers = some framing) (hc : ∀ n, framing ≠ .length n) :
      GivesUp .head buf
  | bodiless {buf : Bytes} {hend : ℕ} {method : Str} {headers : Headers}
      (he : findHeaderEnd buf = some hend)
      (hh : requestHead (buf.take (hend - 4)) = some (method, headers))
      (hf : requestFraming headers = none) (h : GivesUp .head (buf.drop hend)) : GivesUp .head buf
  | sized {buf : Bytes} {hend n : ℕ} {method : Str} {headers : Headers}
      (he : findHeaderEnd buf = some hend)
      (hh : requestHead (buf.take (hend - 4)) = some (method, headers))
      (hf : requestFraming headers = some (.length n)) (h : GivesUp (.body n) (buf.drop hend)) :
      GivesUp .head buf
  | body {n : ℕ} {buf : Bytes} (hle : n ≤ buf.length) (h : GivesUp .head (buf.drop n)) :
      GivesUp (.body n) buf

/-- The request side leaves the response side alone. -/
theorem stepRequest_frame {rw rw' : Rewriter} {o : Bytes} (h : rw.stepRequest = some (o, rw')) :
    rw'.active = rw.active ∧ rw'.blob = rw.blob ∧ rw'.resp = rw.resp ∧
      rw'.respBuf = rw.respBuf := by
  unfold stepRequest at h
  by_cases hd : rw.disabled = true
  · simp [hd] at h
  · simp only [hd, Bool.false_eq_true, if_false] at h
    split at h
    · split at h
      · split_ifs at h
        obtain ⟨-, rfl⟩ := by simpa using h
        simp
      · split at h
        · obtain ⟨-, rfl⟩ := by simpa using h
          simp
        · split at h <;> obtain ⟨-, rfl⟩ := by simpa using h
          all_goals simp
    · split_ifs at h <;> obtain ⟨-, rfl⟩ := by simpa using h
      all_goals simp

theorem stepRequest_followed {rw rw' : Rewriter} {o : Bytes} (hd : rw.disabled = false)
    (hg : ¬ GivesUp rw.req rw.reqBuf) (h : rw.stepRequest = some (o, rw')) :
    rw'.disabled = false ∧ ¬ GivesUp rw'.req rw'.reqBuf := by
  unfold stepRequest at h
  simp only [hd, Bool.false_eq_true, if_false] at h
  split at h
  · next hreq =>
    rw [hreq] at hg
    split at h
    · next he =>
      split_ifs at h with hlt
      exact absurd (.oversized he hlt) hg
    · next hend he =>
      split at h
      · next hh => exact absurd (.unparsed he hh) hg
      · next method headers hh =>
        split at h
        · next hf =>
          obtain ⟨-, rfl⟩ := by simpa using h
          exact ⟨rfl, fun hg' => hg (.bodiless he hh hf (by simpa [hreq] using hg'))⟩
        · next n hf =>
          obtain ⟨-, rfl⟩ := by simpa using h
          exact ⟨rfl, fun hg' => hg (.sized he hh hf hg')⟩
        · next framing hne hf => exact absurd (.coded he hh hf hne) hg
  · next n hreq =>
    rw [hreq] at hg
    split_ifs at h with h0 ht <;> obtain ⟨-, rfl⟩ := by simpa using h
    · have hle : n ≤ rw.reqBuf.length := by omega
      refine ⟨rfl, fun hg' => hg (.body hle ?_)⟩
      simpa [Nat.min_eq_left hle] using hg'
    · refine ⟨rfl, fun hg' => ?_⟩
      cases hg' with
      | body hle =>
        simp only [List.length_drop] at hle
        omega

theorem feedRequest_frame (rw : Rewriter) (data : Bytes) :
    (rw.feedRequest data).2.active = rw.active ∧ (rw.feedRequest data).2.blob = rw.blob ∧
      (rw.feedRequest data).2.resp = rw.resp ∧ (rw.feedRequest data).2.respBuf = rw.respBuf := by
  unfold feedRequest
  split_ifs
  · simp
  · exact requestFeeder.run_invariant (o := [])
      (P := fun _ r => r.active = rw.active ∧ r.blob = rw.blob ∧ r.resp = rw.resp ∧
        r.respBuf = rw.respBuf) (s := { rw with reqBuf := rw.reqBuf ++ data })
      ⟨rfl, rfl, rfl, rfl⟩ fun _ _ _ _ hl hs => by
        obtain ⟨h1, h2, h3, h4⟩ := stepRequest_frame hs
        exact ⟨h1.trans hl.1, h2.trans hl.2.1, h3.trans hl.2.2.1, h4.trans hl.2.2.2⟩

theorem feedRequest_followed {rw : Rewriter} {data : Bytes} (hd : rw.disabled = false)
    (hg : ¬ GivesUp rw.req (rw.reqBuf ++ data)) : (rw.feedRequest data).2.disabled = false := by
  unfold feedRequest
  split_ifs
  · exact hd
  · exact (requestFeeder.run_invariant (o := [])
      (P := fun _ r => r.disabled = false ∧ ¬ GivesUp r.req r.reqBuf)
      (s := { rw with reqBuf := rw.reqBuf ++ data }) ⟨hd, hg⟩ fun _ _ _ _ hl hs =>
        stepRequest_followed hl.1 hl.2 hs).1

/-- A call of either direction. -/
inductive Op where
  | request (data : Bytes)
  | response (data : Bytes)

/-- Successive calls: what is written to the app. -/
def runOps (p : Profile) : Rewriter → List Op → Except Panic (List RespEmit × Rewriter)
  | rw, [] => .ok ([], rw)
  | rw, .request data :: ops => (rw.feedRequest data).2.runOps p ops
  | rw, .response data :: ops =>
    match rw.feedResponse p data with
    | .error e => .error e
    | .ok (emits, rw) => (rw.runOps p ops).map fun r => (emits ++ r.1, r.2)

def responseFed (ops : List Op) : Bytes :=
  ops.flatMap fun | .request _ => [] | .response d => d

/-- What a call asks of the state it meets: the request side does not give up while a response is
held, and what is buffered of the responses fits one capture. -/
def Op.Calm (rw : Rewriter) : Op → Prop
  | .request data => (∃ bs, rw.resp = .buffer bs) → ¬ GivesUp rw.req (rw.reqBuf ++ data)
  | .response data => (rw.respBuf ++ data).length ≤ maxBodyCapture

/-- Disabled, the rewriter writes what it has buffered before anything new. -/
theorem feedResponse_disabled (p : Profile) {rw : Rewriter} (hd : rw.disabled = true)
    (data : Bytes) :
    rw.feedResponse p data = .ok ([.body (rw.respBuf ++ data) [] []], { rw with respBuf := [] }) := by
  simp [feedResponse, hd]

theorem Accounted.request {fed : Bytes} {emits : List RespEmit} {rw : Rewriter} {data : Bytes}
    (h : Accounted fed emits rw) (hcalm : (Op.request data).Calm rw) :
    Accounted fed emits (rw.feedRequest data).2 := by
  obtain ⟨-, -, hresp, hbuf⟩ := rw.feedRequest_frame data
  obtain ⟨done, waiting, hr, hw, hwritten, hholds⟩ := h.parts
  have hscan : ∀ bs, (rw.feedRequest data).2.resp = .buffer bs → bs.bodyDone = false :=
    fun bs hbs => h.scanning bs (hresp ▸ hbs)
  cases hd' : (rw.feedRequest data).2.disabled with
  | false =>
    have hd : rw.disabled = false := by
      cases hd : rw.disabled with
      | false => rfl
      | true => simp [feedRequest, hd] at hd'
    have hpos : (rw.feedRequest data).2.pos = rw.pos := by simp [pos, hd, hd', hresp]
    have hkept : (rw.feedRequest data).2.Holds waiting := by
      unfold Holds at hholds ⊢
      rwa [hd', hresp, ← hd]
    exact ⟨⟨done, waiting, hpos ▸ hr, by rw [hbuf, hw], hwritten, hkept⟩, hscan⟩
  | true =>
    have hnil : waiting = [] := by
      refine hholds.eq_nil ?_
      cases hd : rw.disabled with
      | true => exact Or.inl rfl
      | false =>
        refine Or.inr fun bs hb => ?_
        have := feedRequest_followed hd (hcalm ⟨bs, hb⟩)
        simp [this] at hd'
    refine ⟨⟨done, waiting, ?_, by rw [hbuf, hw], hwritten, ?_⟩, hscan⟩
    · rw [pos, hd', if_pos rfl]
      exact hr.giveUp
    · rw [hnil]
      exact holds_disabled hd'

theorem Accounted.response {p : Profile} {fed : Bytes} {emits o : List RespEmit}
    {rw rw' : Rewriter} {data : Bytes} (h : Accounted fed emits rw) (hact : rw.active = true)
    (hcalm : (Op.response data).Calm rw) (hrun : rw.feedResponse p data = .ok (o, rw')) :
    Accounted (fed ++ data) (emits ++ o) rw' := by
  have hext : Accounted (fed ++ data) emits { rw with respBuf := rw.respBuf ++ data } := by
    obtain ⟨done, waiting, hr, hw, hwritten, hholds⟩ := h.parts
    exact ⟨⟨done, waiting, hr, by rw [← hw, List.append_assoc], hwritten, hholds⟩, h.scanning⟩
  cases hd : rw.disabled with
  | false =>
    rw [feedResponse_running p hact hd] at hrun
    exact driveResponse_accounted hext hd hcalm hrun
  | true =>
    rw [feedResponse_disabled p hd] at hrun
    obtain ⟨rfl, rfl⟩ : _ = o ∧ _ = rw' := by simpa using hrun
    refine hext.copy (Or.inl hd) [.body (rw.respBuf ++ data)] (fun parts hp => ?_) ?_ rfl
      (holds_disabled hd) h.scanning
    · simpa [pos, hd] using hp.flush (rw.respBuf ++ data)
    · simp [RespPart.wire]

theorem feedResponse_active {p : Profile} {rw rw' : Rewriter} {data : Bytes} {o : List RespEmit}
    (hact : rw.active = true) (hrun : rw.feedResponse p data = .ok (o, rw')) :
    rw'.active = true := by
  cases hd : rw.disabled with
  | true =>
    rw [feedResponse_disabled p hd] at hrun
    obtain ⟨-, rfl⟩ : _ = o ∧ _ = rw' := by simpa using hrun
    exact hact
  | false =>
    rw [feedResponse_running p hact hd] at hrun
    exact @driveResponse_invariant p (fun _ r => r.active = true)
      { rw with respBuf := rw.respBuf ++ data } _ _ hact hd
      (fun _ r it hr _ hit => (stepResponse_frame hit).1.trans hr) hrun

/-- In the release profile no sum overflows into a panic. -/
theorem stepResponse_release (rw : Rewriter) : ∃ it, rw.stepResponse .release = .ok it := by
  have hadd : ∀ a b, ∃ n, usizeAdd .release a b = .ok n := by
    intro a b
    unfold usizeAdd
    split_ifs <;> exact ⟨_, rfl⟩
  unfold stepResponse
  cases rw.resp with
  | head => exact ⟨_, rfl⟩
  | stream kind => exact ⟨_, rfl⟩
  | pass kind => exact ⟨_, rfl⟩
  | buffer bs =>
    dsimp only [stepResponseBuffer]
    split_ifs
    · exact ⟨_, rfl⟩
    · split
      · exact ⟨_, rfl⟩
      · cases bs.clOriginal with
        | none => exact ⟨_, rfl⟩
        | some cl =>
          obtain ⟨n, hn⟩ := hadd cl rw.blob.length
          simp [hn, Except.map]
      · exact ⟨_, rfl⟩

theorem feedResponse_release (rw : Rewriter) (data : Bytes) :
    ∃ r, rw.feedResponse .release data = .ok r := by
  unfold feedResponse
  split_ifs
  · exact ⟨_, rfl⟩
  · have hinv := (responseMachine .release).run_invariant
      (s := .running { rw with respBuf := rw.respBuf ++ data }) (o := [])
      (P := fun _ l => ∀ e, l ≠ .panicked e) (by simp) ?_
    · unfold driveResponse
      dsimp only
      split
      · exact ⟨_, rfl⟩
      · exact ⟨_, rfl⟩
      · next e he => exact absurd he (hinv e)
    · rintro _ l o' l' - hs e rfl
      cases l with
      | returned r => simp [responseMachine, responseLoop] at hs
      | panicked e => simp [responseMachine, responseLoop] at hs
      | running r =>
        obtain ⟨it, hit⟩ := r.stepResponse_release
        simp only [responseMachine, responseLoop, hit, Option.some.injEq, Prod.mk.injEq] at hs
        split_ifs at hs <;> simp at hs

theorem runOps_release (rw : Rewriter) (ops : List Op) : ∃ r, rw.runOps .release ops = .ok r := by
  induction ops generalizing rw with
  | nil => exact ⟨_, rfl⟩
  | cons op ops ih =>
    cases op with
    | request data => exact ih _
    | response data =>
      obtain ⟨⟨emits, rw'⟩, hr⟩ := rw.feedResponse_release data
      obtain ⟨r, hrec⟩ := ih rw'
      exact ⟨(emits ++ r.1, r.2), by simp [runOps, hr, hrec, Except.map]⟩

/-- Every call of a run meets a state that it is calm in. -/
def CalmRun (p : Profile) (rw : Rewriter) (ops : List Op) : Prop :=
  ∀ pre op, pre ++ [op] <+: ops → ∀ emits rw', rw.runOps p pre = .ok (emits, rw') → op.Calm rw'

theorem CalmRun.tail {p : Profile} {rw rw' : Rewriter} {op : Op} {ops : List Op}
    {emits : List RespEmit} (h : CalmRun p rw (op :: ops)) (hop : rw.runOps p [op] = .ok (emits, rw')) :
    CalmRun p rw' ops := by
  intro pre next hpre emits' rw'' hr
  cases op with
  | request data =>
    obtain ⟨-, rfl⟩ : [] = emits ∧ _ = rw' := by simpa [runOps] using hop
    exact h (.request data :: pre) next (by simpa using hpre) emits' rw'' hr
  | response data =>
    cases hf : rw.feedResponse p data with
    | error e => simp [runOps, hf] at hop
    | ok r =>
      obtain ⟨o, r⟩ := r
      obtain ⟨-, rfl⟩ : o = emits ∧ r = rw' := by simpa [runOps, hf, Except.map] using hop
      exact h (.response data :: pre) next (by simpa using hpre) (o ++ emits') rw''
        (by simp [runOps, hf, hr, Except.map])

theorem runOps_accounted {p : Profile} {fed : Bytes} {emits : List RespEmit} {rw : Rewriter}
    {ops : List Op} (hcalm : CalmRun p rw ops) (hact : rw.active = true)
    (h : Accounted fed emits rw) {o : List RespEmit} {rw' : Rewriter}
    (hrun : rw.runOps p ops = .ok (o, rw')) :
    Accounted (fed ++ responseFed ops) (emits ++ o) rw' := by
  induction ops generalizing fed emits rw o with
  | nil =>
    obtain ⟨rfl, rfl⟩ : [] = o ∧ rw = rw' := by simpa [runOps] using hrun
    simpa [responseFed] using h
  | cons op ops ih =>
    have hop : op.Calm rw := hcalm [] op ⟨ops, rfl⟩ [] rw rfl
    cases op with
    | request data =>
      have := ih (hcalm.tail rfl) (by rw [(rw.feedRequest_frame data).1, hact])
        (h.request hop) hrun
      simpa [responseFed] using this
    | response data =>
      cases hf : rw.feedResponse p data with
      | error e => simp [runOps, hf] at hrun
      | ok r =>
        obtain ⟨o₁, rw₁⟩ := r
        cases hr : rw₁.runOps p ops with
        | error e => simp [runOps, hf, hr, Except.map] at hrun
        | ok r =>
          obtain ⟨o₂, rw₂⟩ := r
          obtain ⟨rfl, rfl⟩ : o₁ ++ o₂ = o ∧ rw₂ = rw' := by
            simpa [runOps, hf, hr, Except.map] using hrun
          have := ih (hcalm.tail (by simp [runOps, hf, Except.map]; rfl))
            (feedResponse_active hact hf) (h.response hact hop hf) hr
          simpa [responseFed] using this

private def htmlHead : Bytes :=
  ascii "HTTP/1.1 200 OK\r\nContent-Type: text/html\r\nContent-Length: 40\r\n\r\n"

private def upload : Bytes := ascii "POST /u HTTP/1.1\r\nTransfer-Encoding: chunked\r\n\r\n"

end Rewriter

end Adwarden.Tls
