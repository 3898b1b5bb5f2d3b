import Adwarden.Tls.HeadEditGrammar
import Adwarden.Tls.RewriterLedger

/-! What the rewriter makes of an HTML response: the response it received, or the same response with
the payload inserted at one place. -/
namespace Adwarden.Tls
open Adwarden.Lib

/-- The longest piece one call is given. -/
def maxFeed : ℕ := 16 * 1024

/-- `text` carries `body`, in the chunked coding or as it is. -/
inductive Carries : (coded : Bool) → (text body : Bytes) → Prop
  | plain {body : Bytes} : Carries false body body
  | chunked {lines : ℕ} {text body : Bytes} (h : Chunked lines text body) : Carries true text body

/-- How the fields of a head delimit the body after it. -/
inductive Delimits (headers : Headers) : (coded : Bool) → (wire body : Bytes) → Prop
  | sized {body : Bytes} (hn : DeclaresLength headers body.length) : Delimits headers false body body
  | coded {lines : ℕ} {wire body : Bytes} (hc : ChunkedCoding headers)
      (hone : (fieldValues headers "transfer-encoding").length = 1)
      (hn : fieldValues headers "content-length" = []) (hw : Chunked lines wire body) :
      Delimits headers true wire body

/-- A response whose body is an HTML document. -/
structure HtmlResponse where
  head : Head
  coded : Bool
  wireBody : Bytes
  body : Bytes

namespace HtmlResponse

structure WellFormed (r : HtmlResponse) : Prop where
  head : r.head.WellFormed
  status : ∃ version status reason,
    parseStatusLine r.head.start = some (version, status, reason) ∧ ¬ Bodiless status ∧
      injectable status r.head.headers
  delimited : Delimits r.head.headers r.coded r.wireBody r.body

def wire (r : HtmlResponse) : Bytes := r.head.encode ++ r.wireBody

/-- `out` is the response, or the response with `blob` inserted into its body. -/
inductive Inserted (r : HtmlResponse) (blob : Bytes) : (out : Bytes) → Prop
  | kept {text : Bytes} (h : Carries r.coded text r.body) : Inserted r blob (r.head.encode ++ text)
  | inserted {text : Bytes} {a : ℕ} (ha : a ≤ r.body.length)
      (h : Carries r.coded text (r.body.take a ++ blob ++ r.body.drop a))
      (hn : r.coded = false →
        DeclaresLength (r.head.injected (r.body.length + blob.length)).headers
          (r.body.length + blob.length)) :
      Inserted r blob ((r.head.injected (r.body.length + blob.length)).encode ++ text)

/-- With `out` written, any text that carries the rest of the body completes the response. -/
def Completes (r : HtmlResponse) (blob out todo : Bytes) : Prop :=
  ∀ text, Carries r.coded text todo → r.Inserted blob (out ++ text)

end HtmlResponse

theorem Chunked.mono {lines lines' : ℕ} {wire body : Bytes} (h : Chunked lines wire body)
    (hle : lines ≤ lines') : Chunked lines' wire body := by
  induction h with
  | last hl hcap ht => exact .last hl (by omega) fun t hm => ⟨(ht t hm).1, by have := (ht t hm).2; omega⟩
  | chunk hl hcap hd _ ih => exact .chunk hl (by omega) hd ih

/-- The size line that `rechunk` writes. -/
theorem sizeLine_rechunk {n : ℕ} (hn : n < usizeSize) :
    SizeLine (Str.toBytes (Str.ofNatHex n) ++ CRLF) n := by
  have hd := @Str.toDigits_digits 16 (by omega) (by omega) n
  obtain ⟨htext, hbytes⟩ := @Str.toBytes_digits (Str.ofNatHex n) fun c hc =>
    (hd.1 c hc).imp fun d hd => hd.2
  have hne : Str.ofNatHex n ≠ [] := Nat.toDigits_ne_nil
  have key : ∀ d : Fin 16, isHexDigit (UInt8.ofNat (Nat.digitChar d).toNat) := by decide
  refine ⟨⟨Str.toBytes (Str.ofNatHex n), [], by simp, ?_, ?_, ?_, by simp, Or.inl rfl⟩, hn⟩
  · intro hnil
    rw [hnil] at htext
    exact hne htext.symm
  · intro b hb
    obtain ⟨d, rfl⟩ := hbytes b hb
    exact key d
  · rw [htext]
    exact hd.2

/-- The digits of a `usize` and a line end. -/
theorem sizeLine_rechunk_length {n : ℕ} (hn : n < usizeSize) :
    (Str.toBytes (Str.ofNatHex n) ++ CRLF).length ≤ 18 := by
  have hd := @Str.toDigits_digits 16 (by omega) (by omega) n
  obtain ⟨htext, -⟩ := @Str.toBytes_digits (Str.ofNatHex n) fun c hc =>
    (hd.1 c hc).imp fun d hd => hd.2
  have hlen := congrArg List.length htext
  rw [asciiStr, List.length_map] at hlen
  have hdigits : (Str.ofNatHex n).length ≤ 16 := by
    apply (Nat.length_toDigits_le_iff (by omega) (by omega)).mpr
    exact Nat.lt_of_lt_of_le hn (by decide)
  have htwo : CRLF.length = 2 := rfl
  rw [List.length_append, hlen]
  omega

/-- Chunks written anew are a chunked body again. -/
theorem chunked_rechunk {ss : List Bytes} (h : ∀ s ∈ ss, s.length < usizeSize) :
    Chunked 18 (ss.flatMap rechunk ++ ascii "0\r\n\r\n") ss.flatten := by
  induction ss with
  | nil =>
    have hlast : ascii "0\r\n\r\n" = ascii "0\r\n" ++ ([] : List Bytes).flatten ++ CRLF := by decide
    rw [List.flatMap_nil, List.nil_append, List.flatten_nil, hlast]
    exact .last sizeLine_zero (by decide) (by simp)
  | cons s ss ih =>
    have hss := ih fun s hm => h s (by simp [hm])
    by_cases hs : s = []
    · simpa [hs, rechunk] using hss
    · have hlt := h s (by simp)
      have hchunk := Chunked.chunk (sizeLine_rechunk hlt) (sizeLine_rechunk_length hlt) hs hss
      simpa [rechunk, hs] using hchunk

/-- A single field that ends in `chunked` is recognised. -/
theorem ChunkedCoding.isChunked {headers : Headers} (hc : ChunkedCoding headers)
    (hone : (fieldValues headers "transfer-encoding").length = 1) : isChunked headers := by
  obtain ⟨v, hv⟩ := List.length_eq_one_iff.mp hone
  obtain ⟨t, ht, heq⟩ := hc
  rw [hv, List.flatMap_singleton] at ht
  simp only [Tls.isChunked, header_eq_head, hv, List.head?_cons, List.any_eq_true]
  exact ⟨t, List.mem_of_mem_getLast? ht, heq⟩

namespace HtmlResponse

variable {r : HtmlResponse}

/-- The declared length, as the head parser reads it. -/
theorem WellFormed.contentLength (h : r.WellFormed) (hlt : r.body.length < usizeSize) :
    Tls.contentLength r.head.headers = if r.coded then none else some r.body.length := by
  have hd := h.delimited
  obtain ⟨head, coded, wireBody, body⟩ := r
  cases hd with
  | sized hn => simpa using hn.contentLength hlt
  | coded hc hone hn hw => simp [Tls.contentLength, header_eq_head, hn]

/-- The head of an injected response. -/
theorem WellFormed.editResponseHead (hw : r.WellFormed) {n : ℕ} {newCl : Option ℕ}
    (hcl : newCl = if r.coded then none else some n) :
    Tls.editResponseHead r.head.encode newCl = (r.head.injected n).encode := by
  refine editResponseHead_encode hw.head n ?_
  have hd := hw.delimited
  obtain ⟨head, coded, wireBody, body⟩ := r
  cases hd with
  | sized => exact Or.inl (by simpa using hcl)
  | coded hc hone hn =>
    refine Or.inr ⟨by simpa using hcl, fun f hf => ?_⟩
    rw [fieldValues_headers hw.head lengthName] at hn
    have hnone := List.filter_eq_nil_iff.mp (List.map_eq_nil_iff.mp hn) f hf
    simpa [isLengthField] using hnone

theorem WellFormed.injected_length (hw : r.WellFormed) (n : ℕ) (hc : r.coded = false) :
    DeclaresLength (r.head.injected n).headers n := by
  have hd := hw.delimited
  obtain ⟨head, coded, wireBody, body⟩ := r
  cases hd with
  | sized hn => exact hn.injected hw.head n
  | coded => simp at hc

theorem WellFormed.responseHead (h : r.WellFormed) :
    ∃ status, ¬ Bodiless status ∧ injectable status r.head.headers ∧
      Rewriter.responseHead (headText r.head.lines) = some (status, r.head.headers) := by
  obtain ⟨version, status, reason, hs, hb, hi⟩ := h.status
  exact ⟨status, hb, hi, by simp [Rewriter.responseHead, Head.parseHeadFields_text h.head, hs]⟩

end HtmlResponse

namespace Rewriter

/-- What `bodyEmit` writes carries its bytes on. -/
theorem bodyEmit_carries {kind : BodyKind} {pre insert post text todo : Bytes}
    (h : Carries (isChunkedKind kind) text todo)
    (hlt : (pre ++ insert ++ post).length < usizeSize) :
    Carries (isChunkedKind kind) ((bodyEmit kind pre insert post).render ++ text)
      (pre ++ insert ++ post ++ todo) := by
  unfold bodyEmit
  cases hk : isChunkedKind kind with
  | false =>
    rw [hk] at h
    cases h
    exact .plain
  | true =>
    rw [hk] at h
    cases h with
    | @chunked lines _ _ h =>
      simp only [if_true, RespEmit.render, rechunk]
      split_ifs with hnil
      · simpa [hnil] using Carries.chunked h
      · have hl := sizeLine_rechunk hlt
        have hc := Carries.chunked
          (.chunk hl (Nat.le_max_left _ lines) hnil (h.mono (Nat.le_max_right _ _)))
        simpa using hc

theorem lastEmits_carries (kind : BodyKind) :
    Carries (isChunkedKind kind) ((lastEmits kind).flatMap RespEmit.render) [] := by
  cases kind with
  | length n => exact .plain
  | close => exact .plain
  | chunked reader =>
    have h := @Chunked.last _ _ [] sizeLine_zero (Nat.le_refl _) (by simp)
    have htext : ascii "0\r\n\r\n" = ascii "0\r\n" ++ [].flatten ++ CRLF := by decide
    rw [← htext] at h
    exact .chunked (by simpa [lastEmits, isChunkedKind, RespEmit.render] using h)

/-- Where in a delimited body the reader stands: `ahead` is what it has still to read, up to the
bytes `x` after the body, and `todo` what of the body is in it. -/
inductive BodyAt (x : Bytes) : BodyKind → (ahead todo : Bytes) → Prop
  | sized {todo : Bytes} (hne : todo ≠ []) : BodyAt x (.length todo.length) (todo ++ x) todo
  | coded {lines : ℕ} {st : ChunkState} {ahead todo : Bytes} (h : ChunkAt lines x st ahead todo) :
      BodyAt x (.chunked ⟨st⟩) ahead todo

/-- What pulling from a position leaves: a position with more input due, or the end of the body. -/
inductive PulledAt (x : Bytes) (kind : BodyKind) (rest todo : Bytes) (pulled : Pulled) : Prop
  | wait {todo' : Bytes} (hs : pulled.step = .needMore) (htodo : todo = pulled.bytes ++ todo')
      (hat : BodyAt x pulled.body (pulled.rest ++ rest) todo')
      (hkind : isChunkedKind pulled.body = isChunkedKind kind) (hdue : x.length < rest.length)
      (hroom : pulled.rest.length ≤ 2)
  | done (hs : pulled.step = .done) (htodo : todo = pulled.bytes) (hx : pulled.rest ++ rest = x)
      (hafter : afterScan pulled.body true = (lastEmits kind, .head))
      (hkind : isChunkedKind pulled.body = isChunkedKind kind)

theorem slack_le (st : ChunkState) : slack st ≤ 2 := by
  cases st <;> simp [slack]

theorem pullBody_at {x rest buf todo : Bytes} {kind : BodyKind} (h : BodyAt x kind (buf ++ rest) todo)
    (hroom : buf.length ≤ maxHeaderBytes) : PulledAt x kind rest todo (pullBody kind buf) := by
  have hbytes : (pullBody kind buf).bytes = (pullBody kind buf).decoded :=
    pullBody_bytes (Nat.le_trans hroom (by decide))
  generalize ha : buf ++ rest = ahead at h
  cases h with
  | sized hne =>
    rcases List.append_eq_append_iff.mp ha with ⟨more, rfl, rfl⟩ | ⟨past, rfl, rfl⟩
    · by_cases hm : more = []
      · subst hm
        exact .done (by simp [pullBody]) (by simp [pullBody]) (by simp [pullBody])
          (by simp [pullBody, afterScan, lastEmits, isChunkedKind]) (by simp [pullBody, isChunkedKind])
      · have hpos := List.length_pos_iff.mpr hm
        have htodo : buf ++ more = (pullBody (.length (buf ++ more).length) buf).bytes ++ more := by
          simp [pullBody]
        refine .wait ?_ htodo ?_ (by simp [pullBody, isChunkedKind]) (by simp; omega) ?_
        · simp [pullBody]; omega
        · simpa [pullBody] using BodyAt.sized (x := x) hm
        · simp [pullBody]
    · exact .done (by simp [pullBody]) (by simp [pullBody]) (by simp [pullBody])
        (by simp [pullBody, afterScan, lastEmits, isChunkedKind]) (by simp [pullBody, isChunkedKind])
  | @coded lines st _ _ h =>
    subst ha
    have hfit : Fits (some maxHeaderBytes) lines st buf := by
      intro c hc
      obtain rfl := Option.mem_some_iff.mp hc
      exact ⟨by decide, Or.inr (by omega)⟩
    obtain ⟨todo', hrun⟩ := chunkFeeder_run_at h hfit
    have hhalt := (chunkFeeder (some maxHeaderBytes)).run_halts ⟨st, buf, .needMore⟩
    generalize hr : (chunkFeeder (some maxHeaderBytes)).run ⟨st, buf, .needMore⟩ = r at hrun hhalt
    obtain ⟨o, ⟨st', buf', status⟩⟩ := r
    have hpull : pullBody (.chunked ⟨st⟩) buf =
        { step := status, body := .chunked ⟨st'⟩, wire := buf.take (buf.length - buf'.length),
          decoded := o, bytes := (pullBody (.chunked ⟨st⟩) buf).bytes, rest := buf' } := by
      simp [pullBody, ChunkReader.consume, ChunkReader.consumeWithin, hr]
    have hb : (pullBody (.chunked ⟨st⟩) buf).bytes = o := by rw [hbytes, hpull]
    rw [hb] at hpull
    rw [hpull]
    rcases hrun.stepped.at_ with ⟨hst, hat⟩ | ⟨hst, -, rfl, hx⟩
    · refine .wait hst hrun.stepped.body (.coded hat) rfl (hrun.due hst) ?_
      obtain rfl : status = .needMore := hst
      exact Nat.le_trans (chunkStep_waits hhalt) (slack_le st')
    · exact .done hst (by simpa using hrun.stepped.body) hx
        (by simp [afterScan, lastEmits, isChunkedKind]) rfl

theorem driveResponse_of_step {p : Profile} {rw : Rewriter} {it : RespIter}
    (h : rw.stepResponse p = .ok it) : rw.driveResponse p =
      if it.go then (it.rw.driveResponse p).map fun o => (it.emits ++ o.1, o.2)
      else .ok (it.emits, it.rw) := by
  have hs : (responseMachine p).step (.running rw) =
      some (it.emits, if it.go then .running it.rw else .returned it.rw) := by
    simp [responseMachine, responseLoop, h]
  unfold driveResponse
  rw [(responseMachine p).run_some hs]
  cases hgo : it.go with
  | false =>
    have hr : (responseMachine p).step (.returned it.rw) = none := rfl
    simp [(responseMachine p).run_none hr]
  | true =>
    simp only [if_true]
    cases ((responseMachine p).run (.running it.rw)).2 <;> rfl

section Html

variable {p : Profile} {r : HtmlResponse} {x : Bytes} {base : Rewriter}

/-- The rewriter with its response side in this state. -/
def within (base : Rewriter) (resp : RespState) (buf : Bytes) : Rewriter :=
  { base with resp, respBuf := buf, pendingHead := base.pendingHead.tail }

/-- The response side on its way through `r`: `out` is written of it, and `rest` has not arrived.
No more than `room` bytes are buffered beyond the head. -/
inductive HtmlAt (r : HtmlResponse) (x : Bytes) (base : Rewriter) (room : ℕ) :
    Rewriter → (out rest : Bytes) → Prop
  | head {buf rest : Bytes} (hsplit : buf ++ rest = r.wire ++ x)
      (hroom : buf.length ≤ r.head.encode.length + room) :
      HtmlAt r x base room { base with resp := .head, respBuf := buf } [] rest
  | buffer {bs : BodyScan} {buf rest todo : Bytes} (horig : bs.origHead = r.head.encode)
      (hcl : bs.clOriginal = if r.coded then none else some r.body.length)
      (hbody : r.body = bs.scan ++ todo) (hdone : bs.bodyDone = false)
      (hat : BodyAt x bs.body (buf ++ rest) todo) (hkind : isChunkedKind bs.body = r.coded)
      (hroom : buf.length ≤ room) : HtmlAt r x base room (base.within (.buffer bs) buf) [] rest
  | stream {kind : BodyKind} {buf out rest todo : Bytes} (hat : BodyAt x kind (buf ++ rest) todo)
      (hkind : isChunkedKind kind = r.coded) (hcomp : r.Completes base.blob out todo)
      (hlt : todo.length < usizeSize) (hroom : buf.length ≤ room) :
      HtmlAt r x base room (base.within (.stream kind) buf) out rest

/-- What a call makes of a position in `r`: it waits inside the response, or goes on behind it
with `x'`, which is what has arrived of `x`. -/
inductive Drives (p : Profile) (r : HtmlResponse) (x : Bytes) (base rw : Rewriter)
    (out rest : Bytes) : Prop
  | waits {emits : List RespEmit} {rw' : Rewriter} (h : rw.driveResponse p = .ok (emits, rw'))
      (hat : HtmlAt r x base 2 rw' (out ++ emits.flatMap RespEmit.render) rest)
      (hdue : x.length < rest.length)
  | passes {emits : List RespEmit} {x' : Bytes}
      (h : rw.driveResponse p =
        ((base.within .head x').driveResponse p).map fun o => (emits ++ o.1, o.2))
      (hins : r.Inserted base.blob (out ++ emits.flatMap RespEmit.render)) (hx : x' ++ rest = x)

/-- An iteration that goes on leaves it to the rest of the call. -/
theorem Drives.step {rw : Rewriter} {it : RespIter} {out rest : Bytes}
    (h : rw.stepResponse p = .ok it) (hgo : it.go = true)
    (hd : Drives p r x base it.rw (out ++ it.emits.flatMap RespEmit.render) rest) :
    Drives p r x base rw out rest := by
  have hdrive := driveResponse_of_step h
  rw [if_pos hgo] at hdrive
  cases hd with
  | @waits emits rw' h hat hdue =>
    exact .waits (by rw [hdrive, h]; rfl) (by simpa using hat) hdue
  | @passes emits x' h hins hx =>
    have hall : rw.driveResponse p = ((base.within .head x').driveResponse p).map fun o =>
        (it.emits ++ emits ++ o.1, o.2) := by
      rw [hdrive, h]
      cases (base.within .head x').driveResponse p <;> simp [Except.map]
    exact .passes hall (by simpa using hins) hx

/-- An iteration that finishes the response. -/
theorem Drives.finish {rw : Rewriter} {it : RespIter} {out rest x' : Bytes}
    (h : rw.stepResponse p = .ok it) (hgo : it.go = true) (hrw : it.rw = base.within .head x')
    (hins : r.Inserted base.blob (out ++ it.emits.flatMap RespEmit.render)) (hx : x' ++ rest = x) :
    Drives p r x base rw out rest := by
  exact .passes (by rw [driveResponse_of_step h, if_pos hgo, hrw]) hins hx

theorem Drives.wait {rw : Rewriter} {it : RespIter} {out rest : Bytes}
    (h : rw.stepResponse p = .ok it) (hgo : it.go = false)
    (hat : HtmlAt r x base 2 it.rw (out ++ it.emits.flatMap RespEmit.render) rest)
    (hdue : x.length < rest.length) : Drives p r x base rw out rest :=
  .waits (by rw [driveResponse_of_step h, hgo]; rfl) hat hdue

private theorem render_bodyEmit {kind : BodyKind} {out text todo data : Bytes}
    (hcomp : r.Completes base.blob out (data ++ todo)) (hkind : isChunkedKind kind = r.coded)
    (hlt : (data ++ todo).length < usizeSize) (h : Carries r.coded text todo) :
    r.Inserted base.blob (out ++ (bodyEmit kind data [] []).render ++ text) := by
  rw [List.append_assoc]
  refine hcomp _ ?_
  have := @bodyEmit_carries kind data [] [] _ _ (hkind ▸ h)
    (by simp at hlt ⊢; omega)
  simpa [hkind] using this

theorem drives_stream {kind : BodyKind} {buf out rest todo : Bytes}
    (hat : BodyAt x kind (buf ++ rest) todo) (hkind : isChunkedKind kind = r.coded)
    (hcomp : r.Completes base.blob out todo) (hlt : todo.length < usizeSize)
    (hroom : buf.length ≤ maxHeaderBytes) :
    Drives p r x base (base.within (.stream kind) buf) out rest := by
  have hstep : (base.within (.stream kind) buf).stepResponse p =
      .ok ((base.within .head buf).stepResponseStream kind) := rfl
  have hpull := pullBody_at hat hroom
  unfold stepResponseStream within at hstep
  dsimp only at hstep
  generalize pullBody kind buf = pulled at hstep hpull
  cases hpull with
  | @wait todo' hs htodo hat' hk hdue hr =>
    subst htodo
    simp only [hs] at hstep
    refine .wait hstep rfl (.stream hat' (hk.trans hkind) (fun text h => ?_) ?_ hr) hdue
    · simpa using render_bodyEmit hcomp hkind hlt h
    · simp at hlt
      omega
  | done hs htodo hx =>
    subst htodo
    simp only [hs] at hstep
    refine .finish hstep rfl rfl ?_ hx
    have hlast := lastEmits_carries kind
    rw [hkind] at hlast
    have := @render_bodyEmit _ _ _ _ _ [] _ (by simpa using hcomp) hkind (by simpa using hlt) hlast
    simpa using this

theorem stepResponseBuffer_ok {rw : Rewriter} {bs : BodyScan}
    (h : ∀ cl, bs.clOriginal = some cl → cl + rw.blob.length < usizeSize) :
    ∃ it, rw.stepResponseBuffer p bs = .ok it := by
  unfold stepResponseBuffer
  dsimp only
  split_ifs
  · exact ⟨_, rfl⟩
  · split
    · exact ⟨_, rfl⟩
    · cases hcl : bs.clOriginal with
      | none => exact ⟨_, rfl⟩
      | some cl => simp [usizeAdd_of_lt (h cl hcl), Except.map]
    · exact ⟨_, rfl⟩

theorem BodyAt.afterScan {kind : BodyKind} {ahead todo : Bytes} (h : BodyAt x kind ahead todo) :
    afterScan kind false = ([], .stream kind) := by
  cases h with
  | sized hne => simp [Rewriter.afterScan, hne]
  | coded h => simp [Rewriter.afterScan]

theorem completes_kept {kind : BodyKind} {scan todo : Bytes} (hbody : r.body = scan ++ todo)
    (hlt : r.body.length < usizeSize) (hkind : isChunkedKind kind = r.coded) (blob : Bytes) :
    r.Completes blob (r.head.encode ++ (bodyEmit kind scan [] []).render) todo := by
  intro text h
  rw [List.append_assoc]
  have hlen : (scan ++ [] ++ []).length < usizeSize := by
    rw [hbody] at hlt
    simp at hlt ⊢
    omega
  have hc := @bodyEmit_carries kind _ _ _ _ _ (hkind ▸ h) hlen
  refine .kept ?_
  rw [hbody, ← hkind]
  simpa using hc

theorem completes_inserted {kind : BodyKind} {scan todo : Bytes} {a : ℕ} (hw : r.WellFormed)
    (hbody : r.body = scan ++ todo) {blob : Bytes} (hlt : r.body.length + blob.length < usizeSize)
    (ha : a ≤ scan.length) (hkind : isChunkedKind kind = r.coded) :
    r.Completes blob ((r.head.injected (r.body.length + blob.length)).encode ++
      (bodyEmit kind (scan.take a) blob (scan.drop a)).render) todo := by
  intro text h
  rw [List.append_assoc]
  have hlen : (scan.take a ++ blob ++ scan.drop a).length < usizeSize := by
    rw [hbody] at hlt
    simp at hlt ⊢
    omega
  have hc := @bodyEmit_carries kind _ _ _ _ _ (hkind ▸ h) hlen
  have hcut : r.body.take a ++ blob ++ r.body.drop a =
      scan.take a ++ blob ++ scan.drop a ++ todo := by
    rw [hbody, List.take_append_of_le_length ha, List.drop_append_of_le_length ha]
    simp
  refine .inserted (a := a) (by rw [hbody, List.length_append]; omega) ?_ (hw.injected_length _)
  rw [hcut, ← hkind]
  exact hc

/-- Once it is decided what to write, the rest of the body is streamed or the response is over. -/
theorem drives_decided {bs : BodyScan} {pulled : Pulled} {buf rest todo raw text : Bytes}
    {e : RespEmit} (hdone : bs.bodyDone = false) (hkind : isChunkedKind bs.body = r.coded)
    (hpull : PulledAt x bs.body rest todo pulled)
    (hcomp : ∀ todo', todo = pulled.bytes ++ todo' → isChunkedKind pulled.body = r.coded →
      r.Completes base.blob (text ++ e.render) todo')
    (hlt : todo.length < usizeSize)
    (h : (base.within (.buffer bs) buf).stepResponse p = .ok
      { emits := .head raw text :: e ::
          (afterScan pulled.body (bs.bodyDone || pulled.step == .done)).1
        rw := base.within (afterScan pulled.body (bs.bodyDone || pulled.step == .done)).2 pulled.rest
        go := true }) :
    Drives p r x base (base.within (.buffer bs) buf) [] rest := by
  cases hpull with
  | @wait todo' hs htodo hat hk hdue hr =>
    have hc := hcomp todo' htodo (hk.trans hkind)
    subst htodo
    have hafter := hat.afterScan
    simp only [hdone, hs, Bool.false_or, show (Step.needMore == Step.done) = false from rfl,
      hafter] at h
    refine .step h rfl (drives_stream hat (hk.trans hkind) ?_ ?_ (Nat.le_trans hr (by decide)))
    · simpa [RespEmit.render] using hc
    · simp at hlt
      omega
  | done hs htodo hx hafter hk =>
    have hc := hcomp [] (by simpa using htodo) (hk.trans hkind)
    simp only [hs, beq_self_eq_true, Bool.or_true, hafter] at h
    refine .finish h rfl rfl ?_ hx
    have hlast := lastEmits_carries bs.body
    rw [hkind] at hlast
    simpa [RespEmit.render] using hc _ hlast

theorem drives_buffer {bs : BodyScan} {buf rest todo : Bytes} (hw : r.WellFormed)
    (hlt : r.body.length + base.blob.length < usizeSize) (horig : bs.origHead = r.head.encode)
    (hcl : bs.clOriginal = if r.coded then none else some r.body.length)
    (hbody : r.body = bs.scan ++ todo) (hdone : bs.bodyDone = false)
    (hat : BodyAt x bs.body (buf ++ rest) todo) (hkind : isChunkedKind bs.body = r.coded)
    (hroom : buf.length ≤ maxHeaderBytes) :
    Drives p r x base (base.within (.buffer bs) buf) [] rest := by
  have hpull := pullBody_at hat hroom
  obtain ⟨it, hit⟩ : ∃ it, (base.within .head buf).stepResponseBuffer p bs = .ok it := by
    refine stepResponseBuffer_ok fun cl hsome => ?_
    rw [hcl] at hsome
    split_ifs at hsome
    obtain rfl := Option.some.inj hsome
    exact hlt
  have hstep : (base.within (.buffer bs) buf).stepResponse p = .ok it := hit
  have hc : BufferStep p (base.within .head buf) bs (pullBody bs.body buf) it :=
    stepResponseBuffer_cases hit
  generalize pullBody bs.body buf = pulled at hc hpull
  have htodo : todo.length < usizeSize := by
    rw [hbody] at hlt
    simp at hlt
    omega
  have hscan : ∀ todo', todo = pulled.bytes ++ todo' → r.body = bs.scan ++ pulled.bytes ++ todo' :=
    fun todo' h => by rw [hbody, h, List.append_assoc]
  cases hc with
  | malformed he => cases hpull <;> simp_all
  | wait he hd =>
    have hdec := decideAnchor_waits hd
    cases hpull with
    | done hs => simp [hs] at hdec
    | @wait todo' hs ht hat' hk hdue hr =>
      exact .wait hstep rfl
        (.buffer horig hcl (hscan todo' ht) hdec hat' (hk.trans hkind) hr) hdue
  | @inject a newCl he hd hnew =>
    have hhead :=
      @HtmlResponse.WellFormed.editResponseHead r hw (r.body.length + base.blob.length) newCl ?_
    · rw [horig, hhead] at hstep
      refine drives_decided hdone hkind hpull (fun todo' ht hk => ?_) htodo hstep
      exact completes_inserted hw (hscan todo' ht) hlt (decideAnchor_le hd) hk
    · rcases hnew with ⟨hnone, rfl⟩ | ⟨cl, n, hsome, hadd, rfl⟩
      · rw [hcl] at hnone
        split_ifs at hnone with hcoded
        simp [hcoded]
      · rw [hcl] at hsome
        split_ifs at hsome with hcoded
        obtain rfl := Option.some.inj hsome
        rw [show (base.within .head buf).blob = base.blob from rfl, usizeAdd_of_lt hlt] at hadd
        obtain rfl := Except.ok.inj hadd
        simp [hcoded]
  | abandon he hd =>
    rw [horig] at hstep
    refine drives_decided hdone hkind hpull (fun todo' ht hk => ?_) htodo hstep
    exact completes_kept (hscan todo' ht) (by omega) hk _

/-- A rewriter that follows its connection and awaits the response to a request other than HEAD. -/
structure Awaits (rw : Rewriter) : Prop where
  active : rw.active = true
  followed : rw.disabled = false
  bodied : rw.pendingHead.headD false = false

theorem HtmlAt.awaits {room : ℕ} {rw : Rewriter} {out rest : Bytes} (hbase : base.Awaits)
    (h : HtmlAt r x base room rw out rest) : rw.active = true ∧ rw.disabled = false := by
  cases h <;> exact ⟨hbase.active, hbase.followed⟩

/-- The framing that is read off the head delimits the body. -/
theorem responseFraming_html {status : ℕ} (hw : r.WellFormed) (hs : ¬ Bodiless status)
    (hlt : r.body.length < usizeSize) (x : Bytes) :
    (responseFraming status false r.head.headers = none ∧ r.coded = false ∧ r.wireBody = [] ∧
      r.body = []) ∨
    ∃ framing, responseFraming status false r.head.headers = some framing ∧
      BodyAt x (framingToKind framing) (r.wireBody ++ x) r.body ∧
      isChunkedKind (framingToKind framing) = r.coded := by
  have hbody : ¬ (false = true ∨ status = 204 ∨ status = 304 ∨ (100 ≤ status ∧ status ≤ 199)) := by
    simpa [Bodiless, Interim] using hs
  have hd := hw.delimited
  obtain ⟨head, coded, wireBody, body⟩ := r
  simp only [responseFraming, if_neg hbody]
  cases hd with
  | sized hn =>
    simp only [hn.isChunked, hn.contentLength hlt, Bool.false_eq_true, if_false]
    cases wireBody with
    | nil => simp
    | cons b body =>
      exact Or.inr ⟨_, rfl, .sized (List.cons_ne_nil b body), rfl⟩
  | coded hc hone hn hchunks =>
    simp only [hc.isChunked hone, if_true]
    exact Or.inr ⟨_, rfl, .coded (.size (List.nil_append _) hchunks (by simp)), rfl⟩

theorem drives_head {buf rest : Bytes} (hw : r.WellFormed) (hbase : base.Awaits)
    (hcap : r.head.encode.length ≤ maxHeaderBytes)
    (hlt : r.body.length + base.blob.length < usizeSize)
    (hsplit : buf ++ rest = r.wire ++ x)
    (hroom : buf.length ≤ r.head.encode.length + maxHeaderBytes) :
    Drives p r x base { base with resp := .head, respBuf := buf } [] rest := by
  set rw : Rewriter := { base with resp := .head, respBuf := buf } with hrw
  have hstep : rw.stepResponse p = .ok rw.stepResponseHead := rfl
  have hend := Head.findHeaderEnd_encode hw.head (r.wireBody ++ x)
  rw [← List.append_assoc, ← HtmlResponse.wire, ← hsplit] at hend
  by_cases hlen : buf.length < r.head.encode.length
  · have hnone : findHeaderEnd rw.respBuf = none := findHeaderEnd_prefix_none hend hlen
    have hwait : rw.stepResponseHead = { rw, go := false } := by
      simp only [stepResponseHead, hnone]
      rw [if_neg]
      show ¬ maxHeaderBytes < buf.length
      omega
    rw [hwait] at hstep
    refine .wait hstep rfl (.head hsplit (by omega)) ?_
    have := congrArg List.length hsplit
    simp only [HtmlResponse.wire, List.length_append] at this
    omega
  · obtain ⟨buf', rfl⟩ : r.head.encode <+: buf := by
      refine @List.prefix_of_prefix_length_le _ _ _ (buf ++ rest) ?_ (List.prefix_append _ _)
        (Nat.not_lt.mp hlen)
      rw [hsplit, HtmlResponse.wire, List.append_assoc]
      exact List.prefix_append _ _
    have hrest : buf' ++ rest = r.wireBody ++ x := by
      simpa [HtmlResponse.wire] using hsplit
    have hroom' : buf'.length ≤ maxHeaderBytes := by
      rw [List.length_append] at hroom
      omega
    have hhend : findHeaderEnd rw.respBuf = some r.head.encode.length :=
      Head.findHeaderEnd_encode hw.head buf'
    obtain ⟨status, hs, hi, hhead⟩ := hw.responseHead
    have hraw : rw.respBuf.take r.head.encode.length = r.head.encode := List.take_left' rfl
    have hdrop : rw.respBuf.drop r.head.encode.length = buf' := List.drop_left' rfl
    have hread : responseHead (rw.respBuf.take (r.head.encode.length - 4)) =
        some (status, r.head.headers) := by
      rw [← hhead, ← r.head.encode_take, ← hraw, List.take_take,
        Nat.min_eq_left (by rw [hraw]; omega), hraw]
    have hc := rw.stepResponseHead_cases
    generalize rw.stepResponseHead = it at hstep hc
    have hframing := responseFraming_html hw hs (by omega : r.body.length < usizeSize) x
    cases hc with
    | wait he | oversized he => simp [hhend] at he
    | @unparsed hend he hh =>
      obtain rfl := Option.some.inj (hhend.symm.trans he)
      simp [hread] at hh
    | @interim hend status' headers he hh hs' =>
      obtain rfl := Option.some.inj (hhend.symm.trans he)
      obtain ⟨rfl, -⟩ := by simpa [hread] using hh
      exact absurd (Or.inr (Or.inr ⟨hs'.1, hs'.2.1⟩)) hs
    | @switch hend headers he hh =>
      obtain rfl := Option.some.inj (hhend.symm.trans he)
      obtain ⟨rfl, -⟩ := by simpa [hread] using hh
      exact absurd (by decide) hs
    | @pass hend status' headers framing he hh hf hi' =>
      obtain rfl := Option.some.inj (hhend.symm.trans he)
      obtain ⟨rfl, rfl⟩ := by simpa [hread] using hh
      simp [hi] at hi'
    | @bodiless hend status' headers he hh hf =>
      obtain rfl := Option.some.inj (hhend.symm.trans he)
      obtain ⟨rfl, rfl⟩ := by simpa [hread] using hh
      rw [show rw.pendingHead.headD false = false from hbase.bodied] at hf
      rcases hframing with ⟨-, hcoded, hwire, hbody⟩ | ⟨framing, hf', -⟩
      · rw [hraw, hdrop] at hstep
        have hx : buf' ++ rest = x := by simpa [hwire] using hrest
        refine .finish hstep rfl rfl ?_ hx
        have hkept := @HtmlResponse.Inserted.kept r base.blob []
          (by rw [hcoded, hbody]; exact .plain)
        simpa [RespEmit.render] using hkept
      · simp [hf'] at hf
    | @inject hend status' headers framing he hh hf hi' =>
      obtain rfl := Option.some.inj (hhend.symm.trans he)
      obtain ⟨rfl, rfl⟩ := by simpa [hread] using hh
      rw [show rw.pendingHead.headD false = false from hbase.bodied] at hf
      rcases hframing with ⟨hf', -⟩ | ⟨framing', hf', hat, hkind⟩
      · simp [hf'] at hf
      · obtain rfl := Option.some.inj (hf'.symm.trans hf)
        rw [hraw, hdrop] at hstep
        refine .step hstep rfl ?_
        have hcl := hw.contentLength (by omega)
        rw [← hrest] at hat
        exact drives_buffer hw hlt rfl hcl (List.nil_append _).symm rfl hat hkind hroom'

/-- A call on a position in `r` goes on from it. -/
theorem HtmlAt.drives {rw : Rewriter} {out d rest : Bytes} (hw : r.WellFormed)
    (hbase : base.Awaits) (hcap : r.head.encode.length ≤ maxHeaderBytes)
    (hlt : r.body.length + base.blob.length < usizeSize) (h : HtmlAt r x base 2 rw out (d ++ rest))
    (hd : d.length ≤ maxFeed) :
    Drives p r x base { rw with respBuf := rw.respBuf ++ d } out rest := by
  have hfeed : 2 + maxFeed ≤ maxHeaderBytes := by decide
  cases h with
  | @head buf _ hsplit hroom =>
    have hlen : (buf ++ d).length ≤ r.head.encode.length + maxHeaderBytes := by
      rw [List.length_append]
      omega
    exact drives_head hw hbase hcap hlt (by rw [List.append_assoc, hsplit]) hlen
  | @buffer bs buf _ todo horig hcl hbody hdone hat hkind hroom =>
    have hlen : (buf ++ d).length ≤ maxHeaderBytes := by
      rw [List.length_append]
      omega
    rw [← List.append_assoc] at hat
    exact drives_buffer hw hlt horig hcl hbody hdone hat hkind hlen
  | @stream kind buf _ _ todo hat hkind hcomp htodo hroom =>
    have hlen : (buf ++ d).length ≤ maxHeaderBytes := by
      rw [List.length_append]
      omega
    rw [← List.append_assoc] at hat
    exact drives_stream hat hkind hcomp htodo hlen

theorem runOps_response {rw : Rewriter} (hact : rw.active = true) (hd : rw.disabled = false)
    (d : Bytes) (ops : List Op) : rw.runOps p (.response d :: ops) =
      (driveResponse p { rw with respBuf := rw.respBuf ++ d }).bind fun o =>
        (o.2.runOps p ops).map fun o' => (o.1 ++ o'.1, o'.2) := by
  rw [runOps, feedResponse_running p hact hd]
  cases driveResponse p { rw with respBuf := rw.respBuf ++ d } <;> rfl

theorem runOps_html {rw : Rewriter} {out tail : Bytes} {init : List Bytes} (hw : r.WellFormed)
    (hbase : base.Awaits) (hcap : r.head.encode.length ≤ maxHeaderBytes)
    (hlt : r.body.length + base.blob.length < usizeSize)
    (hfeeds : ∀ d ∈ init ++ [tail ++ x], d.length ≤ maxFeed) (htail : tail ≠ [])
    (h : HtmlAt r x base 2 rw out (init.flatten ++ (tail ++ x))) :
    ∃ emits, r.Inserted base.blob (out ++ emits.flatMap RespEmit.render) ∧
      rw.runOps p ((init ++ [tail ++ x]).map .response) =
        ((base.within .head x).driveResponse p).map fun o => (emits ++ o.1, o.2) := by
  have hpos := List.length_pos_iff.mpr htail
  induction init generalizing rw out with
  | nil =>
    obtain ⟨hact, hd⟩ := h.awaits hbase
    rw [List.flatten_nil, List.nil_append, ← List.append_nil (tail ++ x)] at h
    have hdrives := h.drives (p := p) hw hbase hcap hlt (hfeeds _ (by simp))
    cases hdrives with
    | waits h hat hdue => simp at hdue
    | @passes emits x' h hins hx =>
      obtain rfl : x' = x := by simpa using hx
      refine ⟨emits, hins, ?_⟩
      rw [List.nil_append, List.map_singleton, runOps_response hact hd, h]
      cases (base.within .head x').driveResponse p <;> simp [Except.map, Except.bind, runOps]
  | cons d init ih =>
    obtain ⟨hact, hd⟩ := h.awaits hbase
    rw [List.flatten_cons, List.append_assoc] at h
    have hdrives := h.drives (p := p) hw hbase hcap hlt (hfeeds d (by simp))
    cases hdrives with
    | passes h hins hx =>
      have := congrArg List.length hx
      simp only [List.length_append] at this
      omega
    | @waits emits rw' h hat hdue =>
      obtain ⟨emits', hins, hrun⟩ := ih (fun d hm => hfeeds d (by simp [hm])) hat
      refine ⟨emits ++ emits', by simpa using hins, ?_⟩
      rw [List.cons_append, List.map_cons, runOps_response hact hd, h]
      simp only [Except.bind, hrun]
      cases (base.within .head x).driveResponse p <;> simp [Except.map]

/-- However a response is cut, it is written as received or with the payload inserted at one place
and the head to match, and the rewriter goes on behind its last byte. -/
theorem html_response_inserted (p : Profile) (rw : Rewriter) (hawaits : rw.Awaits)
    (hresp : rw.resp = .head) (r : HtmlResponse) (hw : r.WellFormed)
    (hcap : r.head.encode.length ≤ maxHeaderBytes)
    (hlt : r.body.length + rw.blob.length < usizeSize) (init : List Bytes) (tail x : Bytes)
    (htail : tail ≠ []) (hsplit : rw.respBuf ++ init.flatten ++ tail = r.wire)
    (hbuf : findHeaderEnd rw.respBuf = none)
    (hfeeds : ∀ d ∈ init ++ [tail ++ x], d.length ≤ maxFeed) :
    ∃ emits, r.Inserted rw.blob (emits.flatMap RespEmit.render) ∧
      rw.runOps p ((init ++ [tail ++ x]).map .response) =
        ((rw.within .head x).driveResponse p).map fun o => (emits ++ o.1, o.2) := by
  have hwhole : rw.respBuf ++ (init.flatten ++ (tail ++ x)) = r.wire ++ x := by
    rw [← hsplit]
    simp
  have hroom : rw.respBuf.length ≤ r.head.encode.length + 2 := by
    have hend := Head.findHeaderEnd_encode hw.head (r.wireBody ++ x)
    rw [← List.append_assoc, ← HtmlResponse.wire, ← hwhole] at hend
    have := findHeaderEnd_append_none hbuf hend
    omega
  have hat : HtmlAt r x rw 2 { rw with resp := .head, respBuf := rw.respBuf } [] _ :=
    .head hwhole hroom
  have hrw : { rw with resp := .head } = rw := by rw [← hresp]
  simp only [hrw] at hat
  simpa using runOps_html hw hawaits hcap hlt hfeeds htail hat

private def page : HtmlResponse where
  head := { start := ascii "HTTP/1.1 200 OK"
            fields := [⟨ascii "Content-Type", ascii " text/html"⟩,
              ⟨ascii "Content-Length", ascii " 6"⟩] }
  coded := false
  wireBody := ascii "<head>"
  body := ascii "<head>"

private theorem page_wellFormed : page.WellFormed := by
  refine ⟨⟨⟨by decide, by decide, by decide⟩, ?_⟩, ⟨_, 200, _, rfl, by decide, by decide +kernel⟩,
    .sized ⟨by decide +kernel, ?_, by decide +kernel⟩⟩
  · simp only [page, List.mem_cons, List.not_mem_nil, or_false]
    rintro f (rfl | rfl) <;> exact ⟨by decide, by decide +kernel, by decide, by decide⟩
  · have hv : fieldValues page.head.headers "content-length" = [Str.ofNat 6] := by decide +kernel
    rw [hv]
    simp only [List.mem_singleton, forall_eq]
    exact ⟨Str.toDigits_isDigits (by omega) (by omega) _,
      (Str.toDigits_digits (by omega) (by omega) _).2⟩

/-- A page that arrives in two pieces, with the next response behind it. -/
theorem html_response_inserted_page :
    ∃ emits, page.Inserted (ascii "b") (emits.flatMap RespEmit.render) ∧
      ({ active := true, blob := ascii "b" } : Rewriter).runOps .release
        (([page.head.encode ++ ascii "<he"] ++ [ascii "ad>" ++ ascii "HTTP"]).map .response) =
        ((Rewriter.within { active := true, blob := ascii "b" } .head
          (ascii "HTTP")).driveResponse .release).map fun o => (emits ++ o.1, o.2) :=
  html_response_inserted .release { active := true, blob := ascii "b" } ⟨rfl, rfl, rfl⟩ rfl page
    page_wellFormed (by decide +kernel) (by decide) [page.head.encode ++ ascii "<he"] (ascii "ad>")
    (ascii "HTTP") (by decide) (by decide +kernel) (by decide) (by decide +kernel)

theorem runOps_disabled {rw : Rewriter} (hd : rw.disabled = true) (hbuf : rw.respBuf = [])
    (pieces : List Bytes) : ∃ emits, rw.runOps p (pieces.map .response) = .ok (emits, rw) ∧
      emits.flatMap RespEmit.render = pieces.flatten := by
  have hrw : { rw with respBuf := [] } = rw := by rw [← hbuf]
  induction pieces with
  | nil => exact ⟨[], rfl, rfl⟩
  | cons d pieces ih =>
    obtain ⟨emits, hrun, htext⟩ := ih
    refine ⟨.body d [] [] :: emits, ?_, by simp [RespEmit.render, htext]⟩
    simp [runOps, feedResponse_disabled p hd, hrw, hrun, Except.map, hbuf]

/-- A head that does not end within the limit makes the rewriter give up, and everything from its
first byte on is written as received. -/
theorem runOps_oversized {rw : Rewriter} {pieces : List Bytes} (hact : rw.active = true)
    (hd : rw.disabled = false) (hresp : rw.resp = .head)
    (hnone : findHeaderEnd (rw.respBuf ++ pieces.flatten) = none)
    (hshort : rw.respBuf.length ≤ maxHeaderBytes)
    (hlong : maxHeaderBytes < (rw.respBuf ++ pieces.flatten).length) (rest : List Bytes) :
    ∃ emits, rw.runOps p ((pieces ++ rest).map .response) =
        .ok (emits, { rw with disabled := true, respBuf := [] }) ∧
      emits.flatMap RespEmit.render = rw.respBuf ++ pieces.flatten ++ rest.flatten := by
  induction pieces generalizing rw with
  | nil => simp at hlong; omega
  | cons d pieces ih =>
    obtain ⟨rw', hrw'⟩ : ∃ rw' : Rewriter, { rw with respBuf := rw.respBuf ++ d } = rw' := ⟨_, rfl⟩
    have hbuf : rw'.respBuf = rw.respBuf ++ d := by rw [← hrw']
    have hresp' : rw'.resp = .head := by rw [← hrw']; exact hresp
    have hstep : rw'.stepResponse p = .ok rw'.stepResponseHead := by
      have : { rw' with resp := .head } = rw' := by rw [← hresp']
      simp only [stepResponse, hresp', this]
    have hpieces : rw'.respBuf ++ pieces.flatten = rw.respBuf ++ (d :: pieces).flatten := by
      rw [hbuf, List.flatten_cons, List.append_assoc]
    have hnone' : findHeaderEnd rw'.respBuf = none := by
      cases he : findHeaderEnd rw'.respBuf with
      | none => rfl
      | some n =>
        have := findHeaderEnd_append pieces.flatten he
        rw [hpieces, hnone] at this
        simp at this
    rw [List.cons_append, List.map_cons, runOps_response hact hd, hrw', driveResponse_of_step hstep]
    have hgo : rw'.stepResponseHead =
        if maxHeaderBytes < rw'.respBuf.length then rw'.disableFlushResp []
        else { rw := rw', go := false } := by
      rw [stepResponseHead, hnone']
    by_cases hover : maxHeaderBytes < rw'.respBuf.length
    · rw [hgo, if_pos hover]
      obtain ⟨emits, hrun, htext⟩ := @runOps_disabled p
        { rw' with disabled := true, respBuf := [] } rfl rfl (pieces ++ rest)
      refine ⟨.body rw'.respBuf [] [] :: emits, ?_, ?_⟩
      · simp only [disableFlushResp, Bool.false_eq_true, if_false, Except.bind, hrun, Except.map]
        subst hrw'
        rfl
      · simp [RespEmit.render, htext, hbuf]
    · rw [hgo, if_neg hover]
      obtain ⟨emits, hrun, htext⟩ := @ih rw' (by rw [← hrw']; exact hact)
        (by rw [← hrw']; exact hd) hresp' (by rw [hpieces]; exact hnone) (Nat.not_lt.mp hover)
        (by rw [hpieces]; exact hlong)
      refine ⟨emits, ?_, by rw [htext, hpieces]⟩
      simp only [Bool.false_eq_true, if_false, Except.bind, hrun, Except.map]
      subst hrw'
      rfl

private def filler (n : ℕ) : Bytes := List.replicate n 97

/-- A page with one long field in its head. -/
private def longPage : HtmlResponse where
  head := { start := ascii "HTTP/1.1 200 OK"
            fields := [⟨ascii "Content-Type", ascii " text/html"⟩,
              ⟨ascii "Content-Length", ascii " 2"⟩, ⟨ascii "X", filler 70000⟩] }
  coded := false
  wireBody := ascii "hi"
  body := ascii "hi"

private theorem longPage_wellFormed : longPage.WellFormed := by
  refine ⟨⟨⟨by decide, by decide, by decide⟩, ?_⟩, ⟨_, 200, _, rfl, by decide, by decide +kernel⟩,
    .sized ⟨by decide +kernel, ?_, by decide +kernel⟩⟩
  · simp only [longPage, List.mem_cons, List.not_mem_nil, or_false]
    rintro f (rfl | rfl | rfl)
    · exact ⟨by decide, by decide +kernel, by decide, by decide⟩
    · exact ⟨by decide, by decide +kernel, by decide, by decide⟩
    · refine ⟨by decide, by decide +kernel, fun hm => ?_, fun hm => ?_⟩
      · exact absurd (List.eq_of_mem_replicate hm) (by decide)
      · exact absurd (List.eq_of_mem_replicate hm) (by decide)
  · have hv : fieldValues longPage.head.headers "content-length" = [Str.ofNat 2] := by
      decide +kernel
    rw [hv]
    simp only [List.mem_singleton, forall_eq]
    exact ⟨Str.toDigits_isDigits (by omega) (by omega) _,
      (Str.toDigits_digits (by omega) (by omega) _).2⟩

private def longPagePieces : List Bytes :=
  (ascii "HTTP/1.1 200 OK\r\nContent-Type: text/html\r\nContent-Length: 2\r\nX:") ::
    List.replicate 5 (filler 14000)

private theorem longPagePieces_flatten : longPagePieces.flatten = ascii
    "HTTP/1.1 200 OK\r\nContent-Type: text/html\r\nContent-Length: 2\r\nX:" ++ filler 70000 := by
  have h5 : (List.replicate 5 (filler 14000)).flatten = filler 70000 :=
    List.flatten_replicate_replicate
  rw [longPagePieces, List.flatten_cons, h5]

private theorem longPagePieces_split :
    longPagePieces.flatten ++ ascii "\r\n\r\nhi" = longPage.wire := by
  have hstart : ascii "HTTP/1.1 200 OK\r\nContent-Type: text/html\r\nContent-Length: 2\r\nX:" =
    ascii "HTTP/1.1 200 OK" ++ CRLF ++ (ascii "Content-Type" ++ 58 :: ascii " text/html" ++ CRLF) ++
      (ascii "Content-Length" ++ 58 :: ascii " 2" ++ CRLF) ++ ascii "X" ++ [58] := by decide
  have hend : ascii "\r\n\r\nhi" = CRLF ++ CRLF ++ ascii "hi" := by decide
  rw [longPagePieces_flatten, hstart, hend]
  simp [HtmlResponse.wire, longPage, Head.encode, Head.lines, headBytes, Field.line]

private theorem longPagePieces_unfinished : findHeaderEnd longPagePieces.flatten = none := by
  have hend := Head.findHeaderEnd_encode longPage_wellFormed.head (ascii "hi")
  rw [show ascii "hi" = longPage.wireBody from rfl, ← HtmlResponse.wire,
    ← longPagePieces_split] at hend
  refine findHeaderEnd_prefix_none hend ?_
  have hlen := congrArg List.length longPagePieces_split
  have h6 : (ascii "\r\n\r\nhi").length = 6 := by decide
  have h2 : longPage.wireBody.length = 2 := by decide
  rw [HtmlResponse.wire, List.length_append, List.length_append] at hlen
  omega

private theorem longPagePieces_long : maxHeaderBytes < longPagePieces.flatten.length := by
  rw [longPagePieces_flatten, List.length_append,
    show (filler 70000).length = 70000 from List.length_replicate, maxHeaderBytes]
  omega

private theorem longPagePieces_feeds :
    ∀ d ∈ longPagePieces ++ [ascii "\r\n\r\nhi" ++ ascii "HTTP"], d.length ≤ maxFeed := by
  simp only [longPagePieces, List.mem_append, List.mem_cons, List.mem_replicate,
    List.not_mem_nil, or_false]
  rintro d ((rfl | ⟨-, rfl⟩) | rfl)
  · decide
  · rw [filler, List.length_replicate]
    decide
  · decide

/-- The bytes behind a response whose head is too long are written along with it. -/
private theorem oversized_verbatim {r : HtmlResponse} {pieces : List Bytes} {tail : Bytes}
    (hsplit : pieces.flatten ++ tail = r.wire) (hnone : findHeaderEnd pieces.flatten = none)
    (hlong : maxHeaderBytes < pieces.flatten.length) :
    (∃ emits rw', ({ active := true, blob := ascii "b" } : Rewriter).runOps .release
        ((pieces ++ [tail ++ ascii "HTTP"]).map .response) = .ok (emits, rw') ∧
      emits.flatMap RespEmit.render = r.wire ++ ascii "HTTP" ∧ rw'.respBuf = []) ∧
    ¬ ∃ emits, r.Inserted (ascii "b") (emits.flatMap RespEmit.render) ∧
      ({ active := true, blob := ascii "b" } : Rewriter).runOps .release
          ((pieces ++ [tail ++ ascii "HTTP"]).map .response) =
        ((Rewriter.within { active := true, blob := ascii "b" } .head
          (ascii "HTTP")).driveResponse .release).map fun o => (emits ++ o.1, o.2) := by
  obtain ⟨emits, hrun, htext⟩ := @runOps_oversized .release
    { active := true, blob := ascii "b" } pieces rfl rfl rfl
    (by simpa using hnone) (by simp) (by simpa using hlong) [tail ++ ascii "HTTP"]
  refine ⟨⟨emits, _, hrun, by simpa [← hsplit] using htext, rfl⟩, ?_⟩
  rintro ⟨emits', -, hrun'⟩
  have hnext : ((Rewriter.within { active := true, blob := ascii "b" } .head
      (ascii "HTTP")).driveResponse .release).map (fun o => o.2.disabled) = .ok false := by
    decide +kernel
  cases hd : (Rewriter.within { active := true, blob := ascii "b" } .head
      (ascii "HTTP")).driveResponse .release with
  | error e => simp [hd, Except.map] at hnext
  | ok o =>
    simp only [hd, Except.map, Except.ok.injEq] at hnext
    rw [hrun, hd, Except.map] at hrun'
    have hrw := congrArg (fun o => o.2.disabled) (Except.ok.inj hrun')
    simp [hnext] at hrw

/-- A head of more than 64 KiB: nothing is inserted, and the bytes behind the response are written
along with it. -/
theorem html_response_oversized :
    ∃ (rw : Rewriter) (r : HtmlResponse) (init : List Bytes) (tail x : Bytes),
      rw.Awaits ∧ rw.resp = .head ∧ rw.respBuf = [] ∧ r.WellFormed ∧
      r.body.length + rw.blob.length < usizeSize ∧
      init.flatten ++ tail = r.wire ∧ tail ≠ [] ∧ (∀ d ∈ init ++ [tail ++ x], d.length ≤ maxFeed) ∧
      x ≠ [] ∧
      (∃ emits rw', rw.runOps .release ((init ++ [tail ++ x]).map .response) = .ok (emits, rw') ∧
        emits.flatMap RespEmit.render = r.wire ++ x ∧ rw'.respBuf = []) ∧
      ¬ ∃ emits, r.Inserted rw.blob (emits.flatMap RespEmit.render) ∧
        rw.runOps .release ((init ++ [tail ++ x]).map .response) =
          ((rw.within .head x).driveResponse .release).map fun o => (emits ++ o.1, o.2) :=
  have hverbatim := oversized_verbatim longPagePieces_split longPagePieces_unfinished
    longPagePieces_long
  ⟨{ active := true, blob := ascii "b" }, longPage, longPagePieces, ascii "\r\n\r\nhi",
    ascii "HTTP", ⟨rfl, rfl, rfl⟩, rfl, rfl, longPage_wellFormed, by decide, longPagePieces_split,
    by decide, longPagePieces_feeds, by decide, hverbatim.1, hverbatim.2⟩

end Html

end Rewriter

end Adwarden.Tls
