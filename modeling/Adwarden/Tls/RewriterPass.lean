import Adwarden.Tls.RewriterLedger

/-! Responses that the rewriter has no message to inject into are copied byte for byte. -/
namespace Adwarden.Tls
open Adwarden.Lib

namespace Rewriter

/-- Reading a response stream from `pos` on, with the HEAD-ness of the requests that await a
response in `pending` and `buf` there to read, the response side comes to where `Q` holds. -/
inductive Meets (Q : RespPos → List Bool → Bytes → Prop) : RespPos → List Bool → Bytes → Prop
  | here {pos : RespPos} {pending : List Bool} {buf : Bytes} (h : Q pos pending buf) :
      Meets Q pos pending buf
  | interim {pending : List Bool} {buf : Bytes} {hend status : ℕ} {headers : Headers}
      (he : findHeaderEnd buf = some hend)
      (hh : responseHead (buf.take (hend - 4)) = some (status, headers))
      (hs : 100 ≤ status ∧ status ≤ 199 ∧ status ≠ 101)
      (h : Meets Q .head pending (buf.drop hend)) : Meets Q .head pending buf
  | bodiless {pending : List Bool} {buf : Bytes} {hend status : ℕ} {headers : Headers}
      (he : findHeaderEnd buf = some hend)
      (hh : responseHead (buf.take (hend - 4)) = some (status, headers))
      (hs : ¬ (100 ≤ status ∧ status ≤ 199))
      (hf : responseFraming status (pending.headD false) headers = none)
      (h : Meets Q .head pending.tail (buf.drop hend)) : Meets Q .head pending buf
  | body {pending : List Bool} {buf : Bytes} {hend status : ℕ} {headers : Headers}
      {framing : Framing} (he : findHeaderEnd buf = some hend)
      (hh : responseHead (buf.take (hend - 4)) = some (status, headers))
      (hf : responseFraming status (pending.headD false) headers = some framing)
      (h : Meets Q (.body (framingToKind framing)) pending.tail (buf.drop hend)) :
      Meets Q .head pending buf
  | next {pending : List Bool} {buf : Bytes} {kind : BodyKind}
      (hs : (pullBody kind buf).step = .done)
      (h : Meets Q .head pending (pullBody kind buf).rest) : Meets Q (.body kind) pending buf

/-- The next message is one to inject into. -/
def Html (pos : RespPos) (pending : List Bool) (buf : Bytes) : Prop :=
  pos = .head ∧ ∃ hend status headers framing, findHeaderEnd buf = some hend ∧
    responseHead (buf.take (hend - 4)) = some (status, headers) ∧
    responseFraming status (pending.headD false) headers = some framing ∧
    injectable status headers = true

/-- What is next does not parse: a head that is oversized or no head of a response, or a body
with a malformed chunk. -/
inductive Malformed : RespPos → List Bool → Bytes → Prop
  | oversized {pending : List Bool} {buf : Bytes} (he : findHeaderEnd buf = none)
      (hlt : maxHeaderBytes < buf.length) : Malformed .head pending buf
  | head {pending : List Bool} {buf : Bytes} {hend : ℕ} (he : findHeaderEnd buf = some hend)
      (hh : responseHead (buf.take (hend - 4)) = none) : Malformed .head pending buf
  | body {kind : BodyKind} {pending : List Bool} {buf : Bytes}
      (hs : (pullBody kind buf).step = .error) : Malformed (.body kind) pending buf

/-- Some response call of the run has the response side come to where `Q` holds. -/
def RunMeets (Q : RespPos → List Bool → Bytes → Prop) (p : Profile) (rw : Rewriter)
    (ops : List Op) : Prop :=
  ∃ pre data, pre ++ [.response data] <+: ops ∧ ∃ emits rw', rw.runOps p pre = .ok (emits, rw') ∧
    Meets Q rw'.pos rw'.pendingHead (rw'.respBuf ++ data)

/-- No message is held or written anew. -/
def Passing (rw : Rewriter) : Prop := rw.resp = .head ∨ ∃ kind, rw.resp = .pass kind

/-- What has been written and what is yet to be read are the bytes `fed`. -/
structure Verbatim (fed : Bytes) (emits : List RespEmit) (rw : Rewriter) : Prop where
  bytes : emits.flatMap RespEmit.render ++ rw.respBuf = fed
  passing : rw.Passing

theorem Verbatim.step {fed : Bytes} {emits new : List RespEmit} {rw rw' : Rewriter}
    (h : Verbatim fed emits rw)
    (hbytes : new.flatMap RespEmit.render ++ rw'.respBuf = rw.respBuf) (hp : rw'.Passing) :
    Verbatim fed (emits ++ new) rw' := by
  refine ⟨?_, hp⟩
  rw [← h.bytes, ← hbytes]
  simp

section Step

variable {p : Profile} {rw : Rewriter}

theorem stepResponseHead_interim {hend status : ℕ} {headers : Headers}
    (he : findHeaderEnd rw.respBuf = some hend)
    (hh : responseHead (rw.respBuf.take (hend - 4)) = some (status, headers))
    (hs : 100 ≤ status ∧ status ≤ 199 ∧ status ≠ 101) :
    rw.stepResponseHead =
      { emits := [.head (rw.respBuf.take hend) (rw.respBuf.take hend)]
        rw := { rw with respBuf := rw.respBuf.drop hend }, go := true } := by
  simp only [stepResponseHead, he, hh, if_pos hs]

theorem stepResponseHead_switch {hend : ℕ} {headers : Headers}
    (he : findHeaderEnd rw.respBuf = some hend)
    (hh : responseHead (rw.respBuf.take (hend - 4)) = some (101, headers)) :
    rw.stepResponseHead.go = false := by
  simp [stepResponseHead, he, hh, disableFlushResp]

/-- A head that is not that of a message to inject into leaves as it came. -/
theorem stepResponseHead_verbatim {fed : Bytes} {emits : List RespEmit}
    (h : Verbatim fed emits rw) (hd : rw.disabled = false) (hr : rw.resp = .head)
    (hm : ¬ Meets Html .head rw.pendingHead rw.respBuf) :
    Verbatim fed (emits ++ rw.stepResponseHead.emits) rw.stepResponseHead.rw ∧
      (rw.stepResponseHead.go = true →
        ¬ Meets Html rw.stepResponseHead.rw.pos rw.stepResponseHead.rw.pendingHead
          rw.stepResponseHead.rw.respBuf) := by
  generalize hit : rw.stepResponseHead = it
  have hc := hit ▸ rw.stepResponseHead_cases
  cases hc with
  | wait => exact ⟨by simpa using h, by simp⟩
  | oversized | unparsed =>
    refine ⟨h.step ?_ (Or.inl hr), by simp [disableFlushResp]⟩
    simp [disableFlushResp, RespEmit.render]
  | interim he hh hs =>
    refine ⟨h.step (by simp [RespEmit.render]) (Or.inl hr), fun _ hm' => hm (.interim he hh hs ?_)⟩
    simpa [pos, hd, hr] using hm'
  | switch => exact ⟨h.step (by simp [RespEmit.render]) (Or.inl hr), by simp⟩
  | @bodiless hend status headers he hh hf =>
    refine ⟨h.step (by simp [RespEmit.render]) (Or.inl hr), fun _ hm' => hm ?_⟩
    have hm'' : Meets Html .head rw.pendingHead.tail (rw.respBuf.drop hend) := by
      simpa [pos, hd, hr] using hm'
    by_cases hs : 100 ≤ status ∧ status ≤ 199
    · by_cases h101 : status = 101
      · subst h101
        have := stepResponseHead_switch he hh
        simp [hit] at this
      · have hint := stepResponseHead_interim he hh ⟨hs.1, hs.2, h101⟩
        rw [hit] at hint
        have htail : rw.pendingHead.tail = rw.pendingHead :=
          congrArg (fun it => it.rw.pendingHead) hint
        exact .interim he hh ⟨hs.1, hs.2, h101⟩ (htail ▸ hm'')
    · exact .bodiless he hh hs hf hm''
  | inject he hh hf hi => exact absurd (.here ⟨rfl, _, _, _, _, he, hh, hf, hi⟩) hm
  | pass he hh hf =>
    refine ⟨h.step (by simp [RespEmit.render]) (Or.inr ⟨_, rfl⟩),
      fun _ hm' => hm (.body he hh hf ?_)⟩
    simpa [pos, hd] using hm'

/-- The body of a message that is not injected into leaves as it came. -/
theorem stepResponsePass_verbatim {fed : Bytes} {emits : List RespEmit} {kind : BodyKind}
    (h : Verbatim fed emits rw) (hd : rw.disabled = false)
    (hm : ¬ Meets Html (.body kind) rw.pendingHead rw.respBuf) :
    Verbatim fed (emits ++ (stepResponsePass { rw with resp := .head } kind).emits)
        (stepResponsePass { rw with resp := .head } kind).rw ∧
      ((stepResponsePass { rw with resp := .head } kind).go = true →
        ¬ Meets Html (stepResponsePass { rw with resp := .head } kind).rw.pos
          (stepResponsePass { rw with resp := .head } kind).rw.pendingHead
          (stepResponsePass { rw with resp := .head } kind).rw.respBuf) := by
  have hsplit := pullBody_split kind rw.respBuf
  have hrender : (if isChunkedKind kind then
      RespEmit.coded (pullBody kind rw.respBuf).wire (pullBody kind rw.respBuf).decoded
      else .body (pullBody kind rw.respBuf).bytes [] []).render =
        (pullBody kind rw.respBuf).wire := by
    cases kind <;> simp [RespEmit.render, isChunkedKind, pullBody]
  unfold stepResponsePass
  dsimp only
  cases hs : (pullBody kind rw.respBuf).step with
  | done =>
    refine ⟨h.step ?_ (Or.inl rfl), fun _ hm' => hm (.next hs ?_)⟩
    · simpa [hrender] using hsplit
    · simpa [pos, hd] using hm'
  | needMore =>
    refine ⟨h.step ?_ (Or.inr ⟨_, rfl⟩), by simp⟩
    simpa [hrender] using hsplit
  | error =>
    refine ⟨h.step ?_ (Or.inl rfl), by simp [disableFlushResp]⟩
    have hb : ∀ b, (RespEmit.body b [] []).render = b := by simp [RespEmit.render]
    simpa [disableFlushResp, hrender, hb] using hsplit

/-- An iteration that meets no message to inject into copies what it takes, and does not panic. -/
theorem stepResponse_verbatim {fed : Bytes} {emits : List RespEmit} (h : Verbatim fed emits rw)
    (hd : rw.disabled = false) (hm : ¬ Meets Html rw.pos rw.pendingHead rw.respBuf) :
    ∃ it, rw.stepResponse p = .ok it ∧ Verbatim fed (emits ++ it.emits) it.rw ∧
      (it.go = true → ¬ Meets Html it.rw.pos it.rw.pendingHead it.rw.respBuf) := by
  rcases h.passing with hr | ⟨kind, hr⟩
  · have hrw : { rw with resp := .head } = rw := by rw [← hr]
    have hpos : rw.pos = .head := by simp [pos, hd, hr]
    refine ⟨rw.stepResponseHead, by simp only [stepResponse, hr, hrw], ?_⟩
    exact stepResponseHead_verbatim h hd hr (hpos ▸ hm)
  · have hpos : rw.pos = .body kind := by simp [pos, hd, hr]
    refine ⟨stepResponsePass { rw with resp := .head } kind, by simp only [stepResponse, hr], ?_⟩
    exact stepResponsePass_verbatim h hd (hpos ▸ hm)

end Step

/-- An invariant under which no iteration panics: the call returns, and the invariant holds. -/
theorem driveResponse_total {p : Profile} {P : List RespEmit → Rewriter → Prop}
    {Q : Rewriter → Prop} {rw : Rewriter} (h : P [] rw) (hd : rw.disabled = false) (hq : Q rw)
    (hstep : ∀ o r, P o r → r.disabled = false → Q r →
      ∃ it, r.stepResponse p = .ok it ∧ P (o ++ it.emits) it.rw ∧ (it.go = true → Q it.rw)) :
    ∃ o rw', driveResponse p rw = .ok (o, rw') ∧ P o rw' := by
  have hinv := (responseMachine p).run_invariant (s := .running rw) (o := [])
    (P := fun o l => l.Meets (fun r => P o r ∧ r.disabled = false ∧ Q r) (P o) False)
    ⟨h, hd, hq⟩ ?_
  · unfold driveResponse
    dsimp only
    split
    · next r hl =>
      rw [hl, List.nil_append] at hinv
      exact ⟨_, _, rfl, hinv.1⟩
    · next r hl =>
      rw [hl, List.nil_append] at hinv
      exact ⟨_, _, rfl, hinv⟩
    · next e hl =>
      rw [hl] at hinv
      exact hinv.elim
  · rintro o l o' l' hl hs
    cases l with
    | returned r => simp [responseMachine, responseLoop] at hs
    | panicked e => simp [responseMachine, responseLoop] at hs
    | running r =>
      obtain ⟨it, hit, hp, hgo⟩ := hstep o r hl.1 hl.2.1 hl.2.2
      simp only [responseMachine, responseLoop, hit, Option.some.injEq, Prod.mk.injEq] at hs
      obtain ⟨rfl, rfl⟩ := hs
      cases hg : it.go with
      | false => exact hp
      | true => exact ⟨hp, ((stepResponse_frame hit).2.2.2.2 hg).trans hl.2.1, hgo hg⟩

theorem feedResponse_verbatim {p : Profile} {fed data : Bytes} {emits : List RespEmit}
    {rw : Rewriter} (h : Verbatim fed emits rw) (hact : rw.active = true)
    (hm : ¬ Meets Html rw.pos rw.pendingHead (rw.respBuf ++ data)) :
    ∃ o rw', rw.feedResponse p data = .ok (o, rw') ∧ rw'.active = true ∧
      Verbatim (fed ++ data) (emits ++ o) rw' := by
  have hext : Verbatim (fed ++ data) emits { rw with respBuf := rw.respBuf ++ data } := by
    refine ⟨?_, h.passing⟩
    rw [← h.bytes, List.append_assoc]
  cases hd : rw.disabled with
  | true =>
    refine ⟨_, _, feedResponse_disabled p hd data, hact, hext.step ?_ h.passing⟩
    simp [RespEmit.render]
  | false =>
    rw [feedResponse_running p hact hd]
    have hstep : ∀ o r, Verbatim (fed ++ data) (emits ++ o) r → r.disabled = false →
        ¬ Meets Html r.pos r.pendingHead r.respBuf →
        ∃ it, r.stepResponse p = .ok it ∧ Verbatim (fed ++ data) (emits ++ (o ++ it.emits)) it.rw ∧
          (it.go = true → ¬ Meets Html it.rw.pos it.rw.pendingHead it.rw.respBuf) := by
      intro o r hr hdis hq
      simpa only [List.append_assoc] using stepResponse_verbatim hr hdis hq
    obtain ⟨o, rw', hrun, hv⟩ := @driveResponse_total p
      (fun o r => Verbatim (fed ++ data) (emits ++ o) r)
      (fun r => ¬ Meets Html r.pos r.pendingHead r.respBuf)
      { rw with respBuf := rw.respBuf ++ data } (by simpa using hext) hd hm hstep
    refine ⟨o, rw', hrun, ?_, hv⟩
    exact feedResponse_active hact ((feedResponse_running p hact hd data).trans hrun)

theorem RunMeets.mono {Q : RespPos → List Bool → Bytes → Prop} {p : Profile} {rw : Rewriter}
    {ops ops' : List Op} (h : RunMeets Q p rw ops) (hpre : ops <+: ops') :
    RunMeets Q p rw ops' := by
  obtain ⟨pre, data, hp, hrest⟩ := h
  exact ⟨pre, data, hp.trans hpre, hrest⟩

theorem RunMeets.request {Q : RespPos → List Bool → Bytes → Prop} {p : Profile} {rw : Rewriter}
    {data : Bytes} {ops : List Op} (h : RunMeets Q p (rw.feedRequest data).2 ops) :
    RunMeets Q p rw (.request data :: ops) := by
  obtain ⟨pre, d, hp, emits, rw', hrun, hmeet⟩ := h
  exact ⟨.request data :: pre, d, List.cons_prefix_cons.mpr ⟨rfl, hp⟩, emits, rw', hrun, hmeet⟩

theorem RunMeets.response {Q : RespPos → List Bool → Bytes → Prop} {p : Profile}
    {rw rw₁ : Rewriter} {data : Bytes} {ops : List Op} {o₁ : List RespEmit}
    (hf : rw.feedResponse p data = .ok (o₁, rw₁)) (h : RunMeets Q p rw₁ ops) :
    RunMeets Q p rw (.response data :: ops) := by
  obtain ⟨pre, d, hp, emits, rw', hrun, hmeet⟩ := h
  exact ⟨.response data :: pre, d, List.cons_prefix_cons.mpr ⟨rfl, hp⟩, o₁ ++ emits, rw',
    by simp [runOps, hf, hrun, Except.map], hmeet⟩

theorem runOps_verbatim {p : Profile} {fed : Bytes} {emits : List RespEmit} {rw : Rewriter}
    {ops : List Op} (h : Verbatim fed emits rw) (hact : rw.active = true)
    (hm : ¬ RunMeets Html p rw ops) :
    ∃ o rw', rw.runOps p ops = .ok (o, rw') ∧ Verbatim (fed ++ responseFed ops) (emits ++ o) rw' := by
  induction ops generalizing fed emits rw with
  | nil => exact ⟨[], rw, rfl, by simpa [responseFed] using h⟩
  | cons op ops ih =>
    cases op with
    | request data =>
      obtain ⟨hact', -, hresp, hbuf⟩ := rw.feedRequest_frame data
      have h' : Verbatim fed emits (rw.feedRequest data).2 := by
        refine ⟨by rw [hbuf, h.bytes], ?_⟩
        unfold Passing
        rw [hresp]
        exact h.passing
      exact ih h' (by rw [hact', hact]) fun hmeets => hm hmeets.request
    | response data =>
      obtain ⟨o₁, rw₁, hf, hact', hv⟩ := feedResponse_verbatim (p := p) h hact fun hmeet =>
        hm ⟨[], data, ⟨ops, rfl⟩, [], rw, rfl, hmeet⟩
      obtain ⟨o₂, rw₂, hrun, hv'⟩ := ih hv hact' fun hmeets => hm (hmeets.response hf)
      refine ⟨o₁ ++ o₂, rw₂, by simp [runOps, hf, hrun, Except.map], ?_⟩
      simpa [responseFed] using hv'

/-- As long as the run meets no message to inject into, whatever parses or not, every response
byte received has been written as it came or is the next to be read. -/
theorem rewriter_copies_responses (p : Profile) (blob : Bytes) (ops : List Op)
    (hplain : ¬ RunMeets Html p { active := true, blob } ops) :
    ∀ pre, pre <+: ops → ∃ emits rw,
      ({ active := true, blob } : Rewriter).runOps p pre = .ok (emits, rw) ∧
      emits.flatMap RespEmit.render ++ rw.respBuf = responseFed pre := by
  intro pre hpre
  have hstart : Verbatim [] [] ({ active := true, blob } : Rewriter) := ⟨rfl, Or.inl rfl⟩
  obtain ⟨o, rw, hrun, hv⟩ := runOps_verbatim hstart rfl fun h => hplain (h.mono hpre)
  exact ⟨o, rw, hrun, by simpa using hv.bytes⟩

private def copiedPage : Bytes :=
  ascii "HTTP/1.1 200 OK\r\nContent-Type: text/plain\r\nContent-Length: 2\r\n\r\nok"

theorem rewriter_copies_page : ∃ emits rw,
    ({ active := true, blob := ascii "b" } : Rewriter).runOps .debug [.response copiedPage] =
        .ok (emits, rw) ∧
      emits.flatMap RespEmit.render ++ rw.respBuf = copiedPage := by
  refine rewriter_copies_responses .debug (ascii "b") [.response copiedPage] ?_ _ List.prefix_rfl
  have hend : findHeaderEnd copiedPage = some 64 := by decide +kernel
  have hhead : responseHead (copiedPage.take 60) = some (200,
      [(Str.lit "Content-Type", Str.lit "text/plain"), (Str.lit "Content-Length", Str.lit "2")]) := by
    decide +kernel
  have hframing : responseFraming 200 false
      [(Str.lit "Content-Type", Str.lit "text/plain"), (Str.lit "Content-Length", Str.lit "2")] =
        some (.length 2) := by decide +kernel
  have hstop : ∀ pending, ¬ Meets Html .head pending [] := by
    intro pending hm
    have hnone : findHeaderEnd [] = none := by decide
    cases hm with
    | here h =>
      obtain ⟨-, _, _, _, _, he, -⟩ := h
      simp [hnone] at he
    | interim he | bodiless he | body he => simp [hnone] at he
  rintro ⟨pre, data, hpre, emits, rw', hrun, hm⟩
  obtain ⟨rfl, rfl⟩ : pre = [] ∧ data = copiedPage := by
    cases pre with
    | nil => simpa using hpre
    | cons op pre => simp at hpre
  obtain ⟨-, rfl⟩ : [] = emits ∧ _ = rw' := by simpa [runOps] using hrun
  have hm : Meets Html .head [] copiedPage := hm
  cases hm with
  | here h =>
    obtain ⟨-, n, status, headers, framing, he, hh, -, hi⟩ := h
    obtain rfl : 64 = n := Option.some.inj (hend.symm.trans he)
    obtain ⟨rfl, rfl⟩ := Prod.mk.inj (Option.some.inj (hhead.symm.trans hh))
    revert hi
    decide +kernel
  | @interim _ _ n status headers he hh hs =>
    obtain rfl : 64 = n := Option.some.inj (hend.symm.trans he)
    obtain ⟨rfl, -⟩ := Prod.mk.inj (Option.some.inj (hhead.symm.trans hh))
    omega
  | @bodiless _ _ n status headers he hh hs hf =>
    obtain rfl : 64 = n := Option.some.inj (hend.symm.trans he)
    obtain ⟨rfl, rfl⟩ := Prod.mk.inj (Option.some.inj (hhead.symm.trans hh))
    simp [hframing] at hf
  | @body _ _ n status headers framing he hh hf hbody =>
    obtain rfl : 64 = n := Option.some.inj (hend.symm.trans he)
    obtain ⟨rfl, rfl⟩ := Prod.mk.inj (Option.some.inj (hhead.symm.trans hh))
    obtain rfl : Framing.length 2 = framing := Option.some.inj (hframing.symm.trans hf)
    cases hbody with
    | here h => simp [Html, framingToKind] at h
    | next hs h =>
      have hrest : (pullBody (framingToKind (.length 2)) (copiedPage.drop 64)).rest = [] := by
        decide +kernel
      exact hstop _ (hrest ▸ h)

private def htmlThenGarbage : Bytes :=
  ascii "HTTP/1.1 200 OK\r\nContent-Type: text/html\r\nContent-Length: 6\r\n\r\n<head>" ++
    ascii "garbage\r\n\r\n"

/-- A message is injected into before the stream fails to parse. -/
theorem rewriter_injects_before_garbage :
    RunMeets Malformed .release { active := true, blob := ascii "<!--adw-cosmetic-->" }
        [.response htmlThenGarbage] ∧
      ∃ emits rw, ({ active := true, blob := ascii "<!--adw-cosmetic-->" } : Rewriter).runOps
          .release [.response htmlThenGarbage] = .ok (emits, rw) ∧
        emits.flatMap RespEmit.render ++ rw.respBuf ≠ responseFed [.response htmlThenGarbage] := by
  constructor
  · refine ⟨[], htmlThenGarbage, List.prefix_refl _, [], _, rfl, ?_⟩
    have hbody : Meets Malformed (.body (.length 6)) [] (htmlThenGarbage.drop 63) := by
      refine .next (by decide +kernel) (.here (@Malformed.head _ _ 11 ?_ ?_)) <;> decide +kernel
    refine @Meets.body Malformed [] htmlThenGarbage 63 200
      [(Str.lit "Content-Type", Str.lit "text/html"), (Str.lit "Content-Length", Str.lit "6")]
      (.length 6) ?_ ?_ ?_ hbody <;> decide +kernel
  · obtain ⟨r, hrun⟩ := runOps_release
      { active := true, blob := ascii "<!--adw-cosmetic-->" } [.response htmlThenGarbage]
    refine ⟨r.1, r.2, hrun, ?_⟩
    have hbytes : (({ active := true, blob := ascii "<!--adw-cosmetic-->" } : Rewriter).runOps
        .release [.response htmlThenGarbage]).map
        (fun r => decide (r.1.flatMap RespEmit.render ++ r.2.respBuf =
          responseFed [.response htmlThenGarbage])) = .ok false := by decide +kernel
    simpa [hrun, Except.map] using hbytes

end Rewriter

end Adwarden.Tls
