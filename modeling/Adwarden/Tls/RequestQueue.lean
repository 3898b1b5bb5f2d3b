import Adwarden.Tls.RequestStream

/-! The request side of the rewriter next to the response side: what is written upstream over a run
of both, and which request each final response is taken for an answer to. -/
namespace Adwarden.Tls
open Adwarden.Lib

namespace Rewriter

/-- The next head on the response side is complete and is one of a final response. -/
def readsFinal (rw : Rewriter) : Bool :=
  match rw.resp, findHeaderEnd rw.respBuf with
  | .head, some hend =>
    match responseHead (rw.respBuf.take (hend - 4)) with
    | some (status, _) => !decide (100 ≤ status ∧ status ≤ 199 ∧ status ≠ 101)
    | none => false
  | _, _ => false

/-- The flag that an iteration of the response loop pops. -/
def poppedIn : RespLoop → RespLoop → List Bool
  | .running rw, _ => if rw.readsFinal then [rw.pendingHead.headD false] else []
  | _, _ => []

/-- The flags popped for the final responses whose heads are read in a call. -/
def poppedBy (p : Profile) (rw : Rewriter) (data : Bytes) : List Bool :=
  if ¬ rw.active ∨ rw.disabled then []
  else (((responseMachine p).observe poppedIn).run
    (.running { rw with respBuf := rw.respBuf ++ data })).1

/-- The flags pushed for the requests whose heads are read in a call. -/
def pushedBy (rw : Rewriter) (data : Bytes) : List Bool :=
  (rw.feedRequest data).2.pendingHead.drop rw.pendingHead.length

/-- What successive calls have written upstream, and the flags they have pushed and popped. -/
structure Log where
  sent : Bytes := []
  pushed : List Bool := []
  popped : List Bool := []

def logOps (p : Profile) : Rewriter → List Op → Except Panic (Log × Rewriter)
  | rw, [] => .ok ({}, rw)
  | rw, .request data :: ops =>
    ((rw.feedRequest data).2.logOps p ops).map fun r =>
      ({ r.1 with
        sent := (rw.feedRequest data).1 ++ r.1.sent
        pushed := rw.pushedBy data ++ r.1.pushed }, r.2)
  | rw, .response data :: ops =>
    match rw.feedResponse p data with
    | .error e => .error e
    | .ok (_, rw') => (rw'.logOps p ops).map fun r =>
      ({ r.1 with popped := rw.poppedBy p data ++ r.1.popped }, r.2)

def requestFed (ops : List Op) : Bytes :=
  ops.flatMap fun | .request d => d | .response _ => []

/-- No response gives the rewriter up. -/
def Steady (p : Profile) : Rewriter → List Op → Prop
  | _, [] => True
  | rw, .request data :: ops => (rw.feedRequest data).2.Steady p ops
  | rw, .response data :: ops => ∀ emits rw', rw.feedResponse p data = .ok (emits, rw') →
      rw'.disabled = rw.disabled ∧ rw'.Steady p ops

/-- At no time have more final responses been read than requests. -/
def Timely (p : Profile) (rw : Rewriter) (ops : List Op) : Prop :=
  ∀ pre, pre <+: ops → ∀ log rw', rw.logOps p pre = .ok (log, rw') →
    log.popped.length ≤ rw.pendingHead.length + log.pushed.length

section Queue

variable {p : Profile} {rw rw' : Rewriter} {data : Bytes}

private theorem stepResponseHead_pending (rw : Rewriter) (hr : rw.resp = .head) :
    rw.stepResponseHead.rw.pendingHead =
      if rw.readsFinal then rw.pendingHead.tail else rw.pendingHead := by
  unfold stepResponseHead
  cases he : findHeaderEnd rw.respBuf with
  | none =>
    have hfinal : rw.readsFinal = false := by simp only [readsFinal, hr, he]
    simp only [hfinal, Bool.false_eq_true, if_false]
    split_ifs
    · rfl
    · rfl
  | some hend =>
    cases hh : responseHead (rw.respBuf.take (hend - 4)) with
    | none => simp [readsFinal, hr, he, hh, disableFlushResp]
    | some r =>
      obtain ⟨status, headers⟩ := r
      by_cases hs : 100 ≤ status ∧ status ≤ 199 ∧ status ≠ 101
      · simp [readsFinal, hr, he, hh, hs]
      · have hfinal : rw.readsFinal = true := by
          simp only [readsFinal, hr, he, hh, hs, decide_false, Bool.not_false]
        simp only [hh, if_neg hs, hfinal, if_true]
        by_cases h101 : status = 101
        · rw [if_pos h101]
          rfl
        · rw [if_neg h101]
          cases responseFraming status (rw.pendingHead.headD false) headers with
          | none => rfl
          | some framing => cases injectable status headers <;> rfl

/-- The queue is popped when the head of a final response is read, and then only. -/
theorem stepResponse_pending {it : RespIter} (h : rw.stepResponse p = .ok it) :
    it.rw.pendingHead = if rw.readsFinal then rw.pendingHead.tail else rw.pendingHead := by
  unfold stepResponse at h
  cases hr : rw.resp with
  | head =>
    simp only [hr] at h
    obtain rfl := Except.ok.inj h
    have hrw : { rw with resp := .head } = rw := by rw [← hr]
    rw [hrw]
    exact stepResponseHead_pending rw hr
  | buffer bs =>
    simp only [hr] at h
    cases stepResponseBuffer_cases h <;> simp [readsFinal, hr]
  | stream kind =>
    simp only [hr] at h
    obtain rfl := Except.ok.inj h
    unfold stepResponseStream
    cases hs : (pullBody kind rw.respBuf).step <;> simp [hs, readsFinal, hr]
  | pass kind =>
    simp only [hr] at h
    obtain rfl := Except.ok.inj h
    unfold stepResponsePass
    cases hs : (pullBody kind rw.respBuf).step <;> simp [hs, disableFlushResp, readsFinal, hr]

/-- Popped flags and those left are the ones that were there, unless more were popped. -/
def Popped (before popped after : List Bool) : Prop :=
  popped ++ after = before ∨ before.length < popped.length

theorem Popped.step {before popped : List Bool} (h : Popped before popped rw.pendingHead)
    (final : Bool) :
    Popped before (popped ++ if final then [rw.pendingHead.headD false] else [])
      (if final then rw.pendingHead.tail else rw.pendingHead) := by
  cases final with
  | false => simpa using h
  | true =>
    simp only [if_true]
    rcases h with rfl | hlt
    · cases hq : rw.pendingHead with
      | nil =>
        right
        simp
      | cons b q =>
        left
        simp
    · right
      rw [List.length_append]
      omega

theorem feedResponse_popped {emits : List RespEmit}
    (h : rw.feedResponse p data = .ok (emits, rw')) :
    Popped rw.pendingHead (rw.poppedBy p data) rw'.pendingHead := by
  unfold poppedBy feedResponse at *
  split_ifs at h ⊢ with hoff
  · obtain ⟨-, rfl⟩ := Prod.mk.inj (Except.ok.inj h)
    exact Or.inl rfl
  · have hinv := ((responseMachine p).observe poppedIn).run_invariant
      (s := .running { rw with respBuf := rw.respBuf ++ data }) (o := [])
      (P := fun popped l => l.Meets (fun r => Popped rw.pendingHead popped r.pendingHead)
        (fun r => Popped rw.pendingHead popped r.pendingHead) True) (Or.inl rfl) ?_
    · rw [(responseMachine p).run_observe, List.nil_append] at hinv
      unfold driveResponse at h
      dsimp only at h
      split at h
      · next r hl =>
        obtain ⟨-, rfl⟩ := Prod.mk.inj (Except.ok.inj h)
        rw [hl] at hinv
        exact hinv
      · next r hl =>
        obtain ⟨-, rfl⟩ := Prod.mk.inj (Except.ok.inj h)
        rw [hl] at hinv
        exact hinv
      · cases h
    · rintro popped l o' l' hl hs
      obtain ⟨rfl, o, hstep⟩ := (Machine.observe_step _).mp hs
      cases l with
      | returned r => cases hstep
      | panicked e => cases hstep
      | running r =>
        simp only [responseMachine, responseLoop] at hstep
        cases hit : r.stepResponse p with
        | error e =>
          simp only [hit, Option.some.injEq, Prod.mk.injEq] at hstep
          obtain ⟨-, rfl⟩ := hstep
          trivial
        | ok it =>
          simp only [hit, Option.some.injEq, Prod.mk.injEq] at hstep
          obtain ⟨-, rfl⟩ := hstep
          have hnext := hl.step r.readsFinal
          rw [← stepResponse_pending hit] at hnext
          cases it.go with
          | false => exact hnext
          | true => exact hnext

/-- The response side leaves the request side where it is. -/
theorem feedResponse_request {emits : List RespEmit}
    (h : rw.feedResponse p data = .ok (emits, rw')) :
    rw'.req = rw.req ∧ rw'.reqBuf = rw.reqBuf := by
  unfold feedResponse at h
  split_ifs at h with hoff
  · obtain ⟨-, rfl⟩ := Prod.mk.inj (Except.ok.inj h)
    exact ⟨rfl, rfl⟩
  · have hd : rw.disabled = false := by
      rw [← Bool.not_eq_true]
      exact fun hd => hoff (Or.inr hd)
    refine @driveResponse_invariant p (fun _ r => r.req = rw.req ∧ r.reqBuf = rw.reqBuf)
      { rw with respBuf := rw.respBuf ++ data } _ _ ⟨rfl, rfl⟩ hd ?_ h
    rintro o r it ⟨hreq, hbuf⟩ - hit
    obtain ⟨-, -, hreq', hbuf', -⟩ := stepResponse_frame hit
    exact ⟨hreq'.trans hreq, hbuf'.trans hbuf⟩

theorem feedRequest_pushed (rw : Rewriter) (data : Bytes) :
    (rw.feedRequest data).2.pendingHead = rw.pendingHead ++ rw.pushedBy data := by
  have hpre : rw.pendingHead <+: (rw.feedRequest data).2.pendingHead := by
    unfold feedRequest
    split_ifs
    · exact List.prefix_refl _
    · refine requestFeeder.run_invariant (P := fun _ r => rw.pendingHead <+: r.pendingHead)
        (s := { rw with reqBuf := rw.reqBuf ++ data }) (o := []) (List.prefix_refl _) ?_
      intro _ r _ r' hpre hs
      have hstep := (stepRequest_cases hs).2
      cases hstep with
      | unreadable => exact hpre
      | bodiless => exact hpre.trans (List.prefix_append _ _)
      | sized => exact hpre.trans (List.prefix_append _ _)
      | chunked => exact hpre.trans (List.prefix_append _ _)
      | body => exact hpre
      | part => exact hpre
  obtain ⟨pushed, hp⟩ := hpre
  rw [pushedBy, ← hp, List.drop_left]

theorem Timely.request {ops : List Op} (h : Timely p rw (.request data :: ops)) :
    Timely p (rw.feedRequest data).2 ops := by
  intro pre hpre log rw' hrun
  have hle := h (.request data :: pre) (List.cons_prefix_cons.mpr ⟨rfl, hpre⟩)
    { log with sent := (rw.feedRequest data).1 ++ log.sent
               pushed := rw.pushedBy data ++ log.pushed } rw' (by simp [logOps, hrun, Except.map])
  rw [feedRequest_pushed, List.length_append]
  simpa [Nat.add_assoc] using hle

theorem Timely.response {ops : List Op} {emits : List RespEmit} {rw₁ : Rewriter}
    (h : Timely p rw (.response data :: ops)) (hf : rw.feedResponse p data = .ok (emits, rw₁)) :
    rw.poppedBy p data ++ rw₁.pendingHead = rw.pendingHead ∧ Timely p rw₁ ops := by
  have hone : ([.response data] : List Op) <+: .response data :: ops :=
    List.cons_prefix_cons.mpr ⟨rfl, List.nil_prefix⟩
  have hle := h _ hone { popped := rw.poppedBy p data ++ [] } rw₁ (by simp [logOps, hf, Except.map])
  have hpop : rw.poppedBy p data ++ rw₁.pendingHead = rw.pendingHead := by
    rcases feedResponse_popped hf with heq | hlt
    · exact heq
    · simp only [List.append_nil, List.length_nil, Nat.add_zero] at hle
      omega
  refine ⟨hpop, ?_⟩
  intro pre hpre log rw' hrun
  have hle := h (.response data :: pre) (List.cons_prefix_cons.mpr ⟨rfl, hpre⟩)
    { log with popped := rw.poppedBy p data ++ log.popped } rw' (by
      simp [logOps, hf, hrun, Except.map])
  rw [← hpop] at hle
  simp only [List.length_append] at hle
  omega

/-- While responses are not ahead of requests, the flags popped are the first of those pushed. -/
theorem logOps_popped {ops : List Op} {log : Log} (hrun : rw.logOps p ops = .ok (log, rw'))
    (ht : Timely p rw ops) : log.popped ++ rw'.pendingHead = rw.pendingHead ++ log.pushed := by
  induction ops generalizing rw log with
  | nil =>
    obtain ⟨rfl, rfl⟩ := Prod.mk.inj (Except.ok.inj hrun)
    simp
  | cons op ops ih =>
    cases op with
    | request data =>
      rw [logOps] at hrun
      cases hr : (rw.feedRequest data).2.logOps p ops with
      | error e =>
        rw [hr] at hrun
        cases hrun
      | ok r =>
        obtain ⟨log', rw₂⟩ := r
        rw [hr] at hrun
        obtain ⟨rfl, rfl⟩ := Prod.mk.inj (Except.ok.inj hrun)
        have hrest := ih hr ht.request
        rw [feedRequest_pushed, List.append_assoc] at hrest
        exact hrest
    | response data =>
      rw [logOps] at hrun
      cases hf : rw.feedResponse p data with
      | error e =>
        rw [hf] at hrun
        cases hrun
      | ok r =>
        obtain ⟨emits, rw₁⟩ := r
        obtain ⟨hpop, ht'⟩ := ht.response hf
        cases hr : rw₁.logOps p ops with
        | error e =>
          rw [hf] at hrun
          simp only [hr] at hrun
          cases hrun
        | ok r =>
          obtain ⟨log', rw₂⟩ := r
          rw [hf] at hrun
          simp only [hr] at hrun
          obtain ⟨rfl, rfl⟩ := Prod.mk.inj (Except.ok.inj hrun)
          have hrest := ih hr ht'
          rw [List.append_assoc, hrest, ← List.append_assoc, hpop]

end Queue

/-- What is written upstream over a run, while no response gives the rewriter up. -/
theorem logOps_ahead {p : Profile} {rw rw' : Rewriter} {ops : List Op} {log : Log}
    {written kept : Bytes} {heads : List Bool} (hact : rw.active = true) (hrests : rw.Rests)
    (h : rw.Ahead (requestFed ops) written kept heads) (hsteady : Steady p rw ops)
    (hrun : rw.logOps p ops = .ok (log, rw')) :
    log.sent = written ∧ rw'.reqBuf = kept ∧ log.pushed = heads := by
  induction ops generalizing rw log written heads with
  | nil =>
    obtain ⟨rfl, rfl⟩ := Prod.mk.inj (Except.ok.inj hrun)
    obtain ⟨rfl, hb, rfl⟩ := h.done hrests
    exact ⟨rfl, hb, rfl⟩
  | cons op ops ih =>
    cases op with
    | request data =>
      obtain ⟨written', pushed, heads', rfl, rfl, hp, h'⟩ := h.feed hact
      have hact' : (rw.feedRequest data).2.active = true := by
        rw [(rw.feedRequest_frame data).1]
        exact hact
      have hpushed : rw.pushedBy data = pushed := by
        rw [pushedBy, hp, List.drop_left]
      rw [logOps] at hrun
      cases hr : (rw.feedRequest data).2.logOps p ops with
      | error e =>
        rw [hr] at hrun
        cases hrun
      | ok r =>
        obtain ⟨log', rw₂⟩ := r
        rw [hr] at hrun
        obtain ⟨rfl, rfl⟩ := Prod.mk.inj (Except.ok.inj hrun)
        obtain ⟨rfl, hb, rfl⟩ := ih hact' (feedRequest_rests data hact) h' hsteady hr
        exact ⟨rfl, hb, by rw [hpushed]⟩
    | response data =>
      rw [logOps] at hrun
      cases hf : rw.feedResponse p data with
      | error e =>
        rw [hf] at hrun
        cases hrun
      | ok r =>
        obtain ⟨emits, rw₁⟩ := r
        obtain ⟨hd, hsteady'⟩ := hsteady emits rw₁ hf
        obtain ⟨hreq, hbuf⟩ := feedResponse_request hf
        have hrests' : rw₁.Rests := by
          unfold Rests at hrests ⊢
          rwa [hd, hreq, hbuf]
        have h' : rw₁.Ahead (requestFed ops) written kept heads := by
          unfold Ahead at h ⊢
          rwa [hd, hreq, hbuf]
        cases hr : rw₁.logOps p ops with
        | error e =>
          rw [hf] at hrun
          simp only [hr] at hrun
          cases hrun
        | ok r =>
          obtain ⟨log', rw₂⟩ := r
          rw [hf] at hrun
          simp only [hr] at hrun
          obtain ⟨rfl, rfl⟩ := Prod.mk.inj (Except.ok.inj hrun)
          have hrest := ih (feedResponse_active hact hf) hrests' h' hsteady' hr
          exact hrest

/-- Of a stream of requests each head asks for `identity` and the rest is written as it came, only a
head that may still be completed is kept, and while no response is ahead of its request each final
response meets the flag of its own. -/
theorem requests_edited (p : Profile) (blob : Bytes) (ops : List Op) {written kept : Bytes}
    {heads : List Bool} {log : Log} {rw : Rewriter}
    (hs : Requests .head (requestFed ops) written kept heads)
    (hsteady : Steady p { active := true, blob } ops)
    (hrun : ({ active := true, blob } : Rewriter).logOps p ops = .ok (log, rw)) :
    log.sent = written ∧ rw.reqBuf = kept ∧ log.pushed = heads ∧
      (Timely p { active := true, blob } ops → log.popped <+: heads) := by
  have hrests : Rests { active := true, blob } := Or.inr (Or.inl ⟨rfl, rfl, Nat.zero_le _⟩)
  have hahead : Ahead { active := true, blob } (requestFed ops) written kept heads := .of hs rfl
  obtain ⟨hsent, hkept, hpushed⟩ := logOps_ahead rfl hrests hahead hsteady hrun
  refine ⟨hsent, hkept, hpushed, ?_⟩
  intro ht
  have hpopped := logOps_popped hrun ht
  rw [← hpushed]
  exact ⟨rw.pendingHead, hpopped⟩

private def foldedGet : Bytes := ascii "HEAD / HTTP/1.1\r\nAccept-Encoding: gzip\r\n x: 1\r\n\r\n"

private def askedHead : Bytes := ascii "HEAD / HTTP/1.1\r\nAccept-Encoding: identity\r\n\r\n"

private def post : Bytes := ascii "POST /u HTTP/1.1\r\nContent-Length: 2\r\n\r\n"

private def askedPost : Bytes :=
  ascii "POST /u HTTP/1.1\r\nContent-Length: 2\r\nAccept-Encoding: identity\r\n\r\n"

private def mixed : List Op :=
  [.request (foldedGet.take 30), .request (foldedGet.drop 30 ++ post ++ ascii "h"),
    .response (ascii "HTTP/1.1 200 OK\r\nContent-Length: 5\r\n\r\n"), .request (ascii "iGET")]

private theorem mixed_requests : Requests .head (requestFed mixed)
    (askedHead ++ (askedPost ++ (ascii "hi" ++ []))) (ascii "GET") [true, false] := by
  have hfed : requestFed mixed = foldedGet ++ (post ++ (ascii "hi" ++ ascii "GET")) := by
    decide
  have hhead : IsRequestHead foldedGet true
      [(Str.lit "Accept-Encoding", Str.lit "gzip"), (Str.lit "x", Str.lit "1")] :=
    ⟨by decide, by decide, Str.lit "HEAD", by decide, by decide⟩
  have hpost : IsRequestHead post false [(Str.lit "Content-Length", Str.lit "2")] :=
    ⟨by decide, by decide, Str.lit "POST", by decide, by decide⟩
  rw [hfed]
  apply Requests.bodiless hhead
  · exact (asksIdentity_iff hhead.ends hhead.fields_ne_nil).mpr (by decide)
  · decide
  apply Requests.sized (n := 2) hpost
  · exact (asksIdentity_iff hpost.ends hpost.fields_ne_nil).mpr (by decide)
  · decide
  apply Requests.body (by decide)
  exact .waiting ⟨by decide, by decide⟩

/-- A request of `HEAD` with a folded field, one with a body, and the start of a third, with the
response to the first in between. -/
theorem requests_edited_mixed : ∃ log rw,
    ({ active := true, blob := ascii "b" } : Rewriter).logOps .release mixed = .ok (log, rw) ∧
      log.sent = askedHead ++ (askedPost ++ (ascii "hi" ++ [])) ∧ rw.reqBuf = ascii "GET" ∧
      log.pushed = [true, false] ∧
      (Timely .release { active := true, blob := ascii "b" } mixed →
        log.popped <+: [true, false]) := by
  have hrun : (({ active := true, blob := ascii "b" } : Rewriter).logOps .release mixed).map
      (fun r => r.1.popped) = .ok [true] := by decide +kernel
  have hsteady : Steady .release { active := true, blob := ascii "b" } mixed := by
    intro emits rw hf
    refine ⟨?_, trivial⟩
    have hd := congrArg (Except.map fun r => r.2.disabled) hf
    exact Except.ok.inj (hd.symm.trans (by decide +kernel))
  cases hlog : ({ active := true, blob := ascii "b" } : Rewriter).logOps .release mixed with
  | error e =>
    rw [hlog] at hrun
    cases hrun
  | ok r =>
    refine ⟨r.1, r.2, rfl, ?_⟩
    exact requests_edited .release (ascii "b") mixed mixed_requests hsteady hlog

private def timeout : Bytes := ascii "HTTP/1.1 408 Timeout\r\nContent-Length: 0\r\n\r\n"

private def gzipGet : Bytes := ascii "GET / HTTP/1.1\r\nAccept-Encoding: gzip\r\n\r\n"

/-- A response that comes before any request takes the place of the one to it, and one that is not
HTTP/1.x has the next request written as it came. -/
theorem early_response_misaligned :
    (∃ log rw, ({ active := true, blob := ascii "b" } : Rewriter).logOps .release
        [.response timeout, .request foldedGet] = .ok (log, rw) ∧
      log.pushed = [true] ∧ log.popped = [false]) ∧
    ∃ log rw, ({ active := true, blob := ascii "b" } : Rewriter).logOps .release
        [.response (ascii "x\r\n\r\n"), .request gzipGet] = .ok (log, rw) ∧
      rw.active = true ∧ log.sent = gzipGet ∧ ¬ AsksIdentity gzipGet gzipGet := by
  have hearly : (({ active := true, blob := ascii "b" } : Rewriter).logOps .release
      [.response timeout, .request foldedGet]).map (fun r => (r.1.pushed, r.1.popped)) =
      .ok ([true], [false]) := by decide +kernel
  have hgiven : (({ active := true, blob := ascii "b" } : Rewriter).logOps .release
      [.response (ascii "x\r\n\r\n"), .request gzipGet]).map (fun r => (r.2.active, r.1.sent)) =
      .ok (true, gzipGet) := by decide +kernel
  constructor
  · cases hlog : ({ active := true, blob := ascii "b" } : Rewriter).logOps .release
        [.response timeout, .request foldedGet] with
    | error e =>
      rw [hlog] at hearly
      cases hearly
    | ok r =>
      rw [hlog] at hearly
      obtain ⟨hpushed, hpopped⟩ := Prod.mk.inj (Except.ok.inj hearly)
      exact ⟨r.1, r.2, rfl, hpushed, hpopped⟩
  · cases hlog : ({ active := true, blob := ascii "b" } : Rewriter).logOps .release
        [.response (ascii "x\r\n\r\n"), .request gzipGet] with
    | error e =>
      rw [hlog] at hgiven
      cases hgiven
    | ok r =>
      rw [hlog] at hgiven
      obtain ⟨hactive, hsent⟩ := Prod.mk.inj (Except.ok.inj hgiven)
      refine ⟨r.1, r.2, rfl, hactive, hsent, ?_⟩
      rw [asksIdentity_iff (by decide +kernel) (by decide)]
      decide +kernel

end Rewriter

end Adwarden.Tls
