import Adwarden.Tls.RewriterForeign
import Adwarden.Tls.TapRetention

/-! How much the rewriter holds back over a run of feeds. -/
namespace Adwarden.Tls
open Adwarden.Lib

namespace Rewriter

/-- The partial line of a response body that is being read. -/
def respLine : RespState → Bytes
  | .head => []
  | .buffer scan => scan.body.line
  | .stream kind | .pass kind => kind.line

def retained (rw : Rewriter) : Side → Held
  | .request => { buf := rw.reqBuf, inHead := rw.req == .head }
  | .response => { buf := rw.respBuf, line := respLine rw.resp, inHead := rw.resp == .head }

def feed (p : Profile) (rw : Rewriter) (f : Feed) : Option Rewriter :=
  match f.side with
  | .request => some (rw.feedRequest f.data).2
  | .response => (rw.feedResponse p f.data).toOption.map (·.2)

/-- The runs of a provisioned rewriter that is fed at most `maxFeed` bytes at a time. A panic ends
a run. -/
def feeds (p : Profile) (blob : Bytes) : Automaton Rewriter Feed where
  init := { active := true, blob }
  step rw f := if f.data.length ≤ maxFeed then rw.feed p f else none

/-- A feed leaves no more than the bound in either direction, and what is too long for it disables
the rewriter. -/
def Kept (p : Profile) (rw : Rewriter) (f : Feed) : Prop :=
  ∀ rw', rw.feed p f = some rw' →
    (∀ side, (rw'.retained side).Bounded) ∧ ((rw.retained f.side).Overlong f.data → rw'.disabled = true)

def LineFits (rw : Rewriter) (f : Feed) : Prop :=
  rw.disabled = true ∨ (rw.retained f.side).LineFits f.data

/-- What holds of a rewriter between two feeds. -/
structure Settled (rw : Rewriter) : Prop where
  active : rw.active = true
  request : rw.reqBuf.length ≤ maxHeaderBytes
  response : rw.disabled = false → (rw.retained .response).Settled
  bounded : (rw.retained .response).Bounded
  /-- An anchor that could be decided on has been. -/
  scanning : ∀ bs, rw.resp = .buffer bs → decideAnchor bs.scan bs.bodyDone = none

theorem settled_fresh (blob : Bytes) : Settled { active := true, blob } where
  active := rfl
  request := Nat.zero_le _
  response _ := .empty true
  bounded := .empty true
  scanning _ h := by cases h

/-- What holds of a rewriter that is about to read a buffer of responses. -/
structure Fit (rw : Rewriter) : Prop where
  buf : rw.respBuf.length ≤ maxHeaderBytes + maxFeed
  ready : (rw.retained .response).Ready

/-- What holds of a rewriter that has read all it can of a buffer of responses. -/
structure Parked (rw : Rewriter) : Prop where
  response : rw.disabled = false → (rw.retained .response).Settled
  bounded : (rw.retained .response).Bounded
  scanning : ∀ bs, rw.resp = .buffer bs → decideAnchor bs.scan bs.bodyDone = none

/-- A rewriter that reads a head has no line open. -/
theorem Fit.head {rw : Rewriter} (hr : rw.resp = .head)
    (hle : rw.respBuf.length ≤ maxHeaderBytes + maxFeed) : Fit rw :=
  ⟨hle, Or.inl (by simp [retained, hr, respLine])⟩

theorem Parked.head {rw : Rewriter} (hr : rw.resp = .head)
    (hle : rw.respBuf.length ≤ maxHeaderBytes + maxFeed)
    (hd : rw.disabled = false → rw.respBuf.length ≤ maxHeaderBytes) : Parked rw := by
  have hline : (rw.retained .response).line = [] := by simp [retained, hr, respLine]
  refine ⟨fun h => ⟨hd h, fun hne => absurd hline hne⟩, ?_, fun bs h => by simp [hr] at h⟩
  rw [Held.Bounded, Held.size, hline, List.length_nil]
  exact hle

theorem pullBody_waits {kind : BodyKind} {buf : Bytes}
    (h : (pullBody kind buf).step = .needMore) :
    Held.Waits { buf, line := kind.line }
      { buf := (pullBody kind buf).rest, line := (pullBody kind buf).body.line } := by
  cases kind with
  | length remaining =>
    have hlt : buf.length < remaining := by
      by_contra hle
      have hmin : min remaining buf.length = remaining := by omega
      simp [pullBody, hmin] at h
    have hmin : min remaining buf.length = buf.length := by omega
    have hrest : (pullBody (.length remaining) buf).rest = [] := by simp [pullBody, hmin]
    rw [hrest]
    exact ⟨.empty false, Or.inl (Nat.zero_le _)⟩
  | close => exact ⟨.empty false, Or.inl (Nat.zero_le _)⟩
  | chunked reader => exact consume_waits h

/-- The body bytes a state has yet to read, as its held part. -/
theorem pullBody_parks (rw : Rewriter) (kind : BodyKind) (resp : RespState)
    (hkind : respLine rw.resp = kind.line) (hresp : respLine resp = (pullBody kind rw.respBuf).body.line)
    (h : (pullBody kind rw.respBuf).step = .needMore) :
    Held.Waits (rw.retained .response)
      (retained { rw with respBuf := (pullBody kind rw.respBuf).rest, resp := resp } .response) := by
  have hw := (pullBody_waits h).reheaded (rw.resp == .head) (resp == .head)
  simpa only [retained, hkind, hresp] using hw

theorem framingToKind_line (framing : Framing) : (framingToKind framing).line = framing.line := by
  cases framing <;> rfl

/-- The line a decided scan leaves open: none behind the end of a body, else the body's. -/
theorem afterScan_line (kind : BodyKind) (buf : Bytes) (bodyDone : Bool)
    (he : (pullBody kind buf).step ≠ .error) :
    respLine (afterScan (pullBody kind buf).body
        (bodyDone || (pullBody kind buf).step == .done)).2 = [] ∨
      ((pullBody kind buf).step = .needMore ∧
        respLine (afterScan (pullBody kind buf).body
          (bodyDone || (pullBody kind buf).step == .done)).2 = (pullBody kind buf).body.line) := by
  cases kind with
  | length remaining =>
    left
    simp only [pullBody, afterScan]
    split_ifs <;> rfl
  | close => exact Or.inl rfl
  | chunked reader =>
    cases hs : (pullBody (.chunked reader) buf).step with
    | error => exact absurd hs he
    | done =>
      left
      simp [pullBody, afterScan, respLine]
    | needMore =>
      simp only [pullBody, afterScan]
      split_ifs
      · exact Or.inl rfl
      · exact Or.inr ⟨trivial, rfl⟩

/-- An iteration over what fits goes on with what fits, or leaves what is within the bound. -/
theorem stepResponse_fit {p : Profile} {rw : Rewriter} {it : RespIter} (h : Fit rw)
    (hit : rw.stepResponse p = .ok it) :
    (it.go = true → Fit it.rw) ∧ (it.go = false → Parked it.rw) := by
  have hbuf := h.buf
  unfold stepResponse at hit
  cases hr : rw.resp with
  | head =>
    simp only [hr] at hit
    obtain rfl := Except.ok.inj hit
    generalize hit' : stepResponseHead { rw with resp := .head } = it
    have hc := hit' ▸ stepResponseHead_cases { rw with resp := .head }
    cases hc with
    | wait he hle => exact ⟨fun h => (by cases h), fun _ => .head rfl hbuf fun _ => hle⟩
    | oversized | unparsed | switch =>
      exact ⟨fun h => (by cases h), fun _ => .head rfl (Nat.zero_le _) fun _ => Nat.zero_le _⟩
    | @interim hend | @bodiless hend =>
      refine ⟨fun _ => .head rfl ?_, fun h => (by cases h)⟩
      simp only [List.length_drop]
      omega
    | @inject hend status headers framing he hh hf | @pass hend status headers framing he hh hf =>
      refine ⟨fun _ => ⟨?_, Or.inl ?_⟩, fun h => by cases h⟩
      · simp only [List.length_drop]
        omega
      · exact (framingToKind_line framing).trans (responseFraming_line hf)
  | buffer bs =>
    simp only [hr] at hit
    have hle := (pullBody_rest_le bs.body rw.respBuf).trans hbuf
    cases stepResponseBuffer_cases hit with
    | malformed => exact ⟨fun h => (by cases h), fun _ => .head rfl hle fun h => by cases h⟩
    | wait he hdec =>
      have hdone := decideAnchor_waits hdec
      have hmore : (pullBody bs.body rw.respBuf).step = .needMore := by
        refine Step.eq_needMore he fun hdone' => ?_
        simp [hdone'] at hdone
      have hw := pullBody_parks rw bs.body (.buffer { bs with
        scan := bs.scan ++ (pullBody bs.body rw.respBuf).bytes
        body := (pullBody bs.body rw.respBuf).body
        bodyDone := bs.bodyDone || (pullBody bs.body rw.respBuf).step == .done })
        (by rw [hr]; rfl) rfl hmore
      refine ⟨fun h => (by cases h), fun _ => ⟨fun _ => hw.settled, hw.bounded h.ready, ?_⟩⟩
      intro bs' hbs'
      obtain rfl := RespState.buffer.inj hbs'
      exact hdec
    | inject he | abandon he =>
      refine ⟨fun _ => ⟨hle, ?_⟩, fun h => by cases h⟩
      rcases afterScan_line bs.body rw.respBuf bs.bodyDone he with hnil | ⟨hmore, hline⟩
      · exact Or.inl hnil
      · exact Or.inr (Or.inr ((pullBody_parks rw bs.body _ (by rw [hr]; rfl) hline hmore).bounded
          h.ready))
  | stream kind =>
    simp only [hr] at hit
    obtain rfl := Except.ok.inj hit
    have hle := (pullBody_rest_le kind rw.respBuf).trans hbuf
    unfold stepResponseStream
    cases hs : (pullBody kind rw.respBuf).step with
    | done => simpa [hs] using Fit.head rfl hle
    | error => simpa [hs] using Parked.head rfl hle fun h => by cases h
    | needMore =>
      have hw := pullBody_parks rw kind (.stream (pullBody kind rw.respBuf).body)
        (by rw [hr]; rfl) rfl hs
      simpa [hs] using Parked.mk (fun _ => hw.settled) (hw.bounded h.ready) fun _ h => by cases h
  | pass kind =>
    simp only [hr] at hit
    obtain rfl := Except.ok.inj hit
    have hle := (pullBody_rest_le kind rw.respBuf).trans hbuf
    unfold stepResponsePass
    cases hs : (pullBody kind rw.respBuf).step with
    | done => simpa [hs] using Fit.head rfl hle
    | error =>
      simpa [hs, disableFlushResp] using Parked.head rfl (Nat.zero_le _) fun _ => Nat.zero_le _
    | needMore =>
      have hw := pullBody_parks rw kind (.pass (pullBody kind rw.respBuf).body)
        (by rw [hr]; rfl) rfl hs
      simpa [hs] using Parked.mk (fun _ => hw.settled) (hw.bounded h.ready) fun _ h => by cases h

theorem driveResponse_parks {p : Profile} {rw rw' : Rewriter} {o : List RespEmit} (h : Fit rw)
    (hd : rw.disabled = false) (hrun : rw.driveResponse p = .ok (o, rw')) : Parked rw' := by
  refine @driveResponse_rule p (fun _ => Fit) (fun _ => Parked) rw rw' o h hd ?_ hrun
  rintro - r it hr - hit
  obtain ⟨hgoes, hends⟩ := stepResponse_fit hr hit
  cases hgo : it.go with
  | false => exact hends hgo
  | true => exact hgoes hgo

theorem driveResponse_frame {p : Profile} {rw rw' : Rewriter} {o : List RespEmit}
    (hd : rw.disabled = false) (hrun : rw.driveResponse p = .ok (o, rw')) :
    rw'.active = rw.active ∧ rw'.reqBuf = rw.reqBuf := by
  refine @driveResponse_invariant p (fun _ r => r.active = rw.active ∧ r.reqBuf = rw.reqBuf)
    rw rw' o ⟨rfl, rfl⟩ hd ?_ hrun
  rintro - r it ⟨hact, hreq⟩ - hit
  obtain ⟨hact', -, -, hreq', -⟩ := stepResponse_frame hit
  exact ⟨hact'.trans hact, hreq'.trans hreq⟩

/-- Between two feeds the request side holds no more than an unfinished head. -/
theorem feedRequest_reqBuf (rw : Rewriter) (data : Bytes) :
    (rw.feedRequest data).2.reqBuf.length ≤ maxHeaderBytes := by
  unfold feedRequest
  split_ifs with h
  · exact Nat.zero_le _
  · have hd : rw.disabled = false := by simpa using (not_or.mp h).2
    have hflush := requestFeeder.run_invariant (o := [])
      (P := fun _ r => r.disabled = true → r.reqBuf = [])
      (s := { rw with reqBuf := rw.reqBuf ++ data }) (fun hdis => by simp [hd] at hdis) ?_
    · have hhalt := requestFeeder.run_halts { rw with reqBuf := rw.reqBuf ++ data }
      change (requestFeeder.run { rw with reqBuf := rw.reqBuf ++ data }).2.reqBuf.length ≤ _
      generalize (requestFeeder.run { rw with reqBuf := rw.reqBuf ++ data }).2 = r at *
      cases hdis : r.disabled with
      | true => simp [hflush hdis]
      | false =>
        simp only [requestFeeder, stepRequest, hdis, Bool.false_eq_true, if_false] at hhalt
        split at hhalt
        · split at hhalt
          · split_ifs at hhalt with hlt
            exact Nat.not_lt.mp hlt
          · split at hhalt
            · cases hhalt
            · split at hhalt <;> cases hhalt
        · split_ifs at hhalt with h0 htake
          have hnil : r.reqBuf.length = 0 := by omega
          rw [hnil]
          exact Nat.zero_le _
    · intro _ r _ r' _ hs hdis
      have hrun : r.disabled = false := by
        by_contra hstop
        have hstop : r.disabled = true := by simpa using hstop
        simp [requestFeeder, stepRequest, hstop] at hs
      simp only [requestFeeder, stepRequest, hrun, Bool.false_eq_true, if_false] at hs
      split at hs
      · split at hs
        · split_ifs at hs
          obtain ⟨-, rfl⟩ := by simpa using hs
          rfl
        · split at hs
          · obtain ⟨-, rfl⟩ := by simpa using hs
            rfl
          · split at hs <;> obtain ⟨-, rfl⟩ := by simpa using hs
            · cases hdis
            · cases hdis
            · rfl
      · split_ifs at hs <;> obtain ⟨-, rfl⟩ := by simpa using hs
        all_goals cases hdis

/-- A feed that the open line fits leaves the rewriter within the bound. -/
theorem Settled.feed {p : Profile} {rw rw' : Rewriter} {f : Feed} (hs : rw.Settled)
    (hsize : f.data.length ≤ maxFeed) (hf : rw.LineFits f) (h : rw.feed p f = some rw') :
    rw'.Settled := by
  obtain ⟨side, data⟩ := f
  cases side with
  | request =>
    obtain rfl := Option.some.inj h
    obtain ⟨hact, -, hresp, hbuf⟩ := feedRequest_frame rw data
    have hheld : (rw.feedRequest data).2.retained .response = rw.retained .response := by
      simp only [retained, hresp, hbuf]
    refine ⟨hact.trans hs.active, feedRequest_reqBuf rw data, fun hd => ?_, ?_, ?_⟩
    · rw [hheld]
      refine hs.response ?_
      cases hdis : rw.disabled with
      | false => rfl
      | true => simp [feedRequest, hdis] at hd
    · rw [hheld]
      exact hs.bounded
    · rw [hresp]
      exact hs.scanning
  | response =>
    obtain ⟨⟨emits, rw₁⟩, hrun, rfl⟩ := Option.map_eq_some_iff.mp h
    have hrun : rw.feedResponse p data = .ok (emits, rw₁) := by
      cases hfeed : rw.feedResponse p data with
      | error e =>
        rw [hfeed] at hrun
        cases hrun
      | ok r =>
        rw [hfeed] at hrun
        rw [Option.some.inj hrun]
    cases hd : rw.disabled with
    | true =>
      rw [feedResponse_disabled p hd] at hrun
      obtain ⟨-, rfl⟩ := Prod.mk.inj (Except.ok.inj hrun)
      refine ⟨hs.active, hs.request, fun h => by simp [hd] at h, ?_, hs.scanning⟩
      have hb := hs.bounded
      unfold Held.Bounded Held.size at hb ⊢
      simp only [retained] at hb ⊢
      rw [List.length_nil]
      omega
    | false =>
      rw [feedResponse_running p hs.active hd] at hrun
      have hresp := hs.response hd
      have hfit : Fit { rw with respBuf := rw.respBuf ++ data } :=
        ⟨hresp.length_feed hsize, hresp.ready (hf.resolve_left (by simp [hd]))⟩
      have hpark := driveResponse_parks hfit hd hrun
      have hframe :=
        @driveResponse_frame p { rw with respBuf := rw.respBuf ++ data } rw₁ emits hd hrun
      exact ⟨hframe.1.trans hs.active, hframe.2 ▸ hs.request, hpark.response, hpark.bounded,
        hpark.scanning⟩

theorem Settled.all_bounded {rw : Rewriter} (hs : rw.Settled) (side : Side) :
    (rw.retained side).Bounded := by
  cases side with
  | request => exact hs.request.trans (Nat.le_add_right _ _)
  | response => exact hs.bounded

theorem feed_disabled {p : Profile} {rw rw' : Rewriter} {f : Feed} (hd : rw.disabled = true)
    (h : rw.feed p f = some rw') : rw'.disabled = true := by
  obtain ⟨side, data⟩ := f
  cases side with
  | request =>
    obtain rfl := Option.some.inj h
    simp [feedRequest, hd]
  | response =>
    rw [feed, feedResponse_disabled p hd] at h
    obtain rfl := Option.some.inj h
    exact hd

/-- A head that is too long disables the rewriter. -/
theorem feed_overlong {p : Profile} {rw rw' : Rewriter} {f : Feed} (hs : rw.Settled)
    (hhead : (rw.retained f.side).inHead = true)
    (he : findHeaderEnd ((rw.retained f.side).buf ++ f.data) = none)
    (hlt : maxHeaderBytes < ((rw.retained f.side).buf ++ f.data).length)
    (h : rw.feed p f = some rw') : rw'.disabled = true := by
  by_cases hdis : rw.disabled = true
  · exact feed_disabled hdis h
  · have hd : rw.disabled = false := by simpa using hdis
    obtain ⟨side, data⟩ := f
    cases side with
    | request =>
      have hreq : rw.req = .head := by simpa [retained] using hhead
      have hnone : findHeaderEnd (rw.reqBuf ++ data) = none := he
      have hlong : maxHeaderBytes < (rw.reqBuf ++ data).length := hlt
      have hstep : stepRequest { rw with reqBuf := rw.reqBuf ++ data } =
          some (rw.reqBuf ++ data, { rw with disabled := true, reqBuf := [] }) := by
        simp only [stepRequest, hd, hreq, hnone, if_pos hlong]
        simp
      obtain rfl := Option.some.inj h
      rw [feedRequest_running hs.active hd, run_disabled hstep rfl]
    | response =>
      have hresp : rw.resp = .head := by simpa [retained] using hhead
      have hnone : findHeaderEnd (rw.respBuf ++ data) = none := he
      have hlong : maxHeaderBytes < (rw.respBuf ++ data).length := hlt
      have hstep : stepResponse p { rw with respBuf := rw.respBuf ++ data } =
          .ok (disableFlushResp { rw with resp := .head, respBuf := rw.respBuf ++ data } []) := by
        simp only [stepResponse, hresp, stepResponseHead, hnone, if_pos hlong]
      rw [feed, feedResponse_running p hs.active hd, driveResponse_of_step hstep] at h
      obtain rfl := Option.some.inj h
      rfl

theorem pullBody_open {kind : BodyKind} {data : Bytes} (hline : kind.line ≠ []) (hne : data ≠ [])
    (hlf : LF ∉ data) (hcap : data.length ≤ maxHeaderBytes) :
    (pullBody kind data).step = .needMore ∧ (pullBody kind data).rest = [] ∧
      (pullBody kind data).body.line = kind.line ++ data := by
  cases kind with
  | length | close => exact absurd rfl hline
  | chunked reader => exact consume_unended hline hne hlf hcap

/-- Bytes that only go onto a line of chunked coding are no body bytes. -/
theorem pullBody_open_bytes {kind : BodyKind} {data : Bytes} (hline : kind.line ≠ [])
    (hne : data ≠ []) (hlf : LF ∉ data) (hcap : data.length ≤ maxHeaderBytes) :
    (pullBody kind data).bytes = [] := by
  cases kind with
  | length | close => exact absurd rfl hline
  | chunked reader =>
    have hdec := consume_unended_decoded hline hne hlf hcap
    simp only [pullBody]
    rw [hdec]
    rfl

theorem feed_open {p : Profile} {rw : Rewriter} {data : Bytes} (hs : rw.Settled)
    (hd : rw.disabled = false) (hline : respLine rw.resp ≠ []) (hne : data ≠ [])
    (hlf : LF ∉ data) (hcap : data.length ≤ maxHeaderBytes) :
    ∃ rw', rw.feed p ⟨.response, data⟩ = some rw' ∧ rw'.disabled = false ∧ rw'.respBuf = [] ∧
      respLine rw'.resp = respLine rw.resp ++ data := by
  have hnil : rw.respBuf = [] := (hs.response hd).line hline
  suffices ∃ it, stepResponse p { rw with respBuf := data } = .ok it ∧ it.go = false ∧
      it.rw.disabled = false ∧ it.rw.respBuf = [] ∧
      respLine it.rw.resp = respLine rw.resp ++ data by
    obtain ⟨it, hit, hgo, hrest⟩ := this
    refine ⟨it.rw, ?_, hrest⟩
    rw [feed, feedResponse_running p hs.active hd, hnil, List.nil_append,
      driveResponse_of_step hit, hgo]
    rfl
  cases hr : rw.resp with
  | head => exact absurd (by rw [hr]; rfl) hline
  | buffer bs =>
    have hkind : bs.body.line ≠ [] := by simpa [hr, respLine] using hline
    obtain ⟨hstep, hrest, hgrown⟩ := pullBody_open hkind hne hlf hcap
    have hbytes := pullBody_open_bytes hkind hne hlf hcap
    have hdec := hs.scanning bs hr
    have hmore : (Step.needMore == Step.done) = false := rfl
    refine ⟨{ rw := { rw with
      respBuf := [], resp := .buffer { bs with body := (pullBody bs.body data).body } }
              go := false }, ?_, rfl, hd, rfl, hgrown⟩
    simp only [stepResponse, stepResponseBuffer, hstep, hbytes, hrest, List.append_nil, hmore,
      Bool.or_false, hdec, reduceCtorEq, if_false]
  | stream kind =>
    have hkind : kind.line ≠ [] := by simpa [hr, respLine] using hline
    obtain ⟨hstep, hrest, hgrown⟩ := pullBody_open hkind hne hlf hcap
    refine ⟨_, rfl, ?_⟩
    simp only [stepResponseStream, hstep, hrest]
    exact ⟨trivial, hd, trivial, hgrown⟩
  | pass kind =>
    have hkind : kind.line ≠ [] := by simpa [hr, respLine] using hline
    obtain ⟨hstep, hrest, hgrown⟩ := pullBody_open hkind hne hlf hcap
    refine ⟨_, rfl, ?_⟩
    simp only [stepResponsePass, hstep, hrest]
    exact ⟨trivial, hd, trivial, hgrown⟩

theorem kept_iff {p : Profile} {rw rw' : Rewriter} {f : Feed} (hs : rw.Settled)
    (hsize : f.data.length ≤ maxFeed) (h : rw.feed p f = some rw') :
    rw.Kept p f ↔ rw.LineFits f := by
  constructor
  · intro hkept
    by_contra hf
    obtain ⟨hdis, hfit⟩ := not_or.mp hf
    obtain ⟨hlf, hlt⟩ := not_or.mp hfit
    have hd : rw.disabled = false := by simpa using hdis
    obtain ⟨side, data⟩ := f
    cases side with
    | request =>
      have hle : ([] : Bytes).length + data.length ≤ maxHeaderBytes + maxFeed := by
        have hsize : data.length ≤ maxFeed := hsize
        rw [List.length_nil]
        omega
      exact hlt hle
    | response =>
      have hline : respLine rw.resp ≠ [] := by
        intro hnil
        simp only [retained, hnil, List.length_nil] at hlt hsize
        omega
      have hne : data ≠ [] := by
        intro hnil
        have hb : (rw.retained .response).size ≤ maxHeaderBytes + maxFeed := hs.bounded
        rw [Held.size] at hb
        simp only [hnil, List.length_nil] at hlt
        omega
      have hcap : data.length ≤ maxHeaderBytes := hsize.trans (by decide)
      obtain ⟨rw₁, hfeed, -, hbuf, hgrown⟩ := @feed_open p rw data hs hd hline hne hlf hcap
      have hb : (rw₁.retained .response).size ≤ maxHeaderBytes + maxFeed :=
        (hkept rw₁ hfeed).1 .response
      simp only [Held.size, retained, hbuf, hgrown, List.length_append, List.length_nil] at hb hlt
      omega
  · intro hf rw₁ h₁
    have hs₁ := hs.feed hsize hf h₁
    refine ⟨hs₁.all_bounded, fun hover => ?_⟩
    unfold Held.Overlong at hover
    split_ifs at hover with hhead
    · exact feed_overlong hs hhead hover.1 hover.2 h₁
    · rcases hf with hdis | hfit
      · exact feed_disabled hdis h₁
      · exact absurd hfit (not_or.mpr ⟨hover.2.1, Nat.not_le.mpr hover.2.2⟩)

theorem each_kept_iff (p : Profile) (blob : Bytes) (fs : List Feed) :
    (feeds p blob).EachStep (Kept p) { active := true, blob } fs ↔
      (feeds p blob).EachStep LineFits { active := true, blob } fs := by
  have hsize : ∀ {rw rw' : Rewriter} {f : Feed}, (feeds p blob).step rw f = some rw' →
      f.data.length ≤ maxFeed ∧ rw.feed p f = some rw' := by
    intro rw rw' f h
    simp only [feeds] at h
    split_ifs at h with hle
    exact ⟨hle, h⟩
  refine Automaton.eachStep_congr_of (I := Settled) ?_ ?_ (settled_fresh blob) fs
  · intro rw f rw' hs hk h
    obtain ⟨hle, hfeed⟩ := hsize h
    exact hs.feed hle ((kept_iff hs hle hfeed).mp hk) hfeed
  · intro rw f rw' hs h
    obtain ⟨hle, hfeed⟩ := hsize h
    exact kept_iff hs hle hfeed

end Rewriter

end Adwarden.Tls
