import Adwarden.Tls.Retention

/-! How much the HTTP capture holds back over a run of feeds. -/
namespace Adwarden.Tls
open Adwarden.Lib

inductive Side where
  | request
  | response
deriving DecidableEq

def Side.other : Side → Side
  | .request => .response
  | .response => .request

/-- Plaintext of one direction, as one call passes it on. -/
structure Feed where
  side : Side
  data : Bytes

theorem BodyReader.consume_waits {r : BodyReader} {buf : Bytes}
    (h : (r.consume buf).step = .needMore) :
    Held.Waits { buf, line := r.framing.line }
      { buf := (r.consume buf).rest, line := (r.consume buf).reader.framing.line } := by
  obtain ⟨framing, capture⟩ := r
  cases framing with
  | length remaining =>
    by_cases h0 : remaining = 0
    · simp [BodyReader.consume, h0] at h
    · have hlt : buf.length < remaining := by
        by_contra hle
        have hmin : min remaining buf.length = remaining := by omega
        simp [BodyReader.consume, h0, hmin] at h
      have hmin : min remaining buf.length = buf.length := by omega
      have hrest : (BodyReader.consume ⟨.length remaining, capture⟩ buf).rest = [] := by
        simp [BodyReader.consume, h0, hmin]
      have hline : (BodyReader.consume ⟨.length remaining, capture⟩ buf).reader.framing.line =
          [] := by
        simp [BodyReader.consume, h0, Framing.line]
      rw [hrest, hline]
      exact ⟨.empty false, Or.inl (Nat.zero_le _)⟩
  | untilClose => exact ⟨.empty false, Or.inl (Nat.zero_le _)⟩
  | chunked reader => exact Tls.consume_waits h

/-- A body that is about to be read has no line open. -/
theorem requestFraming_line {headers : Headers} {framing : Framing}
    (h : requestFraming headers = some framing) : framing.line = [] := by
  unfold requestFraming at h
  split_ifs at h
  · obtain rfl := Option.some.inj h
    rfl
  · split at h
    · obtain rfl := Option.some.inj h
      rfl
    · cases h

theorem responseFraming_line {status : ℕ} {isHead : Bool} {headers : Headers} {framing : Framing}
    (h : responseFraming status isHead headers = some framing) : framing.line = [] := by
  unfold responseFraming at h
  split_ifs at h
  · obtain rfl := Option.some.inj h
    rfl
  · split at h
    · cases h
    · obtain rfl := Option.some.inj h
      rfl
    · obtain rfl := Option.some.inj h
      rfl

namespace HttpTap

/-- The partial line of a body that is being read. -/
def partialLine {α : Type} (msg : Option (α × BodyReader)) : Bytes :=
  (msg.map fun m => m.2.framing.line).getD []

def retained (t : HttpTap) : Side → Held
  | .request =>
    { buf := t.reqBuf, line := partialLine t.reqPartial, inHead := t.reqPartial.isNone }
  | .response =>
    { buf := t.respBuf, line := partialLine t.respPartial, inHead := t.respPartial.isNone }

def feed (t : HttpTap) (f : Feed) : HttpTap :=
  match f.side with
  | .request => t.feedRequest f.data
  | .response => t.feedResponse f.data

/-- The runs of a capture that is fed at most `maxFeed` bytes at a time. -/
def feeds : Automaton HttpTap Feed where
  init := new
  step t f := if f.data.length ≤ maxFeed then some (t.feed f) else none

/-- A feed leaves no more than the bound in either direction, and what is too long for it disables
the capture. -/
def Kept (t : HttpTap) (f : Feed) : Prop :=
  (∀ side, ((t.feed f).retained side).Bounded) ∧
    ((t.retained f.side).Overlong f.data → (t.feed f).disabled = true)

def LineFits (t : HttpTap) (f : Feed) : Prop := (t.retained f.side).LineFits f.data

/-- Nothing is held and no message is open. -/
def Cleared (t : HttpTap) : Prop := ∀ side, t.retained side = { buf := [], inHead := true }

theorem cleared_disable (t : HttpTap) : t.disable.Cleared := by
  intro side
  cases side <;> rfl

/-- What a turn of either loop does to what is held. -/
inductive HeldTurn (side : Side) (t : HttpTap) : Turn HttpTap → Prop
  | gaveUp {t' : HttpTap} (hc : t'.Cleared) (hd : t'.disabled = true) : HeldTurn side t (.leave t')
  | waits {t' : HttpTap} (hd : t'.disabled = t.disabled)
      (hw : Held.Waits (t.retained side) (t'.retained side))
      (hother : t'.retained side.other = t.retained side.other) : HeldTurn side t (.leave t')
  | goesOn {t' : HttpTap} (hline : (t'.retained side).line = [])
      (hbuf : (t'.retained side).buf.length ≤ (t.retained side).buf.length)
      (hd : t'.disabled = t.disabled) (hother : t'.retained side.other = t.retained side.other) :
      HeldTurn side t (.goOn t')
  | unpaired {t' : HttpTap} (hc : t'.Cleared) (hd : t'.disabled = true) :
      HeldTurn side t (.goOn t')

theorem takeHead_needMore {buf : Bytes} (h : takeHead buf = .needMore) :
    buf.length ≤ maxHeaderBytes := by
  unfold takeHead at h
  split at h
  · split_ifs at h with hlt
    omega
  · split at h <;> simp at h

theorem requestTurn_held (t : HttpTap) : HeldTurn .request t t.requestTurn := by
  unfold requestTurn
  split
  · next hp =>
    split
    · next ht =>
      refine .waits rfl (Held.Waits.head ?_ (takeHead_needMore ht)) rfl
      simp [retained, hp, partialLine]
    · exact .gaveUp t.cleared_disable rfl
    · next hd rest ht =>
      have hle := (takeHead_rest ht).le
      split
      · exact .gaveUp t.cleared_disable rfl
      · dsimp only
        split
        · next framing hf =>
          exact .goesOn (requestFraming_line hf) hle rfl rfl
        · exact .goesOn (by simp [retained, hp, partialLine, pushPending]) hle rfl rfl
  · next request body hp =>
    dsimp only
    have hheld : t.retained .request = { buf := t.reqBuf, line := body.framing.line } := by
      simp [retained, hp, partialLine]
    split
    · next hs =>
      refine .waits rfl ?_ rfl
      rw [hheld]
      exact body.consume_waits hs
    · exact .gaveUp t.cleared_disable rfl
    · exact .goesOn rfl (consume_rest_le _ _) rfl rfl

/-- A response that is complete is paired, or ends the capture. -/
theorem completeResponse_held (t : HttpTap) (response : HttpResponse) :
    ((t.completeResponse response).Cleared ∧ (t.completeResponse response).disabled = true) ∨
      ((∀ side, (t.completeResponse response).retained side = t.retained side) ∧
        (t.completeResponse response).disabled = t.disabled) := by
  unfold completeResponse
  split
  · exact Or.inl ⟨t.cleared_disable, rfl⟩
  · right
    refine ⟨fun side => ?_, rfl⟩
    cases side <;> rfl

theorem responseTurn_held (t : HttpTap) : HeldTurn .response t t.responseTurn := by
  unfold responseTurn
  split
  · next hp =>
    split
    · next ht =>
      refine .waits rfl (Held.Waits.head ?_ (takeHead_needMore ht)) rfl
      simp [retained, hp, partialLine]
    · exact .gaveUp t.cleared_disable rfl
    · next hd rest ht =>
      have hle := (takeHead_rest ht).le
      have hnone : partialLine t.respPartial = [] := by simp [hp, partialLine]
      split
      · exact .gaveUp t.cleared_disable rfl
      · next httpVersion status statusText hs =>
        dsimp only
        by_cases hinterim : 100 ≤ status ∧ status ≤ 199 ∧ status ≠ 101
        · rw [if_pos hinterim]
          exact .goesOn hnone hle rfl rfl
        · rw [if_neg hinterim]
          split
          · split_ifs
            · exact .gaveUp (cleared_disable _) rfl
            · rcases completeResponse_held { t with respBuf := rest } _ with ⟨hc, hdis⟩ | ⟨hh, hdis⟩
              · exact .unpaired hc hdis
              · exact .goesOn ((congrArg Held.line (hh .response)).trans hnone)
                  ((congrArg (fun h => h.buf.length) (hh .response)).le.trans hle) hdis
                  (hh .request)
          · next hf => exact .goesOn (responseFraming_line hf) hle rfl rfl
  · next response body hp =>
    dsimp only
    have hheld : t.retained .response = { buf := t.respBuf, line := body.framing.line } := by
      simp [retained, hp, partialLine]
    split
    · next hs =>
      refine .waits rfl ?_ rfl
      rw [hheld]
      exact body.consume_waits hs
    · exact .gaveUp t.cleared_disable rfl
    · have hle := consume_rest_le body t.respBuf
      rcases completeResponse_held
          { t with respBuf := (body.consume t.respBuf).rest, respPartial := none } _ with
        ⟨hc, hdis⟩ | ⟨hh, hdis⟩
      · exact .unpaired hc hdis
      · exact .goesOn (congrArg Held.line (hh .response))
          ((congrArg (fun h => h.buf.length) (hh .response)).le.trans hle) hdis (hh .request)

/-- What a loop leaves behind: a disabled capture that holds nothing, or one that keeps within the
bound and has not touched the other direction. -/
def Parked (side : Side) (t t' : HttpTap) : Prop :=
  (t'.Cleared ∧ t'.disabled = true) ∨
    ((t'.retained side).Settled ∧ (t'.retained side).Bounded ∧ t'.disabled = t.disabled ∧
      t'.retained side.other = t.retained side.other)

/-- The bound carries over from turn to turn, as only the first turn finds a line open. -/
theorem HeldTurn.run {side : Side} {L : Loop HttpTap} (hturn : ∀ t, HeldTurn side t (L.body t))
    (hidle : ∀ t : HttpTap, t.Cleared → L.body t = .leave t) (t : HttpTap)
    (hready : (t.retained side).Ready)
    (hbuf : (t.retained side).buf.length ≤ maxHeaderBytes + maxFeed) : Parked side t (L.run t) := by
  refine L.run_induction (P := fun t t' => (t.retained side).Ready →
    (t.retained side).buf.length ≤ maxHeaderBytes + maxFeed → Parked side t t') t ?_ ?_ hready hbuf
  · intro t t' hleave hready _
    have hcase := hturn t
    rw [hleave] at hcase
    cases hcase with
    | gaveUp hc hd => exact Or.inl ⟨hc, hd⟩
    | waits hd hw hother => exact Or.inr ⟨hw.settled, hw.bounded hready, hd, hother⟩
  · intro t t' hgo ih _ hbuf
    have hcase := hturn t
    rw [hgo] at hcase
    cases hcase with
    | goesOn hline hle hd hother =>
      rcases ih (Or.inl hline) (hle.trans hbuf) with hc | ⟨hs, hb, hd', hother'⟩
      · exact Or.inl hc
      · exact Or.inr ⟨hs, hb, hd'.trans hd, hother'.trans hother⟩
    | unpaired hc hd =>
      rw [L.run_leave (hidle t' hc)]
      exact Or.inl ⟨hc, hd⟩

theorem turn_idle {t : HttpTap} (h : t.Cleared) :
    t.requestTurn = .leave t ∧ t.responseTurn = .leave t := by
  have hreq := h .request
  have hresp := h .response
  simp only [retained, Held.mk.injEq, Option.isNone_iff_eq_none] at hreq hresp
  have hnil : takeHead [] = .needMore := by decide
  constructor
  · simp only [requestTurn, hreq.1, hreq.2.2, hnil]
  · simp only [responseTurn, hresp.1, hresp.2.2, hnil]

/-- What holds of a capture between two feeds. -/
structure Settled (t : HttpTap) : Prop where
  held : ∀ side, (t.retained side).Settled
  bounded : ∀ side, (t.retained side).Bounded
  disabled : t.disabled = true → t.Cleared

theorem settled_new : new.Settled where
  held side := by cases side <;> exact .empty true
  bounded side := by cases side <;> exact .empty true
  disabled h := by cases h

theorem Cleared.settled {t : HttpTap} (h : t.Cleared) : t.Settled where
  held side := h side ▸ .empty true
  bounded side := h side ▸ .empty true
  disabled _ := h

theorem Parked.settled {side : Side} {t t' : HttpTap} (h : Parked side t t')
    (hother : (t.retained side.other).Settled ∧ (t.retained side.other).Bounded)
    (hd : t.disabled = false) : t'.Settled := by
  rcases h with ⟨hc, -⟩ | ⟨hs, hb, hdis, ho⟩
  · exact hc.settled
  · have hall : ∀ s, (t'.retained s).Settled ∧ (t'.retained s).Bounded := by
      intro s
      by_cases hside : s = side
      · rw [hside]
        exact ⟨hs, hb⟩
      · have hs : s = side.other := by cases s <;> cases side <;> simp_all [Side.other]
        rw [hs, ho]
        exact hother
    refine ⟨fun s => (hall s).1, fun s => (hall s).2, fun h => ?_⟩
    rw [hdis, hd] at h
    cases h

theorem feed_idle {t : HttpTap} {f : Feed} (h : t.disabled = true ∨ f.data = []) :
    t.feed f = t := by
  unfold feed feedRequest feedResponse
  cases f.side <;> exact if_pos h

/-- A feed that the open line fits leaves the capture within the bound. -/
theorem Settled.feed {t : HttpTap} {f : Feed} (hs : t.Settled) (hsize : f.data.length ≤ maxFeed)
    (hf : t.LineFits f) : (t.feed f).Settled := by
  by_cases hidle : t.disabled = true ∨ f.data = []
  · rw [feed_idle hidle]
    exact hs
  · have hd : t.disabled = false := by
      rw [not_or, Bool.not_eq_true] at hidle
      exact hidle.1
    have hready := (hs.held f.side).ready hf
    have hbuf := (hs.held f.side).length_feed hsize
    have hother := And.intro (hs.held f.side.other) (hs.bounded f.side.other)
    obtain ⟨side, data⟩ := f
    cases side with
    | request =>
      have hrun := HeldTurn.run (L := requestLoop) requestTurn_held (fun _ h => (turn_idle h).1)
        { t with reqBuf := t.reqBuf ++ data } hready hbuf
      rw [HttpTap.feed, feedRequest, if_neg hidle]
      exact hrun.settled hother hd
    | response =>
      have hrun := HeldTurn.run (L := responseLoop) responseTurn_held (fun _ h => (turn_idle h).2)
        { t with respBuf := t.respBuf ++ data } hready hbuf
      rw [HttpTap.feed, feedResponse, if_neg hidle]
      exact hrun.settled hother hd

theorem takeHead_overlong {buf : Bytes} (he : findHeaderEnd buf = none)
    (hlt : maxHeaderBytes < buf.length) : takeHead buf = .error := by
  rw [takeHead, he]
  exact if_pos hlt

/-- A head that is too long disables the capture. -/
theorem feed_overlong {t : HttpTap} {f : Feed} (hs : t.Settled)
    (hhead : (t.retained f.side).inHead = true)
    (he : findHeaderEnd ((t.retained f.side).buf ++ f.data) = none)
    (hlt : maxHeaderBytes < ((t.retained f.side).buf ++ f.data).length) :
    (t.feed f).disabled = true := by
  by_cases hidle : t.disabled = true ∨ f.data = []
  · rw [feed_idle hidle]
    refine hidle.resolve_right fun hnil => ?_
    have := (hs.held f.side).buf
    rw [hnil, List.append_nil] at hlt
    omega
  · obtain ⟨side, data⟩ := f
    cases side with
    | request =>
      have hnone : t.reqPartial = none := by simpa [retained] using hhead
      have herr : takeHead (t.reqBuf ++ data) = .error := takeHead_overlong he hlt
      have hturn : requestLoop.body { t with reqBuf := t.reqBuf ++ data } =
          .leave (disable { t with reqBuf := t.reqBuf ++ data }) := by
        simp only [requestLoop, requestTurn, hnone, herr]
      rw [feed, feedRequest, if_neg hidle, drainRequests, requestLoop.run_leave hturn]
      rfl
    | response =>
      have hnone : t.respPartial = none := by simpa [retained] using hhead
      have herr : takeHead (t.respBuf ++ data) = .error := takeHead_overlong he hlt
      have hturn : responseLoop.body { t with respBuf := t.respBuf ++ data } =
          .leave (disable { t with respBuf := t.respBuf ++ data }) := by
        simp only [responseLoop, responseTurn, hnone, herr]
      rw [feed, feedResponse, if_neg hidle, drainResponses, responseLoop.run_leave hturn]
      rfl

/-- A body with a line open takes a piece that does not end it onto that line. -/
theorem consume_open {body : BodyReader} {data : Bytes} (hline : body.framing.line ≠ [])
    (hne : data ≠ []) (hlf : LF ∉ data) (hcap : data.length ≤ maxHeaderBytes) :
    (body.consume data).step = .needMore ∧ (body.consume data).rest = [] ∧
      (body.consume data).reader.framing.line = body.framing.line ++ data := by
  obtain ⟨framing, capture⟩ := body
  cases framing with
  | length | untilClose => exact absurd rfl hline
  | chunked reader => exact consume_unended hline hne hlf hcap

theorem feed_open {t : HttpTap} {f : Feed} (hs : t.Settled) (hd : t.disabled = false)
    (hline : (t.retained f.side).line ≠ []) (hne : f.data ≠ []) (hlf : LF ∉ f.data)
    (hcap : f.data.length ≤ maxHeaderBytes) :
    (t.feed f).disabled = false ∧ ((t.feed f).retained f.side).buf = [] ∧
      ((t.feed f).retained f.side).line = (t.retained f.side).line ++ f.data := by
  have hidle : ¬ (t.disabled = true ∨ f.data = []) := by simp [hd, hne]
  have hnil := (hs.held f.side).line hline
  obtain ⟨side, data⟩ := f
  cases side with
  | request =>
    cases hp : t.reqPartial with
    | none => simp [retained, hp, partialLine] at hline
    | some m =>
      obtain ⟨request, body⟩ := m
      have hbody : body.framing.line ≠ [] := by simpa [retained, hp, partialLine] using hline
      have hbuf : t.reqBuf = [] := hnil
      obtain ⟨hstep, hrest, hgrown⟩ := consume_open hbody hne hlf hcap
      have hturn : requestLoop.body { t with reqBuf := t.reqBuf ++ data } =
          .leave { t with
            reqBuf := [], reqPartial := some (request, (body.consume data).reader) } := by
        simp only [requestLoop, requestTurn, hp, hbuf, List.nil_append, hstep, hrest]
      rw [feed, feedRequest, if_neg hidle, drainRequests, requestLoop.run_leave hturn]
      exact ⟨hd, rfl, by simpa [retained, hp, partialLine] using hgrown⟩
  | response =>
    cases hp : t.respPartial with
    | none => simp [retained, hp, partialLine] at hline
    | some m =>
      obtain ⟨response, body⟩ := m
      have hbody : body.framing.line ≠ [] := by simpa [retained, hp, partialLine] using hline
      have hbuf : t.respBuf = [] := hnil
      obtain ⟨hstep, hrest, hgrown⟩ := consume_open hbody hne hlf hcap
      have hturn : responseLoop.body { t with respBuf := t.respBuf ++ data } =
          .leave { t with
            respBuf := [], respPartial := some (response, (body.consume data).reader) } := by
        simp only [responseLoop, responseTurn, hp, hbuf, List.nil_append, hstep, hrest]
      rw [feed, feedResponse, if_neg hidle, drainResponses, responseLoop.run_leave hturn]
      exact ⟨hd, rfl, by simpa [retained, hp, partialLine] using hgrown⟩

theorem kept_iff {t : HttpTap} {f : Feed} (hs : t.Settled) (hsize : f.data.length ≤ maxFeed) :
    t.Kept f ↔ t.LineFits f := by
  constructor
  · rintro ⟨hkept, -⟩
    by_contra hf
    obtain ⟨hlf, hlt⟩ := not_or.mp hf
    have hline : (t.retained f.side).line ≠ [] := by
      intro hnil
      rw [hnil, List.length_nil] at hlt
      omega
    have hd : t.disabled = false := by
      by_contra hdis
      exact hline (congrArg Held.line (hs.disabled (by simpa using hdis) f.side))
    have hne : f.data ≠ [] := by
      intro hnil
      have hb : (t.retained f.side).size ≤ maxHeaderBytes + maxFeed := hs.bounded f.side
      rw [Held.size] at hb
      rw [hnil, List.length_nil] at hlt
      omega
    have hcap : f.data.length ≤ maxHeaderBytes := hsize.trans (by decide)
    obtain ⟨-, hbuf, hgrown⟩ := feed_open hs hd hline hne hlf hcap
    have hb : ((t.feed f).retained f.side).size ≤ maxHeaderBytes + maxFeed := hkept f.side
    rw [Held.size, hbuf, hgrown, List.length_append, List.length_nil] at hb
    omega
  · intro hf
    refine ⟨(hs.feed hsize hf).bounded, fun hover => ?_⟩
    unfold Held.Overlong at hover
    split_ifs at hover with hhead
    · exact feed_overlong hs hhead hover.1 hover.2
    · exact absurd hf (not_or.mpr ⟨hover.2.1, Nat.not_le.mpr hover.2.2⟩)

theorem each_kept_iff (fs : List Feed) :
    feeds.EachStep Kept new fs ↔ feeds.EachStep LineFits new fs := by
  have hsize : ∀ {t t' : HttpTap} {f : Feed}, feeds.step t f = some t' →
      f.data.length ≤ maxFeed ∧ t' = t.feed f := by
    intro t t' f h
    simp only [feeds] at h
    split_ifs at h with hle
    exact ⟨hle, (Option.some.inj h).symm⟩
  refine Automaton.eachStep_congr_of (I := Settled) ?_ ?_ settled_new fs
  · intro t f t' hs hk h
    obtain ⟨hle, rfl⟩ := hsize h
    exact hs.feed hle ((kept_iff hs hle).mp hk)
  · intro t f t' hs h
    exact kept_iff hs (hsize h).1

end HttpTap

end Adwarden.Tls
