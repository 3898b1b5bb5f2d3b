import Adwarden.Tls.HarLossless
import Adwarden.Tls.MitmHar

/-! The exports of the HAR buffer, over any history of what the splices captured. -/
namespace Adwarden.Tls
open Lib Lib.Json

/-- A body that was cut off has something in front of the cut. -/
def Capture.Marked (c : Capture) : Prop := c.truncated = true → c.captured ≠ []

theorem pushCapped_marked {c : Capture} (h : c.Marked) (data : Bytes) :
    (pushCapped c data).Marked := by
  intro ht hnil
  unfold pushCapped at ht hnil
  dsimp only at ht hnil
  split_ifs at ht hnil with hfits
  · exact h ht (List.append_eq_nil_iff.mp hnil).1
  · obtain ⟨hc, hd⟩ := List.append_eq_nil_iff.mp hnil
    rw [hc, List.length_nil, Nat.sub_zero] at hfits hd
    have hlen := congrArg List.length hd
    rw [List.length_take, List.length_nil] at hlen
    have hpos : 0 < maxBodyCapture := by decide
    omega

theorem BodyReader.consume_marked {r : BodyReader} (h : r.capture.Marked) (buf : Bytes) :
    (r.consume buf).reader.capture.Marked := by
  obtain ⟨framing, capture⟩ := r
  cases framing with
  | length remaining =>
    by_cases h0 : remaining = 0
    · simp only [BodyReader.consume, if_pos h0]
      exact h
    · simp only [BodyReader.consume, if_neg h0]
      exact pushCapped_marked h _
  | untilClose => exact pushCapped_marked h _
  | chunked reader => exact pushCapped_marked h _

def HttpRequest.Captured (r : HttpRequest) : Prop := r.bodyTruncated = true → r.body ≠ []

def HttpResponse.Captured (r : HttpResponse) : Prop := r.bodyTruncated = true → r.body ≠ []

def HttpTransaction.Captured (x : HttpTransaction) : Prop :=
  x.request.Captured ∧ x.response.Captured

namespace HttpTap

structure Marked (t : HttpTap) : Prop where
  request : ∀ p ∈ t.reqPartial, p.2.capture.Marked
  response : ∀ p ∈ t.respPartial, p.2.capture.Marked
  pending : ∀ p ∈ t.pending, p.request.Captured
  completed : ∀ x ∈ t.completed, x.Captured

theorem marked_start (sni : Option Str) : Marked { sni } where
  request _ h := by cases h
  response _ h := by cases h
  pending _ h := by cases h
  completed _ h := by cases h

variable {t : HttpTap}

theorem Marked.disable (h : t.Marked) : t.disable.Marked where
  request _ h := by cases h
  response _ h := by cases h
  pending := h.pending
  completed := h.completed

theorem Marked.pushPending (h : t.Marked) {r : HttpRequest} (hr : r.Captured) :
    (t.pushPending r).Marked where
  request := h.request
  response := h.response
  pending p hp := by
    rcases List.mem_append.mp hp with hp | hp
    · exact h.pending p hp
    · rw [List.mem_singleton.mp hp]
      exact hr
  completed := h.completed

theorem Marked.completeResponse (h : t.Marked) {r : HttpResponse} (hr : r.Captured) :
    (t.completeResponse r).Marked := by
  unfold HttpTap.completeResponse
  split
  · exact h.disable
  · next p pending hp =>
    constructor
    · exact h.request
    · exact h.response
    · intro q hq
      exact h.pending q (hp ▸ List.mem_cons_of_mem _ hq)
    · intro x hx
      rcases List.mem_append.mp hx with hx | hx
      · exact h.completed x hx
      · rw [List.mem_singleton.mp hx]
        exact ⟨h.pending p (hp ▸ List.mem_cons_self ..), hr⟩

private theorem withoutBody {P : Prop} : false = true → P := fun h => by cases h

theorem requestTurn_marked {t' : HttpTap} (h : t.Marked)
    (hturn : t.requestTurn = .goOn t' ∨ t.requestTurn = .leave t') : t'.Marked := by
  unfold requestTurn at hturn
  split at hturn
  · split at hturn
    · simp only [reduceCtorEq, Turn.leave.injEq, false_or] at hturn
      exact hturn ▸ h
    · simp only [reduceCtorEq, Turn.leave.injEq, false_or] at hturn
      exact hturn ▸ h.disable
    · split at hturn
      · simp only [reduceCtorEq, Turn.leave.injEq, false_or] at hturn
        exact hturn ▸ h.disable
      · dsimp only at hturn
        split at hturn
        · simp only [reduceCtorEq, Turn.goOn.injEq, or_false] at hturn
          subst hturn
          refine ⟨fun p hp => ?_, h.response, h.pending, h.completed⟩
          obtain rfl := Option.mem_some_iff.mp hp
          exact withoutBody
        · simp only [reduceCtorEq, Turn.goOn.injEq, or_false] at hturn
          subst hturn
          refine Marked.pushPending ?_ withoutBody
          exact ⟨h.request, h.response, h.pending, h.completed⟩
  · next request body hp =>
    have hbody := BodyReader.consume_marked (h.request _ hp) t.reqBuf
    dsimp only at hturn
    split at hturn
    · simp only [reduceCtorEq, Turn.leave.injEq, false_or] at hturn
      subst hturn
      refine ⟨fun p hp => ?_, h.response, h.pending, h.completed⟩
      obtain rfl := Option.mem_some_iff.mp hp
      exact hbody
    · simp only [reduceCtorEq, Turn.leave.injEq, false_or] at hturn
      exact hturn ▸ h.disable
    · simp only [reduceCtorEq, Turn.goOn.injEq, or_false] at hturn
      subst hturn
      refine Marked.pushPending ?_ hbody
      exact ⟨fun _ hp => (by cases hp), h.response, h.pending, h.completed⟩

theorem responseTurn_marked {t' : HttpTap} (h : t.Marked)
    (hturn : t.responseTurn = .goOn t' ∨ t.responseTurn = .leave t') : t'.Marked := by
  unfold responseTurn at hturn
  split at hturn
  · split at hturn
    · simp only [reduceCtorEq, Turn.leave.injEq, false_or] at hturn
      exact hturn ▸ h
    · simp only [reduceCtorEq, Turn.leave.injEq, false_or] at hturn
      exact hturn ▸ h.disable
    · next hd rest _ =>
      have hrest : Marked { t with respBuf := rest } :=
        ⟨h.request, h.response, h.pending, h.completed⟩
      split at hturn
      · simp only [reduceCtorEq, Turn.leave.injEq, false_or] at hturn
        exact hturn ▸ h.disable
      · dsimp only at hturn
        split at hturn
        · simp only [reduceCtorEq, Turn.goOn.injEq, or_false] at hturn
          exact hturn ▸ hrest
        · split at hturn
          · split at hturn
            · simp only [reduceCtorEq, Turn.leave.injEq, false_or] at hturn
              subst hturn
              refine (Marked.completeResponse hrest ?_).disable
              exact withoutBody
            · simp only [reduceCtorEq, Turn.goOn.injEq, or_false] at hturn
              subst hturn
              refine Marked.completeResponse hrest ?_
              exact withoutBody
          · simp only [reduceCtorEq, Turn.goOn.injEq, or_false] at hturn
            subst hturn
            refine ⟨h.request, fun p hp => ?_, h.pending, h.completed⟩
            obtain rfl := Option.mem_some_iff.mp hp
            exact withoutBody
  · next response body hp =>
    have hbody := BodyReader.consume_marked (h.response _ hp) t.respBuf
    dsimp only at hturn
    split at hturn
    · simp only [reduceCtorEq, Turn.leave.injEq, false_or] at hturn
      subst hturn
      refine ⟨h.request, fun p hp => ?_, h.pending, h.completed⟩
      obtain rfl := Option.mem_some_iff.mp hp
      exact hbody
    · simp only [reduceCtorEq, Turn.leave.injEq, false_or] at hturn
      exact hturn ▸ h.disable
    · simp only [reduceCtorEq, Turn.goOn.injEq, or_false] at hturn
      subst hturn
      refine Marked.completeResponse ?_ hbody
      exact ⟨h.request, fun _ hp => (by cases hp), h.pending, h.completed⟩

theorem Marked.feedRequest (h : t.Marked) (data : Bytes) : (t.feedRequest data).Marked := by
  unfold HttpTap.feedRequest
  split_ifs
  · exact h
  · exact requestLoop.run_keeps (fun _ _ hs hturn => requestTurn_marked hs hturn)
      ⟨h.request, h.response, h.pending, h.completed⟩

theorem Marked.feedResponse (h : t.Marked) (data : Bytes) : (t.feedResponse data).Marked := by
  unfold HttpTap.feedResponse
  split_ifs
  · exact h
  · exact responseLoop.run_keeps (fun _ _ hs hturn => responseTurn_marked hs hturn)
      ⟨h.request, h.response, h.pending, h.completed⟩

theorem Marked.finish (h : t.Marked) : t.finish.Marked := by
  unfold HttpTap.finish
  split_ifs
  · exact h
  · split
    · exact ⟨h.request, h.response, h.pending, h.completed⟩
    · next response body hp =>
      have hclosed : Marked { t with respPartial := none } :=
        ⟨h.request, fun _ hp => (by cases hp), h.pending, h.completed⟩
      dsimp only
      split
      · have hdone := hclosed.completeResponse (r := attachBodyResp response body)
          (h.response _ hp)
        exact ⟨hdone.request, hdone.response, hdone.pending, hdone.completed⟩
      · exact ⟨hclosed.request, hclosed.response, hclosed.pending, hclosed.completed⟩

theorem Marked.runOps (h : t.Marked) (ops : List Op) :
    (∀ x ∈ (t.runOps ops).1, x.Captured) ∧ (t.runOps ops).2.Marked := by
  induction ops generalizing t with
  | nil => exact ⟨fun x hx => (by cases hx), h⟩
  | cons op ops ih =>
    have hop : (∀ x ∈ (t.apply op).1, x.Captured) ∧ (t.apply op).2.Marked := by
      cases op with
      | request data => exact ⟨fun x hx => (by cases hx), h.feedRequest data⟩
      | response data => exact ⟨fun x hx => (by cases hx), h.feedResponse data⟩
      | take =>
        exact ⟨h.completed, ⟨h.request, h.response, h.pending, fun _ hx => (by cases hx)⟩⟩
    obtain ⟨hout, hrest⟩ := ih hop.2
    refine ⟨fun x hx => ?_, hrest⟩
    rcases List.mem_append.mp hx with hx | hx
    · exact hop.1 x hx
    · exact hout x hx

/-- The transactions that a capture gives out, while the connection lives or at its end. -/
def Yields (x : HttpTransaction) : Prop :=
  ∃ sni ops, x ∈ (runOps { sni } ops).1 ∨ x ∈ (runOps { sni } ops).2.finish.completed

theorem Yields.captured {x : HttpTransaction} (h : Yields x) : x.Captured := by
  obtain ⟨sni, ops, h⟩ := h
  obtain ⟨hout, hrest⟩ := (marked_start sni).runOps ops
  rcases h with h | h
  · exact hout x h
  · exact hrest.finish.completed x h

end HttpTap

/-- The transactions that a splice hands up are of this kind. -/
theorem Interception.transactions_yield {σ κ : Type} {H : Hpack} [ServerSession σ] [TlsSession κ]
    [LawfulServer σ] {w : Interception σ κ H} (p : Profile) (server : σ)
    (clientConfig : ClientConfig κ) {ops : List MitmOp}
    (hrun : (automaton p (.withPlaintext server clientConfig (.http {} : Plaintext H))).run ops =
      some w) : ∀ x ∈ w.transactions, HttpTap.Yields x := by
  obtain ⟨⟨-, t, -, calls, -, hcap⟩, -⟩ := recorded_run p server clientConfig hrun
  intro x hx
  obtain ⟨-, hcalls⟩ | ⟨-, -, hsum⟩ := hcap
  · refine ⟨w.mitm.host, calls, .inl ?_⟩
    rw [hcalls]
    exact hx
  · refine ⟨w.mitm.host, calls, List.mem_append.mp ?_⟩
    rw [← hsum]
    exact List.mem_append_left _ hx

/-- What an export records of a transaction: the target is part of the address. -/
structure Recorded where
  startedUnixMs : UInt64
  durationMs : UInt64
  url : Str
  request : HttpRequest
  response : HttpResponse

def TimedTransaction.recorded (t : TimedTransaction) : Recorded where
  startedUnixMs := t.startedUnixMs
  durationMs := t.durationMs
  url := (reqJson t.transaction).url
  request := { t.transaction.request with target := [] }
  response := t.transaction.response

private theorem comment_inj {a b : Bool} (h : truncatedComment a = truncatedComment b) : a = b :=
  truncatedComment_injective h

private theorem marked_nil {truncated : Bool} {body : Bytes} (h : truncated = true → body ≠ [])
    (hbody : body = []) : truncated = false := by
  by_contra ht
  exact h (by simpa using ht) hbody

theorem request_inj {x y : HttpTransaction} (hx : x.request.Captured) (hy : y.request.Captured)
    (h : reqJson x = reqJson y) :
    { x.request with target := [] } = { y.request with target := [] } := by
  obtain ⟨host, ⟨method, target, version, headers, body, size, hsize, cut⟩, response⟩ := x
  obtain ⟨host', ⟨method', target', version', headers', body', size', hsize', cut'⟩, response'⟩ := y
  simp only [reqJson, Har.ReqJson.mk.injEq, Nat.cast_inj, true_and] at h
  obtain ⟨rfl, -, rfl, hheaders, -, hpost, rfl, rfl⟩ := h
  obtain rfl := nameValues_injective hheaders
  have hboth : body = body' ∧ cut = cut' := by
    split_ifs at hpost with hb hb' hb'
    · simp only [Option.some.injEq, Har.PostData.mk.injEq, true_and] at hpost
      obtain ⟨htext, henc, hcut⟩ := hpost
      exact ⟨bodyText_injective (Prod.ext htext henc), comment_inj hcut⟩
    · simp only [not_or, not_not] at hb hb'
      have hbody := hb.2
      have hbody' := hb'.2
      exact ⟨hbody.trans hbody'.symm, (marked_nil hx hbody).trans (marked_nil hy hbody').symm⟩
  obtain ⟨rfl, rfl⟩ := hboth
  rfl

theorem response_inj {x y : HttpTransaction} (hx : x.response.Captured) (hy : y.response.Captured)
    (h : respJson x = respJson y) : x.response = y.response := by
  obtain ⟨host, request, ⟨status, text, version, headers, body, size, hsize, cut⟩⟩ := x
  obtain ⟨host', request', ⟨status', text', version', headers', body', size', hsize', cut'⟩⟩ := y
  simp only [respJson, Har.RespJson.mk.injEq, Nat.cast_inj, true_and] at h
  obtain ⟨rfl, rfl, rfl, hheaders, hcontent, -, rfl, rfl⟩ := h
  obtain rfl := nameValues_injective hheaders
  have hboth : body = body' ∧ cut = cut' := by
    unfold respContent at hcontent
    split_ifs at hcontent with hb hb' hb'
    · have hbody : body = [] := hb.1
      have hbody' : body' = [] := hb'.1
      exact ⟨hbody.trans hbody'.symm, (marked_nil hx hbody).trans (marked_nil hy hbody').symm⟩
    · simp only [Har.Content.mk.injEq, reduceCtorEq, false_and, and_false] at hcontent
    · simp only [Har.Content.mk.injEq, reduceCtorEq, false_and, and_false] at hcontent
    · simp only [Har.Content.mk.injEq, Option.some.injEq, true_and] at hcontent
      obtain ⟨htext, henc, hcut⟩ := hcontent
      exact ⟨bodyText_injective (Prod.ext htext henc), comment_inj hcut⟩
  obtain ⟨rfl, rfl⟩ := hboth
  rfl

theorem harEntry_inj {s t : TimedTransaction} (hs : s.transaction.Captured)
    (ht : t.transaction.Captured) (h : harEntry s = harEntry t) : s.recorded = t.recorded := by
  have hbound : ∀ x : UInt64, x.toNat < 2 ^ 64 := fun x => x.toNat_lt
  obtain ⟨_, -, hstamp⟩ := iso8601_text (hbound s.startedUnixMs)
  obtain ⟨_, -, hstamp'⟩ := iso8601_text (hbound t.startedUnixMs)
  simp only [harEntry, hstamp, hstamp', Option.bind_eq_bind, Option.bind_some, Option.some.injEq,
    Har.Entry.mk.injEq] at h
  obtain ⟨hstarted, htime, hrequest, hresponse, -⟩ := h
  rw [← Option.some.injEq, ← hstamp, ← hstamp'] at hstarted
  have hms := iso8601_injective (hbound _) (hbound _) hstarted
  simp only [TimedTransaction.recorded, Recorded.mk.injEq]
  refine ⟨UInt64.toNat_inj.mp hms, asI64_injective htime, ?_, request_inj hs.1 ht.1 hrequest,
    response_inj hs.2 ht.2 hresponse⟩
  rw [hrequest]

/-- The last entries of a history, as many as are kept. -/
def newest {α : Type} (cap : ℕ) (l : List α) : List α := l.drop (l.length - cap)

theorem newest_nil {α : Type} (cap : ℕ) : newest cap ([] : List α) = [] := List.drop_nil

theorem newest_snoc {α : Type} {cap : ℕ} (hpos : 0 < cap) (l : List α) (x : α) :
    (if cap ≤ (newest cap l).length then (newest cap l).tail else newest cap l) ++ [x] =
      newest cap (l ++ [x]) := by
  simp only [newest, List.length_drop, List.tail_drop, List.length_append, List.length_cons,
    List.length_nil]
  split_ifs with hfull
  · rw [List.drop_append_of_le_length (by omega)]
    congr 2
    omega
  · rw [List.drop_append_of_le_length (by omega)]
    congr 2
    omega

theorem drainTransactions_newest {α : Type} (l txns : List α) :
    drainTransactions (newest harMaxEntries l) txns = newest harMaxEntries (l ++ txns) := by
  induction txns generalizing l with
  | nil => rw [List.append_nil, drainTransactions, List.foldl_nil]
  | cons x txns ih =>
    have h := ih (l ++ [x])
    rw [drainTransactions] at h ⊢
    rw [List.foldl_cons, newest_snoc (by decide), h, List.append_assoc, List.singleton_append]

/-- Whatever was drained and when, the buffer holds the last of it. -/
theorem foldl_drainTransactions {α : Type} (batches : List (List α)) :
    batches.foldl drainTransactions [] = newest harMaxEntries batches.flatten := by
  have key : ∀ l, batches.foldl drainTransactions (newest harMaxEntries l) =
      newest harMaxEntries (l ++ batches.flatten) := by
    induction batches with
    | nil =>
      intro l
      rw [List.foldl_nil, List.flatten_nil, List.append_nil]
    | cons b batches ih =>
      intro l
      rw [List.foldl_cons, drainTransactions_newest, ih, List.flatten_cons, List.append_assoc]
  have hstart := key []
  rw [newest_nil, List.nil_append] at hstart
  exact hstart

theorem harEntry_some (t : TimedTransaction) : ∃ e, harEntry t = some e := by
  obtain ⟨_, -, hstamp⟩ := iso8601_text t.startedUnixMs.toNat_lt
  exact ⟨_, by rw [harEntry, hstamp]; rfl⟩

theorem mapM_harEntry (entries : List TimedTransaction) :
    ∃ es, entries.mapM harEntry = some es := by
  induction entries with
  | nil => exact ⟨[], rfl⟩
  | cons t entries ih =>
    obtain ⟨e, he⟩ := harEntry_some t
    obtain ⟨es, hes⟩ := ih
    exact ⟨e :: es, by rw [List.mapM_cons, he, hes]; rfl⟩

theorem mapM_harEntry_inj {a b : List TimedTransaction}
    (ha : ∀ t ∈ a, t.transaction.Captured) (hb : ∀ t ∈ b, t.transaction.Captured)
    (h : a.mapM harEntry = b.mapM harEntry) :
    a.map TimedTransaction.recorded = b.map TimedTransaction.recorded := by
  obtain ⟨es, hes⟩ := mapM_harEntry a
  have hes' := hes
  rw [h] at hes'
  clear h
  induction a generalizing b es with
  | nil =>
    obtain rfl : es = [] := by simpa using hes.symm
    cases b with
    | nil => rfl
    | cons t b =>
      obtain ⟨e, he⟩ := harEntry_some t
      obtain ⟨fs, hfs⟩ := mapM_harEntry b
      rw [List.mapM_cons, he, hfs] at hes'
      cases hes'
  | cons s a ih =>
    obtain ⟨e, he⟩ := harEntry_some s
    obtain ⟨fs, hfs⟩ := mapM_harEntry a
    rw [List.mapM_cons, he, hfs] at hes
    obtain rfl : e :: fs = es := Option.some.inj hes
    cases b with
    | nil => cases hes'
    | cons t b =>
      obtain ⟨e', he'⟩ := harEntry_some t
      obtain ⟨fs', hfs'⟩ := mapM_harEntry b
      rw [List.mapM_cons, he', hfs'] at hes'
      obtain ⟨rfl, rfl⟩ := List.cons.inj (Option.some.inj hes')
      rw [List.map_cons, List.map_cons,
        harEntry_inj (ha s (List.mem_cons_self ..)) (hb t (List.mem_cons_self ..))
          (he.trans he'.symm),
        ih (fun x hx => ha x (List.mem_cons_of_mem _ hx)) (fun x hx => hb x (List.mem_cons_of_mem _ hx))
          fs' hfs hfs']

/-- An export writes the last transactions of all that was drained before it, in that order. Its
text has one reading, and no buffer with other contents is written as the same text. -/
theorem export_har_exact (w : Writer) (batches : List (List TimedTransaction))
    (h : ∀ t ∈ batches.flatten, HttpTap.Yields t.transaction) :
    ∃ text, writeHar w (batches.foldl drainTransactions []) = some text ∧
      (∃! v, IsText v text) ∧
      ∀ other : List TimedTransaction, (∀ t ∈ other, HttpTap.Yields t.transaction) →
        writeHar w other = some text →
        other.map TimedTransaction.recorded =
          (newest harMaxEntries batches.flatten).map TimedTransaction.recorded := by
  rw [foldl_drainTransactions]
  obtain ⟨es, hes⟩ := mapM_harEntry (newest harMaxEntries batches.flatten)
  refine ⟨_, by rw [writeHar, hes]; rfl, ?_, ?_⟩
  · exact ⟨_, w.text _, fun v hv => hv.unique (w.text _)⟩
  · intro other hother hsame
    obtain ⟨fs, hfs⟩ := mapM_harEntry other
    rw [writeHar, hfs] at hsame
    have hdoc := w.write_injective (Option.some.inj hsame)
    simp only [Har.doc, Har.Log.doc, field, Doc.object.injEq, List.cons.injEq, Prod.mk.injEq,
      Doc.array.injEq, true_and, and_true] at hdoc
    have hentries : fs = es := List.map_injective_iff.mpr (fun _ _ => Har.Entry.doc_inj) hdoc
    apply mapM_harEntry_inj
    · exact fun t ht => (hother t ht).captured
    · exact fun t ht => (h t (List.mem_of_mem_drop ht)).captured
    · rw [hfs, hes, hentries]

private def driven : MitmOp := .drive (fun _ => false) fun _ => ([], [])

/-- A page of a host, with a body that is no text. -/
private def visited : List MitmOp :=
  [.fromApp (PlainSession.record 1 (ascii "a.b")), driven,
    .fromUpstream (PlainSession.record 20 []), .fromApp (PlainSession.record 20 []), driven,
    .fromApp (PlainSession.record 23 (ascii "GET / HTTP/1.1\r\n\r\n")), driven,
    .fromUpstream (PlainSession.record 23
      (ascii "HTTP/1.1 200 OK\r\nContent-Length: 2\r\n\r\n" ++ [0xff, 10])), driven, .teardown]

theorem export_har_exact_visit : ∃ w : Interception PlainSession PlainSession literalHpack,
    (Interception.automaton .release (.withPlaintext {} PlainSession.clientConfig (.http {}))).run
        visited = some w ∧
      w.transactions.map (fun txn => txn.response.body) = [[0xff, 10]] ∧
      ∃ text, writeHar compactWriter
          ([w.transactions.map (TimedTransaction.mk 951868799999 12),
            w.transactions.map (TimedTransaction.mk 951868799999 15)].foldl drainTransactions []) =
          some text ∧
        ∃! v, IsText v text := by
  have hrun : (((Interception.automaton .release
      (.withPlaintext {} PlainSession.clientConfig (.http {}))).run visited).map
        fun w : Interception PlainSession PlainSession literalHpack =>
          w.transactions.map fun txn => txn.response.body) = some [[0xff, 10]] := by decide +kernel
  obtain ⟨w, hw, hbodies⟩ := Option.map_eq_some_iff.mp hrun
  have hyields : ∀ t ∈ [w.transactions.map (TimedTransaction.mk 951868799999 12),
      w.transactions.map (TimedTransaction.mk 951868799999 15)].flatten,
      HttpTap.Yields t.transaction := by
    intro t ht
    have hmem : t.transaction ∈ w.transactions := by
      simp only [List.flatten_cons, List.flatten_nil, List.append_nil, List.mem_append,
        List.mem_map] at ht
      rcases ht with ⟨x, hx, rfl⟩ | ⟨x, hx, rfl⟩ <;> exact hx
    exact Interception.transactions_yield .release {} PlainSession.clientConfig hw _ hmem
  obtain ⟨text, htext, hunique, -⟩ := export_har_exact compactWriter _ hyields
  exact ⟨w, hw, hbodies, text, htext, hunique⟩

end Adwarden.Tls
