import Adwarden.Tls.HttpTapPairs
import Adwarden.Tls.MitmHttp

/-! The capture of an HTTP splice under the datapath: the transactions that the datapath drains are
those of the plaintext as it was read, whatever the rewriter makes of it. -/
namespace Adwarden.Tls
open Adwarden.Lib

namespace HttpTap

/-- Whether a call feeds the capture. -/
def Op.feeds : Op → Bool
  | .request _ => true
  | .response _ => true
  | .take => false

end HttpTap

/-- The calls of the capture for a piece of plaintext. -/
def MitmEvent.tapOp : MitmEvent → Option HttpTap.Op
  | .fromApp raw _ => some (.request raw)
  | .fromUpstream raw _ => some (.response raw)
  | .finished => none

/-- The plaintext read up to the end of the capture. -/
def tapOps (zs : List MitmEvent) : List HttpTap.Op :=
  (zs.takeWhile (· ≠ .finished)).filterMap MitmEvent.tapOp

theorem tapOps_append_finished {zs : List MitmEvent} (h : .finished ∈ zs) (xs : List MitmEvent) :
    tapOps (zs ++ xs) = tapOps zs := by
  have hw : (zs ++ xs).takeWhile (· ≠ .finished) = zs.takeWhile (· ≠ .finished) := by
    induction zs with
    | nil => cases h
    | cons e zs ih =>
      by_cases he : e = .finished
      · simp [he]
      · rw [List.cons_append, List.takeWhile_cons_of_pos (by simpa using he),
          List.takeWhile_cons_of_pos (by simpa using he),
          ih ((List.mem_cons.mp h).resolve_left (Ne.symm he))]
  rw [tapOps, hw, tapOps]

theorem tapOps_append {zs : List MitmEvent} (h : .finished ∉ zs) (e : MitmEvent) :
    tapOps (zs ++ [e]) = tapOps zs ++ e.tapOp.toList := by
  have hall : ∀ x ∈ zs, decide (x ≠ .finished) = true := by
    intro x hx
    have hne : x ≠ .finished := by
      rintro rfl
      exact h hx
    simpa using hne
  rw [tapOps, tapOps, List.takeWhile_append_of_pos hall, List.filterMap_append,
    List.takeWhile_eq_self_iff.mpr hall]
  cases e <;> rfl

namespace HttpTap

theorem runOps_append (t : HttpTap) (as bs : List Op) :
    runOps t (as ++ bs) =
      ((runOps t as).1 ++ (runOps (runOps t as).2 bs).1, (runOps (runOps t as).2 bs).2) := by
  induction as generalizing t with
  | nil => rfl
  | cons op as ih => simp [runOps, ih]

/-- Taking from a capture that has not been fed takes nothing. -/
theorem runOps_takes {t : HttpTap} (ht : t.completed = []) {calls : List Op}
    (h : calls.filter Op.feeds = []) : runOps t calls = ([], t) := by
  induction calls with
  | nil => rfl
  | cons op calls ih =>
    cases op with
    | request data => simp [Op.feeds] at h
    | response data => simp [Op.feeds] at h
    | take =>
      have hsame : { t with completed := [] } = t := by rw [← ht]
      have hrest := ih (by simpa [Op.feeds] using h)
      rw [runOps, HttpTap.apply, takeTransactions, hsame, hrest, ht]
      rfl

section Conversation

variable {host : Option Str} {rs : List Request} {es : List Exchange} {more : List Request}
  {calls : List Op}

/-- Taking feeds nothing. -/
theorem requestBytes_feeds (calls : List Op) :
    (calls.filter Op.feeds).flatMap Op.requestBytes = calls.flatMap Op.requestBytes := by
  induction calls with
  | nil => rfl
  | cons op calls ih => cases op <;> simp [List.filter_cons, Op.feeds, Op.requestBytes, ih]

theorem responseBytes_feeds (calls : List Op) :
    (calls.filter Op.feeds).flatMap Op.responseBytes = calls.flatMap Op.responseBytes := by
  induction calls with
  | nil => rfl
  | cons op calls ih => cases op <;> simp [List.filter_cons, Op.feeds, Op.responseBytes, ih]

theorem InOrder.of_feeds (h : InOrder es (calls.filter Op.feeds)) : InOrder es calls := by
  intro fed hfed done e rest hes hlen
  rw [← responseBytes_feeds] at hlen
  rw [← requestBytes_feeds]
  exact h (fed.filter Op.feeds) (hfed.filter _) done e rest hes hlen

private theorem finish_eq_of_none {t : HttpTap} (hd : t.disabled = false)
    (hp : t.respPartial = none) : t.finish.completed = t.completed := by
  rw [finish, if_neg (by simp [hd])]
  simp only [hp]

/-- A last response without a length is complete when the connection closes. -/
private theorem finish_closing {t : HttpTap} {e : Exchange} {waiting : List Request}
    (hd : t.disabled = false)
    (hp : t.respPartial = some (e.opened, ⟨.untilClose, .of e.response.body⟩))
    (hpending : t.pending = (e.request :: waiting).map Request.pending) :
    t.finish.completed = t.completed ++ [e.transaction t.sni] := by
  have hcomp := completeResponse_eq { t with respPartial := none } hpending
  rw [finish, if_neg (by simp [hd])]
  simp only [hp]
  rw [e.attached (b := ⟨.untilClose, .of e.response.body⟩) rfl, hcomp]

/-- All of a conversation has been captured when the capture is finished. -/
theorem runOps_finish (hc : Conversation rs es more) (horder : InOrder es calls)
    (hreq : calls.flatMap Op.requestBytes <+: requests rs)
    (hresp : calls.flatMap Op.responseBytes = responses es) :
    (runOps { sni := host } calls).1 ++ (runOps { sni := host } calls).2.finish.completed =
      es.map (Exchange.transaction host) := by
  obtain ⟨reqRest, answered, left, waiting, unread, hfed, h⟩ := runOps_start host hc horder hreq hresp
  have hready := h.ready hc hfed (by rw [List.append_nil]; exact hresp) (horder calls List.prefix_rfl)
  rcases h.all with ⟨rfl, hp⟩ | ⟨e, rfl, hp⟩
  · have hfinish := finish_eq_of_none h.enabled hp
    rw [hfinish, h.completed, h.answers, List.append_nil]
  · obtain ⟨w, rfl, -⟩ := hready.first (by simp)
    rw [finish_closing h.enabled hp h.pending, ← List.append_assoc, h.completed, h.answers, h.sni]
    simp

end Conversation

theorem finish_disabled (t : HttpTap) : t.finish.disabled = true := by
  unfold finish
  split_ifs with h
  · exact h
  · split
    · rfl
    · dsimp only
      split <;> rfl

theorem finish_of_disabled {t : HttpTap} (h : t.disabled = true) : t.finish = t := by
  rw [finish, if_pos h]

theorem feedRequest_disabled {t : HttpTap} (h : t.disabled = true) (data : Bytes) :
    t.feedRequest data = t := by rw [feedRequest, if_pos (Or.inl h)]

theorem feedResponse_disabled {t : HttpTap} (h : t.disabled = true) (data : Bytes) :
    t.feedResponse data = t := by rw [feedResponse, if_pos (Or.inl h)]

end HttpTap

/-- What the capture of a splice with this host has come to, of which `txns` have been drained:
it was fed the plaintext as read, up to its end. -/
def Captures (txns : List HttpTransaction) (host : Option Str) (zs : List MitmEvent)
    (t : HttpTap) : Prop :=
  ∃ calls, calls.filter HttpTap.Op.feeds = tapOps zs ∧
    ((.finished ∉ zs ∧ HttpTap.runOps { sni := host } calls = (txns, t)) ∨
      (.finished ∈ zs ∧ t.disabled = true ∧
        txns ++ t.completed = (HttpTap.runOps { sni := host } calls).1 ++
          (HttpTap.runOps { sni := host } calls).2.finish.completed))

namespace Captures

variable {txns : List HttpTransaction} {host : Option Str} {zs : List MitmEvent} {t : HttpTap}

theorem start : Captures [] none [] {} := ⟨[], rfl, Or.inl ⟨List.not_mem_nil, rfl⟩⟩

theorem feed (h : Captures txns host zs t) (op : HttpTap.Op) {e : MitmEvent} {t' : HttpTap}
    (he : e.tapOp = some op) (hfeeds : op.feeds = true) (hop : t.apply op = ([], t'))
    (hdis : t.disabled = true → t' = t) : Captures txns host (zs ++ [e]) t' := by
  have hne : e ≠ .finished := by
    rintro rfl
    cases he
  obtain ⟨calls, hcalls, ⟨hopen, hrun⟩ | ⟨hover, hd, hsum⟩⟩ := h
  · refine ⟨calls ++ [op], ?_, Or.inl ⟨?_, ?_⟩⟩
    · rw [List.filter_append, hcalls, tapOps_append hopen, he]
      simp [hfeeds]
    · simpa using ⟨hopen, hne.symm⟩
    · rw [HttpTap.runOps_append, hrun]
      simp [HttpTap.runOps, hop]
  · refine ⟨calls, ?_, Or.inr ⟨List.mem_append_left _ hover, ?_⟩⟩
    · rw [hcalls, tapOps_append_finished hover]
    · rw [hdis hd]
      exact ⟨hd, hsum⟩

theorem finish (h : Captures txns host zs t) : Captures txns host (zs ++ [.finished]) t.finish := by
  obtain ⟨calls, hcalls, ⟨hopen, hrun⟩ | ⟨hover, hd, hsum⟩⟩ := h
  · refine ⟨calls, ?_, Or.inr ⟨by simp, t.finish_disabled, by rw [hrun]⟩⟩
    rw [hcalls, tapOps_append hopen]
    simp [MitmEvent.tapOp]
  · rw [HttpTap.finish_of_disabled hd]
    refine ⟨calls, ?_, Or.inr ⟨by simp, hd, hsum⟩⟩
    rw [hcalls, tapOps_append_finished hover]

theorem take (h : Captures txns host zs t) :
    Captures (txns ++ t.takeTransactions.1) host zs t.takeTransactions.2 := by
  obtain ⟨calls, hcalls, ⟨hopen, hrun⟩ | ⟨hover, hd, hsum⟩⟩ := h
  · refine ⟨calls ++ [.take], ?_, Or.inl ⟨hopen, ?_⟩⟩
    · rw [List.filter_append, hcalls]
      simp [HttpTap.Op.feeds]
    · rw [HttpTap.runOps_append, hrun]
      simp [HttpTap.runOps, HttpTap.apply]
  · refine ⟨calls, hcalls, Or.inr ⟨hover, hd, ?_⟩⟩
    rw [← hsum]
    simp [HttpTap.takeTransactions]

/-- The host is learned before anything is fed. -/
theorem setHost (h : Captures txns none zs t) (hz : ∀ e ∈ zs, e = .finished) (name : Str) :
    Captures txns (some name) zs (t.setHost name) := by
  have hops : tapOps zs = [] := by
    rw [tapOps]
    cases zs with
    | nil => rfl
    | cons e zs => simp [hz e List.mem_cons_self]
  obtain ⟨calls, hcalls, h⟩ := h
  have hnone : ∀ host, HttpTap.runOps { sni := host } calls = ([], { sni := host }) := fun host =>
    HttpTap.runOps_takes rfl (hcalls.trans hops)
  refine ⟨calls, hcalls, ?_⟩
  rw [hnone] at h ⊢
  obtain ⟨hopen, hrun⟩ | ⟨hover, hd, hsum⟩ := h
  · obtain ⟨rfl, rfl⟩ := Prod.mk.inj hrun
    exact Or.inl ⟨hopen, rfl⟩
  · refine Or.inr ⟨hover, ?_, ?_⟩
    · unfold HttpTap.setHost
      split_ifs <;> exact hd
    · have hsame : (t.setHost name).completed = t.completed := by
        unfold HttpTap.setHost
        split_ifs <;> rfl
      rw [hsame, hsum]
      rfl

end Captures

section Splice

variable {σ κ : Type} {H : Hpack} [ServerSession σ] [TlsSession κ] {p : Profile}
  {isBlocked : Str → Bool} {txns : List HttpTransaction} {zs xs : List MitmEvent}
  {m m' : TlsMitm σ κ H}

def HttpCaptures (txns : List HttpTransaction) (zs : List MitmEvent) (m : TlsMitm σ κ H) : Prop :=
  ∃ t, m.plaintext = .http t ∧ Captures txns m.host zs t.tap

omit [TlsSession κ] in
private theorem markFailed_host (m : TlsMitm σ κ H) (side : FailSide) :
    (m.markFailed side).host = m.host := by
  unfold TlsMitm.markFailed
  split_ifs <;> rfl

omit [TlsSession κ] in
private theorem HttpCaptures.named (h : HttpCaptures txns zs m) (hg : Guarded zs m)
    (hf : m.failed = false) (hc : m.client = none) (name : Str) :
    ∃ t, m.plaintext.setHost name = .http t ∧ Captures txns (some name) zs t.tap := by
  obtain ⟨t, hp, hcap⟩ := h
  rw [hg.unnamed hc hf] at hcap
  refine ⟨{ t with tap := t.tap.setHost name }, by rw [hp]; rfl, ?_⟩
  exact hcap.setHost (hg.unopened hc) name

theorem HttpCaptures.act (h : HttpCaptures txns zs m) (hg : Guarded zs m)
    (ha : m.Act p isBlocked xs m') : HttpCaptures txns (zs ++ xs) m' := by
  cases ha with
  | server hs => rwa [List.append_nil]
  | packets closed hok => rwa [List.append_nil]
  | client closed hc => rwa [List.append_nil]
  | fail side =>
    rw [List.append_nil, HttpCaptures, markFailed_plaintext, markFailed_host]
    exact h
  | opened hok hc hn hconnect =>
    rw [List.append_nil]
    exact h.named hg hok hc _
  | refused hok hc hn =>
    rw [List.append_nil, HttpCaptures, markFailed_plaintext, markFailed_host]
    exact h.named hg hok hc _
  | @request t' c raw s x l hc hp' hread hx =>
    obtain ⟨t, hp, hcap⟩ := h
    obtain rfl : t' = t := by rw [hp] at hp'; exact (Plaintext.http.inj hp').symm
    obtain ⟨rfl, rfl⟩ := Prod.mk.inj (Except.ok.inj hx)
    exact ⟨_, rfl, hcap.feed (.request raw) rfl rfl rfl
      fun hd => HttpTap.feedRequest_disabled hd raw⟩
  | @response t' c c' raw x l hc hp' hread hx =>
    obtain ⟨t, hp, hcap⟩ := h
    obtain rfl : t' = t := by rw [hp] at hp'; exact (Plaintext.http.inj hp').symm
    obtain ⟨r, -, heq⟩ := exists_of_map_ok hx
    obtain ⟨rfl, rfl⟩ := Prod.mk.inj heq
    exact ⟨_, rfl, hcap.feed (.response raw) rfl rfl rfl
      fun hd => HttpTap.feedResponse_disabled hd raw⟩
  | query hc hp' =>
    obtain ⟨t, hp, -⟩ := h
    rw [hp] at hp'
    cases hp'
  | answer hc hp' =>
    obtain ⟨t, hp, -⟩ := h
    rw [hp] at hp'
    cases hp'
  | finish =>
    obtain ⟨t, hp, hcap⟩ := h
    have hfin : m.finish = { m with plaintext := .http { t with tap := t.tap.finish } } := by
      simp only [TlsMitm.finish, hp]
    rw [hfin]
    exact ⟨_, rfl, hcap.finish⟩

omit [ServerSession σ] [TlsSession κ] in
theorem HttpCaptures.takeTransactions (h : HttpCaptures txns zs m) :
    HttpCaptures (txns ++ m.takeTransactions.1) zs m.takeTransactions.2 := by
  obtain ⟨t, hp, hcap⟩ := h
  have htake : m.takeTransactions = (t.tap.takeTransactions.1,
      { m with plaintext := .http { t with tap := t.tap.takeTransactions.2 } }) := by
    simp only [TlsMitm.takeTransactions, hp]
  rw [htake]
  exact ⟨_, rfl, hcap.take⟩

omit [ServerSession σ] [TlsSession κ] in
theorem HttpCaptures.setCosmetic (h : HttpCaptures txns zs m) (css js : Str) :
    HttpCaptures txns zs (m.setCosmetic css js) := by
  obtain ⟨t, hp, hcap⟩ := h
  have hset : m.setCosmetic css js = { m with
      plaintext := .http { t with rewriter := t.rewriter.setCosmetic css js } } := by
    simp only [TlsMitm.setCosmetic, hp]
  rw [hset]
  exact ⟨_, rfl, hcap⟩

end Splice

namespace Interception

variable {σ κ : Type} {H : Hpack} [ServerSession σ] [TlsSession κ] [LawfulServer σ] {p : Profile}
  {m : TlsMitm σ κ H} {w w' : Interception σ κ H}

/-- What has been drained from the splice, and what it still holds. -/
structure Recorded (w : Interception σ κ H) : Prop where
  guarded : Guarded w.events w.mitm
  captures : HttpCaptures w.transactions w.events w.mitm

private theorem acts_captures {isBlocked : Str → Bool} {xs : List MitmEvent} {m : TlsMitm σ κ H}
    (h : w.Recorded) (ha : w.mitm.Acts p isBlocked xs m) :
    Guarded (w.events ++ xs) m ∧ HttpCaptures w.transactions (w.events ++ xs) m :=
  ha.invariant (P := fun zs m => Guarded zs m ∧ HttpCaptures w.transactions zs m)
    (fun h ha => ⟨h.1.act ha, h.2.act h.1 ha⟩) ⟨h.guarded, h.captures⟩

omit [ServerSession σ] [TlsSession κ] [LawfulServer σ] in
private theorem provision_captures (payload : Str → Str × Str)
    (h : HttpCaptures w.transactions w.events w.mitm) :
    HttpCaptures (w.provisionCosmetics payload).transactions
      (w.provisionCosmetics payload).events (w.provisionCosmetics payload).mitm := by
  unfold provisionCosmetics
  split
  · exact h.setCosmetic _ _
  · exact h

theorem Recorded.step {op : MitmOp} (h : w.Recorded) (hs : w.step p op = some w') :
    w'.Recorded := by
  refine ⟨(Guarded.keeps p).step hs h.guarded, ?_⟩
  obtain ⟨m, -, -, hacts, rfl⟩ | ⟨isBlocked, payload, r, -, hr, rfl⟩ | ⟨-, rfl⟩ := step_cases hs
  · simpa using (acts_captures h hacts).2
  · have hcap : HttpCaptures (w.pumped r).transactions (w.pumped r).events (w.pumped r).mitm :=
      (acts_captures h (pump_acts hr).1).2
    obtain ⟨t, hp, -⟩ := id hcap
    have hdns : (w.pumped r).mitm.isDns = false := by simp only [TlsMitm.isDns, hp]
    rw [settle, hdns, if_neg (by simp)]
    exact (provision_captures payload hcap).takeTransactions
  · exact (acts_captures h (TlsMitm.finish_acts p (fun _ => false) w.mitm)).2.takeTransactions

omit [LawfulServer σ] in
theorem step_open {op : MitmOp} (hs : w.step p op = some w') : w.tornDown = false := by
  unfold Interception.step at hs
  split_ifs at hs with ht
  simpa using ht

/-- A teardown finishes the capture, and leaves nothing to drain. -/
def Closing (w : Interception σ κ H) : Prop :=
  w.tornDown = true → .finished ∈ w.events ∧ ∀ t, w.mitm.plaintext = .http t → t.tap.completed = []

theorem closing_step {op : MitmOp} (hs : w.step p op = some w') : w'.Closing := by
  intro htorn
  have hopen := step_open hs
  obtain ⟨m, -, -, hacts, rfl⟩ | ⟨isBlocked, payload, r, -, hr, rfl⟩ | ⟨-, rfl⟩ := step_cases hs
  · rw [hopen] at htorn
    cases htorn
  · obtain ⟨t, cosmetic, txns, blocked, ht⟩ := settle_eq payload (w.pumped r)
    rw [ht] at htorn
    have : (w.pumped r).tornDown = false := hopen
    rw [this] at htorn
    cases htorn
  · refine ⟨by simp [teardown, drainMitmTransactions], ?_⟩
    intro t hp
    simp only [teardown, drainMitmTransactions, TlsMitm.takeTransactions] at hp
    split at hp
    · obtain rfl := Plaintext.http.inj hp
      rfl
    · next d hd =>
      rw [hd] at hp
      cases hp

theorem recorded_run (p : Profile) (server : σ) (clientConfig : ClientConfig κ)
    {ops : List MitmOp}
    (hrun : (automaton p (.withPlaintext server clientConfig (.http {} : Plaintext H))).run ops =
      some w) : w.Recorded ∧ w.Closing := by
  have hstart : Recorded
      { mitm := .withPlaintext server clientConfig (.http {} : Plaintext H) } :=
    ⟨guarded_start server clientConfig _, {}, rfl, .start⟩
  exact Automaton.Keeps.runFrom
    (A := automaton p (.withPlaintext server clientConfig (.http {} : Plaintext H)))
    (P := fun w => w.Recorded ∧ w.Closing) (fun _ _ _ hw hs => ⟨hw.1.step hs, closing_step hs⟩)
    ⟨hstart, fun h => by cases h⟩ hrun

/-- In every order of arrivals, drives and the teardown, the transactions drained from an HTTP
splice are those of a capture that was fed the plaintext as it was read, up to the first end of
the connection: the rewriter and its payload do not matter. After the teardown of a conversation
they are its exchanges, each request with its own response. -/
theorem splice_capture (p : Profile) (server : σ) (clientConfig : ClientConfig κ)
    {ops : List MitmOp}
    (hrun : (automaton p (.withPlaintext server clientConfig (.http {} : Plaintext H))).run ops =
      some w) :
    (∃ t calls, w.mitm.plaintext = .http t ∧
      calls.filter HttpTap.Op.feeds = tapOps w.events ∧
      w.transactions ++ t.tap.completed = (HttpTap.runOps { sni := w.mitm.host } calls).1 ++
        (if .finished ∈ w.events then (HttpTap.runOps { sni := w.mitm.host } calls).2.finish
          else (HttpTap.runOps { sni := w.mitm.host } calls).2).completed) ∧
    ∀ rs es more, HttpTap.Conversation rs es more →
      (tapOps w.events).flatMap HttpTap.Op.requestBytes <+: HttpTap.requests rs →
      (tapOps w.events).flatMap HttpTap.Op.responseBytes = HttpTap.responses es →
      HttpTap.InOrder es (tapOps w.events) → w.tornDown = true →
      w.transactions = es.map (HttpTap.Exchange.transaction w.mitm.host) := by
  obtain ⟨⟨-, t, hp, calls, hcalls, hcap⟩, hclosing⟩ := recorded_run p server clientConfig hrun
  constructor
  · refine ⟨t, calls, hp, hcalls, ?_⟩
    obtain ⟨hopen, hrun⟩ | ⟨hover, -, hsum⟩ := hcap
    · rw [if_neg hopen, hrun]
    · rw [if_pos hover, hsum]
  · intro rs es more hc hreq hresp horder htorn
    obtain ⟨hover, hdrained⟩ := hclosing htorn
    rw [← hcalls] at hreq hresp horder
    rw [HttpTap.requestBytes_feeds] at hreq
    rw [HttpTap.responseBytes_feeds] at hresp
    obtain ⟨hopen, -⟩ | ⟨-, -, hsum⟩ := hcap
    · exact absurd hover hopen
    · rw [hdrained t hp, List.append_nil] at hsum
      rw [hsum]
      exact HttpTap.runOps_finish hc horder.of_feeds hreq hresp

private def ignored : MitmOp := .drive (fun _ => false) fun _ => (Str.lit "x", [])

/-- One exchange, with a payload, and the teardown. -/
private def visit : List MitmOp :=
  [.fromApp (PlainSession.record 1 (ascii "a.b")), ignored,
    .fromUpstream (PlainSession.record 20 []), .fromApp (PlainSession.record 20 []), ignored,
    .fromApp (PlainSession.record 23 (ascii "GET / HTTP/1.1\r\n\r\n")), ignored,
    .fromUpstream (PlainSession.record 23 (ascii "HTTP/1.1 200 OK\r\n\r\nhi")), ignored,
    .teardown]

theorem splice_capture_visit : ∃ w : Interception PlainSession PlainSession literalHpack,
    (automaton .release (.withPlaintext {} PlainSession.clientConfig (.http {}))).run visit =
        some w ∧
      w.transactions.map (fun txn => (txn.host, txn.request.target, txn.response.body)) =
        [(some (Str.lit "a.b"), Str.lit "/", ascii "hi")] ∧
      ∃ t calls, w.mitm.plaintext = .http t ∧ calls.filter HttpTap.Op.feeds = tapOps w.events ∧
        w.transactions ++ t.tap.completed = (HttpTap.runOps { sni := w.mitm.host } calls).1 ++
          (if .finished ∈ w.events then (HttpTap.runOps { sni := w.mitm.host } calls).2.finish
            else (HttpTap.runOps { sni := w.mitm.host } calls).2).completed := by
  have hrun : (((automaton .release (.withPlaintext {} PlainSession.clientConfig (.http {}))).run
      visit).map fun w : Interception PlainSession PlainSession literalHpack =>
        w.transactions.map fun txn => (txn.host, txn.request.target, txn.response.body)) =
      some [(some (Str.lit "a.b"), Str.lit "/", ascii "hi")] := by decide +kernel
  obtain ⟨w, hw, hvals⟩ := Option.map_eq_some_iff.mp hrun
  obtain ⟨hcap, -⟩ := splice_capture .release ({} : PlainSession) PlainSession.clientConfig hw
  exact ⟨w, hw, hvals, hcap⟩

end Interception

end Adwarden.Tls
