import Adwarden.Data.Capture
import Adwarden.Lib.Automaton
import Mathlib.Algebra.BigOperators.Group.List.Basic

/-! What events contribute to the statistics, and its conservation through the repository, the
deltas in flight and the windows that are drained. -/
namespace Adwarden.Data
open Adwarden.Lib Adwarden.Net Adwarden.Core.NativeEventCodec

/-- The amounts that are counted, under every key. -/
@[ext] structure Totals where
  packets : Int64
  bytes : Int64
  tcpPackets : Int64
  dnsQueries : Int64
  blocked : Int64
  domains : Str → Int32
  apps : ℤ → Int32

namespace Totals

instance : Zero Totals := ⟨⟨0, 0, 0, 0, 0, fun _ => 0, fun _ => 0⟩⟩

instance : Add Totals where
  add a b :=
    ⟨a.packets + b.packets, a.bytes + b.bytes, a.tcpPackets + b.tcpPackets,
      a.dnsQueries + b.dnsQueries, a.blocked + b.blocked, fun k => a.domains k + b.domains k,
      fun k => a.apps k + b.apps k⟩

section Fields

variable (a b : Totals)

@[simp] theorem packets_add : (a + b).packets = a.packets + b.packets := rfl

@[simp] theorem bytes_add : (a + b).bytes = a.bytes + b.bytes := rfl

@[simp] theorem tcpPackets_add : (a + b).tcpPackets = a.tcpPackets + b.tcpPackets := rfl

@[simp] theorem dnsQueries_add : (a + b).dnsQueries = a.dnsQueries + b.dnsQueries := rfl

@[simp] theorem blocked_add : (a + b).blocked = a.blocked + b.blocked := rfl

@[simp] theorem domains_add (k : Str) : (a + b).domains k = a.domains k + b.domains k := rfl

@[simp] theorem apps_add (k : ℤ) : (a + b).apps k = a.apps k + b.apps k := rfl

@[simp] theorem packets_zero : (0 : Totals).packets = 0 := rfl

@[simp] theorem bytes_zero : (0 : Totals).bytes = 0 := rfl

@[simp] theorem tcpPackets_zero : (0 : Totals).tcpPackets = 0 := rfl

@[simp] theorem dnsQueries_zero : (0 : Totals).dnsQueries = 0 := rfl

@[simp] theorem blocked_zero : (0 : Totals).blocked = 0 := rfl

@[simp] theorem domains_zero (k : Str) : (0 : Totals).domains k = 0 := rfl

@[simp] theorem apps_zero (k : ℤ) : (0 : Totals).apps k = 0 := rfl

end Fields

instance : AddCommMonoid Totals where
  add_assoc a b c := by ext <;> simp [add_assoc]
  zero_add a := by ext <;> simp
  add_zero a := by ext <;> simp
  add_comm a b := by ext <;> simp [add_comm]
  nsmul := nsmulRec

end Totals

/-- A block event, and not a coalesced record. -/
def isBlock (e : ConnectionEvent) : Bool := e.coarse.isNone && e.verdict = .block

def blocksDomain (k : Str) (e : ConnectionEvent) : Bool := isBlock e && e.blockedDomain = some k

def blocksApp (k : ℤ) (e : ConnectionEvent) : Bool := isBlock e && (e.uid = some k && 0 < k)

/-- What an event counts in a field: a coalesced record its counter, another the amount given. -/
def amount (counter : CoarseCounts → ℤ) (own : ConnectionEvent → Int64) (e : ConnectionEvent) :
    Int64 :=
  match e.coarse with
  | some c => .ofInt (counter c)
  | none => own e

/-- The totals of a sequence of events. -/
def Totals.of (es : List ConnectionEvent) : Totals where
  packets := (es.map (amount (·.packets) fun _ => 1)).sum
  bytes := (es.map (amount (·.bytes) fun e => .ofInt e.length)).sum
  tcpPackets := (es.map (amount (·.tcpPackets) fun e => if e.proto = .tcp then 1 else 0)).sum
  dnsQueries := (es.map (amount (·.dnsQueries) fun e => if isDns e then 1 else 0)).sum
  blocked := (es.map fun e => if isBlock e then (1 : Int64) else 0).sum
  domains k := .ofNat (es.countP (blocksDomain k))
  apps k := .ofNat (es.countP (blocksApp k))

theorem Totals.of_append (es fs : List ConnectionEvent) :
    Totals.of (es ++ fs) = Totals.of es + Totals.of fs := by
  ext <;> simp [Totals.of]

theorem Totals.of_flatten (ws : List (List ConnectionEvent)) :
    Totals.of ws.flatten = (ws.map Totals.of).sum := by
  induction ws with
  | nil => rfl
  | cons w ws ih => rw [List.flatten_cons, of_append, ih, List.map_cons, List.sum_cons]

def StatsDelta.totals (d : StatsDelta) : Totals :=
  ⟨d.packets, d.bytes, d.tcpPackets, d.dnsQueries, d.blocked, d.blockedDomains.get,
    d.blockedApps.get⟩

def Accumulator.totals (a : Accumulator) : Totals :=
  ⟨a.packets, a.bytes, a.tcpPackets, a.dnsQueries, a.blocked, a.domains.get, a.apps.get⟩

def Snapshot.totals (s : Snapshot) : Totals :=
  ⟨s.packets, s.bytes, s.tcpPackets, s.dnsQueries, s.blocked, s.domains.get, s.apps.get⟩

theorem Accumulator.add_totals (a : Accumulator) (d : StatsDelta) :
    (a.add d).totals = a.totals + d.totals := by
  ext <;> simp [Accumulator.add, Accumulator.totals, StatsDelta.totals]

theorem StatsDelta.count_totals (d : StatsDelta) (e : ConnectionEvent) :
    (d.count e).totals = d.totals + Totals.of [e] := by
  cases hc : e.coarse with
  | some c =>
    have hblock : isBlock e = false := by simp [isBlock, hc]
    ext <;> simp [StatsDelta.count, totals, Totals.of, amount, blocksDomain, blocksApp, hc, hblock]
  | none =>
    have hif : ∀ (p : Prop) [Decidable p] (x : Int64),
        (if p then x + 1 else x) = x + if p then 1 else 0 := by
      intro p _ x
      split_ifs
      · rfl
      · rw [add_zero]
    by_cases hv : e.verdict = .block
    · have hblock : isBlock e = true := by simp [isBlock, hc, hv]
      ext k
      · simp [StatsDelta.count, totals, Totals.of, amount, hc, hv]
      · simp [StatsDelta.count, totals, Totals.of, amount, hc, hv]
      · simp [StatsDelta.count, totals, Totals.of, amount, hc, hv, hif]
      · simp [StatsDelta.count, totals, Totals.of, amount, hc, hv, hif]
      · simp [StatsDelta.count, totals, Totals.of, hc, hv, hblock]
      · cases hd : e.blockedDomain with
        | none => simp [StatsDelta.count, totals, Totals.of, blocksDomain, hc, hv, hd]
        | some domain =>
          simp only [StatsDelta.count, totals, Totals.of, blocksDomain, hc, hv, hblock, hd, if_true,
            Tally.get_merge, Totals.domains_add, List.countP_singleton, Bool.true_and,
            Option.some.injEq, decide_eq_true_eq]
          split_ifs <;> rfl
      · cases hu : e.uid with
        | none => simp [StatsDelta.count, totals, Totals.of, blocksApp, hc, hv, hu]
        | some uid =>
          have hkey : uid = k ∧ 0 < k ↔ 0 < uid ∧ uid = k := by
            constructor
            · rintro ⟨rfl, hpos⟩
              exact ⟨hpos, rfl⟩
            · rintro ⟨hpos, rfl⟩
              exact ⟨rfl, hpos⟩
          simp only [StatsDelta.count, totals, Totals.of, blocksApp, hc, hv, hblock, hu, if_true,
            Totals.apps_add, List.countP_singleton, Bool.true_and, Option.some.injEq,
            Bool.and_eq_true, decide_eq_true_eq, hkey]
          by_cases hpos : 0 < uid
          · rw [if_pos hpos, Tally.get_merge]
            simp only [hpos, true_and]
            split_ifs <;> rfl
          · rw [if_neg hpos, if_neg (fun h => hpos h.1)]
            exact (add_zero _).symm
    · have hblock : isBlock e = false := by simp [isBlock, hc, hv]
      ext k <;> simp [StatsDelta.count, totals, Totals.of, amount, blocksDomain, blocksApp, hc, hv,
        hblock, hif]

theorem StatsDelta.foldl_totals (d : StatsDelta) (batch : List ConnectionEvent) :
    (batch.foldl StatsDelta.count d).totals = d.totals + Totals.of batch := by
  induction batch generalizing d with
  | nil => exact (add_zero _).symm
  | cons e batch ih =>
    have hcons := Totals.of_append [e] batch
    rw [List.singleton_append] at hcons
    rw [List.foldl_cons, ih, count_totals, hcons, add_assoc]

/-- The totals without the tallies. -/
def Totals.counters (t : Totals) : Totals := { t with domains := fun _ => 0, apps := fun _ => 0 }

theorem Totals.counters_add (a b : Totals) : (a + b).counters = a.counters + b.counters := by
  ext <;> simp [Totals.counters]

namespace CaptureRepository

/-- The session's own totals. -/
def session (r : CaptureRepository) : Totals :=
  ⟨r.packets, r.bytes, r.tcp, r.dns, r.blocked, fun _ => 0, fun _ => 0⟩

@[simp] theorem publish_session (r : CaptureRepository) (force : Bool) (now : Int64) :
    (r.publish force now).session = r.session := by
  unfold publish
  split_ifs <;> rfl

theorem count_session (r : CaptureRepository) (e : ConnectionEvent) :
    (r.count e).session = r.session + (Totals.of [e]).counters := by
  cases hc : e.coarse with
  | some c =>
    have hblock : isBlock e = false := by simp [isBlock, hc]
    ext <;> simp [count, session, Totals.of, Totals.counters, amount, hc, hblock]
  | none =>
    have hblock : isBlock e = decide (e.verdict = .block) := by simp [isBlock, hc]
    ext <;> simp [count, session, Totals.of, Totals.counters, amount, hc, hblock] <;>
      split_ifs <;> simp

theorem foldl_session (r : CaptureRepository) (batch : List ConnectionEvent) :
    (batch.foldl count r).session = r.session + (Totals.of batch).counters := by
  induction batch generalizing r with
  | nil => exact (add_zero _).symm
  | cons e batch ih =>
    have hcons := Totals.of_append [e] batch
    rw [List.singleton_append] at hcons
    rw [List.foldl_cons, ih, count_session, hcons, Totals.counters_add, add_assoc]

theorem foldl_pair (batch : List ConnectionEvent) (r : CaptureRepository) (d : StatsDelta) :
    batch.foldl (fun (p : CaptureRepository × StatsDelta) e => (p.1.count e, p.2.count e)) (r, d) =
      (batch.foldl count r, batch.foldl StatsDelta.count d) := by
  induction batch generalizing r d with
  | nil => rfl
  | cons e batch ih => rw [List.foldl_cons, ih, List.foldl_cons, List.foldl_cons]

/-- A batch emits its totals and adds them to the session; an empty one does neither. -/
theorem onEvents_spec (r : CaptureRepository) (batch : List ConnectionEvent) (now : Int64) :
    (batch = [] ∧ r.onEvents batch now = (none, r)) ∨
      ∃ d r', r.onEvents batch now = (some d, r') ∧ d.totals = Totals.of batch ∧
        r'.session = r.session + d.totals.counters := by
  by_cases hb : batch = []
  · exact .inl ⟨hb, by rw [onEvents, if_pos hb]⟩
  · refine .inr ⟨batch.foldl StatsDelta.count {}, (batch.foldl count r).publish false now,
      ?_, ?_, ?_⟩
    · rw [onEvents, if_neg hb]
      exact congrArg (fun p : CaptureRepository × StatsDelta => (some p.2, p.1.publish false now))
        (foldl_pair batch r {})
    · rw [StatsDelta.foldl_totals]
      exact zero_add _
    · rw [publish_session, foldl_session, StatsDelta.foldl_totals]
      congr 2
      exact (zero_add _).symm

theorem onStarted_session (r : CaptureRepository) (startedAt now : Int64) :
    (r.onStarted startedAt now).session = 0 := by
  rw [onStarted, publish_session]
  rfl

theorem onStopped_session (r : CaptureRepository) (now : Int64) :
    (r.onStopped now).session = r.session := by
  rw [onStopped, publish_session]
  rfl

end CaptureRepository

/-- The repository, the deltas on their way to the accumulator, the accumulator and the windows
drained; `emitted` are the deltas since the last start. -/
structure Statistics where
  repo : CaptureRepository := {}
  queue : List StatsDelta := []
  pending : Accumulator := {}
  drained : List Snapshot := []
  emitted : List StatsDelta := []

inductive StatsOp where
  | started (startedAt now : Int64)
  | stopped (now : Int64)
  | events (batch : List ConnectionEvent) (now : Int64)
  /-- The collector takes the next delta. -/
  | deliver
  | drain

def statsStep (s : Statistics) : StatsOp → Option Statistics
  | .started startedAt now => some { s with repo := s.repo.onStarted startedAt now, emitted := [] }
  | .stopped now => some { s with repo := s.repo.onStopped now }
  | .events batch now =>
    let (delta, repo) := s.repo.onEvents batch now
    some { s with
      repo := repo, queue := s.queue ++ delta.toList, emitted := s.emitted ++ delta.toList }
  | .deliver =>
    match s.queue with
    | [] => none
    | delta :: queue => some { s with queue := queue, pending := s.pending.add delta }
  | .drain =>
    let (snapshot, pending) := s.pending.drain
    some { s with pending := pending, drained := s.drained ++ snapshot.toList }

def statsMachine : Automaton Statistics StatsOp := ⟨{}, statsStep⟩

def StatsOp.eventsOf : StatsOp → List ConnectionEvent
  | .events batch _ => batch
  | _ => []

/-- Whether a delta was added since the last drain. -/
def addedSinceDrain (ops : List StatsOp) : Bool :=
  ops.foldl (fun added op => match op with
    | .deliver => true
    | .drain => false
    | _ => added) false

theorem addedSinceDrain_concat (ops : List StatsOp) (op : StatsOp) :
    addedSinceDrain (ops ++ [op]) = match op with
      | .deliver => true
      | .drain => false
      | _ => addedSinceDrain ops := by
  rw [addedSinceDrain, List.foldl_append]
  rfl

/-- What a drain leaves, and what it takes. -/
theorem Accumulator.drain_spec (a : Accumulator) (hclean : a.dirty = false → a.totals = 0) :
    (a.dirty = false ∧ a.drain = (none, a) ∧ a.totals = 0) ∨
      ∃ w, a.dirty = true ∧ a.drain = (some w, {}) ∧ w.totals = a.totals := by
  cases hd : a.dirty with
  | false => exact .inl ⟨rfl, by rw [drain, hd]; rfl, hclean hd⟩
  | true => exact .inr ⟨_, rfl, by rw [drain, hd]; rfl, rfl⟩

/-- The windows, the pending one and the deltas in flight divide the events between them. -/
def Divided (s : Statistics) (es : List ConnectionEvent) : Prop :=
  ∃ (windows : List (List ConnectionEvent)) (pending : List ConnectionEvent)
    (queued : List (List ConnectionEvent)),
    s.drained.map Snapshot.totals = windows.map Totals.of ∧ s.pending.totals = Totals.of pending ∧
      s.queue.map StatsDelta.totals = queued.map Totals.of ∧
      windows.flatten ++ pending ++ queued.flatten = es

structure Accounted (s : Statistics) (ops : List StatsOp) : Prop where
  divided : Divided s (ops.flatMap StatsOp.eventsOf)
  session : s.repo.session = (s.emitted.map fun d => d.totals.counters).sum
  clean : s.pending.dirty = false → s.pending.totals = 0
  dirty : s.pending.dirty = addedSinceDrain ops

private theorem eventsOf_concat (ops : List StatsOp) (op : StatsOp) :
    (ops ++ [op]).flatMap StatsOp.eventsOf = ops.flatMap StatsOp.eventsOf ++ op.eventsOf := by
  rw [List.flatMap_append, List.flatMap_singleton]

private theorem eventsOf_concat_nil (ops : List StatsOp) {op : StatsOp} (h : op.eventsOf = []) :
    (ops ++ [op]).flatMap StatsOp.eventsOf = ops.flatMap StatsOp.eventsOf := by
  rw [eventsOf_concat, h, List.append_nil]

theorem Accounted.step {s s' : Statistics} {ops : List StatsOp} {op : StatsOp}
    (h : Accounted s ops) (hstep : statsStep s op = some s') : Accounted s' (ops ++ [op]) := by
  obtain ⟨⟨windows, pending, queued, hw, hp, hq, hes⟩, hsession, hclean, hdirty⟩ := h
  cases op with
  | started startedAt now =>
    obtain rfl := Option.some.inj hstep
    refine ⟨⟨windows, pending, queued, hw, hp, hq, ?_⟩, ?_, hclean, ?_⟩
    · rw [eventsOf_concat_nil ops rfl, hes]
    · exact s.repo.onStarted_session startedAt now
    · rw [addedSinceDrain_concat, hdirty]
  | stopped now =>
    obtain rfl := Option.some.inj hstep
    refine ⟨⟨windows, pending, queued, hw, hp, hq, ?_⟩, ?_, hclean, ?_⟩
    · rw [eventsOf_concat_nil ops rfl, hes]
    · exact (s.repo.onStopped_session now).trans hsession
    · rw [addedSinceDrain_concat, hdirty]
  | events batch now =>
    rcases s.repo.onEvents_spec batch now with ⟨rfl, hnone⟩ | ⟨d, repo, hsome, hd, hrepo⟩
    · simp only [statsStep, hnone, Option.toList_none, List.append_nil, Option.some.injEq] at hstep
      subst hstep
      refine ⟨⟨windows, pending, queued, hw, hp, hq, ?_⟩, hsession, hclean, ?_⟩
      · rw [eventsOf_concat_nil ops rfl, hes]
      · rw [addedSinceDrain_concat, hdirty]
    · simp only [statsStep, hsome, Option.toList_some, Option.some.injEq] at hstep
      subst hstep
      refine ⟨⟨windows, pending, queued ++ [batch], hw, hp, ?_, ?_⟩, ?_, hclean, ?_⟩
      · rw [List.map_append, List.map_append, hq, List.map_singleton, List.map_singleton, hd]
      · rw [eventsOf_concat, StatsOp.eventsOf, List.flatten_append, List.flatten_singleton,
          ← List.append_assoc, hes]
      · rw [List.map_append, List.sum_append, List.map_singleton, List.sum_singleton, hrepo,
          hsession]
      · rw [addedSinceDrain_concat, hdirty]
  | deliver =>
    cases hqueue : s.queue with
    | nil => simp [statsStep, hqueue] at hstep
    | cons d queue =>
      simp only [statsStep, hqueue, Option.some.injEq] at hstep
      subst hstep
      rw [hqueue, List.map_cons] at hq
      obtain ⟨batch, rest, rfl, hd, hrest⟩ := List.map_eq_cons_iff.mp hq.symm
      refine ⟨⟨windows, pending ++ batch, rest, hw, ?_, hrest.symm, ?_⟩, hsession, ?_, ?_⟩
      · rw [Accumulator.add_totals, hp, Totals.of_append, hd]
      · rw [eventsOf_concat_nil ops rfl, ← hes, List.flatten_cons]
        simp only [List.append_assoc]
      · intro hfalse
        cases hfalse
      · rw [addedSinceDrain_concat]
        rfl
  | drain =>
    rcases s.pending.drain_spec hclean with ⟨hd, hdrain, -⟩ | ⟨w, hd, hdrain, hwin⟩
    · simp only [statsStep, hdrain, Option.toList_none, List.append_nil, Option.some.injEq] at hstep
      subst hstep
      refine ⟨⟨windows, pending, queued, hw, hp, hq, ?_⟩, hsession, hclean, ?_⟩
      · rw [eventsOf_concat_nil ops rfl, hes]
      · rw [addedSinceDrain_concat, hd]
    · simp only [statsStep, hdrain, Option.toList_some, Option.some.injEq] at hstep
      subst hstep
      refine ⟨⟨windows ++ [pending], [], queued, ?_, rfl, hq, ?_⟩, hsession, fun _ => rfl, ?_⟩
      · rw [List.map_append, List.map_append, hw, List.map_singleton, List.map_singleton, hwin, hp]
      · rw [eventsOf_concat_nil ops rfl, ← hes, List.flatten_append, List.flatten_singleton,
          List.append_nil]
      · rw [addedSinceDrain_concat]

theorem Accounted.run {s : Statistics} {ops : List StatsOp} (h : statsMachine.run ops = some s) :
    Accounted s ops := by
  have hinit : Accounted {} [] := ⟨⟨[], [], [], rfl, rfl, rfl, rfl⟩, rfl, fun _ => rfl, rfl⟩
  exact Automaton.runFrom_history (fun _ _ _ _ hs hstep => hs.step hstep) hinit h

theorem Divided.sum {s : Statistics} {es : List ConnectionEvent} (h : Divided s es) :
    (s.drained.map Snapshot.totals).sum + s.pending.totals +
      (s.queue.map StatsDelta.totals).sum = Totals.of es := by
  obtain ⟨windows, pending, queued, hw, hp, hq, rfl⟩ := h
  rw [hw, hp, hq, Totals.of_append, Totals.of_append, Totals.of_flatten, Totals.of_flatten]

/-- Tallies of windows are the numbers they stand for as long as all of them together fit. -/
private theorem tally_exact {α : Type} {f : α → Totals} {g : Totals → Int32}
    {p : ConnectionEvent → Bool} (hg : ∀ es, g (Totals.of es) = .ofNat (es.countP p))
    {xs : List α} {ws : List (List ConnectionEvent)} (h : xs.map f = ws.map Totals.of)
    (hlt : ws.flatten.countP p < 2 ^ 31) :
    (xs.map fun x => (g (f x)).toInt).sum = ws.flatten.countP p := by
  induction ws generalizing xs with
  | nil =>
    obtain rfl := List.map_eq_nil_iff.mp h
    rfl
  | cons w ws ih =>
    obtain ⟨x, rest, rfl, hx, hrest⟩ := List.map_eq_cons_iff.mp h
    rw [List.flatten_cons, List.countP_append] at hlt ⊢
    have hw : (g (f x)).toInt = w.countP p := by
      rw [hx, hg, Int32.toInt_ofNat_of_lt (by omega)]
    rw [List.map_cons, List.sum_cons, hw, ih hrest (by omega), Nat.cast_add]

private theorem Divided.tally {s : Statistics} {es : List ConnectionEvent} (h : Divided s es)
    {g : Totals → Int32} {p : ConnectionEvent → Bool}
    (hg : ∀ es, g (Totals.of es) = .ofNat (es.countP p)) (hlt : es.countP p < 2 ^ 31) :
    (s.drained.map fun w => (g w.totals).toInt).sum + (g s.pending.totals).toInt +
      (s.queue.map fun d => (g d.totals).toInt).sum = es.countP p := by
  obtain ⟨windows, pending, queued, hw, hp, hq, rfl⟩ := h
  rw [List.countP_append, List.countP_append] at hlt ⊢
  rw [tally_exact hg hw (by omega), tally_exact hg hq (by omega), hp, hg,
    Int32.toInt_ofNat_of_lt (by omega), Nat.cast_add, Nat.cast_add]

/-- In every run: the windows drained, what is pending and what is in flight add up to the totals of
the events in the counters' own arithmetic, and tallies to the numbers of block events as long as
these fit in a tally; the session counters are the sums of the deltas since the last start; and a
drain finds nothing exactly when nothing was added since the one before. -/
theorem statistics_conserved {ops : List StatsOp} {s : Statistics}
    (h : statsMachine.run ops = some s) :
    (s.drained.map Snapshot.totals).sum + s.pending.totals +
        (s.queue.map StatsDelta.totals).sum = Totals.of (ops.flatMap StatsOp.eventsOf) ∧
      (∀ domain, (ops.flatMap StatsOp.eventsOf).countP (blocksDomain domain) < 2 ^ 31 →
        (s.drained.map fun w => (w.domains.get domain).toInt).sum +
          (s.pending.domains.get domain).toInt +
          (s.queue.map fun d => (d.blockedDomains.get domain).toInt).sum =
            (ops.flatMap StatsOp.eventsOf).countP (blocksDomain domain)) ∧
      (∀ uid, (ops.flatMap StatsOp.eventsOf).countP (blocksApp uid) < 2 ^ 31 →
        (s.drained.map fun w => (w.apps.get uid).toInt).sum + (s.pending.apps.get uid).toInt +
          (s.queue.map fun d => (d.blockedApps.get uid).toInt).sum =
            (ops.flatMap StatsOp.eventsOf).countP (blocksApp uid)) ∧
      s.repo.session = (s.emitted.map fun d => d.totals.counters).sum ∧
      (s.pending.drain.1 = none ↔ addedSinceDrain ops = false) := by
  obtain ⟨hdivided, hsession, hclean, hdirty⟩ := Accounted.run h
  refine ⟨hdivided.sum, ?_, ?_, hsession, ?_⟩
  · intro domain hlt
    exact hdivided.tally (g := fun t => t.domains domain) (fun es => rfl) hlt
  · intro uid hlt
    exact hdivided.tally (g := fun t => t.apps uid) (fun es => rfl) hlt
  · rw [← hdirty]
    rcases s.pending.drain_spec hclean with ⟨hd, hdrain, -⟩ | ⟨w, hd, hdrain, -⟩
    · simp [hd, hdrain]
    · simp [hd, hdrain]

def blockedFlow (proto : L4) (dstPort : ℕ) (length : ℤ) : ConnectionEvent where
  id := 0
  timestampMs := 0
  ipVersion := 4
  proto := proto
  srcIp := []
  srcPort := 5000
  dstIp := []
  dstPort := dstPort
  length := length
  uid := some 10005
  verdict := .block
  blockedDomain := some (Str.lit "ads.test")

/-- Two blocks of a domain in different windows, and a coalesced record. -/
def twoWindows : List StatsOp :=
  [.started 0 0,
    .events [blockedFlow .udp 53 60,
      { blockedFlow .other 0 0 with coarse := some ⟨1200, 4500000, 700, 500, 320⟩ }] 100,
    .deliver, .drain, .events [blockedFlow .tcp 443 40] 200]

theorem statistics_conserved_windows :
    ∃ s, statsMachine.run twoWindows = some s ∧
      (s.drained.map fun w => (w.domains.get (Str.lit "ads.test")).toInt).sum +
        (s.pending.domains.get (Str.lit "ads.test")).toInt +
        (s.queue.map fun d => (d.blockedDomains.get (Str.lit "ads.test")).toInt).sum = 2 := by
  obtain ⟨s, hs⟩ : ∃ s, statsMachine.run twoWindows = some s := ⟨_, rfl⟩
  exact ⟨s, hs, (statistics_conserved hs).2.1 (Str.lit "ads.test") (by decide +kernel)⟩

end Adwarden.Data
