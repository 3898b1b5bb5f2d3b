import Adwarden.Core.RuntimeControl
import Adwarden.Data.Delivered
import Adwarden.Lib.Ledger

/-! The statistics of the app against what the datapath has done: every packet and every report of a
flow is in them, in a batch, or in the aggregate, once. -/
namespace Adwarden.Data
open Adwarden.Lib Adwarden.Net Adwarden.Tls Adwarden.Core Adwarden.Core.NativeEventCodec

variable {σ μ : Type}

/-- What a packet counts as. -/
def packetTotals (d : Decoded) (refused : Prop) [Decidable refused] : Totals where
  packets := 1
  bytes := .ofNat d.length
  tcpPackets := if d.proto = .tcp then 1 else 0
  dnsQueries := if d.proto = .udp ∧ Forwarder.isDnsPort d.dstPort = true then 1 else 0
  blocked := if refused then 1 else 0
  domains _ := 0
  apps _ := 0

/-- A report counts as a TCP packet without length, blocked or not. -/
def reportTotals (e : Event) : Totals where
  packets := 1
  bytes := 0
  tcpPackets := 1
  dnsQueries := 0
  blocked := if e.verdict = verdictBlock then 1 else 0
  domains _ := 0
  apps _ := 0

/-- The events that have been added to the batch. -/
def added (s s' : Runtime σ μ) : List Event :=
  s'.forwarder.shared.batcher.drop s.forwarder.shared.batcher.length

section Posting

variable [TcpSocket σ] [Splice μ]

open Classical in
/-- What a step posts: a packet that decodes, refused or not, or what a flow has reported. -/
noncomputable def posted (host : Host) (s : Runtime σ μ) (a : RuntimeAct σ μ) : Totals :=
  match a, s.step host a with
  | .packet packet owner _, some _ =>
    match Net.decode packet with
    | none => 0
    | some d => packetTotals d (s.forwarder.Refused host.wire packet d owner)
  | _, some s' => ((added s s').map reportTotals).sum
  | _, none => 0

/-- A batch that is flushed fits a byte array, and its aggregate the counters of one record. -/
def deliverable (s : Runtime σ μ) : RuntimeAct σ μ → Bool
  | .flush clock | .leave clock =>
    decide (s.forwarder.coarse.packets < 2 ^ 32) &&
      (Batcher.drainEncoded ⟨s.batch clock⟩).1.all fun blob => decide (blob.length < 2 ^ 31)
  | _ => true

/-- Each batch of a run is. -/
def Deliverable (s : Runtime σ μ) (a : RuntimeAct σ μ) : Prop := deliverable s a = true

instance (s : Runtime σ μ) (a : RuntimeAct σ μ) : Decidable (Deliverable s a) :=
  inferInstanceAs (Decidable (deliverable s a = true))

theorem deliverable_flush {s : Runtime σ μ} {clock : ℕ → UInt64}
    (h : Deliverable s (.flush clock) ∨ Deliverable s (.leave clock)) :
    s.forwarder.coarse.packets < 2 ^ 32 ∧
      ∀ blob, (Batcher.drainEncoded ⟨s.batch clock⟩).1 = some blob → blob.length < 2 ^ 31 := by
  have hall : (decide (s.forwarder.coarse.packets < 2 ^ 32) &&
      (Batcher.drainEncoded ⟨s.batch clock⟩).1.all fun blob => decide (blob.length < 2 ^ 31)) =
        true := h.elim id id
  rw [Bool.and_eq_true, decide_eq_true_eq] at hall
  refine ⟨hall.1, fun blob hblob => ?_⟩
  simpa [hblob] using hall.2

end Posting

/-- What is in the batch, and in the aggregate. -/
def waiting (f : Forwarder σ μ) : Totals :=
  (f.shared.batcher.map eventTotals).sum + coarseTotals f.coarse

/-- What has been handed to the app. -/
def delivered (hostAddress : IpAddr → Str) (s : Runtime σ μ) : Totals :=
  (Totals.of (s.blobs.flatMap (NativeEventCodec.decode hostAddress))).counters

section Entries

theorem eventTotals_report {e : Event} (h : e.IsReport) : eventTotals e = reportTotals e := by
  unfold eventTotals reportTotals
  rw [h.proto, h.length, if_pos rfl, if_neg]
  · rfl
  · intro hudp
    exact absurd hudp.1 (by decide)

theorem countable_report {e : Event} (h : e.IsReport) : Countable e where
  plain := h.plain
  proto := ⟨.tcp, h.proto⟩
  length := by
    rw [h.length]
    decide

theorem protoCode_injective {p q : L4} : protoCode p = protoCode q ↔ p = q := by
  cases p <;> cases q <;> decide

theorem eventTotals_packet {d : Decoded} {e : Event} {p : Prop} [Decidable p]
    (h : (Charge.event e).Of d) (hp : (Charge.event e).Blocks ↔ p) :
    eventTotals e = packetTotals d p := by
  obtain ⟨-, hproto, hlength, hport⟩ := h
  have hblock : e.verdict = verdictBlock ↔ p := hp
  unfold eventTotals packetTotals
  rw [hproto, hlength, hport]
  simp only [protoCode_injective, hblock]

theorem ofNat_add_ite (n : ℕ) (p : Prop) [Decidable p] :
    Int64.ofNat (n + if p then 1 else 0) = .ofNat n + if p then 1 else 0 := by
  split_ifs
  · exact Int64.ofNat_add ..
  · exact (add_zero _).symm

theorem coarseTotals_packet (f : Forwarder σ μ) {d : Decoded} {isDns : Bool} {p : Prop}
    [Decidable p] (h : (Charge.coarse isDns).Of d) (hp : ¬ p) :
    coarseTotals (f.coarseAdd d.length d.proto isDns).coarse =
      coarseTotals f.coarse + packetTotals d p := by
  have hdns : isDns = true ↔ d.proto = .udp ∧ Forwarder.isDnsPort d.dstPort = true := by
    rw [show isDns = _ from h, Bool.and_eq_true, beq_iff_eq]
  ext
  · exact Int64.ofNat_add ..
  · exact Int64.ofNat_add ..
  · exact ofNat_add_ite _ _
  · refine (ofNat_add_ite _ _).trans ?_
    simp only [hdns]
    rfl
  · simp [coarseTotals, packetTotals, hp]
  · rfl
  · rfl

/-- A packet is worth what its entry is. -/
theorem waiting_charge {f f' : Forwarder σ μ} {d : Decoded} {c : Charge} {p : Prop} [Decidable p]
    (hof : c.Of d) (hp : c.Blocks ↔ p) (h : f'.accounts = f.charge d c) :
    waiting f' = waiting f + packetTotals d p := by
  obtain ⟨hb, hc⟩ := Prod.mk.inj h
  unfold waiting
  rw [hb, hc]
  cases c with
  | event e =>
    change ((f.shared.batcher ++ [e]).map eventTotals).sum + coarseTotals f.coarse = _
    rw [List.map_append, List.sum_append, List.map_singleton, List.sum_singleton,
      eventTotals_packet hof hp]
    exact add_right_comm ..
  | coarse isDns =>
    change _ + coarseTotals (f.coarseAdd d.length d.proto isDns).coarse = _
    rw [coarseTotals_packet f hof (fun h => hp.mpr h)]
    exact (add_assoc ..).symm

end Entries

section Books

/-- What is waiting can be delivered as it is. -/
structure Sound (f : Forwarder σ μ) : Prop where
  events : ∀ e ∈ f.shared.batcher, Countable e
  tcp : f.coarse.tcp ≤ f.coarse.packets
  udp : f.coarse.udp ≤ f.coarse.packets
  dns : f.coarse.dns ≤ f.coarse.packets
  empty : f.coarse.packets = 0 → f.coarse = {}

theorem Sound.of_accounts {f f' : Forwarder σ μ} (h : Sound f) (ha : f'.accounts = f.accounts) :
    Sound f' := by
  obtain ⟨hb, hc⟩ := Prod.mk.inj ha
  constructor
  · rw [hb]
    exact h.events
  · rw [hc]
    exact h.tcp
  · rw [hc]
    exact h.udp
  · rw [hc]
    exact h.dns
  · rw [hc]
    exact h.empty

theorem Sound.of_empty {f : Forwarder σ μ} (h : f.accounts = ([], {})) : Sound f := by
  obtain ⟨hb, hc⟩ := Prod.mk.inj h
  constructor
  · rw [hb]
    simp
  · rw [hc]
  · rw [hc]
  · rw [hc]
  · intro _
    exact hc

theorem Sound.reports {f f' : Forwarder σ μ} (h : Sound f) (hr : f.Reports f') : Sound f' := by
  obtain ⟨es, hes, hreport⟩ := hr.events
  have hc := hr.coarse
  constructor
  · rw [hes]
    intro e he
    rcases List.mem_append.mp he with he | he
    · exact h.events e he
    · exact countable_report (hreport e he)
  · rw [hc]
    exact h.tcp
  · rw [hc]
    exact h.udp
  · rw [hc]
    exact h.dns
  · rw [hc]
    exact h.empty

theorem Sound.charge {f f' : Forwarder σ μ} {d : Decoded} {c : Charge} (h : Sound f)
    (hof : c.Of d) (hlen : d.length < 2 ^ 31) (hc : f'.accounts = f.charge d c) : Sound f' := by
  cases c with
  | event e =>
    obtain ⟨hkind, hproto, hlength, -⟩ := hof
    have hcount : Countable e := ⟨hkind, ⟨d.proto, hproto⟩, by rwa [hlength]⟩
    have hpush : Sound (f.push [e]) := by
      refine ⟨?_, h.tcp, h.udp, h.dns, h.empty⟩
      intro e' he
      rcases List.mem_append.mp he with he | he
      · exact h.events e' he
      · rwa [List.mem_singleton.mp he]
    exact hpush.of_accounts hc
  | coarse isDns =>
    have hadd : Sound (f.coarseAdd d.length d.proto isDns) := by
      refine ⟨h.events, ?_, ?_, ?_, fun h0 => absurd h0 (Nat.succ_ne_zero _)⟩
      · have htcp := h.tcp
        change f.coarse.tcp + (if d.proto = .tcp then 1 else 0) ≤ f.coarse.packets + 1
        split_ifs <;> omega
      · have hudp := h.udp
        change f.coarse.udp + (if d.proto = .udp then 1 else 0) ≤ f.coarse.packets + 1
        split_ifs <;> omega
      · have hdns := h.dns
        change f.coarse.dns + (if isDns then 1 else 0) ≤ f.coarse.packets + 1
        split_ifs <;> omega
    exact hadd.of_accounts hc

theorem clampLen_le (reported actual : ℕ) : clampLen reported actual ≤ actual := by
  unfold clampLen
  split_ifs with h
  · exact h.2
  · exact Nat.mod_le _ _

theorem decode_length {packet : Bytes} {d : Decoded} (h : Net.decode packet = some d) :
    d.length ≤ packet.length := by
  unfold Net.decode at h
  split_ifs at h
  · unfold decodeV4 at h
    dsimp only at h
    split_ifs at h
    obtain rfl := Option.some.inj h
    exact clampLen_le _ _
  · unfold decodeV6 at h
    dsimp only at h
    split_ifs at h
    obtain rfl := Option.some.inj h
    exact clampLen_le _ _

theorem waiting_reports {f f' : Forwarder σ μ} {es : List Event}
    (hb : f'.shared.batcher = f.shared.batcher ++ es) (hc : f'.coarse = f.coarse)
    (hes : ∀ e ∈ es, e.IsReport) : waiting f' = waiting f + (es.map reportTotals).sum := by
  have hmap : es.map eventTotals = es.map reportTotals :=
    List.map_congr_left fun e he => eventTotals_report (hes e he)
  unfold waiting
  rw [hb, hc, List.map_append, List.sum_append, hmap]
  exact add_right_comm ..

theorem waiting_empty {f : Forwarder σ μ} (h : f.accounts = ([], {})) : waiting f = 0 := by
  obtain ⟨hb, hc⟩ := Prod.mk.inj h
  unfold waiting
  rw [hb, hc]
  rfl

end Books

section Flushing

variable (hostAddress : IpAddr → Str)

theorem countsAs_events (clock : ℕ → UInt64) {es : List Event} (h : ∀ e ∈ es, Countable e) (n : ℕ) :
    List.Forall₂ (CountsAs hostAddress) ((es.zipIdx n).map fun p => p.1.record (clock p.2))
      (es.map eventTotals) := by
  induction es generalizing n with
  | nil => exact .nil
  | cons e es ih =>
    rw [List.zipIdx_cons, List.map_cons, List.map_cons]
    exact .cons (countsAs_event hostAddress (h e List.mem_cons_self) _)
      (ih (fun e' he => h e' (List.mem_cons_of_mem _ he)) (n + 1))

/-- The records of a batch count as what was waiting. -/
theorem countsAs_batch {s : Runtime σ μ} (h : Sound s.forwarder)
    (hfits : s.forwarder.coarse.packets < 2 ^ 32) (clock : ℕ → UInt64) :
    ∃ ts, List.Forall₂ (CountsAs hostAddress) (s.batch clock) ts ∧
      ts.sum = waiting s.forwarder := by
  have hevents := countsAs_events hostAddress clock h.events 0
  unfold Runtime.batch Forwarder.takeCoarse waiting
  split_ifs with h0
  · rw [Option.toList_none, List.append_nil]
    refine ⟨_, hevents, ?_⟩
    rw [h.empty h0]
    exact (add_zero _).symm
  · have hcoarse := countsAs_coarse hostAddress ⟨hfits, h.tcp, h.udp, h.dns⟩
      (clock s.forwarder.shared.batcher.length)
    refine ⟨_, List.rel_append hevents (.cons hcoarse .nil), ?_⟩
    rw [List.sum_append, List.sum_singleton]

theorem accounts_flush {s : Runtime σ μ} (h : Sound s.forwarder) (clock : ℕ → UInt64) :
    (s.flush clock).forwarder.accounts = ([], {}) := by
  unfold Runtime.flush Forwarder.takeCoarse Forwarder.accounts
  dsimp only
  split_ifs with h0
  · rw [h.empty h0]
  · rfl

/-- A flush hands to the app what was waiting. -/
theorem delivered_flush {s : Runtime σ μ} (h : Sound s.forwarder) {clock : ℕ → UInt64}
    (hfits : s.forwarder.coarse.packets < 2 ^ 32)
    (hsize : ∀ blob, (Batcher.drainEncoded ⟨s.batch clock⟩).1 = some blob → blob.length < 2 ^ 31) :
    delivered hostAddress (s.flush clock) = delivered hostAddress s + waiting s.forwarder := by
  obtain ⟨ts, hts, hsum⟩ := countsAs_batch hostAddress h hfits clock
  have hbatch := totals_drainEncoded hostAddress hts hsize
  unfold delivered Runtime.flush
  dsimp only
  rw [List.flatMap_append, Totals.of_append, Totals.counters_add, hbatch, hsum]

end Flushing

section Steps

/-- Nothing waits before the loop is entered, or once it is left. -/
structure Booked (s : Runtime σ μ) : Prop where
  sound : Sound s.forwarder
  idle : s.pc = .starting ∨ s.pc = .exited → s.forwarder.accounts = ([], {})

/-- The books are kept, and `t` is posted. -/
structure Books (hostAddress : IpAddr → Str) (s s' : Runtime σ μ) (t : Totals) : Prop where
  booked : Booked s'
  posts : delivered hostAddress s' + waiting s'.forwarder =
    delivered hostAddress s + waiting s.forwarder + t

variable {hostAddress : IpAddr → Str} {s s' : Runtime σ μ}

theorem added_eq {es : List Event}
    (h : s'.forwarder.shared.batcher = s.forwarder.shared.batcher ++ es) : added s s' = es := by
  rw [added, h, List.drop_left]

theorem Booked.reports (h : Booked s) (hr : s.forwarder.Reports s'.forwarder)
    (hblobs : s'.blobs = s.blobs) (hpc : s'.pc ≠ .starting ∧ s'.pc ≠ .exited) :
    Books hostAddress s s' ((added s s').map reportTotals).sum := by
  obtain ⟨es, hes, hreport⟩ := hr.events
  constructor
  · exact ⟨h.sound.reports hr, fun hp => (hp.elim hpc.1 hpc.2).elim⟩
  · rw [added_eq hes, waiting_reports hes hr.coarse hreport, delivered, hblobs]
    exact (add_assoc ..).symm

theorem Booked.same (h : Booked s) (ha : s'.forwarder.accounts = s.forwarder.accounts)
    (hblobs : s'.blobs = s.blobs)
    (hpc : s'.pc = .starting ∨ s'.pc = .exited → s.pc = .starting ∨ s.pc = .exited) :
    Books hostAddress s s' ((added s s').map reportTotals).sum := by
  obtain ⟨hb, hc⟩ := Prod.mk.inj ha
  have hb' : s'.forwarder.shared.batcher = s.forwarder.shared.batcher ++ [] :=
    hb.trans (List.append_nil _).symm
  constructor
  · exact ⟨h.sound.of_accounts ha, fun hp => ha.trans (h.idle (hpc hp))⟩
  · rw [added_eq hb', waiting_reports hb' hc (by simp), delivered, hblobs]
    exact (add_assoc ..).symm

theorem Booked.flush (h : Booked s) {clock : ℕ → UInt64}
    (hfits : s.forwarder.coarse.packets < 2 ^ 32)
    (hsize : ∀ blob, (Batcher.drainEncoded ⟨s.batch clock⟩).1 = some blob → blob.length < 2 ^ 31)
    (hf : s'.forwarder = (s.flush clock).forwarder) (hblobs : s'.blobs = (s.flush clock).blobs) :
    Books hostAddress s s' ((added s s').map reportTotals).sum := by
  have hempty : s'.forwarder.accounts = ([], {}) := by
    rw [hf]
    exact accounts_flush h.sound clock
  have hadded : added s s' = [] := by
    rw [added, (Prod.mk.inj hempty).1, List.drop_nil]
  have hdelivered : delivered hostAddress s' = delivered hostAddress (s.flush clock) := by
    rw [delivered, hblobs]
    rfl
  constructor
  · exact ⟨.of_empty hempty, fun _ => hempty⟩
  · rw [hadded, hdelivered, delivered_flush hostAddress h.sound hfits hsize, waiting_empty hempty]
    rfl

variable [TcpSocket σ] [Splice μ]

theorem Booked.packet (h : Booked s) {host : Host} {packet : Bytes} {owner : ℤ} {timestamp : ℕ}
    (hlen : packet.length ≤ tunBuffer) (hpc : s.pc = .applying [])
    (hstep : s.step host (.packet packet owner timestamp) = some s')
    (hs' : s' = (s.cross host.disk [.packet timestamp packet]).setForwarder
      (s.forwarder.onTunPacket host.wire packet owner)) :
    Books hostAddress s s' (posted host s (.packet packet owner timestamp)) := by
  have hf : s'.forwarder = s.forwarder.onTunPacket host.wire packet owner := by rw [hs']; rfl
  have hblobs : s'.blobs = s.blobs := by rw [hs']; rfl
  have hrun : s'.pc = .applying [] := by rw [hs']; exact hpc
  unfold posted
  rw [hstep]
  dsimp only
  cases hd : Net.decode packet with
  | none =>
    have ha : s'.forwarder.accounts = s.forwarder.accounts := by
      rw [hf, Forwarder.onTunPacket, hd]
    have hsame : Books hostAddress s s' ((added s s').map reportTotals).sum :=
      h.same ha hblobs fun hp => by
        rw [hrun] at hp
        exact hp.elim Pc.noConfusion Pc.noConfusion
    have hadded : added s s' = [] := by
      rw [added, (Prod.mk.inj ha).1]
      exact List.drop_eq_nil_of_le (Nat.le_refl _)
    rwa [hadded] at hsame
  | some d =>
    obtain ⟨c, hof, hblocks, hc⟩ := Forwarder.charge_onTunPacket host.wire s.forwarder owner hd
    rw [← hf] at hc
    have hsmall : d.length < 2 ^ 31 := by
      have hle := (decode_length hd).trans hlen
      simp only [tunBuffer] at hle
      omega
    constructor
    · refine ⟨h.sound.charge hof hsmall hc, fun hp => ?_⟩
      rw [hrun] at hp
      exact hp.elim Pc.noConfusion Pc.noConfusion
    · classical
      dsimp only
      rw [waiting_charge hof hblocks hc, delivered, hblobs]
      exact (add_assoc ..).symm

/-- Any other step posts what is added. -/
theorem Booked.other (h : Booked s) {host : Host} {a : RuntimeAct σ μ} (hd : Deliverable s a)
    (hsteps : Runtime.Steps host s a s') (ha : a.isPacket = false) :
    Books hostAddress s s' ((added s s').map reportTotals).sum := by
  have hpc {pc pc' : Pc} (hp : s.pc = pc) (hne : pc' ≠ .starting ∧ pc' ≠ .exited) :
      pc' = .starting ∨ pc' = .exited → s.pc = .starting ∨ s.pc = .exited :=
    fun he => (he.elim hne.1 hne.2).elim
  cases hsteps with
  | packet hp packet owner timestamp hlen => cases ha
  | push c => exact h.same rfl rfl id
  | wake hu => exact h.same rfl rfl id
  | storeStop hidle => exact h.same rfl rfl id
  | wakeStop hstored => exact h.same rfl rfl id
  | join hp hjoin => exact h.same rfl rfl id
  | enter hp => exact h.same rfl rfl fun _ => .inl hp
  | giveUp hp => exact h.same rfl rfl fun _ => .inl hp
  | check hp hstop => exact h.same rfl rfl (hpc hp ⟨Pc.noConfusion, Pc.noConfusion⟩)
  | checkStop hp hstop => exact h.same rfl rfl (hpc hp ⟨Pc.noConfusion, Pc.noConfusion⟩)
  | poll hp sawWake woken => exact h.same rfl rfl (hpc hp ⟨Pc.noConfusion, Pc.noConfusion⟩)
  | pollFailed hp sawWake woken => exact h.same rfl rfl (hpc hp ⟨Pc.noConfusion, Pc.noConfusion⟩)
  | drain hp => exact h.same rfl rfl (hpc hp ⟨Pc.noConfusion, Pc.noConfusion⟩)
  | apply c rest hp =>
    obtain ⟨f, pcap, closed, n, hframe, -, hacc, -⟩ := Runtime.applyCommand_frame host.disk s c
    rw [hframe]
    exact h.same hacc rfl (hpc hp ⟨Pc.noConfusion, Pc.noConfusion⟩)
  | ready hp token event keylog =>
    exact h.reports (s.forwarder.reports_onReady token event) rfl ⟨by simp [hp], by simp [hp]⟩
  | service hp polls order emitted keylog =>
    exact h.reports (s.forwarder.reports_service polls order emitted) rfl
      ⟨Pc.noConfusion, Pc.noConfusion⟩
  | write hp stamps => exact h.same rfl rfl (hpc hp ⟨Pc.noConfusion, Pc.noConfusion⟩)
  | flush hp clock hdue =>
    obtain ⟨hfits, hsize⟩ := deliverable_flush (.inl hd)
    exact h.flush hfits hsize rfl rfl
  | gather hp clock hdue => exact h.same rfl rfl (hpc hp ⟨Pc.noConfusion, Pc.noConfusion⟩)
  | leave hp clock =>
    obtain ⟨hfits, hsize⟩ := deliverable_flush (.inr hd)
    exact h.flush hfits hsize rfl rfl
  | world i f hset hacc => exact h.same hacc rfl id

theorem posted_added {host : Host} {a : RuntimeAct σ μ} (hstep : s.step host a = some s')
    (ha : a.isPacket = false) : posted host s a = ((added s s').map reportTotals).sum := by
  unfold posted
  rw [hstep]
  cases a with
  | packet packet owner timestamp => cases ha
  | _ => rfl

/-- Each step keeps the books. -/
theorem Booked.step (h : Booked s) {host : Host} {a : RuntimeAct σ μ} (hd : Deliverable s a)
    (hstep : s.step host a = some s') : Books hostAddress s s' (posted host s a) := by
  have hsteps := Runtime.steps_of_step host hstep
  have hother (ha : a.isPacket = false) : Books hostAddress s s' (posted host s a) := by
    rw [posted_added hstep ha]
    exact h.other hd hsteps ha
  cases a with
  | packet packet owner timestamp =>
    cases hsteps with
    | packet hpc _ _ _ hlen => exact h.packet hlen hpc hstep rfl
  | _ => exact hother rfl

end Steps

section Main

variable [TcpSocket σ] [Splice μ]

/-- In every run of a session, however its threads interleave and whatever its flows report: the
windows that the app has drained, what is pending there and in flight, and what still waits in the
datapath add up to one packet for each packet that decodes, with its length, protocol and verdict,
and one for each report of a flow; and nothing waits once the thread has ended. -/
theorem statistics_account (hostAddress : IpAddr → Str) {host : Host} {tunFd : ℕ}
    {config : Config μ} {as : List (RuntimeAct σ μ)} {s : Runtime σ μ}
    (h : (Runtime.automaton host tunFd config).run as = some s)
    (hd : (Runtime.automaton host tunFd config).EachStep Deliverable (.new tunFd config) as)
    {ops : List StatsOp} {t : Statistics} (hops : statsMachine.run ops = some t)
    (hevents : ops.flatMap StatsOp.eventsOf =
      s.blobs.flatMap (NativeEventCodec.decode hostAddress)) :
    ((t.drained.map Snapshot.totals).sum + t.pending.totals +
        (t.queue.map StatsDelta.totals).sum).counters + waiting s.forwarder =
      (Runtime.automaton host tunFd config).total (posted host) (.new tunFd config) as ∧
    (s.pc = .exited → waiting s.forwarder = 0) := by
  have hnew : Booked (.new tunFd config : Runtime σ μ) := ⟨.of_empty rfl, fun _ => rfl⟩
  have hkeeps (s : Runtime σ μ) (a : RuntimeAct σ μ) (s' : Runtime σ μ) (hs : Booked s)
      (ha : Deliverable s a) (hstep : s.step host a = some s') :
      Books hostAddress s s' (posted host s a) := hs.step ha hstep
  have hvalue := Automaton.total_eq (fun s => delivered hostAddress s + waiting s.forwarder)
    (fun s a s' hs ha hstep => (hkeeps s a s' hs ha hstep).booked)
    (fun s a s' hs ha hstep => (hkeeps s a s' hs ha hstep).posts) hd hnew h
  have hbooked := Automaton.EachStep.runFrom
    (fun s a s' hs ha hstep => (hkeeps s a s' hs ha hstep).booked) hd hnew h
  constructor
  · rw [(Accounted.run hops).divided.sum, hevents]
    refine hvalue.trans ?_
    have hzero : delivered hostAddress (.new tunFd config : Runtime σ μ) +
        waiting (.new config : Forwarder σ μ) = 0 := rfl
    exact (congrArg (· + _) hzero).trans (zero_add _)
  · exact fun hp => waiting_empty (hbooked.idle (.inr hp))

end Main

/-- Two datagrams are counted, in the aggregate, and handed over when the thread ends. -/
def sendsAndStops : List (RuntimeAct PlainSocket PlainSplice) :=
  [.enter true, .check, .poll true false, .drain, .world (.answers [.opened] true),
    .packet (udpPacket 80) 10 0, .packet (udpPacket 53) 10 0, .service (fun _ => .still) [] [] [],
    .write id, .flush fun _ => 0, .storeStop, .check, .leave fun _ => 0]

/-- The app is handed the batches, one after the other. -/
def collects (blobs : List Bytes) : List StatsOp :=
  blobs.map fun blob => .events (NativeEventCodec.decode IpAddr.display blob) 0

theorem statistics_account_stopped :
    ∃ s t, (Runtime.automaton Runtime.plainHost 3 plainConfig).run sendsAndStops = some s ∧
      statsMachine.run (collects s.blobs) = some t ∧ s.blobs.length = 1 ∧
      ((t.drained.map Snapshot.totals).sum + t.pending.totals +
          (t.queue.map StatsDelta.totals).sum).counters + waiting s.forwarder =
        (Runtime.automaton Runtime.plainHost 3 plainConfig).total (posted Runtime.plainHost)
          (.new 3 plainConfig) sendsAndStops ∧
      (s.pc = .exited → waiting s.forwarder = 0) := by
  obtain ⟨s, hs⟩ : ∃ s, (Runtime.automaton Runtime.plainHost 3 plainConfig).run sendsAndStops =
      some s := ⟨_, rfl⟩
  have hblobs : s.blobs.length = 1 := by
    have hmap : ((Runtime.automaton Runtime.plainHost 3 plainConfig).run sendsAndStops).map
        (fun s => s.blobs.length) = some 1 := by decide +kernel
    rw [hs] at hmap
    exact Option.some.inj hmap
  obtain ⟨t, ht⟩ : ∃ t, statsMachine.run (collects s.blobs) = some t := by
    obtain ⟨blob, hblob⟩ := List.length_eq_one_iff.mp hblobs
    rw [hblob]
    exact ⟨_, rfl⟩
  refine ⟨s, t, hs, ht, hblobs, ?_⟩
  apply statistics_account IpAddr.display hs _ ht
  · simp [collects, StatsOp.eventsOf, List.flatMap_map]
  · decide +kernel

end Adwarden.Data
