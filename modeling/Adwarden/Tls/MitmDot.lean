import Adwarden.Tls.DotFilter
import Adwarden.Tls.MitmRun

/-! A splice that filters DNS over TLS, under the datapath: each message of the app is decided by
the filter engine of the drive that completes it. -/
namespace Adwarden.Tls
open Adwarden.Lib Adwarden.Dns

/-- A drive of a splice: the names that its engine blocks, and the messages it completed. -/
abbrev DotDrive := (Str → Bool) × List Bytes

namespace DotDrive

def forwarded (ds : List DotDrive) : Bytes :=
  ds.flatMap fun d => (d.2.filter fun m => (blockedQuestion d.1 m).isNone).flatMap framed

def answered (ds : List DotDrive) : Bytes := ds.flatMap fun d => d.2.flatMap (nxdomainFrame d.1)

def sinkholed (ds : List DotDrive) : List Str :=
  ds.flatMap fun d => (d.2.filterMap (blockedQuestion d.1)).map Question.name

end DotDrive

/-- The drives `ds` of a splice account for its plaintext; `names` of those blocked have been
reported. -/
structure DotFiltered (ds : List DotDrive) (names : List Str) (zs : List MitmEvent) {H : Hpack}
    (s : DnsStream H) : Prop where
  state : ∃ tail, s.inner = .dot { appBuf := tail, passthrough := false } ∧
    DotFraming (zs.flatMap MitmEvent.rawFromApp) (ds.flatMap Prod.snd) tail
  toUpstream : zs.flatMap MitmEvent.toUpstream = DotDrive.forwarded ds
  toApp : zs.flatMap MitmEvent.sentBack = DotDrive.answered ds
  relayed : ∀ raw out, .fromUpstream raw out ∈ zs → out = raw
  names : names ++ s.blocked = DotDrive.sinkholed ds

section Stream

variable {H : Hpack} {s s' : DnsStream H} {ds : List DotDrive} {names : List Str}
  {zs : List MitmEvent} {f : Str → Bool}

theorem DotFraming.more {a b tail tail' : Bytes} {ms ms' : List Bytes} (h : DotFraming a ms tail)
    (h' : DotFraming (tail ++ b) ms' tail') : DotFraming (a ++ b) (ms ++ ms') tail' where
  eq := by
    rw [h.eq, List.append_assoc, h'.eq]
    simp
  short m hm := by
    rcases List.mem_append.mp hm with hm | hm
    · exact h.short m hm
    · exact h'.short m hm
  incomplete := h'.incomplete

/-- A piece of the app's plaintext completes more messages. -/
theorem DotFiltered.query {cur : List Bytes} (h : DotFiltered (ds ++ [(f, cur)]) names zs s)
    (p : Profile) {raw : Bytes} {cross : DnsCross} (hs : s.onAppData p f raw = .ok (cross, s')) :
    ∃ cur', DotFiltered (ds ++ [(f, cur')]) names (zs ++ [.fromApp raw cross]) s' := by
  obtain ⟨tail, hin, hframing⟩ := h.state
  obtain ⟨ms, tail', hmore⟩ := DotFraming.exists (tail ++ raw)
  have hrun : (dotFeeder f).run ⟨tail ++ raw, false⟩ = _ := dot_run_framing hmore
  have hon : Dot.onAppData f { appBuf := tail, passthrough := false } raw =
      (ms.flatMap fun m => dotMessage f (framed m), ⟨tail', false⟩) := by
    rw [Dot.onAppData, if_neg (by simp)]
    exact hrun
  rw [DnsStream.onAppData, hin] at hs
  simp only [hon] at hs
  obtain ⟨rfl, rfl⟩ := Prod.mk.inj (Except.ok.inj hs)
  obtain ⟨hcross, hnames⟩ := dotMessages_cross f hmore.short
  rw [hcross]
  refine ⟨cur ++ ms, ⟨tail', rfl, ?_⟩, ?_, ?_, ?_, ?_⟩
  · have := hframing.more hmore
    simpa [MitmEvent.rawFromApp] using this
  · simp [h.toUpstream, MitmEvent.toUpstream, DotDrive.forwarded]
  · simp [h.toApp, MitmEvent.sentBack, DotDrive.answered]
  · intro raw' out hmem
    exact h.relayed raw' out (by simpa using hmem)
  · rw [hnames, ← List.append_assoc, h.names]
    simp [DotDrive.sinkholed]

theorem DotFiltered.answer (h : DotFiltered ds names zs s) (raw : Bytes) :
    s.onUpstreamData raw = (raw, s) ∧ DotFiltered ds names (zs ++ [.fromUpstream raw raw]) s := by
  obtain ⟨tail, hin, hframing⟩ := h.state
  refine ⟨by rw [DnsStream.onUpstreamData, hin], ⟨tail, hin, ?_⟩, ?_, ?_, ?_, h.names⟩
  · simpa [MitmEvent.rawFromApp] using hframing
  · simpa [MitmEvent.toUpstream] using h.toUpstream
  · simpa [MitmEvent.sentBack] using h.toApp
  · intro raw' out hmem
    rcases List.mem_append.mp hmem with hmem | hmem
    · exact h.relayed raw' out hmem
    · obtain ⟨rfl, rfl⟩ : raw' = raw ∧ out = raw := by simpa using hmem
      rfl

theorem DotFiltered.finished (h : DotFiltered ds names zs s) :
    DotFiltered ds names (zs ++ [.finished]) s := by
  obtain ⟨tail, hin, hframing⟩ := h.state
  refine ⟨⟨tail, hin, ?_⟩, ?_, ?_, ?_, h.names⟩
  · simpa [MitmEvent.rawFromApp] using hframing
  · simpa [MitmEvent.toUpstream] using h.toUpstream
  · simpa [MitmEvent.sentBack] using h.toApp
  · intro raw out hmem
    exact h.relayed raw out (by simpa using hmem)

/-- A drive that has not completed a message yet. -/
theorem DotFiltered.drive (h : DotFiltered ds names zs s) (f : Str → Bool) :
    DotFiltered (ds ++ [(f, [])]) names zs s := by
  obtain ⟨tail, hin, hframing⟩ := h.state
  refine ⟨⟨tail, hin, ?_⟩, ?_, ?_, h.relayed, ?_⟩
  · simpa using hframing
  · simpa [DotDrive.forwarded] using h.toUpstream
  · simpa [DotDrive.answered] using h.toApp
  · simpa [DotDrive.sinkholed] using h.names

theorem DotFiltered.report (h : DotFiltered ds names zs s) :
    DotFiltered ds (names ++ s.takeBlocked.1) zs s.takeBlocked.2 :=
  ⟨h.state, h.toUpstream, h.toApp, h.relayed, by simpa [DnsStream.takeBlocked] using h.names⟩

end Stream

section Splice

variable {σ κ : Type} {H : Hpack} [ServerSession σ] [TlsSession κ] {p : Profile}
  {f : Str → Bool} {ds : List DotDrive} {names : List Str} {zs xs : List MitmEvent}
  {m m' : TlsMitm σ κ H}

/-- During a drive, whose engine is `f`. -/
def DotDriven (ds : List DotDrive) (f : Str → Bool) (names : List Str) (zs : List MitmEvent)
    (m : TlsMitm σ κ H) : Prop :=
  ∃ cur s, m.plaintext = .dns s ∧ DotFiltered (ds ++ [(f, cur)]) names zs s

theorem DotDriven.act (h : DotDriven ds f names zs m) (ha : m.Act p f xs m') :
    DotDriven ds f names (zs ++ xs) m' := by
  have hfail : ∀ (m : TlsMitm σ κ H) side, (m.markFailed side).plaintext = m.plaintext := by
    intro m side
    unfold TlsMitm.markFailed
    split_ifs <;> rfl
  obtain ⟨cur, s, hp, hf⟩ := h
  cases ha with
  | server hs => exact ⟨cur, s, hp, by rwa [List.append_nil]⟩
  | packets closed hok => exact ⟨cur, s, hp, by rwa [List.append_nil]⟩
  | client closed hc => exact ⟨cur, s, hp, by rwa [List.append_nil]⟩
  | fail side => exact ⟨cur, s, (hfail m side).trans hp, by rwa [List.append_nil]⟩
  | @opened name c hok hc hn hconnect =>
    exact ⟨cur, s, by rw [hp]; rfl, by rwa [List.append_nil]⟩
  | @refused name hok hc hn =>
    exact ⟨cur, s, by rw [hfail, hp]; rfl, by rwa [List.append_nil]⟩
  | request hc hp' =>
    rw [hp] at hp'
    cases hp'
  | response hc hp' =>
    rw [hp] at hp'
    cases hp'
  | @query d c raw srv x l hc hp' hread hx =>
    obtain rfl : d = s := by rw [hp] at hp'; exact (Plaintext.dns.inj hp').symm
    obtain ⟨⟨cross, d'⟩, hr, heq⟩ := exists_of_map_ok hx
    obtain ⟨rfl, rfl⟩ := Prod.mk.inj heq
    obtain ⟨cur', hf'⟩ := hf.query p hr
    exact ⟨cur', d', rfl, hf'⟩
  | @answer d c c' raw x l hc hp' hread hx =>
    obtain rfl : d = s := by rw [hp] at hp'; exact (Plaintext.dns.inj hp').symm
    obtain ⟨hraw, hf'⟩ := hf.answer raw
    obtain ⟨rfl, rfl⟩ := Prod.mk.inj (Except.ok.inj hx)
    rw [hraw]
    exact ⟨cur, d, rfl, hf'⟩
  | finish =>
    have hfin : m.finish = m := by simp only [TlsMitm.finish, hp]
    rw [hfin]
    exact ⟨cur, s, hp, hf.finished⟩

end Splice

/-- The engines of the drives, in order. -/
def MitmOp.engines (ops : List MitmOp) : List (Str → Bool) :=
  ops.filterMap fun
    | .drive isBlocked _ => some isBlocked
    | _ => none

theorem MitmOp.engines_append_drive (ops : List MitmOp) (f : Str → Bool)
    (payload : Str → Str × Str) : engines (ops ++ [.drive f payload]) = engines ops ++ [f] := by
  simp [engines]

theorem MitmOp.engines_append_other (ops : List MitmOp) {op : MitmOp}
    (h : ∀ f payload, op ≠ .drive f payload) : engines (ops ++ [op]) = engines ops := by
  cases op with
  | drive f payload => exact absurd rfl (h f payload)
  | _ => simp [engines]

namespace Interception

variable {σ κ : Type} {H : Hpack} [ServerSession σ] [TlsSession κ] {p : Profile}
  {w w' : Interception σ κ H}

/-- At each point of the run `ops`, the messages of the drives so far are the complete ones of what
has been read from the app so far. -/
def Completes (A : Automaton (Interception σ κ H) MitmOp) (ops : List MitmOp)
    (ds : List DotDrive) : Prop :=
  ∀ before after w₀, ops = before ++ after → A.run before = some w₀ →
    ∃ tail, DotFraming (w₀.events.flatMap MitmEvent.rawFromApp)
      ((ds.take (MitmOp.engines before).length).flatMap Prod.snd) tail

omit [ServerSession σ] [TlsSession κ] in
theorem Completes.step {A : Automaton (Interception σ κ H) MitmOp} {ops : List MitmOp}
    {ds more : List DotDrive} {op : MitmOp} {tail : Bytes} (h : Completes A ops ds)
    (hds : ds.map Prod.fst = MitmOp.engines ops)
    (hmore : (ds ++ more).map Prod.fst = MitmOp.engines (ops ++ [op]))
    (hrun : A.run (ops ++ [op]) = some w')
    (hframing : DotFraming (w'.events.flatMap MitmEvent.rawFromApp) ((ds ++ more).flatMap Prod.snd)
      tail) : Completes A (ops ++ [op]) (ds ++ more) := by
  intro before after w₀ hsplit hbefore
  rcases List.eq_nil_or_concat after with rfl | ⟨after, last, rfl⟩
  · rw [List.append_nil] at hsplit
    subst hsplit
    obtain rfl := Option.some.inj (hrun.symm.trans hbefore)
    refine ⟨tail, ?_⟩
    rw [← hmore, List.length_map, List.take_length]
    exact hframing
  · rw [List.concat_eq_append, ← List.append_assoc] at hsplit
    obtain ⟨hops, -⟩ := List.append_inj' hsplit rfl
    have hle : (MitmOp.engines before).length ≤ ds.length := by
      have hlen := congrArg List.length hds
      rw [hops, MitmOp.engines, List.filterMap_append, List.length_append, List.length_map] at hlen
      rw [hlen]
      exact Nat.le_add_right _ _
    rw [List.take_append_of_le_length hle]
    exact h before after w₀ hops hbefore

/-- Between the operations of the datapath, all blocked names have been reported. -/
def DotHistory (A : Automaton (Interception σ κ H) MitmOp) (w : Interception σ κ H)
    (ops : List MitmOp) : Prop :=
  A.run ops = some w ∧ ∃ ds s, w.mitm.plaintext = .dns s ∧ s.blocked = [] ∧
    ds.map Prod.fst = MitmOp.engines ops ∧ DotFiltered ds w.blocked w.events s ∧
    Completes A ops ds

omit [ServerSession σ] [TlsSession κ] in
private theorem drain_dns {d : DnsStream H} (hp : w.mitm.plaintext = .dns d) :
    w.drainMitmTransactions = w := by
  have htake : w.mitm.takeTransactions = ([], w.mitm) := by
    simp only [TlsMitm.takeTransactions, hp]
  rw [drainMitmTransactions, htake, List.append_nil]

variable [LawfulServer σ]

variable {m : TlsMitm σ κ H} {ops : List MitmOp}

/-- A drive adds an engine and the messages that are completed under it. -/
theorem DotHistory.drive (h : w.DotHistory (automaton p m) ops) {f : Str → Bool}
    {r : Pumped σ κ H} (hr : w.pump p f = .ok r) {payload : Str → Str × Str}
    (hs : (automaton p m).step w (.drive f payload) = some ((w.pumped r).settle payload)) :
    ((w.pumped r).settle payload).DotHistory (automaton p m) (ops ++ [.drive f payload]) := by
  obtain ⟨hrun, ds, s, hp, -, hds, hf, hcompletes⟩ := h
  have hrun' := Automaton.run_concat hrun hs
  have hdns : w.mitm.isDns = true := by simp only [TlsMitm.isDns, hp]
  have hacts := (pump_acts hr).1
  rw [hdns, if_pos rfl] at hacts
  have hstart : DotDriven ds f w.blocked w.events w.mitm := ⟨[], s, hp, hf.drive f⟩
  obtain ⟨cur, s', hp', hf'⟩ := hacts.invariant (P := DotDriven ds f w.blocked)
    (fun h ha => h.act ha) hstart
  have hdns' : (w.pumped r).mitm.isDns = true := by simp only [pumped, TlsMitm.isDns, hp']
  have htake : (w.pumped r).mitm.takeDnsBlocked =
      (s'.blocked, { r.mitm with plaintext := .dns s'.takeBlocked.2 }) := by
    simp only [pumped, TlsMitm.takeDnsBlocked, hp']
    rfl
  have hsettle : (w.pumped r).settle payload = (w.pumped r).reportBlocked := by
    rw [settle, hdns', if_pos rfl]
    exact drain_dns (d := s'.takeBlocked.2) (by rw [reportBlocked, htake])
  rw [hsettle, reportBlocked, htake] at hrun' ⊢
  have hengines : (ds ++ [(f, cur)]).map Prod.fst = MitmOp.engines (ops ++ [.drive f payload]) := by
    rw [MitmOp.engines_append_drive, List.map_append, hds]
    rfl
  obtain ⟨tail, -, hframing⟩ := hf'.state
  exact ⟨hrun', ds ++ [(f, cur)], s'.takeBlocked.2, rfl, rfl, hengines, hf'.report,
    hcompletes.step hds hengines hrun' hframing⟩

omit [LawfulServer σ] in
/-- Between drives nothing is read. -/
theorem DotHistory.other {op : MitmOp} {s : DnsStream H} {ds : List DotDrive}
    (hrun : (automaton p m).run ops = some w) (hs : (automaton p m).step w op = some w')
    (hop : ∀ f payload, op ≠ .drive f payload) (hp : w'.mitm.plaintext = .dns s)
    (hb : s.blocked = []) (hds : ds.map Prod.fst = MitmOp.engines ops)
    (hf : DotFiltered ds w'.blocked w'.events s) (hcompletes : Completes (automaton p m) ops ds) :
    w'.DotHistory (automaton p m) (ops ++ [op]) := by
  have hrun' := Automaton.run_concat hrun hs
  have hengines : ds.map Prod.fst = MitmOp.engines (ops ++ [op]) := by
    rw [MitmOp.engines_append_other ops hop, hds]
  obtain ⟨tail, -, hframing⟩ := hf.state
  rw [← List.append_nil ds] at hframing
  have hstep := hcompletes.step hds (by rwa [List.append_nil]) hrun' hframing
  rw [List.append_nil] at hstep
  exact ⟨hrun', ds, s, hp, hb, hengines, hf, hstep⟩

theorem DotHistory.step {op : MitmOp} (h : w.DotHistory (automaton p m) ops)
    (hs : (automaton p m).step w op = some w') :
    w'.DotHistory (automaton p m) (ops ++ [op]) := by
  obtain ⟨m', hop, hrecv, -, rfl⟩ | ⟨f, payload, r, rfl, hr, rfl⟩ | ⟨rfl, rfl⟩ :=
    step_cases hs
  · obtain ⟨hrun, ds, s, hp, hb, hds, hf, hcompletes⟩ := h
    exact .other hrun hs hop (hrecv.plaintext.trans hp) hb hds hf hcompletes
  · exact h.drive hr hs
  · obtain ⟨hrun, ds, s, hp, hb, hds, hf, hcompletes⟩ := h
    have hfin : w.mitm.finish = w.mitm := by simp only [TlsMitm.finish, hp]
    have htorn : w.teardown = { w with
        events := w.events ++ [.finished], tornDown := true } := by
      rw [teardown, hfin]
      exact drain_dns (d := s) hp
    have hother : ∀ f payload, MitmOp.teardown ≠ .drive f payload := fun _ _ h => by cases h
    rw [htorn] at hs ⊢
    exact .other hrun hs hother hp hb hds hf.finished hcompletes

/-- In every order of arrivals, drives and the teardown, however the engine changes between drives
and however the app's stream is cut: each message belongs to the drive that completed it, as at
each point of the run the stream so far reads as the messages of the drives so far and an
incomplete tail. It is forwarded as it came unless the engine of that drive blocks its name; the
blocked ones are answered and their names reported, in order, and what the resolver sends is
relayed as it came. -/
theorem splice_filters_dot (p : Profile) (server : σ) (clientConfig : ClientConfig κ)
    {ops : List MitmOp}
    (hrun : (automaton p (.newDns server clientConfig .dot : TlsMitm σ κ H)).run ops = some w) :
    ∃ ds : List DotDrive, ds.map Prod.fst = MitmOp.engines ops ∧
      Completes (automaton p (.newDns server clientConfig .dot : TlsMitm σ κ H)) ops ds ∧
      w.events.flatMap MitmEvent.toUpstream = DotDrive.forwarded ds ∧
      w.events.flatMap MitmEvent.sentBack = DotDrive.answered ds ∧
      w.blocked = DotDrive.sinkholed ds ∧
      ∀ raw out, .fromUpstream raw out ∈ w.events → out = raw := by
  have hempty : DotFraming [] [] [] := ⟨rfl, fun _ h => (by cases h), fun _ _ _ h => by cases h⟩
  have hstart : DotHistory (automaton p (.newDns server clientConfig .dot : TlsMitm σ κ H))
      { mitm := (.newDns server clientConfig .dot : TlsMitm σ κ H) } [] := by
    refine ⟨rfl, [], .new H .dot, rfl, rfl, rfl, ⟨⟨[], rfl, hempty⟩, rfl, rfl, ?_, rfl⟩, ?_⟩
    · exact fun _ _ h => by cases h
    · intro before after w₀ hsplit hbefore
      obtain ⟨rfl, -⟩ := List.append_eq_nil_iff.mp hsplit.symm
      obtain rfl := Option.some.inj hbefore
      exact ⟨[], hempty⟩
  have h := Automaton.runFrom_history (A := automaton p (.newDns server clientConfig .dot : TlsMitm σ κ H))
    (R := DotHistory (automaton p (.newDns server clientConfig .dot)))
    (fun _ _ _ _ h hs => h.step hs) hstart hrun
  obtain ⟨-, ds, s, -, hb, hds, ⟨-, hup, happ, hrelayed, hnames⟩, hcompletes⟩ := h
  rw [hb, List.append_nil] at hnames
  exact ⟨ds, hds, hcompletes, hup, happ, hnames, hrelayed⟩

private def askedName : Bytes :=
  framed ([0x12, 0x34, 1, 0, 0, 1, 0, 0, 0, 0, 0, 0, 3] ++ ascii "ads" ++ [0, 0, 1, 0, 1])

private def under (isBlocked : Str → Bool) : MitmOp := .drive isBlocked fun _ => ([], [])

/-- The same query twice, its second time after the name was blocked. -/
private def lookups : List MitmOp :=
  [.fromApp (PlainSession.record 1 (ascii "a.b")), under fun _ => false,
    .fromUpstream (PlainSession.record 20 []), .fromApp (PlainSession.record 20 []),
    under fun _ => false,
    .fromApp (PlainSession.record 23 (askedName ++ askedName.take 9)), under fun _ => false,
    .fromApp (PlainSession.record 23 (askedName.drop 9)), under (· == Str.lit "ads")]

theorem splice_filters_dot_lookups :
    ∃ w : Interception PlainSession PlainSession literalHpack,
    (automaton .release (.newDns {} PlainSession.clientConfig .dot)).run lookups = some w ∧
      w.events.flatMap MitmEvent.toUpstream = askedName ∧ w.blocked = [Str.lit "ads"] ∧
      ∃ ds : List DotDrive, ds.map Prod.fst = MitmOp.engines lookups ∧
        DotDrive.forwarded ds = askedName ∧ DotDrive.sinkholed ds = [Str.lit "ads"] := by
  have hrun : (((automaton .release (.newDns {} PlainSession.clientConfig .dot)).run lookups).map
      fun w : Interception PlainSession PlainSession literalHpack =>
        (w.events.flatMap MitmEvent.toUpstream, w.blocked)) =
      some (askedName, [Str.lit "ads"]) := by decide +kernel
  obtain ⟨w, hw, hvals⟩ := Option.map_eq_some_iff.mp hrun
  obtain ⟨hup, hblocked⟩ := Prod.mk.inj hvals
  obtain ⟨ds, hds, -, hfwd, -, hnames, -⟩ := splice_filters_dot .release ({} : PlainSession)
    PlainSession.clientConfig hw
  exact ⟨w, hw, hup, hblocked, ds, hds, hfwd.symm.trans hup, hnames.symm.trans hblocked⟩

end Interception

end Adwarden.Tls
