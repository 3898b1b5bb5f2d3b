import Adwarden.Core.FlowKind
import Adwarden.Tls.MitmActs

/-! The deferred classification of port-443 flows, and what it owes to the way the app's bytes are
cut into service passes. -/
namespace Adwarden.Core
open Adwarden.Net Adwarden.Tls Adwarden.Dns

inductive FlowClass where
  | pending
  | doh
  | dropped
  | cosmetic
  | raw
deriving DecidableEq

def FlowKind.flowClass (k : FlowKind) : FlowClass :=
  match k.classify, k.dns with
  | .pendingSni _, _ => .pending
  | .settled, none => .raw
  | .settled, some true => .doh
  | .settled, some false => .cosmetic

def classOfKind : Option FlowKind → FlowClass
  | none => .dropped
  | some k => k.flowClass

variable {σ μ : Type}

/-- What a decision makes of a flow. -/
def Shared.Classification.kind (c : Shared.Classification μ) (uid : ℤ) (server : SocketAddr) :
    Option FlowKind :=
  match c with
  | .doh _ => some ⟨.settled, some true, false, uid, server⟩
  | .blocked => none
  | .cosmetic _ => some ⟨.settled, some false, false, uid, server⟩
  | .raw => some ⟨.settled, none, false, uid, server⟩

namespace Flow

/-- How a flow has been classified. -/
def flowClass [Splice μ] (x : Flow σ μ) : FlowClass := classOfKind x.kind

/-- A deferred flow with these bytes buffered, as `open_tcp` makes it with none. -/
def Awaits [Splice μ] (x : Flow σ μ) (uid : ℤ) (server : SocketAddr) (buf : Bytes) : Prop :=
  x.kind = some ⟨.pendingSni buf, none, false, uid, server⟩

variable [TcpSocket σ] [Splice μ]

/-- Service passes that take these pieces from the app. -/
def passes (h : Shared μ) (x : Flow σ μ) (cut : List Bytes) : Shared μ × Flow σ μ :=
  cut.foldl (fun r data => relayTaken r.1 r.2 data) (h, x)

end Flow

/-- A way of cutting a stream into passes: a pass takes at most a receive buffer. -/
structure IsCut (app : Bytes) (cut : List Bytes) : Prop where
  flatten : cut.flatten = app
  bounded : ∀ data ∈ cut, data.length ≤ tcpRxBuf

/-- What the first pass that decides learns of the server name. -/
def firstPeek : Bytes → List Bytes → Option (Option Str)
  | _, [] => none
  | buf, data :: cut =>
    match peekPending (buf ++ data) with
    | some sni => some sni
    | none => firstPeek (buf ++ data) cut

section Peek

/-- The first record is complete, ends behind the cap on the buffer, and names a DoH host. -/
def OversizedDohHello (app : Bytes) : Prop :=
  ∃ n host, recordEnd app = some n ∧ sniPeekCap + 1 < n ∧ n ≤ app.length ∧
    peekSni app = .found host ∧ isDohHost host = true

theorem peekPending_nil : peekPending [] = none := by decide

theorem peekPending_of_found {b : Bytes} {host : Str} (h : peekSni b = .found host) :
    peekPending b = some (some host) := by
  simp [peekPending, h]

/-- A prefix tells what the whole stream tells, or it is given up, or it has to wait. -/
theorem peekPending_prefix {p app : Bytes} (h : p <+: app) :
    peekPending p = peekPending app ∨
      (peekSni p = .needMore ∧ sniPeekCap < p.length ∧ peekPending p = some none) ∨
      (peekSni p = .needMore ∧ peekPending p = none) := by
  obtain ⟨rest, rfl⟩ := h
  by_cases hp : peekSni p = .needMore
  · right
    by_cases hcap : sniPeekCap < p.length
    · left
      exact ⟨hp, hcap, by simp [peekPending, hp, hcap]⟩
    · right
      exact ⟨hp, by simp [peekPending, hp, hcap]⟩
  · left
    unfold peekPending
    rw [peekSni_append rest hp]
    cases hs : peekSni p with
    | needMore => exact absurd hs hp
    | found host => rfl
    | none => rfl

theorem peekPending_eq_none {b : Bytes} :
    peekPending b = none ↔ peekSni b = .needMore ∧ b.length ≤ sniPeekCap := by
  unfold peekPending
  cases peekSni b with
  | needMore => simp
  | found host => simp
  | none => simp

/-- Cut anyhow, a stream is decided on as a whole would be, or given up. -/
theorem firstPeek_cases {app buf : Bytes} {cut : List Bytes} (hb : peekPending buf = none)
    (h : buf ++ cut.flatten = app) :
    firstPeek buf cut = peekPending app ∨
      (firstPeek buf cut = some none ∧ ∃ p, p <+: app ∧ peekSni p = .needMore ∧
        sniPeekCap < p.length) := by
  induction cut generalizing buf with
  | nil =>
    left
    rw [List.flatten_nil, List.append_nil] at h
    rw [← h, hb]
    rfl
  | cons data cut ih =>
    rw [List.flatten_cons, ← List.append_assoc] at h
    have hpre : buf ++ data <+: app := ⟨cut.flatten, h⟩
    unfold firstPeek
    cases hd : peekPending (buf ++ data) with
    | none => exact ih hd h
    | some sni =>
      rcases peekPending_prefix hpre with hp | ⟨hm, hcap, hp⟩ | ⟨-, hp⟩
      · left
        rw [← hp, hd]
      · right
        rw [hd] at hp
        exact ⟨hp, _, hpre, hm, hcap⟩
      · rw [hd] at hp
        cases hp

/-- A prefix that is given up although the stream names a host cuts a long first record. -/
theorem recordEnd_of_needMore {p app : Bytes} {host : Str} (hpre : p <+: app)
    (hp : peekSni p = .needMore) (hcap : sniPeekCap < p.length)
    (hf : peekSni app = .found host) :
    ∃ n, recordEnd app = some n ∧ sniPeekCap + 1 < n ∧ n ≤ app.length := by
  obtain ⟨rest, rfl⟩ := hpre
  rcases peekSni_eq_needMore.mp hp with h5 | ⟨h0, n, hn, hlt⟩
  · unfold sniPeekCap at hcap
    omega
  · have hna := recordEnd_append rest hn
    refine ⟨n, hna, by omega, ?_⟩
    by_contra hle
    have h0' : (p ++ rest)[0]? = some 0x16 := by
      rw [List.getElem?_append_left (by omega), h0]
    have : peekSni (p ++ rest) = .needMore :=
      peekSni_eq_needMore.mpr (Or.inr ⟨h0', n, hna, Nat.not_le.mp hle⟩)
    rw [this] at hf
    cases hf

theorem firstPeek_cons_of_none {buf data : Bytes} {cut : List Bytes}
    (h : peekPending (buf ++ data) = none) :
    firstPeek buf (data :: cut) = firstPeek (buf ++ data) cut := by
  simp [firstPeek, h]

theorem firstPeek_cons_of_some {buf data : Bytes} {cut : List Bytes} {sni : Option Str}
    (h : peekPending (buf ++ data) = some sni) : firstPeek buf (data :: cut) = some sni := by
  simp [firstPeek, h]

/-- Any bytes can be cut into single ones. -/
theorem isCut_singletons (b : Bytes) : IsCut b (b.map fun c => [c]) where
  flatten := by
    induction b with
    | nil => rfl
    | cons c b ih => simp [ih]
  bounded := by
    intro data hd
    obtain ⟨c, -, rfl⟩ := List.mem_map.mp hd
    simp [tcpRxBuf]

theorem IsCut.cons {app : Bytes} {cut : List Bytes} (h : IsCut app cut) (data : Bytes)
    (hd : data.length ≤ tcpRxBuf) : IsCut (data ++ app) (data :: cut) where
  flatten := by rw [List.flatten_cons, h.flatten]
  bounded := by
    intro d hm
    rcases List.mem_cons.mp hm with rfl | hm
    · exact hd
    · exact h.bounded d hm

/-- A handshake record that is not complete makes the peek wait. -/
theorem peekSni_take {app : Bytes} {n k : ℕ} {host : Str} (hr : recordEnd app = some n)
    (hf : peekSni app = .found host) (h5 : 5 ≤ k) (hk : k < n) (hn : n ≤ app.length) :
    peekSni (app.take k) = .needMore := by
  have h0 : app[0]? = some 0x16 := by
    by_contra hne
    have h5' : ¬ app.length < 5 := by omega
    simp [peekSni, h5', hne] at hf
  have hlen : (app.take k).length = k := by
    rw [List.length_take]
    omega
  obtain ⟨m, hm⟩ := recordEnd_isSome (b := app.take k) (by omega)
  have hmn : m = n := by
    have := recordEnd_append (app.drop k) hm
    rw [List.take_append_drop, hr] at this
    exact (Option.some.inj this).symm
  refine peekSni_eq_needMore.mpr (Or.inr ⟨?_, m, hm, by omega⟩)
  rw [List.getElem?_take_of_lt (by omega), h0]

theorem peekSni_of_prefix {app p : Bytes} {n : ℕ} {host : Str} (hr : recordEnd app = some n)
    (hf : peekSni app = .found host) (hp : p <+: app) (hn : n ≤ p.length) :
    peekSni p = .found host := by
  obtain ⟨rest, rfl⟩ := hp
  by_cases hne : peekSni p = .needMore
  · exfalso
    rcases peekSni_eq_needMore.mp hne with h5 | ⟨-, m, hm, hlt⟩
    · have := (Option.map_eq_some_iff.mp hr)
      obtain ⟨k, -, hk⟩ := this
      omega
    · have := recordEnd_append rest hm
      rw [hr] at this
      obtain rfl := Option.some.inj this
      omega
  · rw [← peekSni_append rest hne, hf]

/-- Such a stream can be cut so that it is given up, and so that it is found out. -/
theorem OversizedDohHello.cuts {app : Bytes} (h : OversizedDohHello app) :
    ∃ cut₁ cut₂ host, IsCut app cut₁ ∧ IsCut app cut₂ ∧ isDohHost host = true ∧
      firstPeek [] cut₁ = some none ∧ firstPeek [] cut₂ = some (some host) := by
  obtain ⟨n, host, hr, hlong, hn, hf, hdoh⟩ := h
  have hn' := recordEnd_le hr
  have hcap : sniPeekCap = 16384 := rfl
  have hbuf : tcpRxBuf = 65536 := rfl
  have hlast (k : ℕ) : IsCut (app.drop k) ((app.drop k).map fun c => [c]) := isCut_singletons _
  refine ⟨app.take (sniPeekCap + 1) :: (app.drop (sniPeekCap + 1)).map fun c => [c],
    app.take sniPeekCap :: (app.drop sniPeekCap).take tcpRxBuf ::
      ((app.drop sniPeekCap).drop tcpRxBuf).map fun c => [c], host, ?_, ?_, hdoh, ?_, ?_⟩
  · have := (hlast (sniPeekCap + 1)).cons (app.take (sniPeekCap + 1)) (by
      rw [List.length_take]
      omega)
    rwa [List.take_append_drop] at this
  · have h2 := (isCut_singletons ((app.drop sniPeekCap).drop tcpRxBuf)).cons
      ((app.drop sniPeekCap).take tcpRxBuf) (List.length_take_le _ _)
    rw [List.take_append_drop] at h2
    have h1 := h2.cons (app.take sniPeekCap) (by
      rw [List.length_take]
      omega)
    rwa [List.take_append_drop] at h1
  · apply firstPeek_cons_of_some
    have hm := peekSni_take hr hf (k := sniPeekCap + 1) (by omega) (by omega) hn
    have hlen : (app.take (sniPeekCap + 1)).length = sniPeekCap + 1 := by
      rw [List.length_take]
      omega
    rw [List.nil_append]
    unfold peekPending
    rw [hm, hlen]
    simp
  · have hm := peekSni_take hr hf (k := sniPeekCap) (by omega) (by omega) hn
    rw [firstPeek_cons_of_none]
    · apply firstPeek_cons_of_some
      apply peekPending_of_found
      apply peekSni_of_prefix hr hf
      · rw [List.nil_append]
        exact ⟨(app.drop sniPeekCap).drop tcpRxBuf, by simp⟩
      · simp only [List.nil_append, List.length_append, List.length_take, List.length_drop]
        omega
    · rw [List.nil_append, peekPending_eq_none]
      exact ⟨hm, List.length_take_le _ _⟩

end Peek

/-- A flow that is classified: spliced, relayed raw, or gone. -/
def Flow.Decided [Splice μ] (x : Flow σ μ) : Prop :=
  ∀ k, x.kind = some k → k.classify = .settled ∧ (k.dns = none → k.httpForward = false)

section Kinds

variable [Splice μ] {h : Shared μ} {x : Flow σ μ} {uid : ℤ} {server : SocketAddr} {buf : Bytes}

theorem Flow.up_of_kind {k : FlowKind} (hx : x.kind = some k) :
    ∃ up, x.up = some up ∧ up.kind = k := Option.map_eq_some_iff.mp hx

theorem Flow.Awaits.isPending (hx : x.Awaits uid server buf) : x.isPending = true := by
  obtain ⟨up, hup, hk⟩ := Flow.up_of_kind hx
  have hc : up.classify = .pendingSni buf := congrArg FlowKind.classify hk
  simp [Flow.isPending, hup, TcpUpstream.isPending, hc]

theorem Flow.Decided.isPending (hx : x.Decided) : x.isPending = false := by
  cases hup : x.up with
  | none => simp [Flow.isPending, hup]
  | some up =>
    have hc : up.classify = .settled := (hx up.kind (by simp [Flow.kind, hup])).1
    simp [Flow.isPending, hup, TcpUpstream.isPending, hc]

theorem Flow.Decided.of_kind {y : Flow σ μ} (hx : x.Decided) (h : y.kind = x.kind) :
    y.Decided := by
  intro k hk
  exact hx k (h ▸ hk)

theorem Flow.decided_of_classification {c : Shared.Classification μ}
    (hx : x.kind = c.kind uid server) : x.Decided := by
  intro k hk
  rw [hx] at hk
  cases c with
  | blocked => cases hk
  | doh m =>
    obtain rfl := Option.some.inj hk
    simp
  | cosmetic m =>
    obtain rfl := Option.some.inj hk
    simp
  | raw =>
    obtain rfl := Option.some.inj hk
    simp

theorem Shared.isDns_dohSplice (ht : ∀ c, h.tls = some c → c.Lawful) {m : μ}
    (hm : h.dohSplice uid server = some m) : Splice.isDns m = true := by
  unfold Shared.dohSplice at hm
  split_ifs at hm
  obtain ⟨c, hc, hm⟩ := Option.bind_eq_some_iff.mp hm
  exact (ht c hc).newSpliceDns _ _ hm

theorem Shared.isDns_cosmeticSplice (ht : ∀ c, h.tls = some c → c.Lawful) {m : μ}
    (hm : h.cosmeticSplice uid server = some m) : Splice.isDns m = false := by
  unfold Shared.cosmeticSplice at hm
  split_ifs at hm
  obtain ⟨c, hc, hm⟩ := Option.bind_eq_some_iff.mp hm
  exact (ht c hc).newSplice _ hm

/-- The splices a decision starts are of the kind it asks for. -/
theorem Shared.classification_isDns (ht : ∀ c, h.tls = some c → c.Lawful) (uid : ℤ)
    (server : SocketAddr) (sni : Option Str) :
    match h.classification uid server sni with
    | .doh m => Splice.isDns m = true
    | .cosmetic m => Splice.isDns m = false
    | _ => True := by
  unfold Shared.classification
  split_ifs
  · cases hm : h.dohSplice uid server with
    | some m => exact Shared.isDns_dohSplice ht hm
    | none => trivial
  · cases hm : h.cosmeticSplice uid server with
    | some m => exact Shared.isDns_cosmeticSplice ht hm
    | none => trivial

omit [Splice μ] in
/-- DoH hosts are filtered or dropped, and nothing else is. -/
theorem Shared.classification_class (h : Shared μ) (uid : ℤ) (server : SocketAddr)
    (sni : Option Str) :
    classOfKind ((h.classification uid server sni).kind uid server) ∈
      if (sni.map isDohHost).getD false then [FlowClass.doh, .dropped] else [.cosmetic, .raw] := by
  unfold Shared.classification
  split_ifs
  · cases h.dohSplice uid server <;>
      simp [Shared.Classification.kind, classOfKind, FlowKind.flowClass]
  · cases h.cosmeticSplice uid server <;>
      simp [Shared.Classification.kind, classOfKind, FlowKind.flowClass]

omit [Splice μ] in
theorem Shared.classification_of_not_doh {host : Str} (hh : isDohHost host = false) :
    h.classification uid server (some host) = h.classification uid server none := by
  simp [Shared.classification, hh]

end Kinds

section Passes

variable [TcpSocket σ] [Splice μ] [LawfulSplice μ] {h : Shared μ} {x : Flow σ μ} {uid : ℤ}
  {server : SocketAddr} {buf : Bytes}

theorem Flow.kind_attach (up : TcpUpstream μ) (m : μ) (buffered : Bytes) :
    (attach h x up m buffered).2.kind =
      some { up.kind with dns := some (Splice.isDns m) } := by
  unfold attach feedAndDrive
  rw [kind_driveMitm]
  exact congrArg some (TcpUpstream.kind_recvFromApp { up with mitm := some m } buffered)

theorem Flow.kind_settle {up : TcpUpstream μ} {sni : Option Str} {buffered : Bytes}
    (ht : ∀ c, h.tls = some c → c.Lawful)
    (hk : up.kind = ⟨.settled, none, false, uid, server⟩) :
    (settle h x up sni buffered).2.kind =
      (h.classification uid server sni).kind uid server := by
  obtain rfl : up.uid = uid := congrArg FlowKind.uid hk
  obtain rfl : up.server = server := congrArg FlowKind.server hk
  have hdns := Shared.classification_isDns ht up.uid up.server sni
  unfold settle
  dsimp only
  cases hc : h.classification up.uid up.server sni with
  | doh m =>
    rw [hc] at hdns
    rw [kind_attach, hk, hdns]
    rfl
  | blocked => rfl
  | cosmetic m =>
    rw [hc] at hdns
    rw [kind_attach, hdns]
    exact congrArg (fun k : FlowKind => some { k with dns := some false }) hk
  | raw => exact congrArg some hk

/-- A pass over a deferred flow keeps it waiting, or carries out the decision. -/
theorem Flow.kind_relayTaken_of_awaits (ht : ∀ c, h.tls = some c → c.Lawful)
    (hx : x.Awaits uid server buf) (data : Bytes) :
    (relayTaken h x data).2.kind =
      match peekPending (buf ++ data) with
      | none => some ⟨.pendingSni (buf ++ data), none, false, uid, server⟩
      | some sni => (h.classification uid server sni).kind uid server := by
  obtain ⟨up, hup, hk⟩ := Flow.up_of_kind hx
  have hc : up.classify = .pendingSni buf := congrArg FlowKind.classify hk
  have hcl : (classifyPending h x data).2.kind =
      match peekPending (buf ++ data) with
      | none => some ⟨.pendingSni (buf ++ data), none, false, uid, server⟩
      | some sni => (h.classification uid server sni).kind uid server := by
    unfold classifyPending
    rw [hup]
    dsimp only
    rw [hc]
    dsimp only
    cases peekPending (buf ++ data) with
    | none => exact congrArg (fun k => some { k with classify := .pendingSni (buf ++ data) }) hk
    | some sni =>
      exact kind_settle ht (congrArg (fun k => { k with classify := .settled }) hk)
  unfold relayTaken
  rw [if_pos hx.isPending]
  dsimp only
  split_ifs <;> simpa using hcl

omit [LawfulSplice μ] in
theorem Flow.tls_relayTaken_of_awaits (hx : x.Awaits uid server buf) {data : Bytes}
    (hp : peekPending (buf ++ data) = none) : (relayTaken h x data).1 = h := by
  obtain ⟨up, hup, hk⟩ := Flow.up_of_kind hx
  have hc : up.classify = .pendingSni buf := congrArg FlowKind.classify hk
  unfold relayTaken
  rw [if_pos hx.isPending]
  unfold classifyPending
  rw [hup]
  dsimp only
  rw [hc]
  dsimp only
  rw [hp]

/-- A pass over a flow that is decided leaves it as it is. -/
theorem Flow.kind_relayTaken_of_decided (hx : x.Decided) (data : Bytes) :
    (relayTaken h x data).2.kind = x.kind := by
  have hstep : (relayAppData h x data).1 = false ∧ (relayAppData h x data).2.2.kind = x.kind := by
    unfold relayAppData
    cases hup : x.up with
    | none => exact ⟨rfl, rfl⟩
    | some up =>
      dsimp only
      cases hm : up.mitm with
      | some m =>
        refine ⟨rfl, (kind_driveMitm _ _).trans ?_⟩
        exact (congrArg some (TcpUpstream.kind_recvFromApp up data)).trans (by simp [kind, hup])
      | none =>
        have hf := (hx up.kind (by simp [kind, hup])).2 (by simp [TcpUpstream.kind, hm])
        have hf' : up.httpForward = none := by simpa [TcpUpstream.kind] using hf
        dsimp only
        split_ifs
        · exact ⟨rfl, rfl⟩
        · rw [hf']
          refine ⟨rfl, ?_⟩
          dsimp only [kind]
          rw [Option.map_map]
          exact kind_observeSni h x data
        · rw [hf']
          refine ⟨rfl, ?_⟩
          dsimp only [kind]
          rw [Option.map_map]
          rfl
  unfold relayTaken
  rw [hx.isPending]
  simp [hstep.1, hstep.2]

theorem Flow.kind_passes_of_decided (hx : x.Decided) (cut : List Bytes) :
    (passes h x cut).2.kind = x.kind := by
  induction cut generalizing h x with
  | nil => rfl
  | cons data cut ih =>
    have hk := kind_relayTaken_of_decided (h := h) hx data
    exact (ih (hx.of_kind hk)).trans hk

/-- The first pass that can decide does, and the flow stays what it makes of it. -/
theorem Flow.flowClass_passes (ht : ∀ c, h.tls = some c → c.Lawful)
    (hx : x.Awaits uid server buf) (cut : List Bytes) :
    (passes h x cut).2.flowClass =
      match firstPeek buf cut with
      | none => .pending
      | some sni => classOfKind ((h.classification uid server sni).kind uid server) := by
  induction cut generalizing x buf with
  | nil => exact congrArg classOfKind hx
  | cons data cut ih =>
    have hk := kind_relayTaken_of_awaits ht hx data
    cases hp : peekPending (buf ++ data) with
    | none =>
      rw [hp] at hk
      have hrest := ih (x := (relayTaken h x data).2) hk
      rw [firstPeek_cons_of_none hp, ← hrest]
      have hh := tls_relayTaken_of_awaits (h := h) hx hp
      change (passes (relayTaken h x data).1 (relayTaken h x data).2 cut).2.flowClass = _
      rw [hh]
    | some sni =>
      rw [hp] at hk
      rw [firstPeek_cons_of_some hp]
      have hd := kind_passes_of_decided (h := (relayTaken h x data).1)
        (decided_of_classification hk) cut
      exact congrArg classOfKind (hd.trans hk)

/-- The classification does not depend on the cut, unless the stream opens with such a hello. -/
theorem Flow.flowClass_passes_of_not_oversized (ht : ∀ c, h.tls = some c → c.Lawful)
    (hx : x.Awaits uid server []) {app : Bytes} (hover : ¬ OversizedDohHello app)
    {cut : List Bytes} (hcut : IsCut app cut) :
    (passes h x cut).2.flowClass =
      match peekPending app with
      | none => .pending
      | some sni => classOfKind ((h.classification uid server sni).kind uid server) := by
  rw [flowClass_passes ht hx]
  rcases firstPeek_cases peekPending_nil (by simpa using hcut.flatten) with
    hp | ⟨hp, p, hpre, hm, hcap⟩
  · rw [hp]
  · rw [hp]
    cases hs : peekSni app with
    | needMore =>
      have hlen : sniPeekCap < app.length := hcap.trans_le hpre.length_le
      simp [peekPending, hs, hlen]
    | none => simp [peekPending, hs]
    | found host =>
      obtain ⟨n, hn, hlong, hle⟩ := recordEnd_of_needMore hpre hm hcap hs
      have hdoh : isDohHost host = false := by
        by_contra hne
        exact hover ⟨n, host, hn, hlong, hle, hs, by simpa using hne⟩
      rw [peekPending_of_found hs]
      dsimp only
      rw [Shared.classification_of_not_doh hdoh]

/-- Such a hello is filtered or dropped in one cut, and not taken for DoH in another. -/
theorem Flow.flowClass_passes_of_oversized (ht : ∀ c, h.tls = some c → c.Lawful)
    (hx : x.Awaits uid server []) {app : Bytes} (hover : OversizedDohHello app) :
    ∃ cut₁ cut₂, IsCut app cut₁ ∧ IsCut app cut₂ ∧
      (passes h x cut₁).2.flowClass ∈ [FlowClass.cosmetic, .raw] ∧
      (passes h x cut₂).2.flowClass ∈ [FlowClass.doh, .dropped] := by
  obtain ⟨cut₁, cut₂, host, h₁, h₂, hdoh, hp₁, hp₂⟩ := hover.cuts
  have c₁ := Shared.classification_class h uid server none
  have c₂ := Shared.classification_class h uid server (some host)
  rw [Option.map_some, Option.getD_some, hdoh, if_pos rfl] at c₂
  refine ⟨cut₁, cut₂, h₁, h₂, ?_, ?_⟩
  · rw [flowClass_passes ht hx, hp₁]
    exact c₁
  · rw [flowClass_passes ht hx, hp₂]
    exact c₂

omit [TcpSocket σ] [LawfulSplice μ] in
/-- A port-443 flow opened under Filter mode waits for its server name. -/
theorem Flow.awaits_openUpstream (hmode : h.encryptedDnsMode = .filter)
    (hport : server.port = httpsPort) {io : UpstreamIo} {token : Token}
    (hx : x.kind = some (h.openUpstream server uid io token).kind) :
    x.Awaits uid server [] := by
  have hd : h.defers server = true := by simp [Shared.defers, hmode, hport]
  have hf : h.openHttpForward server = none := by
    simp [Shared.openHttpForward, hport, httpsPort, httpPort]
  rw [Flow.Awaits, hx]
  simp [TcpUpstream.kind, Shared.openUpstream, Shared.openMitm, hd, hf]

/-- Cut anyhow into service passes, the bytes of a port-443 flow opened under Filter mode are
classified alike, exactly when they do not open with a ClientHello for a DoH host in a record that
ends behind the cap on the buffer. -/
theorem classification_of_cuts_iff (ht : ∀ c, h.tls = some c → c.Lawful)
    (hmode : h.encryptedDnsMode = .filter) (hport : server.port = httpsPort) {io : UpstreamIo}
    {token : Token} (hx : x.kind = some (h.openUpstream server uid io token).kind) (app : Bytes) :
    (∀ cut₁ cut₂, IsCut app cut₁ → IsCut app cut₂ →
      (Flow.passes h x cut₁).2.flowClass = (Flow.passes h x cut₂).2.flowClass) ↔
      ¬ OversizedDohHello app := by
  have hx := Flow.awaits_openUpstream hmode hport hx
  constructor
  · intro hsame hover
    obtain ⟨cut₁, cut₂, h₁, h₂, c₁, c₂⟩ := Flow.flowClass_passes_of_oversized ht hx hover
    rw [hsame cut₁ cut₂ h₁ h₂] at c₁
    generalize (Flow.passes h x cut₂).2.flowClass = c at c₁ c₂
    cases c <;> simp at c₁ c₂
  · intro hover cut₁ cut₂ h₁ h₂
    rw [Flow.flowClass_passes_of_not_oversized ht hx hover h₁,
      Flow.flowClass_passes_of_not_oversized ht hx hover h₂]

end Passes

section Instances

/-- A forwarder in Filter mode, without a CA and without rules. -/
def filterShared : Shared PlainSplice where
  engine := none
  encryptedDnsMode := .filter
  firewall := .new
  proxy := none
  httpForward80 := false
  tls := none
  pinned := []
  cosmeticElementHiding := false
  cosmeticScriptlets := false
  routes := ∅
  batcher := []
  now := 0

def webServer : SocketAddr := ⟨ip4 203 0 113 7, httpsPort⟩

/-- A flow to port 443 as it is opened. -/
def openedFlow : Flow PlainSocket PlainSplice where
  socket := some (.fresh tcpTxBuf)
  up := some (filterShared.openUpstream webServer 10001 (.dialed false) 16)
  calls := []

abbrev PlainMitm := TlsMitm PlainSession PlainSession literalHpack

/-- What a CA allows, where every session can be started. -/
def plainConfigs : TlsMitm.Configs PlainSession PlainSession where
  serverConfig := some {}
  clientConfig := PlainSession.clientConfig
  serverConfigDoh := some {}
  clientConfigDoh := PlainSession.clientConfig

/-- The forwarder in Filter mode with a CA. -/
def caShared : Shared PlainMitm where
  engine := none
  encryptedDnsMode := .filter
  firewall := .new
  proxy := none
  httpForward80 := false
  tls := some (plainConfigs.splices literalHpack)
  pinned := []
  cosmeticElementHiding := false
  cosmeticScriptlets := false
  routes := ∅
  batcher := []
  now := 0

/-- A flow to port 443 as it is opened there. -/
def caFlow : Flow PlainSocket PlainMitm where
  socket := some (.fresh tcpTxBuf)
  up := some (caShared.openUpstream webServer 10001 (.dialed false) 16)
  calls := []

/-- A ClientHello for `dns.google`. -/
def dohHello : Bytes :=
  [0x16, 3, 1, 0, 0x42, 1, 0, 0, 0x3E, 3, 3] ++ List.replicate 32 0 ++
    [0, 0, 2, 0x13, 0x01, 1, 0, 0, 0x13, 0, 0, 0, 15, 0, 13, 0, 0, 10] ++ ascii "dns.google"

/-- It makes a DoH splice of the flow, in one pass and in three. -/
theorem classification_of_cuts_two :
    (Flow.passes caShared caFlow [dohHello]).2.flowClass =
        (Flow.passes caShared caFlow
          [dohHello.take 3, (dohHello.drop 3).take 50, dohHello.drop 53]).2.flowClass ∧
      (Flow.passes caShared caFlow [dohHello]).2.flowClass = .doh := by
  have hlawful : ∀ c, caShared.tls = some c → c.Lawful := by
    intro c h
    obtain rfl := Option.some.inj h
    exact plainConfigs.splices_lawful literalHpack
  have hx : caFlow.kind = some (caShared.openUpstream webServer 10001 (.dialed false) 16).kind :=
    rfl
  have hshort : ¬ OversizedDohHello dohHello := by
    rintro ⟨n, host, hn, hlong, -⟩
    have hend : recordEnd dohHello = some 71 := by decide
    obtain rfl : 71 = n := Option.some.inj (hend.symm.trans hn)
    exact absurd hlong (by decide)
  constructor
  · refine (classification_of_cuts_iff hlawful rfl rfl hx dohHello).mpr hshort
      _ _ ⟨rfl, ?_⟩ ⟨rfl, ?_⟩ <;> decide
  · decide +kernel

/-- A ClientHello for `dns.google`, padded to a record of the largest size TLS allows. -/
def largeHello : Bytes :=
  [0x16, 3, 1, 0x40, 0x00, 0x01, 0x00, 0x3F, 0xFC, 3, 3] ++ List.replicate 32 0 ++
    [0, 0, 2, 0x13, 0x01, 1, 0, 0x3F, 0xD1, 0, 0, 0, 15, 0, 13, 0, 0, 10] ++ ascii "dns.google" ++
    [0, 0x15, 0x3F, 0xBA] ++ List.replicate 16314 0

theorem peekSni_largeHello : peekSni largeHello = .found (Str.lit "dns.google") := by
  decide +kernel

theorem oversized_largeHello : OversizedDohHello largeHello := by
  refine ⟨16389, Str.lit "dns.google", by decide +kernel, by decide, ?_, peekSni_largeHello,
    by decide +kernel⟩
  decide +kernel

/-- Two cuts of it are classified differently. -/
theorem largeHello_evades_filter :
    ¬ ∀ cut₁ cut₂, IsCut largeHello cut₁ → IsCut largeHello cut₂ →
      (Flow.passes filterShared openedFlow cut₁).2.flowClass =
        (Flow.passes filterShared openedFlow cut₂).2.flowClass := by
  intro hsame
  have hx : openedFlow.Awaits 10001 webServer [] := rfl
  obtain ⟨cut₁, cut₂, h₁, h₂, c₁, c₂⟩ :=
    Flow.flowClass_passes_of_oversized (h := filterShared) (by simp [filterShared]) hx
      oversized_largeHello
  rw [hsame cut₁ cut₂ h₁ h₂] at c₁
  generalize (Flow.passes filterShared openedFlow cut₂).2.flowClass = c at c₁ c₂
  cases c <;> simp at c₁ c₂

end Instances

end Adwarden.Core
