import Adwarden.Tls.DnsStream

/-! DoT filtering is exact: blocked messages are answered, the others forwarded, in order and
whatever the cut of the client stream. -/
namespace Adwarden.Tls
open Adwarden.Lib Adwarden.Dns

variable {H : Hpack} {isBlocked : Str → Bool}

/-- The question of a message whose name is blocked. -/
def blockedQuestion (isBlocked : Str → Bool) (m : Bytes) : Option Question :=
  (parseQuery m).filter fun q => isBlocked q.name

def nxdomainFrame (isBlocked : Str → Bool) (m : Bytes) : Bytes :=
  match blockedQuestion isBlocked m with
  | some q => framed (synthesizeNxdomain m q)
  | none => []

variable (isBlocked) in
theorem dotMessage_framed {m : Bytes} (hm : m.length ≤ 65535) :
    dotMessage isBlocked (framed m) =
      match blockedQuestion isBlocked m with
      | some q => (framed (synthesizeNxdomain m q)).map .app ++ [.blocked q.name]
      | none => (framed m).map .upstream := by
  have hd : (framed m).drop 2 = m := rfl
  simp only [dotMessage, blockedQuestion, hd]
  cases hq : parseQuery m with
  | none => rfl
  | some q =>
    have hlen : (synthesizeNxdomain m q).length ≤ 65535 := by
      rw [synthesizeNxdomain_length hq]
      exact (parseQuery_bounds hq).2.trans hm
    cases hb : isBlocked q.name with
    | true => simp [Option.filter, hb, pushFramed_eq hlen]
    | false => simp [Option.filter, hb]

variable (isBlocked) in
/-- What a run over whole messages emits, read on each of the three outputs. -/
theorem dotMessages_cross {msgs : List Bytes} (hs : ∀ m ∈ msgs, m.length ≤ 65535) :
    DnsEmit.cross (msgs.flatMap fun m => dotMessage isBlocked (framed m)) =
        { toUpstream := (msgs.filter fun m => (blockedQuestion isBlocked m).isNone).flatMap framed
          toApp := msgs.flatMap (nxdomainFrame isBlocked) } ∧
      DnsEmit.names (msgs.flatMap fun m => dotMessage isBlocked (framed m)) =
        (msgs.filterMap (blockedQuestion isBlocked)).map Question.name := by
  induction msgs with
  | nil => exact ⟨rfl, rfl⟩
  | cons m msgs ih =>
    obtain ⟨hc, hn⟩ := ih fun m hm => hs m (by simp [hm])
    simp only [DnsEmit.cross, DnsCross.mk.injEq] at hc
    have hm := dotMessage_framed isBlocked (hs m (by simp))
    cases hq : blockedQuestion isBlocked m with
    | none =>
      rw [hq] at hm
      simp [DnsEmit.cross, hm, hc, hn, hq, nxdomainFrame]
    | some q =>
      rw [hq] at hm
      simp [DnsEmit.cross, hm, hc, hn, hq, nxdomainFrame]

theorem dotFeeder_passthrough {s : Dot} (hs : s.passthrough = false) :
    ((dotFeeder isBlocked).run s).2.passthrough = false :=
  (dotFeeder isBlocked).run_invariant (P := fun _ s => s.passthrough = false) (o := []) hs
    fun _ _ _ _ _ h => by
      obtain ⟨-, _, -, -, hp, -⟩ := dotStep_some h
      exact hp

variable (isBlocked) in
/-- The calls of the stream are the feeds of the loop. -/
theorem onAppPieces_dot (p : Profile) (pieces : List Bytes) (blocked : List Str) {dot : Dot}
    (hd : dot.passthrough = false) :
    DnsStream.onAppPieces p isBlocked { blocked, inner := .dot dot : DnsStream H } pieces =
      .ok (DnsEmit.cross ((dotFeeder isBlocked).feeds dot pieces).1,
        { blocked := blocked ++ DnsEmit.names ((dotFeeder isBlocked).feeds dot pieces).1
          inner := .dot ((dotFeeder isBlocked).feeds dot pieces).2 }) := by
  induction pieces generalizing dot blocked with
  | nil => simp [DnsStream.onAppPieces, Feeder.feeds, DnsEmit.cross]
  | cons d ds ih =>
    have hp : ((dotFeeder isBlocked).feed dot d).2.passthrough = false := dotFeeder_passthrough hd
    have hon : dot.onAppData isBlocked d = (dotFeeder isBlocked).feed dot d := by
      simp [Dot.onAppData, hd]
    simp only [DnsStream.onAppPieces, DnsStream.onAppData, hon, Feeder.feeds]
    rw [ih _ hp]
    simp [DnsEmit.cross, Except.map]

/-- However the client stream is cut, it reads as messages and an incomplete tail; the messages
that do not parse or are not blocked go upstream as they came, the others are answered, and only
the tail is kept. -/
theorem dot_filter_exact (p : Profile) (isBlocked : Str → Bool) (pieces : List Bytes) :
    (∃ msgs tail, DotFraming pieces.flatten msgs tail) ∧
    ∀ msgs tail, DotFraming pieces.flatten msgs tail →
      ∃ s : DnsStream H,
        (DnsStream.new H .dot).onAppPieces p isBlocked pieces =
          .ok ({ toUpstream :=
                  (msgs.filter fun m => (blockedQuestion isBlocked m).isNone).flatMap framed
                 toApp := msgs.flatMap (nxdomainFrame isBlocked) }, s) ∧
        s.takeBlocked.1 = (msgs.filterMap (blockedQuestion isBlocked)).map Question.name ∧
        s.inner = .dot { appBuf := tail, passthrough := false } := by
  refine ⟨DotFraming.exists _, fun msgs tail h => ?_⟩
  have h0 : (dotFeeder isBlocked).step {} = none := rfl
  have hf : (dotFeeder isBlocked).feeds {} pieces =
      (msgs.flatMap fun m => dotMessage isBlocked (framed m), ⟨tail, false⟩) := by
    rw [dotFeeder_incremental.feeds_eq h0, ← dot_run_framing h]
    rfl
  obtain ⟨hc, hn⟩ := dotMessages_cross isBlocked h.short
  have hrun := @onAppPieces_dot H isBlocked p pieces [] {} rfl
  rw [hf] at hrun
  dsimp only at hrun
  rw [hc, hn] at hrun
  exact ⟨_, hrun, rfl, rfl⟩

private def queryFor (label : Bytes) : Bytes :=
  [0x12, 0x34, 1, 0, 0, 1, 0, 0, 0, 0, 0, 0, UInt8.ofNat label.length] ++ label ++
    [0, 0, 1, 0, 1]

/-- A blocked and an allowed query and the start of a third, cut inside both length prefixes. -/
theorem dot_filter_exact_two :
    ∃ s : DnsStream literalHpack,
      (DnsStream.new literalHpack .dot).onAppPieces .release (· == Str.lit "ads")
        [[0], 21 :: queryFor (ascii "ads") ++ [0], 21 :: queryFor (ascii "org") ++ [0, 9, 1]] =
          .ok ({ toUpstream := [0, 21] ++ queryFor (ascii "org")
                 toApp := [0, 21, 0x12, 0x34, 0x81, 0x83, 0, 1, 0, 0, 0, 0, 0, 0, 3, 97, 100, 115,
                  0, 0, 1, 0, 1] }, s) ∧
      s.takeBlocked.1 = [Str.lit "ads"] ∧
      s.inner = .dot { appBuf := [0, 9, 1], passthrough := false } := by
  have h : DotFraming [[0], 21 :: queryFor (ascii "ads") ++ [0],
      21 :: queryFor (ascii "org") ++ [0, 9, 1]].flatten
      [queryFor (ascii "ads"), queryFor (ascii "org")] [0, 9, 1] := by
    refine ⟨by decide, by decide, ?_⟩
    rintro hi lo rest ⟨⟩
    decide
  obtain ⟨s, hs, hb, hi⟩ := (dot_filter_exact .release (· == Str.lit "ads") _).2 _ _ h
  exact ⟨s, hs.trans (congrArg (fun c => Except.ok (c, s)) (by decide)), hb.trans (by decide), hi⟩

end Adwarden.Tls
