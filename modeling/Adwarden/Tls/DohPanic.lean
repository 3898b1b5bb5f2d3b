import Adwarden.Tls.DnsStream

/-! The request streams on which the HTTP/1.1 side of the DoH filter panics. -/
namespace Adwarden.Tls
open Adwarden.Lib

variable {H : Hpack} {p : Profile} {isBlocked : Str → Bool}

variable (p isBlocked) in
theorem h1Feeder_run_passthrough {s : H1Side} (hs : s.h1Passthrough = true) :
    (h1Feeder p isBlocked).run ⟨s, none⟩ = (s.appBuf.map .upstream, ⟨{ s with appBuf := [] }, none⟩) := by
  have hend : (h1Feeder p isBlocked).step ⟨{ s with appBuf := [] }, none⟩ = none := by
    simp [h1Feeder, h1Step, hs]
  by_cases hb : s.appBuf = []
  · rw [← hb] at hend
    simp [(h1Feeder p isBlocked).run_none hend, hb]
  · have hstep : (h1Feeder p isBlocked).step ⟨s, none⟩ =
        some (s.appBuf.map .upstream, ⟨{ s with appBuf := [] }, none⟩) := by
      simp [h1Feeder, h1Step, hs, hb]
    rw [(h1Feeder p isBlocked).run_some hstep, (h1Feeder p isBlocked).run_none hend]
    simp

/-- The iterations of a filter that is not in passthrough. -/
theorem h1Step_some {s : H1Side} {s' : H1Loop} {o : List DnsEmit} (hs : s.h1Passthrough = false)
    (h : h1Step p isBlocked ⟨s, none⟩ = some (o, s')) :
    ∃ hend, findHeaderEnd s.appBuf = some hend ∧
      ((h1Head (s.appBuf.take hend) = none ∧ o = [] ∧
          s' = ⟨{ s with h1Passthrough := true }, none⟩) ∨
      ∃ hd, h1Head (s.appBuf.take hend) = some hd ∧
        ((usizeSize ≤ hend + hd.bodyLen ∧ o = [] ∧ s' = ⟨s, some (oversizedPanic p)⟩) ∨
        (hend + hd.bodyLen < usizeSize ∧ hend + hd.bodyLen ≤ s.appBuf.length ∧
          o = h1Request isBlocked hd.method hd.target (h1ContentType hd.headers)
            ((s.appBuf.take (hend + hd.bodyLen)).drop hend) (s.appBuf.take (hend + hd.bodyLen)) ∧
          s' = ⟨{ s with
            appBuf := s.appBuf.drop (hend + hd.bodyLen)
            authority := learnAuthority s.authority hd.headers }, none⟩))) := by
  cases he : findHeaderEnd s.appBuf with
  | none => simp [h1Step, hs, he] at h
  | some hend =>
    refine ⟨hend, rfl, ?_⟩
    cases hh : h1Head (s.appBuf.take hend) with
    | none =>
      rw [h1Step_passthrough hs he hh] at h
      simp only [Option.some.injEq, Prod.mk.injEq] at h
      exact Or.inl ⟨rfl, h.1.symm, h.2.symm⟩
    | some hd =>
      refine Or.inr ⟨hd, rfl, ?_⟩
      by_cases hfit : hend + hd.bodyLen < usizeSize
      · by_cases hlen : hend + hd.bodyLen ≤ s.appBuf.length
        · rw [h1Step_fits p isBlocked hs he hh hfit hlen] at h
          simp only [Option.some.injEq, Prod.mk.injEq] at h
          exact Or.inr ⟨hfit, hlen, h.1.symm, h.2.symm⟩
        · rw [h1Step_of_head hs he, h1Iteration_fits he hh hfit, if_pos (Nat.not_le.mp hlen)] at h
          simp at h
      · rw [h1Step_oversized hs he hh (Nat.not_lt.mp hfit)] at h
        simp only [Option.some.injEq, Prod.mk.injEq] at h
        exact Or.inl ⟨Nat.not_lt.mp hfit, h.1.symm, h.2.symm⟩

/-- An iteration is determined by the bytes of its own request. -/
theorem h1Step_append {s : H1Side} {s' : H1Loop} {o : List DnsEmit} (hs : s.h1Passthrough = false)
    (h : h1Step p isBlocked ⟨s, none⟩ = some (o, s')) (b : Bytes) :
    h1Step p isBlocked ⟨{ s with appBuf := s.appBuf ++ b }, none⟩ =
      some (o, (h1Feeder p isBlocked).ext s' b) := by
  obtain ⟨hend, he, hcase⟩ := h1Step_some hs h
  have hle := (findHeaderEnd_le he).2
  have he' : findHeaderEnd { s with appBuf := s.appBuf ++ b }.appBuf = some hend :=
    findHeaderEnd_append b he
  have ht : (s.appBuf ++ b).take hend = s.appBuf.take hend := List.take_append_of_le_length hle
  rcases hcase with ⟨hh, rfl, rfl⟩ | ⟨hd, hh, ⟨hbig, rfl, rfl⟩ | ⟨hfit, hlen, rfl, rfl⟩⟩
  · rw [← ht] at hh
    exact h1Step_passthrough (s := { s with appBuf := s.appBuf ++ b }) hs he' hh
  · rw [← ht] at hh
    exact h1Step_oversized (s := { s with appBuf := s.appBuf ++ b }) hs he' hh hbig
  · rw [← ht] at hh
    have hlen' : hend + hd.bodyLen ≤ (s.appBuf ++ b).length := by
      rw [List.length_append]
      omega
    rw [h1Step_fits p isBlocked (s := { s with appBuf := s.appBuf ++ b }) hs he' hh hfit hlen']
    simp only [List.take_append_of_le_length hlen, List.drop_append_of_le_length hlen]
    rfl

theorem h1Feeder_incremental : (h1Feeder p isBlocked).Incremental := by
  intro s o s' b h
  obtain ⟨s, panic⟩ := s
  cases panic with
  | some e => simp [h1Feeder, h1Step] at h
  | none =>
    cases hs : s.h1Passthrough with
    | false => exact (h1Feeder p isBlocked).run_ext_of_step (h1Step_append hs h b)
    | true =>
      by_cases hb : s.appBuf = []
      · simp [h1Feeder, h1Step, hs, hb] at h
      · have hstep : (h1Feeder p isBlocked).step ⟨s, none⟩ =
            some (s.appBuf.map .upstream, ⟨{ s with appBuf := [] }, none⟩) := by
          simp [h1Feeder, h1Step, hs, hb]
        rw [hstep] at h
        simp only [Option.some.injEq, Prod.mk.injEq] at h
        obtain ⟨rfl, rfl⟩ := h
        have hleft := h1Feeder_run_passthrough p isBlocked
          (s := { s with appBuf := s.appBuf ++ b }) hs
        have hright := h1Feeder_run_passthrough p isBlocked
          (s := { s with appBuf := b }) hs
        simp only [h1Feeder] at hleft hright ⊢
        simp [hleft, hright]

/-- The stream, read request after request up to the first head that is not followed, reaches a
head whose length and `Content-Length` together do not fit in `usize`. -/
inductive Oversized : Bytes → Prop
  | here {b : Bytes} {hend : ℕ} {h : H1Head} (he : findHeaderEnd b = some hend)
      (hh : h1Head (b.take hend) = some h) (hbig : usizeSize ≤ hend + h.bodyLen) : Oversized b
  | next {b : Bytes} {hend : ℕ} {h : H1Head} (he : findHeaderEnd b = some hend)
      (hh : h1Head (b.take hend) = some h) (hlen : hend + h.bodyLen ≤ b.length)
      (hrest : Oversized (b.drop (hend + h.bodyLen))) : Oversized b

theorem Oversized.head {b : Bytes} (h : Oversized b) :
    ∃ hend hd, findHeaderEnd b = some hend ∧ h1Head (b.take hend) = some hd ∧
      (usizeSize ≤ hend + hd.bodyLen ∨
        hend + hd.bodyLen ≤ b.length ∧ Oversized (b.drop (hend + hd.bodyLen))) := by
  cases h with
  | here he hh hbig => exact ⟨_, _, he, hh, Or.inl hbig⟩
  | next he hh hlen hrest => exact ⟨_, _, he, hh, Or.inr ⟨hlen, hrest⟩⟩

variable (p isBlocked) in
/-- One run panics exactly on an oversized buffer. -/
theorem h1Feeder_run_panic (s : H1Side) (hs : s.h1Passthrough = false) :
    ((h1Feeder p isBlocked).run ⟨s, none⟩).2.panic.isSome ↔ Oversized s.appBuf := by
  suffices ∀ l : H1Loop, ∀ s, l = ⟨s, none⟩ → s.h1Passthrough = false →
      (((h1Feeder p isBlocked).run l).2.panic.isSome ↔ Oversized s.appBuf) from this _ s rfl hs
  intro l
  refine (h1Feeder p isBlocked).run_induction (P := fun l r => ∀ s, l = ⟨s, none⟩ →
    s.h1Passthrough = false → (r.2.panic.isSome ↔ Oversized s.appBuf)) l ?_ ?_
  · rintro _ hnone s rfl hs
    simp only [Option.isSome_none, Bool.false_eq_true, false_iff]
    intro ho
    obtain ⟨hend, hd, he, hh, hcase⟩ := ho.head
    have hstep : h1Step p isBlocked ⟨s, none⟩ = none := hnone
    by_cases hfit : hend + hd.bodyLen < usizeSize
    · have hlen := (hcase.resolve_left (Nat.not_le.mpr hfit)).1
      simp [h1Step_fits p isBlocked hs he hh hfit hlen] at hstep
    · simp [h1Step_oversized hs he hh (Nat.not_lt.mp hfit)] at hstep
  · rintro _ o l' hstep ih s rfl hs
    obtain ⟨hend, he, hcase⟩ := h1Step_some hs hstep
    rcases hcase with ⟨hh, rfl, rfl⟩ | ⟨hd, hh, ⟨hbig, rfl, rfl⟩ | ⟨hfit, hlen, rfl, rfl⟩⟩
    · rw [h1Feeder_run_passthrough p isBlocked rfl]
      simp only [Option.isSome_none, Bool.false_eq_true, false_iff]
      intro ho
      obtain ⟨hend', hd, he', hh', -⟩ := ho.head
      obtain rfl : hend = hend' := by simpa [he] using he'
      simp [hh] at hh'
    · have hstop : (h1Feeder p isBlocked).step ⟨s, some (oversizedPanic p)⟩ = none := by
        simp [h1Feeder, h1Step]
      rw [(h1Feeder p isBlocked).run_none hstop]
      simpa using Oversized.here he hh hbig
    · rw [ih _ rfl hs]
      refine ⟨Oversized.next he hh hlen, fun ho => ?_⟩
      obtain ⟨hend', hd', he', hh', hcase⟩ := ho.head
      obtain rfl : hend = hend' := by simpa [he] using he'
      obtain rfl : hd = hd' := by simpa [hh] using hh'
      exact (hcase.resolve_left (Nat.not_le.mpr hfit)).2

/-- Once decided, the protocol stays as it is when more bytes arrive. -/
theorem decideProto_append {b : Bytes} {proto : Proto} (h : decideProto b = some proto)
    (x : Bytes) : decideProto (b ++ x) = some proto := by
  unfold decideProto at h ⊢
  have hlen : (b ++ x).length = b.length + x.length := List.length_append
  split_ifs at h with hle heq hpre
  · rw [if_pos (by omega), List.take_append_of_le_length hle, if_pos heq, ← h]
  · rw [if_pos (by omega), List.take_append_of_le_length hle, if_neg heq, ← h]
  · split_ifs with h1 h2 h3
    · refine absurd ?_ hpre
      rw [← h2, List.take_append, List.take_of_length_le (by omega)]
      exact List.prefix_append _ _
    · exact h
    · exact absurd ((List.prefix_append b x).trans h3) hpre
    · exact h

variable (isBlocked) in
theorem Doh.h2Feed_proto (d : Doh H) (data : Bytes) :
    (d.h2Feed isBlocked data).2.proto = d.proto := by
  unfold Doh.h2Feed
  split
  · rfl
  · dsimp only
    split_ifs <;> rfl

variable (p isBlocked) in
theorem onAppPieces_h2 (pieces : List Bytes) (blocked : List Str) {d : Doh H}
    (hd : d.proto = .h2) :
    ∃ r, DnsStream.onAppPieces p isBlocked { blocked, inner := .doh d } pieces = .ok r := by
  induction pieces generalizing d blocked with
  | nil => exact ⟨_, rfl⟩
  | cons x xs ih =>
    obtain ⟨r, hr⟩ := ih (blocked ++ DnsEmit.names (d.h2Feed isBlocked x).1)
      ((d.h2Feed_proto isBlocked x).trans hd)
    simp [DnsStream.onAppPieces, DnsStream.onAppData, Doh.onAppData, hd, Except.map, hr]

theorem h1Feeder_feeds_panicked (s : H1Side) (e : Panic) (ds : List Bytes) :
    ((h1Feeder p isBlocked).feeds ⟨s, some e⟩ ds).2.panic = some e := by
  induction ds generalizing s with
  | nil => rfl
  | cons d ds ih =>
    have hstop : (h1Feeder p isBlocked).step ((h1Feeder p isBlocked).ext ⟨s, some e⟩ d) = none := by
      simp [h1Feeder, h1Step]
    rw [Feeder.feeds, Feeder.feed, (h1Feeder p isBlocked).run_none hstop]
    exact ih _

/-- The calls of a stream whose client speaks HTTP/1.1 are the feeds of its loop. -/
theorem onAppPieces_h1 (pieces : List Bytes) (blocked : List Str) (d : Doh H) (s : H1Side) :
    DnsStream.onAppPieces p isBlocked
        { blocked, inner := .doh { d with toH1Side := s, proto := .h1 } } pieces =
      match ((h1Feeder p isBlocked).feeds ⟨s, none⟩ pieces).2.panic with
      | some e => .error e
      | none => .ok (DnsEmit.cross ((h1Feeder p isBlocked).feeds ⟨s, none⟩ pieces).1,
          { blocked := blocked ++ DnsEmit.names ((h1Feeder p isBlocked).feeds ⟨s, none⟩ pieces).1
            inner := .doh { d with
              toH1Side := ((h1Feeder p isBlocked).feeds ⟨s, none⟩ pieces).2.side
              proto := .h1 } }) := by
  induction pieces generalizing s blocked with
  | nil => simp [DnsStream.onAppPieces, Feeder.feeds, DnsEmit.cross]
  | cons x xs ih =>
    simp only [DnsStream.onAppPieces, DnsStream.onAppData, Doh.onAppData, Doh.h1Feed,
      H1Side.h1Feed, Feeder.feeds]
    obtain ⟨⟨o, s', panic⟩, hr⟩ :
      ∃ r, (h1Feeder p isBlocked).feed ⟨s, none⟩ x = r := ⟨_, rfl⟩
    rw [hr]
    cases panic with
    | some e => simp [Except.map, h1Feeder_feeds_panicked]
    | none =>
      simp only [Except.map]
      rw [ih _ s']
      cases ((h1Feeder p isBlocked).feeds ⟨s', none⟩ xs).2.panic with
      | some e => rfl
      | none => simp [DnsEmit.cross]

variable (p isBlocked) in
/-- A run followed by further feeds panics exactly on an oversized stream. -/
theorem h1Feeder_feeds_panic (b : Bytes) (pieces : List Bytes) :
    ((h1Feeder p isBlocked).feeds ((h1Feeder p isBlocked).run ⟨{ appBuf := b }, none⟩).2
      pieces).2.panic.isSome ↔ Oversized (b ++ pieces.flatten) := by
  have hrun := h1Feeder_incremental.run_feeds (F := h1Feeder p isBlocked)
    ⟨{ appBuf := b }, none⟩ pieces
  have hpanic := h1Feeder_run_panic p isBlocked
    { appBuf := b ++ pieces.flatten } rfl
  change (h1Feeder p isBlocked).run ⟨{ appBuf := b ++ pieces.flatten }, none⟩ = _ at hrun
  rw [hrun] at hpanic
  exact hpanic

/-- While the protocol is undecided all bytes are kept. -/
theorem onAppPieces_undecided (pieces : List Bytes) (b : Bytes) (hb : decideProto b = none) :
    (∃ r, DnsStream.onAppPieces p isBlocked
      { inner := .doh { appBuf := b } : DnsStream H } pieces = .ok r) ↔
      ¬ (decideProto (b ++ pieces.flatten) = some .h1 ∧ Oversized (b ++ pieces.flatten)) := by
  induction pieces generalizing b with
  | nil => simp [DnsStream.onAppPieces, hb]
  | cons x xs ih =>
    rw [List.flatten_cons, ← List.append_assoc]
    cases hx : decideProto (b ++ x) with
    | none =>
      have hon : DnsStream.onAppData p isBlocked { inner := .doh { appBuf := b } : DnsStream H } x =
          .ok ({}, { inner := .doh { appBuf := b ++ x } }) := by
        simp [DnsStream.onAppData, Doh.onAppData, hx, Except.map, DnsEmit.cross]
      rw [← ih _ hx, DnsStream.onAppPieces, hon]
      dsimp only
      cases DnsStream.onAppPieces p isBlocked { inner := .doh { appBuf := b ++ x } } xs <;>
        simp [Except.map]
    | some proto =>
      rw [decideProto_append hx]
      cases proto with
      | undecided =>
        unfold decideProto at hx
        split_ifs at hx <;> simp at hx
      | h2 =>
        obtain ⟨r, hr⟩ := onAppPieces_h2 p isBlocked xs
          (DnsEmit.names
            (Doh.h2Feed isBlocked { proto := .h2, h2 := some {} : Doh H } (b ++ x)).1)
          (Doh.h2Feed_proto isBlocked { proto := .h2, h2 := some {} : Doh H } (b ++ x))
        simp [DnsStream.onAppPieces, DnsStream.onAppData, Doh.onAppData, hx, Except.map, hr]
      | h1 =>
        rw [← h1Feeder_feeds_panic p isBlocked]
        simp only [DnsStream.onAppPieces, DnsStream.onAppData, Doh.onAppData, hx, Doh.h1Feed,
          H1Side.h1Feed, Feeder.feed, Feeder.ext_nil]
        obtain ⟨⟨o, s, panic⟩, hr⟩ :
          ∃ r, (h1Feeder p isBlocked).run ⟨{ appBuf := b ++ x }, none⟩ = r := ⟨_, rfl⟩
        rw [hr]
        cases panic with
        | some e => simp [Except.map, h1Feeder_feeds_panicked]
        | none =>
          simp only [Except.map]
          rw [onAppPieces_h1 xs _ {} s]
          cases ((h1Feeder p isBlocked).feeds ⟨s, none⟩ xs).2.panic <;> simp

/-- The calls return, without an overflow and with every slice and drain in bounds, exactly when
the HTTP/1.1 stream declares no request whose end is out of range. -/
theorem doh_no_panic_iff (p : Profile) (isBlocked : Str → Bool) (pieces : List Bytes) :
    (∃ r, (DnsStream.new H .doh).onAppPieces p isBlocked pieces = .ok r) ↔
      ¬ (decideProto pieces.flatten = some .h1 ∧ Oversized pieces.flatten) :=
  onAppPieces_undecided pieces [] rfl

/-- A head that declares the largest `usize` panics in either profile. -/
theorem doh_content_length_max_panics :
    let head := ascii "POST / HTTP/1.1\r\nContent-Length: 18446744073709551615\r\n\r\n"
    (DnsStream.new literalHpack .doh).onAppPieces .debug (fun _ => false) [head] =
        .error .addOverflow ∧
      (DnsStream.new literalHpack .doh).onAppPieces .release (fun _ => false) [head] =
        .error .sliceOutOfRange :=
  ⟨rfl, rfl⟩

end Adwarden.Tls
