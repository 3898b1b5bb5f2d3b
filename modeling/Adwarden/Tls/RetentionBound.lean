import Adwarden.Tls.RewriterRetention

/-! When the incremental parsers stay within their bound. -/
namespace Adwarden.Tls
open Adwarden.Lib

namespace H1Responses

/-- What is held while a chunk reader is at work. -/
def reading (s : H1Responses) : Option Held :=
  match s.body with
  | some ⟨_, _, .chunked reader, _⟩ => some { buf := s.buf, line := reader.state.line }
  | _ => none

/-- The runs of the response parser that is fed at most `maxFeed` bytes at a time. -/
def feeds : Automaton H1Responses Bytes where
  init := {}
  step s data := if data.length ≤ maxFeed then some (s.feed data).2 else none

/-- A feed leaves no more than the bound for the chunk reader, and a line that is too long for it
ends the body. -/
def Kept (s : H1Responses) (data : Bytes) : Prop :=
  (∀ h ∈ (s.feed data).2.reading, h.Bounded) ∧
    ∀ h ∈ s.reading, h.Overlong data → (s.feed data).2.body = none

def LineFits (s : H1Responses) (data : Bytes) : Prop := ∀ h ∈ s.reading, h.LineFits data

def Settled (s : H1Responses) : Prop := ∀ h ∈ s.reading, h.Settled ∧ h.Bounded

theorem consumeBody_waits {acc : BodyAcc} {reader : ChunkReader} {buf : Bytes}
    (hf : acc.framing = .chunked reader)
    (h : (consumeBody (some maxHeaderBytes) acc buf).step = .needMore) :
    ∃ reader', (consumeBody (some maxHeaderBytes) acc buf).acc.framing = .chunked reader' ∧
      Held.Waits { buf, line := reader.state.line }
        { buf := (consumeBody (some maxHeaderBytes) acc buf).rest, line := reader'.state.line } := by
  obtain ⟨status, contentType, framing, capture⟩ := acc
  obtain rfl : framing = .chunked reader := hf
  exact ⟨_, rfl, consume_waits h⟩

/-- What the loop keeps: a reader has a buffer it can take, and none is left by a break. -/
def Reading (l : ResponsesLoop) : Prop :=
  (∀ h ∈ l.side.reading, h.Ready) ∧ (l.broke = true → l.side.body = none)

theorem reading_some {s : H1Responses} {h : Held} (hr : h ∈ s.reading) :
    ∃ acc reader, s.body = some acc ∧ acc.framing = .chunked reader ∧
      h = { buf := s.buf, line := reader.state.line } := by
  unfold reading at hr
  split at hr
  · next status contentType reader capture hb =>
    exact ⟨_, reader, hb, rfl, (Option.mem_some_iff.mp hr).symm⟩
  · cases hr

theorem responsesStep_reading {l l' : ResponsesLoop} {o : List UpResponse} (h : Reading l)
    (hs : responsesStep (some maxHeaderBytes) l = some (o, l')) : Reading l' := by
  unfold responsesStep at hs
  split at hs
  · cases hs
  · next buf =>
    split at hs
    · cases hs
    · next hend he =>
      split at hs
      · obtain ⟨-, rfl⟩ := by simpa using hs
        exact ⟨fun h hr => by simp [reading] at hr, fun _ => rfl⟩
      · obtain ⟨-, rfl⟩ := by simpa using hs
        exact ⟨fun h hr => by simp [reading] at hr, fun _ => rfl⟩
      · next status contentType framing hh =>
        obtain ⟨-, rfl⟩ := by simpa using hs
        refine ⟨fun h hr => ?_, fun hb => by cases hb⟩
        obtain ⟨acc, reader, hacc, hf, rfl⟩ := reading_some hr
        obtain rfl := Option.some.inj hacc
        left
        unfold responseHead at hh
        simp only [Option.bind_eq_bind, Option.bind_eq_some_iff] at hh
        obtain ⟨_, -, _, -, hh⟩ := hh
        have hframing := (Prod.mk.inj (Prod.mk.inj (Option.some.inj hh)).2).2
        have hline := responseFraming_line hframing
        rw [show framing = _ from hf] at hline
        exact hline
  · next buf acc =>
    dsimp only at hs
    split at hs
    · obtain ⟨-, rfl⟩ := by simpa using hs
      exact ⟨fun h hr => by simp [reading] at hr, fun _ => rfl⟩
    · next hmore =>
      split_ifs at hs
      obtain ⟨-, rfl⟩ := by simpa using hs
      refine ⟨fun h' hr => ?_, fun hb => by cases hb⟩
      obtain ⟨acc', reader', hacc', hf', rfl⟩ := reading_some hr
      obtain rfl := Option.some.inj hacc'
      cases hf : acc.framing with
      | length =>
        simp only [consumeBody, hf] at hf'
        split at hf' <;> simp_all
      | untilClose => simp [consumeBody, hf] at hf'
      | chunked reader =>
        obtain ⟨reader'', hf'', hw⟩ := consumeBody_waits hf hmore
        obtain rfl : reader' = reader'' := Framing.chunked.inj (hf'.symm.trans hf'')
        refine Or.inr (Or.inr (hw.bounded (h.1 _ ?_)))
        obtain ⟨status, contentType, framing, capture⟩ := acc
        obtain rfl : framing = .chunked reader := hf
        exact Option.mem_some_iff.mpr rfl
    · obtain ⟨-, rfl⟩ := by simpa using hs
      exact ⟨fun h hr => by simp [reading] at hr, fun _ => rfl⟩

/-- A feed that the open line fits leaves the chunk reader within the bound. -/
theorem Settled.feed {s : H1Responses} {data : Bytes} (hs : s.Settled) (hf : s.LineFits data) :
    (s.feed data).2.Settled := by
  have hstart : Reading ⟨{ s with buf := s.buf ++ data }, false⟩ := by
    refine ⟨fun h hr => ?_, fun hb => by cases hb⟩
    obtain ⟨acc, reader, hacc, hframing, rfl⟩ := reading_some hr
    have hold : { buf := s.buf, line := reader.state.line } ∈ s.reading := by
      obtain ⟨status, contentType, framing, capture⟩ := acc
      obtain rfl : framing = .chunked reader := hframing
      simp only [reading, show s.body = _ from hacc]
      exact Option.mem_some_iff.mpr rfl
    exact (hs _ hold).1.ready (hf _ hold)
  have hend := (responsesFeeder (some maxHeaderBytes)).run_invariant (P := fun _ l => Reading l)
    (o := []) hstart fun _ _ _ _ hl hstep => responsesStep_reading hl hstep
  have hhalt := (responsesFeeder (some maxHeaderBytes)).run_halts
    ⟨{ s with buf := s.buf ++ data }, false⟩
  change Settled ((responsesFeeder (some maxHeaderBytes)).run
    ⟨{ s with buf := s.buf ++ data }, false⟩).2.side
  generalize ((responsesFeeder (some maxHeaderBytes)).run
    ⟨{ s with buf := s.buf ++ data }, false⟩).2 = l at *
  intro h hr
  have hready := hend.1 h hr
  obtain ⟨acc, reader, hacc, hframing, rfl⟩ := reading_some hr
  obtain ⟨⟨buf, body⟩, broke⟩ := l
  obtain rfl : body = some acc := hacc
  cases hbroke : broke with
  | true => cases hend.2 hbroke
  | false =>
    subst hbroke
    simp only [responsesFeeder, responsesStep] at hhalt
    split at hhalt
    · cases hhalt
    · next hmore =>
      split_ifs at hhalt with hidle
      obtain ⟨reader', hf', hw⟩ := consumeBody_waits hframing hmore
      obtain rfl : reader' = reader := by
        refine Framing.chunked.inj (hf'.symm.trans ?_)
        rw [hidle.2, hframing]
      rw [hidle.1] at hw
      exact ⟨hw.settled, hw.bounded hready⟩
    · cases hhalt

/-- A body with a line open takes a piece that does not end it onto that line. -/
theorem feed_open {s : H1Responses} {data : Bytes} {h : Held} (hs : s.Settled)
    (hr : h ∈ s.reading) (hline : h.line ≠ []) (hne : data ≠ []) (hlf : LF ∉ data)
    (hcap : data.length ≤ maxHeaderBytes) :
    ∃ h' ∈ (s.feed data).2.reading, h'.buf = [] ∧ h'.line = h.line ++ data := by
  have hnil := (hs h hr).1.line hline
  obtain ⟨acc, reader, hacc, hframing, rfl⟩ := reading_some hr
  obtain ⟨status, contentType, framing, capture⟩ := acc
  obtain rfl : framing = .chunked reader := hframing
  obtain ⟨buf, body⟩ := s
  obtain rfl : buf = [] := hnil
  obtain rfl : body = _ := hacc
  obtain ⟨st⟩ := reader
  obtain ⟨st', hst', hrun⟩ := consume_stash hline hne hlf hcap
  have hst'line : st'.line ≠ [] := by simp [hst', hne]
  have hidle := consume_idle hst'line
  have hfirst : (responsesFeeder (some maxHeaderBytes)).step
      ⟨⟨data, some ⟨status, contentType, .chunked ⟨st⟩, capture⟩⟩, false⟩ =
        some ([], ⟨⟨[], some ⟨status, contentType, .chunked ⟨st'⟩, pushCapped capture []⟩⟩,
          false⟩) := by
    simp only [responsesFeeder, responsesStep, consumeBody, ChunkReader.consumeWithin, hrun]
    rw [if_neg (fun hc => hne hc.1.symm)]
  have hsecond : (responsesFeeder (some maxHeaderBytes)).step
      ⟨⟨[], some ⟨status, contentType, .chunked ⟨st'⟩, pushCapped capture []⟩⟩, false⟩ =
        none := by
    simp [responsesFeeder, responsesStep, consumeBody, ChunkReader.consumeWithin, hidle]
  have hall := (responsesFeeder (some maxHeaderBytes)).run_some hfirst
  rw [(responsesFeeder (some maxHeaderBytes)).run_none hsecond] at hall
  refine ⟨{ buf := [], line := st'.line }, ?_, rfl, hst'⟩
  change _ ∈ reading ((responsesFeeder (some maxHeaderBytes)).run
    ⟨⟨[] ++ data, some ⟨status, contentType, .chunked ⟨st⟩, capture⟩⟩, false⟩).2.side
  rw [List.nil_append, hall]
  exact Option.mem_some_iff.mpr rfl

theorem kept_iff {s : H1Responses} {data : Bytes} (hs : s.Settled)
    (hsize : data.length ≤ maxFeed) : s.Kept data ↔ s.LineFits data := by
  constructor
  · rintro ⟨hkept, -⟩ h hr
    by_contra hf
    obtain ⟨hlf, hlt⟩ := not_or.mp hf
    have hb : h.size ≤ maxHeaderBytes + maxFeed := (hs h hr).2
    rw [Held.size] at hb
    have hline : h.line ≠ [] := by
      intro hnil
      rw [hnil, List.length_nil] at hlt
      omega
    have hne : data ≠ [] := by
      intro hnil
      rw [hnil, List.length_nil] at hlt
      omega
    have hcap : data.length ≤ maxHeaderBytes := hsize.trans (by decide)
    obtain ⟨h', hr', hbuf, hgrown⟩ := feed_open hs hr hline hne hlf hcap
    have hb' : h'.size ≤ maxHeaderBytes + maxFeed := hkept h' hr'
    rw [Held.size, hbuf, hgrown, List.length_append, List.length_nil] at hb'
    omega
  · intro hf
    refine ⟨fun h hr => (hs.feed hf h hr).2, fun h hr hover => ?_⟩
    obtain ⟨acc, reader, -, -, rfl⟩ := reading_some hr
    exact absurd (hf _ hr) (not_or.mpr ⟨hover.2.1, Nat.not_le.mpr hover.2.2⟩)

theorem each_kept_iff (pieces : List Bytes) :
    feeds.EachStep Kept {} pieces ↔ feeds.EachStep LineFits {} pieces := by
  have hsize : ∀ {s s' : H1Responses} {data : Bytes}, feeds.step s data = some s' →
      data.length ≤ maxFeed ∧ s' = (s.feed data).2 := by
    intro s s' data h
    simp only [feeds] at h
    split_ifs at h with hle
    exact ⟨hle, (Option.some.inj h).symm⟩
  refine Automaton.eachStep_congr_of (I := Settled) ?_ ?_ (fun h hr => by cases hr) pieces
  · intro s data s' hs hk h
    obtain ⟨hle, rfl⟩ := hsize h
    exact hs.feed ((kept_iff hs hle).mp hk)
  · intro s data s' hs h
    exact kept_iff hs (hsize h).1

end H1Responses

/-- In exactly the runs in which every line of chunked coding ends before it outgrows the bound,
the parsers stay within it. -/
theorem retention_bounded_iff (p : Profile) (blob : Bytes) (fs : List Feed) (pieces : List Bytes) :
    (HttpTap.feeds.EachStep HttpTap.Kept HttpTap.new fs ↔
        HttpTap.feeds.EachStep HttpTap.LineFits HttpTap.new fs) ∧
      ((Rewriter.feeds p blob).EachStep (Rewriter.Kept p) { active := true, blob } fs ↔
        (Rewriter.feeds p blob).EachStep Rewriter.LineFits { active := true, blob } fs) ∧
      (H1Responses.feeds.EachStep H1Responses.Kept {} pieces ↔
        H1Responses.feeds.EachStep H1Responses.LineFits {} pieces) :=
  ⟨HttpTap.each_kept_iff fs, Rewriter.each_kept_iff p blob fs, H1Responses.each_kept_iff pieces⟩

namespace HttpTap

/-- Pieces that never end the line they go onto are kept, one after the other. -/
theorem lineFits_replicate {f : Feed} (hsize : f.data.length ≤ maxFeed) (hne : f.data ≠ [])
    (hlf : LF ∉ f.data) (n : ℕ) {t : HttpTap} (hs : t.Settled) (hd : t.disabled = false)
    (hline : (t.retained f.side).line ≠ [])
    (h : feeds.EachStep LineFits t (List.replicate (n + 1) f)) :
    (t.retained f.side).line.length + (n + 1) * f.data.length ≤ maxHeaderBytes + maxFeed := by
  induction n generalizing t with
  | zero =>
    rw [List.replicate_one, Automaton.EachStep] at h
    simp only [feeds, if_pos hsize] at h
    have := h.1.resolve_left hlf
    omega
  | succ n ih =>
    rw [List.replicate_succ, Automaton.EachStep] at h
    simp only [feeds, if_pos hsize] at h
    obtain ⟨hfit, hrest⟩ := h
    obtain ⟨hd', -, hgrown⟩ := feed_open hs hd hline hne hlf (hsize.trans (by decide))
    have hall := ih (hs.feed hsize hfit) hd' (by simp [hgrown, hne]) hrest
    rw [hgrown, List.length_append] at hall
    have hmul : (n + 1 + 1) * f.data.length = (n + 1) * f.data.length + f.data.length :=
      Nat.succ_mul _ _
    omega

/-- A head with a chunked body, and the first byte of a size line. -/
def chunkedPost : Feed where
  side := .request
  data := ascii "POST / HTTP/1.1\r\nTransfer-Encoding: chunked\r\n\r\n1"

def endlessLine : Feed where
  side := .request
  data := List.replicate maxFeed 65

/-- After the head, pieces as long as a feed may be outgrow the bound. -/
private theorem not_kept_after {f : Feed} (hside : f.side = .request)
    (hlen : f.data.length = maxFeed) (hlf : LF ∉ f.data) :
    ¬ feeds.EachStep Kept new (chunkedPost :: List.replicate (4 + 1) f) := by
  intro h
  have hfits := (each_kept_iff _).mp h
  rw [Automaton.EachStep] at hfits
  have hsize : chunkedPost.data.length ≤ maxFeed := by decide +kernel
  simp only [feeds, if_pos hsize] at hfits
  obtain ⟨hfirst, hrest⟩ := hfits
  have hne : f.data ≠ [] := by
    rw [← List.length_pos_iff, hlen]
    decide
  have hd : (new.feed chunkedPost).disabled = false := by decide +kernel
  have hopen : ((new.feed chunkedPost).retained .request).line = [49] := by decide +kernel
  have hbound := lineFits_replicate hlen.le hne hlf 4 (settled_new.feed hsize hfirst) hd
    (by rw [hside, hopen]; simp) hrest
  rw [hside, hopen, hlen] at hbound
  have hover : ¬ [49].length + (4 + 1) * maxFeed ≤ maxHeaderBytes + maxFeed := by decide
  exact hover hbound

/-- A size line that does not end is kept without a bound, a feed at a time. -/
theorem endless_line_kept :
    ¬ feeds.EachStep Kept new (chunkedPost :: List.replicate 5 endlessLine) := by
  apply not_kept_after rfl List.length_replicate
  intro hmem
  have hbyte : LF = 65 := List.eq_of_mem_replicate hmem
  exact absurd hbyte (by decide)

end HttpTap

end Adwarden.Tls
