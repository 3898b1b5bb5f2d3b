import Adwarden.Tls.RewriterInsert
import Adwarden.Tls.RewriterPass

/-! Streams that are not HTTP/1.x: until when the rewriter withholds them. -/
namespace Adwarden.Tls
open Adwarden.Lib

/-- Feed the pieces of a stream in turn. -/
def feedAll {σ : Type} (feed : σ → Bytes → Except Panic (Bytes × σ)) :
    σ → List Bytes → Except Panic (Bytes × σ)
  | s, [] => .ok ([], s)
  | s, d :: ds => do
    let (o, s) ← feed s d
    let (os, s) ← feedAll feed s ds
    .ok (o ++ os, s)

/-- The first line of a stream, once its line end is there. -/
def firstLine (stream : Bytes) : Option Bytes :=
  (position LF stream).map fun i => (splitCrlfLines (stream.take i)).headD []

def isHttp1Version (version : Bytes) : Bool :=
  version.length == 8 && version.take 7 == ascii "HTTP/1." && (version.drop 7).all isDigit

/-- `method SP target SP HTTP/1.x` -/
def isHttp1RequestLine (line : Bytes) : Bool :=
  match splitOn 32 line with
  | [method, target, version] => method != [] && target != [] && isHttp1Version version
  | _ => false

/-- `HTTP/1.x SP 3DIGIT`, and a reason if there is one. -/
def isHttp1StatusLine (line : Bytes) : Bool :=
  match splitOn 32 line with
  | version :: code :: _ => isHttp1Version version && code.length == 3 && code.all isDigit
  | _ => false

/-- A stream that is given up on: its first head is complete and does not parse, or some piece has
left more than the longest head without one. -/
def GivenUp {α : Type} (parseHead : Bytes → Option α) (feeds : List Bytes) : Prop :=
  (∃ hend, findHeaderEnd feeds.flatten = some hend ∧
    parseHead (feeds.flatten.take (hend - 4)) = none) ∨
  ∃ pre, pre <+: feeds ∧ findHeaderEnd pre.flatten = none ∧ maxHeaderBytes < pre.flatten.length

/-- The first head of a stream is complete and parses. -/
def TakenForHttp {α : Type} (parseHead : Bytes → Option α) (feeds : List Bytes) : Prop :=
  ∃ hend head, findHeaderEnd feeds.flatten = some hend ∧
    parseHead (feeds.flatten.take (hend - 4)) = some head

/-- A head that may still be completed. -/
def Undecided (buf : Bytes) : Prop := findHeaderEnd buf = none ∧ buf.length ≤ maxHeaderBytes

/-- A side that withholds a stream (`waits`) until it can tell what it is, and copies it (`off`)
once it has given up. -/
structure Withholds {σ α : Type} (feed : σ → Bytes → Except Panic (Bytes × σ))
    (parseHead : Bytes → Option α) (waits : Bytes → σ → Prop) (off : σ → Prop) : Prop where
  wait : ∀ {b d s}, waits b s → Undecided (b ++ d) →
    ∃ s', feed s d = .ok ([], s') ∧ waits (b ++ d) s'
  oversized : ∀ {b d s}, waits b s → findHeaderEnd (b ++ d) = none →
    maxHeaderBytes < (b ++ d).length → ∃ s', feed s d = .ok (b ++ d, s') ∧ off s'
  unparsed : ∀ {b d s hend}, waits b s → findHeaderEnd (b ++ d) = some hend →
    parseHead ((b ++ d).take (hend - 4)) = none → ∃ s', feed s d = .ok (b ++ d, s') ∧ off s'
  copy : ∀ {d s}, off s → ∃ s', feed s d = .ok (d, s') ∧ off s'

namespace Withholds

variable {σ α : Type} {feed : σ → Bytes → Except Panic (Bytes × σ)} {parseHead : Bytes → Option α}
  {waits : Bytes → σ → Prop} {off : σ → Prop}

theorem feedAll_off (h : Withholds feed parseHead waits off) {s : σ} (hs : off s)
    (ds : List Bytes) : ∃ s', feedAll feed s ds = .ok (ds.flatten, s') := by
  induction ds generalizing s with
  | nil => exact ⟨s, rfl⟩
  | cons d ds ih =>
    obtain ⟨s₁, hf, hs₁⟩ := h.copy (d := d) hs
    obtain ⟨s₂, hr⟩ := ih hs₁
    exact ⟨s₂, by simp [feedAll, hf, hr]⟩

theorem feedAll_cons_off (h : Withholds feed parseHead waits off) {s s₁ : σ} {o d : Bytes}
    (hf : feed s d = .ok (o, s₁)) (hs₁ : off s₁) (ds : List Bytes) :
    ∃ s', feedAll feed s (d :: ds) = .ok (o ++ ds.flatten, s') := by
  obtain ⟨s₂, hr⟩ := h.feedAll_off hs₁ ds
  exact ⟨s₂, by simp [feedAll, hf, hr]⟩

end Withholds

theorem GivenUp.congr {α : Type} {parseHead : Bytes → Option α} {b d : Bytes} {ds : List Bytes}
    (hb : Undecided b) : GivenUp parseHead (b :: d :: ds) ↔ GivenUp parseHead ((b ++ d) :: ds) := by
  unfold GivenUp
  have hflat : (b :: d :: ds).flatten = ((b ++ d) :: ds).flatten := by simp
  rw [hflat]
  apply or_congr Iff.rfl
  constructor
  · rintro ⟨pre, hpre, hn, hlt⟩
    match pre, hpre with
    | [], _ => simp at hlt
    | [x], hpre =>
      obtain rfl : x = b := (List.cons_prefix_cons.mp hpre).1
      have hle := hb.2
      simp only [List.flatten_cons, List.flatten_nil, List.append_nil] at hlt
      omega
    | x :: y :: pre, hpre =>
      obtain ⟨rfl, htail⟩ := List.cons_prefix_cons.mp hpre
      obtain ⟨rfl, hmore⟩ := List.cons_prefix_cons.mp htail
      refine ⟨(x ++ y) :: pre, List.cons_prefix_cons.mpr ⟨rfl, hmore⟩, ?_, ?_⟩
      · simpa using hn
      · simpa using hlt
  · rintro ⟨pre, hpre, hn, hlt⟩
    match pre, hpre with
    | [], _ => simp at hlt
    | x :: pre, hpre =>
      obtain ⟨rfl, htail⟩ := List.cons_prefix_cons.mp hpre
      refine ⟨b :: d :: pre,
        List.cons_prefix_cons.mpr ⟨rfl, List.cons_prefix_cons.mpr ⟨rfl, htail⟩⟩, ?_, ?_⟩
      · simpa using hn
      · simpa using hlt

/-- Nothing is left to decide once a head is complete. -/
theorem GivenUp.parse {α : Type} {parseHead : Bytes → Option α} {b : Bytes} {ds : List Bytes}
    {hend : ℕ} (h : GivenUp parseHead (b :: ds)) (he : findHeaderEnd b = some hend) :
    parseHead (b.take (hend - 4)) = none := by
  have hle := (findHeaderEnd_le he).2
  rcases h with ⟨n, hn, hp⟩ | ⟨pre, hpre, hn, hlt⟩
  · rw [List.flatten_cons, findHeaderEnd_append _ he] at hn
    obtain rfl := Option.some.inj hn
    rwa [List.flatten_cons, List.take_append_of_le_length (by omega)] at hp
  · match pre, hpre with
    | [], _ => simp at hlt
    | x :: pre, hpre =>
      obtain ⟨rfl, -⟩ := List.cons_prefix_cons.mp hpre
      rw [List.flatten_cons, findHeaderEnd_append _ he] at hn
      simp at hn

namespace Withholds

variable {σ α : Type} {feed : σ → Bytes → Except Panic (Bytes × σ)} {parseHead : Bytes → Option α}
  {waits : Bytes → σ → Prop} {off : σ → Prop}

/-- A stream that is given up on is written whole. -/
theorem feedAll_givenUp (h : Withholds feed parseHead waits off) {b : Bytes} {s : σ}
    {ds : List Bytes} (hs : waits b s) (hb : Undecided b) (hg : GivenUp parseHead (b :: ds)) :
    ∃ s', feedAll feed s ds = .ok (b ++ ds.flatten, s') := by
  induction ds generalizing b s with
  | nil =>
    rcases hg with ⟨n, hn, -⟩ | ⟨pre, hpre, hn, hlt⟩
    · simp [hb.1] at hn
    · have hle : pre.flatten.length ≤ b.length := by
        have := hpre.flatten.length_le
        simpa using this
      have := hb.2
      omega
  | cons d ds ih =>
    have hg' := (GivenUp.congr hb).mp hg
    cases he : findHeaderEnd (b ++ d) with
    | some hend =>
      obtain ⟨s₁, hf, hs₁⟩ := h.unparsed hs he (hg'.parse he)
      obtain ⟨s₂, hr⟩ := h.feedAll_cons_off hf hs₁ ds
      exact ⟨s₂, by rw [hr]; simp⟩
    | none =>
      by_cases hlt : maxHeaderBytes < (b ++ d).length
      · obtain ⟨s₁, hf, hs₁⟩ := h.oversized hs he hlt
        obtain ⟨s₂, hr⟩ := h.feedAll_cons_off hf hs₁ ds
        exact ⟨s₂, by rw [hr]; simp⟩
      · have hu : Undecided (b ++ d) := ⟨he, Nat.not_lt.mp hlt⟩
        obtain ⟨s₁, hf, hs₁⟩ := h.wait hs hu
        obtain ⟨s₂, hr⟩ := ih hs₁ hu hg'
        exact ⟨s₂, by simp [feedAll, hf, hr]⟩

/-- A stream that is neither given up on nor taken for HTTP is withheld whole. -/
theorem feedAll_undecided (h : Withholds feed parseHead waits off) {b : Bytes} {s : σ}
    {ds : List Bytes} (hs : waits b s) (hb : Undecided b) (hg : ¬ GivenUp parseHead (b :: ds))
    (ht : ¬ TakenForHttp parseHead (b :: ds)) : ∃ s', feedAll feed s ds = .ok ([], s') := by
  have hnone : findHeaderEnd (b :: ds).flatten = none := by
    cases he : findHeaderEnd (b :: ds).flatten with
    | none => rfl
    | some hend =>
      cases hp : parseHead ((b :: ds).flatten.take (hend - 4)) with
      | none => exact absurd (Or.inl ⟨hend, he, hp⟩) hg
      | some head => exact absurd ⟨hend, head, he, hp⟩ ht
  clear ht
  induction ds generalizing b s with
  | nil => exact ⟨s, rfl⟩
  | cons d ds ih =>
    have hflat : (b :: d :: ds).flatten = ((b ++ d) :: ds).flatten := by simp
    rw [GivenUp.congr hb] at hg
    rw [hflat] at hnone
    have hu : Undecided (b ++ d) := by
      have he : findHeaderEnd (b ++ d) = none := by
        cases he : findHeaderEnd (b ++ d) with
        | none => rfl
        | some n =>
          rw [List.flatten_cons, findHeaderEnd_append ds.flatten he] at hnone
          simp at hnone
      refine ⟨he, Nat.not_lt.mp fun hlt => hg (Or.inr ⟨[b ++ d], ⟨ds, rfl⟩, ?_, ?_⟩)⟩
      · simpa using he
      · simpa using hlt
    obtain ⟨s₁, hf, hs₁⟩ := h.wait hs hu
    obtain ⟨s₂, hr⟩ := ih hs₁ hu hg hnone
    exact ⟨s₂, by simp [feedAll, hf, hr]⟩

/-- Short of being taken for HTTP, a stream is written whole exactly when it is given up on. -/
theorem feedAll_flatten_iff (h : Withholds feed parseHead waits off) {s : σ} {ds : List Bytes}
    (hs : waits [] s) (hne : ds.flatten ≠ []) (ht : ¬ TakenForHttp parseHead ds) :
    (∃ s', feedAll feed s ds = .ok (ds.flatten, s')) ↔ GivenUp parseHead ds := by
  have hb : Undecided [] := ⟨by decide, by simp⟩
  cases ds with
  | nil => simp at hne
  | cons d ds =>
    have hcongr : GivenUp parseHead ([] :: d :: ds) ↔ GivenUp parseHead (d :: ds) :=
      GivenUp.congr hb
    constructor
    · rintro ⟨s', hr⟩
      by_contra hg
      obtain ⟨s'', hr'⟩ := h.feedAll_undecided hs hb (fun hg' => hg (hcongr.mp hg')) ht
      rw [hr'] at hr
      exact hne (Prod.mk.inj (Except.ok.inj hr)).1.symm
    · intro hg
      exact h.feedAll_givenUp hs hb (hcongr.mpr hg)

/-- A stream that is given up on is written whole, whether or not it is taken for HTTP. -/
theorem feedAll_flatten (h : Withholds feed parseHead waits off) {s : σ} {ds : List Bytes}
    (hs : waits [] s) (hg : GivenUp parseHead ds) :
    ∃ s', feedAll feed s ds = .ok (ds.flatten, s') := by
  have hb : Undecided [] := ⟨by decide, by simp⟩
  cases ds with
  | nil => exact ⟨s, rfl⟩
  | cons d ds => exact h.feedAll_givenUp hs hb ((GivenUp.congr hb).mpr hg)

end Withholds

namespace Rewriter

/-- What successive pieces of the request stream have the rewriter write upstream. -/
def requests (rw : Rewriter) (feeds : List Bytes) : Except Panic (Bytes × Rewriter) :=
  feedAll (fun rw d => .ok (rw.feedRequest d)) rw feeds

/-- What successive pieces of the response stream have the rewriter write to the app. -/
def responses (p : Profile) (rw : Rewriter) (feeds : List Bytes) :
    Except Panic (Bytes × Rewriter) :=
  feedAll (fun rw d => (rw.feedResponse p d).map fun r => (r.1.flatMap RespEmit.render, r.2))
    rw feeds

theorem feedRequest_running {rw : Rewriter} (hact : rw.active = true) (hd : rw.disabled = false)
    (data : Bytes) :
    rw.feedRequest data = requestFeeder.run { rw with reqBuf := rw.reqBuf ++ data } := by
  rw [feedRequest, if_neg (by simp [hact, hd])]
  rfl

/-- A request stream that has to be given up on leaves with all that was withheld of it. -/
theorem run_disabled {rw : Rewriter} {o : Bytes} {rw' : Rewriter}
    (h : rw.stepRequest = some (o, rw')) (hd : rw'.disabled = true) :
    requestFeeder.run rw = (o, rw') := by
  have hstop : rw'.stepRequest = none := by simp [stepRequest, hd]
  rw [requestFeeder.run_some h, requestFeeder.run_none hstop, List.append_nil]

theorem requests_withhold : Withholds (fun rw d => .ok (feedRequest rw d)) requestHead
    (fun b rw => rw.active = true ∧ rw.disabled = false ∧ rw.req = .head ∧ rw.reqBuf = b)
    (fun rw => rw.disabled = true ∧ rw.reqBuf = []) where
  wait := by
    rintro _ d rw ⟨hact, hd, hreq, rfl⟩ ⟨he, hle⟩
    have hstep : stepRequest { rw with reqBuf := rw.reqBuf ++ d } = none := by
      simp only [stepRequest, hd, hreq, he, if_neg (Nat.not_lt.mpr hle)]
      simp
    rw [feedRequest_running hact hd, requestFeeder.run_none hstep]
    exact ⟨_, rfl, hact, hd, hreq, rfl⟩
  oversized := by
    rintro _ d rw ⟨hact, hd, hreq, rfl⟩ he hlt
    have hstep : stepRequest { rw with reqBuf := rw.reqBuf ++ d } =
        some (rw.reqBuf ++ d, { rw with disabled := true, reqBuf := [] }) := by
      simp only [stepRequest, hd, hreq, he, if_pos hlt]
      simp
    rw [feedRequest_running hact hd, run_disabled hstep rfl]
    exact ⟨_, rfl, rfl, rfl⟩
  unparsed := by
    rintro _ d rw hend ⟨hact, hd, hreq, rfl⟩ he hh
    have hstep : stepRequest { rw with reqBuf := rw.reqBuf ++ d } =
        some (rw.reqBuf ++ d, { rw with disabled := true, reqBuf := [] }) := by
      simp only [stepRequest, hd, hreq, he, hh]
      simp
    rw [feedRequest_running hact hd, run_disabled hstep rfl]
    exact ⟨_, rfl, rfl, rfl⟩
  copy := by
    rintro d rw ⟨hd, hb⟩
    refine ⟨{ rw with reqBuf := [] }, ?_, hd, rfl⟩
    simp [feedRequest, hd, hb]

theorem responses_withhold (p : Profile) : Withholds
    (fun rw d => (feedResponse p rw d).map fun r => (r.1.flatMap RespEmit.render, r.2)) responseHead
    (fun b rw => rw.active = true ∧ rw.disabled = false ∧ rw.resp = .head ∧ rw.respBuf = b)
    (fun rw => rw.disabled = true ∧ rw.respBuf = []) where
  wait := by
    rintro _ d rw ⟨hact, hd, hr, rfl⟩ ⟨he, hle⟩
    have hstep : stepResponse p { rw with respBuf := rw.respBuf ++ d } =
        .ok { rw := { rw with resp := .head, respBuf := rw.respBuf ++ d }, go := false } := by
      simp only [stepResponse, hr, stepResponseHead, he, if_neg (Nat.not_lt.mpr hle)]
    refine ⟨{ rw with resp := .head, respBuf := rw.respBuf ++ d }, ?_, hact, hd, rfl, rfl⟩
    rw [feedResponse_running p hact hd, driveResponse_of_step hstep]
    rfl
  oversized := by
    rintro _ d rw ⟨hact, hd, hr, rfl⟩ he hlt
    have hstep : stepResponse p { rw with respBuf := rw.respBuf ++ d } =
        .ok (disableFlushResp { rw with resp := .head, respBuf := rw.respBuf ++ d } []) := by
      simp only [stepResponse, hr, stepResponseHead, he, if_pos hlt]
    refine ⟨{ rw with resp := .head, respBuf := [], disabled := true }, ?_, rfl, rfl⟩
    rw [feedResponse_running p hact hd, driveResponse_of_step hstep]
    simp [disableFlushResp, RespEmit.render, Except.map]
  unparsed := by
    rintro _ d rw hend ⟨hact, hd, hr, rfl⟩ he hh
    have hstep : stepResponse p { rw with respBuf := rw.respBuf ++ d } =
        .ok (disableFlushResp { rw with resp := .head, respBuf := rw.respBuf ++ d } []) := by
      simp only [stepResponse, hr, stepResponseHead, he, hh]
    refine ⟨{ rw with resp := .head, respBuf := [], disabled := true }, ?_, rfl, rfl⟩
    rw [feedResponse_running p hact hd, driveResponse_of_step hstep]
    simp [disableFlushResp, RespEmit.render, Except.map]
  copy := by
    rintro d rw ⟨hd, hb⟩
    refine ⟨{ rw with respBuf := [] }, ?_, hd, rfl⟩
    simp [feedResponse_disabled p hd, hb, RespEmit.render, Except.map]

theorem firstLine_ne_nil {stream line : Bytes} (h : firstLine stream = some line) :
    stream ≠ [] := by
  rintro rfl
  simp [firstLine, position] at h

/-- Of a stream that does not open with a line of HTTP/1.x, what was fed has been written once the
stream is given up on. Before that none of it has, unless its first head is taken for one of
HTTP/1.x all the same. -/
theorem foreign_stream_forwarded (p : Profile) (rw : Rewriter) (feeds : List Bytes)
    {line : Bytes} (hact : rw.active = true) (hd : rw.disabled = false)
    (hline : firstLine feeds.flatten = some line) :
    (rw.req = .head → rw.reqBuf = [] → isHttp1RequestLine line = false →
      (GivenUp requestHead feeds → ∃ rw', rw.requests feeds = .ok (feeds.flatten, rw')) ∧
      (¬ TakenForHttp requestHead feeds →
        ((∃ rw', rw.requests feeds = .ok (feeds.flatten, rw')) ↔ GivenUp requestHead feeds))) ∧
    (rw.resp = .head → rw.respBuf = [] → isHttp1StatusLine line = false →
      (GivenUp responseHead feeds → ∃ rw', rw.responses p feeds = .ok (feeds.flatten, rw')) ∧
      (¬ TakenForHttp responseHead feeds →
        ((∃ rw', rw.responses p feeds = .ok (feeds.flatten, rw')) ↔
          GivenUp responseHead feeds))) := by
  have hne := firstLine_ne_nil hline
  constructor
  · intro hreq hbuf _
    have hwaits := And.intro hact (And.intro hd (And.intro hreq hbuf))
    exact ⟨requests_withhold.feedAll_flatten hwaits,
      requests_withhold.feedAll_flatten_iff hwaits hne⟩
  · intro hresp hbuf _
    have hwaits := And.intro hact (And.intro hd (And.intro hresp hbuf))
    exact ⟨(responses_withhold p).feedAll_flatten hwaits,
      (responses_withhold p).feedAll_flatten_iff hwaits hne⟩

private def greeting : List Bytes := [ascii "EHLO a.test\r\nQUIT", ascii "\r\n\r", ascii "\n"]

theorem greeting_forwarded : ∃ rw',
    ({ active := true, blob := ascii "b" } : Rewriter).requests greeting =
      .ok (greeting.flatten, rw') := by
  have hline : firstLine greeting.flatten = some (ascii "EHLO a.test") := by decide +kernel
  have hgiven : GivenUp requestHead greeting := by
    refine Or.inl ⟨21, ?_, ?_⟩ <;> decide +kernel
  exact ((foreign_stream_forwarded .release _ greeting rfl rfl hline).1 rfl rfl
    (by decide +kernel)).1 hgiven

private def preface : Bytes := ascii "PRI * HTTP/2.0\r\n\r\nSM\r\n\r\n"

private def banner : Bytes := ascii "220 mail.test ready\r\n"

/-- The preface of HTTP/2 is taken for a request and edited; a greeting without a blank line is
withheld. -/
theorem preface_altered :
    firstLine preface = some (ascii "PRI * HTTP/2.0") ∧
      isHttp1RequestLine (ascii "PRI * HTTP/2.0") = false ∧
      (({ active := true, blob := ascii "b" } : Rewriter).requests [preface]).map (·.1) =
        .ok (ascii "PRI * HTTP/2.0\r\nAccept-Encoding: identity\r\n\r\nSM\r\n\r\n") ∧
    firstLine banner = some (ascii "220 mail.test ready") ∧
      isHttp1StatusLine (ascii "220 mail.test ready") = false ∧
      (({ active := true, blob := ascii "b" } : Rewriter).responses .release [banner]).map (·.1) =
        .ok [] := by
  decide +kernel

end Rewriter

end Adwarden.Tls
