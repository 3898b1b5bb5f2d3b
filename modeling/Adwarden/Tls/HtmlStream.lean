import Adwarden.Lib.Decision
import Adwarden.Tls.AnchorPrefix
import Adwarden.Tls.BodyReading

/-! An HTML response as it arrives, and what may be decided of it when it arrives in pieces. -/
namespace Adwarden.Tls
open Adwarden.Lib

namespace Rewriter

/-- An HTML response on its way: its head, what the parser reads of it, and what there is of its
body, with nothing behind it. -/
structure HtmlStream where
  raw : Bytes
  status : ℕ
  headers : Headers
  framing : Framing
  wire : Bytes
  ended : findHeaderEnd raw = some raw.length
  parsed : responseHead (raw.take (raw.length - 4)) = some (status, headers)
  framed : responseFraming status false headers = some framing
  html : injectable status headers = true
  alone : (readBody (framingToKind framing) wire).step = .done →
    (readBody (framingToKind framing) wire).rest = []

namespace HtmlStream

def kind (r : HtmlStream) : BodyKind := framingToKind r.framing

def coded (r : HtmlStream) : Bool := isChunkedKind r.kind

def stream (r : HtmlStream) : Bytes := r.raw ++ r.wire

/-- What the first bytes `v` of the body read as. -/
def read (r : HtmlStream) (v : Bytes) : BodyRead := readBody r.kind v

def body (r : HtmlStream) : Bytes := (r.read r.wire).data

/-- What is decided on the first bytes `w` of the stream: where the payload goes, or with
`some none` that the response is left alone. A head that does not end within the limit is given up
on. -/
def decision (r : HtmlStream) (w : Bytes) : Option (Option ℕ) :=
  if w.length < r.raw.length then
    if maxHeaderBytes < w.length then some none else none
  else if (r.read (w.drop r.raw.length)).step = .error then some none
  else decideAnchor (r.read (w.drop r.raw.length)).data
    ((r.read (w.drop r.raw.length)).step == .done)

/-- A piece may end behind `w` with nothing decided so far: nothing is on `w` itself, and the head
does not go on over the limit by more than a piece. -/
def Waits (r : HtmlStream) (w : Bytes) : Prop :=
  r.decision w = none ∧ (r.raw.length ≤ w.length → r.raw.length ≤ maxHeaderBytes + maxFeed)

/-- What a cut of the stream may come to. -/
def MayCome (r : HtmlStream) (o : Option (Option ℕ)) : Prop :=
  Outcome r.decision r.Waits maxFeed r.stream o

end HtmlStream

section Stream

variable {r : HtmlStream} {v w d : Bytes}

theorem HtmlStream.read_nil (r : HtmlStream) :
    r.read [] = { step := .needMore, body := r.kind, data := [], rest := [] } :=
  readBody_nil r.framed

theorem HtmlStream.prefix_body (h : v <+: r.wire) : (r.read v).data <+: r.body := by
  obtain ⟨x, hx⟩ := h
  obtain ⟨more, hmore, -⟩ := readBody_extends r.kind v x
  refine ⟨more, ?_⟩
  rw [HtmlStream.body, HtmlStream.read, HtmlStream.read, ← hx]
  exact hmore.symm

/-- Behind a whole body there is nothing. -/
theorem HtmlStream.done_end (hv : v <+: r.wire) (h : (r.read v).step = .done) :
    v = r.wire ∧ (r.read v).rest = [] := by
  obtain ⟨x, hx⟩ := hv
  obtain ⟨more, -, hstop⟩ := readBody_extends r.kind v x
  obtain ⟨-, hstep, hrest⟩ := hstop (by rw [HtmlStream.read] at h; rw [h]; decide)
  rw [hx] at hstep hrest
  have hdone : (readBody r.kind r.wire).step = .done := hstep.trans h
  have hnil : (readBody r.kind r.wire).rest = [] := r.alone hdone
  rw [hnil, eq_comm, List.append_eq_nil_iff] at hrest
  obtain ⟨hrest, rfl⟩ := hrest
  rw [List.append_nil] at hx
  exact ⟨hx, hrest⟩

theorem HtmlStream.decision_head (h : w.length < r.raw.length) :
    r.decision w = if maxHeaderBytes < w.length then some none else none := by
  rw [HtmlStream.decision, if_pos h]

theorem HtmlStream.decision_body (r : HtmlStream) (v : Bytes) :
    r.decision (r.raw ++ v) = if (r.read v).step = .error then some none
      else decideAnchor (r.read v).data ((r.read v).step == .done) := by
  have hle : ¬ (r.raw ++ v).length < r.raw.length := by
    rw [List.length_append]
    omega
  rw [HtmlStream.decision, if_neg hle, List.drop_left]

/-- Undecided behind its head, a response is in the middle of its body. -/
theorem HtmlStream.read_waits (h : r.decision (r.raw ++ v) = none) :
    (r.read v).step = .needMore ∧ decideAnchor (r.read v).data false = none := by
  rw [r.decision_body] at h
  split_ifs at h with he
  have hdone := decideAnchor_waits h
  have hmore : (r.read v).step = .needMore := by
    apply Step.eq_needMore he
    intro hd
    rw [hd] at hdone
    cases hdone
  rw [hdone] at h
  exact ⟨hmore, h⟩

/-- A stretch of the stream that reaches behind the head. -/
theorem HtmlStream.split_of_le (hw : w <+: r.stream) (h : r.raw.length ≤ w.length) :
    ∃ v, w = r.raw ++ v ∧ v <+: r.wire := by
  have hraw : r.raw <+: w :=
    List.prefix_of_prefix_length_le (List.prefix_append r.raw r.wire) hw h
  obtain ⟨v, rfl⟩ := hraw
  exact ⟨v, rfl, (List.prefix_append_right_inj r.raw).mp hw⟩

/-- A decision on the body stays due when more of it has arrived. -/
theorem HtmlStream.decision_lasts (x : Bytes) (h : r.decision (r.raw ++ v) ≠ none) :
    r.decision (r.raw ++ (v ++ x)) ≠ none := by
  obtain ⟨more, hdata, hstop⟩ := readBody_extends r.kind v x
  rw [r.decision_body] at h ⊢
  by_cases hs : (r.read v).step = .needMore
  · split_ifs with he
    · exact Option.some_ne_none _
    · rw [hs] at h
      have hdue := @decideAnchor_append (r.read v).data false ((r.read (v ++ x)).step == .done) more
        (fun hfalse => absurd hfalse (by decide)) h
      have hsame : (r.read (v ++ x)).data = (r.read v).data ++ more := hdata
      rwa [hsame]
  · obtain ⟨rfl, hstep, -⟩ := hstop hs
    rw [List.append_nil] at hdata
    have hread : (r.read (v ++ x)).step = (r.read v).step := hstep
    have hsame : (r.read (v ++ x)).data = (r.read v).data := hdata
    rwa [hread, hsame]

theorem HtmlStream.waits_iff (hw : w <+: r.stream) :
    r.Waits w ↔ Lib.Undecided r.decision maxFeed w := by
  have hpos : 0 < r.raw.length := by
    have hle := (findHeaderEnd_le r.ended).1
    omega
  have hfeed : 0 < maxFeed := by decide
  have hnil : r.decision [] = none := by
    rw [HtmlStream.decision_head (by simpa using hpos), if_neg (by decide)]
  have hinside : ∀ u : Bytes, u.length < r.raw.length → u.length ≤ maxHeaderBytes →
      Lib.Undecided r.decision maxFeed u := by
    intro u hlt hle
    rw [← List.nil_append u]
    apply Lib.Undecided.walk hfeed (.start hnil)
    intro y hy
    have hlen := hy.length_le
    rw [List.nil_append, HtmlStream.decision_head (Nat.lt_of_le_of_lt hlen hlt),
      if_neg (Nat.not_lt.mpr (Nat.le_trans hlen hle))]
  constructor
  · rintro ⟨hnone, hlong⟩
    by_cases hlt : w.length < r.raw.length
    · rw [HtmlStream.decision_head hlt] at hnone
      split_ifs at hnone with hover
      exact hinside w hlt (Nat.not_lt.mp hover)
    · obtain ⟨v, rfl, -⟩ := HtmlStream.split_of_le hw (Nat.not_lt.mp hlt)
      have hcap := hlong (Nat.not_lt.mp hlt)
      have hbehind : ∀ y, y <+: v → r.decision (r.raw ++ y) = none := by
        rintro y ⟨x, rfl⟩
        by_contra hdue
        exact HtmlStream.decision_lasts x hdue hnone
      -- All but the end of the head, in as large a piece as the limit admits, then the rest of it.
      obtain ⟨u, t, hut, hu, ht⟩ : ∃ u t, u ++ t = r.raw ∧
          (u.length < r.raw.length ∧ u.length ≤ maxHeaderBytes) ∧ t.length ≤ maxFeed := by
        refine ⟨r.raw.take (min (r.raw.length - 1) maxHeaderBytes),
          r.raw.drop (min (r.raw.length - 1) maxHeaderBytes), List.take_append_drop _ _, ?_, ?_⟩
        · rw [List.length_take]
          omega
        · rw [List.length_drop]
          omega
      have hraw : Lib.Undecided r.decision maxFeed r.raw := by
        rw [← hut]
        apply Lib.Undecided.piece (hinside u hu.1 hu.2) ht
        have hend := hbehind [] List.nil_prefix
        rwa [List.append_nil, ← hut] at hend
      exact hraw.walk hfeed v hbehind
  · intro h
    refine ⟨h.undecided, ?_⟩
    induction h with
    | start h =>
      intro hle
      rw [List.length_nil] at hle
      omega
    | @piece w d hw' hd h ih =>
      intro hle
      by_cases hlt : w.length < r.raw.length
      · have hnone := hw'.undecided
        rw [HtmlStream.decision_head hlt] at hnone
        split_ifs at hnone with hover
        rw [List.length_append] at hle
        omega
      · exact ih ((List.prefix_append w d).trans hw) (Nat.not_lt.mp hlt)

theorem HtmlStream.mayCome_iff {o : Option (Option ℕ)} : r.MayCome o ↔
    ∃ ds, CutInto maxFeed r.stream ds ∧ firstDecision r.decision [] ds = o := by
  apply outcome_iff (by decide)
  · have hle := (findHeaderEnd_le r.ended).1
    rw [HtmlStream.decision_head (by rw [List.length_nil]; omega), if_neg (by decide)]
  · intro w hw
    exact HtmlStream.waits_iff hw

end Stream

end Rewriter

end Adwarden.Tls
