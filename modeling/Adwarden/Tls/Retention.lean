import Adwarden.Lib.Automaton
import Adwarden.Tls.ChunkGrammar
import Adwarden.Tls.HttpTap
import Adwarden.Tls.RewriterInsert
import Adwarden.Tls.Upstream

/-! What the incremental parsers hold back between two feeds: the bytes still in a buffer, and the
partial chunk-size or trailer line that a chunk reader has moved out of it. -/
namespace Adwarden.Tls
open Adwarden.Lib

def ChunkState.line : ChunkState → Bytes
  | .size line | .trailer line => line
  | .data _ | .dataCrlf => []

def Framing.line : Framing → Bytes
  | .chunked reader => reader.state.line
  | _ => []

def BodyKind.line : BodyKind → Bytes
  | .chunked reader => reader.state.line
  | _ => []

/-- What a parser holds of one direction of a stream. -/
structure Held where
  buf : Bytes
  line : Bytes := []
  /-- The parser is between messages and reads a head. -/
  inHead : Bool := false

namespace Held

def size (h : Held) : ℕ := h.buf.length + h.line.length

def Bounded (h : Held) : Prop := h.size ≤ maxHeaderBytes + maxFeed

/-- The feed leaves a head open that is longer than the parsers accept, or a line of chunked
coding that is longer than the bound. -/
def Overlong (h : Held) (data : Bytes) : Prop :=
  if h.inHead then
    findHeaderEnd (h.buf ++ data) = none ∧ maxHeaderBytes < (h.buf ++ data).length
  else h.line ≠ [] ∧ LF ∉ data ∧ maxHeaderBytes + maxFeed < h.line.length + data.length

/-- The feed ends the line that is held, or keeps it within the bound. -/
def LineFits (h : Held) (data : Bytes) : Prop :=
  LF ∈ data ∨ h.line.length + data.length ≤ maxHeaderBytes + maxFeed

instance (h : Held) (data : Bytes) : Decidable (h.LineFits data) :=
  inferInstanceAs (Decidable (_ ∨ _))

/-- Between two feeds: a partial line is held apart from the buffer, which is empty then. -/
structure Settled (h : Held) : Prop where
  buf : h.buf.length ≤ maxHeaderBytes
  line : h.line ≠ [] → h.buf = []

/-- A buffer that is about to be parsed, behind a partial line. -/
def Ready (h : Held) : Prop := h.line = [] ∨ LF ∈ h.buf ∨ h.Bounded

/-- What a parser that awaits more has made of a buffer: little is left, or all of it went onto
the line. -/
structure Waits (before after : Held) : Prop where
  settled : after.Settled
  left : after.size ≤ maxHeaderBytes ∨
    (before.line ≠ [] ∧ LF ∉ before.buf ∧ after.line = before.line ++ before.buf)

theorem Waits.bounded {before after : Held} (h : Waits before after) (hr : before.Ready) :
    after.Bounded := by
  unfold Bounded
  rcases h.left with hle | ⟨hline, hlf, hall⟩
  · omega
  · have hnil : after.buf = [] := h.settled.line (by simp [hall, hline])
    have hsize : after.size = before.size := by
      rw [size, size, hnil, hall, List.length_append, List.length_nil]
      omega
    rw [hsize]
    exact (hr.resolve_left hline).resolve_left hlf

theorem Waits.head {h : Held} (hline : h.line = []) (hle : h.buf.length ≤ maxHeaderBytes) :
    Waits h h := by
  refine ⟨⟨hle, fun hne => absurd hline hne⟩, Or.inl ?_⟩
  rw [size, hline, List.length_nil]
  omega

theorem Waits.reheaded {before after : Held} (h : Waits before after) (a b : Bool) :
    Waits { before with inHead := a } { after with inHead := b } :=
  ⟨⟨h.settled.buf, h.settled.line⟩, h.left⟩

theorem Settled.empty (inHead : Bool) : Settled { buf := [], inHead } :=
  ⟨Nat.zero_le _, fun _ => rfl⟩

theorem Bounded.empty (inHead : Bool) : Bounded { buf := [], inHead } := Nat.zero_le _

/-- What is settled is ready for a feed that its line fits. -/
theorem Settled.ready {h : Held} {data : Bytes} (hs : h.Settled) (hf : h.LineFits data) :
    Ready { h with buf := h.buf ++ data } := by
  by_cases hline : h.line = []
  · exact Or.inl hline
  · right
    have hnil := hs.line hline
    refine hf.imp (fun hlf => by simp [hlf]) fun hle => ?_
    have hsize : size { h with buf := [] ++ data } = data.length + h.line.length := rfl
    rw [Bounded, hnil, hsize]
    omega

theorem Settled.length_feed {h : Held} {data : Bytes} (hs : h.Settled)
    (hd : data.length ≤ maxFeed) : (h.buf ++ data).length ≤ maxHeaderBytes + maxFeed := by
  have := hs.buf
  rw [List.length_append]
  omega

end Held

section Chunks

variable {line buf : Bytes}

theorem readLine_unended (hne : buf ≠ []) (hlf : LF ∉ buf) (hcap : buf.length ≤ maxHeaderBytes) :
    readLine (some maxHeaderBytes) line buf = .stash (line ++ buf) := by
  unfold readLine
  rw [position_eq_none.mpr hlf, if_neg hne, if_neg (by simpa using hcap)]

theorem slack_le (st : ChunkState) : slack st ≤ 2 := by
  cases st <;> simp [slack]

theorem slack_of_line {st : ChunkState} (h : st.line ≠ []) : slack st = 0 := by
  cases st with
  | size | trailer | data => rfl
  | dataCrlf => exact absurd rfl h

theorem readLine_stash_le {l : Bytes}
    (h : readLine (some maxHeaderBytes) line buf = .stash l) :
    LF ∉ buf ∧ buf.length ≤ maxHeaderBytes ∧ l = line ++ buf := by
  unfold readLine at h
  split at h
  · simp at h
  · next hpos =>
    split_ifs at h with hnil hcap
    simp only [LineRead.stash.injEq] at h
    exact ⟨position_eq_none.mp hpos, by simpa using hcap, h.symm⟩

/-- Where the decoder's loop stands in a buffer: it has not begun, has no line open, or has put the
end of the buffer onto a line. -/
inductive Reading (st : ChunkState) (buf : Bytes) (l : ChunkLoop) : Prop
  | start (hst : l.state = st) (hbuf : l.buf = buf)
  | fresh (hline : l.state.line = [])
  | stashed (hbuf : l.buf = []) (hle : l.state.line.length ≤ maxHeaderBytes)
  | grown (hbuf : l.buf = []) (hlf : LF ∉ buf) (hle : buf.length ≤ maxHeaderBytes)
      (hline : l.state.line = st.line ++ buf)

/-- A line taken off the buffer goes onto a line that is open, or starts one. -/
theorem Reading.stash {st : ChunkState} {l : ChunkLoop} (h : Reading st buf l)
    (hne : l.buf ≠ []) (hlf : LF ∉ l.buf) (hle : l.buf.length ≤ maxHeaderBytes) {l' : ChunkLoop}
    (hbuf : l'.buf = []) (hline : l'.state.line = l.state.line ++ l.buf) : Reading st buf l' := by
  cases h with
  | start hst hb =>
    subst hst hb
    exact .grown hbuf hlf hle hline
  | fresh hnil => exact .stashed hbuf (by rw [hline, hnil, List.nil_append]; exact hle)
  | stashed hb => exact absurd hb hne
  | grown hb => exact absurd hb hne

theorem Reading.step {st : ChunkState} {l l' : ChunkLoop} {o : Bytes} (h : Reading st buf l)
    (hs : chunkStep (some maxHeaderBytes) l = some (o, l')) (hmore : l'.status = .needMore) :
    Reading st buf l' := by
  unfold chunkStep at hs
  split at hs
  · next line b =>
    cases hr : readLine (some maxHeaderBytes) line b with
    | wait => simp [hr] at hs
    | tooLong =>
      obtain ⟨-, rfl⟩ := by simpa [hr] using hs
      cases hmore
    | stash l =>
      obtain ⟨-, rfl⟩ := by simpa [hr] using hs
      obtain ⟨hlf, hle, hl⟩ := readLine_stash_le hr
      exact h.stash (List.length_pos_iff.mp (readLine_stash hr).1) hlf hle rfl hl
    | line l rest =>
      simp only [hr] at hs
      split at hs <;> obtain ⟨-, rfl⟩ := by simpa using hs
      · cases hmore
      · exact .fresh rfl
      · exact .fresh rfl
  · obtain ⟨-, rfl⟩ := by simpa using hs
    exact .fresh rfl
  · simp at hs
  · obtain ⟨-, rfl⟩ := by simpa using hs
    exact .fresh rfl
  · simp at hs
  · split_ifs at hs
    · split at hs
      · simp at hs
      · obtain ⟨-, rfl⟩ := by simpa using hs
        exact .fresh rfl
    · obtain ⟨-, rfl⟩ := by simpa using hs
      exact .fresh rfl
  · next line b =>
    cases hr : readLine (some maxHeaderBytes) line b with
    | wait => simp [hr] at hs
    | tooLong =>
      obtain ⟨-, rfl⟩ := by simpa [hr] using hs
      cases hmore
    | stash l =>
      obtain ⟨-, rfl⟩ := by simpa [hr] using hs
      obtain ⟨hlf, hle, hl⟩ := readLine_stash_le hr
      exact h.stash (List.length_pos_iff.mp (readLine_stash hr).1) hlf hle rfl hl
    | line l rest =>
      simp only [hr] at hs
      split_ifs at hs <;> obtain ⟨-, rfl⟩ := by simpa using hs
      · cases hmore
      · exact .fresh rfl
  · simp at hs
  · simp at hs

/-- A decoder that awaits more has left little, or has put all it was given onto its line. -/
theorem consume_waits {r : ChunkReader} (h : (r.consume buf).step = .needMore) :
    Held.Waits { buf, line := r.state.line }
      { buf := (r.consume buf).rest, line := (r.consume buf).reader.state.line } := by
  have hread := (chunkFeeder (some maxHeaderBytes)).run_invariant
    (P := fun _ l => l.status = .needMore → Reading r.state buf l)
    (s := { state := r.state, buf }) (o := []) (fun _ => .start rfl rfl)
    fun _ l _ l' hl hs hmore => by
      refine (hl ?_).step hs hmore
      by_contra hstop
      rw [show (chunkFeeder _).step l = none from chunkStep_stopped hstop] at hs
      cases hs
  have hhalt := (chunkFeeder (some maxHeaderBytes)).run_halts { state := r.state, buf }
  unfold ChunkReader.consume ChunkReader.consumeWithin at h ⊢
  dsimp only at h ⊢
  generalize ((chunkFeeder (some maxHeaderBytes)).run { state := r.state, buf }).2 = l at *
  obtain ⟨st, rest, status⟩ := l
  obtain rfl : status = .needMore := h
  have hleft : rest.length ≤ slack st := chunkStep_waits hhalt
  have hsmall : rest.length ≤ 2 := hleft.trans (slack_le st)
  have hnil : st.line ≠ [] → rest = [] := fun hline =>
    List.length_eq_zero_iff.mp (by rw [slack_of_line hline] at hleft; omega)
  have hmax : 2 ≤ maxHeaderBytes := by decide
  refine ⟨⟨hsmall.trans hmax, hnil⟩, ?_⟩
  unfold Held.size
  dsimp only
  cases hread rfl with
  | start hst hbuf =>
    subst hst hbuf
    by_cases hline : r.state.line = []
    · left
      rw [hline, List.length_nil]
      omega
    · right
      have hb := hnil hline
      subst hb
      exact ⟨hline, by simp, (List.append_nil _).symm⟩
  | fresh hline =>
    left
    have hz : st.line.length = 0 := by rw [show st.line = [] from hline, List.length_nil]
    omega
  | stashed hbuf hle =>
    left
    have hb : rest.length = 0 := by rw [show rest = [] from hbuf, List.length_nil]
    have hl : st.line.length ≤ maxHeaderBytes := hle
    omega
  | grown hbuf hlf hle hline =>
    have hb : rest.length = 0 := by rw [show rest = [] from hbuf, List.length_nil]
    have hl : st.line = r.state.line ++ buf := hline
    by_cases hown : r.state.line = []
    · left
      rw [hl, hown, List.nil_append]
      omega
    · exact Or.inr ⟨hown, hlf, hl⟩

/-- A piece that does not end the line it goes onto is put onto it whole, however long the line
has become. -/
theorem consume_stash {st : ChunkState} (hline : st.line ≠ []) (hne : buf ≠ [])
    (hlf : LF ∉ buf) (hcap : buf.length ≤ maxHeaderBytes) :
    ∃ st' : ChunkState, st'.line = st.line ++ buf ∧
      (chunkFeeder (some maxHeaderBytes)).run ⟨st, buf, .needMore⟩ = ([], ⟨st', [], .needMore⟩) := by
  have hread : ∀ line, readLine (some maxHeaderBytes) line buf = .stash (line ++ buf) :=
    fun line => readLine_unended hne hlf hcap
  suffices ∃ st' : ChunkState, st'.line = st.line ++ buf ∧
      (chunkFeeder (some maxHeaderBytes)).step ⟨st, buf, .needMore⟩ =
        some ([], ⟨st', [], .needMore⟩) ∧
      (chunkFeeder (some maxHeaderBytes)).step ⟨st', [], .needMore⟩ = none by
    obtain ⟨st', hst', hstep, hstop⟩ := this
    have hrun := (chunkFeeder (some maxHeaderBytes)).run_some hstep
    rw [(chunkFeeder (some maxHeaderBytes)).run_none hstop] at hrun
    exact ⟨st', hst', hrun⟩
  cases st with
  | data | dataCrlf => exact absurd rfl hline
  | size line =>
    refine ⟨.size (line ++ buf), rfl, ?_, ?_⟩
    · simp only [chunkFeeder, chunkStep, hread]
    · simp [chunkFeeder, chunkStep, readLine, position]
  | trailer line =>
    refine ⟨.trailer (line ++ buf), rfl, ?_, ?_⟩
    · simp only [chunkFeeder, chunkStep, hread]
    · simp [chunkFeeder, chunkStep, readLine, position]

theorem consume_idle {st : ChunkState} (hline : st.line ≠ []) :
    (chunkFeeder (some maxHeaderBytes)).run ⟨st, [], .needMore⟩ = ([], ⟨st, [], .needMore⟩) := by
  refine (chunkFeeder (some maxHeaderBytes)).run_none ?_
  cases st with
  | data | dataCrlf => exact absurd rfl hline
  | size | trailer => simp [chunkFeeder, chunkStep, readLine, position]

theorem consume_unended {r : ChunkReader} (hline : r.state.line ≠ []) (hne : buf ≠ [])
    (hlf : LF ∉ buf) (hcap : buf.length ≤ maxHeaderBytes) :
    (r.consume buf).step = .needMore ∧ (r.consume buf).rest = [] ∧
      (r.consume buf).reader.state.line = r.state.line ++ buf := by
  obtain ⟨st', hst', hrun⟩ := consume_stash hline hne hlf hcap
  simp only [ChunkReader.consume, ChunkReader.consumeWithin, hrun]
  exact ⟨trivial, trivial, hst'⟩

theorem consume_unended_decoded {r : ChunkReader} (hline : r.state.line ≠ []) (hne : buf ≠ [])
    (hlf : LF ∉ buf) (hcap : buf.length ≤ maxHeaderBytes) : (r.consume buf).decoded = [] := by
  obtain ⟨st', -, hrun⟩ := consume_stash hline hne hlf hcap
  simp only [ChunkReader.consume, ChunkReader.consumeWithin, hrun]

end Chunks

end Adwarden.Tls
