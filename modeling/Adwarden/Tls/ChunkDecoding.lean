import Adwarden.Tls.HttpTapGrammar
import Adwarden.Tls.RewriterInsert

/-! The chunk reader called again and again while the input arrives. -/
namespace Adwarden.Tls
open Adwarden.Lib

/-- What the calls to `consume` have left: the step of the last one, the reader and its buffer, one
target that every call appended to, and what each call decoded. -/
structure Decoding where
  step : Step := .needMore
  reader : ChunkReader := {}
  buf : Bytes := []
  target : Capture := {}
  decoded : List Bytes := []

namespace Decoding

/-- The next piece of input, and a call on it if the reader wants more. -/
def call (d : Decoding) (piece : Bytes) : Decoding :=
  if d.step = .needMore then
    let c := d.reader.consume (d.buf ++ piece)
    { step := c.step
      reader := c.reader
      buf := c.rest
      target := pushCapped d.target c.decoded
      decoded := d.decoded ++ [c.decoded] }
  else { d with buf := d.buf ++ piece }

def calls (d : Decoding) (pieces : List Bytes) : Decoding := pieces.foldl call d

/-- The bytes that reach targets of which every call has its own. -/
def segments (d : Decoding) : List Bytes := d.decoded.map fun s => (pushCapped {} s).captured

/-- A decoding that has delivered all of `body` but `todo`, with the bytes `later` still to come,
`t` of them behind the coded body. -/
structure Reaches (lines : ℕ) (t body : Bytes) (d : Decoding) (later todo : Bytes) : Prop where
  decoded : d.decoded.flatten ++ todo = body
  target : d.target = .of d.decoded.flatten
  stands : (d.step = .needMore ∧ ChunkAt lines t d.reader.state (d.buf ++ later) todo ∧
      d.buf.length ≤ slack d.reader.state ∧ t.length < later.length) ∨
    (d.step = .done ∧ todo = [] ∧ d.buf ++ later = t)

variable {lines : ℕ} {t body : Bytes} {d : Decoding}

theorem call_reaches {later todo piece : Bytes} (h : d.Reaches lines t body (piece ++ later) todo)
    (hfit : lines ≤ maxHeaderBytes ∨ piece.length ≤ maxHeaderBytes) :
    ∃ todo', (d.call piece).Reaches lines t body later todo' := by
  rcases h.stands with ⟨hstep, hat, hslack, -⟩ | ⟨hstep, rfl, hend⟩
  · rw [← List.append_assoc] at hat
    have hfits : Fits (some maxHeaderBytes) lines d.reader.state (d.buf ++ piece) := by
      intro c hc
      obtain rfl := Option.mem_some_iff.mp hc
      refine ⟨by decide, hfit.imp_right fun hp => ?_⟩
      rw [List.length_append]
      omega
    obtain ⟨todo', hrun⟩ := chunkFeeder_run_at hat hfits
    have hhalt := (chunkFeeder (some maxHeaderBytes)).run_halts
      { state := d.reader.state, buf := d.buf ++ piece }
    have hwaits : (d.reader.consume (d.buf ++ piece)).step = .needMore →
        (d.reader.consume (d.buf ++ piece)).rest.length ≤
          slack (d.reader.consume (d.buf ++ piece)).reader.state := by
      intro hmore
      refine chunkStep_waits (?_ : chunkStep (some maxHeaderBytes) _ = none)
      rw [← hmore]
      exact hhalt
    rw [call, if_pos hstep]
    refine ⟨todo', ?_, ?_, ?_⟩
    · have hbody := h.decoded
      rw [hrun.stepped.body] at hbody
      simpa [ChunkReader.consume, ChunkReader.consumeWithin] using hbody
    · simp [ChunkReader.consume, ChunkReader.consumeWithin, h.target, pushCapped_of]
    · rcases hrun.stepped.at_ with ⟨hmore, hat'⟩ | ⟨hdone, -, htodo, hend⟩
      · left
        exact ⟨hmore, hat', hwaits hmore, hrun.due hmore⟩
      · right
        exact ⟨hdone, htodo, hend⟩
  · rw [call, if_neg (by simp [hstep])]
    exact ⟨[], h.decoded, h.target, Or.inr ⟨hstep, rfl, by rwa [List.append_assoc]⟩⟩

theorem calls_reaches {pieces : List Bytes} {later todo : Bytes}
    (h : d.Reaches lines t body (pieces.flatten ++ later) todo)
    (hfit : lines ≤ maxHeaderBytes ∨ ∀ p ∈ pieces, p.length ≤ maxHeaderBytes) :
    ∃ todo', (d.calls pieces).Reaches lines t body later todo' := by
  induction pieces generalizing d todo with
  | nil => exact ⟨todo, h⟩
  | cons piece pieces ih =>
    rw [List.flatten_cons, List.append_assoc] at h
    obtain ⟨todo', h'⟩ := call_reaches h (hfit.imp_right fun hp => hp _ (List.mem_cons_self ..))
    exact ih h' (hfit.imp_right fun hp p hm => hp p (List.mem_cons_of_mem _ hm))

theorem Reaches.new {wire later : Bytes} (hw : Chunked lines wire body)
    (hl : later = wire ++ t) : ({} : Decoding).Reaches lines t body later body := by
  refine ⟨rfl, by simp [Capture.of], Or.inl ⟨rfl, .size (by simpa using hl) hw (by simp),
    Nat.zero_le _, ?_⟩⟩
  obtain ⟨line, n, tail, rfl, hline, -, -⟩ := hw.head
  obtain ⟨text, rfl, -⟩ := hline.line
  rw [hl]
  simp only [List.length_append, List.length_singleton]
  omega

theorem segments_flatten (h : ∀ s ∈ d.decoded, s.length ≤ maxBodyCapture) :
    d.segments.flatten = d.decoded.flatten := by
  have hself : d.segments = d.decoded.map id := by
    apply List.map_congr_left
    intro s hs
    have hle := h s hs
    simp [pushCapped, hle]
  rw [hself, List.map_id]

end Decoding

/-- What decoding a coded body comes to when the bytes of `pieces` have arrived. -/
structure Decodes (wire body : Bytes) (pieces : List Bytes) : Prop where
  waits : pieces.flatten.length < wire.length →
    (({} : Decoding).calls pieces).step = .needMore
  ends : wire.length ≤ pieces.flatten.length → (({} : Decoding).calls pieces).step = .done ∧
    (({} : Decoding).calls pieces).decoded.flatten = body ∧
    (({} : Decoding).calls pieces).target = .of body ∧
    ((∀ s ∈ (({} : Decoding).calls pieces).decoded, s.length ≤ maxBodyCapture) →
      (({} : Decoding).calls pieces).segments.flatten = body) ∧
    (({} : Decoding).calls pieces).buf = pieces.flatten.drop wire.length

/-- A coded body followed by anything is decoded under any cut. -/
theorem Chunked.decodes {lines : ℕ} {wire body t : Bytes} (hw : Chunked lines wire body)
    {pieces : List Bytes} (hp : pieces.flatten <+: wire ++ t)
    (hfit : lines ≤ maxHeaderBytes ∨ ∀ p ∈ pieces, p.length ≤ maxHeaderBytes) :
    Decodes wire body pieces := by
  obtain ⟨later, hlater⟩ := hp
  obtain ⟨todo, h⟩ := Decoding.calls_reaches (Decoding.Reaches.new hw hlater) hfit
  have hlen := congrArg List.length hlater
  rw [List.length_append, List.length_append] at hlen
  rcases h.stands with ⟨hstep, -, -, hdue⟩ | ⟨hstep, rfl, hend⟩
  · refine ⟨fun _ => hstep, fun hle => ?_⟩
    omega
  · have hbody := h.decoded
    rw [List.append_nil] at hbody
    have hshort := congrArg List.length hend
    rw [List.length_append] at hshort
    refine ⟨fun hlt => ?_, fun hle => ⟨hstep, hbody, ?_, fun hs => ?_, ?_⟩⟩
    · omega
    · rw [h.target, hbody]
    · rw [Decoding.segments_flatten hs, hbody]
    · have hdrop := congrArg (List.drop wire.length) hlater
      rw [List.drop_left, List.drop_append_of_le_length hle, ← hend] at hdrop
      exact (List.append_cancel_right hdrop).symm

/-- Chunked decoding inverts chunked encoding under any cut, and chunks written anew decode to
what was put into them. -/
theorem chunked_decoding_inverts {lines : ℕ} {wire body t : Bytes} {pieces : List Bytes}
    (hw : Chunked lines wire body) (hp : pieces.flatten <+: wire ++ t)
    (hfit : lines ≤ maxHeaderBytes ∨ ∀ p ∈ pieces, p.length ≤ maxHeaderBytes) :
    Decodes wire body pieces ∧
      ∀ ds cuts : List Bytes, (∀ d ∈ ds, d.length < usizeSize) →
        cuts.flatten = ds.flatMap rechunk ++ ascii "0\r\n\r\n" →
        (({} : Decoding).calls cuts).step = .done ∧
          (({} : Decoding).calls cuts).decoded.flatten = ds.flatten := by
  refine ⟨hw.decodes hp hfit, fun ds cuts hds hcuts => ?_⟩
  have hcoded := chunked_rechunk hds
  have hall := @Chunked.decodes _ _ _ [] hcoded cuts (by rw [hcuts, List.append_nil])
    (Or.inl (by decide))
  obtain ⟨hstep, hbody, -⟩ := hall.ends (by rw [hcuts])
  exact ⟨hstep, hbody⟩

def codedAbc : Bytes := ascii "3;x\r\nabc\r\n0\r\nT: v\r\n\r\n"

theorem chunked_decoding_abc :
    Decodes codedAbc (ascii "abc") [ascii "3;x\r\nabc\r", ascii "\n0\r\nT: v\r\n\r\nHTTP"] ∧
      ∀ ds cuts : List Bytes, (∀ d ∈ ds, d.length < usizeSize) →
        cuts.flatten = ds.flatMap rechunk ++ ascii "0\r\n\r\n" →
        (({} : Decoding).calls cuts).step = .done ∧
          (({} : Decoding).calls cuts).decoded.flatten = ds.flatten := by
  have hline : SizeLine (ascii "3;x\r\n") 3 :=
    ⟨⟨ascii "3", ascii ";x", by decide, by decide, by decide +kernel, by decide +kernel, by decide,
      Or.inr (by decide)⟩, by simp [usizeSize, usizeBits]⟩
  have htrailer : ∀ t ∈ [ascii "T: v\r\n"], TrailerLine t ∧ t.length ≤ 18 := by
    intro t ht
    obtain rfl := List.mem_singleton.mp ht
    exact ⟨⟨ascii "T: v", by decide, by decide, by decide, by decide⟩, by decide⟩
  have hlast := Chunked.last sizeLine_zero (by decide) htrailer
  have hcoded := @Chunked.chunk 18 _ (ascii "abc") _ _ hline (by decide) (by decide) hlast
  exact @chunked_decoding_inverts 18 codedAbc (ascii "abc") (ascii "HTTP") _ hcoded
    (by decide +kernel) (Or.inl (by decide))

end Adwarden.Tls
