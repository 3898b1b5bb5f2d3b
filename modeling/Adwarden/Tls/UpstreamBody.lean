import Adwarden.Tls.HttpTapGrammar
import Adwarden.Tls.UpstreamParse

/-! One response of the resolver under every cut: which body is reported for it. -/
namespace Adwarden.Tls
open Adwarden.Lib

/-- The responses that a sequence of calls reports. -/
def H1Responses.feedAll (s : H1Responses) : List Bytes → List UpResponse
  | [] => []
  | piece :: pieces => (s.feed piece).1 ++ (s.feed piece).2.feedAll pieces

/-- A head, up to its blank line, and what it says of the response. -/
structure ReadAs (head : Bytes) (status : ℕ) (contentType : Str) (framing : Option Framing) :
    Prop where
  whole : findHeaderEnd head = some head.length
  read : responseHead head = some (status, contentType, framing)

/-- The response `head ++ wire` has the body `body`, by its declared length or in the chunked
coding, and `reported` is what its capture holds in the end. -/
inductive Framed (lines : ℕ) (status : ℕ) (contentType : Str) :
    (head wire body reported : Bytes) → Prop
  | empty {head : Bytes} (h : ReadAs head status contentType none) :
      Framed lines status contentType head [] [] []
  | sized {head body : Bytes} (h : ReadAs head status contentType (some (.length body.length)))
      (hne : body ≠ []) : Framed lines status contentType head body body body
  | chunked {head wire body : Bytes} (h : ReadAs head status contentType (some (.chunked {})))
      (hw : Chunked lines wire body) :
      Framed lines status contentType head wire body (body.take maxBodyCapture)

/-- The parser stands in a response, of which `rest` has not arrived yet. -/
inductive Stands (lines : ℕ) (status : ℕ) (contentType : Str) (head wire reported : Bytes) :
    H1Responses → (rest : Bytes) → Prop
  | head {buf rest : Bytes} (h : buf ++ rest = head ++ wire) :
      Stands lines status contentType head wire reported ⟨buf, none⟩ rest
  | sized {buf rest : Bytes} {c : Capture} (hne : buf ++ rest ≠ [])
      (hb : c.captured ++ (buf ++ rest) = reported) :
      Stands lines status contentType head wire reported
        ⟨buf, some ⟨status, contentType, .length (buf ++ rest).length, c⟩⟩ rest
  | chunked {buf rest taken todo : Bytes} {st : ChunkState}
      (h : ChunkAt lines [] st (buf ++ rest) todo)
      (hb : (taken ++ todo).take maxBodyCapture = reported) :
      Stands lines status contentType head wire reported
        ⟨buf, some ⟨status, contentType, .chunked ⟨st⟩, .of taken⟩⟩ rest

section Step

variable {lines status : ℕ} {contentType : Str} {head wire body reported : Bytes}

/-- What an iteration does from a position: it waits for bytes that are due, goes on, or reports
the response at its end. -/
def StandSteps (lines status : ℕ) (contentType : Str) (head wire reported : Bytes)
    (s : H1Responses) (rest : Bytes) : Prop :=
  (responsesStep (some maxHeaderBytes) ⟨s, false⟩ = none ∧ rest ≠ []) ∨
  (∃ s', responsesStep (some maxHeaderBytes) ⟨s, false⟩ = some ([], ⟨s', false⟩) ∧
    Room lines s' ∧ Stands lines status contentType head wire reported s' rest) ∨
  (responsesStep (some maxHeaderBytes) ⟨s, false⟩ =
    some ([⟨status, contentType, reported⟩], ⟨⟨[], none⟩, false⟩) ∧ rest = [])

private theorem standSteps_sized {buf rest : Bytes} {c : Capture} (hne : buf ++ rest ≠ [])
    (hb : c.captured ++ (buf ++ rest) = reported)
    (hr : lines ≤ maxHeaderBytes ∨ buf.length ≤ maxHeaderBytes) :
    StandSteps lines status contentType head wire reported
      ⟨buf, some ⟨status, contentType, .length (buf ++ rest).length, c⟩⟩ rest := by
  have h0 : (buf ++ rest).length ≠ 0 := by simpa using hne
  by_cases hbuf : buf = []
  · left
    subst hbuf
    have hrest : rest ≠ [] := hne
    exact ⟨by simp [responsesStep, consumeBody, hrest], hrest⟩
  · by_cases hrest : rest = []
    · right; right
      subst hrest
      rw [List.append_nil] at hb h0
      exact ⟨by simp [responsesStep, consumeBody, h0, hb], rfl⟩
    · right; left
      have hmin : min (buf ++ rest).length buf.length = buf.length := by simp
      have hleft : (buf ++ rest).length - buf.length = rest.length := by simp
      refine ⟨⟨[], some ⟨status, contentType, .length ([] ++ rest).length,
        { c with captured := c.captured ++ buf, wireLen := c.wireLen + buf.length }⟩⟩, ?_,
        hr.imp id fun _ => Nat.zero_le _,
        .sized (show [] ++ rest ≠ [] from hrest) (by simpa using hb)⟩
      simp only [responsesStep, consumeBody, hmin, h0, if_false, List.take_length,
        List.drop_length, hleft]
      simp [hrest, Ne.symm hbuf]

private theorem standSteps_chunked {buf rest taken todo : Bytes} {st : ChunkState}
    (h : ChunkAt lines [] st (buf ++ rest) todo)
    (hb : (taken ++ todo).take maxBodyCapture = reported)
    (hr : Fits (some maxHeaderBytes) lines st buf) :
    StandSteps lines status contentType head wire reported
      ⟨buf, some ⟨status, contentType, .chunked ⟨st⟩, .of taken⟩⟩ rest := by
  obtain ⟨todo', hrun⟩ := chunkFeeder_run_at h hr
  obtain ⟨⟨o, st', buf', step⟩, hres⟩ :
    ∃ r, (chunkFeeder (some maxHeaderBytes)).run ⟨st, buf, .needMore⟩ = r := ⟨_, rfl⟩
  rw [hres] at hrun
  have hconsume : consumeBody (some maxHeaderBytes)
      ⟨status, contentType, .chunked ⟨st⟩, .of taken⟩ buf =
        ⟨step, ⟨status, contentType, .chunked ⟨st'⟩, .of (taken ++ o)⟩, buf'⟩ := by
    simp [consumeBody, ChunkReader.consumeWithin, hres, pushCapped_of]
  have hbody : (taken ++ o ++ todo').take maxBodyCapture = reported := by
    rw [← hb, hrun.stepped.body, List.append_assoc]
  rcases hrun.stepped.at_ with ⟨hst, hat⟩ | ⟨hst, -, rfl, hend⟩
  · obtain rfl : step = .needMore := hst
    by_cases hsame : buf' = buf ∧ Framing.chunked ⟨st'⟩ = Framing.chunked ⟨st⟩
    · left
      refine ⟨by simp only [responsesStep, hconsume, if_pos hsame], ?_⟩
      rw [← List.length_pos_iff]
      exact hrun.due rfl
    · right; left
      exact ⟨⟨buf', some ⟨status, contentType, .chunked ⟨st'⟩, .of (taken ++ o)⟩⟩,
        by simp only [responsesStep, hconsume, if_neg hsame], hrun.fits, .chunked hat hbody⟩
  · obtain rfl : step = .done := hst
    right; right
    rw [List.append_nil] at hbody
    obtain ⟨rfl, rfl⟩ := List.append_eq_nil_iff.mp hend
    refine ⟨?_, rfl⟩
    simp only [responsesStep, hconsume]
    rw [← hbody]
    rfl

private theorem standSteps_head {buf rest : Bytes}
    (hf : Framed lines status contentType head wire body reported)
    (h : buf ++ rest = head ++ wire) (hr : Room lines ⟨buf, none⟩) :
    StandSteps lines status contentType head wire reported ⟨buf, none⟩ rest := by
  have hwhole : findHeaderEnd head = some head.length := by
    cases hf with
    | empty hread | sized hread | chunked hread => exact hread.whole
  cases he : findHeaderEnd buf with
  | none =>
    left
    refine ⟨by simp [responsesStep, he], ?_⟩
    rintro rfl
    rw [List.append_nil] at h
    rw [h, findHeaderEnd_append wire hwhole] at he
    cases he
  | some hend =>
    have hend' : hend = head.length := by
      have h1 := findHeaderEnd_append rest he
      rw [h, findHeaderEnd_append wire hwhole] at h1
      exact (Option.some.inj h1).symm
    obtain ⟨b', rfl⟩ : head <+: buf :=
      List.prefix_of_prefix_length_le ⟨_, h.symm⟩ (List.prefix_append _ _)
        (by rw [← hend']; exact (findHeaderEnd_le he).2)
    rw [List.append_assoc, List.append_cancel_left_eq] at h
    have htake : (head ++ b').take hend = head := by rw [hend', List.take_left]
    have hdrop : (head ++ b').drop hend = b' := by rw [hend', List.drop_left]
    have hroom : lines ≤ maxHeaderBytes ∨ b'.length ≤ maxHeaderBytes := by
      refine hr.imp id fun hb => ?_
      have hle := hb hend he
      rw [List.length_append] at hle
      omega
    cases hf with
    | empty hread =>
      right; right
      obtain ⟨rfl, rfl⟩ := List.append_eq_nil_iff.mp h
      refine ⟨?_, rfl⟩
      simp only [responsesStep, he, htake, hread.read, hdrop]
    | sized hread hne =>
      right; left
      subst h
      refine ⟨⟨b', some ⟨status, contentType, .length (b' ++ rest).length, {}⟩⟩, ?_, hroom,
        .sized hne rfl⟩
      simp only [responsesStep, he, htake, hread.read, hdrop]
    | chunked hread hw =>
      right; left
      refine ⟨⟨b', some ⟨status, contentType, .chunked ⟨.size []⟩, .of []⟩⟩, ?_, ?_,
        .chunked (.size (by simpa using h) hw (by simp)) rfl⟩
      · simp only [responsesStep, he, htake, hread.read, hdrop]
        rfl
      · intro c hc
        obtain rfl := Option.mem_some_iff.mp hc
        exact ⟨by decide, hroom⟩

theorem responsesStep_stands {s : H1Responses} {rest : Bytes}
    (hf : Framed lines status contentType head wire body reported)
    (h : Stands lines status contentType head wire reported s rest) (hr : Room lines s) :
    StandSteps lines status contentType head wire reported s rest := by
  cases h with
  | head h => exact standSteps_head hf h hr
  | sized hne hb => exact standSteps_sized hne hb hr
  | chunked h hb => exact standSteps_chunked h hb hr

/-- What a call from a position leaves: a position with more bytes due, or the response reported. -/
def StandRuns (lines status : ℕ) (contentType : Str) (head wire reported rest : Bytes)
    (r : List UpResponse × ResponsesLoop) : Prop :=
  (r.1 = [] ∧ r.2.broke = false ∧ Stands lines status contentType head wire reported r.2.side rest ∧
    rest ≠ []) ∨
  (r = ([⟨status, contentType, reported⟩], ⟨⟨[], none⟩, false⟩) ∧ rest = [])

theorem responsesFeeder_stands {s : H1Responses} {rest : Bytes}
    (hf : Framed lines status contentType head wire body reported)
    (h : Stands lines status contentType head wire reported s rest) (hr : Room lines s) :
    StandRuns lines status contentType head wire reported rest
      ((responsesFeeder (some maxHeaderBytes)).run ⟨s, false⟩) := by
  suffices ∀ l : ResponsesLoop, l.broke = false →
      Stands lines status contentType head wire reported l.side rest → Room lines l.side →
      StandRuns lines status contentType head wire reported rest
        ((responsesFeeder (some maxHeaderBytes)).run l) from this ⟨s, false⟩ rfl h hr
  intro l
  refine (responsesFeeder (some maxHeaderBytes)).run_induction (P := fun l r => l.broke = false →
    Stands lines status contentType head wire reported l.side rest → Room lines l.side →
    StandRuns lines status contentType head wire reported rest r) l ?_ ?_
  · rintro ⟨s, _⟩ hnone rfl h hr
    have hn : responsesStep (some maxHeaderBytes) ⟨s, false⟩ = none := hnone
    rcases responsesStep_stands hf h hr with ⟨-, hrest⟩ | ⟨s', hs, -⟩ | ⟨hs, -⟩
    · exact Or.inl ⟨rfl, rfl, h, hrest⟩
    · rw [hn] at hs
      cases hs
    · rw [hn] at hs
      cases hs
  · rintro ⟨s, _⟩ o l' hsome ih rfl h hr
    have hs' : responsesStep (some maxHeaderBytes) ⟨s, false⟩ = some (o, l') := hsome
    rcases responsesStep_stands hf h hr with ⟨hs, -⟩ | ⟨s', hs, hr', h'⟩ | ⟨hs, hrest⟩
    · rw [hs] at hs'
      cases hs'
    · rw [hs] at hs'
      obtain ⟨rfl, rfl⟩ := Prod.mk.inj (Option.some.inj hs')
      exact ih rfl h' hr'
    · rw [hs] at hs'
      obtain ⟨rfl, rfl⟩ := Prod.mk.inj (Option.some.inj hs')
      have hstop : (responsesFeeder (some maxHeaderBytes)).step ⟨⟨[], none⟩, false⟩ = none := by
        decide
      rw [(responsesFeeder (some maxHeaderBytes)).run_none hstop]
      exact Or.inr ⟨rfl, hrest⟩

/-- A position after more bytes have come. -/
theorem Stands.ext {s : H1Responses} {d rest : Bytes}
    (h : Stands lines status contentType head wire reported s (d ++ rest)) :
    Stands lines status contentType head wire reported { s with buf := s.buf ++ d } rest := by
  cases h with
  | head h => exact .head (by rwa [List.append_assoc])
  | sized hne hb =>
    rw [← List.append_assoc] at hne ⊢
    exact .sized hne (by rwa [List.append_assoc])
  | chunked h hb => exact .chunked (by rwa [List.append_assoc]) hb

theorem feedAll_nil {pieces : List Bytes} (h : pieces.flatten = []) :
    ({} : H1Responses).feedAll pieces = [] := by
  induction pieces with
  | nil => rfl
  | cons piece pieces ih =>
    obtain ⟨rfl, hp⟩ := List.append_eq_nil_iff.mp (List.flatten_cons ▸ h)
    have hfeed : ({} : H1Responses).feed [] = ([], {}) := by decide
    rw [H1Responses.feedAll, hfeed, ih hp]
    rfl

theorem feedAll_stands {s : H1Responses} {pieces : List Bytes}
    (hf : Framed lines status contentType head wire body reported)
    (h : Stands lines status contentType head wire reported s pieces.flatten)
    (hhalt : responsesStep (some maxHeaderBytes) ⟨s, false⟩ = none) (hdue : pieces.flatten ≠ [])
    (hfit : lines ≤ maxHeaderBytes ∨ ∀ p ∈ pieces, p.length ≤ maxHeaderBytes) :
    s.feedAll pieces = [⟨status, contentType, reported⟩] := by
  induction pieces generalizing s with
  | nil => exact absurd rfl hdue
  | cons piece pieces ih =>
    rw [List.flatten_cons] at h
    have hroom := Room.piece hhalt (hfit.imp_right fun hp => hp _ (List.mem_cons_self ..))
    have hruns := responsesFeeder_stands hf h.ext hroom
    have hhalts := (responsesFeeder (some maxHeaderBytes)).run_halts
      ⟨{ s with buf := s.buf ++ piece }, false⟩
    have hfeed : s.feed piece = (((responsesFeeder (some maxHeaderBytes)).run
      ⟨{ s with buf := s.buf ++ piece }, false⟩).1, ((responsesFeeder (some maxHeaderBytes)).run
      ⟨{ s with buf := s.buf ++ piece }, false⟩).2.side) := rfl
    rw [H1Responses.feedAll, hfeed]
    generalize (responsesFeeder (some maxHeaderBytes)).run
      ⟨{ s with buf := s.buf ++ piece }, false⟩ = r at hruns hhalts ⊢
    obtain ⟨o, side, broke⟩ := r
    rcases hruns with ⟨rfl, rfl, hstands, hmore⟩ | ⟨hr, hnone⟩
    · exact ih hstands hhalts hmore (hfit.imp_right fun hp p hm => hp p (List.mem_cons_of_mem _ hm))
    · obtain ⟨rfl, hside⟩ := Prod.mk.inj hr
      obtain ⟨rfl, -⟩ := ResponsesLoop.mk.inj hside
      rw [feedAll_nil hnone]
      rfl

/-- A response is reported once it has come, with what its capture holds. -/
theorem Framed.feedAll_eq (hf : Framed lines status contentType head wire body reported)
    {pieces : List Bytes} (hp : pieces.flatten = head ++ wire)
    (hfit : lines ≤ maxHeaderBytes ∨ ∀ p ∈ pieces, p.length ≤ maxHeaderBytes) :
    ({} : H1Responses).feedAll pieces = [⟨status, contentType, reported⟩] := by
  have hwhole : findHeaderEnd head = some head.length := by
    cases hf with
    | empty hread | sized hread | chunked hread => exact hread.whole
  have hle := findHeaderEnd_le hwhole
  apply feedAll_stands hf (.head hp) (by decide) _ hfit
  rw [hp]
  intro hnil
  have hlen := congrArg List.length hnil
  rw [List.length_append, List.length_nil] at hlen
  omega

end Step

/-- The framing of a body by its length. -/
def lengthFraming (body : Bytes) : Option Framing :=
  if body = [] then none else some (.length body.length)

/-- A body is reported alike and whole for both framings exactly when it fits one capture. -/
theorem whole_body_iff {lines status : ℕ} {contentType : Str} {head head' wire body : Bytes}
    (hsized : ReadAs head status contentType (lengthFraming body))
    (hchunked : ReadAs head' status contentType (some (.chunked {})))
    (hw : Chunked lines wire body) {cuts cuts' : List Bytes}
    (hcuts : cuts.flatten = head ++ body) (hcuts' : cuts'.flatten = head' ++ wire)
    (hfit : lines ≤ maxHeaderBytes ∨ ∀ p ∈ cuts', p.length ≤ maxHeaderBytes) :
    (({} : H1Responses).feedAll cuts = [⟨status, contentType, body⟩] ∧
        ({} : H1Responses).feedAll cuts' = [⟨status, contentType, body⟩]) ↔
      body.length ≤ maxBodyCapture := by
  have hlength : ({} : H1Responses).feedAll cuts = [⟨status, contentType, body⟩] := by
    unfold lengthFraming at hsized
    split_ifs at hsized with hnil
    · subst hnil
      exact (@Framed.empty 0 _ _ _ hsized).feedAll_eq hcuts (Or.inl (Nat.zero_le _))
    · exact (@Framed.sized 0 _ _ _ _ hsized hnil).feedAll_eq hcuts (Or.inl (Nat.zero_le _))
  rw [(Framed.chunked hchunked hw).feedAll_eq hcuts' hfit]
  constructor
  · rintro ⟨-, hsame⟩
    have htake := (UpResponse.mk.inj (List.cons.inj hsame).1).2.2
    have hlen := congrArg List.length htake
    rw [List.length_take] at hlen
    omega
  · intro hle
    exact ⟨hlength, by rw [List.take_of_length_le hle]⟩

def sizedHead (n : String) : Bytes :=
  ascii ("HTTP/1.1 200 OK\r\nContent-Type: t\r\nContent-Length: " ++ n ++ "\r\n\r\n")

def chunkedHead : Bytes :=
  ascii "HTTP/1.1 200 OK\r\nContent-Type: t\r\nTransfer-Encoding: chunked\r\n\r\n"

private theorem readAs_chunkedHead :
    ReadAs chunkedHead 200 (Str.lit "t") (some (.chunked {})) := by
  constructor
  all_goals decide

theorem whole_body_two :
    (({} : H1Responses).feedAll [sizedHead "2", ascii "hi"] = [⟨200, Str.lit "t", ascii "hi"⟩] ∧
        ({} : H1Responses).feedAll [chunkedHead ++ ascii "2\r\nhi\r", ascii "\n0\r\n\r\n"] =
          [⟨200, Str.lit "t", ascii "hi"⟩]) ↔
      (ascii "hi").length ≤ maxBodyCapture := by
  have hline : SizeLine (ascii "2\r\n") 2 :=
    ⟨⟨ascii "2", [], by decide, by decide, by decide +kernel, by decide +kernel, by decide,
      Or.inl rfl⟩, by simp [usizeSize, usizeBits]⟩
  have hlast : Chunked 3 (ascii "0\r\n" ++ [].flatten ++ CRLF) [] :=
    .last sizeLine_zero (by decide) (by simp)
  have hw := @Chunked.chunk 3 _ (ascii "hi") _ _ hline (by decide) (by decide) hlast
  have hsized : ReadAs (sizedHead "2") 200 (Str.lit "t") (lengthFraming (ascii "hi")) := by
    constructor
    all_goals decide +kernel
  exact whole_body_iff hsized readAs_chunkedHead hw (by decide +kernel) (by decide +kernel)
    (Or.inl (by decide))

/-- A body that is one byte longer than the capture, in one chunk. -/
def longBody : Bytes := List.replicate (maxBodyCapture + 1) 120

def longWire : Bytes := ascii "80001\r\n" ++ longBody ++ CRLF ++ (ascii "0\r\n" ++ CRLF)

set_option maxRecDepth 4000 in
private theorem longWire_chunked : Chunked 7 longWire longBody := by
  have hlen : longBody.length = maxBodyCapture + 1 := List.length_replicate
  have hne : longBody ≠ [] := by
    rw [← List.length_pos_iff, hlen]
    exact Nat.succ_pos _
  have hline : SizeLine (ascii "80001\r\n") longBody.length := by
    rw [hlen]
    exact ⟨⟨ascii "80001", [], by decide, by decide, by decide, by decide,
      by decide, Or.inl rfl⟩, by simp [usizeSize, usizeBits, maxBodyCapture]⟩
  have hlast : Chunked 7 (ascii "0\r\n" ++ [].flatten ++ CRLF) [] :=
    .last sizeLine_zero (by decide) (by simp)
  have hw := Chunked.chunk hline (by decide) hne hlast
  rwa [List.append_nil] at hw

/-- With its length declared the body is reported, in the chunked coding only what fits. -/
theorem long_body_cut :
    ({} : H1Responses).feedAll [sizedHead "524289" ++ longBody] =
        [⟨200, Str.lit "t", longBody⟩] ∧
      ({} : H1Responses).feedAll [chunkedHead ++ longWire] ≠ [⟨200, Str.lit "t", longBody⟩] := by
  have hlen : longBody.length = maxBodyCapture + 1 := List.length_replicate
  have hne : longBody ≠ [] := by
    rw [← List.length_pos_iff, hlen]
    exact Nat.succ_pos _
  constructor
  · have hread : ReadAs (sizedHead "524289") 200 (Str.lit "t") (some (.length longBody.length)) := by
      rw [hlen]
      constructor
      all_goals decide +kernel
    exact (@Framed.sized 0 _ _ _ _ hread hne).feedAll_eq (by simp) (Or.inl (Nat.zero_le _))
  · rw [(Framed.chunked readAs_chunkedHead longWire_chunked).feedAll_eq (by simp)
      (Or.inl (by decide))]
    intro hsame
    have htake := congrArg List.length (UpResponse.mk.inj (List.cons.inj hsame).1).2.2
    rw [List.length_take, hlen] at htake
    omega

end Adwarden.Tls
