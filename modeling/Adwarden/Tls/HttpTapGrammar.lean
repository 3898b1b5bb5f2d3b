import Adwarden.Tls.HeadEditGrammar
import Adwarden.Tls.HttpTap

/-! Requests and responses as a grammar, and what the capture's parsers make of one message,
wherever the input is cut. -/
namespace Adwarden.Tls
open Adwarden.Lib

/-- What is captured of a body. -/
def Capture.of (body : Bytes) : Capture where
  captured := body.take maxBodyCapture
  wireLen := body.length
  truncated := maxBodyCapture < body.length

/-- Bodies are captured alike however they are cut. -/
theorem pushCapped_of (a b : Bytes) : pushCapped (.of a) b = .of (a ++ b) := by
  have hlen : (a.take maxBodyCapture).length = min maxBodyCapture a.length := List.length_take
  unfold pushCapped Capture.of
  dsimp only
  by_cases hle : b.length ≤ maxBodyCapture - (a.take maxBodyCapture).length
  · rw [if_pos hle]
    by_cases ha : a.length ≤ maxBodyCapture
    · have hab : a.length + b.length ≤ maxBodyCapture := by omega
      rw [List.take_of_length_le ha, List.take_of_length_le (by simpa using hab)]
      simp
      omega
    · obtain rfl : b = [] := List.length_eq_zero_iff.mp (by omega)
      simp
  · rw [if_neg hle, List.take_append, hlen]
    have hroom : maxBodyCapture - min maxBodyCapture a.length = maxBodyCapture - a.length := by
      omega
    simp [hroom]
    omega

/-- A request head as written. -/
structure ReqHead where
  method : Bytes
  target : Bytes
  fields : List Field

def isTargetByte (b : UInt8) : Bool := 33 ≤ b && b ≤ 126

structure ReqHead.WellFormed (r : ReqHead) : Prop where
  method : r.method ≠ [] ∧ ∀ b ∈ r.method, isNameByte b
  target : r.target ≠ [] ∧ ∀ b ∈ r.target, isTargetByte b
  fields : ∀ f ∈ r.fields, f.WellFormed

namespace ReqHead

variable {r : ReqHead}

def requestLine (r : ReqHead) : Bytes := r.method ++ 32 :: (r.target ++ ascii " HTTP/1.1")

def head (r : ReqHead) : Head where
  start := r.requestLine
  fields := r.fields

theorem targetByte_char {b : UInt8} (h : isTargetByte b) :
    b < 0x80 ∧ b ≠ 32 ∧ b ≠ CR ∧ b ≠ LF ∧ Char.ofNat b.toNat ≠ ' ' :=
  forall_byte (P := fun b => isTargetByte b = true →
    b < 0x80 ∧ b ≠ 32 ∧ b ≠ CR ∧ b ≠ LF ∧ Char.ofNat b.toNat ≠ ' ') (by decide +kernel) b h

theorem nameByte_target {b : UInt8} (h : isNameByte b) : isTargetByte b :=
  forall_byte (P := fun b => isNameByte b = true → isTargetByte b = true) (by decide +kernel) b h

theorem not_mem_space {s : Bytes} (h : ∀ b ∈ s, isTargetByte b) : ' ' ∉ asciiStr s := by
  simp only [asciiStr, List.mem_map, not_exists, not_and]
  exact fun b hb => (targetByte_char (h b hb)).2.2.2.2

theorem WellFormed.isLine (h : r.WellFormed) : IsLine r.requestLine := by
  have hm : ∀ b ∈ r.method, isTargetByte b := fun b hb => nameByte_target (h.method.2 b hb)
  have hno : ∀ {s : Bytes}, (∀ b ∈ s, isTargetByte b) → CR ∉ s ∧ LF ∉ s := fun hs =>
    ⟨fun hc => (targetByte_char (hs _ hc)).2.2.1 rfl, fun hc => (targetByte_char (hs _ hc)).2.2.2.1 rfl⟩
  have h1 : CR ∉ ascii " HTTP/1.1" := by decide
  have h2 : LF ∉ ascii " HTTP/1.1" := by decide
  refine ⟨by simp [requestLine], ?_, ?_⟩
  · simp [requestLine, (hno hm).1, (hno h.target.2).1, h1, show CR ≠ 32 by decide]
  · simp [requestLine, (hno hm).2, (hno h.target.2).2, h2, show LF ≠ 32 by decide]

theorem WellFormed.head (h : r.WellFormed) : r.head.WellFormed := ⟨h.isLine, h.fields⟩

theorem parseRequestLine_requestLine (h : r.WellFormed) :
    parseRequestLine r.requestLine =
      some (asciiStr r.method, asciiStr r.target, Str.lit "HTTP/1.1") := by
  have hm : ∀ b ∈ r.method, isTargetByte b := fun b hb => nameByte_target (h.method.2 b hb)
  have hascii : IsAscii r.requestLine := by
    intro b hb
    simp only [requestLine, List.mem_append, List.mem_cons] at hb
    rcases hb with hb | rfl | hb | hb
    · exact (targetByte_char (hm b hb)).1
    · decide
    · exact (targetByte_char (h.target.2 b hb)).1
    · revert b
      decide +kernel
  have htext : asciiStr r.requestLine =
      asciiStr r.method ++ ' ' :: (asciiStr r.target ++ ' ' :: Str.lit "HTTP/1.1") := by
    have h1 : asciiStr (ascii " HTTP/1.1") = ' ' :: Str.lit "HTTP/1.1" := by decide
    have h2 : ∀ s, asciiStr (32 :: s) = ' ' :: asciiStr s := fun _ => rfl
    rw [requestLine, Str.asciiStr_append, h2, Str.asciiStr_append, h1]
  have hv : ' ' ∉ Str.lit "HTTP/1.1" := by decide
  have hsplit : Str.split ' ' (asciiStr r.requestLine) =
      [asciiStr r.method, asciiStr r.target, Str.lit "HTTP/1.1"] := by
    rw [htext, Str.split_append (not_mem_space hm), Str.split_append (not_mem_space h.target.2),
      Str.split_of_not_mem hv]
  have hne : asciiStr r.method ≠ [] := by simpa [asciiStr] using h.method.1
  have hstart : Str.startsWith (Str.lit "HTTP/1.1") (Str.lit "HTTP/") = true := by decide
  simp [parseRequestLine, Str.fromUtf8_ascii hascii, hsplit, hstart, hne]

end ReqHead

theorem RespHead.WellFormed.head {r : RespHead} (h : r.WellFormed) :
    Head.WellFormed ⟨r.statusLine, r.fields⟩ := ⟨h.isLine, h.fields⟩

/-- Where a reader of `body` stands, with `x` behind the body and `ahead` still to be read. -/
inductive BodyAt (x body : Bytes) : BodyReader → (ahead : Bytes) → Prop
  | sized {a todo : Bytes} (h : a ++ todo = body) (hne : todo ≠ []) :
      BodyAt x body ⟨.length todo.length, .of a⟩ (todo ++ x)
  | chunked {a todo ahead : Bytes} {st : ChunkState} (h : a ++ todo = body)
      (hat : ChunkAt maxHeaderBytes x st ahead todo) : BodyAt x body ⟨.chunked ⟨st⟩, .of a⟩ ahead

/-- What a call from a position leaves: another position with more input due, or the whole body. -/
inductive BodyReads (x body rest : Bytes) : BodyConsumed → Prop
  | waits {r : BodyReader} {buf : Bytes} (hat : BodyAt x body r (buf ++ rest))
      (hdue : x.length < rest.length) : BodyReads x body rest ⟨.needMore, r, buf⟩
  | done {r : BodyReader} {buf : Bytes} (hc : r.capture = .of body) (hx : buf ++ rest = x) :
      BodyReads x body rest ⟨.done, r, buf⟩

private theorem consume_sized {x body a todo buf rest : Bytes} (h : a ++ todo = body)
    (hne : todo ≠ []) (hb : todo ++ x = buf ++ rest) :
    BodyReads x body rest (BodyReader.consume ⟨.length todo.length, .of a⟩ buf) := by
  have hpos := List.length_pos_iff.mpr hne
  by_cases hle : todo.length ≤ buf.length
  · obtain ⟨past, rfl⟩ := List.prefix_of_prefix_length_le ⟨x, hb⟩ (List.prefix_append _ _) hle
    have hc : BodyReader.consume ⟨.length todo.length, .of a⟩ (todo ++ past) =
        ⟨.done, ⟨.length 0, .of (a ++ todo)⟩, past⟩ := by
      simp [BodyReader.consume, hne, pushCapped_of]
    rw [hc]
    exact .done (by rw [h]) (by simpa using hb.symm)
  · obtain ⟨more, rfl⟩ := List.prefix_of_prefix_length_le (List.prefix_append buf rest) ⟨x, hb⟩
      (by omega)
    have hmore : more ≠ [] := by
      rintro rfl
      simp at hle
    have hrest : more ++ x = rest := by simpa using hb
    have hc : BodyReader.consume ⟨.length (buf ++ more).length, .of a⟩ buf =
        ⟨.needMore, ⟨.length more.length, .of (a ++ buf)⟩, []⟩ := by
      have hmin : min (buf ++ more).length buf.length = buf.length := by simp
      have h0 : (buf ++ more).length ≠ 0 := by omega
      simp only [BodyReader.consume, hmin, h0, if_false, List.take_length, List.drop_length,
        pushCapped_of]
      simp [hmore]
    rw [hc]
    refine .waits ?_ ?_
    · rw [List.nil_append, ← hrest]
      exact .sized (by rw [← h, List.append_assoc]) hmore
    · have := List.length_pos_iff.mpr hmore
      rw [← hrest, List.length_append]
      omega

private theorem consume_chunked {x body a todo buf rest : Bytes} {st : ChunkState}
    (h : a ++ todo = body) (hat : ChunkAt maxHeaderBytes x st (buf ++ rest) todo) :
    BodyReads x body rest (BodyReader.consume ⟨.chunked ⟨st⟩, .of a⟩ buf) := by
  have hfits : Fits (some maxHeaderBytes) maxHeaderBytes st buf := by
    intro c hc
    obtain rfl := Option.mem_some_iff.mp hc
    exact ⟨by simp [maxHeaderBytes], Or.inl (Nat.le_refl _)⟩
  obtain ⟨todo', hrun⟩ := chunkFeeder_run_at hat hfits
  obtain ⟨⟨o, st', buf', status⟩, hres⟩ :
    ∃ r, (chunkFeeder (some maxHeaderBytes)).run ⟨st, buf, .needMore⟩ = r := ⟨_, rfl⟩
  rw [hres] at hrun
  have hbody : a ++ o ++ todo' = body := by rw [List.append_assoc, ← hrun.stepped.body, h]
  have hc : BodyReader.consume ⟨.chunked ⟨st⟩, .of a⟩ buf =
      ⟨status, ⟨.chunked ⟨st'⟩, .of (a ++ o)⟩, buf'⟩ := by
    simp [BodyReader.consume, ChunkReader.consume, ChunkReader.consumeWithin, hres, pushCapped_of]
  rw [hc]
  rcases hrun.stepped.at_ with ⟨hst, hat'⟩ | ⟨hst, -, rfl, hend⟩
  · obtain rfl : status = .needMore := hst
    exact .waits (.chunked hbody hat') (hrun.due rfl)
  · obtain rfl : status = .done := hst
    rw [List.append_nil] at hbody
    exact .done (by rw [hbody]) hend

theorem consume_at {x body buf rest : Bytes} {r : BodyReader}
    (h : BodyAt x body r (buf ++ rest)) : BodyReads x body rest (r.consume buf) := by
  generalize ha : buf ++ rest = ahead at h
  cases h with
  | sized h hne => exact consume_sized h hne ha.symm
  | chunked h hat => exact consume_chunked h (by rwa [ha])

/-- A head of at most the header limit is taken as soon as it is complete. -/
theorem takeHead_at {h : Head} (hw : h.WellFormed) (hsize : h.encode.length ≤ maxHeaderBytes)
    {x buf rest : Bytes} (hb : buf ++ rest = h.encode ++ x) :
    (takeHead buf = .needMore ∧ x.length < rest.length) ∨
    ∃ buf', takeHead buf = .head ⟨h.start, h.headers, h.encode.length⟩ buf' ∧ buf' ++ rest = x := by
  have hlen := congrArg List.length hb
  simp only [List.length_append] at hlen
  have hall := Head.findHeaderEnd_encode hw x
  rw [← hb] at hall
  cases he : findHeaderEnd buf with
  | none =>
    left
    have hlt := findHeaderEnd_append_none he hall
    refine ⟨?_, by omega⟩
    rw [takeHead, he]
    exact if_neg (by omega)
  | some hend =>
    right
    obtain rfl : hend = h.encode.length := by
      rw [findHeaderEnd_append rest he] at hall
      exact Option.some.inj hall
    obtain ⟨buf', rfl⟩ := List.prefix_of_prefix_length_le ⟨x, hb.symm⟩
      (List.prefix_append buf rest) (findHeaderEnd_le he).2
    refine ⟨buf', ?_, by simpa using hb⟩
    have htake : (h.encode ++ buf').take (h.encode.length - 4) = headText h.lines := by
      rw [List.take_append_of_le_length (Nat.sub_le _ _), Head.encode_take]
    simp only [takeHead, he, htake, Head.parseHeadFields_text hw, List.drop_left']

end Adwarden.Tls
