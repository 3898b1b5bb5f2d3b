import Adwarden.Tls.Rewriter

/-! A response stream as its framing cuts it: heads, body bytes and, once it is no longer followed,
raw bytes. -/
namespace Adwarden.Tls
open Adwarden.Lib

/-- Where in a response stream its reader stands. -/
inductive RespPos where
  | head
  | body (kind : BodyKind)
  /-- Past the point up to which the stream is followed. -/
  | raw

inductive RespPart where
  | head (raw : Bytes)
  | body (bytes : Bytes)
  /-- A stretch of chunked coding and the body bytes in it. -/
  | coded (wire decoded : Bytes)

namespace RespPart

def wire : RespPart → Bytes
  | .head raw => raw
  | .body bytes => bytes
  | .coded wire _ => wire

/-- The head or body bytes of a part. -/
def payload : RespPart → Bytes
  | .head raw => raw
  | .body bytes => bytes
  | .coded _ decoded => decoded

end RespPart

/-- What follows a head. -/
inductive AfterHead (status : ℕ) (headers : Headers) : RespPos → Prop
  | message {isHead : Bool} (hf : responseFraming status isHead headers = none) :
      AfterHead status headers .head
  | body {isHead : Bool} {framing : Framing}
      (hf : responseFraming status isHead headers = some framing) :
      AfterHead status headers (.body (Rewriter.framingToKind framing))
  | switch (hs : status = 101) : AfterHead status headers .raw

/-- The next stretch of a body, and the position behind it. -/
inductive BodyPart : BodyKind → RespPart → RespPos → Prop
  | partial_ {n : ℕ} {b : Bytes} (hlt : b.length < n) :
      BodyPart (.length n) (.body b) (.body (.length (n - b.length)))
  | full {b : Bytes} : BodyPart (.length b.length) (.body b) .head
  | chunks {r : ChunkReader} {wire rest : Bytes}
      (hw : (r.consume (wire ++ rest)).rest = rest)
      (hs : (r.consume (wire ++ rest)).step = .needMore) :
      BodyPart (.chunked r) (.coded wire (r.consume (wire ++ rest)).decoded)
        (.body (.chunked (r.consume (wire ++ rest)).reader))
  | lastChunks {r : ChunkReader} {wire rest : Bytes}
      (hw : (r.consume (wire ++ rest)).rest = rest)
      (hs : (r.consume (wire ++ rest)).step = .done) :
      BodyPart (.chunked r) (.coded wire (r.consume (wire ++ rest)).decoded) .head
  | malformed {r : ChunkReader} {wire rest : Bytes}
      (hw : (r.consume (wire ++ rest)).rest = rest)
      (hs : (r.consume (wire ++ rest)).step = .error) :
      BodyPart (.chunked r) (.coded wire (r.consume (wire ++ rest)).decoded) .raw
  | untilClose {b : Bytes} : BodyPart .close (.body b) (.body .close)

/-- A stream read from its first head on: its parts, and the position behind them. -/
inductive Reads : List RespPart → RespPos → Prop
  | nil : Reads [] .head
  | head {parts : List RespPart} {raw : Bytes} {status : ℕ} {headers : Headers} {pos : RespPos}
      (h : Reads parts .head) (he : findHeaderEnd raw = some raw.length)
      (hh : Rewriter.responseHead (raw.take (raw.length - 4)) = some (status, headers))
      (hpos : AfterHead status headers pos) : Reads (parts ++ [.head raw]) pos
  | body {parts : List RespPart} {kind : BodyKind} {part : RespPart} {pos : RespPos}
      (h : Reads parts (.body kind)) (hpart : BodyPart kind part pos) :
      Reads (parts ++ [part]) pos
  | giveUp {parts : List RespPart} {pos : RespPos} (h : Reads parts pos) : Reads parts .raw
  | raw {parts : List RespPart} {bytes : Bytes} (h : Reads parts .raw) :
      Reads (parts ++ [.body bytes]) .raw

theorem Reads.flush {parts : List RespPart} {pos : RespPos} (h : Reads parts pos) (b : Bytes) :
    Reads (parts ++ [.body b]) .raw := h.giveUp.raw

/-- A whole head at the start of the buffer is the next part. -/
theorem Reads.headOf {parts : List RespPart} {buf : Bytes} {hend status : ℕ} {headers : Headers}
    {pos : RespPos} (h : Reads parts .head) (he : findHeaderEnd buf = some hend)
    (hh : Rewriter.responseHead (buf.take (hend - 4)) = some (status, headers))
    (hpos : AfterHead status headers pos) : Reads (parts ++ [.head (buf.take hend)]) pos := by
  have hlen : (buf.take hend).length = hend := by
    rw [List.length_take, Nat.min_eq_left (findHeaderEnd_le he).2]
  refine h.head (by rw [hlen, findHeaderEnd_take he]) ?_ hpos
  rw [hlen, List.take_take, Nat.min_eq_left (Nat.sub_le _ _), hh]

/-- What has been read carries its first byte: coded bytes only come after a head. -/
theorem Reads.head?_payload {parts : List RespPart} {pos : RespPos} (h : Reads parts pos) :
    (parts.flatMap RespPart.payload).head? = (parts.flatMap RespPart.wire).head? ∧
      ((∃ kind, pos = .body kind) → parts.flatMap RespPart.payload ≠ []) := by
  induction h with
  | nil => simp
  | @head parts raw status headers pos h he hh hpos ih =>
    have hne : raw ≠ [] := by
      rintro rfl
      simpa using findHeaderEnd_le he
    refine ⟨?_, fun _ => by simp [RespPart.payload, hne]⟩
    simp only [List.flatMap_append, List.head?_append, ih.1]
    rfl
  | @body parts kind part pos h hpart ih =>
    have hne := ih.2 ⟨kind, rfl⟩
    have hw : parts.flatMap RespPart.wire ≠ [] := by
      intro hw
      simp only [hw, List.head?_nil, List.head?_eq_none_iff] at ih
      exact hne ih.1
    refine ⟨?_, fun _ => by simp [hne]⟩
    rw [List.flatMap_append, List.flatMap_append, List.head?_append_of_ne_nil _ hne,
      List.head?_append_of_ne_nil _ hw, ih.1]
  | giveUp h ih => exact ⟨ih.1, by simp⟩
  | @raw parts bytes h ih =>
    refine ⟨?_, by simp⟩
    simp only [List.flatMap_append, List.head?_append, ih.1]
    rfl

theorem readLine_suffix {cap : Option ℕ} {line buf l rest : Bytes}
    (h : readLine cap line buf = .line l rest) : rest <:+ buf := by
  unfold readLine at h
  split at h
  · simp only [LineRead.line.injEq] at h
    rw [← h.2]
    exact List.drop_suffix _ _
  · split_ifs at h

/-- The decoder only takes bytes off its buffer, and passes on no more than it takes. -/
theorem chunkStep_suffix {cap : Option ℕ} {l l' : ChunkLoop} {o : Bytes}
    (h : chunkStep cap l = some (o, l')) :
    l'.buf <:+ l.buf ∧ o.length + l'.buf.length ≤ l.buf.length := by
  suffices l'.buf <:+ l.buf ∧ (o = [] ∨ o ++ l'.buf = l.buf) by
    obtain ⟨hsuf, rfl | ho⟩ := this
    · exact ⟨hsuf, by simpa using hsuf.length_le⟩
    · exact ⟨hsuf, by rw [← ho, List.length_append]⟩
  unfold chunkStep at h
  split at h
  · split at h
    · simp at h
    · obtain ⟨rfl, rfl⟩ := by simpa using h
      exact ⟨List.suffix_refl _, Or.inl rfl⟩
    · obtain ⟨rfl, rfl⟩ := by simpa using h
      exact ⟨List.nil_suffix, Or.inl rfl⟩
    · next hr =>
      have hsuf := readLine_suffix hr
      split at h <;> obtain ⟨rfl, rfl⟩ := by simpa using h
      all_goals exact ⟨hsuf, Or.inl rfl⟩
  · obtain ⟨rfl, rfl⟩ := by simpa using h
    exact ⟨List.suffix_refl _, Or.inl rfl⟩
  · simp at h
  · simp only [Option.some.injEq, Prod.mk.injEq] at h
    obtain ⟨rfl, rfl⟩ := h
    exact ⟨List.drop_suffix _ _, Or.inr (List.take_append_drop _ _)⟩
  · simp at h
  · split_ifs at h
    · split at h
      · simp at h
      · next b buf =>
        obtain ⟨rfl, rfl⟩ := by simpa using h
        exact ⟨(List.suffix_cons _ _).trans (List.suffix_cons _ _), Or.inl rfl⟩
    · obtain ⟨rfl, rfl⟩ := by simpa using h
      exact ⟨List.suffix_cons _ _, Or.inl rfl⟩
  · split at h
    · simp at h
    · obtain ⟨rfl, rfl⟩ := by simpa using h
      exact ⟨List.suffix_refl _, Or.inl rfl⟩
    · obtain ⟨rfl, rfl⟩ := by simpa using h
      exact ⟨List.nil_suffix, Or.inl rfl⟩
    · next hr =>
      have hsuf := readLine_suffix hr
      split_ifs at h <;> obtain ⟨rfl, rfl⟩ := by simpa using h
      all_goals exact ⟨hsuf, Or.inl rfl⟩
  · simp at h
  · simp at h

theorem consume_rest (r : ChunkReader) (buf : Bytes) :
    (r.consume buf).rest <:+ buf ∧
      (r.consume buf).decoded.length + (r.consume buf).rest.length ≤ buf.length :=
  (chunkFeeder (some maxHeaderBytes)).run_invariant
    (P := fun o l => l.buf <:+ buf ∧ o.length + l.buf.length ≤ buf.length)
    (s := { state := r.state, buf }) (o := []) ⟨List.suffix_refl _, by simp⟩
    fun o l o' l' hl hs => by
      obtain ⟨hsuf, hlen⟩ := chunkStep_suffix hs
      refine ⟨hsuf.trans hl.1, ?_⟩
      have := hl.2
      rw [List.length_append]
      omega

namespace Rewriter

/-- The position behind what `pullBody` takes. -/
def pulledPos (p : Pulled) : RespPos :=
  match p.step with
  | .needMore => .body p.body
  | .done => .head
  | .error => .raw

def pulledPart (kind : BodyKind) (p : Pulled) : RespPart :=
  if isChunkedKind kind then .coded p.wire p.decoded else .body p.wire

theorem pullBody_split (kind : BodyKind) (buf : Bytes) :
    (pullBody kind buf).wire ++ (pullBody kind buf).rest = buf := by
  cases kind with
  | length n => simp [pullBody]
  | close => simp [pullBody]
  | chunked r =>
    obtain ⟨pre, hpre⟩ := (consume_rest r buf).1
    simp only [pullBody]
    generalize (r.consume buf).rest = rest at hpre ⊢
    subst hpre
    simp

/-- What `pullBody` takes is the next stretch of the body. -/
theorem pullBody_part (kind : BodyKind) (buf : Bytes) :
    BodyPart kind (pulledPart kind (pullBody kind buf)) (pulledPos (pullBody kind buf)) := by
  have hsplit := pullBody_split kind buf
  cases kind with
  | length n =>
    by_cases hle : n ≤ buf.length
    · have hn : (buf.take n).length = n := by simp [hle]
      have hfull := BodyPart.full (b := buf.take n)
      rw [hn] at hfull
      simpa [pullBody, pulledPart, pulledPos, isChunkedKind, hle] using hfull
    · have hmin : min n buf.length = buf.length := by omega
      have hne : n - buf.length ≠ 0 := by omega
      simpa [pullBody, pulledPart, pulledPos, isChunkedKind, hmin, hne] using
        BodyPart.partial_ (b := buf) (Nat.not_le.mp hle)
  | close => simpa [pullBody, pulledPart, pulledPos, isChunkedKind] using BodyPart.untilClose
  | chunked r =>
    simp only [pullBody] at hsplit
    simp only [pullBody, pulledPart, isChunkedKind, if_true, pulledPos]
    cases hs : (r.consume buf).step with
    | needMore =>
      have := @BodyPart.chunks r (buf.take (buf.length - (r.consume buf).rest.length))
        (r.consume buf).rest
      rw [hsplit] at this
      exact this rfl hs
    | done =>
      have := @BodyPart.lastChunks r
        (buf.take (buf.length - (r.consume buf).rest.length)) (r.consume buf).rest
      rw [hsplit] at this
      exact this rfl hs
    | error =>
      have := @BodyPart.malformed r
        (buf.take (buf.length - (r.consume buf).rest.length)) (r.consume buf).rest
      rw [hsplit] at this
      exact this rfl hs

/-- A buffer that fits the capture is passed on whole. -/
theorem pullBody_bytes {kind : BodyKind} {buf : Bytes} (h : buf.length ≤ maxBodyCapture) :
    (pullBody kind buf).bytes = (pullBody kind buf).decoded := by
  cases kind with
  | length n => rfl
  | close => rfl
  | chunked r =>
    have hlen := (consume_rest r buf).2
    have hle : (r.consume buf).decoded.length ≤ maxBodyCapture := by omega
    simp [pullBody, pushCapped, hle]

theorem pulledPart_payload (kind : BodyKind) (buf : Bytes) :
    (pulledPart kind (pullBody kind buf)).payload = (pullBody kind buf).decoded := by
  cases kind <;> rfl

theorem pulledPart_wire (kind : BodyKind) (p : Pulled) : (pulledPart kind p).wire = p.wire := by
  unfold pulledPart
  split <;> rfl

end Rewriter

end Adwarden.Tls
