import Adwarden.Rust.Ascii
import Adwarden.Tls.Chunk

/-! The chunked transfer coding as a grammar, and the decoder followed along a coded body,
wherever the input is cut. -/
namespace Adwarden.Tls
open Adwarden.Lib

def isHexDigit (b : UInt8) : Bool :=
  (48 ≤ b && b ≤ 57) || (65 ≤ b && b ≤ 70) || (97 ≤ b && b ≤ 102)

/-- A chunk-size line for `n`: hex digits, an optional extension, CRLF. -/
structure SizeLine (line : Bytes) (n : ℕ) : Prop where
  split : ∃ digits ext, line = digits ++ ext ++ CRLF ∧ digits ≠ [] ∧
    (∀ d ∈ digits, isHexDigit d) ∧ Str.digitsValue 16 (asciiStr digits) = n ∧
    LF ∉ ext ∧ (ext = [] ∨ ext.head? = some 59)
  size : n < usizeSize

/-- A trailer line that is not blank. -/
structure TrailerLine (line : Bytes) : Prop where
  split : ∃ text, line = text ++ CRLF ∧ text ≠ [] ∧ CR ∉ text ∧ LF ∉ text

/-- `wire` is the chunked coding of `body`, with size and trailer lines of at most `cap` bytes. -/
inductive Chunked (cap : ℕ) : (wire body : Bytes) → Prop
  | last {line : Bytes} {trailers : List Bytes} (hl : SizeLine line 0) (hcap : line.length ≤ cap)
      (ht : ∀ t ∈ trailers, TrailerLine t ∧ t.length ≤ cap) :
      Chunked cap (line ++ trailers.flatten ++ CRLF) []
  | chunk {line data wire body : Bytes} (hl : SizeLine line data.length)
      (hcap : line.length ≤ cap) (hd : data ≠ []) (hrest : Chunked cap wire body) :
      Chunked cap (line ++ data ++ CRLF ++ wire) (data ++ body)

theorem isHexDigit_ascii {b : UInt8} (h : isHexDigit b) : b < 0x80 :=
  forall_byte (P := fun b => isHexDigit b = true → b < 0x80) (by decide +kernel) b h

theorem hexDigit_digitVal {b : UInt8} (h : isHexDigit b) :
    ∃ d, Str.digitVal (Char.ofNat b.toNat) = some d ∧ d < 16 := by
  have key := forall_byte (P := fun b => isHexDigit b = true →
    (Str.digitVal (Char.ofNat b.toNat)).any (· < 16) = true) (by decide +kernel) b h
  obtain ⟨d, hd, hlt⟩ := (Option.any_eq_true _ _).mp key
  exact ⟨d, hd, by simpa using hlt⟩

theorem hexDigit_not_blank {b : UInt8} (h : isHexDigit b) :
    Str.isWhitespace (Char.ofNat b.toNat) = false :=
  forall_byte (P := fun b => isHexDigit b = true →
    Str.isWhitespace (Char.ofNat b.toNat) = false) (by decide +kernel) b h

theorem hexDigit_ne {b : UInt8} (h : isHexDigit b) : b ≠ LF ∧ b ≠ CR ∧ b ≠ 59 :=
  forall_byte (P := fun b => isHexDigit b = true → b ≠ LF ∧ b ≠ CR ∧ b ≠ 59) (by decide +kernel) b h

theorem parseHex_digits {digits : Bytes} (hne : digits ≠ []) (hd : ∀ d ∈ digits, isHexDigit d)
    (hv : Str.digitsValue 16 (asciiStr digits) < usizeSize) :
    parseHex digits = some (Str.digitsValue 16 (asciiStr digits)) := by
  have hascii : IsAscii digits := fun d h => isHexDigit_ascii (hd d h)
  have htrim : Str.trim (asciiStr digits) = asciiStr digits := by
    refine Str.trim_of_forall ?_
    simp only [asciiStr, List.mem_map]
    rintro _ ⟨d, h, rfl⟩
    exact hexDigit_not_blank (hd d h)
  have hdig : Str.IsDigits 16 (asciiStr digits) := by
    refine ⟨by simpa [asciiStr] using hne, ?_⟩
    simp only [asciiStr, List.mem_map]
    rintro _ ⟨d, h, rfl⟩
    exact hexDigit_digitVal (hd d h)
  simp only [parseHex, Str.fromUtf8_ascii hascii, Option.bind_eq_bind, Option.bind_some, htrim]
  rw [if_neg hdig.nonempty, Str.fromStrRadix_digits hdig hv]

theorem trimCrlf_crlf (l : Bytes) : trimCrlf (l ++ CRLF) = trimCrlf l := by
  simp [trimCrlf, CRLF, CR, LF, List.reverse_append]

/-- What precedes a byte that is no line end survives the trimming. -/
theorem trimCrlf_append (a b : Bytes) (ha : ∀ x ∈ a.getLast?, x ≠ LF ∧ x ≠ CR) :
    ∃ b', trimCrlf (a ++ b) = a ++ b' ∧ b' <+: b := by
  have hrev : a.reverse.dropWhile (fun b => b == LF || b == CR) = a.reverse := by
    cases hr : a.reverse with
    | nil => rfl
    | cons x t =>
      obtain ⟨h1, h2⟩ := ha x (by rw [← List.head?_reverse, hr]; rfl)
      simp [h1, h2]
  refine ⟨(b.reverse.dropWhile fun b => b == LF || b == CR).reverse, ?_, ?_⟩
  · rw [trimCrlf, List.reverse_append, List.dropWhile_append, hrev]
    split_ifs with he
    · simp [List.isEmpty_iff.mp he]
    · simp
  · rw [← List.reverse_suffix, List.reverse_reverse]
    exact List.dropWhile_suffix _

theorem chunkSize_sizeLine {line : Bytes} {n : ℕ} (h : SizeLine line n) :
    chunkSize line = some n := by
  obtain ⟨digits, ext, rfl, hne, hd, rfl, -, hext⟩ := h.split
  have hlast : ∀ x ∈ digits.getLast?, x ≠ LF ∧ x ≠ CR := fun x hx =>
    have hx' := hexDigit_ne (hd x (List.mem_of_mem_getLast? hx))
    ⟨hx'.1, hx'.2.1⟩
  have hsemi : (59 : UInt8) ∉ digits := fun hm => (hexDigit_ne (hd _ hm)).2.2 rfl
  obtain ⟨ext', htrim, hpre⟩ := trimCrlf_append digits ext hlast
  have hhead : (splitOn 59 (digits ++ ext')).headD [] = digits := by
    cases ext' with
    | nil => simp [splitOn_of_not_mem hsemi]
    | cons x ext' =>
      obtain rfl : x = 59 := by
        rcases hext with rfl | hext
        · simp at hpre
        · obtain ⟨t, rfl⟩ := hpre
          simpa using hext
      simp [splitOn_append hsemi]
  rw [chunkSize, trimCrlf_crlf, htrim, hhead]
  exact parseHex_digits hne hd h.size

theorem SizeLine.line {line : Bytes} {n : ℕ} (h : SizeLine line n) :
    ∃ text, line = text ++ [LF] ∧ LF ∉ text := by
  obtain ⟨digits, ext, rfl, -, hd, -, hext, -⟩ := h.split
  refine ⟨digits ++ ext ++ [CR], by simp [CRLF], ?_⟩
  have hdig : LF ∉ digits := fun hm => (hexDigit_ne (hd _ hm)).1 rfl
  simp [hdig, hext, LF_ne_CR]

theorem TrailerLine.line {line : Bytes} (h : TrailerLine line) :
    ∃ text, line = text ++ [LF] ∧ LF ∉ text := by
  obtain ⟨text, rfl, -, -, hlf⟩ := h.split
  exact ⟨text ++ [CR], by simp [CRLF], by simp [hlf, LF_ne_CR]⟩

theorem TrailerLine.trimCrlf_ne_nil {line : Bytes} (h : TrailerLine line) : trimCrlf line ≠ [] := by
  obtain ⟨text, rfl, hne, hcr, hlf⟩ := h.split
  have hlast : ∀ x ∈ text.getLast?, x ≠ LF ∧ x ≠ CR := by
    intro x hx
    have hm := List.mem_of_mem_getLast? hx
    exact ⟨fun h => hlf (h ▸ hm), fun h => hcr (h ▸ hm)⟩
  obtain ⟨b', hb, -⟩ := trimCrlf_append text [] hlast
  rw [trimCrlf_crlf, ← List.append_nil text, hb]
  simp [hne]

theorem sizeLine_zero : SizeLine (ascii "0\r\n") 0 :=
  ⟨⟨ascii "0", [], by decide, by decide, by decide +kernel, by decide, by decide, Or.inl rfl⟩,
    by decide⟩

/-- A coded body starts with a size line. -/
theorem Chunked.head {cap : ℕ} {wire body : Bytes} (h : Chunked cap wire body) :
    ∃ line n tail, wire = line ++ tail ∧ SizeLine line n ∧ line.length ≤ cap ∧
      ((n = 0 ∧ body = [] ∧ ∃ trailers : List Bytes, tail = trailers.flatten ++ CRLF ∧
          ∀ t ∈ trailers, TrailerLine t ∧ t.length ≤ cap) ∨
        ∃ data wire' body', n = data.length ∧ data ≠ [] ∧ tail = data ++ CRLF ++ wire' ∧
          body = data ++ body' ∧ Chunked cap wire' body') := by
  cases h with
  | last hl hcap ht =>
    exact ⟨_, 0, _, by rw [List.append_assoc], hl, hcap, Or.inl ⟨rfl, rfl, _, rfl, ht⟩⟩
  | chunk hl hcap hd hrest =>
    exact ⟨_, _, _ ++ CRLF ++ _, by simp only [List.append_assoc], hl, hcap,
      Or.inr ⟨_, _, _, rfl, hd, rfl, rfl, hrest⟩⟩

/-- The decoder stands in the middle of a coded body: `ahead` is what it has still to read, up to
the bytes `x` after the body, and `body` what it has still to deliver. -/
inductive ChunkAt (cap : ℕ) (x : Bytes) : ChunkState → (ahead body : Bytes) → Prop
  | size {line ahead wire body : Bytes} (h : line ++ ahead = wire ++ x)
      (hw : Chunked cap wire body) (hl : LF ∉ line) : ChunkAt cap x (.size line) ahead body
  | data {data wire body : Bytes} (hw : Chunked cap wire body) :
      ChunkAt cap x (.data data.length) (data ++ (CRLF ++ (wire ++ x))) (data ++ body)
  | dataCrlf {wire body : Bytes} (hw : Chunked cap wire body) :
      ChunkAt cap x .dataCrlf (CRLF ++ (wire ++ x)) body
  | trailer {line ahead : Bytes} {trailers : List Bytes}
      (h : line ++ ahead = trailers.flatten ++ CRLF ++ x)
      (ht : ∀ t ∈ trailers, TrailerLine t ∧ t.length ≤ cap) (hl : LF ∉ line) :
      ChunkAt cap x (.trailer line) ahead []

/-- What a line reader does when the line it is in ends the way `first` does. -/
theorem readLine_cases {cap : Option ℕ} {line buf rest first tail : Bytes}
    (h : line ++ (buf ++ rest) = first ++ LF :: tail) (hl : LF ∉ line) (hf : LF ∉ first)
    (hcap : ∀ c ∈ cap, first.length ≤ c ∨ buf.length ≤ c) :
    (readLine cap line buf = .wait ∧ buf = [] ∧ tail.length < rest.length) ∨
    (readLine cap line buf = .stash (line ++ buf) ∧ buf ≠ [] ∧ LF ∉ line ++ buf) ∨
    ∃ buf', readLine cap line buf = .line (first ++ [LF]) buf' ∧ buf' ++ rest = tail ∧
      buf'.length < buf.length := by
  cases hp : position LF buf with
  | none =>
    have hbuf := position_eq_none.mp hp
    by_cases hb : buf = []
    · left
      subst hb
      refine ⟨by simp [readLine, hp], rfl, ?_⟩
      have hlen := congrArg List.length h
      simp only [List.length_append, List.length_cons, List.length_nil] at hlen
      by_contra hge
      have hpre : first ++ [LF] <+: line :=
        @List.prefix_of_prefix_length_le _ _ _ (line ++ ([] ++ rest)) ⟨tail, by simpa using h.symm⟩
          (List.prefix_append _ _) (by simp; omega)
      exact hl (hpre.subset (by simp))
    · right; left
      have hnot : LF ∉ line ++ buf := by simp [hl, hbuf]
      have hlong : cap.any (· < buf.length) = false := by
        cases cap with
        | none => rfl
        | some c =>
          simp only [Option.any_some, decide_eq_false_iff_not, not_lt]
          refine (hcap c rfl).elim (fun hc => ?_) id
          by_contra hlt
          have hpre : first ++ [LF] <+: line ++ buf :=
            @List.prefix_of_prefix_length_le _ _ _ (line ++ (buf ++ rest)) ⟨tail, by simpa using h.symm⟩
              ⟨rest, by simp⟩ (by simp; omega)
          exact hnot (hpre.subset (by simp))
      exact ⟨by simp [readLine, hp, hb, hlong], hb, hnot⟩
  | some pos =>
    right; right
    obtain ⟨htake, hbn⟩ := position_some hp
    have hlt := position_lt hp
    have hbuf := List.take_append_drop (pos + 1) buf
    rw [htake] at hbuf
    have hline : (line ++ buf.take pos) ++ LF :: (buf.drop (pos + 1) ++ rest) =
        first ++ LF :: tail := by
      calc (line ++ buf.take pos) ++ LF :: (buf.drop (pos + 1) ++ rest)
          = line ++ ((buf.take pos ++ [LF] ++ buf.drop (pos + 1)) ++ rest) := by simp
        _ = first ++ LF :: tail := by rw [hbuf, h]
    obtain ⟨hfirst, htail⟩ := line_unique (by simp [hl, hbn]) hf hline
    refine ⟨buf.drop (pos + 1), ?_, htail, by simp; omega⟩
    simp only [readLine, hp, htake, ← List.append_assoc, hfirst]

/-- The room a decoder state leaves above `cap`: a line end it still waits for is no part of a
line. -/
def slack : ChunkState → ℕ
  | .dataCrlf => 2
  | _ => 0

/-- The buffer cannot hold a longer stretch of line than the decoder accepts, as the lines are
short or the buffer is. -/
def Fits (cap : Option ℕ) (lines : ℕ) (st : ChunkState) (buf : Bytes) : Prop :=
  ∀ c ∈ cap, 1 ≤ c ∧ (lines ≤ c ∨ buf.length ≤ c + slack st)

theorem Fits.mono {cap : Option ℕ} {lines : ℕ} {st st' : ChunkState} {buf buf' : Bytes}
    (h : Fits cap lines st buf) (hle : buf'.length + slack st ≤ buf.length + slack st') :
    Fits cap lines st' buf' := by
  intro c hc
  obtain ⟨h1, h2⟩ := h c hc
  exact ⟨h1, h2.imp id fun h => by omega⟩

/-- The outcome of reading on from a position: the body delivered, and either a position in the
rest of the coded body or its end. -/
structure ChunkStepped (lines : ℕ) (x rest body : Bytes) (o : Bytes) (l : ChunkLoop)
    (body' : Bytes) : Prop where
  body : body = o ++ body'
  at_ : (l.status = .needMore ∧ ChunkAt lines x l.state (l.buf ++ rest) body') ∨
    (l.status = .done ∧ l.state = .trailer [] ∧ body' = [] ∧ l.buf ++ rest = x)

section Step

variable {cap : Option ℕ} {lines : ℕ} {x rest buf body : Bytes}

/-- An iteration from a position either waits, with more input due before the end of the body, or
moves on to another position. -/
def StepsFrom (cap : Option ℕ) (lines : ℕ) (x rest body : Bytes) (st : ChunkState)
    (buf : Bytes) : Prop :=
  (chunkStep cap ⟨st, buf, .needMore⟩ = none ∧ x.length < rest.length) ∨
  ∃ o l body', chunkStep cap ⟨st, buf, .needMore⟩ = some (o, l) ∧
    ChunkStepped lines x rest body o l body' ∧ Fits cap lines l.state l.buf

private theorem chunkStep_size {line wire : Bytes} (h : line ++ (buf ++ rest) = wire ++ x)
    (hw : Chunked lines wire body) (hl : LF ∉ line) (hc : Fits cap lines (.size line) buf) :
    StepsFrom cap lines x rest body (.size line) buf := by
  obtain ⟨sl, n, tail, rfl, hsl, hlen, hcase⟩ := hw.head
  obtain ⟨text, rfl, htext⟩ := hsl.line
  have hfirst : line ++ (buf ++ rest) = text ++ LF :: (tail ++ x) := by simpa using h
  have hcap : ∀ c ∈ cap, text.length ≤ c ∨ buf.length ≤ c := fun c hm =>
    (hc c hm).2.imp (fun hle => by simp at hlen; omega) (by simp [slack])
  rcases readLine_cases hfirst hl htext hcap with
    ⟨hr, rfl, hlt⟩ | ⟨hr, hb, hnot⟩ | ⟨buf', hr, hrest, hlt⟩
  · left
    refine ⟨by simp [chunkStep, hr], ?_⟩
    rw [List.length_append] at hlt
    omega
  · right
    refine ⟨[], ⟨.size (line ++ buf), [], .needMore⟩, body, by simp [chunkStep, hr], ?_,
      hc.mono (by simp [slack])⟩
    exact ⟨rfl, Or.inl ⟨rfl, .size (by simpa using h) hw hnot⟩⟩
  · right
    have hsize := chunkSize_sizeLine hsl
    rcases hcase with ⟨rfl, rfl, trailers, rfl, ht⟩ | ⟨data, wire', body', rfl, hd, rfl, rfl, hw'⟩
    · refine ⟨[], ⟨.trailer [], buf', .needMore⟩, [], by simp [chunkStep, hr, hsize], ?_,
        hc.mono (by simp [slack]; omega)⟩
      exact ⟨rfl, Or.inl ⟨rfl, .trailer hrest ht (by simp)⟩⟩
    · obtain ⟨n, hn⟩ : ∃ n, data.length = n + 1 :=
        ⟨data.length - 1, by have := List.length_pos_iff.mpr hd; omega⟩
      refine ⟨[], ⟨.data data.length, buf', .needMore⟩, data ++ body', ?_, ?_,
        hc.mono (by simp [slack]; omega)⟩
      · rw [hn] at hsize ⊢
        simp [chunkStep, hr, hsize]
      · refine ⟨rfl, Or.inl ⟨rfl, ?_⟩⟩
        have hat := @ChunkAt.data lines x data _ _ hw'
        simp only [hrest]
        simpa using hat

private theorem chunkStep_trailer {line : Bytes} {trailers : List Bytes}
    (h : line ++ (buf ++ rest) = trailers.flatten ++ CRLF ++ x)
    (ht : ∀ t ∈ trailers, TrailerLine t ∧ t.length ≤ lines) (hl : LF ∉ line)
    (hc : Fits cap lines (.trailer line) buf) :
    StepsFrom cap lines x rest [] (.trailer line) buf := by
  obtain ⟨text, tail, htext, hlong, hfirst, hcase⟩ : ∃ text tail, LF ∉ text ∧
      (text.length ≤ 1 ∨ text.length ≤ lines) ∧ line ++ (buf ++ rest) = text ++ LF :: (tail ++ x) ∧
      ((text = [CR] ∧ tail = []) ∨ ∃ ts : List Bytes, tail = ts.flatten ++ CRLF ∧
        trimCrlf (text ++ [LF]) ≠ [] ∧ ∀ t ∈ ts, TrailerLine t ∧ t.length ≤ lines) := by
    cases trailers with
    | nil =>
      exact ⟨[CR], [], by simp [LF_ne_CR], Or.inl (by simp), by simpa [CRLF] using h,
        Or.inl ⟨rfl, rfl⟩⟩
    | cons t ts =>
      obtain ⟨htl, hlen⟩ := ht t (by simp)
      obtain ⟨text, rfl, htext⟩ := htl.line
      exact ⟨text, ts.flatten ++ CRLF, htext, Or.inr (by simp at hlen; omega), by simpa using h,
        Or.inr ⟨ts, rfl, htl.trimCrlf_ne_nil, fun t hm => ht t (by simp [hm])⟩⟩
  have hcap : ∀ c ∈ cap, text.length ≤ c ∨ buf.length ≤ c := by
    intro c hm
    obtain ⟨h1, h2⟩ := hc c hm
    simp only [slack] at h2
    omega
  rcases readLine_cases hfirst hl htext hcap with
    ⟨hr, rfl, hlt⟩ | ⟨hr, hb, hnot⟩ | ⟨buf', hr, hrest, hlt⟩
  · left
    refine ⟨by simp [chunkStep, hr], ?_⟩
    rw [List.length_append] at hlt
    omega
  · right
    refine ⟨[], ⟨.trailer (line ++ buf), [], .needMore⟩, [], by simp [chunkStep, hr], ?_,
      hc.mono (by simp [slack])⟩
    exact ⟨rfl, Or.inl ⟨rfl, .trailer (by simpa using h) ht hnot⟩⟩
  · right
    rcases hcase with ⟨rfl, rfl⟩ | ⟨ts, rfl, htrim, hts⟩
    · have htrim : trimCrlf [CR, LF] = [] := by decide
      refine ⟨[], ⟨.trailer [], buf', .done⟩, [], by simp [chunkStep, hr, htrim], ?_,
        hc.mono (by simp [slack]; omega)⟩
      exact ⟨rfl, Or.inr ⟨rfl, rfl, rfl, hrest⟩⟩
    · refine ⟨[], ⟨.trailer [], buf', .needMore⟩, [], by simp [chunkStep, hr, htrim], ?_,
        hc.mono (by simp [slack]; omega)⟩
      exact ⟨rfl, Or.inl ⟨rfl, .trailer hrest hts (by simp)⟩⟩

private theorem chunkStep_dataCrlf {wire : Bytes} (h : buf ++ rest = CRLF ++ (wire ++ x))
    (hw : Chunked lines wire body) (hc : Fits cap lines .dataCrlf buf) :
    StepsFrom cap lines x rest body .dataCrlf buf := by
  match buf, h, hc with
  | [], h, _ =>
    left
    refine ⟨rfl, ?_⟩
    have := congrArg List.length h
    simp [CRLF] at this
    omega
  | [b], h, _ =>
    left
    obtain ⟨rfl, hr⟩ : b = CR ∧ rest = LF :: (wire ++ x) := by simpa [CRLF] using h
    refine ⟨by simp [chunkStep], ?_⟩
    rw [hr, List.length_cons, List.length_append]
    omega
  | b :: c :: buf, h, hc =>
    right
    obtain ⟨rfl, rfl, hr⟩ : b = CR ∧ c = LF ∧ buf ++ rest = wire ++ x := by simpa [CRLF] using h
    refine ⟨[], ⟨.size [], buf, .needMore⟩, body, by simp [chunkStep], ?_,
      hc.mono (by simp [slack])⟩
    exact ⟨rfl, Or.inl ⟨rfl, .size hr hw (by simp)⟩⟩

private theorem chunkStep_data {data wire : Bytes}
    (h : buf ++ rest = data ++ (CRLF ++ (wire ++ x))) (hw : Chunked lines wire body)
    (hc : Fits cap lines (.data data.length) buf) :
    StepsFrom cap lines x rest (data ++ body) (.data data.length) buf := by
  match data, buf, h, hc with
  | [], buf, h, hc =>
    right
    refine ⟨[], ⟨.dataCrlf, buf, .needMore⟩, body, by simp [chunkStep], ?_,
      hc.mono (by simp [slack])⟩
    have hat := ChunkAt.dataCrlf (x := x) hw
    exact ⟨rfl, Or.inl ⟨rfl, by simpa [h] using hat⟩⟩
  | d :: data, [], h, _ =>
    left
    refine ⟨rfl, ?_⟩
    have := congrArg List.length h
    simp at this
    omega
  | d :: data, b :: buf, h, hc =>
    right
    rcases List.append_eq_append_iff.mp h with ⟨more, hd, hr⟩ | ⟨past, hb, he⟩
    · have hlen := congrArg List.length hd
      simp only [List.length_cons, List.length_append] at hlen
      refine ⟨b :: buf, ⟨.data more.length, [], .needMore⟩, more ++ body, ?_, ?_,
        hc.mono (by simp [slack])⟩
      · have htake : (b :: buf).take (data.length + 1) = b :: buf :=
          List.take_of_length_le (by simp; omega)
        have hdrop : (b :: buf).drop (data.length + 1) = [] :=
          List.drop_of_length_le (by simp; omega)
        simp only [List.length_cons, chunkStep, htake, hdrop]
        rw [show data.length - buf.length = more.length by omega]
      · refine ⟨by rw [hd, List.append_assoc], Or.inl ⟨rfl, ?_⟩⟩
        rw [hr]
        exact .data hw
    · have hlen := congrArg List.length hb
      simp only [List.length_cons, List.length_append] at hlen
      refine ⟨d :: data, ⟨.data 0, past, .needMore⟩, body, ?_, ?_,
        hc.mono (by simp [slack]; omega)⟩
      · have htake : (b :: buf).take (data.length + 1) = d :: data := by
          rw [hb]
          exact List.take_left' rfl
        have hdrop : (b :: buf).drop (data.length + 1) = past := by
          rw [hb]
          exact List.drop_left' rfl
        simp only [List.length_cons, chunkStep, htake, hdrop]
        rw [show data.length - buf.length = 0 by omega]
      · have hat := @ChunkAt.data lines x [] _ _ hw
        exact ⟨rfl, Or.inl ⟨rfl, by simpa [← he] using hat⟩⟩

theorem chunkStep_at {st : ChunkState} (h : ChunkAt lines x st (buf ++ rest) body)
    (hc : Fits cap lines st buf) : StepsFrom cap lines x rest body st buf := by
  generalize ha : buf ++ rest = ahead at h
  cases h with
  | size h hw hl => exact chunkStep_size (by rwa [ha]) hw hl hc
  | data hw => exact chunkStep_data ha hw hc
  | dataCrlf hw => exact chunkStep_dataCrlf ha hw hc
  | trailer h ht hl => exact chunkStep_trailer (by rwa [ha]) ht hl hc

/-- What a whole call from a position leaves: a position with more input due, or the end of the
body. -/
structure RunsFrom (cap : Option ℕ) (lines : ℕ) (x rest body : Bytes) (r : Bytes × ChunkLoop)
    (body' : Bytes) : Prop where
  stepped : ChunkStepped lines x rest body r.1 r.2 body'
  fits : Fits cap lines r.2.state r.2.buf
  due : r.2.status = .needMore → x.length < rest.length

theorem chunkFeeder_run_at {st : ChunkState} (h : ChunkAt lines x st (buf ++ rest) body)
    (hc : Fits cap lines st buf) :
    ∃ body', RunsFrom cap lines x rest body ((chunkFeeder cap).run ⟨st, buf, .needMore⟩) body' := by
  suffices ∀ l : ChunkLoop, ∀ body, l.status = .needMore →
      ChunkAt lines x l.state (l.buf ++ rest) body → Fits cap lines l.state l.buf →
      ∃ body', RunsFrom cap lines x rest body ((chunkFeeder cap).run l) body' from
    this ⟨st, buf, .needMore⟩ body rfl h hc
  intro l
  refine (chunkFeeder cap).run_induction (P := fun l r => ∀ body, l.status = .needMore →
    ChunkAt lines x l.state (l.buf ++ rest) body → Fits cap lines l.state l.buf →
    ∃ body', RunsFrom cap lines x rest body r body') l ?_ ?_
  · rintro ⟨st, buf, _⟩ hnone body rfl hat hfit
    refine ⟨body, ⟨rfl, Or.inl ⟨rfl, hat⟩⟩, hfit, fun _ => ?_⟩
    rcases chunkStep_at hat hfit with ⟨-, hlt⟩ | ⟨o, l, body', hs, -, -⟩
    · exact hlt
    · have hn : chunkStep cap ⟨st, buf, .needMore⟩ = none := hnone
      simp [hn] at hs
  · rintro ⟨st, buf, _⟩ o l' hsome ih body rfl hat hfit
    have hs' : chunkStep cap ⟨st, buf, .needMore⟩ = some (o, l') := hsome
    rcases chunkStep_at hat hfit with ⟨hn, -⟩ | ⟨o₁, l₁, body₁, hs, hstep, hfit₁⟩
    · simp [hn] at hs'
    · rw [hs] at hs'
      simp only [Option.some.injEq, Prod.mk.injEq] at hs'
      obtain ⟨rfl, rfl⟩ := hs'
      rcases hstep.at_ with ⟨hst, hat₁⟩ | ⟨hst, htr, rfl, hend⟩
      · obtain ⟨body', hrun⟩ := ih body₁ hst hat₁ hfit₁
        refine ⟨body', ⟨?_, hrun.stepped.at_⟩, hrun.fits, hrun.due⟩
        rw [hstep.body, hrun.stepped.body, List.append_assoc]
      · have hstop : (chunkFeeder cap).step l₁ = none := chunkStep_stopped (by simp [hst])
        rw [(chunkFeeder cap).run_none hstop]
        refine ⟨[], ⟨by simpa using hstep.body, Or.inr ⟨hst, htr, rfl, hend⟩⟩, hfit₁, ?_⟩
        rw [hst]
        simp

/-- A decoder that waits holds no more than the CR of a line end. -/
theorem chunkStep_waits {st : ChunkState} (h : chunkStep cap ⟨st, buf, .needMore⟩ = none) :
    buf.length ≤ slack st := by
  cases buf with
  | nil => exact Nat.zero_le _
  | cons b buf =>
    cases st with
    | size line =>
      cases hr : readLine cap line (b :: buf) with
      | wait => exact absurd (readLine_wait hr) (by simp)
      | tooLong => simp [chunkStep, hr] at h
      | stash l => simp [chunkStep, hr] at h
      | line l rest =>
        simp only [chunkStep, hr] at h
        split at h <;> simp at h
    | trailer line =>
      cases hr : readLine cap line (b :: buf) with
      | wait => exact absurd (readLine_wait hr) (by simp)
      | tooLong => simp [chunkStep, hr] at h
      | stash l => simp [chunkStep, hr] at h
      | line l rest =>
        simp only [chunkStep, hr] at h
        split_ifs at h
    | data n => cases n <;> simp [chunkStep] at h
    | dataCrlf =>
      cases buf with
      | nil => simp [slack]
      | cons c buf =>
        simp only [chunkStep] at h
        split_ifs at h

/-- So the next piece of at most `cap` bytes fits. -/
theorem Fits.piece {c : ℕ} {st : ChunkState} {d : Bytes} (hc : 1 ≤ c)
    (h : chunkStep cap ⟨st, buf, .needMore⟩ = none) (hd : d.length ≤ c) :
    Fits (some c) lines st (buf ++ d) := by
  have hw := chunkStep_waits h
  intro c' hc'
  obtain rfl := Option.mem_some_iff.mp hc'
  refine ⟨hc, Or.inr ?_⟩
  rw [List.length_append]
  omega

end Step

section Cuts

theorem position_append_of_not_mem {c : UInt8} {a : Bytes} (h : c ∉ a) (b : Bytes) :
    position c (a ++ b) = (position c b).map (a.length + ·) := by
  induction a with
  | nil => simp
  | cons x a ih =>
    have hx : x ≠ c := fun hx => h (by simp [hx])
    rw [List.cons_append, position, if_neg hx, ih fun hm => h (by simp [hm]), Option.map_map]
    congr 1
    funext i
    simp only [Function.comp, List.length_cons]
    omega

theorem readLine_append {line buf l rest : Bytes} (b : Bytes)
    (h : readLine none line buf = .line l rest) :
    readLine none line (buf ++ b) = .line l (rest ++ b) := by
  unfold readLine at h
  split at h
  · next pos hp =>
    have hlt := position_lt hp
    simp only [LineRead.line.injEq] at h
    obtain ⟨rfl, rfl⟩ := h
    simp only [readLine, position_append b hp]
    rw [List.take_append_of_le_length (by omega), List.drop_append_of_le_length (by omega)]
  · split_ifs at h

/-- The stretch of line in a stash and what follows it read as if they had come together. -/
theorem readLine_stashed {line buf l b : Bytes} (hb : b ≠ [])
    (h : readLine none line buf = .stash l) :
    readLine none line (buf ++ b) = readLine none l b := by
  have hn : LF ∉ buf := by
    rw [← position_eq_none]
    cases hp : position LF buf with
    | none => rfl
    | some pos => simp [readLine, hp] at h
  obtain ⟨-, rfl⟩ := readLine_stash h
  rw [readLine, position_append_of_not_mem hn, readLine]
  cases hp : position LF b with
  | none => simp [hb]
  | some pos =>
    simp only [Option.map_some, LineRead.line.injEq]
    rw [List.take_append, List.drop_append]
    simp [show buf.length + pos + 1 - buf.length = pos + 1 by omega,
      List.take_of_length_le (show buf.length ≤ buf.length + pos + 1 by omega)]
    omega

theorem readLine_none_tooLong {line buf : Bytes} : readLine none line buf ≠ .tooLong := by
  unfold readLine
  split
  · simp
  · simp only [Option.any_none, Bool.false_eq_true, if_false]
    split_ifs <;> simp

/-- Two states of which the next iteration does the same run on alike. -/
theorem chunkFeeder_run_congr {cap : Option ℕ} {l l' : ChunkLoop}
    (h : chunkStep cap l = chunkStep cap l') (hs : chunkStep cap l ≠ none) :
    (chunkFeeder cap).run l = (chunkFeeder cap).run l' := by
  obtain ⟨⟨o, l₁⟩, hl⟩ := Option.ne_none_iff_exists'.mp hs
  have hl' : (chunkFeeder cap).step l' = some (o, l₁) := h.symm.trans hl
  rw [(chunkFeeder cap).run_some hl, (chunkFeeder cap).run_some hl']

/-- Chunk data that goes on in the next piece is taken in two iterations. -/
private theorem data_ext {n : ℕ} {c : UInt8} {buf b : Bytes} (hb : b ≠ []) :
    (chunkFeeder none).run ((chunkFeeder none).ext ⟨.data (n + 1), c :: buf, .needMore⟩ b) =
      ((c :: buf).take (n + 1) ++ ((chunkFeeder none).run ((chunkFeeder none).ext
          ⟨.data (n - buf.length), (c :: buf).drop (n + 1), .needMore⟩ b)).1,
        ((chunkFeeder none).run ((chunkFeeder none).ext
          ⟨.data (n - buf.length), (c :: buf).drop (n + 1), .needMore⟩ b)).2) := by
  by_cases hle : n ≤ buf.length
  · apply (chunkFeeder none).run_ext_of_step
    simp only [chunkFeeder, List.cons_append, chunkStep, Option.some.injEq, Prod.mk.injEq]
    rw [← List.cons_append, List.take_append_of_le_length (by simpa using hle),
      List.drop_append_of_le_length (by simpa using hle)]
    simp [Nat.sub_eq_zero_of_le hle]
    omega
  · obtain ⟨m, hm⟩ : ∃ m, n - buf.length = m + 1 := ⟨n - buf.length - 1, by omega⟩
    obtain ⟨e, b, rfl⟩ := List.exists_cons_of_ne_nil hb
    have h1 : (chunkFeeder none).step ⟨.data (n + 1), (c :: buf) ++ e :: b, .needMore⟩ =
        some (c :: buf ++ (e :: b).take (m + 1),
          ⟨.data (m - b.length), (e :: b).drop (m + 1), .needMore⟩) := by
      have hlen : n + 1 - (c :: buf).length = m + 1 := by simp [hm]
      simp only [chunkFeeder, List.cons_append, chunkStep, Option.some.injEq, Prod.mk.injEq,
        ChunkLoop.mk.injEq, ChunkState.data.injEq]
      rw [← List.cons_append, List.take_append, List.drop_append, hlen,
        List.take_of_length_le (by simp; omega), List.drop_of_length_le (by simp; omega)]
      simp only [List.length_append, List.length_cons]
      exact ⟨rfl, by omega, rfl, trivial⟩
    have h2 : (chunkFeeder none).step ⟨.data (m + 1), e :: b, .needMore⟩ =
        some ((e :: b).take (m + 1),
          ⟨.data (m - b.length), (e :: b).drop (m + 1), .needMore⟩) := rfl
    have htake : (c :: buf).take (n + 1) = c :: buf :=
      List.take_of_length_le (by simp; omega)
    have hdrop : (c :: buf).drop (n + 1) = [] := List.drop_of_length_le (by simp; omega)
    have hlate := (chunkFeeder none).run_some h2
    refine ((chunkFeeder none).run_some h1).trans ?_
    rw [htake, hdrop, hm]
    simp only [chunkFeeder, List.nil_append] at hlate ⊢
    rw [hlate]
    simp

/-- Without a cap on the lines, the decoder does not notice how its input is cut. -/
theorem chunkFeeder_incremental : (chunkFeeder none).Incremental := by
  rintro ⟨st, buf, status⟩ o s' b h
  have hs : chunkStep none ⟨st, buf, status⟩ = some (o, s') := h
  by_cases hb : b = []
  · subst hb
    simpa only [(chunkFeeder none).ext_nil] using (chunkFeeder none).run_some h
  cases status with
  | done => simp [chunkStep_stopped] at hs
  | error => simp [chunkStep_stopped] at hs
  | needMore =>
    cases st with
    | size line =>
      cases hr : readLine none line buf with
      | wait => simp [chunkStep, hr] at hs
      | tooLong => exact absurd hr readLine_none_tooLong
      | stash l =>
        obtain ⟨rfl, rfl⟩ : [] = o ∧ _ = s' := by simpa [chunkStep, hr] using hs
        have hjoin := readLine_stashed hb hr
        have hstep : chunkStep none ⟨.size line, buf ++ b, .needMore⟩ =
            chunkStep none ⟨.size l, b, .needMore⟩ ∧
              chunkStep none ⟨.size l, b, .needMore⟩ ≠ none := by
          cases hr' : readLine none l b with
          | wait => exact absurd (readLine_wait hr') hb
          | tooLong => exact absurd hr' readLine_none_tooLong
          | stash l' => simp [chunkStep, hjoin, hr']
          | line l' rest =>
            simp only [chunkStep, hjoin, hr']
            split <;> simp
        exact chunkFeeder_run_congr hstep.1 (hstep.1 ▸ hstep.2)
      | line l rest =>
        apply (chunkFeeder none).run_ext_of_step
        simp only [chunkStep, hr] at hs
        simp only [chunkFeeder, chunkStep, readLine_append b hr]
        split at hs <;> obtain ⟨rfl, rfl⟩ := by simpa using hs
        all_goals simp_all
    | data n =>
      cases n with
      | zero =>
        obtain ⟨rfl, rfl⟩ : [] = o ∧ _ = s' := by simpa [chunkStep] using hs
        exact (chunkFeeder none).run_ext_of_step rfl
      | succ n =>
        cases buf with
        | nil => simp [chunkStep] at hs
        | cons c buf =>
          simp only [chunkStep, Option.some.injEq, Prod.mk.injEq] at hs
          obtain ⟨rfl, rfl⟩ := hs
          exact data_ext hb
    | dataCrlf =>
      cases buf with
      | nil => simp [chunkStep] at hs
      | cons c buf =>
        apply (chunkFeeder none).run_ext_of_step
        simp only [chunkStep] at hs
        simp only [chunkFeeder, List.cons_append, chunkStep]
        split_ifs at hs ⊢ with hc
        · cases buf with
          | nil => simp at hs
          | cons d buf =>
            obtain ⟨rfl, rfl⟩ := by simpa using hs
            rfl
        · obtain ⟨rfl, rfl⟩ := by simpa using hs
          rfl
    | trailer line =>
      cases hr : readLine none line buf with
      | wait => simp [chunkStep, hr] at hs
      | tooLong => exact absurd hr readLine_none_tooLong
      | stash l =>
        obtain ⟨rfl, rfl⟩ : [] = o ∧ _ = s' := by simpa [chunkStep, hr] using hs
        have hjoin := readLine_stashed hb hr
        have hstep : chunkStep none ⟨.trailer line, buf ++ b, .needMore⟩ =
            chunkStep none ⟨.trailer l, b, .needMore⟩ ∧
              chunkStep none ⟨.trailer l, b, .needMore⟩ ≠ none := by
          cases hr' : readLine none l b with
          | wait => exact absurd (readLine_wait hr') hb
          | tooLong => exact absurd hr' readLine_none_tooLong
          | stash l' => simp [chunkStep, hjoin, hr']
          | line l' rest =>
            simp only [chunkStep, hjoin, hr']
            split_ifs <;> simp
        exact chunkFeeder_run_congr hstep.1 (hstep.1 ▸ hstep.2)
      | line l rest =>
        apply (chunkFeeder none).run_ext_of_step
        simp only [chunkStep, hr] at hs
        simp only [chunkFeeder, chunkStep, readLine_append b hr]
        split_ifs at hs ⊢ <;> obtain ⟨rfl, rfl⟩ := by simpa using hs
        all_goals rfl

/-- As long as it meets no line over its cap, the decoder does what one without a cap does. -/
theorem chunkStep_uncapped {c : ℕ} {l : ChunkLoop} :
    chunkStep (some c) l = chunkStep none l ∨
      ∃ l', chunkStep (some c) l = some ([], l') ∧ l'.status = .error := by
  obtain ⟨st, buf, status⟩ := l
  have hline : ∀ line, readLine (some c) line buf = readLine none line buf ∨
      readLine (some c) line buf = .tooLong := by
    intro line
    unfold readLine
    split
    · exact Or.inl rfl
    · split_ifs <;> simp_all
  cases status with
  | done => exact Or.inl (by simp [chunkStep_stopped])
  | error => exact Or.inl (by simp [chunkStep_stopped])
  | needMore =>
    cases st with
    | size line =>
      rcases hline line with hr | hr
      · exact Or.inl (by simp only [chunkStep, hr])
      · exact Or.inr ⟨⟨.size line, buf, .error⟩, by simp only [chunkStep, hr], rfl⟩
    | trailer line =>
      rcases hline line with hr | hr
      · exact Or.inl (by simp only [chunkStep, hr])
      · exact Or.inr ⟨⟨.trailer line, buf, .error⟩, by simp only [chunkStep, hr], rfl⟩
    | data n => exact Or.inl (by cases n <;> cases buf <;> rfl)
    | dataCrlf => exact Or.inl (by cases buf <;> rfl)

theorem chunkFeeder_run_uncapped {c : ℕ} (l : ChunkLoop)
    (h : ((chunkFeeder (some c)).run l).2.status ≠ .error) :
    (chunkFeeder none).run l = (chunkFeeder (some c)).run l := by
  refine (chunkFeeder (some c)).run_induction (P := fun l r => r.2.status ≠ .error →
    (chunkFeeder none).run l = r) l ?_ ?_ h
  · intro l hn _
    rcases @chunkStep_uncapped c l with heq | ⟨l', hl', -⟩
    · exact (chunkFeeder none).run_none (heq.symm.trans hn)
    · exact absurd (hl'.symm.trans hn) (by simp)
  · intro l o l' hs ih he
    rcases @chunkStep_uncapped c l with heq | ⟨l₁, hl₁, herr⟩
    · rw [(chunkFeeder none).run_some (heq.symm.trans hs), ih he]
    · obtain ⟨-, rfl⟩ := Prod.mk.inj (Option.some.inj (hl₁.symm.trans hs))
      have hstop : (chunkFeeder (some c)).step l₁ = none := chunkStep_stopped (by simp [herr])
      rw [(chunkFeeder (some c)).run_none hstop] at he
      exact absurd herr he

end Cuts
end Adwarden.Tls
