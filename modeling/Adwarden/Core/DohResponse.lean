import Adwarden.Core.HttpForward
import Adwarden.Core.HttpForwardRun
import Adwarden.Core.Lookup

/-! The framing of a DoH response: where the body ends by the header fields, and where the text
search of the lookup finds it to end. -/
namespace Adwarden.Core

open Str

/-- Where the body of a response ends, if the response is not refused. -/
inductive Delimiter where
  | refused
  | length (n : ℕ)
  | close
deriving DecidableEq

/-- The body, from the bytes behind the head that have come. -/
def Delimiter.body : Delimiter → Bytes → Bool → Option Bytes
  | .refused, _, _ => none
  | .length n, behind, _ => if n ≤ behind.length then some (behind.take n) else none
  | .close, behind, eof => if eof then some behind else none

/-- The second word of the status line. -/
def statusCode (head : Bytes) : Option Str :=
  (fromUtf8 (firstLine head)).bind fun line =>
    ((line.splitOnP isWhitespace).filter (!·.isEmpty))[1]?

/-- The head of a response with status 200, in UTF-8. -/
structure AcceptedHead (head : Bytes) : Prop where
  complete : IsHead head
  text : (fromUtf8 head).isSome = true
  status : statusCode head = some (lit "200")

/-- The length a text states, of a message that fits a `usize`. -/
def statedLength (head text : Bytes) : Option ℕ :=
  ((fromUtf8 text).bind fun v => parseUsize v.trim).filter fun n => head.length + n < usizeSize

/-- The values of the fields of a name, in lower case. -/
def fieldValues (name : Bytes) (head : Bytes) : List Bytes :=
  (HttpForward.headerLines (head.map toAsciiLower)).filterMap fun line =>
    if (name ++ [58]).isPrefixOf line then some (line.drop (name.length + 1)) else none

def chunkedField (head : Bytes) : Bool :=
  (fieldValues (ascii "transfer-encoding") head).any fun value =>
    (findSubsequence (ascii "chunked") value).isSome

/-- The end the header fields declare. -/
def declaredDelimiter (head : Bytes) : Delimiter :=
  match (fieldValues (ascii "content-length") head).head? with
  | some value => ((statedLength head value).map Delimiter.length).getD .refused
  | none => if chunkedField head then .refused else .close

def mentions (needle head : Bytes) : Bool :=
  (findSubsequence needle (head.map toAsciiLower)).isSome

/-- The rest of the line behind the first mention of a content length, wherever it stands. -/
def lengthMention (head : Bytes) : Option Bytes :=
  (findSubsequence (ascii "content-length:") (head.map toAsciiLower)).map fun pos =>
    firstLine ((head.map toAsciiLower).drop (pos + (ascii "content-length:").length))

/-- The end the lookup finds. -/
def foundDelimiter (head : Bytes) : Delimiter :=
  match lengthMention head with
  | some text => ((statedLength head text).map Delimiter.length).getD .refused
  | none =>
    if mentions (ascii "transfer-encoding:") head && mentions (ascii "chunked") head then .refused
    else .close

/-- The lookup returns the body the header fields delimit, not before all of it has come, and the
same one from then on. -/
structure HonoursFraming (head : Bytes) : Prop where
  body : ∀ behind eof, takeDohResponse (head ++ behind) eof =
    (declaredDelimiter head).body behind eof
  waits : ∀ front eof, front <+: head → front ≠ head → takeDohResponse front eof = none
  stays : ∀ behind more eof b, takeDohResponse (head ++ behind) false = some b →
    takeDohResponse (head ++ (behind ++ more)) eof = some b

section Found

variable {head : Bytes}

theorem takeDohResponse_head (h : AcceptedHead head) (behind : Bytes) (eof : Bool) :
    takeDohResponse (head ++ behind) eof = (foundDelimiter head).body behind eof := by
  obtain ⟨pos, hpos, hlen⟩ := h.complete.find_append behind
  obtain ⟨text, htext⟩ := Option.isSome_iff_exists.mp h.text
  obtain ⟨line, hline, hcode⟩ := Option.bind_eq_some_iff.mp h.status
  have hlower : toBytes text.toAsciiLowercase = head.map toAsciiLower := by
    rw [toBytes_toAsciiLowercase, toBytes_of_fromUtf8 htext]
  have hstop : ∀ {n : ℕ}, (head.length + n < usizeSize ∧ head.length + n ≤ (head ++ behind).length) ↔
      (head.length + n < usizeSize ∧ n ≤ behind.length) := by
    intro n
    rw [List.length_append, Nat.add_le_add_iff_left]
  unfold takeDohResponse
  simp only [hpos, Option.map_some, ← hlen, Option.bind_eq_bind, Option.bind_some, List.take_left,
    htext, hline, hcode, findStr, hlower, List.drop_left, hstop, ne_eq, not_true, if_false]
  unfold foundDelimiter lengthMention
  cases findSubsequence (ascii "content-length:") (head.map toAsciiLower) with
  | none =>
    show (if (mentions (ascii "transfer-encoding:") head && mentions (ascii "chunked") head) = true
        then none else if eof = true then some behind else none) =
      (if (mentions (ascii "transfer-encoding:") head && mentions (ascii "chunked") head) = true
        then Delimiter.refused else Delimiter.close).body behind eof
    cases mentions (ascii "transfer-encoding:") head && mentions (ascii "chunked") head with
    | true => rfl
    | false => rfl
  | some pos =>
    simp only [Option.map_some, statedLength]
    cases (fromUtf8 (firstLine ((head.map toAsciiLower).drop
        (pos + (ascii "content-length:").length)))).bind fun v => parseUsize v.trim with
    | none => rfl
    | some n =>
      simp only [Option.bind_some, Option.filter_some]
      by_cases hfit : head.length + n < usizeSize
      · simp [hfit, Delimiter.body]
      · simp [hfit, Delimiter.body]

theorem Delimiter.body_injective {a b : Delimiter}
    (h : ∀ behind eof, a.body behind eof = b.body behind eof) : a = b := by
  -- a length shows in a body of the longer of the two, the end of the stream in an empty one
  have hlength : ∀ {n : ℕ} {d : Delimiter}, (∀ behind eof, (Delimiter.length n).body behind eof =
      d.body behind eof) → Delimiter.length n = d := by
    intro n d hd
    have hall := hd (List.replicate n 0) false
    simp only [Delimiter.body, List.length_replicate, Nat.le_refl, if_true] at hall
    cases d with
    | refused => cases hall
    | close => cases hall
    | length m =>
      have hlonger := hd (List.replicate (max n m) 0) false
      simp only [Delimiter.body, List.length_replicate, Nat.le_max_left, Nat.le_max_right, if_true,
        Option.some.injEq, List.take_replicate] at hlonger
      have hlen := congrArg List.length hlonger
      simp only [List.length_replicate] at hlen
      congr 1
      omega
  cases a with
  | length n => exact hlength h
  | refused =>
    cases b with
    | refused => rfl
    | length m => exact (hlength fun behind eof => (h behind eof).symm).symm
    | close => cases h [] true
  | close =>
    cases b with
    | close => rfl
    | length m => exact (hlength fun behind eof => (h behind eof).symm).symm
    | refused => cases h [] true

/-- A body that has been found stays found. -/
theorem Delimiter.body_append {d : Delimiter} {behind b : Bytes} (h : d.body behind false = some b)
    (more : Bytes) (eof : Bool) : d.body (behind ++ more) eof = some b := by
  cases d with
  | refused => cases h
  | close => cases h
  | length n =>
    simp only [Delimiter.body] at h ⊢
    split_ifs at h with hn
    rw [if_pos (by rw [List.length_append]; omega), List.take_append_of_le_length hn]
    exact h

/-- Nothing is found before the head is complete. -/
theorem takeDohResponse_front (h : AcceptedHead head) {front : Bytes} (hfront : front <+: head)
    (hne : front ≠ head) (eof : Bool) : takeDohResponse front eof = none := by
  have hnone : findSubsequence [CR, LF, CR, LF] front = none := by
    obtain ⟨more, rfl⟩ := hfront
    obtain ⟨i, hi, hlen⟩ := h.complete
    cases hfind : findSubsequence [CR, LF, CR, LF] front with
    | none => rfl
    | some j =>
      exfalso
      have hij := findSubsequence_append more hfind
      rw [hi] at hij
      have hle := findSubsequence_le hfind
      have hi' := Option.some.inj hij
      simp only [List.length_append, List.length_cons, List.length_nil] at hlen hle
      refine hne ?_
      rw [List.eq_nil_of_length_eq_zero (show more.length = 0 by omega), List.append_nil]
  unfold takeDohResponse
  rw [hnone]
  rfl

/-- The lines of a head are parts of it. -/
private theorem splitCrlf_pieces {n : ℕ} {data line : Bytes} (h : line ∈ HttpForward.splitCrlf n data) :
    line <:+: data := by
  induction n generalizing data with
  | zero => cases h
  | succ n ih =>
    cases data with
    | nil => cases h
    | cons b data =>
      simp only [HttpForward.splitCrlf] at h
      cases hpos : findSubsequence CRLF (b :: data) with
      | none =>
        rw [hpos] at h
        rw [List.mem_singleton.mp h]
      | some pos =>
        rw [hpos] at h
        rcases List.mem_cons.mp h with rfl | h
        · exact (List.take_prefix _ _).isInfix
        · exact (ih h).trans (List.drop_suffix _ _).isInfix

/-- A field of a name is a mention of it. -/
theorem mentions_of_field {name value : Bytes} (h : value ∈ fieldValues name head) :
    mentions (name ++ [58]) head = true := by
  obtain ⟨line, hline, hvalue⟩ := List.mem_filterMap.mp h
  split_ifs at hvalue with hname
  have hinfix : line <:+: head.map toAsciiLower := by
    unfold HttpForward.headerLines at hline
    cases hpos : findSubsequence CRLF (head.map toAsciiLower) with
    | none =>
      rw [hpos] at hline
      cases hline
    | some pos =>
      rw [hpos] at hline
      exact (splitCrlf_pieces (List.takeWhile_subset _ hline)).trans (List.drop_suffix _ _).isInfix
  obtain ⟨x, z, hxz⟩ := ((List.isPrefixOf_iff_prefix.mp hname).isInfix).trans hinfix
  have hself : findSubsequence (name ++ [58]) (name ++ [58]) = some 0 := by
    cases name with
    | nil => rfl
    | cons c name =>
      rw [List.cons_append, findSubsequence, if_pos (by simp)]
  obtain ⟨i, hi, -⟩ := findSubsequence_infix x z hself
  rw [mentions, ← hxz, hi]
  rfl

end Found

/-- The mention of a content length the lookup takes is the field of that name, or says the same;
without such a field there is none, and the chunked coding is not only mentioned. -/
def FieldMentioned (head : Bytes) : Prop :=
  match (fieldValues (ascii "content-length") head).head?, lengthMention head with
  | some value, some text => statedLength head text = statedLength head value
  | some _, none => False
  | none, some text => statedLength head text = none ∧ chunkedField head = true
  | none, none =>
    chunkedField head = (mentions (ascii "transfer-encoding:") head && mentions (ascii "chunked") head)

section Honours

variable {head : Bytes}

private theorem length_getD_injective {a b : Option ℕ} :
    (a.map Delimiter.length).getD .refused = (b.map Delimiter.length).getD .refused ↔ a = b := by
  cases a with
  | none => cases b <;> simp
  | some n => cases b <;> simp

theorem foundDelimiter_eq_iff : foundDelimiter head = declaredDelimiter head ↔
    FieldMentioned head := by
  have hmention : ∀ value, value ∈ fieldValues (ascii "content-length") head →
      lengthMention head ≠ none := by
    intro value hvalue hnone
    have hmentions := mentions_of_field hvalue
    rw [show ascii "content-length" ++ [58] = ascii "content-length:" from rfl, mentions,
      Option.map_eq_none_iff.mp hnone] at hmentions
    cases hmentions
  unfold foundDelimiter declaredDelimiter FieldMentioned
  cases hfield : (fieldValues (ascii "content-length") head).head? with
  | some value =>
    cases htext : lengthMention head with
    | none => exact absurd htext (hmention value (List.mem_of_mem_head? hfield))
    | some text => exact length_getD_injective
  | none =>
    cases htext : lengthMention head with
    | some text =>
      dsimp only
      cases statedLength head text with
      | none => cases chunkedField head <;> simp
      | some n => cases chunkedField head <;> simp
    | none =>
      dsimp only
      cases mentions (ascii "transfer-encoding:") head && mentions (ascii "chunked") head with
      | true => cases chunkedField head <;> simp
      | false => cases chunkedField head <;> simp

/-- The lookup honours the framing of a response exactly when it finds the fields. -/
theorem honours_framing_iff (h : AcceptedHead head) :
    HonoursFraming head ↔ FieldMentioned head := by
  rw [← foundDelimiter_eq_iff]
  constructor
  · intro hhonours
    apply Delimiter.body_injective
    intro behind eof
    rw [← takeDohResponse_head h, hhonours.body]
  · intro hsame
    constructor
    · intro behind eof
      rw [takeDohResponse_head h, hsame]
    · intro front eof hfront hne
      exact takeDohResponse_front h hfront hne eof
    · intro behind more eof b hb
      rw [takeDohResponse_head h] at hb ⊢
      exact Delimiter.body_append hb more eof

def plainAnswer : Bytes :=
  ascii "HTTP/1.1 200 OK\r\nContent-Type: application/dns-message\r\nContent-Length: 3\r\n\r\n"

theorem honours_framing_plain : HonoursFraming plainAnswer ↔ FieldMentioned plainAnswer :=
  honours_framing_iff ⟨⟨73, by decide +kernel, by decide +kernel⟩, by decide +kernel,
    by decide +kernel⟩

def extraLengthAnswer : Bytes :=
  ascii "HTTP/1.1 200 OK\r\nX-Content-Length: 9\r\nContent-Length: 3\r\n\r\n"

/-- Another field with the name in its own hides the length: the whole answer is waited past. -/
theorem extra_length_waits :
    AcceptedHead extraLengthAnswer ∧ declaredDelimiter extraLengthAnswer = .length 3 ∧
      takeDohResponse (extraLengthAnswer ++ ascii "abc") false = none ∧
      takeDohResponse (extraLengthAnswer ++ ascii "abc") true = none := by
  refine ⟨⟨⟨55, ?_, ?_⟩, ?_, ?_⟩, ?_, ?_, ?_⟩
  all_goals decide +kernel

end Honours

end Adwarden.Core
