import Adwarden.Core.HttpForwardRun
import Mathlib.Data.List.DropRight

/-! When forwarding fails closed. The framing a head declares is read off its bytes, whether or not
they are UTF-8, and compared with what the rewriter makes of it. -/
namespace Adwarden.Core.HttpForward

open Str

def requestLine (head : Bytes) : Bytes := head.take ((findSubsequence CRLF head).getD 0)

/-- The name and the value on a header line, whatever its bytes. -/
def rawField (line : Bytes) : Option (Str × Str) :=
  (position 58 line).map fun i =>
    ((fromUtf8Lossy (line.take i)).trimEnd, fromUtf8Lossy (line.drop (i + 1)))

def fieldValue (name : Str) (line : Bytes) : Option Str :=
  (rawField line).bind fun p => if p.1.eqIgnoreAsciiCase name then some p.2 else none

def contentLengthValue (line : Bytes) : Option Str :=
  (fieldValue (lit "content-length") line).map trim

def codesChunked (line : Bytes) : Bool :=
  ((fieldValue (lit "transfer-encoding") line).map fun value =>
    value.toAsciiLowercase.tails.any (startsWith · (lit "chunked"))).getD false

/-- A number in plain decimal digits that fits a `u64`. -/
def plainDecimal (value : Str) : Option ℕ :=
  if value ≠ [] ∧ (value.all fun c => 48 ≤ c.toNat ∧ c.toNat ≤ 57) ∧
      digitsValue 10 value < 2 ^ 64 then
    some (digitsValue 10 value)
  else none

def contentLengths (head : Bytes) : List Str := (headerLines head).filterMap contentLengthValue

/-- The length of the body is malformed, declared twice, or left to the chunks. -/
def Ambiguous (head : Bytes) : Prop :=
  (∃ v ∈ contentLengths head, plainDecimal v = none) ∨
    (∃ v ∈ contentLengths head, ∃ w ∈ contentLengths head, plainDecimal v ≠ plainDecimal w) ∨
    ∃ line ∈ headerLines head, codesChunked line = true

def declaredLength (head : Bytes) : ℕ := ((contentLengths head).head?.bind plainDecimal).getD 0

/-- A push that completes an ambiguous head fails, with nothing of that request passed on before;
for every other head that is taken the body has the declared length. -/
structure FailsClosed (fallback : Str) (head : Bytes) : Prop where
  closed : Ambiguous head → ∀ (t : Traffic fallback) (requests : List (Request fallback))
    (input behind : Bytes),
    t.bytes ++ input = requests.flatMap (fun r => r.head ++ r.body) ++ (head ++ behind) →
    (∃ e, (push t.forward input).1 = .error e) ∧
      t.output <+: requests.flatMap
        (fun r => insertAuthority (authority fallback r.head) r.head ++ r.body)
  declared : ¬ Ambiguous head → ∀ bytes n, rewriteHead head fallback = .ok (bytes, n) →
    n = declaredLength head

section Lines

private theorem mem_trimEnd {c : Char} {s : Str} (hc : c ∈ s) (hw : isWhitespace c = false) :
    c ∈ trimEnd s := by
  have key : ∀ s : Str, c ∈ s → c ∈ s.dropWhile isWhitespace := by
    intro s
    induction s with
    | nil => exact id
    | cons d s ih =>
      intro h
      by_cases hd : isWhitespace d = true
      · rw [List.dropWhile_cons_of_pos hd]
        rcases List.mem_cons.mp h with rfl | h
        · rw [hd] at hw
          cases hw
        · exact ih h
      · rw [List.dropWhile_cons_of_neg hd]
        exact h
  rw [trimEnd, List.mem_reverse]
  exact key _ (List.mem_reverse.mpr hc)

/-- On a line of UTF-8 the rewriter reads the field there is. -/
theorem rawField_of_splitHeader {line : Bytes} {name value : Str}
    (h : splitHeader line = some (name, value)) :
    ∃ raw, rawField line = some (name, raw) ∧ value = raw.trimStart := by
  unfold splitHeader at h
  obtain ⟨text, htext, h⟩ := Option.bind_eq_some_iff.mp h
  obtain ⟨⟨a, b⟩, hcut, h⟩ := Option.bind_eq_some_iff.mp h
  obtain ⟨rfl, rfl⟩ := Prod.mk.inj (Option.some.inj h)
  obtain ⟨rfl, ha⟩ := splitOnce_some hcut
  have hcolon : (58 : UInt8) ∉ toBytes a := fun hmem =>
    ha ((ascii_mem_toBytes (by decide)).mp hmem)
  have hline : line = toBytes a ++ 58 :: toBytes b := by
    rw [← toBytes_of_fromUtf8 htext, toBytes_append, toBytes_cons]
    rfl
  refine ⟨b, ?_, rfl⟩
  rw [rawField, hline, position_line hcolon, Option.map_some, List.take_left,
    ← List.drop_drop, List.drop_left, fromUtf8Lossy_toBytes]
  exact congrArg (fun s => some (trimEnd a, s)) (fromUtf8Lossy_toBytes b)

/-- A field without replacement characters is one the rewriter reads. -/
theorem splitHeader_of_rawField {line : Bytes} {name raw : Str}
    (h : rawField line = some (name, raw)) (hname : Char.ofNat 0xFFFD ∉ name)
    (hraw : Char.ofNat 0xFFFD ∉ raw) : splitHeader line = some (name, raw.trimStart) := by
  obtain ⟨i, hi, h⟩ := Option.map_eq_some_iff.mp h
  obtain ⟨rfl, rfl⟩ := Prod.mk.inj h
  have hfront := fromUtf8_of_fromUtf8Lossy fun hmem => hname (mem_trimEnd hmem (by decide))
  have hback := fromUtf8_of_fromUtf8Lossy hraw
  obtain ⟨htake, hcolon⟩ := position_some hi
  have hline : line = toBytes (fromUtf8Lossy (line.take i) ++
      ':' :: fromUtf8Lossy (line.drop (i + 1))) := by
    rw [toBytes_append, toBytes_cons, toBytes_of_fromUtf8 hfront, toBytes_of_fromUtf8 hback]
    have hcut := List.take_append_drop (i + 1) line
    rw [htake, List.append_assoc] at hcut
    exact hcut.symm
  have ha : ':' ∉ fromUtf8Lossy (line.take i) := by
    intro hmem
    refine hcolon ?_
    rw [← toBytes_of_fromUtf8 hfront]
    exact (ascii_mem_toBytes (show (58 : UInt8).toNat < 0x80 by decide)).mpr hmem
  unfold splitHeader
  generalize fromUtf8Lossy (line.take i) = a at hline ha
  generalize fromUtf8Lossy (line.drop (i + 1)) = b at hline
  rw [hline, fromUtf8_toBytes, Option.bind_eq_bind, Option.bind_some, splitOnce_append ha]
  rfl

/-- The length the rewriter reads off a line. -/
def readLength (line : Bytes) : Option ℕ :=
  (splitHeader line).bind fun p =>
    if p.1.eqIgnoreAsciiCase (lit "content-length") then
      some ((fromStrRadix 64 10 p.2.trim).getD 0) else none

def readChunked (line : Bytes) : Bool :=
  ((splitHeader line).map fun p => p.1.eqIgnoreAsciiCase (lit "transfer-encoding") &&
    p.2.toAsciiLowercase.tails.any (startsWith · (lit "chunked"))).getD false

private theorem scanField_length (f : Fields) (line : Bytes) :
    (scanField f line).contentLength = (readLength line).getD f.contentLength := by
  unfold scanField readLength
  cases splitHeader line with
  | none => rfl
  | some p =>
    obtain ⟨name, value⟩ := p
    simp only [Option.bind_some]
    split_ifs with hhost hlength hlength
    · rw [eqIgnoreAsciiCase_of_ne (by decide) hhost] at hlength
      cases hlength
    all_goals rfl

private theorem scanField_chunked (f : Fields) (line : Bytes) :
    (scanField f line).chunked = (f.chunked || readChunked line) := by
  unfold scanField readChunked
  cases splitHeader line with
  | none => simp
  | some p =>
    obtain ⟨name, value⟩ := p
    simp only [Option.map_some, Option.getD_some]
    split_ifs with hhost hlength hcoded
    · rw [eqIgnoreAsciiCase_of_ne (by decide) hhost]
      simp
    · rw [eqIgnoreAsciiCase_of_ne (by decide) hlength]
      simp
    · rw [hcoded]
      simp
    · rw [Bool.eq_false_iff.mpr hcoded, Bool.or_false]

private theorem scanFields_chunked (lines : List Bytes) (f : Fields) :
    (lines.foldl scanField f).chunked = (f.chunked || lines.any readChunked) := by
  induction lines generalizing f with
  | nil => simp
  | cons line lines ih => rw [List.foldl_cons, ih, scanField_chunked, List.any_cons, Bool.or_assoc]

/-- Where the lengths agree the last one is any of them. -/
private theorem scanFields_length {lines : List Bytes} {n : ℕ}
    (h : ∀ line ∈ lines, ∀ m, readLength line = some m → m = n) (f : Fields) :
    (lines.foldl scanField f).contentLength =
      if lines.any (fun line => (readLength line).isSome) then n else f.contentLength := by
  induction lines generalizing f with
  | nil => rfl
  | cons line lines ih =>
    rw [List.foldl_cons, ih fun line hline => h line (List.mem_cons_of_mem _ hline),
      scanField_length, List.any_cons]
    cases hline : readLength line with
    | none => rfl
    | some m =>
      rw [h line (List.mem_cons_self ..) m hline]
      simp

private theorem chunked_trimStart (raw : Str) :
    raw.trimStart.toAsciiLowercase.tails.any (startsWith · (lit "chunked")) =
      raw.toAsciiLowercase.tails.any (startsWith · (lit "chunked")) := by
  induction raw with
  | nil => rfl
  | cons c raw ih =>
    by_cases hc : isWhitespace c = true
    · have hstart : startsWith (toAsciiLowercase (c :: raw)) (lit "chunked") = false := by
        have hne : 'c' ≠ (if 65 ≤ c.toNat ∧ c.toNat ≤ 90 then Char.ofNat (c.toNat + 32) else c) := by
          split_ifs with hupper
          · simp only [isWhitespace, Bool.or_eq_true, Bool.and_eq_true, beq_iff_eq,
              decide_eq_true_eq] at hc
            omega
          · rintro rfl
            exact absurd hc (by decide)
        show (('c' == _) && _) = false
        rw [beq_eq_false_iff_ne.mpr hne, Bool.false_and]
      have htails : (toAsciiLowercase (c :: raw)).tails =
          toAsciiLowercase (c :: raw) :: (toAsciiLowercase raw).tails := List.tails_cons ..
      rw [trimStart, List.dropWhile_cons_of_pos hc, ← trimStart, ih, htails, List.any_cons, hstart,
        Bool.false_or]
    · rw [trimStart, List.dropWhile_cons_of_neg hc]

/-- The rewriter sees the chunked coding on a line of UTF-8 only. -/
theorem readChunked_eq (line : Bytes) :
    readChunked line = ((fromUtf8 line).isSome && codesChunked line) := by
  unfold readChunked
  cases hsplit : splitHeader line with
  | some p =>
    obtain ⟨name, value⟩ := p
    obtain ⟨raw, hraw, rfl⟩ := rawField_of_splitHeader hsplit
    have htext : (fromUtf8 line).isSome = true := by
      obtain ⟨text, htext, -⟩ := Option.bind_eq_some_iff.mp hsplit
      rw [htext]
      rfl
    rw [htext, Bool.true_and, Option.map_some, Option.getD_some, codesChunked, fieldValue, hraw,
      Option.bind_some]
    dsimp only
    split_ifs with hname
    · rw [hname, Bool.true_and, chunked_trimStart]
      rfl
    · rw [Bool.eq_false_iff.mpr hname]
      rfl
  | none =>
    cases htext : fromUtf8 line with
    | none => rfl
    | some text =>
      cases hraw : rawField line with
      | none =>
        rw [codesChunked, fieldValue, hraw]
        rfl
      | some p =>
        exfalso
        obtain ⟨i, hi, -⟩ := Option.map_eq_some_iff.mp hraw
        have hcolon : (58 : UInt8) ∈ toBytes text := by
          rw [toBytes_of_fromUtf8 htext]
          have hmem : (58 : UInt8) ∈ line.take (i + 1) := by
            rw [(position_some hi).1]
            simp
          exact List.mem_of_mem_take hmem
        rw [splitHeader, htext, Option.bind_eq_bind, Option.bind_some] at hsplit
        cases hcut : splitOnce ':' text with
        | none => exact splitOnce_none hcut ((ascii_mem_toBytes (by decide)).mp hcolon)
        | some q =>
          rw [hcut] at hsplit
          cases hsplit

private theorem trim_trimStart (s : Str) : trim (trimStart s) = trim s := by
  rw [trim, trimStart, trimStart, List.dropWhile_idempotent, ← trimStart, ← trim]

theorem plainDecimal_some {v : Str} {n : ℕ} (h : plainDecimal v = some n) :
    fromStrRadix 64 10 v = some n ∧ ∀ c ∈ v, 48 ≤ c.toNat ∧ c.toNat ≤ 57 := by
  unfold plainDecimal at h
  split_ifs at h with hv
  obtain ⟨hne, hall, hlt⟩ := hv
  have hdigits : ∀ c ∈ v, 48 ≤ c.toNat ∧ c.toNat ≤ 57 := by simpa using hall
  obtain rfl := Option.some.inj h
  refine ⟨fromStrRadix_digits ⟨hne, ?_⟩ hlt, hdigits⟩
  intro c hc
  have hc' := hdigits c hc
  refine ⟨c.toNat - 48, ?_, by omega⟩
  rw [digitVal, if_pos hc']

/-- Every length the rewriter reads is a value on the line. -/
theorem contentLengthValue_of_readLength {line : Bytes} {m : ℕ} (h : readLength line = some m) :
    ∃ v, contentLengthValue line = some v ∧ m = (fromStrRadix 64 10 v).getD 0 := by
  obtain ⟨⟨name, value⟩, hsplit, hm⟩ := Option.bind_eq_some_iff.mp h
  obtain ⟨raw, hraw, rfl⟩ := rawField_of_splitHeader hsplit
  dsimp only at hm
  split_ifs at hm with hname
  refine ⟨raw.trim, ?_, ?_⟩
  · rw [contentLengthValue, fieldValue, hraw, Option.bind_some, if_pos hname]
    rfl
  · rw [← trim_trimStart]
    exact (Option.some.inj hm).symm

private theorem replacement_notMem_name {name a : Str} (h : name.eqIgnoreAsciiCase a = true)
    (ha : Char.ofNat 0xFFFD ∉ toAsciiLowercase a) : Char.ofNat 0xFFFD ∉ name := by
  intro hmem
  rw [Str.eqIgnoreAsciiCase, beq_iff_eq] at h
  refine ha ?_
  rw [← h]
  exact List.mem_map.mpr ⟨_, hmem, by decide⟩

private theorem mem_trim {c : Char} {s : Str} (hc : c ∈ s) (hw : isWhitespace c = false) :
    c ∈ trim s := by
  refine mem_trimEnd ?_ hw
  have hrev := mem_trimEnd (List.mem_reverse.mpr hc) hw
  rw [trimEnd, List.reverse_reverse, List.mem_reverse] at hrev
  exact hrev

/-- A plain decimal length is read. -/
theorem readLength_of_plainDecimal {line : Bytes} {v : Str} {n : ℕ}
    (h : contentLengthValue line = some v) (hv : plainDecimal v = some n) :
    readLength line = some n := by
  obtain ⟨hparse, hdigits⟩ := plainDecimal_some hv
  obtain ⟨raw, hfield, rfl⟩ := Option.map_eq_some_iff.mp h
  obtain ⟨⟨name, raw'⟩, hraw, hname⟩ := Option.bind_eq_some_iff.mp hfield
  dsimp only at hname
  split_ifs at hname with heq
  obtain rfl := Option.some.inj hname
  have hsplit := splitHeader_of_rawField hraw (replacement_notMem_name heq (by decide)) (by
    intro hmem
    have hdigit := hdigits _ (mem_trim hmem (by decide))
    exact absurd hdigit (by decide))
  rw [readLength, hsplit, Option.bind_some, if_pos heq, trim_trimStart, hparse]
  rfl

end Lines

/-- Where the framing is not ambiguous the declared length is used. -/
theorem bodyLength_eq {head : Bytes} (h : ¬ Ambiguous head) :
    bodyLength head = declaredLength head := by
  obtain ⟨hplain, hrest⟩ := not_or.mp h
  obtain ⟨hsame, -⟩ := not_or.mp hrest
  have hmem : ∀ {line v}, line ∈ headerLines head → contentLengthValue line = some v →
      v ∈ contentLengths head := fun hline hv => List.mem_filterMap.mpr ⟨_, hline, hv⟩
  rw [bodyLength, declaredLength]
  cases hlengths : contentLengths head with
  | nil =>
    rw [@scanFields_length _ 0]
    · simp
    · intro line hline m hm
      obtain ⟨v, hv, -⟩ := contentLengthValue_of_readLength hm
      have hv' := hmem hline hv
      rw [hlengths] at hv'
      cases hv'
  | cons v rest =>
    have hv : v ∈ contentLengths head := by
      rw [hlengths]
      exact List.mem_cons_self ..
    cases hn : plainDecimal v with
    | none => exact absurd ⟨v, hv, hn⟩ hplain
    | some n =>
      have hall : ∀ w ∈ contentLengths head, plainDecimal w = some n := by
        intro w hw
        by_contra hne
        exact hsame ⟨v, hv, w, hw, fun he => hne (he.symm.trans hn)⟩
      rw [@scanFields_length _ n, if_pos]
      · rw [List.head?_cons, Option.bind_some, hn]
        rfl
      · obtain ⟨line, hline, hvalue⟩ := List.mem_filterMap.mp hv
        refine List.any_eq_true.mpr ⟨line, hline, ?_⟩
        rw [readLength_of_plainDecimal hvalue hn]
        rfl
      · intro line hline m hm
        obtain ⟨w, hw, rfl⟩ := contentLengthValue_of_readLength hm
        rw [(plainDecimal_some (hall w (hmem hline hw))).1]
        rfl

/-- When the rewriter refuses a head. -/
theorem rewriteHead_error_iff {head : Bytes} (h : IsHead head) (fallback : Str) :
    (∃ e, rewriteHead head fallback = .error e) ↔
      (∃ e, parseRequestLine (requestLine head) = .error e) ∨
        ∃ line ∈ headerLines head, (fromUtf8 line).isSome = true ∧ codesChunked line = true := by
  obtain ⟨pos, hpos⟩ : ∃ pos, findSubsequence CRLF head = some pos := by
    obtain ⟨i, hi, -⟩ := h
    obtain ⟨t, ht⟩ := findSubsequence_isPrefix hi
    obtain ⟨j, hj, -⟩ := findSubsequence_infix (head.take i) ([CR, LF] ++ t)
      (show findSubsequence CRLF CRLF = some 0 by decide)
    have hhead : head.take i ++ CRLF ++ ([CR, LF] ++ t) = head := by
      rw [List.append_assoc]
      exact (congrArg _ ht).trans (List.take_append_drop i head)
    exact ⟨j, hhead ▸ hj⟩
  have hlines : headerLines head = (splitCrlf (head.drop (pos + 2)).length
      (head.drop (pos + 2))).takeWhile (!·.isEmpty) := by
    rw [headerLines, hpos]
  have hchunked : ((headerLines head).foldl scanField ⟨none, 0, false⟩).chunked = true ↔
      ∃ line ∈ headerLines head, (fromUtf8 line).isSome = true ∧ codesChunked line = true := by
    rw [scanFields_chunked, Bool.false_or, List.any_eq_true]
    simp only [readChunked_eq, Bool.and_eq_true]
  have hfirst : requestLine head = head.take pos := by
    rw [requestLine, hpos]
    rfl
  rw [← hchunked, hfirst]
  unfold rewriteHead
  rw [hpos]
  dsimp only
  rw [← hlines]
  cases parseRequestLine (head.take pos) with
  | error e => simp
  | ok words =>
    obtain ⟨method, target, version⟩ := words
    dsimp only
    by_cases hc : ((headerLines head).foldl scanField ⟨none, 0, false⟩).chunked = true
    · rw [if_pos hc]
      simp [hc]
    · rw [if_neg hc]
      simp [hc]

variable {fallback : Str}

/-- Nothing of a refused head has been passed on when its last byte comes. -/
theorem Traffic.output_prefix {t : Traffic fallback} {requests : List (Request fallback)}
    {head input x : Bytes} {e : HttpForwardError} (hhead : IsHead head)
    (he : rewriteHead head fallback = .error e)
    (h : t.bytes ++ input = requests.flatMap (fun r => r.head ++ r.body) ++ (head ++ x)) :
    t.output <+: requests.flatMap
      (fun r => insertAuthority (authority fallback r.head) r.head ++ r.body) := by
  have hno : ∀ {h : Bytes}, h = head → (∃ r, rewriteHead h fallback = .ok r) → False := by
    rintro h rfl ⟨r, hr⟩
    rw [he] at hr
    cases hr
  obtain ⟨own, rest⟩ := t
  induction own generalizing requests with
  | nil =>
    cases rest with
    | head b pending bounded => exact List.nil_prefix
    | body h' part complete accepted short =>
      have h1 : h' ++ (part ++ input) = requests.flatMap (fun r => r.head ++ r.body) ++
          (head ++ x) := by
        rw [← h]
        simp [Traffic.bytes, Rest.bytes]
      cases requests with
      | nil =>
        rw [List.flatMap_nil, List.nil_append] at h1
        exact (hno (complete.unique hhead h1).1 accepted).elim
      | cons r requests =>
        rw [List.flatMap_cons, List.append_assoc, List.append_assoc] at h1
        obtain ⟨rfl, hpart⟩ := complete.unique r.complete h1
        have hbody : part <+: r.body := by
          refine List.prefix_of_prefix_length_le ⟨input, rfl⟩ ⟨_, hpart.symm⟩ ?_
          rw [r.framed]
          exact Nat.le_of_lt short
        obtain ⟨tail, htail⟩ := hbody
        refine ⟨tail ++ requests.flatMap
          (fun r => insertAuthority (authority fallback r.head) r.head ++ r.body), ?_⟩
        rw [List.flatMap_cons, ← htail]
        simp [Traffic.output, Rest.output]
  | cons q own ih =>
    cases requests with
    | nil =>
      simp only [Traffic.bytes, List.flatMap_cons, List.append_assoc, List.flatMap_nil,
        List.nil_append] at h
      exact (hno (q.complete.unique hhead h).1 q.accepted).elim
    | cons r requests =>
      simp only [Traffic.bytes, List.flatMap_cons, List.append_assoc] at h
      obtain ⟨rfl, hmore⟩ := q.unique r h
      obtain ⟨tail, htail⟩ := ih (by simpa [Traffic.bytes] using hmore)
      refine ⟨tail, ?_⟩
      rw [List.flatMap_cons, ← htail]
      simp [Traffic.output]

/-- The turn that takes a whole head. -/
theorem pushLoop_taken {head bytes : Bytes} {n : ℕ} (h : IsHead head)
    (hok : rewriteHead head fallback = .ok (bytes, n)) (fuel : ℕ) (rest out : Bytes) :
    pushLoop (fuel + 1) (new fallback) (head ++ rest) out =
      pushLoop fuel { new fallback with state := if 0 < n then .body n else .head } rest
        (out ++ bytes) := by
  obtain ⟨pos, hpos, hlen⟩ := h.find_append rest
  have hne : head ++ rest ≠ [] := by
    intro hnil
    rw [(List.append_eq_nil_iff.mp hnil).1] at hlen
    simp at hlen
  have hall : (head ++ rest).take (pos + 4) = head := List.take_left' hlen
  have htook : min (pos + 4 - 0) (head ++ rest).length = head.length := by
    rw [List.length_append]
    omega
  rw [pushLoop, if_neg hne]
  dsimp only [new]
  rw [List.nil_append, hpos]
  dsimp only
  rw [hall, hok]
  dsimp only [List.length_nil]
  rw [htook, List.drop_left]

/-- A push of one head that is taken. -/
theorem push_head {head bytes : Bytes} {n : ℕ} (h : IsHead head)
    (hok : rewriteHead head fallback = .ok (bytes, n)) :
    (push (new fallback) head).1 = .ok bytes := by
  have hturn := pushLoop_taken h hok (2 * head.length) [] []
  rw [List.append_nil] at hturn
  rw [push, hturn, pushLoop_nil, List.nil_append]

/-- Forwarding fails closed for a head exactly when something else than its length stops it, or
there is nothing ambiguous about it. -/
theorem fails_closed_iff (fallback : Str) {head : Bytes} (h : IsHead head) :
    FailsClosed fallback head ↔
      (∃ e, parseRequestLine (requestLine head) = .error e) ∨
        (∃ line ∈ headerLines head, (fromUtf8 line).isSome = true ∧ codesChunked line = true) ∨
        ¬ Ambiguous head := by
  rw [← or_assoc, ← rewriteHead_error_iff h fallback]
  constructor
  · intro hclosed
    by_cases hamb : Ambiguous head
    · left
      have hpush := hclosed.closed hamb (Traffic.none fallback) [] head [] (by
        simp [Traffic.none, Traffic.bytes, Rest.bytes])
      obtain ⟨⟨e, he⟩, -⟩ := hpush
      cases hrewrite : rewriteHead head fallback with
      | error e' => exact ⟨e', rfl⟩
      | ok r =>
        have hok := push_head h hrewrite
        rw [show (Traffic.none fallback).forward = new fallback from rfl, hok] at he
        cases he
    · right
      exact hamb
  · intro hcase
    constructor
    · intro hamb t requests input behind ht
      rcases hcase with ⟨e, he⟩ | hplain
      · refine ⟨?_, Traffic.output_prefix h he ht⟩
        rcases pushLoop_spec (2 * input.length + 1) t input [] (by omega) with
          ⟨t', emitted, hbytes, -, -⟩ | ⟨e', g, hpush, -⟩
        · exact absurd (hbytes.trans ht) (t'.ne_refused requests h he behind)
        · exact ⟨e', congrArg Prod.fst hpush⟩
      · exact absurd hamb hplain
    · intro hplain bytes n hok
      rw [(rewriteHead_ok hok).2]
      exact bodyLength_eq hplain

def plainPost : Bytes := ascii "POST / HTTP/1.1\r\nContent-Length: 2\r\n\r\n"

/-- A request with a length whose body is chunked. -/
def chunkedPost : Bytes :=
  ascii "POST / HTTP/1.1\r\nContent-Length: 2\r\nTransfer-Encoding: gzip, Chunked\r\n\r\n"

/-- The first is taken; the second is refused as soon as its head is complete. -/
theorem fails_closed_chunked :
    (FailsClosed (lit "f") plainPost ∧ ¬ Ambiguous plainPost) ∧
      FailsClosed (lit "f") chunkedPost ∧ Ambiguous chunkedPost ∧
      ∃ e, (push ⟨lit "f", .head, chunkedPost.take 50⟩ (chunkedPost.drop 50 ++ ascii "2")).1 =
        .error e := by
  have hplain : contentLengths plainPost = [['2']] := by decide +kernel
  have hplain' : ¬ Ambiguous plainPost := by
    unfold Ambiguous
    rw [hplain]
    decide +kernel
  have hclosed : FailsClosed (lit "f") chunkedPost := by
    refine (fails_closed_iff (lit "f") ⟨68, by decide +kernel, by decide +kernel⟩).mpr
      (Or.inr (Or.inl ?_))
    exact ⟨ascii "Transfer-Encoding: gzip, Chunked", by decide +kernel, by decide +kernel,
      by decide +kernel⟩
  have hambiguous : Ambiguous chunkedPost := by
    refine Or.inr (Or.inr ⟨ascii "Transfer-Encoding: gzip, Chunked", ?_, ?_⟩) <;> decide +kernel
  have hpush := hclosed.closed hambiguous
    ⟨[], .head (chunkedPost.take 50) (by decide +kernel) (by decide +kernel)⟩ []
    (chunkedPost.drop 50 ++ ascii "2") (ascii "2") (by decide +kernel)
  exact ⟨⟨(fails_closed_iff (lit "f") ⟨34, by decide +kernel, by decide +kernel⟩).mpr
    (Or.inr (Or.inr hplain')), hplain'⟩, hclosed, hambiguous, hpush.1⟩

def malformedPost : Bytes := ascii "POST / HTTP/1.1\r\nHost: h\r\nContent-Length: 2x\r\n\r\n"

def smuggledGet : Bytes := ascii "GET /s HTTP/1.1\r\nHost: h\r\n\r\n"

/-- A malformed length counts as no body: what follows the head is taken for the next request. -/
theorem malformed_length_forwarded :
    Ambiguous malformedPost ∧
      push (new (lit "f")) (malformedPost ++ smuggledGet) =
        (.ok (insertAuthority (lit "h") malformedPost ++ insertAuthority (lit "h") smuggledGet),
          new (lit "f")) := by
  constructor
  · left
    exact ⟨['2', 'x'], by decide +kernel, by decide +kernel⟩
  · have hpost : IsHead malformedPost := ⟨44, by decide +kernel, by decide +kernel⟩
    have hget : IsHead smuggledGet := ⟨24, by decide +kernel, by decide +kernel⟩
    have hfirst : rewriteHead malformedPost (lit "f") =
        .ok (insertAuthority (lit "h") malformedPost, 0) := by decide +kernel
    have hsecond : rewriteHead smuggledGet (lit "f") =
        .ok (insertAuthority (lit "h") smuggledGet, 0) := by decide +kernel
    have hfuel : 2 * (malformedPost ++ smuggledGet).length + 1 = 151 + 1 + 1 := by decide +kernel
    have hlast := pushLoop_taken hget hsecond 151 [] (insertAuthority (lit "h") malformedPost)
    rw [List.append_nil] at hlast
    rw [push, hfuel, pushLoop_taken hpost hfirst, List.nil_append]
    exact hlast.trans (pushLoop_nil _ _ _)

end Adwarden.Core.HttpForward
