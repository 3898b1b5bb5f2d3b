import Adwarden.Tls.Head

/-! Where in an HTML document the cosmetic payload goes, and into which documents. -/
namespace Adwarden.Tls

/-- Max body prefix buffered while hunting for the anchor. -/
def maxAnchorScan : ℕ := 64 * 1024

/-- Idempotency marker of an injected document. -/
def marker : Bytes := ascii "adw-cosmetic"

def isNameEnd (c : UInt8) : Bool :=
  c == 62 || c == 32 || c == 9 || c == 13 || c == 10 || c == 12 || c == 47

/-- Where `needle` occurs, case-insensitively; `prev` is the byte before `hay`. A tag name must
follow a `<`. -/
def findCiFrom (needle : Bytes) (tag : Bool) : (prev : Option UInt8) → Bytes → Option ℕ
  | _, [] => none
  | prev, b :: rest =>
    if eqIgnoreAsciiCase ((b :: rest).take needle.length) needle ∧ (¬ tag ∨ prev = some 60) then
      some 0
    else (findCiFrom needle tag (some b) rest).map (· + 1)

/-- The index just past a tag name, or of the start of a literal. -/
def findCi (hay needle : Bytes) (tag : Bool) : Option ℕ :=
  if needle = [] then none
  else (findCiFrom needle tag none hay).map fun i => if tag then i + needle.length else i

def tagStartFrom (hay name : Bytes) : (fuel start : ℕ) → Option ℕ
  | 0, _ => none
  | fuel + 1, start =>
    match findCi (hay.drop start) name true with
    | none => none
    | some rel =>
      match hay[start + rel]? with
      | some c =>
        if isNameEnd c then some (start + rel - name.length - 1)
        else tagStartFrom hay name fuel (start + rel)
      -- The name stands at the very end: wait for its terminator.
      | none => none

/-- Index of the `<` of the first `<name` whose name is properly terminated. -/
def tagStart (hay name : Bytes) : Option ℕ := tagStartFrom hay name (hay.length + 1) 0

/-- Index just past the first `>` from `start` on. -/
def tagClose (hay : Bytes) (start : ℕ) : Option ℕ :=
  (position 62 (hay.drop start)).map fun gt => start + gt + 1

/-- Index just past the `>` of the first complete `<name …>` open tag. -/
def tagOpenEnd (hay name : Bytes) : Option ℕ := (tagStart hay name).bind (tagClose hay)

def doctypeEnd (hay : Bytes) : Option ℕ := (findCi hay (ascii "<!doctype") false).bind (tagClose hay)

/-- The offset that can be committed to while the body is still arriving. -/
def anchorStreaming (scan : Bytes) : Option ℕ :=
  match tagOpenEnd scan (ascii "head"), tagStart scan (ascii "body") with
  | some h, some b => some (if h ≤ b then h else b)
  | some h, none => some h
  | none, some b => some b
  | none, none => none

/-- The best offset at the scan cap or at the end of the body. -/
def anchorFinal (scan : Bytes) : Option ℕ :=
  ((tagOpenEnd scan (ascii "head")).or (tagStart scan (ascii "body"))).or
    ((tagOpenEnd scan (ascii "html")).or (doctypeEnd scan))

def contains (hay needle : Bytes) : Bool := (findSubsequence needle hay).isSome

def bom16 (scan : Bytes) : Bool := [0xff, 0xfe].isPrefixOf scan || [0xfe, 0xff].isPrefixOf scan

/-- What is decided on a body prefix: `none` to keep buffering, otherwise the offset to inject at
or, with `some none`, to leave the document alone. -/
def decideAnchor (scan : Bytes) (bodyDone : Bool) : Option (Option ℕ) :=
  if bom16 scan ∨ contains scan marker then some none
  else match anchorStreaming scan with
    | some a => some (some a)
    | none => if bodyDone ∨ maxAnchorScan ≤ scan.length then some (anchorFinal scan) else none

/-- The `charset` parameter of a `Content-Type` value. -/
def charsetOf (contentType : Str) : Option Str :=
  ((Str.split ';' contentType).drop 1).findSome? fun param => do
    let rest ← Str.stripPrefix (Str.lit "charset") (Str.trim param)
    let val ← Str.stripPrefix (Str.lit "=") (Str.trimStart rest)
    some (Str.trimMatches '"' (Str.trim val))

/-- Whether an HTML response is injected into: `text/html`, identity coding, no UTF-16 charset and
not a partial response. -/
def injectable (status : ℕ) (headers : Headers) : Bool :=
  let contentType := (header headers "content-type").getD []
  status ≠ 206 &&
  (Str.trim ((Str.split ';' contentType).headD [])).eqIgnoreAsciiCase (Str.lit "text/html") &&
  ((header headers "content-encoding").all fun ce =>
    Str.trim ce == [] || (Str.trim ce).eqIgnoreAsciiCase (Str.lit "identity")) &&
  ((charsetOf contentType).all fun charset =>
    !(Str.startsWith (Str.toAsciiLowercase charset) (Str.lit "utf-16")))

theorem tagStartFrom_le {hay name : Bytes} {fuel start i : ℕ}
    (h : tagStartFrom hay name fuel start = some i) : i ≤ hay.length := by
  induction fuel generalizing start with
  | zero => simp [tagStartFrom] at h
  | succ fuel ih =>
    simp only [tagStartFrom] at h
    split at h
    · simp at h
    · next rel _ =>
      split at h
      · next c hc =>
        obtain ⟨hlt, -⟩ := List.getElem?_eq_some_iff.mp hc
        split_ifs at h
        · obtain rfl := Option.some.inj h
          omega
        · exact ih h
      · simp at h

theorem tagStart_le {hay name : Bytes} {i : ℕ} (h : tagStart hay name = some i) :
    i ≤ hay.length := tagStartFrom_le h

theorem tagClose_le {hay : Bytes} {start i : ℕ} (h : tagClose hay start = some i) :
    i ≤ hay.length := by
  obtain ⟨gt, hgt, rfl⟩ := Option.map_eq_some_iff.mp h
  have := position_lt hgt
  rw [List.length_drop] at this
  omega

theorem tagOpenEnd_le {hay name : Bytes} {i : ℕ} (h : tagOpenEnd hay name = some i) :
    i ≤ hay.length := by
  obtain ⟨start, -, hs⟩ := Option.bind_eq_some_iff.mp h
  exact tagClose_le hs

theorem anchorStreaming_le {scan : Bytes} {a : ℕ} (h : anchorStreaming scan = some a) :
    a ≤ scan.length := by
  unfold anchorStreaming at h
  split at h
  · next hh hb =>
    have h1 := tagOpenEnd_le hh
    have h2 := tagStart_le hb
    obtain rfl := Option.some.inj h
    split_ifs <;> assumption
  · next hh _ =>
    obtain rfl := Option.some.inj h
    exact tagOpenEnd_le hh
  · next hb =>
    obtain rfl := Option.some.inj h
    exact tagStart_le hb
  · simp at h

theorem anchorFinal_le {scan : Bytes} {a : ℕ} (h : anchorFinal scan = some a) :
    a ≤ scan.length := by
  simp only [anchorFinal, Option.or_eq_some_iff] at h
  rcases h with (h | ⟨-, h⟩) | ⟨-, h | ⟨-, h⟩⟩
  · exact tagOpenEnd_le h
  · exact tagStart_le h
  · exact tagOpenEnd_le h
  · obtain ⟨start, -, hs⟩ := Option.bind_eq_some_iff.mp h
    exact tagClose_le hs

/-- The offset lies within what was scanned. -/
theorem decideAnchor_le {scan : Bytes} {bodyDone : Bool} {a : ℕ}
    (h : decideAnchor scan bodyDone = some (some a)) : a ≤ scan.length := by
  unfold decideAnchor at h
  by_cases hb : bom16 scan = true ∨ contains scan marker = true
  · simp [hb] at h
  · rw [if_neg hb] at h
    cases hs : anchorStreaming scan with
    | some b =>
      simp only [hs, Option.some.injEq] at h
      exact anchorStreaming_le (h ▸ hs)
    | none =>
      simp only [hs] at h
      split_ifs at h
      exact anchorFinal_le (Option.some.inj h)

theorem decideAnchor_waits {scan : Bytes} {bodyDone : Bool} (h : decideAnchor scan bodyDone = none) :
    bodyDone = false := by
  unfold decideAnchor at h
  by_cases hb : bom16 scan = true ∨ contains scan marker = true
  · simp [hb] at h
  · rw [if_neg hb] at h
    cases bodyDone with
    | false => rfl
    | true => cases hs : anchorStreaming scan <;> simp [hs] at h

end Adwarden.Tls
