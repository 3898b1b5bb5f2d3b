import Adwarden.Rust.Str

/-! HTTP/1.1 head parsing, shared by the capture tap, the rewriter and the DoH filter. -/
namespace Adwarden.Tls

/-- Parsed header fields in order; both halves have been decoded lossily and trimmed. -/
abbrev Headers := List (Str × Str)

def headTerminator : Bytes := [CR, LF, CR, LF]

/-- Index just past the first blank line, or `none` if the head is still arriving. -/
def findHeaderEnd (buf : Bytes) : Option ℕ :=
  (findSubsequence headTerminator buf).map (· + 4)

/-- Lines of `body`, cut at each LF, without a CR that stands before it. -/
def splitCrlfLines (body : Bytes) : List Bytes :=
  (splitOn LF body).map fun line => if line.getLast? = some CR then line.dropLast else line

/-- The field of one line, if it has a name; `none` without a colon. -/
def headerField (line : Bytes) : Option (List (Str × Str)) :=
  if line = [] then some []
  else (position 58 line).map fun colon =>
    let name := Str.trim (Str.fromUtf8Lossy (line.take colon))
    let value := Str.trim (Str.fromUtf8Lossy (line.drop (colon + 1)))
    if name = [] then [] else [(name, value)]

/-- Split header fields into the start line and the name/value pairs; `none` on a line that has
no colon. -/
def parseHeadFields (fields : Bytes) : Option (Bytes × Headers) :=
  match splitCrlfLines fields with
  | [] => none
  | start :: lines => ((lines.map headerField).allSome).map fun hs => (start, hs.flatten)

def parseRequestLine (line : Bytes) : Option (Str × Str × Str) := do
  let text ← Str.fromUtf8 line
  match Str.split ' ' text with
  | method :: target :: version :: _ =>
    if ¬ version.startsWith (Str.lit "HTTP/") ∨ method = [] then none
    else some (method, target, version)
  | _ => none

def parseStatusLine (line : Bytes) : Option (Str × ℕ × Str) := do
  let text ← Str.fromUtf8 line
  match Str.splitn ' ' 3 text with
  | version :: code :: reason => do
    let status ← Str.parseU16 code
    if version.startsWith (Str.lit "HTTP/") then some (version, status, reason.headD [])
    else none
  | _ => none

/-- The first header with this name, compared without regard to ASCII case. -/
def header (headers : Headers) (name : String) : Option Str :=
  (headers.find? fun kv => kv.1.eqIgnoreAsciiCase (Str.lit name)).map (·.2)

def isChunked (headers : Headers) : Bool :=
  match header headers "transfer-encoding" with
  | none => false
  | some v =>
    (Str.split ',' v).any fun t => (Str.trim t).eqIgnoreAsciiCase (Str.lit "chunked")

def contentLength (headers : Headers) : Option ℕ :=
  (header headers "content-length").bind fun v => Str.parseUsize (Str.trim v)

theorem findHeaderEnd_le {buf : Bytes} {n : ℕ} (h : findHeaderEnd buf = some n) :
    4 ≤ n ∧ n ≤ buf.length := by
  obtain ⟨i, hi, rfl⟩ := Option.map_eq_some_iff.mp h
  have := findSubsequence_le hi
  simp only [headTerminator, List.length_cons, List.length_nil] at this
  omega

theorem findHeaderEnd_append {buf : Bytes} {n : ℕ} (x : Bytes)
    (h : findHeaderEnd buf = some n) : findHeaderEnd (buf ++ x) = some n := by
  obtain ⟨i, hi, rfl⟩ := Option.map_eq_some_iff.mp h
  simp [findHeaderEnd, findSubsequence_append x hi]

/-- A head completed by a new piece ends inside that piece. -/
theorem findHeaderEnd_append_none {buf x : Bytes} {n : ℕ} (hn : findHeaderEnd buf = none)
    (h : findHeaderEnd (buf ++ x) = some n) : buf.length < n := by
  obtain ⟨i, hi, rfl⟩ := Option.map_eq_some_iff.mp h
  have hi' := findSubsequence_append_none (by simp [headTerminator])
    (Option.map_eq_none_iff.mp hn) hi
  simpa [headTerminator] using hi'

theorem findHeaderEnd_prefix_none {buf x : Bytes} {n : ℕ}
    (h : findHeaderEnd (buf ++ x) = some n) (hlt : buf.length < n) :
    findHeaderEnd buf = none := by
  cases hb : findHeaderEnd buf with
  | none => rfl
  | some m =>
    have hm := findHeaderEnd_append x hb
    have hle := (findHeaderEnd_le hb).2
    rw [h] at hm
    obtain rfl := Option.some.inj hm
    omega

theorem findHeaderEnd_take {buf : Bytes} {n : ℕ} (h : findHeaderEnd buf = some n) :
    findHeaderEnd (buf.take n) = some n := by
  have hle := (findHeaderEnd_le h).2
  cases ht : findHeaderEnd (buf.take n) with
  | some m =>
    have hm := findHeaderEnd_append (buf.drop n) ht
    rw [List.take_append_drop, h] at hm
    exact hm.symm
  | none =>
    rw [← List.take_append_drop n buf] at h
    have := findHeaderEnd_append_none ht h
    rw [List.length_take, Nat.min_eq_left hle] at this
    omega

theorem parseUsize_lt {s : Str} {n : ℕ} (h : Str.parseUsize s = some n) : n < usizeSize := by
  unfold Str.parseUsize Str.fromStrRadix at h
  split_ifs at h
  simpa [usizeSize] using (Option.filter_eq_some_iff.mp h).2

theorem contentLength_lt {headers : Headers} {n : ℕ} (h : contentLength headers = some n) :
    n < usizeSize := by
  obtain ⟨v, -, hv⟩ := Option.bind_eq_some_iff.mp h
  exact parseUsize_lt hv

end Adwarden.Tls
