import Adwarden.Tls.ChunkGrammar
import Adwarden.Tls.HeadGrammar

/-! Whole HTTP/1.1 responses: a head and the body it delimits. -/
namespace Adwarden.Tls

/-- The values of the fields with this name, in order. -/
def fieldValues (headers : Headers) (name : String) : List Str :=
  (headers.filter fun kv => kv.1.eqIgnoreAsciiCase (Str.lit name)).map (·.2)

/-- The last transfer coding applied, over all `Transfer-Encoding` fields, is `chunked`. -/
def ChunkedCoding (headers : Headers) : Prop :=
  ∃ t, ((fieldValues headers "transfer-encoding").flatMap (Str.split ',')).getLast? = some t ∧
    (Str.trim t).eqIgnoreAsciiCase (Str.lit "chunked")

/-- There is a `Content-Length` and every one of them is the decimal number `n`. -/
structure DeclaresLength (headers : Headers) (n : ℕ) : Prop where
  present : fieldValues headers "content-length" ≠ []
  value : ∀ v ∈ fieldValues headers "content-length",
    Str.IsDigits 10 v ∧ Str.digitsValue 10 v = n
  uncoded : fieldValues headers "transfer-encoding" = []

def Interim (status : ℕ) : Prop := 100 ≤ status ∧ status ≤ 199

/-- A status whose responses have no body. -/
def Bodiless (status : ℕ) : Prop := status = 204 ∨ status = 304 ∨ Interim status

instance (status : ℕ) : Decidable (Interim status) := inferInstanceAs (Decidable (_ ∧ _))

instance (status : ℕ) : Decidable (Bodiless status) := inferInstanceAs (Decidable (_ ∨ _))

/-- `wire` carries `body` after a head with this status and these fields, with chunk lines of at
most `lines` bytes. -/
inductive BodyOf (lines : ℕ) (status : ℕ) (headers : Headers) : (wire body : Bytes) → Prop
  | none (hs : Bodiless status) : BodyOf lines status headers [] []
  | sized {body : Bytes} (hs : ¬ Bodiless status) (hn : DeclaresLength headers body.length)
      (hsize : body.length < usizeSize) : BodyOf lines status headers body body
  | chunked {wire body : Bytes} (hs : ¬ Bodiless status) (hc : ChunkedCoding headers)
      (hw : Chunked lines wire body) : BodyOf lines status headers wire body

/-- A response on the wire, with the body it stands for. -/
structure Message where
  head : RespHead
  wireBody : Bytes
  body : Bytes

namespace Message

structure WellFormed (lines : ℕ) (m : Message) : Prop where
  head : m.head.WellFormed
  body : BodyOf lines m.head.status m.head.headers m.wireBody m.body

def wire (m : Message) : Bytes := m.head.encode ++ m.wireBody

def contentType (m : Message) : Str := (header m.head.headers "content-type").getD []

end Message

theorem header_eq_head (headers : Headers) (name : String) :
    header headers name = (fieldValues headers name).head? := by
  rw [header, fieldValues, List.head?_map, List.head?_filter]

theorem DeclaresLength.isChunked {headers : Headers} {n : ℕ} (h : DeclaresLength headers n) :
    isChunked headers = false := by
  simp [Tls.isChunked, header_eq_head, h.uncoded]

theorem DeclaresLength.contentLength {headers : Headers} {n : ℕ} (h : DeclaresLength headers n)
    (hn : n < usizeSize) : contentLength headers = some n := by
  obtain ⟨v, vs, hv⟩ := List.exists_cons_of_ne_nil h.present
  obtain ⟨hd, hval⟩ := h.value v (by simp [hv])
  simp only [Tls.contentLength, header_eq_head, hv, List.head?_cons, Option.bind_some, hd.trim]
  rw [Str.parseUsize, Str.fromStrRadix_digits hd (by rw [hval]; exact hn), hval]

end Adwarden.Tls
