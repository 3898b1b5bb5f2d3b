import Adwarden.Rust.Str

/-! Minimal DNS wire handling for the sinkhole: the header and first question of a query, and
the answers synthesized for a blocked name. -/
namespace Adwarden.Dns

def typeA : UInt16 := 1

def typeAaaa : UInt16 := 28

def classIn : UInt16 := 1

structure Question where
  id : UInt16
  /-- Lower-cased dotted name without the trailing root label. -/
  name : Str
  qtype : UInt16
  qclass : UInt16
  /-- Offset just past the question. -/
  questionEnd : ℕ
deriving DecidableEq

def u16be (b : Bytes) (o : ℕ) : Option UInt16 :=
  match b[o]?, b[o + 1]? with
  | some hi, some lo => some (hi.toUInt16 <<< 8 ||| lo.toUInt16)
  | _, _ => none

/-- The loop of `decode_name`: `fuel` bounds its iterations, `jumps` counts the compression
pointers followed and `endAfter` remembers where the first of them ended. -/
def decodeNameLoop (buf : Bytes) :
    (fuel pos : ℕ) → (endAfter : Option ℕ) → (jumps : ℕ) → List Str → Option (Str × ℕ)
  | 0, _, _, _, _ => none
  | fuel + 1, pos, endAfter, jumps, labels =>
    match buf[pos]? with
    | none => none
    | some len =>
      if len &&& 0xC0 = 0x00 then
        if len = 0 then some (Str.join ['.'] labels, endAfter.getD (pos + 1))
        else
          let s := pos + 1
          let e := s + len.toNat
          if buf.length < e then none
          else match Str.fromUtf8 ((buf.take e).drop s) with
            | none => none
            | some label =>
              decodeNameLoop buf fuel e endAfter jumps (labels ++ [label.toAsciiLowercase])
      else if len &&& 0xC0 = 0xC0 then
        match buf[pos + 1]? with
        | none => none
        | some lo =>
          let ptr := (len &&& 0x3F).toNat * 256 + lo.toNat
          if 16 < jumps + 1 ∨ buf.length ≤ ptr then none
          else decodeNameLoop buf fuel ptr (some (endAfter.getD (pos + 2))) (jumps + 1) labels
      else none

/-- Decode a QNAME starting at `start`, following compression pointers: the dotted name and the
offset just after the name in the question. Between two jumps the position only grows. -/
def decodeName (buf : Bytes) (start : ℕ) : Option (Str × ℕ) :=
  decodeNameLoop buf (17 * (buf.length + 1)) start none 0 []

def parseQuery (buf : Bytes) : Option Question :=
  if buf.length < 12 then none
  else do
    let id ← u16be buf 0
    let flags ← u16be buf 2
    let qr := flags &&& 0x8000
    let opcode := (flags >>> 11) &&& 0x0F
    let qdcount ← u16be buf 4
    if qr ≠ 0 ∨ opcode ≠ 0 ∨ qdcount = 0 then none
    else
      let (name, next) ← decodeName buf 12
      let qtype ← u16be buf next
      let qclass ← u16be buf (next + 2)
      some { id, name, qtype, qclass, questionEnd := next + 4 }

/-- Overwrite `out[i..]` with `bytes`, as the indexed stores of `build_response` do. -/
def store (out : Bytes) (i : ℕ) (bytes : Bytes) : Bytes :=
  out.take i ++ bytes ++ out.drop (i + bytes.length)

def buildResponse (query : Bytes) (q : Question) (rcode : UInt16) (answers : Bytes)
    (ancount : UInt16) : Bytes :=
  let rd := (u16be query 2).getD 0 &&& 0x0100
  let flags := 0x8000 ||| rd ||| 0x0080 ||| (rcode &&& 0x000F)
  let out := query.take q.questionEnd
  let out := store out 2 [(flags >>> 8).toUInt8, (flags &&& 0xFF).toUInt8]
  let out := store out 6 [(ancount >>> 8).toUInt8, (ancount &&& 0xFF).toUInt8, 0, 0, 0, 0]
  out ++ answers

/-- `NXDOMAIN` response: the query resolves to nothing. -/
def synthesizeNxdomain (query : Bytes) (q : Question) : Bytes := buildResponse query q 3 [] 0

theorem u16be_isSome {b : Bytes} {o : ℕ} {v : UInt16} (h : u16be b o = some v) :
    o + 2 ≤ b.length := by
  unfold u16be at h
  split at h
  · next hlo =>
    have := (List.getElem?_eq_some_iff.mp hlo).1
    omega
  · simp at h

/-- The end of the name lies past its first byte, and past `endAfter` once a pointer was met. -/
theorem decodeNameLoop_end {buf : Bytes} {fuel pos jumps next : ℕ} {endAfter : Option ℕ}
    {labels : List Str} {name : Str} {k : ℕ} (hk : ∀ e ∈ endAfter, k ≤ e)
    (hpos : endAfter = none → k ≤ pos)
    (h : decodeNameLoop buf fuel pos endAfter jumps labels = some (name, next)) : k ≤ next := by
  induction fuel generalizing pos endAfter jumps labels with
  | zero => simp [decodeNameLoop] at h
  | succ fuel ih =>
    rw [decodeNameLoop] at h
    split at h
    · simp at h
    · split_ifs at h with h0 hz hp
      · obtain ⟨-, rfl⟩ : _ ∧ endAfter.getD (pos + 1) = next := by simpa using h
        cases endAfter with
        | none => have := hpos rfl; simp; omega
        | some e => simpa using hk e rfl
      · dsimp only at h
        split_ifs at h
        split at h
        · simp at h
        · exact ih hk (fun he => by have := hpos he; omega) h
      · split at h
        · simp at h
        · dsimp only at h
          split_ifs at h
          refine ih ?_ (by simp) h
          cases endAfter with
          | none => have := hpos rfl; simp; omega
          | some e => simpa using hk e rfl

/-- What a parsed question guarantees about its extent in the message. -/
theorem parseQuery_bounds {buf : Bytes} {q : Question} (h : parseQuery buf = some q) :
    16 ≤ q.questionEnd ∧ q.questionEnd ≤ buf.length := by
  unfold parseQuery at h
  split_ifs at h
  simp only [Option.bind_eq_bind, Option.bind_eq_some_iff] at h
  obtain ⟨_, _, _, _, _, _, h⟩ := h
  split_ifs at h
  simp only [Option.bind_eq_some_iff] at h
  obtain ⟨⟨name, next⟩, hn, _, _, _, hc, h⟩ := h
  obtain rfl := Option.some.inj h
  have hlo : 12 ≤ next := decodeNameLoop_end (k := 12) (by simp) (by simp) hn
  have hhi := u16be_isSome hc
  exact ⟨by simpa using hlo, by dsimp only; omega⟩

theorem store_length {out bytes : Bytes} {i : ℕ} (h : i + bytes.length ≤ out.length) :
    (store out i bytes).length = out.length := by
  simp only [store, List.length_append, List.length_take, List.length_drop]
  omega

/-- An answer to a parsed query is as long as the question it echoes and its records. -/
theorem buildResponse_length {query : Bytes} {q : Question} (hq : parseQuery query = some q)
    (rcode : UInt16) (answers : Bytes) (ancount : UInt16) :
    (buildResponse query q rcode answers ancount).length = q.questionEnd + answers.length := by
  obtain ⟨hlo, hhi⟩ := parseQuery_bounds hq
  have ht : (query.take q.questionEnd).length = q.questionEnd := by
    rw [List.length_take]
    omega
  simp only [buildResponse, List.length_append]
  rw [store_length, store_length, ht]
  · rw [ht]; simp; omega
  · rw [store_length, ht] <;> simp <;> omega

theorem synthesizeNxdomain_length {query : Bytes} {q : Question}
    (hq : parseQuery query = some q) : (synthesizeNxdomain query q).length = q.questionEnd := by
  simpa [synthesizeNxdomain] using buildResponse_length hq 3 [] 0

end Adwarden.Dns
