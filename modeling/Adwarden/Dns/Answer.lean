import Mathlib.Data.Nat.Bitwise
import Adwarden.Dns.Query
import Adwarden.Rust.Word

/-! The answers synthesized for a blocked name as DNS messages: a header, the question echoed from
the query, and resource records. -/
namespace Adwarden.Dns

def ttl : ℕ := 60

/-- A record that answers the question, its owner a pointer to the name at offset 12. -/
structure Record where
  rtype : UInt16
  rdata : Bytes

def Record.encode (r : Record) : Bytes :=
  [0xC0, 0x0C] ++ beBytes16 r.rtype ++ beBytes16 classIn ++ [0, 0, 0, .ofNat ttl] ++
    beBytes16 (.ofNat r.rdata.length) ++ r.rdata

/-- A sinkhole answer pointing the name at `0.0.0.0` (A) or `::` (AAAA). -/
def synthesizeSinkhole (query : Bytes) (q : Question) : Bytes :=
  let (rdata, ok) : Bytes × Bool :=
    if q.qtype = typeA then (List.replicate 4 0, true)
    else if q.qtype = typeAaaa then (List.replicate 16 0, true)
    else ([], false)
  if ok = false then buildResponse query q 0 [] 0
  else
    let ans := [0xC0, 0x0C] ++ beBytes16 q.qtype ++ beBytes16 classIn ++ [0, 0, 0, 60] ++
      beBytes16 (.ofNat rdata.length) ++ rdata
    buildResponse query q 0 ans 1

/-- The records of a sinkhole answer. -/
def sinkholeRecords (q : Question) : List Record :=
  if q.qtype = typeA then [⟨typeA, List.replicate 4 0⟩]
  else if q.qtype = typeAaaa then [⟨typeAaaa, List.replicate 16 0⟩]
  else []

/-- A response to a query: the header's counts are those of the question and the records that
make up the rest of the message, and the name in it is the one that was asked for. -/
structure WellFormed (query : Bytes) (q : Question) (rcode : UInt16) (records : List Record)
    (resp : Bytes) : Prop where
  id : u16be resp 0 = some q.id
  flags : ∃ f rd, u16be resp 2 = some f ∧ u16be query 2 = some rd ∧ f &&& 0x8000 = 0x8000 ∧
    (f >>> 11) &&& 0x0F = 0 ∧ f &&& 0x0100 = rd &&& 0x0100 ∧ f &&& 0x000F = rcode
  qdcount : u16be resp 4 = some 1
  ancount : u16be resp 6 = some (.ofNat records.length)
  nscount : u16be resp 8 = some 0
  arcount : u16be resp 10 = some 0
  body : resp.drop 12 = (query.take q.questionEnd).drop 12 ++ records.flatMap Record.encode
  name : decodeName resp 12 = some (q.name, q.questionEnd - 4)

/-- The offsets that `decode_name` reads. -/
def nameReads (buf : Bytes) : (fuel pos jumps : ℕ) → List ℕ
  | 0, _, _ => []
  | fuel + 1, pos, jumps =>
    match buf[pos]? with
    | none => [pos]
    | some len =>
      if len &&& 0xC0 = 0x00 then
        if len = 0 then [pos]
        else List.range' pos (1 + len.toNat) ++ nameReads buf fuel (pos + 1 + len.toNat) jumps
      else if len &&& 0xC0 = 0xC0 then
        match buf[pos + 1]? with
        | none => [pos, pos + 1]
        | some lo =>
          let ptr := (len &&& 0x3F).toNat * 256 + lo.toNat
          if 16 < jumps + 1 ∨ buf.length ≤ ptr then [pos, pos + 1]
          else pos :: (pos + 1) :: nameReads buf fuel ptr (jumps + 1)
      else [pos]

/-- The offsets read for the name of the question. -/
def questionReads (query : Bytes) : List ℕ := nameReads query (17 * (query.length + 1)) 12 0

section Loop

variable {buf : Bytes} {fuel pos jumps : ℕ} {endAfter : Option ℕ} {labels : List Str}
  {r : Str × ℕ}

/-- One turn of the loop that succeeds in the end. -/
inductive NameStep (buf : Bytes) (fuel pos : ℕ) (endAfter : Option ℕ) (jumps : ℕ)
    (labels : List Str) (r : Str × ℕ) : Prop where
  | done (hbyte : buf[pos]? = some 0)
      (hr : r = (Str.join ['.'] labels, endAfter.getD (pos + 1)))
  | label {len : UInt8} {label : Str} (hbyte : buf[pos]? = some len) (hclass : len &&& 0xC0 = 0)
      (hne : len ≠ 0) (hroom : pos + 1 + len.toNat ≤ buf.length)
      (hlabel : Str.fromUtf8 ((buf.take (pos + 1 + len.toNat)).drop (pos + 1)) = some label)
      (hrest : decodeNameLoop buf fuel (pos + 1 + len.toNat) endAfter jumps
        (labels ++ [label.toAsciiLowercase]) = some r)
  | pointer {len lo : UInt8} (hbyte : buf[pos]? = some len) (hclass : len &&& 0xC0 = 0xC0)
      (hlo : buf[pos + 1]? = some lo) (hjumps : jumps + 1 ≤ 16)
      (hptr : (len &&& 0x3F).toNat * 256 + lo.toNat < buf.length)
      (hrest : decodeNameLoop buf fuel ((len &&& 0x3F).toNat * 256 + lo.toNat)
        (some (endAfter.getD (pos + 2))) (jumps + 1) labels = some r)

theorem decodeNameLoop_succ : decodeNameLoop buf (fuel + 1) pos endAfter jumps labels = some r ↔
    NameStep buf fuel pos endAfter jumps labels r := by
  rw [decodeNameLoop]
  constructor
  · intro h
    split at h
    · simp at h
    · next len hbyte =>
      split_ifs at h with hclass hz hptr
      · subst hz
        exact .done hbyte (Option.some.inj h).symm
      · dsimp only at h
        split_ifs at h with hroom
        split at h
        · simp at h
        · next label hlabel =>
          exact .label hbyte hclass hz (Nat.not_lt.mp hroom) hlabel h
      · split at h
        · simp at h
        · next lo hlo =>
          dsimp only at h
          split_ifs at h with hbad
          push Not at hbad
          exact .pointer hbyte hptr hlo hbad.1 hbad.2 h
  · rintro (⟨hbyte, rfl⟩ | ⟨hbyte, hclass, hne, hroom, hlabel, hrest⟩ |
      ⟨hbyte, hclass, hlo, hjumps, hptr, hrest⟩)
    · simp [hbyte]
    · simp [hbyte, hclass, hne, Nat.not_lt.mpr hroom, hlabel, hrest]
    · have hbad : ¬ (16 < jumps + 1 ∨ buf.length ≤ (_ &&& 0x3F : UInt8).toNat * 256 + _) :=
        not_or.mpr ⟨Nat.not_lt.mpr hjumps, Nat.not_le.mpr hptr⟩
      simp only [hbyte, hclass, hlo]
      rw [if_neg (by decide), if_pos trivial, if_neg hbad, hrest]

/-- The turns left: the position grows between two jumps, and there are sixteen of those. -/
theorem decodeNameLoop_bound
    (hfuel : (16 - jumps) * (buf.length + 1) + (buf.length + 1 - pos) ≤ fuel) {fuel' : ℕ}
    (h : decodeNameLoop buf fuel' pos endAfter jumps labels = some r) :
    decodeNameLoop buf fuel pos endAfter jumps labels = some r := by
  induction fuel' generalizing fuel pos endAfter jumps labels with
  | zero => simp [decodeNameLoop] at h
  | succ fuel' ih =>
    rw [decodeNameLoop_succ] at h
    have hpos : pos < buf.length := by
      cases h with
      | done hbyte _ => exact (List.getElem?_eq_some_iff.mp hbyte).1
      | label hbyte _ _ _ _ _ => exact (List.getElem?_eq_some_iff.mp hbyte).1
      | pointer hbyte _ _ _ _ _ => exact (List.getElem?_eq_some_iff.mp hbyte).1
    obtain ⟨fuel, rfl⟩ : ∃ n, fuel = n + 1 := ⟨fuel - 1, by omega⟩
    rw [decodeNameLoop_succ]
    cases h with
    | done hbyte hr => exact .done hbyte hr
    | label hbyte hclass hne hroom hlabel hrest =>
      exact .label hbyte hclass hne hroom hlabel (ih (by omega) hrest)
    | @pointer len lo hbyte hclass hlo hjumps hptr hrest =>
      have hturns : (16 - jumps) * (buf.length + 1) =
          (16 - (jumps + 1)) * (buf.length + 1) + (buf.length + 1) := by
        rw [← Nat.succ_mul]
        congr 1
        omega
      exact .pointer hbyte hclass hlo hjumps hptr (ih (by omega) hrest)

theorem mem_nameReads : pos ∈ nameReads buf (fuel + 1) pos jumps := by
  rw [nameReads]
  split
  · simp
  · split_ifs
    · simp
    · simp [List.mem_range'_1]
    · split
      · simp
      · dsimp only
        split_ifs <;> simp
    · simp

/-- A buffer with the same bytes where the loop reads has the same name. -/
theorem decodeNameLoop_congr {buf' : Bytes}
    (hreads : ∀ i ∈ nameReads buf fuel pos jumps, buf'[i]? = buf[i]?)
    (h : decodeNameLoop buf fuel pos endAfter jumps labels = some r) :
    decodeNameLoop buf' fuel pos endAfter jumps labels = some r := by
  induction fuel generalizing pos endAfter jumps labels with
  | zero => simp [decodeNameLoop] at h
  | succ fuel ih =>
    have hsame := hreads pos mem_nameReads
    rw [decodeNameLoop_succ] at h ⊢
    cases h with
    | done hbyte hr => exact .done (hsame.trans hbyte) hr
    | @label len label hbyte hclass hne hroom hlabel hrest =>
      have hall : nameReads buf (fuel + 1) pos jumps = List.range' pos (1 + len.toNat) ++
          nameReads buf fuel (pos + 1 + len.toNat) jumps := by
        simp [nameReads, hbyte, hclass, hne]
      rw [hall] at hreads
      have hkept : ∀ i, pos ≤ i → i < pos + 1 + len.toNat → buf'[i]? = buf[i]? := by
        intro i hlo hhi
        exact hreads i (List.mem_append_left _ (List.mem_range'_1.mpr ⟨hlo, by omega⟩))
      have hend : pos + 1 + len.toNat ≤ buf'.length := by
        have hget := hkept (pos + len.toNat) (by omega) (by omega)
        rw [List.getElem?_eq_getElem (l := buf) (by omega)] at hget
        have hlast := (List.getElem?_eq_some_iff.mp hget).1
        omega
      have hbytes : (buf'.take (pos + 1 + len.toNat)).drop (pos + 1) =
          (buf.take (pos + 1 + len.toNat)).drop (pos + 1) := by
        apply List.ext_getElem?
        intro i
        rw [List.getElem?_drop, List.getElem?_drop, List.getElem?_take, List.getElem?_take]
        split_ifs with hi
        · exact hkept _ (by omega) hi
        · rfl
      have hrest' := ih (fun i hi => hreads i (List.mem_append_right _ hi)) hrest
      exact .label (hsame.trans hbyte) hclass hne hend (hbytes ▸ hlabel) hrest'
    | @pointer len lo hbyte hclass hlo hjumps hptr hrest =>
      have hbad : ¬ (16 < jumps + 1 ∨ buf.length ≤ (len &&& 0x3F).toNat * 256 + lo.toNat) :=
        not_or.mpr ⟨Nat.not_lt.mpr hjumps, Nat.not_le.mpr hptr⟩
      have hall : nameReads buf (fuel + 1) pos jumps = pos :: (pos + 1) ::
          nameReads buf fuel ((len &&& 0x3F).toNat * 256 + lo.toNat) (jumps + 1) := by
        simp only [nameReads, hbyte, hclass, hlo]
        rw [if_neg (by decide), if_pos trivial, if_neg hbad]
      rw [hall] at hreads
      have hsecond := hreads (pos + 1) (by simp)
      have hrest' := ih (fun i hi => hreads i (.tail _ (.tail _ hi))) hrest
      have hptr' : (len &&& 0x3F).toNat * 256 + lo.toNat < buf'.length := by
        cases fuel with
        | zero => simp [decodeNameLoop] at hrest
        | succ fuel =>
          have hget := hreads ((len &&& 0x3F).toNat * 256 + lo.toNat)
            (.tail _ (.tail _ mem_nameReads))
          rw [List.getElem?_eq_getElem hptr] at hget
          exact (List.getElem?_eq_some_iff.mp hget).1
      exact .pointer (hsame.trans hbyte) hclass (hsecond.trans hlo) hjumps hptr' hrest'

end Loop

theorem decodeName_congr {buf buf' : Bytes} {r : Str × ℕ}
    (hreads : ∀ i ∈ questionReads buf, buf'[i]? = buf[i]?) (h : decodeName buf 12 = some r) :
    decodeName buf' 12 = some r := by
  have hsame := decodeNameLoop_congr hreads h
  exact decodeNameLoop_bound (by omega) hsame

/-- What a parsed question is made of. -/
theorem parseQuery_parts {query : Bytes} {q : Question} (hq : parseQuery query = some q) :
    u16be query 0 = some q.id ∧ decodeName query 12 = some (q.name, q.questionEnd - 4) := by
  unfold parseQuery at hq
  split_ifs at hq
  simp only [Option.bind_eq_bind, Option.bind_eq_some_iff] at hq
  obtain ⟨id, hid, _, _, _, _, hq⟩ := hq
  split_ifs at hq
  simp only [Option.bind_eq_some_iff] at hq
  obtain ⟨⟨name, next⟩, hname, _, _, _, _, hq⟩ := hq
  obtain rfl := Option.some.inj hq
  exact ⟨hid, hname⟩

/-- The flags of an answer. -/
def answerFlags (query : Bytes) (rcode : UInt16) : UInt16 :=
  0x8000 ||| ((u16be query 2).getD 0 &&& 0x0100) ||| 0x0080 ||| (rcode &&& 0x000F)

/-- The byte that `build_response` writes at an offset of the header, if it writes one. -/
def written (query : Bytes) (rcode ancount : UInt16) : ℕ → Option UInt8
  | 2 => some (answerFlags query rcode >>> 8).toUInt8
  | 3 => some (answerFlags query rcode &&& 0xFF).toUInt8
  | 6 => some (ancount >>> 8).toUInt8
  | 7 => some (ancount &&& 0xFF).toUInt8
  | 8 | 9 | 10 | 11 => some 0
  | _ => none

/-- The name is read from bytes of the question and the header that already have the values that
an answer has there. -/
def ReadsKept (query : Bytes) (q : Question) (rcode ancount : UInt16) : Prop :=
  ∀ i ∈ questionReads query, i < q.questionEnd ∧
    ∀ b ∈ written query rcode ancount i, query[i]? = some b

instance (query : Bytes) (q : Question) (rcode ancount : UInt16) :
    Decidable (ReadsKept query q rcode ancount) :=
  inferInstanceAs (Decidable (∀ i ∈ questionReads query, i < q.questionEnd ∧
    ∀ b ∈ written query rcode ancount i, query[i]? = some b))

theorem buildResponse_eq {query : Bytes} {q : Question} (hlo : 12 ≤ q.questionEnd)
    (hhi : q.questionEnd ≤ query.length) (rcode : UInt16) (answers : Bytes) (ancount : UInt16) :
    ∃ b0 b1 b2 b3 b4 b5 h6 body, query.take q.questionEnd =
        b0 :: b1 :: b2 :: b3 :: b4 :: b5 :: (h6 ++ body) ∧ h6.length = 6 ∧
      buildResponse query q rcode answers ancount =
        b0 :: b1 :: (answerFlags query rcode >>> 8).toUInt8 ::
          (answerFlags query rcode &&& 0xFF).toUInt8 :: b4 :: b5 :: (ancount >>> 8).toUInt8 ::
          (ancount &&& 0xFF).toUInt8 :: 0 :: 0 :: 0 :: 0 :: (body ++ answers) := by
  have hlen : 12 ≤ (query.take q.questionEnd).length := by
    rw [List.length_take]
    omega
  unfold buildResponse
  generalize query.take q.questionEnd = out at hlen
  match out, hlen with
  | b0 :: b1 :: b2 :: b3 :: b4 :: b5 :: b6 :: b7 :: b8 :: b9 :: b10 :: b11 :: body, _ =>
    exact ⟨b0, b1, b2, b3, b4, b5, [b6, b7, b8, b9, b10, b11], body, rfl, rfl, rfl⟩

theorem and_bit (x : UInt16) : x &&& 0x0100 = 0 ∨ x &&& 0x0100 = 0x0100 := by
  have hbit : (x &&& 0x0100).toNat = (x.toNat.testBit 8).toNat * 2 ^ 8 := by
    rw [UInt16.toNat_and]
    exact Nat.and_two_pow x.toNat 8
  cases hx : x.toNat.testBit 8 with
  | false =>
    left
    apply UInt16.toNat_inj.mp
    rw [hbit, hx]
    rfl
  | true =>
    right
    apply UInt16.toNat_inj.mp
    rw [hbit, hx]
    rfl

theorem answerFlags_bits (query : Bytes) {rcode : UInt16} (hrcode : rcode = 0 ∨ rcode = 3) :
    answerFlags query rcode &&& 0x8000 = 0x8000 ∧
      (answerFlags query rcode >>> 11) &&& 0x0F = 0 ∧
      answerFlags query rcode &&& 0x0100 = (u16be query 2).getD 0 &&& 0x0100 ∧
      answerFlags query rcode &&& 0x000F = rcode := by
  unfold answerFlags
  rcases and_bit ((u16be query 2).getD 0) with hrd | hrd <;> rw [hrd] <;>
    rcases hrcode with rfl | rfl <;> decide

section Response

variable {query : Bytes} {q : Question} (hq : parseQuery query = some q) {rcode : UInt16}
  (hrcode : rcode = 0 ∨ rcode = 3) (records : List Record)
include hq

/-- An offset whose byte is kept has that byte in the answer. -/
theorem buildResponse_kept {answers : Bytes} {ancount : UInt16} {i : ℕ} (hi : i < q.questionEnd)
    (hkept : ∀ b ∈ written query rcode ancount i, query[i]? = some b) :
    (buildResponse query q rcode answers ancount)[i]? = query[i]? := by
  obtain ⟨hlo, hhi⟩ := parseQuery_bounds hq
  obtain ⟨b0, b1, b2, b3, b4, b5, h6, body, htake, hlen, hresp⟩ :=
    buildResponse_eq (by omega) hhi rcode answers ancount
  have hquery : query[i]? = (query.take q.questionEnd)[i]? := by
    rw [List.getElem?_take, if_pos hi]
  have hbound := congrArg List.length htake
  rw [List.length_take] at hbound
  simp only [List.length_cons, List.length_append, hlen] at hbound
  rw [hresp]
  match i with
  | 0 | 1 | 4 | 5 => rw [hquery, htake]; rfl
  | 2 | 3 | 6 | 7 | 8 | 9 | 10 | 11 => rw [hkept _ rfl]; rfl
  | n + 12 =>
    have hbody : n < body.length := by omega
    rw [hquery, htake]
    simp only [List.getElem?_cons_succ]
    have hfront : (h6 ++ body)[n + 6]? = body[n]? := by
      rw [List.getElem?_append_right (by omega), hlen, Nat.add_sub_cancel]
    rw [List.getElem?_append_left hbody, hfront]

/-- The count of questions is the query's. -/
theorem buildResponse_qdcount (answers : Bytes) (ancount : UInt16) :
    u16be (buildResponse query q rcode answers ancount) 4 = u16be query 4 := by
  obtain ⟨hlo, -⟩ := parseQuery_bounds hq
  unfold u16be
  rw [buildResponse_kept hq (by omega) (by simp [written]),
    buildResponse_kept hq (by omega) (by simp [written])]

include hrcode in
theorem wellFormed_buildResponse (hone : u16be query 4 = some 1)
    (hkept : ReadsKept query q rcode (.ofNat records.length)) :
    WellFormed query q rcode records
      (buildResponse query q rcode (records.flatMap Record.encode) (.ofNat records.length)) := by
  obtain ⟨hid, hname⟩ := parseQuery_parts hq
  obtain ⟨hlo, hhi⟩ := parseQuery_bounds hq
  obtain ⟨hqr, hopcode, hrd, hcode⟩ := answerFlags_bits query hrcode
  obtain ⟨b0, b1, b2, b3, b4, b5, h6, body, htake, hlen, hresp⟩ := buildResponse_eq (by omega) hhi
    rcode (records.flatMap Record.encode) (.ofNat records.length)
  have hflags : u16be query 2 = some (b2.toUInt16 <<< 8 ||| b3.toUInt16) := by
    have h2 := congrArg (·[2]?) htake
    have h3 := congrArg (·[3]?) htake
    simp only [List.getElem?_take] at h2 h3
    rw [if_pos (by omega)] at h2 h3
    simp [u16be, h2, h3]
  refine ⟨?_, ⟨answerFlags query rcode, _, ?_, hflags, hqr, hopcode, ?_, hcode⟩, ?_, ?_, ?_, ?_, ?_,
    decodeName_congr ?_ hname⟩
  · rw [← hid]
    unfold u16be
    rw [buildResponse_kept hq (by omega) (by simp [written]),
      buildResponse_kept hq (by omega) (by simp [written])]
  · rw [hresp]
    simp only [u16be, List.getElem?_cons_succ, List.getElem?_cons_zero, join16_masked]
  · rw [hrd, hflags, Option.getD_some]
  · rw [buildResponse_qdcount hq, hone]
  · rw [hresp]
    simp only [u16be, List.getElem?_cons_succ, List.getElem?_cons_zero, join16_masked]
  · rw [hresp]
    rfl
  · rw [hresp]
    rfl
  · rw [hresp, htake]
    have hbody : (b0 :: b1 :: b2 :: b3 :: b4 :: b5 :: (h6 ++ body)).drop 12 = body := by
      simp only [List.drop_succ_cons]
      rw [List.drop_left' hlen]
    rw [hbody]
    rfl
  · intro i hi
    obtain ⟨hend, hbyte⟩ := hkept i hi
    exact buildResponse_kept hq hend hbyte

end Response

/-- A sinkhole answer carries its records. -/
theorem synthesizeSinkhole_eq (query : Bytes) (q : Question) :
    synthesizeSinkhole query q = buildResponse query q 0
      ((sinkholeRecords q).flatMap Record.encode) (.ofNat (sinkholeRecords q).length) := by
  unfold synthesizeSinkhole sinkholeRecords
  by_cases hA : q.qtype = typeA
  · simp [hA, Record.encode, ttl]
  · by_cases hAaaa : q.qtype = typeAaaa
    · simp [hAaaa, Record.encode, ttl, typeA, typeAaaa]
    · simp [hA, hAaaa]

/-- Both answers to a query are well formed when it has one question and its name is read from
bytes that they keep; with another count neither of them is. -/
theorem synthesized_answers {query : Bytes} {q : Question} (hq : parseQuery query = some q) :
    (u16be query 4 ≠ some 1 → ¬ WellFormed query q 3 [] (synthesizeNxdomain query q) ∧
      ¬ WellFormed query q 0 (sinkholeRecords q) (synthesizeSinkhole query q)) ∧
    (u16be query 4 = some 1 →
      (ReadsKept query q 3 0 → WellFormed query q 3 [] (synthesizeNxdomain query q)) ∧
      (ReadsKept query q 0 (.ofNat (sinkholeRecords q).length) →
        WellFormed query q 0 (sinkholeRecords q) (synthesizeSinkhole query q))) := by
  rw [synthesizeSinkhole_eq, synthesizeNxdomain]
  constructor
  · intro hcount
    constructor <;> intro hwell <;> apply hcount <;> have hq4 := hwell.qdcount
    · rwa [buildResponse_qdcount hq] at hq4
    · rwa [buildResponse_qdcount hq] at hq4
  · intro hone
    constructor <;> intro hkept
    · exact wellFormed_buildResponse hq (.inr rfl) [] hone hkept
    · exact wellFormed_buildResponse hq (.inl rfl) _ hone hkept

/-- A header with one question, the section counts after ANCOUNT, and a question of type A. -/
def sampleQuery (qdcount : UInt8) (rest name : Bytes) : Bytes :=
  [0x12, 0x34, 0x01, 0x00, 0, qdcount, 0, 0] ++ rest ++ name ++ [0, 1, 0, 1]

def adsQuery : Bytes := sampleQuery 1 [0, 0, 0, 0] ([3] ++ ascii "ads" ++ [0])

def adsQuestion : Question := ⟨0x1234, Str.lit "ads", typeA, classIn, 21⟩

theorem synthesized_answers_ads :
    parseQuery adsQuery = some adsQuestion ∧ u16be adsQuery 4 = some 1 ∧
      ReadsKept adsQuery adsQuestion 3 0 ∧
      WellFormed adsQuery adsQuestion 3 [] (synthesizeNxdomain adsQuery adsQuestion) := by
  have hq : parseQuery adsQuery = some adsQuestion := by decide +kernel
  have hone : u16be adsQuery 4 = some 1 := by decide
  have hkept : ReadsKept adsQuery adsQuestion 3 0 := by decide +kernel
  exact ⟨hq, hone, hkept, ((synthesized_answers hq).2 hone).1 hkept⟩

/-- Two questions are counted and one is echoed; a name kept in the counts is overwritten. -/
theorem answers_malformed :
    (∃ q, parseQuery (sampleQuery 2 [0, 0, 0, 0] ([3] ++ ascii "ads" ++ [0])) = some q ∧
      ¬ WellFormed (sampleQuery 2 [0, 0, 0, 0] ([3] ++ ascii "ads" ++ [0])) q 3 []
        (synthesizeNxdomain (sampleQuery 2 [0, 0, 0, 0] ([3] ++ ascii "ads" ++ [0])) q)) ∧
    ∃ q, parseQuery (sampleQuery 1 ([1] ++ ascii "x" ++ [0, 0]) [0xC0, 8]) = some q ∧
      ¬ WellFormed (sampleQuery 1 ([1] ++ ascii "x" ++ [0, 0]) [0xC0, 8]) q 3 []
        (synthesizeNxdomain (sampleQuery 1 ([1] ++ ascii "x" ++ [0, 0]) [0xC0, 8]) q) := by
  constructor
  · refine ⟨adsQuestion, by decide +kernel, ?_⟩
    intro hwell
    exact absurd hwell.qdcount (by decide +kernel)
  · refine ⟨⟨0x1234, Str.lit "x", typeA, classIn, 18⟩, by decide +kernel, ?_⟩
    intro hwell
    exact absurd hwell.name (by decide +kernel)

end Adwarden.Dns
