import Adwarden.Dns.Answer
import Adwarden.Rust.Panic

/-! The DNS code with its index expressions and slices as the language checks them, and the loop of
`decode_name` turn by turn. -/
namespace Adwarden.Dns

/-- `b[i]`. -/
def index (b : Bytes) (i : ℕ) : Except Panic UInt8 :=
  match b[i]? with
  | some x => .ok x
  | none => .error .sliceOutOfRange

/-- `&b[start..stop]`. -/
def slice (b : Bytes) (start stop : ℕ) : Except Panic Bytes :=
  if start ≤ stop ∧ stop ≤ b.length then .ok ((b.take stop).drop start)
  else .error .sliceOutOfRange

/-- `out[i] = x`. -/
def storeAt (out : Bytes) (i : ℕ) (x : UInt8) : Except Panic Bytes :=
  if i < out.length then .ok (out.set i x) else .error .sliceOutOfRange

namespace Checked

def u16be (b : Bytes) (o : ℕ) : Except Panic (Option UInt16) := do
  if o + 2 ≤ b.length then
    let hi ← index b o
    let lo ← index b (o + 1)
    .ok (some (hi.toUInt16 <<< 8 ||| lo.toUInt16))
  else .ok none

/-- The variables of the loop. -/
structure NameState where
  pos : ℕ
  endAfter : Option ℕ
  jumps : ℕ
  labels : List Str

/-- How a turn of the loop ends: in the next one, or with a result. -/
inductive NameTurn where
  | goOn (s : NameState)
  | leave (r : Option (Str × ℕ))

def nameTurn (buf : Bytes) (s : NameState) : Except Panic NameTurn := do
  if buf.length ≤ s.pos then .ok (.leave none)
  else
    let len ← index buf s.pos
    if len &&& 0xC0 = 0x00 then
      if len = 0 then .ok (.leave (some (Str.join ['.'] s.labels, s.endAfter.getD (s.pos + 1))))
      else
        let e := s.pos + 1 + len.toNat
        if buf.length < e then .ok (.leave none)
        else
          let bytes ← slice buf (s.pos + 1) e
          match Str.fromUtf8 bytes with
          | none => .ok (.leave none)
          | some label =>
            .ok (.goOn { s with pos := e, labels := s.labels ++ [label.toAsciiLowercase] })
    else if len &&& 0xC0 = 0xC0 then
      -- The end is recorded before the second byte of the pointer is looked at.
      let endAfter := some (s.endAfter.getD (s.pos + 2))
      match buf[s.pos + 1]? with
      | none => .ok (.leave none)
      | some lo =>
        let ptr := (len &&& 0x3F).toNat * 256 + lo.toNat
        if 16 < s.jumps + 1 ∨ buf.length ≤ ptr then .ok (.leave none)
        else .ok (.goOn { s with pos := ptr, endAfter := endAfter, jumps := s.jumps + 1 })
    else .ok (.leave none)

/-- Some turns of the loop; `none` when it has not left by then. -/
def nameTurns (buf : Bytes) : ℕ → NameState → Except Panic (Option (Option (Str × ℕ)))
  | 0, _ => .ok none
  | n + 1, s => do
    match ← nameTurn buf s with
    | .goOn s => nameTurns buf n s
    | .leave r => .ok (some r)

def nameStart (start : ℕ) : NameState := ⟨start, none, 0, []⟩

def decodeName (buf : Bytes) (start : ℕ) : Except Panic (Option (Option (Str × ℕ))) :=
  nameTurns buf (17 * (buf.length + 1)) (nameStart start)

def parseQuery (buf : Bytes) : Except Panic (Option Question) := do
  if buf.length < 12 then .ok none
  else
    let id? ← u16be buf 0
    let flags? ← u16be buf 2
    let qdcount? ← u16be buf 4
    match id?, flags?, qdcount? with
    | some id, some flags, some qdcount =>
      if flags &&& 0x8000 ≠ 0 ∨ (flags >>> 11) &&& 0x0F ≠ 0 ∨ qdcount = 0 then .ok none
      else match (← decodeName buf 12).join with
        | none => .ok none
        | some (name, next) =>
          let qtype? ← u16be buf next
          let qclass? ← u16be buf (next + 2)
          match qtype?, qclass? with
          | some qtype, some qclass =>
            .ok (some { id, name, qtype, qclass, questionEnd := next + 4 })
          | _, _ => .ok none
    | _, _, _ => .ok none

def buildResponse (query : Bytes) (q : Question) (rcode : UInt16) (answers : Bytes)
    (ancount : UInt16) : Except Panic Bytes := do
  let out ← slice query 0 q.questionEnd
  let flags := 0x8000 ||| ((Dns.u16be query 2).getD 0 &&& 0x0100) ||| 0x0080 ||| (rcode &&& 0x000F)
  let out ← storeAt out 2 (flags >>> 8).toUInt8
  let out ← storeAt out 3 (flags &&& 0xFF).toUInt8
  let out ← storeAt out 6 (ancount >>> 8).toUInt8
  let out ← storeAt out 7 (ancount &&& 0xFF).toUInt8
  let out ← storeAt out 8 0
  let out ← storeAt out 9 0
  let out ← storeAt out 10 0
  let out ← storeAt out 11 0
  .ok (out ++ answers)

def synthesizeNxdomain (query : Bytes) (q : Question) : Except Panic Bytes :=
  buildResponse query q 3 [] 0

def synthesizeSinkhole (query : Bytes) (q : Question) : Except Panic Bytes :=
  let (rdata, ok) : Bytes × Bool :=
    if q.qtype = typeA then (List.replicate 4 0, true)
    else if q.qtype = typeAaaa then (List.replicate 16 0, true)
    else ([], false)
  if ok = false then buildResponse query q 0 [] 0
  else
    let ans := [0xC0, 0x0C] ++ beBytes16 q.qtype ++ beBytes16 classIn ++ [0, 0, 0, 60] ++
      beBytes16 (.ofNat rdata.length) ++ rdata
    buildResponse query q 0 ans 1

end Checked

section Reads

variable {b : Bytes}

theorem index_of_some {i : ℕ} {x : UInt8} (h : b[i]? = some x) : index b i = .ok x := by
  rw [index, h]

theorem slice_of_le {start stop : ℕ} (hle : start ≤ stop) (hstop : stop ≤ b.length) :
    slice b start stop = .ok ((b.take stop).drop start) := by
  rw [slice, if_pos ⟨hle, hstop⟩]

theorem Checked.u16be_eq (b : Bytes) (o : ℕ) : Checked.u16be b o = .ok (Dns.u16be b o) := by
  unfold Checked.u16be Dns.u16be
  split_ifs with hroom
  · have hhi : b[o]? = some b[o] := List.getElem?_eq_getElem (by omega)
    have hlo : b[o + 1]? = some b[o + 1] := List.getElem?_eq_getElem (by omega)
    rw [index_of_some hhi, index_of_some hlo, hhi, hlo]
    rfl
  · have hlo : b[o + 1]? = none := List.getElem?_eq_none (by omega)
    rw [hlo]
    cases b[o]? <;> rfl

end Reads

namespace Checked

section Name

variable {buf : Bytes} {fuel : ℕ} {s : NameState}

/-- A turn that does what the loop does. One that goes on is further in the buffer, or one jump
further. -/
inductive NameTurn.Follows (buf : Bytes) (fuel : ℕ) (s : NameState) : NameTurn → Prop
  | leave {r : Option (Str × ℕ)}
      (h : decodeNameLoop buf (fuel + 1) s.pos s.endAfter s.jumps s.labels = r) :
      Follows buf fuel s (.leave r)
  | goOn {s' : NameState}
      (h : decodeNameLoop buf (fuel + 1) s.pos s.endAfter s.jumps s.labels =
        decodeNameLoop buf fuel s'.pos s'.endAfter s'.jumps s'.labels)
      (hat : s.pos < buf.length) (hin : s'.pos ≤ buf.length)
      (hless : (s'.jumps = s.jumps ∧ s.pos < s'.pos) ∨
        (s'.jumps = s.jumps + 1 ∧ s'.jumps ≤ 16)) :
      Follows buf fuel s (.goOn s')

theorem nameTurn_follows (buf : Bytes) (fuel : ℕ) (s : NameState) :
    ∃ t, nameTurn buf s = .ok t ∧ t.Follows buf fuel s := by
  unfold nameTurn
  by_cases hend : buf.length ≤ s.pos
  · have hbyte : buf[s.pos]? = none := List.getElem?_eq_none hend
    rw [if_pos hend]
    exact ⟨_, rfl, .leave (by rw [decodeNameLoop, hbyte])⟩
  · have hbyte : buf[s.pos]? = some buf[s.pos] := List.getElem?_eq_getElem (Nat.not_le.mp hend)
    rw [if_neg hend, index_of_some hbyte, Except.ok_bind]
    have hat := Nat.not_le.mp hend
    generalize buf[s.pos] = len at hbyte
    dsimp only
    split_ifs with hclass hz hroom hptr
    · exact ⟨_, rfl, .leave (by simp only [decodeNameLoop, hbyte, if_pos hclass, if_pos hz])⟩
    · refine ⟨_, rfl, .leave ?_⟩
      simp only [decodeNameLoop, hbyte, if_pos hclass, if_neg hz, if_pos hroom]
    · rw [slice_of_le (Nat.le_add_right _ _) (Nat.not_lt.mp hroom), Except.ok_bind]
      cases hlabel : Str.fromUtf8 ((buf.take (s.pos + 1 + len.toNat)).drop (s.pos + 1)) with
      | none =>
        refine ⟨_, rfl, .leave ?_⟩
        simp only [decodeNameLoop, hbyte, if_pos hclass, if_neg hz, if_neg hroom, hlabel]
      | some label =>
        refine ⟨_, rfl, .goOn ?_ hat (Nat.not_lt.mp hroom) (Or.inl ⟨rfl, ?_⟩)⟩
        · simp only [decodeNameLoop, hbyte, if_pos hclass, if_neg hz, if_neg hroom, hlabel]
        · dsimp only
          omega
    · cases hlo : buf[s.pos + 1]? with
      | none =>
        refine ⟨_, rfl, .leave ?_⟩
        simp only [decodeNameLoop, hbyte, if_neg hclass, if_pos hptr, hlo]
      | some lo =>
        dsimp only
        split_ifs with hbad
        · refine ⟨_, rfl, .leave ?_⟩
          simp only [decodeNameLoop, hbyte, if_neg hclass, if_pos hptr, hlo, if_pos hbad]
        · have hgood := not_or.mp hbad
          refine ⟨_, rfl, .goOn ?_ hat (Nat.not_le.mp hgood.2).le (Or.inr ⟨rfl, ?_⟩)⟩
          · simp only [decodeNameLoop, hbyte, if_neg hclass, if_pos hptr, hlo, if_neg hbad]
          · exact Nat.not_lt.mp hgood.1
    · refine ⟨_, rfl, .leave ?_⟩
      simp only [decodeNameLoop, hbyte, if_neg hclass, if_neg hptr]

/-- The turns left are bounded by the jumps left, and then by what is left of the buffer. -/
theorem nameTurns_eq (hpos : 0 < fuel)
    (hfuel : (16 - s.jumps) * (buf.length + 1) + (buf.length + 1 - s.pos) ≤ fuel) :
    nameTurns buf fuel s =
      .ok (some (decodeNameLoop buf fuel s.pos s.endAfter s.jumps s.labels)) := by
  induction fuel generalizing s with
  | zero => omega
  | succ fuel ih =>
    obtain ⟨t, hturn, hfollows⟩ := nameTurn_follows buf fuel s
    rw [nameTurns, hturn, Except.ok_bind]
    cases hfollows with
    | leave h => rw [h]
    | @goOn s' h hat hin hless =>
      have hturns : (16 - s'.jumps) * (buf.length + 1) + (buf.length + 1 - s'.pos) ≤ fuel := by
        rcases hless with ⟨hj, hp⟩ | ⟨hj, hp⟩
        · rw [hj]
          omega
        · have hsucc : (16 - s.jumps) * (buf.length + 1) =
              (16 - s'.jumps) * (buf.length + 1) + (buf.length + 1) := by
            rw [← Nat.succ_mul]
            congr 1
            omega
          omega
      rw [h]
      exact ih (by omega) hturns

theorem decodeName_eq (buf : Bytes) (start : ℕ) :
    Checked.decodeName buf start = .ok (some (Dns.decodeName buf start)) := by
  refine nameTurns_eq (by omega) ?_
  simp only [nameStart]
  omega

end Name

theorem parseQuery_eq (buf : Bytes) : Checked.parseQuery buf = .ok (Dns.parseQuery buf) := by
  unfold Checked.parseQuery Dns.parseQuery
  split_ifs with hlen
  · rfl
  · simp only [u16be_eq, decodeName_eq, Except.ok_bind, Option.join_some]
    cases hid : Dns.u16be buf 0 with
    | none => rfl
    | some id =>
      cases hflags : Dns.u16be buf 2 with
      | none => rfl
      | some flags =>
        cases hcount : Dns.u16be buf 4 with
        | none => rfl
        | some qdcount =>
          simp only [Option.bind_eq_bind, Option.bind_some]
          split_ifs with hbad
          · rfl
          · cases hname : Dns.decodeName buf 12 with
            | none => rfl
            | some r =>
              obtain ⟨name, next⟩ := r
              simp only [Option.bind_some]
              cases Dns.u16be buf next with
              | none => cases Dns.u16be buf (next + 2) <;> rfl
              | some qtype => cases Dns.u16be buf (next + 2) <;> rfl

end Checked

/-- A name takes at least one byte of the question. -/
theorem decodeName_end {buf : Bytes} {start next : ℕ} {name : Str}
    (h : decodeName buf start = some (name, next)) : start + 1 ≤ next := by
  have hfuel : 17 * (buf.length + 1) = 17 * buf.length + 16 + 1 := by omega
  rw [decodeName, hfuel, decodeNameLoop_succ] at h
  cases h with
  | done _ hr =>
    obtain ⟨-, rfl⟩ := Prod.mk.inj hr
    exact Nat.le_refl _
  | label _ _ _ _ _ hrest =>
    refine decodeNameLoop_end (by simp) ?_ hrest
    intro _
    omega
  | pointer _ _ _ _ _ hrest =>
    refine decodeNameLoop_end ?_ (by simp) hrest
    intro e he
    obtain rfl := Option.some.inj he
    exact Nat.le_succ _

theorem parseQuery_questionEnd {buf : Bytes} {q : Question} (h : parseQuery buf = some q) :
    17 ≤ q.questionEnd ∧ q.questionEnd ≤ buf.length := by
  obtain ⟨hlo, hhi⟩ := parseQuery_bounds h
  have hend := decodeName_end (parseQuery_parts h).2
  exact ⟨by omega, hhi⟩

namespace Checked

section Response

variable {query : Bytes} {q : Question} (hlo : 12 ≤ q.questionEnd)
  (hhi : q.questionEnd ≤ query.length)
include hlo hhi

theorem buildResponse_eq (rcode : UInt16) (answers : Bytes) (ancount : UInt16) :
    Checked.buildResponse query q rcode answers ancount =
      .ok (Dns.buildResponse query q rcode answers ancount) := by
  obtain ⟨b0, b1, b2, b3, b4, b5, h6, body, htake, hlen, hresp⟩ :=
    Dns.buildResponse_eq hlo hhi rcode answers ancount
  obtain ⟨b6, b7, b8, b9, b10, b11, rfl⟩ :
      ∃ b6 b7 b8 b9 b10 b11, h6 = [b6, b7, b8, b9, b10, b11] := by
    match h6, hlen with
    | [b6, b7, b8, b9, b10, b11], _ => exact ⟨b6, b7, b8, b9, b10, b11, rfl⟩
  rw [hresp, Checked.buildResponse, slice_of_le (Nat.zero_le _) hhi, List.drop_zero, htake]
  simp [storeAt, answerFlags]

theorem synthesizeNxdomain_eq :
    Checked.synthesizeNxdomain query q = .ok (Dns.synthesizeNxdomain query q) :=
  buildResponse_eq hlo hhi 3 [] 0

theorem synthesizeSinkhole_eq :
    Checked.synthesizeSinkhole query q = .ok (Dns.synthesizeSinkhole query q) := by
  unfold Checked.synthesizeSinkhole Dns.synthesizeSinkhole
  dsimp only
  split_ifs
  all_goals exact buildResponse_eq hlo hhi _ _ _

end Response

end Checked

/-- On arbitrary bytes the DNS code returns and reads nothing that is not there, and the question
it finds lies within the message, so that no answer to it panics. -/
theorem dns_code_safe (buf : Bytes) :
    (∀ start, ∃ r, Checked.decodeName buf start = .ok (some r)) ∧
      ∃ r, Checked.parseQuery buf = .ok r ∧
        ∀ q, r = some q → (17 ≤ q.questionEnd ∧ q.questionEnd ≤ buf.length) ∧
          (∀ rcode answers ancount, ∃ resp,
            Checked.buildResponse buf q rcode answers ancount = .ok resp) ∧
          (∃ resp, Checked.synthesizeNxdomain buf q = .ok resp) ∧
          ∃ resp, Checked.synthesizeSinkhole buf q = .ok resp := by
  refine ⟨fun start => ⟨_, Checked.decodeName_eq buf start⟩, _, Checked.parseQuery_eq buf, ?_⟩
  intro q hq
  obtain ⟨hlo, hhi⟩ := parseQuery_questionEnd hq
  have htwelve : 12 ≤ q.questionEnd := by omega
  refine ⟨⟨hlo, hhi⟩, ?_, ?_, ?_⟩
  · intro rcode answers ancount
    exact ⟨_, Checked.buildResponse_eq htwelve hhi rcode answers ancount⟩
  · exact ⟨_, Checked.synthesizeNxdomain_eq htwelve hhi⟩
  · exact ⟨_, Checked.synthesizeSinkhole_eq htwelve hhi⟩

/-- The root, asked for in as few bytes as possible, and a pointer to itself. -/
theorem dns_code_safe_root :
    (∃ r, Checked.decodeName (sampleQuery 1 [0, 0, 0, 0] [0xC0, 12]) 12 = .ok (some r)) ∧
      ∃ resp, Checked.synthesizeNxdomain (sampleQuery 1 [0, 0, 0, 0] [0])
        ⟨0x1234, [], typeA, classIn, 17⟩ = .ok resp := by
  obtain ⟨r, hr, hq⟩ := (dns_code_safe (sampleQuery 1 [0, 0, 0, 0] [0])).2
  have hparse : Checked.parseQuery (sampleQuery 1 [0, 0, 0, 0] [0]) =
      .ok (some ⟨0x1234, [], typeA, classIn, 17⟩) := by
    rw [Checked.parseQuery_eq]
    exact congrArg Except.ok (by decide +kernel)
  rw [hparse] at hr
  exact ⟨(dns_code_safe _).1 12, (hq _ (Except.ok.inj hr).symm).2.2.1⟩

end Adwarden.Dns
