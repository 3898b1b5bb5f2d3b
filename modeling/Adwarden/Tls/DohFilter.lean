import Adwarden.Tls.DohOrder

/-! What becomes of each request on an HTTP/1.1 DoH connection: it is forwarded as it is, or
answered locally. -/
namespace Adwarden.Tls
open Adwarden.Lib

variable {H : Hpack} {p : Profile} {isBlocked : Str → Bool}

/-- `req` is one whole request that the filter follows. -/
def Whole (req : Bytes) : Prop :=
  ∃ hend h, findHeaderEnd req = some hend ∧ h1Head (req.take hend) = some h ∧
    hend + h.bodyLen = req.length

/-- `b` is less than a request: its head, if complete, is followed by less than its body. -/
def Unfinished (b : Bytes) : Prop :=
  ∀ hend, findHeaderEnd b = some hend →
    ∃ h, h1Head (b.take hend) = some h ∧ b.length < hend + h.bodyLen

/-- `b` starts with the head of a request that is not followed: it does not parse, or its body is
not delimited by a length. -/
def Unfollowed (b : Bytes) : Prop :=
  ∃ hend, findHeaderEnd b = some hend ∧ h1Head (b.take hend) = none

/-- The requests of a stream up to the first that is incomplete or not followed. -/
structure Splits (stream : Bytes) (reqs : List Bytes) (tail : Bytes) : Prop where
  stream : reqs.flatten ++ tail = stream
  whole : ∀ r ∈ reqs, Whole r
  tail : Unfinished tail ∨ Unfollowed tail

/-- The declared length is below 2^32, and the head fits a buffer (at most `isize::MAX` bytes). -/
def InRange (b : Bytes) : Prop :=
  ∀ hend h, findHeaderEnd b = some hend → h1Head (b.take hend) = some h →
    h.bodyLen < 2 ^ 32 ∧ hend < 2 ^ 63

/-- The name that a query asks for. -/
def queryName : Extracted → Option Str
  | .wire wire => (Dns.parseQuery wire).map (·.name)
  | .jsonName name => some name
  | .unknown => none

/-- The name of a request's query, if one can be extracted. -/
def nameOf (req : Bytes) : Option Str :=
  (requestHead req).bind fun r =>
    queryName (extractQuery r.2.method r.2.target (h1ContentType r.2.headers) (req.drop r.1))

def blockedName (isBlocked : Str → Bool) (req : Bytes) : Option Str :=
  (nameOf req).filter isBlocked

/-- The local response to a request. -/
def answerTo (isBlocked : Str → Bool) (req : Bytes) : Option Bytes :=
  (requestHead req).bind fun r => localAnswer isBlocked req r.1 r.2

/-- Every stream has such requests. -/
theorem splits_exists (stream : Bytes) : ∃ reqs tail, Splits stream reqs tail := by
  induction hn : stream.length using Nat.strongRecOn generalizing stream with
  | ind n ih =>
    cases he : findHeaderEnd stream with
    | none => exact ⟨[], stream, rfl, by simp, Or.inl (by simp [Unfinished, he])⟩
    | some hend =>
      have hle := findHeaderEnd_le he
      cases hh : h1Head (stream.take hend) with
      | none => exact ⟨[], stream, rfl, by simp, Or.inr ⟨hend, he, hh⟩⟩
      | some h =>
        by_cases hlen : stream.length < hend + h.bodyLen
        · refine ⟨[], stream, rfl, by simp, Or.inl fun hend' he' => ?_⟩
          obtain rfl : hend = hend' := by simpa [he] using he'
          exact ⟨h, hh, hlen⟩
        · obtain ⟨reqs, tail, hs⟩ := ih (stream.drop (hend + h.bodyLen)).length
            (by rw [List.length_drop]; omega) _ rfl
          have htake : (stream.take (hend + h.bodyLen)).length = hend + h.bodyLen := by
            rw [List.length_take]
            omega
          have hend' : findHeaderEnd (stream.take (hend + h.bodyLen)) = some hend := by
            have hpre := findHeaderEnd_append
              ((stream.take (hend + h.bodyLen)).drop hend) (findHeaderEnd_take he)
            have : stream.take hend = (stream.take (hend + h.bodyLen)).take hend := by
              rw [List.take_take, Nat.min_eq_left (by omega)]
            rwa [this, List.take_append_drop] at hpre
          have hhead : h1Head ((stream.take (hend + h.bodyLen)).take hend) = some h := by
            rw [List.take_take, Nat.min_eq_left (by omega), hh]
          refine ⟨stream.take (hend + h.bodyLen) :: reqs, tail, ?_, ?_, hs.tail⟩
          · rw [List.flatten_cons, List.append_assoc, hs.stream, List.take_append_drop]
          · intro r hr
            rcases List.mem_cons.mp hr with rfl | hr
            · exact ⟨hend, h, hend', hhead, htake.symm⟩
            · exact hs.whole r hr

section Request

variable {req : Bytes}

theorem Whole.isRequest (h : Whole req) (hr : InRange req) : IsRequest req := by
  obtain ⟨hend, hd, he, hh, hlen⟩ := h
  have := hr hend hd he hh
  exact .followed he hh hlen (by simp [usizeSize, usizeBits]; omega)

/-- What one whole request makes the filter emit. -/
def handle (isBlocked : Str → Bool) (req : Bytes) : List DnsEmit :=
  match requestHead req with
  | some (hend, h) =>
    h1Request isBlocked h.method h.target (h1ContentType h.headers) (req.drop hend) req
  | none => []

theorem Whole.requestHead (h : Whole req) : ∃ hend hd, requestHead req = some (hend, hd) := by
  obtain ⟨hend, hd, he, hh, -⟩ := h
  exact ⟨hend, hd, by simp [Tls.requestHead, he, hh]⟩

/-- A query is answered exactly if its name is blocked. -/
theorem h1Answer_name (method target contentType : Str) (body : Bytes) :
    (h1Answer isBlocked method target contentType body).map (·.1) =
      (queryName (extractQuery method target contentType body)).filter isBlocked := by
  unfold h1Answer
  cases extractQuery method target contentType body with
  | unknown => rfl
  | jsonName name => by_cases hb : isBlocked name <;> simp [queryName, Option.filter, hb]
  | wire wire =>
    cases hq : Dns.parseQuery wire with
    | none => simp [blockWire, queryName, hq]
    | some q => by_cases hb : isBlocked q.name <;> simp [blockWire, queryName, Option.filter, hq, hb]

theorem h1Answer_response {method target contentType : Str} {body : Bytes} {r : Str × Bytes}
    (h : h1Answer isBlocked method target contentType body = some r) :
    ∃ ct answer, r.2 = h1Response ct answer := by
  unfold h1Answer at h
  split at h
  · obtain ⟨a, -, rfl⟩ := Option.map_eq_some_iff.mp h
    exact ⟨_, _, rfl⟩
  · split_ifs at h
    obtain rfl := Option.some.inj h
    exact ⟨_, _, rfl⟩
  · simp at h

theorem answerTo_isSome (h : Whole req) :
    (answerTo isBlocked req).isSome = (blockedName isBlocked req).isSome := by
  obtain ⟨hend, hd, hf⟩ := h.requestHead
  have hname := @h1Answer_name isBlocked hd.method hd.target (h1ContentType hd.headers)
    (req.drop hend)
  simp only [answerTo, blockedName, nameOf, hf, Option.bind_some, localAnswer, ← hname,
    Option.isSome_map]

theorem answerTo_response {answer : Bytes} (h : answerTo isBlocked req = some answer) :
    ∃ ct body, answer = h1Response ct body := by
  obtain ⟨⟨hend, hd⟩, -, ha⟩ := Option.bind_eq_some_iff.mp h
  obtain ⟨r, hr, rfl⟩ := Option.map_eq_some_iff.mp ha
  exact h1Answer_response hr

variable (isBlocked) in
/-- A request is forwarded whole, or answered and its name noted. -/
theorem handle_emits (h : Whole req) :
    DnsEmit.toUpstream (handle isBlocked req) =
        (if (blockedName isBlocked req).isSome then [] else req) ∧
      DnsEmit.toApp (handle isBlocked req) = (answerTo isBlocked req).getD [] ∧
      DnsEmit.names (handle isBlocked req) = (blockedName isBlocked req).toList := by
  obtain ⟨hend, hd, hf⟩ := h.requestHead
  have hname := @h1Answer_name isBlocked hd.method hd.target (h1ContentType hd.headers)
    (req.drop hend)
  simp only [handle, answerTo, blockedName, nameOf, hf, Option.bind_some, localAnswer, ← hname,
    h1Request]
  cases h1Answer isBlocked hd.method hd.target (h1ContentType hd.headers) (req.drop hend) with
  | none => simp
  | some r => simp

end Request

variable (p isBlocked) in
/-- The loop takes the requests one after another, and stops in what is behind them. -/
theorem h1Feeder_run_splits {reqs : List Bytes} {tail : Bytes} (hw : ∀ r ∈ reqs, Whole r)
    (hr : ∀ r ∈ reqs, InRange r) (ht : Unfinished tail ∨ Unfollowed tail) (htail : InRange tail)
    (authority : Str) : ∃ side,
    (h1Feeder p isBlocked).run ⟨{ appBuf := reqs.flatten ++ tail, authority }, none⟩ =
        (reqs.flatMap (handle isBlocked) ++
          (if side.h1Passthrough then tail.map .upstream else []), ⟨side, none⟩) ∧
      ((Unfinished tail ∧ side.h1Passthrough = false ∧ side.appBuf = tail) ∨
        (Unfollowed tail ∧ side.h1Passthrough = true ∧ side.appBuf = [])) := by
  induction reqs generalizing authority with
  | nil =>
    rcases ht with ht | ⟨hend, he, hh⟩
    · refine ⟨{ appBuf := tail, authority }, ?_, Or.inl ⟨ht, rfl, rfl⟩⟩
      have hstop : (h1Feeder p isBlocked).step ⟨{ appBuf := tail, authority }, none⟩ = none := by
        cases he : findHeaderEnd tail with
        | none => simp [h1Feeder, h1Step, he]
        | some hend =>
          obtain ⟨h, hh, hlt⟩ := ht hend he
          have hsize := htail hend h he hh
          have hiter : h1Step p isBlocked ⟨{ appBuf := tail, authority }, none⟩ = _ :=
            h1Step_of_head rfl he
          rw [h1Iteration_fits (s := { appBuf := tail, authority }) he hh
            (by simp [usizeSize, usizeBits]; omega), if_pos hlt] at hiter
          exact hiter
      rw [List.flatten_nil, List.nil_append, (h1Feeder p isBlocked).run_none hstop]
      simp
    · refine ⟨{ appBuf := [], authority, h1Passthrough := true }, ?_,
        Or.inr ⟨⟨hend, he, hh⟩, rfl, rfl⟩⟩
      have hstep : (h1Feeder p isBlocked).step ⟨{ appBuf := tail, authority }, none⟩ =
          some ([], ⟨{ appBuf := tail, authority, h1Passthrough := true }, none⟩) :=
        h1Step_passthrough (s := { appBuf := tail, authority }) rfl he hh
      rw [List.flatten_nil, List.nil_append, (h1Feeder p isBlocked).run_some hstep,
        h1Feeder_run_passthrough p isBlocked rfl]
      simp
  | cons r reqs ih =>
    have hwr := hw r (by simp)
    obtain ⟨hend, h, hf⟩ := hwr.requestHead
    have hstep : (h1Feeder p isBlocked).step
        ⟨{ appBuf := r ++ (reqs.flatten ++ tail), authority }, none⟩ = _ :=
      h1Step_request (hwr.isRequest (hr r (by simp))) hf authority (reqs.flatten ++ tail)
    obtain ⟨side, hrun, hside⟩ := ih (fun r hm => hw r (by simp [hm]))
      (fun r hm => hr r (by simp [hm])) (learnAuthority authority h.headers)
    refine ⟨side, ?_, hside⟩
    rw [List.flatten_cons, List.append_assoc, (h1Feeder p isBlocked).run_some hstep, hrun]
    simp [handle, hf]

variable (isBlocked) in
theorem emits_splits {reqs : List Bytes} (hw : ∀ r ∈ reqs, Whole r) :
    DnsEmit.toUpstream (reqs.flatMap (handle isBlocked)) =
        (reqs.filter fun r => (blockedName isBlocked r).isNone).flatten ∧
      DnsEmit.toApp (reqs.flatMap (handle isBlocked)) =
        (reqs.filterMap (answerTo isBlocked)).flatten ∧
      DnsEmit.names (reqs.flatMap (handle isBlocked)) = reqs.filterMap (blockedName isBlocked) := by
  induction reqs with
  | nil => simp
  | cons r reqs ih =>
    obtain ⟨h1, h2, h3⟩ := ih fun r hm => hw r (by simp [hm])
    obtain ⟨e1, e2, e3⟩ := handle_emits isBlocked (hw r (by simp))
    refine ⟨?_, ?_, ?_⟩
    · rw [List.flatMap_cons, DnsEmit.toUpstream_append, h1, e1]
      cases hb : blockedName isBlocked r <;> simp [hb]
    · rw [List.flatMap_cons, DnsEmit.toApp_append, h2, e2]
      cases ha : answerTo isBlocked r <;> simp [ha]
    · rw [List.flatMap_cons, DnsEmit.names_append, h3, e3]
      cases hb : blockedName isBlocked r <;> simp [hb]

/-- Once it is known for HTTP/1.1, a stream is filtered as if it had come in one piece. -/
theorem onAppPieces_run (pieces : List Bytes) (b : Bytes) (hb : decideProto b = none)
    (hdec : decideProto (b ++ pieces.flatten) = some .h1) {o : List DnsEmit} {side : H1Side}
    (hrun : (h1Feeder p isBlocked).run ⟨{ appBuf := b ++ pieces.flatten }, none⟩ =
      (o, ⟨side, none⟩)) :
    DnsStream.onAppPieces p isBlocked { inner := .doh { appBuf := b } : DnsStream H } pieces =
      .ok (DnsEmit.cross o, { blocked := DnsEmit.names o
                              inner := .doh { toH1Side := side, proto := .h1 } }) := by
  induction pieces generalizing b with
  | nil =>
    rw [List.flatten_nil, List.append_nil, hb] at hdec
    simp at hdec
  | cons x xs ih =>
    rw [List.flatten_cons, ← List.append_assoc] at hdec hrun
    cases hx : decideProto (b ++ x) with
    | none =>
      have hon : DnsStream.onAppData p isBlocked { inner := .doh { appBuf := b } : DnsStream H } x =
          .ok ({}, { inner := .doh { appBuf := b ++ x } }) := by
        simp [DnsStream.onAppData, Doh.onAppData, hx, Except.map, DnsEmit.cross]
      rw [DnsStream.onAppPieces, hon]
      simp only [ih _ hx hdec hrun, Except.map, List.nil_append]
    | some proto =>
      obtain rfl : proto = .h1 := by
        rw [decideProto_append hx] at hdec
        exact Option.some.inj hdec
      have hall := h1Feeder_incremental.run_feeds (F := h1Feeder p isBlocked)
        ⟨{ appBuf := b ++ x }, none⟩ xs
      change (h1Feeder p isBlocked).run ⟨{ appBuf := b ++ x ++ xs.flatten }, none⟩ = _ at hall
      rw [hrun] at hall
      simp only [DnsStream.onAppPieces, DnsStream.onAppData, Doh.onAppData, hx, Doh.h1Feed,
        H1Side.h1Feed, Feeder.feed, Feeder.ext_nil]
      obtain ⟨⟨o₁, s₁, panic⟩, hr⟩ :
        ∃ r, (h1Feeder p isBlocked).run ⟨{ appBuf := b ++ x }, none⟩ = r := ⟨_, rfl⟩
      rw [hr] at hall ⊢
      cases panic with
      | some e =>
        have := @h1Feeder_feeds_panicked p isBlocked s₁ e xs
        rw [← (Prod.mk.inj hall).2] at this
        simp at this
      | none =>
        simp only [Except.map]
        rw [onAppPieces_h1 xs _ {} s₁, ← (Prod.mk.inj hall).2, (Prod.mk.inj hall).1]
        simp [DnsEmit.cross]

theorem decideProto_short {b : Bytes} (hb : b <+: preface) (hne : b ≠ preface) :
    decideProto b = none := by
  have hlt : b.length < preface.length :=
    lt_of_le_of_ne hb.length_le fun heq => hne (hb.eq_of_length heq)
  unfold decideProto
  rw [if_neg (by omega), if_pos hb]

theorem decideProto_other {b : Bytes} (hb : ¬ preface <+: b) (hnp : ¬ b <+: preface) :
    decideProto b = some .h1 := by
  unfold decideProto
  by_cases hle : preface.length ≤ b.length
  · rw [if_pos hle, if_neg fun heq => hb (by rw [← heq]; exact List.take_prefix _ _)]
  · rw [if_neg hle, if_neg hnp]

/-- While the stream may still become the preface, the filter keeps it. -/
theorem onAppPieces_short (pieces : List Bytes) (b : Bytes)
    (hb : b ++ pieces.flatten <+: preface) (hne : b ++ pieces.flatten ≠ preface) :
    DnsStream.onAppPieces p isBlocked { inner := .doh { appBuf := b } : DnsStream H } pieces =
      .ok ({}, { inner := .doh { appBuf := b ++ pieces.flatten } }) := by
  induction pieces generalizing b with
  | nil => simp [DnsStream.onAppPieces]
  | cons x xs ih =>
    rw [List.flatten_cons, ← List.append_assoc] at hb hne ⊢
    have hshort : decideProto (b ++ x) = none := by
      apply decideProto_short ((List.prefix_append _ _).trans hb)
      intro heq
      have hlen := hb.length_le
      rw [heq] at hb hne hlen
      exact hne (hb.eq_of_length (by rw [List.length_append] at hlen ⊢; omega))
    have hon : DnsStream.onAppData p isBlocked { inner := .doh { appBuf := b } : DnsStream H } x =
        .ok ({}, { inner := .doh { appBuf := b ++ x } }) := by
      simp [DnsStream.onAppData, Doh.onAppData, hshort, Except.map, DnsEmit.cross]
    rw [DnsStream.onAppPieces, hon]
    simp only [ih _ hb hne, Except.map, List.nil_append]

theorem InRange.of_head {b : Bytes} {hend : ℕ} {h : H1Head} (he : findHeaderEnd b = some hend)
    (hh : h1Head (b.take hend) = some h) (hsize : h.bodyLen < 2 ^ 32 ∧ hend < 2 ^ 63) :
    InRange b := by
  intro hend' h' he' hh'
  obtain rfl : hend = hend' := Option.some.inj (he.symm.trans he')
  obtain rfl : h = h' := Option.some.inj (hh.symm.trans hh')
  exact hsize

private def askFor (name : String) : Bytes :=
  ascii "GET /d?name=" ++ ascii name ++ ascii " HTTP/1.1\r\n\r\n"

private def askHead (name : String) : H1Head where
  method := Str.lit "GET"
  target := Str.lit "/d?name=" ++ Str.lit name
  headers := []
  bodyLen := 0

end Adwarden.Tls
