import Adwarden.Rust.Panic
import Adwarden.Tls.Chunk
import Adwarden.Tls.DohQuery

/-! The HTTP/1.1 app side of the DoH filter, with the panics its arithmetic can raise. -/
namespace Adwarden.Tls
open Adwarden.Lib

/-- The part of the DoH filter that its HTTP/1.1 side reads and writes. -/
structure H1Side where
  appBuf : Bytes := []
  authority : Str := []
  /-- Set on an unrecoverable parse: stop filtering, relay verbatim. -/
  h1Passthrough : Bool := false
deriving DecidableEq

/-- The name and the local response of a request whose query is blocked. -/
def h1Answer (isBlocked : Str → Bool) (method target contentType : Str) (body : Bytes) :
    Option (Str × Bytes) :=
  match extractQuery method target contentType body with
  | .wire wire =>
    (blockWire isBlocked wire).map fun r =>
      (r.1, h1Response (Str.lit "application/dns-message") r.2)
  | .jsonName name =>
    if isBlocked name then
      some (name,
        h1Response (Str.lit "application/dns-json") (Str.toBytes (jsonNxdomain name)))
    else none
  | .unknown => none

/-- What is done with one whole request: `req` is forwarded as it is, or answered locally. -/
def h1Request (isBlocked : Str → Bool) (method target contentType : Str) (body req : Bytes) :
    List DnsEmit :=
  match h1Answer isBlocked method target contentType body with
  | some (name, response) => .blocked name :: response.map .app
  | none => req.map .upstream

/-- A request head the filter follows: its start line, its headers and the length of its body. -/
structure H1Head where
  method : Str
  target : Str
  headers : Headers
  bodyLen : ℕ
deriving DecidableEq

/-- `none` for a head that cannot be parsed or whose body is not delimited by a length. -/
def h1Head (head : Bytes) : Option H1Head := do
  let (start, headers) ← parseHeadFields head
  let (method, target, _) ← parseRequestLine start
  match requestFraming headers with
  | none => some { method, target, headers, bodyLen := 0 }
  | some (.length n) => some { method, target, headers, bodyLen := n }
  | some _ => none

structure H1Loop where
  side : H1Side
  panic : Option Panic := none
deriving DecidableEq

def h1ContentType (headers : Headers) : Str := (header headers "content-type").getD []

/-- The authority is learned from the first request's `Host`. -/
def learnAuthority (authority : Str) (headers : Headers) : Str :=
  if authority = [] then (header headers "host").getD [] else authority

/-- The loop body of `h1_feed` after a whole head of `hend` bytes: `none` awaits the full body. -/
def h1Iteration (p : Profile) (isBlocked : Str → Bool) (s : H1Side) (hend : ℕ) :
    Except Panic (Option (List DnsEmit × H1Side)) := do
  let (head, _) ← splitAt s.appBuf hend
  match h1Head head with
  | none => .ok (some ([], { s with h1Passthrough := true }))
  | some h =>
    let total ← usizeAdd p hend h.bodyLen
    if s.appBuf.length < total then .ok none
    else
      let (req, rest) ← splitAt s.appBuf total
      let (_, body) ← splitAt req hend
      .ok (some (h1Request isBlocked h.method h.target (h1ContentType h.headers) body req,
        { s with appBuf := rest, authority := learnAuthority s.authority h.headers }))

/-- One iteration of the loop in `h1_feed`. -/
def h1Step (p : Profile) (isBlocked : Str → Bool) : H1Loop → Option (List DnsEmit × H1Loop)
  | ⟨_, some _⟩ => none
  | ⟨s, none⟩ =>
    if s.h1Passthrough then
      if s.appBuf = [] then none else some (s.appBuf.map .upstream, ⟨{ s with appBuf := [] }, none⟩)
    else match findHeaderEnd s.appBuf with
      | none => none
      | some hend =>
        match h1Iteration p isBlocked s hend with
        | .error e => some ([], ⟨s, some e⟩)
        | .ok none => none
        | .ok (some (o, s')) => some (o, ⟨s', none⟩)

theorem requestFraming_lt {headers : Headers} {n : ℕ}
    (h : requestFraming headers = some (.length n)) : n < usizeSize := by
  unfold requestFraming at h
  split_ifs at h
  · simp at h
  · split at h
    · next hc =>
      obtain rfl : _ = n := by simpa using h
      exact contentLength_lt hc
    · simp at h

theorem h1Head_bodyLen_lt {head : Bytes} {h : H1Head} (hh : h1Head head = some h) :
    h.bodyLen < usizeSize := by
  unfold h1Head at hh
  simp only [Option.bind_eq_bind, Option.bind_eq_some_iff] at hh
  obtain ⟨⟨start, headers⟩, -, ⟨method, target, _⟩, -, hf⟩ := hh
  dsimp only at hf
  split at hf
  · obtain rfl := Option.some.inj hf
    simp [usizeSize, usizeBits]
  · next n hn =>
    obtain rfl := Option.some.inj hf
    exact requestFraming_lt hn
  · simp at hf

section Iteration

variable {p : Profile} {isBlocked : Str → Bool} {s : H1Side} {hend : ℕ} {h : H1Head}

/-- A head that is not followed sends the flow into passthrough. -/
theorem h1Iteration_passthrough (he : findHeaderEnd s.appBuf = some hend)
    (hh : h1Head (s.appBuf.take hend) = none) :
    h1Iteration p isBlocked s hend = .ok (some ([], { s with h1Passthrough := true })) := by
  have hle := (findHeaderEnd_le he).2
  simp [h1Iteration, splitAt_of_le hle, hh]

/-- A request whose end fits in `usize` is awaited and then taken whole. -/
theorem h1Iteration_fits (he : findHeaderEnd s.appBuf = some hend)
    (hh : h1Head (s.appBuf.take hend) = some h) (hfit : hend + h.bodyLen < usizeSize) :
    h1Iteration p isBlocked s hend =
      if s.appBuf.length < hend + h.bodyLen then .ok none
      else .ok (some (
        h1Request isBlocked h.method h.target (h1ContentType h.headers)
          ((s.appBuf.take (hend + h.bodyLen)).drop hend) (s.appBuf.take (hend + h.bodyLen)),
        { s with
          appBuf := s.appBuf.drop (hend + h.bodyLen)
          authority := learnAuthority s.authority h.headers })) := by
  have hle := (findHeaderEnd_le he).2
  simp only [h1Iteration, splitAt_of_le hle, hh, usizeAdd_of_lt hfit, Except.ok_bind]
  split_ifs with hlt
  · rfl
  · have hreq : hend ≤ (s.appBuf.take (hend + h.bodyLen)).length := by
      rw [List.length_take]
      omega
    rw [splitAt_of_le (Nat.not_lt.mp hlt), Except.ok_bind, splitAt_of_le hreq, Except.ok_bind]

/-- The panic raised by a request whose end does not fit in `usize`. -/
def oversizedPanic : Profile → Panic
  | .debug => .addOverflow
  | .release => .sliceOutOfRange

/-- A request whose end does not fit panics in both profiles: the sum overflows, or wraps to a
cut inside the head. -/
theorem h1Iteration_oversized (he : findHeaderEnd s.appBuf = some hend)
    (hh : h1Head (s.appBuf.take hend) = some h) (hbig : usizeSize ≤ hend + h.bodyLen) :
    h1Iteration p isBlocked s hend = .error (oversizedPanic p) := by
  have hle := (findHeaderEnd_le he).2
  simp only [h1Iteration, splitAt_of_le hle, hh, Except.ok_bind]
  cases p with
  | debug => simp [usizeAdd_debug hbig, oversizedPanic]
  | release =>
    obtain ⟨total, htotal, hlt⟩ := usizeAdd_release hbig (h1Head_bodyLen_lt hh)
    have hge : ¬ s.appBuf.length < total := by omega
    have hreq : (s.appBuf.take total).length < hend := by
      rw [List.length_take]
      omega
    rw [htotal, Except.ok_bind, if_neg hge, splitAt_of_le (Nat.not_lt.mp hge), Except.ok_bind,
      splitAt_of_lt hreq]
    rfl

/-- All that an iteration which neither panics nor waits can do. -/
theorem h1Iteration_some {s' : H1Side} {o : List DnsEmit}
    (he : findHeaderEnd s.appBuf = some hend)
    (hi : h1Iteration p isBlocked s hend = .ok (some (o, s'))) :
    (h1Head (s.appBuf.take hend) = none ∧ s' = { s with h1Passthrough := true } ∧ o = []) ∨
    ∃ h, h1Head (s.appBuf.take hend) = some h ∧
      (hend + h.bodyLen < usizeSize ∧ hend + h.bodyLen ≤ s.appBuf.length) ∧
      s' = { s with
        appBuf := s.appBuf.drop (hend + h.bodyLen)
        authority := learnAuthority s.authority h.headers } ∧
      o = h1Request isBlocked h.method h.target (h1ContentType h.headers)
        ((s.appBuf.take (hend + h.bodyLen)).drop hend) (s.appBuf.take (hend + h.bodyLen)) := by
  cases hh : h1Head (s.appBuf.take hend) with
  | none =>
    rw [h1Iteration_passthrough he hh] at hi
    simp only [Except.ok.injEq, Option.some.injEq, Prod.mk.injEq] at hi
    exact Or.inl ⟨rfl, hi.2.symm, hi.1.symm⟩
  | some h =>
    right
    by_cases hfit : hend + h.bodyLen < usizeSize
    · rw [h1Iteration_fits he hh hfit] at hi
      split_ifs at hi with hlt
      · simp at hi
      · simp only [Except.ok.injEq, Option.some.injEq, Prod.mk.injEq] at hi
        exact ⟨h, rfl, ⟨hfit, Nat.not_lt.mp hlt⟩, hi.2.symm, hi.1.symm⟩
    · rw [h1Iteration_oversized he hh (Nat.not_lt.mp hfit)] at hi
      simp at hi

theorem h1Step_of_head (hs : s.h1Passthrough = false) (he : findHeaderEnd s.appBuf = some hend) :
    h1Step p isBlocked ⟨s, none⟩ =
      match h1Iteration p isBlocked s hend with
      | .error e => some ([], ⟨s, some e⟩)
      | .ok none => none
      | .ok (some (o, s')) => some (o, ⟨s', none⟩) := by
  simp only [h1Step, hs, he, Bool.false_eq_true, if_false]

theorem h1Step_passthrough (hs : s.h1Passthrough = false)
    (he : findHeaderEnd s.appBuf = some hend) (hh : h1Head (s.appBuf.take hend) = none) :
    h1Step p isBlocked ⟨s, none⟩ = some ([], ⟨{ s with h1Passthrough := true }, none⟩) := by
  rw [h1Step_of_head hs he, h1Iteration_passthrough he hh]

theorem h1Step_oversized (hs : s.h1Passthrough = false)
    (he : findHeaderEnd s.appBuf = some hend) (hh : h1Head (s.appBuf.take hend) = some h)
    (hbig : usizeSize ≤ hend + h.bodyLen) :
    h1Step p isBlocked ⟨s, none⟩ = some ([], ⟨s, some (oversizedPanic p)⟩) := by
  rw [h1Step_of_head hs he, h1Iteration_oversized he hh hbig]

variable (p isBlocked) in
theorem h1Step_fits (hs : s.h1Passthrough = false) (he : findHeaderEnd s.appBuf = some hend)
    (hh : h1Head (s.appBuf.take hend) = some h) (hfit : hend + h.bodyLen < usizeSize)
    (hlen : hend + h.bodyLen ≤ s.appBuf.length) :
    h1Step p isBlocked ⟨s, none⟩ = some (
      h1Request isBlocked h.method h.target (h1ContentType h.headers)
        ((s.appBuf.take (hend + h.bodyLen)).drop hend) (s.appBuf.take (hend + h.bodyLen)),
      ⟨{ s with
        appBuf := s.appBuf.drop (hend + h.bodyLen)
        authority := learnAuthority s.authority h.headers }, none⟩) := by
  rw [h1Step_of_head hs he, h1Iteration_fits he hh hfit, if_neg (Nat.not_lt.mpr hlen)]

end Iteration

private def h1Measure : H1Loop → ℕ
  | ⟨_, some _⟩ => 0
  | ⟨s, none⟩ => 2 * s.appBuf.length + (if s.h1Passthrough then 0 else 1) + 1

private theorem h1Step_decreases {p : Profile} {isBlocked : Str → Bool} {s s' : H1Loop}
    {o : List DnsEmit} (h : h1Step p isBlocked s = some (o, s')) : h1Measure s' < h1Measure s := by
  obtain ⟨s, panic⟩ := s
  cases panic with
  | some e => simp [h1Step] at h
  | none =>
    simp only [h1Step] at h
    split_ifs at h with hp hb
    · obtain ⟨-, rfl⟩ := by simpa using h
      have := List.length_pos_iff.mpr hb
      simp only [h1Measure, hp, List.length_nil, if_true]
      omega
    · split at h
      · simp at h
      · next hend he =>
        split at h
        · obtain ⟨-, rfl⟩ := by simpa using h
          simp [h1Measure]
        · simp at h
        · next o' s' hi =>
          obtain ⟨rfl, rfl⟩ := by simpa using h
          rcases h1Iteration_some he hi with ⟨-, rfl, -⟩ | ⟨h, hh, hlt, rfl, -⟩
          · simp [h1Measure, hp]
          · have hle := findHeaderEnd_le he
            simp only [h1Measure, List.length_drop, hp]
            omega

def h1Feeder (p : Profile) (isBlocked : Str → Bool) : Feeder H1Loop DnsEmit UInt8 where
  step := h1Step p isBlocked
  measure := h1Measure
  decreases := h1Step_decreases
  ext s d := { s with side := { s.side with appBuf := s.side.appBuf ++ d } }
  ext_nil s := by simp
  ext_append s a b := by simp

/-- `h1_feed`: what is emitted, or the panic that ends the datapath thread. -/
def H1Side.h1Feed (p : Profile) (isBlocked : Str → Bool) (s : H1Side) (data : Bytes) :
    Except Panic (List DnsEmit × H1Side) :=
  let r := (h1Feeder p isBlocked).feed ⟨s, none⟩ data
  match r.2.panic with
  | some e => .error e
  | none => .ok (r.1, r.2.side)

end Adwarden.Tls
