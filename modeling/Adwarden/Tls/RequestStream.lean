import Adwarden.Tls.RequestEdit
import Adwarden.Tls.RewriterForeign

/-! The request side of the rewriter over a whole stream of requests, however it is cut. -/
namespace Adwarden.Tls
open Adwarden.Lib

/-- A request head that the rewriter reads, whether it is one of `HEAD`, and its fields. -/
structure IsRequestHead (head : Bytes) (isHead : Bool) (headers : Headers) : Prop where
  ends : findHeaderEnd head = some head.length
  fits : head.length ≤ maxHeaderBytes
  reads : ∃ method, Rewriter.requestHead (fieldsOf head) = some (method, headers) ∧
    method.eqIgnoreAsciiCase (Str.lit "HEAD") = isHead

/-- A stream that does not go on with a request: its head does not parse, or there is none where the
longest could end. -/
def Unreadable (stream : Bytes) : Prop :=
  (∃ hend, findHeaderEnd stream = some hend ∧
    Rewriter.requestHead (stream.take (hend - 4)) = none) ∨
  (findHeaderEnd stream = none ∧ maxHeaderBytes < stream.length)

/-- Of a stream of requests, from the state in which it is read: what is to be written, what is to
be kept, and which of the requests are `HEAD`. -/
inductive Requests : ReqState → (stream written kept : Bytes) → (heads : List Bool) → Prop
  | waiting {buf : Bytes} (h : Undecided buf) : Requests .head buf [] buf []
  | unreadable {stream : Bytes} (h : Unreadable stream) : Requests .head stream stream [] []
  | chunked {head text rest : Bytes} {isHead : Bool} {headers : Headers} {reader : ChunkReader}
      (hh : IsRequestHead head isHead headers) (he : AsksIdentity head text)
      (hf : requestFraming headers = some (.chunked reader)) :
      Requests .head (head ++ rest) (text ++ rest) [] [isHead]
  | bodiless {head text rest written kept : Bytes} {isHead : Bool} {headers : Headers}
      {heads : List Bool} (hh : IsRequestHead head isHead headers) (he : AsksIdentity head text)
      (hf : requestFraming headers = none) (hrest : Requests .head rest written kept heads) :
      Requests .head (head ++ rest) (text ++ written) kept (isHead :: heads)
  | sized {head text rest written kept : Bytes} {isHead : Bool} {headers : Headers}
      {heads : List Bool} {n : ℕ} (hh : IsRequestHead head isHead headers)
      (he : AsksIdentity head text) (hf : requestFraming headers = some (.length n))
      (hrest : Requests (.body n) rest written kept heads) :
      Requests .head (head ++ rest) (text ++ written) kept (isHead :: heads)
  | part {n : ℕ} {body : Bytes} (h : body.length < n) : Requests (.body n) body body [] []
  | body {n : ℕ} {body rest written kept : Bytes} {heads : List Bool} (hn : body.length = n)
      (hrest : Requests .head rest written kept heads) :
      Requests (.body n) (body ++ rest) (body ++ written) kept heads

section Heads

theorem IsRequestHead.fields_ne_nil {head : Bytes} {isHead : Bool} {headers : Headers}
    (h : IsRequestHead head isHead headers) : fieldsOf head ≠ [] := by
  intro hnil
  obtain ⟨method, hm, -⟩ := h.reads
  have hnone : Rewriter.requestHead [] = none := by decide +kernel
  rw [hnil, hnone] at hm
  cases hm

theorem IsRequestHead.edited {head text : Bytes} {isHead : Bool} {headers : Headers}
    (h : IsRequestHead head isHead headers) (he : AsksIdentity head text) :
    editRequestHead head = text :=
  ((asksIdentity_iff h.ends h.fields_ne_nil).mp he).symm

theorem requestFraming_framed {headers : Headers} {framing : Framing}
    (h : requestFraming headers = some framing) :
    (∃ reader, framing = .chunked reader) ∨ ∃ n, framing = .length n := by
  unfold requestFraming at h
  split at h
  · obtain rfl := Option.some.inj h
    exact Or.inl ⟨_, rfl⟩
  · split at h
    · obtain rfl := Option.some.inj h
      exact Or.inr ⟨_, rfl⟩
    · cases h

/-- A stream whose buffered part has no end of a head and is longer than any goes on unread. -/
theorem Requests.oversized {buf more written kept : Bytes} {heads : List Bool}
    (h : Requests .head (buf ++ more) written kept heads) (he : findHeaderEnd buf = none)
    (hlt : maxHeaderBytes < buf.length) : written = buf ++ more ∧ kept = [] ∧ heads = [] := by
  have hhead : ∀ {head rest isHead headers}, IsRequestHead head isHead headers →
      head ++ rest ≠ buf ++ more := by
    intro head rest isHead headers hh heq
    have hend := findHeaderEnd_append rest hh.ends
    rw [heq] at hend
    have hshort := findHeaderEnd_append_none he hend
    have hfits := hh.fits
    omega
  generalize hs : buf ++ more = stream at h
  cases h with
  | waiting h =>
    have hle := h.2
    rw [← hs, List.length_append] at hle
    omega
  | unreadable h => exact ⟨rfl, rfl, rfl⟩
  | chunked hh => exact absurd hs.symm (hhead hh)
  | bodiless hh => exact absurd hs.symm (hhead hh)
  | sized hh => exact absurd hs.symm (hhead hh)

/-- A stream whose first head ends inside the buffered part. -/
theorem IsRequestHead.split {head rest buf more : Bytes} {isHead : Bool} {headers : Headers}
    {hend : ℕ} (h : IsRequestHead head isHead headers) (hs : head ++ rest = buf ++ more)
    (he : findHeaderEnd buf = some hend) :
    head = buf.take hend ∧ rest = buf.drop hend ++ more := by
  have hle := (findHeaderEnd_le he).2
  have hend' := findHeaderEnd_append rest h.ends
  rw [hs, findHeaderEnd_append more he] at hend'
  have hlen : head.length = hend := (Option.some.inj hend').symm
  rw [← List.take_append_drop hend buf, List.append_assoc] at hs
  exact List.append_inj hs (by rw [hlen, List.length_take, Nat.min_eq_left hle])

theorem IsRequestHead.taken {head rest buf more : Bytes} {isHead : Bool} {headers : Headers}
    {hend : ℕ} (h : IsRequestHead head isHead headers) (hs : head ++ rest = buf ++ more)
    (he : findHeaderEnd buf = some hend) :
    ∃ method, Rewriter.requestHead (buf.take (hend - 4)) = some (method, headers) ∧
      method.eqIgnoreAsciiCase (Str.lit "HEAD") = isHead := by
  have hle := (findHeaderEnd_le he).2
  obtain ⟨rfl, -⟩ := h.split hs he
  have hfields : fieldsOf (buf.take hend) = buf.take (hend - 4) := by
    rw [fieldsOf, List.length_take, Nat.min_eq_left hle, List.take_take, Nat.min_eq_left (by omega)]
  have hreads := h.reads
  rwa [hfields] at hreads

/-- A head that does not parse is where the reading ends. -/
theorem Requests.unparsed {buf more written kept : Bytes} {heads : List Bool} {hend : ℕ}
    (h : Requests .head (buf ++ more) written kept heads) (he : findHeaderEnd buf = some hend)
    (hh : Rewriter.requestHead (buf.take (hend - 4)) = none) :
    written = buf ++ more ∧ kept = [] ∧ heads = [] := by
  have hstream := findHeaderEnd_append more he
  have hhead : ∀ {head rest isHead headers}, IsRequestHead head isHead headers →
      head ++ rest ≠ buf ++ more := by
    intro head rest isHead headers hhead hs
    obtain ⟨method, hm, -⟩ := hhead.taken hs he
    rw [hh] at hm
    cases hm
  generalize hs : buf ++ more = stream at h
  cases h with
  | waiting h =>
    rw [← hs, Undecided, hstream] at h
    cases h.1
  | unreadable h => exact ⟨rfl, rfl, rfl⟩
  | chunked hhead' => exact absurd hs.symm (hhead hhead')
  | bodiless hhead' => exact absurd hs.symm (hhead hhead')
  | sized hhead' => exact absurd hs.symm (hhead hhead')

/-- A head that may still be completed is all there is. -/
theorem Requests.undecided {buf written kept : Bytes} {heads : List Bool}
    (h : Requests .head buf written kept heads) (hu : Undecided buf) :
    written = [] ∧ buf = kept ∧ heads = [] := by
  have hhead : ∀ {head rest isHead headers}, IsRequestHead head isHead headers →
      head ++ rest ≠ buf := by
    rintro head rest isHead headers hhead rfl
    have hend := findHeaderEnd_append rest hhead.ends
    rw [hu.1] at hend
    cases hend
  generalize hs : buf = stream at h
  cases h with
  | waiting h => exact ⟨rfl, rfl, rfl⟩
  | unreadable h =>
    rw [← hs] at h
    rcases h with ⟨hend, he, -⟩ | ⟨-, hlt⟩
    · rw [hu.1] at he
      cases he
    · exact absurd hu.2 (Nat.not_le.mpr hlt)
  | chunked hh => exact absurd hs.symm (hhead hh)
  | bodiless hh => exact absurd hs.symm (hhead hh)
  | sized hh => exact absurd hs.symm (hhead hh)

/-- Every stream is one of requests as far as its heads fit. -/
theorem Requests.total (stream : Bytes) :
    (∃ written kept heads, Requests .head stream written kept heads) ∨
      ∃ before after hend, stream = before ++ after ∧ findHeaderEnd after = some hend ∧
        maxHeaderBytes < hend := by
  induction hlen : stream.length using Nat.strongRecOn generalizing stream with
  | ind len ih =>
    cases he : findHeaderEnd stream with
    | none =>
      left
      by_cases hlt : maxHeaderBytes < stream.length
      · exact ⟨_, _, _, .unreadable (Or.inr ⟨he, hlt⟩)⟩
      · exact ⟨_, _, _, .waiting ⟨he, Nat.not_lt.mp hlt⟩⟩
    | some hend =>
      obtain ⟨hfour, hle⟩ := findHeaderEnd_le he
      cases hh : Rewriter.requestHead (stream.take (hend - 4)) with
      | none => exact Or.inl ⟨_, _, _, .unreadable (Or.inl ⟨hend, he, hh⟩)⟩
      | some r =>
        obtain ⟨method, headers⟩ := r
        by_cases hfit : maxHeaderBytes < hend
        · exact Or.inr ⟨[], stream, hend, rfl, he, hfit⟩
        · have hlength : (stream.take hend).length = hend := by
            rw [List.length_take, Nat.min_eq_left hle]
          have hends : findHeaderEnd (stream.take hend) = some (stream.take hend).length := by
            rw [findHeaderEnd_take he, hlength]
          have hfields : fieldsOf (stream.take hend) = stream.take (hend - 4) := by
            rw [fieldsOf, hlength, List.take_take, Nat.min_eq_left (by omega)]
          have hhead : IsRequestHead (stream.take hend)
              (method.eqIgnoreAsciiCase (Str.lit "HEAD")) headers :=
            ⟨hends, by omega, method, by rw [hfields]; exact hh, rfl⟩
          have htext : AsksIdentity (stream.take hend) (editRequestHead (stream.take hend)) :=
            (asksIdentity_iff hends hhead.fields_ne_nil).mpr rfl
          have hsplit : stream.take hend ++ stream.drop hend = stream :=
            List.take_append_drop ..
          have hdrop : (stream.drop hend).length < len := by
            rw [List.length_drop]
            omega
          cases hf : requestFraming headers with
          | none =>
            rcases ih _ hdrop _ rfl with ⟨w, k, hs, hrest⟩ | ⟨before, after, n, hs, hn⟩
            · left
              rw [← hsplit]
              exact ⟨_, _, _, .bodiless hhead htext hf hrest⟩
            · right
              refine ⟨stream.take hend ++ before, after, n, ?_, hn⟩
              rw [List.append_assoc, ← hs, hsplit]
          | some framing =>
            rcases requestFraming_framed hf with ⟨reader, rfl⟩ | ⟨n, rfl⟩
            · left
              rw [← hsplit]
              exact ⟨_, _, _, .chunked hhead htext hf⟩
            · by_cases hn : (stream.drop hend).length < n
              · left
                rw [← hsplit]
                exact ⟨_, _, _, .sized hhead htext hf (.part hn)⟩
              · have hbody : ((stream.drop hend).take n).length = n := by
                  rw [List.length_take]
                  omega
                have hcut : (stream.drop hend).take n ++ (stream.drop hend).drop n =
                    stream.drop hend := List.take_append_drop ..
                have hless : ((stream.drop hend).drop n).length < len := by
                  rw [List.length_drop]
                  omega
                rcases ih _ hless _ rfl with ⟨w, k, hs, hrest⟩ | ⟨before, after, m, hs, hm⟩
                · left
                  rw [← hsplit, ← hcut]
                  exact ⟨_, _, _, .sized hhead htext hf (.body hbody hrest)⟩
                · right
                  refine ⟨stream.take hend ++ ((stream.drop hend).take n ++ before), after, m, ?_,
                    hm⟩
                  rw [List.append_assoc, List.append_assoc, ← hs, hcut, hsplit]

end Heads

namespace Rewriter

/-- What the rewriter stands for when `more` is still to come. -/
def Ahead (rw : Rewriter) (more written kept : Bytes) (heads : List Bool) : Prop :=
  if rw.disabled then rw.reqBuf = [] ∧ written = more ∧ kept = [] ∧ heads = []
  else Requests rw.req (rw.reqBuf ++ more) written kept heads

/-- All that an iteration of the request loop can do. -/
inductive RequestStep (rw : Rewriter) : (out : Bytes) → Rewriter → Prop
  | unreadable (hreq : rw.req = .head) (h : Unreadable rw.reqBuf) :
      RequestStep rw rw.reqBuf { rw with disabled := true, reqBuf := [] }
  | bodiless {hend : ℕ} {method : Str} {headers : Headers} (hreq : rw.req = .head)
      (he : findHeaderEnd rw.reqBuf = some hend)
      (hh : requestHead (rw.reqBuf.take (hend - 4)) = some (method, headers))
      (hf : requestFraming headers = none) :
      RequestStep rw (editRequestHead (rw.reqBuf.take hend))
        { rw with
          pendingHead := rw.pendingHead ++ [method.eqIgnoreAsciiCase (Str.lit "HEAD")]
          reqBuf := rw.reqBuf.drop hend }
  | sized {hend n : ℕ} {method : Str} {headers : Headers} (hreq : rw.req = .head)
      (he : findHeaderEnd rw.reqBuf = some hend)
      (hh : requestHead (rw.reqBuf.take (hend - 4)) = some (method, headers))
      (hf : requestFraming headers = some (.length n)) :
      RequestStep rw (editRequestHead (rw.reqBuf.take hend))
        { rw with
          pendingHead := rw.pendingHead ++ [method.eqIgnoreAsciiCase (Str.lit "HEAD")]
          reqBuf := rw.reqBuf.drop hend
          req := .body n }
  | chunked {hend : ℕ} {method : Str} {headers : Headers} {reader : ChunkReader}
      (hreq : rw.req = .head) (he : findHeaderEnd rw.reqBuf = some hend)
      (hh : requestHead (rw.reqBuf.take (hend - 4)) = some (method, headers))
      (hf : requestFraming headers = some (.chunked reader)) :
      RequestStep rw (editRequestHead (rw.reqBuf.take hend) ++ rw.reqBuf.drop hend)
        { rw with
          pendingHead := rw.pendingHead ++ [method.eqIgnoreAsciiCase (Str.lit "HEAD")]
          disabled := true
          reqBuf := [] }
  | body {n : ℕ} (hreq : rw.req = .body n) (hle : n ≤ rw.reqBuf.length) :
      RequestStep rw (rw.reqBuf.take n) { rw with reqBuf := rw.reqBuf.drop n, req := .head }
  | part {n : ℕ} (hreq : rw.req = .body n) (hlt : rw.reqBuf.length < n) :
      RequestStep rw rw.reqBuf { rw with reqBuf := [], req := .body (n - rw.reqBuf.length) }

theorem stepRequest_cases {rw rw' : Rewriter} {o : Bytes} (h : rw.stepRequest = some (o, rw')) :
    rw.disabled = false ∧ RequestStep rw o rw' := by
  unfold stepRequest at h
  cases hd : rw.disabled with
  | true => simp [hd] at h
  | false =>
    refine ⟨rfl, ?_⟩
    simp only [hd, Bool.false_eq_true, if_false] at h
    split at h
    · next hreq =>
      split at h
      · next he =>
        split_ifs at h with hlt
        obtain ⟨rfl, rfl⟩ := Prod.mk.inj (Option.some.inj h)
        exact .unreadable hreq (Or.inr ⟨he, hlt⟩)
      · next hend he =>
        split at h
        · next hh =>
          obtain ⟨rfl, rfl⟩ := Prod.mk.inj (Option.some.inj h)
          exact .unreadable hreq (Or.inl ⟨hend, he, hh⟩)
        · next method headers hh =>
          split at h
          · next hf =>
            obtain ⟨rfl, rfl⟩ := Prod.mk.inj (Option.some.inj h)
            rw [← hd]
            exact .bodiless hreq he hh hf
          · next n hf =>
            obtain ⟨rfl, rfl⟩ := Prod.mk.inj (Option.some.inj h)
            rw [← hd]
            exact .sized hreq he hh hf
          · next framing hne hf =>
            obtain ⟨rfl, rfl⟩ := Prod.mk.inj (Option.some.inj h)
            rcases requestFraming_framed hf with ⟨reader, rfl⟩ | ⟨n, rfl⟩
            · exact .chunked hreq he hh hf
            · exact absurd rfl (hne n)
    · next n hreq =>
      split_ifs at h with h0 ht
      · obtain ⟨rfl, rfl⟩ := Prod.mk.inj (Option.some.inj h)
        have hle : n ≤ rw.reqBuf.length := by omega
        rw [Nat.min_eq_left hle, ← hd]
        exact .body hreq hle
      · obtain ⟨rfl, rfl⟩ := Prod.mk.inj (Option.some.inj h)
        have hlt : rw.reqBuf.length < n := by omega
        rw [Nat.min_eq_right (Nat.le_of_lt hlt), List.take_length, List.drop_length, ← hd]
        exact .part hreq hlt

/-- What the request side is left in: copying, in a head that may still be completed, or in a body
with nothing to forward. -/
def Rests (rw : Rewriter) : Prop :=
  rw.disabled = true ∨ (rw.req = .head ∧ Undecided rw.reqBuf) ∨
    ∃ n, rw.req = .body n ∧ 0 < n ∧ rw.reqBuf = []

theorem rests_of_none {rw : Rewriter} (h : rw.stepRequest = none) : rw.Rests := by
  unfold stepRequest at h
  cases hd : rw.disabled with
  | true => exact Or.inl hd
  | false =>
    right
    simp only [hd, Bool.false_eq_true, if_false] at h
    split at h
    · next hreq =>
      left
      split at h
      · next he =>
        split_ifs at h with hlt
        exact ⟨hreq, he, Nat.not_lt.mp hlt⟩
      · split at h
        · cases h
        · split at h <;> cases h
    · next n hreq =>
      right
      split_ifs at h with h0 ht
      refine ⟨n, hreq, by omega, ?_⟩
      exact List.eq_nil_of_length_eq_zero (by omega)

section Ahead

variable {rw rw' : Rewriter} {o more written kept : Bytes} {heads : List Bool}

/-- What is written next, and which requests are read with it. -/
def Advances (rw rw' : Rewriter) (out more written kept : Bytes) (heads : List Bool) : Prop :=
  ∃ written' pushed heads', written = out ++ written' ∧ heads = pushed ++ heads' ∧
    rw'.pendingHead = rw.pendingHead ++ pushed ∧ rw'.Ahead more written' kept heads'

theorem ahead_disabled (hd : rw.disabled = true) (hb : rw.reqBuf = []) (more : Bytes) :
    rw.Ahead more more [] [] := by
  rw [Ahead, if_pos hd]
  exact ⟨hb, rfl, rfl, rfl⟩

theorem ahead_enabled (hd : rw.disabled = false) :
    rw.Ahead more written kept heads ↔ Requests rw.req (rw.reqBuf ++ more) written kept heads := by
  rw [Ahead, if_neg (by simp [hd])]

theorem Ahead.of (h : Requests rw.req (rw.reqBuf ++ more) written kept heads)
    (hd : rw.disabled = false) : rw.Ahead more written kept heads := (ahead_enabled hd).mpr h

/-- The head that the loop takes off its buffer is the one the stream goes on with. -/
private theorem Requests.taken {buf : Bytes} {hend : ℕ} {method : Str} {headers : Headers}
    (h : Requests .head (buf ++ more) written kept heads) (he : findHeaderEnd buf = some hend)
    (hh : requestHead (buf.take (hend - 4)) = some (method, headers)) :
    ∃ written' heads', written = editRequestHead (buf.take hend) ++ written' ∧
      heads = method.eqIgnoreAsciiCase (Str.lit "HEAD") :: heads' ∧
      ((requestFraming headers = none ∧
          Requests .head (buf.drop hend ++ more) written' kept heads') ∨
        (∃ n, requestFraming headers = some (.length n) ∧
          Requests (.body n) (buf.drop hend ++ more) written' kept heads') ∨
        ((∃ reader, requestFraming headers = some (.chunked reader)) ∧
          written' = buf.drop hend ++ more ∧ kept = [] ∧ heads' = [])) := by
  have hle := (findHeaderEnd_le he).2
  have hstream := findHeaderEnd_append more he
  have hsame : ∀ {head text rest isHead headers'}, IsRequestHead head isHead headers' →
      AsksIdentity head text → head ++ rest = buf ++ more →
      text = editRequestHead (buf.take hend) ∧ rest = buf.drop hend ++ more ∧
        headers' = headers ∧ isHead = method.eqIgnoreAsciiCase (Str.lit "HEAD") := by
    intro head text rest isHead headers' hhead htext hs
    obtain ⟨method', hm, hflag⟩ := hhead.taken hs he
    obtain ⟨rfl, hrest⟩ := hhead.split hs he
    rw [hh] at hm
    obtain ⟨rfl, rfl⟩ := Prod.mk.inj (Option.some.inj hm)
    exact ⟨(hhead.edited htext).symm, hrest, rfl, hflag.symm⟩
  generalize hs : buf ++ more = stream at h
  cases h with
  | waiting h =>
    rw [← hs, Undecided, hstream] at h
    cases h.1
  | unreadable h =>
    rw [← hs, Unreadable, hstream] at h
    rcases h with ⟨n, hn, hnone⟩ | ⟨hn, -⟩
    · obtain rfl := Option.some.inj hn
      rw [List.take_append_of_le_length (by omega), hh] at hnone
      cases hnone
    · cases hn
  | chunked hhead htext hf =>
    obtain ⟨rfl, rfl, rfl, rfl⟩ := hsame hhead htext hs.symm
    exact ⟨_, [], rfl, rfl, Or.inr (Or.inr ⟨⟨_, hf⟩, rfl, rfl, rfl⟩)⟩
  | bodiless hhead htext hf hrest =>
    obtain ⟨rfl, rfl, rfl, rfl⟩ := hsame hhead htext hs.symm
    exact ⟨_, _, rfl, rfl, Or.inl ⟨hf, hrest⟩⟩
  | sized hhead htext hf hrest =>
    obtain ⟨rfl, rfl, rfl, rfl⟩ := hsame hhead htext hs.symm
    exact ⟨_, _, rfl, rfl, Or.inr (Or.inl ⟨_, hf, hrest⟩)⟩

theorem Ahead.step (h : rw.Ahead more written kept heads) (hs : rw.stepRequest = some (o, rw')) :
    Advances rw rw' o more written kept heads := by
  obtain ⟨hd, hstep⟩ := stepRequest_cases hs
  rw [ahead_enabled hd] at h
  cases hstep with
  | unreadable hreq hu =>
    rw [hreq] at h
    have hall : written = rw.reqBuf ++ more ∧ kept = [] ∧ heads = [] := by
      rcases hu with ⟨hend, he, hh⟩ | ⟨he, hlt⟩
      · exact h.unparsed he hh
      · exact h.oversized he hlt
    obtain ⟨rfl, rfl, rfl⟩ := hall
    exact ⟨more, [], [], rfl, rfl, (List.append_nil _).symm, ahead_disabled rfl rfl more⟩
  | @bodiless hend method headers hreq he hh hf =>
    rw [hreq] at h
    obtain ⟨written', heads', rfl, rfl, hnext⟩ := Requests.taken h he hh
    refine ⟨written', [_], heads', rfl, rfl, rfl, .of ?_ hd⟩
    rcases hnext with ⟨-, hrest⟩ | ⟨n, hn, -⟩ | ⟨⟨reader, hc⟩, -⟩
    · rw [hreq]
      exact hrest
    · rw [hf] at hn
      cases hn
    · rw [hf] at hc
      cases hc
  | @sized hend n method headers hreq he hh hf =>
    rw [hreq] at h
    obtain ⟨written', heads', rfl, rfl, hnext⟩ := Requests.taken h he hh
    refine ⟨written', [_], heads', rfl, rfl, rfl, .of ?_ hd⟩
    rcases hnext with ⟨hn, -⟩ | ⟨n', hn, hrest⟩ | ⟨⟨reader, hc⟩, -⟩
    · rw [hf] at hn
      cases hn
    · rw [hf] at hn
      cases hn
      exact hrest
    · rw [hf] at hc
      cases hc
  | @chunked hend method headers reader hreq he hh hf =>
    rw [hreq] at h
    obtain ⟨written', heads', rfl, rfl, hnext⟩ := Requests.taken h he hh
    rcases hnext with ⟨hn, -⟩ | ⟨n', hn, -⟩ | ⟨-, rfl, rfl, rfl⟩
    · rw [hf] at hn
      cases hn
    · rw [hf] at hn
      cases hn
    · refine ⟨more, [_], [], ?_, rfl, rfl, ahead_disabled rfl rfl more⟩
      rw [List.append_assoc]
  | @body n hreq hle =>
    rw [hreq] at h
    generalize hstream : rw.reqBuf ++ more = stream at h
    cases h with
    | part hlt =>
      rw [← hstream, List.length_append] at hlt
      omega
    | @body _ body rest _ _ _ hn hrest =>
      rw [← List.take_append_drop n rw.reqBuf, List.append_assoc] at hstream
      obtain ⟨rfl, rfl⟩ := List.append_inj hstream (by
        rw [hn, List.length_take, Nat.min_eq_left hle])
      exact ⟨_, [], _, rfl, rfl, (List.append_nil _).symm, .of hrest hd⟩
  | @part n hreq hlt =>
    rw [hreq] at h
    generalize hstream : rw.reqBuf ++ more = stream at h
    cases h with
    | part hshort =>
      subst hstream
      refine ⟨more, [], [], rfl, rfl, (List.append_nil _).symm, .of (.part ?_) hd⟩
      rw [List.length_append] at hshort
      rw [List.nil_append]
      omega
    | @body _ body rest written' _ _ hn hrest =>
      have hlong : rw.reqBuf.length ≤ body.length := by omega
      obtain ⟨more', rfl⟩ : rw.reqBuf <+: body :=
        List.prefix_of_prefix_length_le ⟨more, hstream⟩ (List.prefix_append _ _) hlong
      rw [List.append_assoc] at hstream
      obtain rfl := List.append_cancel_left hstream
      rw [List.length_append] at hn
      have hrest' : Requests (.body (n - rw.reqBuf.length)) (more' ++ rest) (more' ++ written') kept
          heads := .body (by omega) hrest
      exact ⟨more' ++ written', [], _, by rw [List.append_assoc], rfl, (List.append_nil _).symm,
        .of hrest' hd⟩

theorem Ahead.run (h : rw.Ahead more written kept heads) :
    Advances rw (requestFeeder.run rw).2 (requestFeeder.run rw).1 more written kept heads := by
  refine requestFeeder.run_induction (P := fun rw r => ∀ written heads,
    rw.Ahead more written kept heads → Advances rw r.2 r.1 more written kept heads) rw ?_ ?_ _ _ h
  · intro rw _ written heads h
    exact ⟨written, [], heads, rfl, rfl, (List.append_nil _).symm, h⟩
  · intro rw o rw' hs ih written heads h
    obtain ⟨written₁, pushed₁, heads₁, rfl, rfl, hp₁, h₁⟩ := h.step hs
    obtain ⟨written₂, pushed₂, heads₂, rfl, rfl, hp₂, h₂⟩ := ih _ _ h₁
    refine ⟨written₂, pushed₁ ++ pushed₂, heads₂, ?_, ?_, ?_, h₂⟩
    · rw [List.append_assoc]
    · rw [List.append_assoc]
    · rw [hp₂, hp₁, List.append_assoc]

theorem Ahead.feed {data : Bytes} (hact : rw.active = true)
    (h : rw.Ahead (data ++ more) written kept heads) :
    Advances rw (rw.feedRequest data).2 (rw.feedRequest data).1 more written kept heads := by
  cases hd : rw.disabled with
  | true =>
    rw [Ahead, if_pos hd] at h
    obtain ⟨hb, rfl, rfl, rfl⟩ := h
    have hfeed : rw.feedRequest data = (data, { rw with reqBuf := [] }) := by
      simp [feedRequest, hd, hb]
    rw [hfeed]
    refine ⟨more, [], [], rfl, rfl, (List.append_nil _).symm, ?_⟩
    exact @ahead_disabled { rw with reqBuf := [] } hd rfl more
  | false =>
    rw [feedRequest_running hact hd]
    rw [ahead_enabled hd, ← List.append_assoc] at h
    exact @Ahead.run { rw with reqBuf := rw.reqBuf ++ data } _ _ _ _ (.of h hd)

theorem feedRequest_rests (data : Bytes) (hact : rw.active = true) :
    (rw.feedRequest data).2.Rests := by
  cases hd : rw.disabled with
  | true =>
    left
    simp [feedRequest, hd]
  | false =>
    rw [feedRequest_running hact hd]
    exact rests_of_none (requestFeeder.run_halts _)

/-- Nothing is left to write once the request side rests and nothing is to come. -/
theorem Ahead.done (h : rw.Ahead [] written kept heads) (hr : rw.Rests) :
    written = [] ∧ rw.reqBuf = kept ∧ heads = [] := by
  cases hd : rw.disabled with
  | true =>
    rw [Ahead, if_pos hd] at h
    obtain ⟨hb, rfl, rfl, rfl⟩ := h
    exact ⟨rfl, hb, rfl⟩
  | false =>
    rw [ahead_enabled hd, List.append_nil] at h
    rcases hr with hr | ⟨hreq, hu⟩ | ⟨n, hreq, hpos, hb⟩
    · rw [hd] at hr
      cases hr
    · rw [hreq] at h
      exact h.undecided hu
    · rw [hreq, hb] at h
      generalize hstream : ([] : Bytes) = stream at h
      cases h with
      | part =>
        subst hstream
        exact ⟨rfl, hb, rfl⟩
      | body hn hrest =>
        obtain ⟨rfl, -⟩ := List.append_eq_nil_iff.mp hstream.symm
        subst hn
        exact absurd hpos (Nat.lt_irrefl 0)

end Ahead

end Rewriter

end Adwarden.Tls
