import Adwarden.Tls.HeadAgree
import Adwarden.Tls.RewriterLedger

/-! The length declared by the head of an injected response. -/
namespace Adwarden.Tls
open Adwarden.Lib

/-- What the parser reads of a line as the editor leaves it. -/
def keptHeaders (o : Bytes × Fate) : Headers := if o.2 = .kept then lineHeaders o.1 else []

/-- What the parser reads before the first line whose length is rewritten. -/
def seenHeaders (first : Bytes) (fs : List (Bytes × Fate)) : Headers :=
  (splitOn LF first).tail.flatMap pieceHeaders ++
    (fs.takeWhile (·.2 != .relength)).flatMap keptHeaders

/-- A length rewritten to `m` is the one the parser reads: it meets no other before. -/
def LengthSeen (head : Bytes) (m : ℕ) : Prop :=
  ∃ first lines, crlfLines (fieldsOf head) = first :: lines ∧
    let fs := fates responseFate false lines
    if (seenHeaders first fs).any (named "content-length") then
      contentLength (seenHeaders first fs) = some m
    else ∃ o ∈ fs, o.2 = .relength

/-- The length a response head declares to its parser. -/
def declaredLength (head : Bytes) : Option ℕ :=
  (Rewriter.responseHead (fieldsOf head)).bind fun h => contentLength h.2

namespace Rewriter

/-- The states of a rewriter provisioned with `css` and `js`, between the iterations of its loops. -/
inductive Reached (p : Profile) (css js : Str) : Rewriter → Prop
  | start : Reached p css js (({} : Rewriter).setCosmetic css js)
  | request {rw : Rewriter} (h : Reached p css js rw) (data : Bytes) :
      Reached p css js (rw.feedRequest data).2
  | arrive {rw : Rewriter} (h : Reached p css js rw) (data : Bytes) :
      Reached p css js { rw with respBuf := rw.respBuf ++ data }
  | step {rw : Rewriter} {it : RespIter} (h : Reached p css js rw)
      (hs : rw.stepResponse p = .ok it) : Reached p css js it.rw

/-- The next iteration finds the anchor. -/
def FindsAnchor (rw : Rewriter) (bs : BodyScan) : Prop :=
  let pulled := pullBody bs.body rw.respBuf
  pulled.step ≠ .error ∧
    ∃ a, decideAnchor (bs.scan ++ pulled.bytes) (bs.bodyDone || pulled.step == .done) =
      some (some a)

/-- The next iteration does not panic, and the head it writes declares the sum. -/
def DeclaresSum (p : Profile) (rw : Rewriter) (bs : BodyScan) (cl : ℕ) : Prop :=
  ∃ it text rest, rw.stepResponse p = .ok it ∧ it.emits = .head bs.origHead text :: rest ∧
    declaredLength text = some (cl + rw.blob.length)

/-- The head of a response that is held is one to be injected into. -/
structure HoldsHead (bs : BodyScan) : Prop where
  head : findHeaderEnd bs.origHead = some bs.origHead.length
  parsed : ∃ status headers, responseHead (fieldsOf bs.origHead) = some (status, headers) ∧
    injectable status headers = true ∧ bs.clOriginal = contentLength headers

end Rewriter

section Seen

variable {fs : List (Bytes × Fate)} {m : ℕ}

theorem writtenHeaders_kept {o : Bytes × Fate} (h : o.2 ≠ .relength) :
    writtenHeaders m o = keptHeaders o := by
  obtain ⟨line, fate⟩ := o
  cases fate with
  | kept => rfl
  | dropped => rfl
  | relength => exact absurd rfl h

theorem contentLength_relengthed_iff (h : Relengthable fs) (hm : m < usizeSize) (first : Bytes) :
    contentLength ((splitOn LF first).tail.flatMap pieceHeaders ++
        fs.flatMap (writtenHeaders m)) = some m ↔
      if (seenHeaders first fs).any (named "content-length") then
        contentLength (seenHeaders first fs) = some m
      else ∃ o ∈ fs, o.2 = .relength := by
  have hsplit : (splitOn LF first).tail.flatMap pieceHeaders ++ fs.flatMap (writtenHeaders m) =
      seenHeaders first fs ++
        (fs.dropWhile (·.2 != .relength)).flatMap (writtenHeaders m) := by
    have hseen : (fs.takeWhile (·.2 != .relength)).flatMap (writtenHeaders m) =
        (fs.takeWhile (·.2 != .relength)).flatMap keptHeaders := by
      apply List.flatMap_congr
      intro o ho
      exact writtenHeaders_kept (by simpa using List.mem_takeWhile_imp ho)
    rw [seenHeaders, ← hseen, List.append_assoc, ← List.flatMap_append,
      List.takeWhile_append_dropWhile]
  rw [hsplit, contentLength_append]
  split_ifs with hany
  · rfl
  · cases hd : fs.dropWhile (·.2 != .relength) with
    | nil =>
      rw [List.dropWhile_eq_nil_iff] at hd
      constructor
      · intro hcl
        cases hcl
      · rintro ⟨o, ho, hfate⟩
        exact absurd hfate (by simpa using hd o ho)
    | cons o back =>
      have hmem : o ∈ fs := (List.dropWhile_suffix _).subset (hd ▸ List.mem_cons_self ..)
      have hfate : o.2 = .relength := by
        have hhead := List.head_dropWhile_not (p := (·.2 != .relength)) (l := fs)
        simp [hd] at hhead
        exact hhead
      obtain ⟨name, hw, hn⟩ := h.written m hmem hfate
      have hfind : ((name, Str.ofNat m) :: back.flatMap (writtenHeaders m)).find?
          (named "content-length") = some (name, Str.ofNat m) := by simp [hn]
      rw [List.flatMap_cons, hw]
      constructor
      · exact fun _ => ⟨o, hmem, hfate⟩
      · intro _
        show (((_ :: back.flatMap (writtenHeaders m)).find? (named "content-length")).map
          (·.2)).bind _ = some m
        rw [hfind]
        exact Str.parseUsize_ofNat hm

end Seen

/-- A head declares the length it was edited to exactly when that length is the one seen. -/
theorem declaredLength_edited_iff {head : Bytes} {status : ℕ} {headers : Headers} {cl m : ℕ}
    (hend : findHeaderEnd head = some head.length)
    (hparse : Rewriter.responseHead (fieldsOf head) = some (status, headers))
    (hcl : contentLength headers = some cl) (hm : m < usizeSize) :
    declaredLength (editResponseHead head (some m)) = some m ↔ LengthSeen head m := by
  simp only [Rewriter.responseHead, Option.bind_eq_bind, Option.bind_eq_some_iff] at hparse
  obtain ⟨⟨start, fields⟩, hfields, ⟨version, code, reason⟩, hstatus, heq⟩ := hparse
  obtain ⟨rfl, rfl⟩ := Prod.mk.inj (Option.some.inj heq)
  cases hlines : crlfLines (fieldsOf head) with
  | nil =>
    exfalso
    have hne : fieldsOf head ≠ [] := by
      intro hnil
      rw [hnil] at hfields
      have hempty : parseHeadFields [] = some ([], []) := by decide
      obtain ⟨-, rfl⟩ := Prod.mk.inj (Option.some.inj (hempty.symm.trans hfields))
      cases hcl
    obtain ⟨first, lines, hsome, -⟩ := crlfLines_head hend hne
    rw [hlines] at hsome
    cases hsome
  | cons first lines =>
    obtain ⟨hrelength, start', hparse', hstart⟩ := parse_relengthed hend hfields hlines m
    have hseen : LengthSeen head m ↔ contentLength ((splitOn LF first).tail.flatMap pieceHeaders ++
        (fates responseFate false lines).flatMap (writtenHeaders m)) = some m := by
      rw [contentLength_relengthed_iff hrelength hm first, LengthSeen, hlines]
      constructor
      · rintro ⟨_, _, heq, h⟩
        obtain ⟨rfl, rfl⟩ := List.cons.inj heq
        exact h
      · exact fun h => ⟨first, lines, rfl, h⟩
    rw [hseen, declaredLength, Rewriter.responseHead, hparse']
    generalize (splitOn LF first).tail.flatMap pieceHeaders ++
      (fates responseFate false lines).flatMap (writtenHeaders m) = written at hstart ⊢
    simp only [Option.bind_eq_bind, Option.bind_some]
    constructor
    · intro h
      obtain ⟨⟨status', headers'⟩, hhead, hlength⟩ := Option.bind_eq_some_iff.mp h
      obtain ⟨_, -, heq⟩ := Option.bind_eq_some_iff.mp hhead
      obtain ⟨-, rfl⟩ := Prod.mk.inj (Option.some.inj heq)
      exact hlength
    · intro h
      have hne : written ≠ [] := by
        rintro rfl
        cases h
      rw [hstart hne, hstatus]
      exact h

theorem declaredLength_lt {head : Bytes} {n : ℕ} (h : declaredLength head = some n) :
    n < usizeSize := by
  obtain ⟨_, -, hlength⟩ := Option.bind_eq_some_iff.mp h
  exact contentLength_lt hlength

namespace Rewriter

variable {p : Profile} {rw : Rewriter} {bs : BodyScan} {cl : ℕ}

/-- The head of an injected response is edited to the sum as the machine has it. -/
theorem declaresSum_iff_edited (hbuf : rw.resp = .buffer bs) (hcl : bs.clOriginal = some cl)
    (hfound : FindsAnchor rw bs) :
    DeclaresSum p rw bs cl ↔ ∃ n, usizeAdd p cl rw.blob.length = .ok n ∧
      declaredLength (editResponseHead bs.origHead (some n)) = some (cl + rw.blob.length) := by
  obtain ⟨hstep, a, ha⟩ := hfound
  have hiter : rw.stepResponse p = ({ rw with resp := .head } : Rewriter).stepResponseBuffer p bs := by
    simp only [stepResponse, hbuf]
  rw [DeclaresSum, hiter, stepResponseBuffer]
  simp only [hstep, if_false, ha, hcl]
  cases hadd : usizeAdd p cl rw.blob.length with
  | error e => simp [Except.map]
  | ok n =>
    simp only [Except.map, Except.ok_bind, Except.ok.injEq]
    constructor
    · rintro ⟨it, text, rest, rfl, hemits, hlength⟩
      obtain ⟨htext, -⟩ := List.cons.inj hemits
      obtain ⟨-, rfl⟩ := RespEmit.head.inj htext
      exact ⟨n, rfl, hlength⟩
    · rintro ⟨_, rfl, hlength⟩
      exact ⟨_, _, _, rfl, rfl, hlength⟩

/-- No head can declare a sum that does not fit. -/
theorem not_declaresSum (hbuf : rw.resp = .buffer bs) (hcl : bs.clOriginal = some cl)
    (hfound : FindsAnchor rw bs) (hbig : usizeSize ≤ cl + rw.blob.length) :
    ¬ DeclaresSum p rw bs cl := by
  rw [declaresSum_iff_edited hbuf hcl hfound]
  rintro ⟨n, -, hlength⟩
  exact Nat.not_lt.mpr hbig (declaredLength_lt hlength)

theorem HoldsHead.declaresSum_iff (h : HoldsHead bs) (hbuf : rw.resp = .buffer bs)
    (hcl : bs.clOriginal = some cl) (hfound : FindsAnchor rw bs) :
    DeclaresSum p rw bs cl ↔
      cl + rw.blob.length < usizeSize ∧ LengthSeen bs.origHead (cl + rw.blob.length) := by
  obtain ⟨status, headers, hparse, -, hlen⟩ := h.parsed
  rw [hlen] at hcl
  rcases Nat.lt_or_ge (cl + rw.blob.length) usizeSize with hlt | hge
  · rw [declaresSum_iff_edited hbuf (hlen.trans hcl) hfound,
      ← declaredLength_edited_iff h.head hparse hcl hlt, usizeAdd_of_lt hlt]
    constructor
    · rintro ⟨n, hn, hlength⟩
      obtain rfl := Except.ok.inj hn
      exact ⟨hlt, hlength⟩
    · exact fun hlength => ⟨_, rfl, hlength.2⟩
  · constructor
    · exact fun hsum => absurd hsum (not_declaresSum hbuf (hlen.trans hcl) hfound hge)
    · exact fun hsum => absurd hsum.1 (Nat.not_lt.mpr hge)

theorem afterScan_ne_buffer (kind : BodyKind) (bodyDone : Bool) (bs : BodyScan) :
    (afterScan kind bodyDone).2 ≠ .buffer bs := by
  unfold afterScan
  split <;> (try split_ifs) <;> simp

theorem stepResponseHead_holds (hr : rw.resp = .head)
    (hb : rw.stepResponseHead.rw.resp = .buffer bs) : HoldsHead bs := by
  generalize hit : rw.stepResponseHead = it at hb
  have hc := hit ▸ rw.stepResponseHead_cases
  cases hc with
  | wait | oversized | unparsed | interim | switch | bodiless => simp [disableFlushResp, hr] at hb
  | pass => simp at hb
  | @inject hend status headers framing he hh hf hi =>
    obtain rfl := RespState.buffer.inj hb
    have hlen : (rw.respBuf.take hend).length = hend := by
      rw [List.length_take, Nat.min_eq_left (findHeaderEnd_le he).2]
    refine ⟨by rw [hlen, findHeaderEnd_take he], status, headers, ?_, hi, rfl⟩
    rw [fieldsOf, hlen, List.take_take, Nat.min_eq_left (Nat.sub_le _ _), hh]

theorem stepResponse_holds {it : RespIter} (hs : rw.stepResponse p = .ok it)
    (hold : ∀ bs, rw.resp = .buffer bs → HoldsHead bs) (hb : it.rw.resp = .buffer bs) :
    HoldsHead bs := by
  unfold stepResponse at hs
  cases hr : rw.resp with
  | head =>
    simp only [hr] at hs
    obtain rfl := Except.ok.inj hs
    exact stepResponseHead_holds rfl hb
  | buffer held =>
    simp only [hr] at hs
    cases stepResponseBuffer_cases hs with
    | malformed => cases hb
    | wait =>
      obtain rfl := RespState.buffer.inj hb
      have h := hold held hr
      exact ⟨h.head, h.parsed⟩
    | inject | abandon => exact absurd hb (afterScan_ne_buffer _ _ _)
  | stream kind =>
    simp only [hr] at hs
    obtain rfl := Except.ok.inj hs
    unfold stepResponseStream at hb
    dsimp only at hb
    split at hb <;> simp at hb
  | pass kind =>
    simp only [hr] at hs
    obtain rfl := Except.ok.inj hs
    unfold stepResponsePass at hb
    dsimp only at hb
    split at hb <;> simp [disableFlushResp] at hb

theorem Reached.holds {css js : Str} (h : Reached p css js rw) (hb : rw.resp = .buffer bs) :
    HoldsHead bs := by
  induction h generalizing bs with
  | start =>
    unfold setCosmetic at hb
    split_ifs at hb
  | request h data ih => exact ih ((feedRequest_frame _ data).2.2.1 ▸ hb)
  | arrive h data ih => exact ih hb
  | step h hs ih => exact stepResponse_holds hs (fun _ hb => ih hb) hb

/-- The head of an injected response declares the grown length exactly when that length is a
`usize` and the parser reads the line in which it is written. -/
theorem length_rewritten_iff {css js : Str} (h : Reached p css js rw) (hbuf : rw.resp = .buffer bs)
    (hcl : bs.clOriginal = some cl) (hfound : FindsAnchor rw bs) :
    DeclaresSum p rw bs cl ↔
      cl + rw.blob.length < usizeSize ∧ LengthSeen bs.origHead (cl + rw.blob.length) :=
  (h.holds hbuf).declaresSum_iff hbuf hcl hfound

def declaringHead (cl : String) : Bytes :=
  ascii ("HTTP/1.1 200 OK\r\nContent-Type: text/html\r\nContent-Length: " ++ cl ++ "\r\n\r\n")

def heldScan (cl : String) : BodyScan where
  origHead := declaringHead cl
  body := .length ((Str.parseUsize (Str.lit cl)).getD 0)
  clOriginal := Str.parseUsize (Str.lit cl)

/-- A rewriter that holds the head of a response, with the start of the body in its buffer. -/
def holding (cl : String) : Rewriter :=
  { ({} : Rewriter).setCosmetic (Str.lit "p") [] with
    resp := .buffer (heldScan cl), respBuf := ascii "<head>" }

private theorem reached_holding {cl : String}
    (h : (({ ({} : Rewriter).setCosmetic (Str.lit "p") [] with
      respBuf := declaringHead cl } : Rewriter).stepResponseHead).rw =
        { holding cl with respBuf := [] }) :
    Reached p (Str.lit "p") [] (holding cl) := by
  have hhead : Reached p (Str.lit "p") [] { ({} : Rewriter).setCosmetic (Str.lit "p") [] with
      respBuf := declaringHead cl } := Reached.start.arrive (declaringHead cl)
  have hstep := hhead.step rfl
  have hheld : Reached p (Str.lit "p") [] { holding cl with respBuf := [] } := by
    rw [← h]
    exact hstep
  exact hheld.arrive (ascii "<head>")

theorem length_rewritten_six : DeclaresSum .debug (holding "6") (heldScan "6") 6 ↔
    6 + (holding "6").blob.length < usizeSize ∧
      LengthSeen (heldScan "6").origHead (6 + (holding "6").blob.length) :=
  length_rewritten_iff (reached_holding (by decide +kernel)) rfl (by decide)
    ⟨by decide, 6, by decide +kernel⟩

/-- A declared length near the top of `usize` overflows: a panic, or a head that declares less. -/
theorem length_sum_overflows :
    (Reached .debug (Str.lit "p") [] (holding "18446744073709551615") ∧
      ¬ DeclaresSum .debug (holding "18446744073709551615") (heldScan "18446744073709551615")
        usizeMax) ∧
    Reached .release (Str.lit "p") [] (holding "18446744073709551615") ∧
      ¬ DeclaresSum .release (holding "18446744073709551615") (heldScan "18446744073709551615")
        usizeMax := by
  have hreached : ∀ p, Reached p (Str.lit "p") [] (holding "18446744073709551615") :=
    fun p => reached_holding (by decide +kernel)
  have hfound : FindsAnchor (holding "18446744073709551615") (heldScan "18446744073709551615") :=
    ⟨by decide, 6, by decide +kernel⟩
  have hbig : usizeSize ≤ usizeMax + (holding "18446744073709551615").blob.length := by
    decide +kernel
  have hcl : (heldScan "18446744073709551615").clOriginal = some usizeMax := by decide +kernel
  exact ⟨⟨hreached _, not_declaresSum rfl hcl hfound hbig⟩, hreached _,
    not_declaresSum rfl hcl hfound hbig⟩

end Rewriter

end Adwarden.Tls
