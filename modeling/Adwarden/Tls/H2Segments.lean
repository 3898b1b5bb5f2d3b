import Adwarden.Tls.H2Trace

/-! HTTP/2 framing does not depend on how the input is cut: the frames, what they do and the header
blocks that reach the HPACK decoder are those of the whole stream. -/
namespace Adwarden.Tls
open Adwarden.Lib

/-- A decoder and an encoder seen through others with the same answers. -/
structure HpackMap (H K : Hpack) where
  decoder : H.Decoder → K.Decoder
  encoder : H.Encoder → K.Encoder
  decode : ∀ d block,
    K.decode (decoder d) block = (decoder (H.decode d block).1, (H.decode d block).2)
  newDecoder : decoder H.newDecoder = K.newDecoder
  newEncoder : encoder H.newEncoder = K.newEncoder

namespace Hpack

/-- The library with a record of the header blocks that its decoder was given. -/
def logged (H : Hpack) : Hpack where
  Decoder := H.Decoder × List Bytes
  Encoder := H.Encoder
  newDecoder := (H.newDecoder, [])
  newEncoder := H.newEncoder
  decode d block := (((H.decode d.1 block).1, d.2 ++ [block]), (H.decode d.1 block).2)
  encode := H.encode

def unlogged (H : Hpack) : HpackMap H.logged H where
  decoder := Prod.fst
  encoder := id
  decode _ _ := rfl
  newDecoder := rfl
  newEncoder := rfl

def same (H : Hpack) : HpackMap H H where
  decoder := id
  encoder := id
  decode _ _ := rfl
  newDecoder := rfl
  newEncoder := rfl

end Hpack

namespace H2Server

variable {H K : Hpack} {s s' t : H2Server H}

/-- The calls of `on_input` on a server. -/
def inputs (s : H2Server H) (pieces : List Bytes) : H2Server H := pieces.foldl onInput s

/-- The header blocks that the decoder was given in these calls. -/
def blocks (H : Hpack) (pieces : List Bytes) : List Bytes :=
  (({} : H2Server H.logged).inputs pieces).dec.2

/-- The server with another HPACK library and other unread input. -/
def image (m : HpackMap H K) (inbuf : Bytes) (prefaceSeen settingsSent : Bool) (s : H2Server H) :
    H2Server K where
  inbuf
  prefaceSeen
  settingsSent
  dec := m.decoder s.dec
  enc := m.encoder s.enc
  streams := s.streams
  continuation := s.continuation
  out := s.out
  ready := s.ready
  failed := s.failed

section Image

variable (m : HpackMap H K) (i : Bytes) (p q : Bool)

theorem image_same (s : H2Server H) :
    s.image H.same s.inbuf s.prefaceSeen s.settingsSent = s := rfl

theorem maybeDispatch_image (s : H2Server H) (id : UInt32) :
    (s.image m i p q).maybeDispatch id = (s.maybeDispatch id).image m i p q := by
  have hstreams : (s.image m i p q).streams = s.streams := rfl
  unfold maybeDispatch
  rw [hstreams]
  cases s.streams.lookup id with
  | none => rfl
  | some stream =>
    dsimp only
    split_ifs <;> rfl

theorem finishHeaders_image (s : H2Server H) (id : UInt32) :
    (s.image m i p q).finishHeaders id = (s.finishHeaders id).image m i p q := by
  have hstreams : (s.image m i p q).streams = s.streams := rfl
  unfold finishHeaders
  rw [hstreams]
  cases s.streams.lookup id with
  | none => rfl
  | some stream =>
    have hdec : (s.image m i p q).dec = m.decoder s.dec := rfl
    dsimp only
    rw [hdec, m.decode]
    rcases H.decode s.dec stream.headerBlock with ⟨dec, _ | headers⟩
    · rfl
    · exact maybeDispatch_image m i p q { s with
        dec, streams := _ } id

theorem onHeaders_image (s : H2Server H) (flags : UInt8) (id : UInt32) (payload : Bytes) :
    (s.image m i p q).onHeaders flags id payload =
      (s.onHeaders flags id payload).image m i p q := by
  have hstreams : (s.image m i p q).streams = s.streams := rfl
  unfold onHeaders
  rw [hstreams]
  by_cases h0 : id = 0
  · rw [if_pos h0, if_pos h0]
    rfl
  · rw [if_neg h0, if_neg h0]
    cases headersFragment flags payload with
    | none => rfl
    | some fragment =>
      dsimp only
      split_ifs
      · rfl
      · exact finishHeaders_image m i p q { s with streams := _ } id
      · rfl

theorem onContinuation_image (s : H2Server H) (flags : UInt8) (id : UInt32) (payload : Bytes) :
    (s.image m i p q).onContinuation flags id payload =
      (s.onContinuation flags id payload).image m i p q := by
  have hstreams : (s.image m i p q).streams = s.streams := rfl
  unfold onContinuation
  rw [hstreams]
  cases s.streams.lookup id with
  | none => rfl
  | some stream =>
    dsimp only
    split_ifs
    · rfl
    · exact finishHeaders_image m i p q { s with streams := _, continuation := none } id
    · rfl

theorem onData_image (s : H2Server H) (flags : UInt8) (id : UInt32) (payload : Bytes) :
    (s.image m i p q).onData flags id payload = (s.onData flags id payload).image m i p q := by
  have hstreams : (s.image m i p q).streams = s.streams := rfl
  unfold onData
  rw [hstreams]
  cases padding flags payload with
  | none => rfl
  | some r =>
    dsimp only
    split_ifs
    · rfl
    · cases s.streams.lookup id with
      | none => rfl
      | some stream =>
        dsimp only
        split_ifs
        · rfl
        · exact maybeDispatch_image m i p q { s with streams := _ } id

/-- What a frame does depends neither on the unread input nor on how the decoder is kept. -/
theorem onFrame_image (s : H2Server H) (ty flags : UInt8) (id : UInt32) (payload : Bytes) :
    (s.image m i p q).onFrame ty flags id payload =
      (s.onFrame ty flags id payload).image m i p q := by
  have hcont : (s.image m i p q).continuation = s.continuation := rfl
  unfold onFrame
  rw [hcont, onHeaders_image, onContinuation_image, onData_image]
  unfold onSettings onPing
  split_ifs <;> rfl

/-- An iteration of `parse_frames` is the same one when more input is there. -/
theorem frameStep_image {o : List Empty} (h : s.frameStep = some (o, s')) (more : Bytes) :
    (s.image m (s.inbuf ++ more) p q).frameStep =
      some (o, s'.image m (s'.inbuf ++ more) p q) := by
  have hfailed : (s.image m (s.inbuf ++ more) p q).failed = s.failed := rfl
  have hinbuf : (s.image m (s.inbuf ++ more) p q).inbuf = s.inbuf ++ more := rfl
  unfold frameStep at h ⊢
  rw [hfailed, hinbuf]
  split_ifs at h ⊢
  split at h
  · next l2 l1 l0 ty flags i3 i2 i1 i0 rest hb =>
    rw [hb]
    dsimp only [List.cons_append] at h ⊢
    generalize l2.toNat * 65536 + l1.toNat * 256 + l0.toNat = len at h ⊢
    by_cases hmax : maxStreamBytes < len
    · rw [if_pos hmax] at h ⊢
      simp only [Option.some.injEq, Prod.mk.injEq] at h ⊢
      obtain ⟨rfl, rfl⟩ := h
      rw [hb]
      exact ⟨rfl, rfl⟩
    · rw [if_neg hmax] at h ⊢
      split_ifs at h with hshort
      have hlen := Nat.not_lt.mp hshort
      have hshort' : ¬ (rest ++ more).length < len := by
        rw [List.length_append]
        omega
      simp only [Option.some.injEq, Prod.mk.injEq] at h
      obtain ⟨rfl, rfl⟩ := h
      rw [if_neg hshort', List.take_append_of_le_length hlen, List.drop_append_of_le_length hlen,
        onFrame_inbuf]
      exact congrArg (fun t => some ([], t)) (onFrame_image m (rest.drop len ++ more) p q
        { s with inbuf := rest.drop len } ty flags _ (rest.take len))
  · simp at h

theorem frameStep_image_none (h : s.frameStep = none) :
    (s.image m s.inbuf p q).frameStep = none := by
  have hfailed : (s.image m s.inbuf p q).failed = s.failed := rfl
  have hinbuf : (s.image m s.inbuf p q).inbuf = s.inbuf := rfl
  unfold frameStep at h ⊢
  rw [hfailed, hinbuf]
  split_ifs at h ⊢
  · rfl
  · split at h
    · next hb =>
      rw [hb]
      dsimp only at h ⊢
      split_ifs at h ⊢
      rfl
    · rfl

end Image

/-- The fields that `parse_frames` leaves alone. -/
theorem frameStep_keeps {o : List Empty} (h : s.frameStep = some (o, s')) :
    s'.prefaceSeen = s.prefaceSeen ∧ s'.settingsSent = s.settingsSent := by
  have hi := frameStep_image H.same s.prefaceSeen s.settingsSent h []
  rw [List.append_nil, List.append_nil, image_same, h] at hi
  simp only [Option.some.injEq, Prod.mk.injEq, true_and] at hi
  rw [hi]
  exact ⟨rfl, rfl⟩

theorem frameFeeder_incremental : (frameFeeder H).Incremental := by
  intro s o s' more h
  obtain ⟨hp, hq⟩ := frameStep_keeps h
  apply (frameFeeder H).run_ext_of_step
  have hi := frameStep_image H.same s.prefaceSeen s.settingsSent h more
  have hs' : s'.image H.same (s'.inbuf ++ more) s.prefaceSeen s.settingsSent =
      (frameFeeder H).ext s' more := by
    rw [← hp, ← hq]
    rfl
  rw [hs'] at hi
  exact hi

theorem run_keeps (s : H2Server H) :
    ((frameFeeder H).run s).2.prefaceSeen = s.prefaceSeen ∧
      ((frameFeeder H).run s).2.settingsSent = s.settingsSent := by
  refine (frameFeeder H).run_induction (P := fun s r => r.2.prefaceSeen = s.prefaceSeen ∧
    r.2.settingsSent = s.settingsSent) s (fun _ _ => ⟨rfl, rfl⟩) ?_
  intro s o s' h ih
  obtain ⟨hp, hq⟩ := frameStep_keeps h
  exact ⟨ih.1.trans hp, ih.2.trans hq⟩

/-- The loop over another HPACK library with the same answers. -/
theorem run_image (m : HpackMap H K) (p q : Bool) (s : H2Server H) :
    ((frameFeeder K).run (s.image m s.inbuf p q)).2 =
      ((frameFeeder H).run s).2.image m ((frameFeeder H).run s).2.inbuf p q := by
  refine (frameFeeder H).run_induction (P := fun s r =>
    ((frameFeeder K).run (s.image m s.inbuf p q)).2 = r.2.image m r.2.inbuf p q) s ?_ ?_
  · intro s h
    rw [(frameFeeder K).run_none (frameStep_image_none m p q h)]
  · intro s o s' h ih
    have hi := frameStep_image m p q h []
    rw [List.append_nil, List.append_nil] at hi
    rw [(frameFeeder K).run_some hi]
    exact ih

/-- Servers that serve alike from here on: equal, or failed and equal but for unread input. -/
inductive Alike : H2Server H → H2Server H → Prop
  | live (s : H2Server H) : Alike s s
  | failed {s : H2Server H} (inbuf : Bytes) (h : s.failed = true) : Alike s { s with inbuf }

theorem Alike.trans (h : Alike s t) (h' : Alike t s') : Alike s s' := by
  cases h with
  | live => exact h'
  | failed inbuf hf =>
    cases h' with
    | live => exact .failed inbuf hf
    | failed inbuf' hf' => exact .failed inbuf' hf

/-- `parse_frames` on more input after it has stopped. -/
theorem run_ext_alike (hp : s.prefaceSeen = true) (hq : s.settingsSent = true) (data : Bytes) :
    Alike (((frameFeeder H).run s).2.onInput data)
      ((frameFeeder H).run { s with inbuf := s.inbuf ++ data }).2 := by
  obtain ⟨hp', hq'⟩ := run_keeps s
  have hrun : (frameFeeder H).run { s with inbuf := s.inbuf ++ data } = _ :=
    frameFeeder_incremental.run_ext s data
  rw [hrun, Feeder.feed, onInput]
  generalize ((frameFeeder H).run s).2 = r at hp' hq' ⊢
  cases hf : r.failed with
  | true =>
    have hstop : (frameFeeder H).step ((frameFeeder H).ext r data) = none := by
      have hfe : ((frameFeeder H).ext r data).failed = true := hf
      exact if_pos hfe
    rw [if_pos rfl, (frameFeeder H).run_none hstop]
    exact .failed _ hf
  | false =>
    rw [if_neg Bool.false_ne_true, if_pos (hq'.trans hq), onBytes]
    dsimp only
    rw [if_pos (hp'.trans hp)]
    exact .live _

theorem onInput_settingsSent (hq : s.settingsSent = true) (data : Bytes) :
    (s.onInput data).settingsSent = true := by
  rw [onInput, if_pos hq]
  split_ifs
  · exact hq
  · unfold onBytes
    dsimp only
    split_ifs
    · exact (run_keeps _).2.trans hq
    · exact hq
    · exact hq
    · exact (run_keeps _).2.trans hq

theorem onInput_onInput (hq : s.settingsSent = true) (a b : Bytes) :
    Alike ((s.onInput a).onInput b) (s.onInput (a ++ b)) := by
  cases hf : s.failed with
  | true =>
    have hstay : ∀ x, s.onInput x = s := fun x => if_pos hf
    rw [hstay, hstay, hstay]
    exact .live s
  | false =>
    have hbytes : ∀ (r : H2Server H) x, r.failed = false → r.settingsSent = true →
        r.onInput x = r.onBytes x := by
      intro r x hr hrq
      rw [onInput, hr, if_neg Bool.false_ne_true, if_pos hrq]
    rw [hbytes s a hf hq, hbytes s (a ++ b) hf hq, onBytes, onBytes, ← List.append_assoc]
    dsimp only
    by_cases hp : s.prefaceSeen = true
    · rw [if_pos hp, if_pos hp]
      exact run_ext_alike (s := { s with inbuf := s.inbuf ++ a }) hp hq b
    · rw [if_neg hp, if_neg hp]
      by_cases hshort : (s.inbuf ++ a).length < preface.length
      · rw [if_pos hshort, hbytes { s with inbuf := s.inbuf ++ a } b hf hq, onBytes]
        dsimp only
        rw [if_neg hp]
        exact .live _
      · have hlen := Nat.not_lt.mp hshort
        have hlen' : ¬ (s.inbuf ++ a ++ b).length < preface.length := by
          rw [List.length_append]
          omega
        rw [if_neg hshort, if_neg hlen', List.take_append_of_le_length hlen,
          List.drop_append_of_le_length hlen]
        split_ifs
        · exact .failed (s := { s with inbuf := s.inbuf ++ a, failed := true }) _ rfl
        · exact run_ext_alike (s := { s with
            inbuf := (s.inbuf ++ a).drop preface.length, prefaceSeen := true }) rfl hq b

/-- Input in several calls is input in one. -/
theorem inputs_alike (hq : s.settingsSent = true) (a : Bytes) (rest : List Bytes) :
    Alike (s.inputs (a :: rest)) (s.onInput (a ++ rest.flatten)) := by
  induction rest generalizing s a with
  | nil =>
    rw [List.flatten_nil, List.append_nil]
    exact .live _
  | cons b rest ih =>
    have hrest := @ih (s.onInput a) (onInput_settingsSent hq a) b
    rw [List.flatten_cons]
    exact hrest.trans (onInput_onInput hq a _)

/-- The whole server seen through another HPACK library. -/
def view (m : HpackMap H K) (s : H2Server H) : H2Server K :=
  s.image m s.inbuf s.prefaceSeen s.settingsSent

theorem onBytes_view (m : HpackMap H K) (s : H2Server H) (data : Bytes) :
    (s.view m).onBytes data = (s.onBytes data).view m := by
  have hrun : ∀ r : H2Server H,
      ((frameFeeder K).run (r.view m)).2 = ((frameFeeder H).run r).2.view m := by
    intro r
    obtain ⟨hp, hq⟩ := run_keeps r
    rw [view, run_image, view, hp, hq]
  have hp : (s.view m).prefaceSeen = s.prefaceSeen := rfl
  have hi : (s.view m).inbuf = s.inbuf := rfl
  unfold onBytes
  dsimp only
  rw [hp, hi]
  split_ifs
  · exact hrun { s with inbuf := s.inbuf ++ data }
  · rfl
  · rfl
  · exact hrun { s with inbuf := _, prefaceSeen := true }

theorem onInput_view (m : HpackMap H K) (s : H2Server H) (data : Bytes) :
    (s.view m).onInput data = (s.onInput data).view m := by
  have hf : (s.view m).failed = s.failed := rfl
  have hq : (s.view m).settingsSent = s.settingsSent := rfl
  unfold onInput
  rw [hf, hq]
  split_ifs
  · rfl
  · exact onBytes_view m s data
  · exact onBytes_view m { (s.writeFrame tSettings 0 0 []).writeFrame tWindowUpdate 0 0
      [0x7f, 0xff, 0, 0] with settingsSent := true } data

theorem inputs_view (m : HpackMap H K) (s : H2Server H) (pieces : List Bytes) :
    (s.view m).inputs pieces = (s.inputs pieces).view m := by
  induction pieces generalizing s with
  | nil => rfl
  | cons x pieces ih =>
    rw [inputs, List.foldl_cons, onInput_view]
    exact ih _

/-- The record of the header blocks changes nothing else. -/
theorem inputs_logged (H : Hpack) (pieces : List Bytes) :
    ((({} : H2Server H.logged).inputs pieces).view H.unlogged) =
      ({} : H2Server H).inputs pieces :=
  (inputs_view H.unlogged {} pieces).symm

/-- What a server has done so far that can be seen from outside, its decoder included. -/
structure SameService (s t : H2Server H) : Prop where
  failed : s.failed = t.failed
  ready : s.ready = t.ready
  out : s.out = t.out
  dec : s.dec = t.dec

theorem SameService.view (h : SameService s t) (m : HpackMap H K) :
    SameService (s.view m) (t.view m) :=
  ⟨h.failed, h.ready, h.out, congrArg m.decoder h.dec⟩

theorem Alike.sameService (h : Alike s t) : SameService s t := by
  cases h with
  | live => exact ⟨rfl, rfl, rfl, rfl⟩
  | failed => exact ⟨rfl, rfl, rfl, rfl⟩

/-- A stream in non-empty calls from the start. -/
theorem fresh_inputs_alike {pieces : List Bytes} (hne : ∀ x ∈ pieces, x ≠ []) :
    Alike (({} : H2Server H).inputs pieces)
      (if pieces.flatten = [] then {} else ({} : H2Server H).onInput pieces.flatten) := by
  cases pieces with
  | nil => exact .live _
  | cons a rest =>
    have hfresh : ∀ x, ({} : H2Server H).onInput x = (greeted {}).onInput x := by
      intro x
      rw [onInput_greeted rfl, onInput_greeted rfl]
      rfl
    have ha : (a :: rest).flatten ≠ [] := by
      rw [List.flatten_cons]
      exact List.append_ne_nil_of_left_ne_nil (hne a (List.mem_cons_self ..)) _
    have hall := inputs_alike (s := greeted ({} : H2Server H)) rfl a rest
    rw [if_neg ha, hfresh, List.flatten_cons]
    rw [inputs, List.foldl_cons, hfresh]
    exact hall

theorem inputs_segments {a b : List Bytes} (ha : ∀ x ∈ a, x ≠ []) (hb : ∀ x ∈ b, x ≠ [])
    (h : a.flatten = b.flatten) :
    SameService (({} : H2Server H).inputs a) (({} : H2Server H).inputs b) := by
  have hsa := (fresh_inputs_alike (H := H) ha).sameService
  have hsb := (fresh_inputs_alike (H := H) hb).sameService
  rw [h] at hsa
  exact ⟨hsa.failed.trans hsb.failed.symm, hsa.ready.trans hsb.ready.symm,
    hsa.out.trans hsb.out.symm, hsa.dec.trans hsb.dec.symm⟩

end H2Server

end Adwarden.Tls
