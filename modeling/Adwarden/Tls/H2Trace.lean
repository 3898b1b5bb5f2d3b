import Adwarden.Tls.H2

/-! What the frames of an HTTP/2 connection do to its streams, and the events of a run. -/
namespace Adwarden.Tls
open Adwarden.Lib

structure Frame where
  ty : UInt8
  flags : UInt8
  streamId : UInt32
  payload : Bytes
deriving DecidableEq

/-- The frame at the front of the buffer, once it has arrived in full. -/
def nextFrame : Bytes → Option (Frame × Bytes)
  | l2 :: l1 :: l0 :: ty :: flags :: i3 :: i2 :: i1 :: i0 :: rest =>
    let len := l2.toNat * 65536 + l1.toNat * 256 + l0.toNat
    let streamId := (i3.toUInt32 <<< 24 ||| i2.toUInt32 <<< 16 ||| i1.toUInt32 <<< 8 |||
      i0.toUInt32) &&& 0x7fffffff
    if maxStreamBytes < len ∨ rest.length < len then none
    else some (⟨ty, flags, streamId, rest.take len⟩, rest.drop len)
  | _ => none

inductive H2Event where
  /-- A HEADERS frame taken up by `on_headers`. -/
  | headers (streamId : UInt32)
  /-- An RST_STREAM frame. -/
  | reset (streamId : UInt32)
  /-- A request put on the `ready` list. -/
  | surfaced (req : H2Request)
  /-- A response written by `respond`. -/
  | responded (streamId : UInt32)
deriving DecidableEq

namespace H2Event

@[simp] def surfacedReq : H2Event → Option H2Request
  | surfaced req => some req
  | headers _ | reset _ | responded _ => none

@[simp] def respondedId : H2Event → Option UInt32
  | responded id => some id
  | headers _ | reset _ | surfaced _ => none

@[simp] def resetId : H2Event → Option UInt32
  | reset id => some id
  | headers _ | surfaced _ | responded _ => none

/-- The requests surfaced in a run. -/
def requests (t : List H2Event) : List H2Request := t.filterMap surfacedReq

def surfacedIds (t : List H2Event) : List UInt32 := (requests t).map H2Request.streamId

def respondedIds (t : List H2Event) : List UInt32 := t.filterMap respondedId

def resetIds (t : List H2Event) : List UInt32 := t.filterMap resetId

@[simp] theorem requests_nil : requests [] = [] := rfl

@[simp] theorem requests_cons (e : H2Event) (t : List H2Event) :
    requests (e :: t) = e.surfacedReq.toList ++ requests t := by
  cases e <;> rfl

@[simp] theorem requests_append (a b : List H2Event) :
    requests (a ++ b) = requests a ++ requests b := List.filterMap_append

@[simp] theorem requests_map_surfaced (reqs : List H2Request) :
    requests (reqs.map surfaced) = reqs := by
  simp [requests, List.filterMap_map, Function.comp_def]

@[simp] theorem surfacedIds_nil : surfacedIds [] = [] := rfl

@[simp] theorem surfacedIds_cons (e : H2Event) (t : List H2Event) :
    surfacedIds (e :: t) = (e.surfacedReq.map H2Request.streamId).toList ++ surfacedIds t := by
  cases e <;> rfl

@[simp] theorem respondedIds_nil : respondedIds [] = [] := rfl

@[simp] theorem respondedIds_cons (e : H2Event) (t : List H2Event) :
    respondedIds (e :: t) = e.respondedId.toList ++ respondedIds t := by
  cases e <;> rfl

@[simp] theorem resetIds_nil : resetIds [] = [] := rfl

@[simp] theorem resetIds_cons (e : H2Event) (t : List H2Event) :
    resetIds (e :: t) = e.resetId.toList ++ resetIds t := by
  cases e <;> rfl

@[simp] theorem surfacedIds_append (a b : List H2Event) :
    surfacedIds (a ++ b) = surfacedIds a ++ surfacedIds b := by
  rw [surfacedIds, requests_append, List.map_append, surfacedIds, surfacedIds]

@[simp] theorem respondedIds_append (a b : List H2Event) :
    respondedIds (a ++ b) = respondedIds a ++ respondedIds b := List.filterMap_append

@[simp] theorem resetIds_append (a b : List H2Event) :
    resetIds (a ++ b) = resetIds a ++ resetIds b := List.filterMap_append

end H2Event

namespace H2Server

variable {H : Hpack} {s s' : H2Server H}

/-- All that an iteration of `parse_frames` can do. -/
theorem frameStep_cases {o : List Empty} (h : s.frameStep = some (o, s')) : s.failed = false ∧
    ((nextFrame s.inbuf = none ∧ s' = { s with failed := true }) ∨
      ∃ f rest, nextFrame s.inbuf = some (f, rest) ∧
        s' = { s with inbuf := rest }.onFrame f.ty f.flags f.streamId f.payload) := by
  unfold frameStep at h
  split_ifs at h with hf
  refine ⟨by simpa using hf, ?_⟩
  split at h
  · next rest hb =>
    dsimp only at h
    split_ifs at h with hmax hlen
    · obtain ⟨-, rfl⟩ := by simpa using h
      exact Or.inl ⟨by simp [hb, nextFrame, hmax], rfl⟩
    · obtain ⟨-, rfl⟩ := by simpa using h
      exact Or.inr ⟨_, _, by rw [hb, nextFrame, if_neg (by simp [hmax, hlen])], rfl⟩
  · simp at h

/-- What a step that works on one stream does to it and to the completed requests; `old` is whether
the stream was surfaced before. -/
inductive StreamEffect (s s' : H2Server H) (id : UInt32) (old : Bool) : Prop
  | kept (new : Stream) (hl : s'.streams.lookup id = some new) (hd : new.dispatched = old)
      (hothers : ∀ j, j ≠ id → s'.streams.lookup j = s.streams.lookup j)
      (hready : s'.ready = s.ready)
  | surfaced (new : Stream) (req : H2Request) (hl : s'.streams.lookup id = some new)
      (hold : old = false) (hd : new.dispatched = true)
      (hothers : ∀ j, j ≠ id → s'.streams.lookup j = s.streams.lookup j)
      (hid : req.streamId = id) (hready : s'.ready = s.ready ++ [req]) (hf : s'.failed = s.failed)

def wasDispatched (s : H2Server H) (id : UInt32) : Bool :=
  ((s.streams.lookup id).getD {}).dispatched

/-- What a frame does: outside a header block a HEADERS frame may open a stream, and RST_STREAM
removes one. -/
inductive FrameEffect (s s' : H2Server H) (f : Frame) : Prop
  | quiet (hr : s.continuation = none → f.ty ≠ tRstStream) (hstreams : s'.streams = s.streams)
      (hready : s'.ready = s.ready)
  | reset (hc : s.continuation = none) (hty : f.ty = tRstStream)
      (hstreams : s'.streams = s.streams.erase f.streamId) (hready : s'.ready = s.ready)
  | stream (hty : f.ty ≠ tRstStream)
      (hknown : s.streams.lookup f.streamId = none → f.ty = tHeaders ∧ s.continuation = none)
      (heffect : StreamEffect s s' f.streamId (s.wasDispatched f.streamId))

theorem maybeDispatch_cases (s : H2Server H) (id : UInt32) :
    (s.maybeDispatch id = s ∧ ∀ stream, s.streams.lookup id = some stream →
      stream.headersDone = true → stream.endStream = true → stream.dispatched = true) ∨
    ∃ stream req, s.streams.lookup id = some stream ∧ stream.dispatched = false ∧
      req.streamId = id ∧
      s.maybeDispatch id = { s with
        streams := s.streams.insert id { stream with dispatched := true, body := [] }
        ready := s.ready ++ [req] } := by
  unfold maybeDispatch
  cases hl : s.streams.lookup id with
  | none => exact Or.inl ⟨rfl, by simp⟩
  | some stream =>
    dsimp only
    split_ifs with hc
    · exact Or.inr ⟨stream, _, rfl, by simpa using hc.2.2, rfl, rfl⟩
    · refine Or.inl ⟨rfl, ?_⟩
      intro t ht hh he
      obtain rfl := Option.some.inj ht
      simpa [hh, he] using hc

theorem StreamEffect.maybeDispatch {id : UInt32} {stream : Stream} {old : Bool}
    (hl : s'.streams.lookup id = some stream) (hold : stream.dispatched = old)
    (hothers : ∀ j, j ≠ id → s'.streams.lookup j = s.streams.lookup j)
    (hready : s'.ready = s.ready) (hf : s'.failed = s.failed) :
    StreamEffect s (s'.maybeDispatch id) id old := by
  rcases s'.maybeDispatch_cases id with ⟨he, -⟩ | ⟨t, req, ht, hd, hid, he⟩
  · rw [he]
    exact .kept stream hl hold hothers hready
  · rw [hl] at ht
    obtain rfl := Option.some.inj ht
    rw [he]
    refine .surfaced _ req (AList.lookup_insert _) (hold ▸ hd) rfl ?_ hid (by rw [hready]) hf
    intro j hj
    exact (AList.lookup_insert_ne hj).trans (hothers j hj)

theorem recordHeader_dispatched (stream : Stream) (headers : List (Bytes × Bytes)) :
    (headers.foldl recordHeader stream).dispatched = stream.dispatched := by
  induction headers generalizing stream with
  | nil => rfl
  | cons kv headers ih =>
    rw [List.foldl_cons, ih]
    unfold recordHeader
    split_ifs <;> rfl

theorem StreamEffect.finishHeaders {id : UInt32} {stream : Stream} {old : Bool}
    (hl : s'.streams.lookup id = some stream) (hold : stream.dispatched = old)
    (hothers : ∀ j, j ≠ id → s'.streams.lookup j = s.streams.lookup j)
    (hready : s'.ready = s.ready) (hf : s'.failed = s.failed) :
    StreamEffect s (s'.finishHeaders id) id old := by
  have hins : ∀ a : Stream, ∀ j, j ≠ id →
      (s'.streams.insert id a).lookup j = s.streams.lookup j := fun a j hj =>
    (AList.lookup_insert_ne hj).trans (hothers j hj)
  unfold H2Server.finishHeaders
  rw [hl]
  dsimp only
  split
  · exact .kept _ (AList.lookup_insert _) hold (hins _) hready
  · next dec headers _ =>
    refine StreamEffect.maybeDispatch (AList.lookup_insert _)
      ((recordHeader_dispatched _ _).trans hold) ?_ hready hf
    intro j hj
    exact (AList.lookup_insert_ne hj).trans (hins _ j hj)

theorem onHeaders_effect (s : H2Server H) (f : Frame) (hty : f.ty = tHeaders)
    (hc : s.continuation = none) :
    FrameEffect s (s.onHeaders f.flags f.streamId f.payload) f := by
  have hrst : f.ty ≠ tRstStream := by rw [hty]; decide
  have hknown : s.streams.lookup f.streamId = none → f.ty = tHeaders ∧ s.continuation = none :=
    fun _ => ⟨hty, hc⟩
  unfold onHeaders
  by_cases h0 : f.streamId = 0
  · rw [if_pos h0]
    exact .quiet (fun _ => hrst) rfl rfl
  · rw [if_neg h0]
    cases headersFragment f.flags f.payload with
    | none => exact .quiet (fun _ => hrst) rfl rfl
    | some fragment =>
      have hins : ∀ a : Stream, ∀ j, j ≠ f.streamId →
          (s.streams.insert f.streamId a).lookup j = s.streams.lookup j := fun a j hj =>
        AList.lookup_insert_ne hj
      refine .stream hrst hknown ?_
      dsimp only
      split_ifs
      · exact .kept _ (AList.lookup_insert _) rfl (hins _) rfl
      · exact StreamEffect.finishHeaders (AList.lookup_insert _) rfl (hins _) rfl rfl
      · exact .kept _ (AList.lookup_insert _) rfl (hins _) rfl

theorem onContinuation_effect (s : H2Server H) (f : Frame) (hty : f.ty = tContinuation) :
    FrameEffect s (s.onContinuation f.flags f.streamId f.payload) f := by
  have hrst : f.ty ≠ tRstStream := by rw [hty]; decide
  unfold onContinuation
  cases hl : s.streams.lookup f.streamId with
  | none => exact .quiet (fun _ => hrst) rfl rfl
  | some stream =>
    have hold : stream.dispatched = s.wasDispatched f.streamId := by simp [wasDispatched, hl]
    have hins : ∀ a : Stream, ∀ j, j ≠ f.streamId →
        (s.streams.insert f.streamId a).lookup j = s.streams.lookup j := fun a j hj =>
      AList.lookup_insert_ne hj
    dsimp only
    split_ifs
    · exact .quiet (fun _ => hrst) rfl rfl
    · exact .stream hrst (by simp [hl])
        (StreamEffect.finishHeaders (AList.lookup_insert _) hold (hins _) rfl rfl)
    · exact .stream hrst (by simp [hl]) (.kept _ (AList.lookup_insert _) hold (hins _) rfl)

theorem onData_effect (s : H2Server H) (f : Frame) (hty : f.ty = tData) :
    FrameEffect s (s.onData f.flags f.streamId f.payload) f := by
  have hrst : f.ty ≠ tRstStream := by rw [hty]; decide
  unfold onData
  split
  · exact .quiet (fun _ => hrst) rfl rfl
  · split_ifs
    · exact .quiet (fun _ => hrst) rfl rfl
    · cases hl : s.streams.lookup f.streamId with
      | none => exact .quiet (fun _ => hrst) rfl rfl
      | some stream =>
        have hold : stream.dispatched = s.wasDispatched f.streamId := by simp [wasDispatched, hl]
        dsimp only
        split_ifs
        · exact .quiet (fun _ => hrst) rfl rfl
        · exact .stream hrst (by simp [hl]) (StreamEffect.maybeDispatch (AList.lookup_insert _)
            hold (fun j hj => AList.lookup_insert_ne hj) rfl rfl)

theorem onFrame_effect (s : H2Server H) (f : Frame) :
    FrameEffect s (s.onFrame f.ty f.flags f.streamId f.payload) f := by
  unfold onFrame
  split_ifs with hcont hsettings hping hheaders hcontinuation hdata hreset hgoaway
  · refine .quiet ?_ rfl rfl
    intro hc
    simp [hc] at hcont
  · have hrst : f.ty ≠ tRstStream := by rw [hsettings]; decide
    unfold onSettings
    split_ifs <;> exact .quiet (fun _ => hrst) rfl rfl
  · have hrst : f.ty ≠ tRstStream := by rw [hping]; decide
    unfold onPing
    split_ifs <;> exact .quiet (fun _ => hrst) rfl rfl
  · refine onHeaders_effect s f hheaders ?_
    cases hc : s.continuation with
    | none => rfl
    | some o =>
      have hne : tHeaders ≠ tContinuation := by decide
      simp [hc, hheaders, hne] at hcont
  · exact onContinuation_effect s f hcontinuation
  · exact onData_effect s f hdata
  · refine .reset ?_ hreset rfl rfl
    cases hc : s.continuation with
    | none => rfl
    | some o =>
      have hne : tRstStream ≠ tContinuation := by decide
      simp [hc, hreset, hne] at hcont
  · exact .quiet (fun _ => hreset) rfl rfl
  · exact .quiet (fun _ => hreset) rfl rfl

/-- A stream with its headers and its end has been surfaced, unless its header block is still
open. -/
def Settled (s : H2Server H) : Prop :=
  s.failed = false → ∀ id stream, s.streams.lookup id = some stream → s.continuation ≠ some id →
    stream.headersDone = true → stream.endStream = true → stream.dispatched = true

theorem maybeDispatch_settles {id : UInt32} {stream : Stream}
    (hl : (s.maybeDispatch id).streams.lookup id = some stream) (hh : stream.headersDone = true)
    (he : stream.endStream = true) : stream.dispatched = true := by
  rcases s.maybeDispatch_cases id with ⟨heq, hd⟩ | ⟨t, req, ht, hd, hid, heq⟩
  · rw [heq] at hl
    exact hd stream hl hh he
  · rw [heq] at hl
    dsimp only at hl
    rw [AList.lookup_insert] at hl
    obtain rfl := Option.some.inj hl
    rfl

theorem finishHeaders_settles {id : UInt32} {stream : Stream}
    (hf : (s.finishHeaders id).failed = false)
    (hl : (s.finishHeaders id).streams.lookup id = some stream) (hh : stream.headersDone = true)
    (he : stream.endStream = true) : stream.dispatched = true := by
  unfold finishHeaders at hf hl
  split at hf
  · next hnone =>
    rw [hnone] at hl
    simp only [hnone] at hl
    simp at hl
  · next t ht =>
    rw [ht] at hl
    dsimp only at hf hl
    split at hf
    · simp at hf
    · next dec headers hdec =>
      rw [hdec] at hl
      exact maybeDispatch_settles hl hh he

/-- A frame leaves the streams settled; the only stream to look at is its own. -/
theorem Settled.of_own (hs : s.Settled) {f : Frame} (he : FrameEffect s s' f)
    (hcont : s'.failed = false → ∀ id, id ≠ f.streamId → s'.continuation ≠ some id →
      s.failed = false ∧ s.continuation ≠ some id)
    (hown : s'.failed = false → ∀ stream, s'.streams.lookup f.streamId = some stream →
      s'.continuation ≠ some f.streamId → stream.headersDone = true → stream.endStream = true →
      stream.dispatched = true) : s'.Settled := by
  intro hf id stream hl hc hh hend
  by_cases hid : id = f.streamId
  · subst hid
    exact hown hf stream hl hc hh hend
  · obtain ⟨hf', hc'⟩ := hcont hf id hid hc
    refine hs hf' id stream ?_ hc' hh hend
    cases he with
    | quiet _ hstreams _ => rw [← hstreams, hl]
    | reset _ _ hstreams _ => rw [hstreams, AList.lookup_erase_ne hid] at hl; exact hl
    | stream _ _ he =>
      cases he with
      | kept _ _ _ hothers _ => rw [← hothers id hid, hl]
      | surfaced _ _ _ _ _ hothers _ _ _ => rw [← hothers id hid, hl]

theorem maybeDispatch_keeps (s : H2Server H) (id : UInt32) :
    (s.maybeDispatch id).continuation = s.continuation ∧
      (s.maybeDispatch id).failed = s.failed := by
  rcases s.maybeDispatch_cases id with ⟨heq, -⟩ | ⟨t, req, -, -, -, heq⟩ <;> rw [heq] <;>
    exact ⟨rfl, rfl⟩

theorem finishHeaders_keeps (s : H2Server H) (id : UInt32) :
    (s.finishHeaders id).continuation = s.continuation ∧
      ((s.finishHeaders id).failed = false → s.failed = false) := by
  unfold finishHeaders
  split
  · exact ⟨rfl, fun h => h⟩
  · dsimp only
    split
    · exact ⟨rfl, by simp⟩
    · rw [(maybeDispatch_keeps _ id).1, (maybeDispatch_keeps _ id).2]
      exact ⟨rfl, fun h => h⟩

private theorem Settled.keep (hs : s.Settled) {f : Frame} (he : FrameEffect s s' f)
    (hstreams : s'.streams = s.streams) (hf : s'.failed = false → s.failed = false)
    (hc : s'.failed = false → s'.continuation = s.continuation) : s'.Settled := by
  refine hs.of_own he (fun h id _ hne => ⟨hf h, hc h ▸ hne⟩) ?_
  intro h stream hl hne hh hend
  exact hs (hf h) f.streamId stream (hstreams ▸ hl) (hc h ▸ hne) hh hend

theorem onHeaders_settled (hs : s.Settled) (f : Frame) (hty : f.ty = tHeaders)
    (hc : s.continuation = none) : (s.onHeaders f.flags f.streamId f.payload).Settled := by
  have he := onHeaders_effect s f hty hc
  unfold onHeaders at he ⊢
  by_cases h0 : f.streamId = 0
  · rw [if_pos h0]
    exact fun h => by simp at h
  · rw [if_neg h0] at he ⊢
    cases hfrag : headersFragment f.flags f.payload with
    | none => exact fun h => by simp at h
    | some fragment =>
      rw [hfrag] at he
      dsimp only at he ⊢
      split_ifs at he ⊢
      · exact fun h => by simp at h
      · refine hs.of_own he (fun h id _ hne => ?_) fun h stream hl _ hh hend =>
          finishHeaders_settles h hl hh hend
        have hf := (finishHeaders_keeps _ _).2 h
        exact ⟨hf, by simp [hc]⟩
      · exact hs.of_own he (fun h id _ _ => ⟨h, by simp [hc]⟩) fun _ _ _ hne => absurd rfl hne

theorem onContinuation_settled (hs : s.Settled) (f : Frame) (hty : f.ty = tContinuation)
    (hc : s.continuation = none ∨ s.continuation = some f.streamId) :
    (s.onContinuation f.flags f.streamId f.payload).Settled := by
  have he := onContinuation_effect s f hty
  unfold onContinuation at he ⊢
  cases hl : s.streams.lookup f.streamId with
  | none => exact fun h => by simp at h
  | some stream =>
    rw [hl] at he
    dsimp only at he ⊢
    split_ifs at he ⊢
    · exact fun h => by simp at h
    · refine hs.of_own he (fun h id hid hne => ?_) fun h stream hl _ hh hend =>
        finishHeaders_settles h hl hh hend
      have hf := (finishHeaders_keeps _ _).2 h
      refine ⟨hf, ?_⟩
      rcases hc with hc | hc <;> simp [hc, Ne.symm hid]
    · refine hs.of_own he (fun h id _ hne => ⟨h, hne⟩) ?_
      intro h new hnew hne hh hend
      dsimp only at hnew hne
      rw [AList.lookup_insert] at hnew
      obtain rfl := Option.some.inj hnew
      exact hs h f.streamId stream hl hne hh hend

theorem onData_settled (hs : s.Settled) (f : Frame) (hty : f.ty = tData)
    (hc : s.continuation = none) : (s.onData f.flags f.streamId f.payload).Settled := by
  have he := onData_effect s f hty
  unfold onData at he ⊢
  split at he
  · exact fun h => by simp at h
  · dsimp only at he ⊢
    split_ifs at he ⊢
    · exact fun h => by simp at h
    · cases hl : s.streams.lookup f.streamId with
      | none => exact hs
      | some stream =>
        rw [hl] at he
        dsimp only at he ⊢
        split_ifs at he ⊢
        · exact fun h => by simp at h
        · refine hs.of_own he (fun h id _ _ => ?_) fun h stream hl _ hh hend =>
            maybeDispatch_settles hl hh hend
          rw [(maybeDispatch_keeps _ _).2] at h
          exact ⟨h, by simp [hc]⟩

theorem onFrame_settled (hs : s.Settled) (f : Frame) :
    (s.onFrame f.ty f.flags f.streamId f.payload).Settled := by
  have he := onFrame_effect s f
  have hcont : (¬ s.continuation.any fun o => f.ty ≠ tContinuation ∨ f.streamId ≠ o) →
      (s.continuation = none ∨ s.continuation = some f.streamId ∧ f.ty = tContinuation) := by
    cases s.continuation with
    | none => simp
    | some o =>
      intro h
      simp only [Option.any_some, decide_eq_true_eq, not_or, not_not] at h
      exact Or.inr ⟨by rw [h.2], h.1⟩
  unfold onFrame at he ⊢
  split_ifs at he ⊢ with hany hsettings hping hheaders hcontinuation hdata hreset hgoaway
  · exact fun h => by simp at h
  · unfold onSettings at he ⊢
    split_ifs at he ⊢ <;> exact hs.keep he rfl (fun h => h) fun _ => rfl
  · unfold onPing at he ⊢
    split_ifs at he ⊢ <;> exact hs.keep he rfl (fun h => h) fun _ => rfl
  · refine onHeaders_settled hs f hheaders ((hcont hany).resolve_right fun h => ?_)
    rw [hheaders] at h
    exact absurd h.2 (by decide)
  · exact onContinuation_settled hs f hcontinuation ((hcont hany).imp_right And.left)
  · refine onData_settled hs f hdata ((hcont hany).resolve_right fun h => ?_)
    rw [hdata] at h
    exact absurd h.2 (by decide)
  · refine hs.of_own he (fun h id _ hne => ⟨h, hne⟩) ?_
    intro h stream hl
    dsimp only at hl
    rw [AList.lookup_erase] at hl
    simp at hl
  · exact fun h => by simp at h
  · exact hs

/-- An iteration of `parse_frames` gives up, or does what its frame does. -/
theorem frameStep_effect {o : List Empty} (h : s.frameStep = some (o, s')) : s.failed = false ∧
    ((nextFrame s.inbuf = none ∧ s' = { s with failed := true }) ∨
      ∃ f rest, nextFrame s.inbuf = some (f, rest) ∧ FrameEffect s s' f) := by
  obtain ⟨hf, hstep⟩ := frameStep_cases h
  refine ⟨hf, hstep.imp_right ?_⟩
  rintro ⟨f, rest, hnext, rfl⟩
  refine ⟨f, rest, hnext, ?_⟩
  cases onFrame_effect { s with inbuf := rest } f with
  | quiet hr hstreams hready => exact .quiet hr hstreams hready
  | reset hcont hty hstreams hready => exact .reset hcont hty hstreams hready
  | stream hty hknown he =>
    refine .stream hty hknown ?_
    cases he with
    | kept new hl hd hothers hready => exact .kept new hl hd hothers hready
    | surfaced new req hl hold hd hothers hid hready hf =>
      exact .surfaced new req hl hold hd hothers hid hready hf

/-- The event of a frame that `parse_frames` takes up. -/
def frameOpening (s : H2Server H) (f : Frame) : List H2Event :=
  if s.continuation.isSome then []
  else if f.ty = tHeaders then [.headers f.streamId]
  else if f.ty = tRstStream then [.reset f.streamId]
  else []

/-- The events of one iteration of `parse_frames`. -/
def frameEvents (s s' : H2Server H) : List H2Event :=
  match nextFrame s.inbuf with
  | none => []
  | some (f, _) => s.frameOpening f ++ (s'.ready.drop s.ready.length).map .surfaced

def frameTracer (H : Hpack) : Machine (H2Server H) H2Event :=
  (frameFeeder H).toMachine.observe frameEvents

/-- The server once it has written its preface. -/
def greeted (s : H2Server H) : H2Server H :=
  if s.settingsSent then s
  else { (s.writeFrame tSettings 0 0 []).writeFrame tWindowUpdate 0 0 [0x7f, 0xff, 0, 0] with
    settingsSent := true }

/-- The state in which `on_input` calls `parse_frames`, if it does. -/
def frameStart (s : H2Server H) (data : Bytes) : Option (H2Server H) :=
  let s := { s.greeted with inbuf := s.greeted.inbuf ++ data }
  if s.prefaceSeen then some s
  else if s.inbuf.take preface.length = preface then
    some { s with inbuf := s.inbuf.drop preface.length, prefaceSeen := true }
  else none

/-- The events of one `on_input` call. -/
def inputEvents (s : H2Server H) (data : Bytes) : List H2Event :=
  if s.failed then []
  else match s.frameStart data with
    | none => []
    | some s => ((frameTracer H).run s).1

theorem greeted_same (s : H2Server H) : s.greeted.streams = s.streams ∧
    s.greeted.ready = s.ready ∧ s.greeted.failed = s.failed ∧
      s.greeted.continuation = s.continuation := by
  unfold greeted
  split_ifs <;> exact ⟨rfl, rfl, rfl, rfl⟩

theorem frameStart_same {data : Bytes} (h : s.frameStart data = some s') :
    s'.streams = s.streams ∧ s'.ready = s.ready ∧ s'.failed = s.failed ∧
      s'.continuation = s.continuation := by
  obtain ⟨hs, hr, hf, hc⟩ := s.greeted_same
  unfold frameStart at h
  dsimp only at h
  split_ifs at h <;> obtain rfl := Option.some.inj h <;> exact ⟨hs, hr, hf, hc⟩

theorem onInput_greeted (hf : s.failed = false) (data : Bytes) :
    s.onInput data = s.greeted.onBytes data := by
  rw [onInput, hf, if_neg Bool.false_ne_true]
  unfold greeted
  split_ifs <;> rfl

/-- What `on_input` does, with its events. -/
theorem onInput_cases (s : H2Server H) (data : Bytes) :
    ((s.onInput data).streams = s.streams ∧ (s.onInput data).ready = s.ready ∧
      s.inputEvents data = [] ∧ (s.onInput data).continuation = s.continuation ∧
      ((s.onInput data).failed = false → s.failed = false)) ∨
    (s.failed = false ∧ ∃ s₀, s.frameStart data = some s₀ ∧
      s.onInput data = ((frameTracer H).run s₀).2 ∧
      s.inputEvents data = ((frameTracer H).run s₀).1) := by
  cases hf : s.failed with
  | true =>
    have hsame : s.onInput data = s := by simp [onInput, hf]
    exact Or.inl ⟨by rw [hsame], by rw [hsame], by simp [inputEvents, hf], by rw [hsame],
      by simp [hsame, hf]⟩
  | false =>
    have hrun : ∀ t : H2Server H, ((frameTracer H).run t).2 = ((frameFeeder H).run t).2 :=
      (frameFeeder H).toMachine.run_observe frameEvents
    rw [onInput_greeted hf]
    cases hs : s.frameStart data with
    | some s₀ =>
      refine Or.inr ⟨rfl, s₀, rfl, ?_, by simp [inputEvents, hf, hs]⟩
      unfold frameStart at hs
      unfold onBytes
      dsimp only at hs ⊢
      split_ifs at hs ⊢ with hp hlt hpre hpre'
      · rw [hrun, Option.some.inj hs]
      · have := congrArg List.length hpre
        rw [List.length_take] at this
        omega
      · rw [hrun, Option.some.inj hs]
    | none =>
      left
      obtain ⟨hst, hr, -, hc⟩ := s.greeted_same
      have hnone : s.inputEvents data = [] := by simp [inputEvents, hf, hs]
      unfold frameStart at hs
      unfold onBytes
      dsimp only at hs ⊢
      split_ifs at hs ⊢ with hp hpre hlt
      · exact ⟨hst, hr, hnone, hc, fun _ => rfl⟩
      · exact ⟨hst, hr, hnone, hc, fun _ => rfl⟩
      · next h1 h2 => exact absurd (not_not.mp h1) h2

theorem frameOpening_requests (s : H2Server H) (f : Frame) :
    H2Event.requests (s.frameOpening f) = [] := by
  unfold frameOpening
  split_ifs <;> rfl

theorem frameEvents_ready {o : List Empty} (h : s.frameStep = some (o, s')) :
    s'.ready = s.ready ++ H2Event.requests (frameEvents s s') := by
  obtain ⟨-, ⟨hnext, rfl⟩ | ⟨f, rest, hnext, he⟩⟩ := frameStep_effect h
  · simp [frameEvents, hnext]
  · have hprefix : s.ready <+: s'.ready := by
      cases he with
      | quiet _ _ hready => exact ⟨[], by rw [hready, List.append_nil]⟩
      | reset _ _ _ hready => exact ⟨[], by rw [hready, List.append_nil]⟩
      | stream _ _ he =>
        cases he with
        | kept _ _ _ _ hready => exact ⟨[], by rw [hready, List.append_nil]⟩
        | surfaced _ req _ _ _ _ _ hready => exact ⟨[req], hready.symm⟩
    obtain ⟨new, hnew⟩ := hprefix
    rw [frameEvents, hnext]
    simp [frameOpening_requests, ← hnew]

/-- The requests a call adds to `ready` are those of its events. -/
theorem onInput_ready (s : H2Server H) (data : Bytes) :
    (s.onInput data).ready = s.ready ++ H2Event.requests (s.inputEvents data) := by
  rcases s.onInput_cases data with ⟨-, hr, he, -, -⟩ | ⟨-, s₀, hs, ho, he⟩
  · simp [hr, he]
  · rw [ho, he, ← (frameStart_same hs).2.1]
    refine (frameTracer H).run_invariant
      (P := fun o t => t.ready = s₀.ready ++ H2Event.requests o) (o := []) (by simp) ?_
    intro o t o' t' hP hstep
    obtain ⟨rfl, o'', hstep⟩ := (Machine.observe_step _).mp hstep
    rw [frameEvents_ready hstep, hP, H2Event.requests_append, List.append_assoc]

end H2Server

end Adwarden.Tls
