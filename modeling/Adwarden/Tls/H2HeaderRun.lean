import Adwarden.Rust.Word
import Adwarden.Tls.H2Segments

/-! A header block in one HEADERS frame, and the same block padded, prioritized and continued. -/
namespace Adwarden.Tls
open Adwarden.Lib

/-- A header block with everything that HTTP/2 may put around its fragments. -/
structure HeaderRun where
  streamId : UInt32
  endStream : Bool
  padding : Option Bytes
  priority : Option Bytes
  first : Bytes
  continued : List Bytes
  padding_fits : ∀ z ∈ padding, z.length ≤ 255
  priority_fits : ∀ w ∈ priority, w.length = 5
  block_fits : (first ++ continued.flatten).length < 2 ^ 24

namespace HeaderRun

def block (r : HeaderRun) : Bytes := r.first ++ r.continued.flatten

def flags (endStream endHeaders padded priority : Bool) : UInt8 :=
  (if endStream then fEndStream else 0) ||| (if endHeaders then fEndHeaders else 0) |||
    (if padded then fPadded else 0) ||| (if priority then fPriority else 0)

/-- The payload of the HEADERS frame: pad length, priority, fragment, padding. -/
def payload (r : HeaderRun) : Bytes :=
  (r.padding.map fun z => UInt8.ofNat z.length).toList ++ (r.priority.getD [] ++
    (r.first ++ r.padding.getD []))

def continuations (id : UInt32) : List Bytes → Bytes
  | [] => []
  | [x] => frameBytes tContinuation fEndHeaders id x
  | x :: y :: xs => frameBytes tContinuation 0 id x ++ continuations id (y :: xs)

/-- HEADERS and the CONTINUATION frames behind it. -/
def encode (r : HeaderRun) : Bytes :=
  frameBytes tHeaders
    (flags r.endStream (r.continued = []) r.padding.isSome r.priority.isSome) r.streamId
    r.payload ++ continuations r.streamId r.continued

/-- The block in a single unpadded HEADERS frame. -/
def single (r : HeaderRun) : Bytes :=
  frameBytes tHeaders (flags r.endStream true false false) r.streamId r.block

end HeaderRun

namespace H2Server

variable {H : Hpack} {s s' : H2Server H}

/-- Between two frames, with no header block open. -/
structure Idle (s : H2Server H) : Prop where
  prefaceSeen : s.prefaceSeen = true
  settingsSent : s.settingsSent = true
  live : s.failed = false
  unread : s.inbuf = []
  closed : s.continuation = none

section Frames

variable {ty flags : UInt8} {id : UInt32} {payload rest : Bytes}

private theorem length_bytes {n : ℕ} (h : n < 2 ^ 24) :
    (UInt8.ofNat (n / 65536)).toNat * 65536 + (UInt8.ofNat (n / 256)).toNat * 256 +
      (UInt8.ofNat n).toNat = n := by
  simp only [UInt8.toNat_ofNat']
  omega

private theorem id_bytes (id : UInt32) :
    ((id &&& 0x7fffffff) >>> 24).toUInt8.toUInt32 <<< 24 |||
        ((id &&& 0x7fffffff) >>> 16).toUInt8.toUInt32 <<< 16 |||
      ((id &&& 0x7fffffff) >>> 8).toUInt8.toUInt32 <<< 8 |||
        (id &&& 0x7fffffff).toUInt8.toUInt32 = id &&& 0x7fffffff := join32_beBytes _

/-- The frame in front of the buffer is taken, unless it is too long. -/
theorem frameStep_frame (hf : s.failed = false)
    (hi : s.inbuf = frameBytes ty flags id payload ++ rest) (hlen : payload.length < 2 ^ 24) :
    s.frameStep = some ([],
      if maxStreamBytes < payload.length then { s with failed := true }
      else { s with inbuf := rest }.onFrame ty flags (id &&& 0x7fffffff) payload) := by
  have hmask : id &&& 0x7fffffff &&& 0x7fffffff = id &&& 0x7fffffff := by
    rw [UInt32.and_assoc]
    rfl
  unfold frameStep
  rw [hf, if_neg Bool.false_ne_true, hi, frameBytes]
  dsimp only [List.cons_append, List.nil_append]
  rw [length_bytes hlen, id_bytes, hmask]
  have hwhole : ¬ (payload ++ rest).length < payload.length := by
    rw [List.length_append]
    omega
  split_ifs
  · rfl
  · rw [List.take_left, List.drop_left]

/-- The run of the loop over a frame. -/
theorem run_frame (hf : s.failed = false) (hlen : payload.length < 2 ^ 24) (rest : Bytes) :
    ((frameFeeder H).run { s with inbuf := frameBytes ty flags id payload ++ rest }).2 =
      ((frameFeeder H).run
        (if maxStreamBytes < payload.length then
          { s with inbuf := frameBytes ty flags id payload ++ rest, failed := true }
        else { s with inbuf := rest }.onFrame ty flags (id &&& 0x7fffffff) payload)).2 := by
  have hstep : (frameFeeder H).step
      { s with inbuf := frameBytes ty flags id payload ++ rest } = _ :=
    frameStep_frame (s := { s with inbuf := frameBytes ty flags id payload ++ rest }) hf rfl hlen
  rw [(frameFeeder H).run_some hstep]

theorem run_failed (h : s.failed = true) : ((frameFeeder H).run s).2 = s := by
  have hstop : (frameFeeder H).step s = none := if_pos h
  rw [(frameFeeder H).run_none hstop]

theorem onFrame_headers (hc : s.continuation = none) :
    s.onFrame tHeaders flags id payload = s.onHeaders flags id payload := by
  unfold onFrame
  rw [hc]
  rfl

theorem onFrame_continuation (hc : s.continuation = some id) :
    s.onFrame tContinuation flags id payload = s.onContinuation flags id payload := by
  unfold onFrame
  rw [hc, Option.any_some, if_neg (by simp)]
  rfl

theorem frameStep_unread (h : s.inbuf = []) : s.frameStep = none := by
  unfold frameStep
  rw [h]
  split_ifs <;> rfl

end Frames

/-- The stream's header block so far, and whether the stream ends behind it. -/
def collect (s : H2Server H) (id : UInt32) (endStream : Bool) (fragment : Bytes) : H2Server H :=
  { s with streams := s.streams.insert id { (s.streams.lookup id).getD {} with
      headerBlock := ((s.streams.lookup id).getD {}).headerBlock ++ fragment
      endStream } }

/-- Whether a header block on top of what the stream has is too long. -/
def TooLong (s : H2Server H) (id : UInt32) (fragment : Bytes) : Prop :=
  maxStreamBytes < ((s.streams.lookup id).getD {}).headerBlock.length + fragment.length

/-- The connection has failed with nothing done. -/
structure Stopped (s t : H2Server H) : Prop where
  failed : t.failed = true
  ready : t.ready = s.ready
  out : t.out = s.out
  dec : t.dec = s.dec

section Blocks

variable {flags : UInt8} {id : UInt32} {payload fragment : Bytes}

theorem onHeaders_collect (h0 : id ≠ 0) (hp : headersFragment flags payload = some fragment)
    (hlong : ¬ s.TooLong id fragment) :
    s.onHeaders flags id payload =
      if flags &&& fEndHeaders ≠ 0 then
        (s.collect id (flags &&& fEndStream ≠ 0) fragment).finishHeaders id
      else { s.collect id (flags &&& fEndStream ≠ 0) fragment with continuation := some id } := by
  rw [TooLong] at hlong
  unfold onHeaders
  rw [if_neg h0, hp]
  dsimp only
  rw [if_neg hlong]
  rfl

theorem onHeaders_stopped (hp : headersFragment flags payload = some fragment)
    (h : id = 0 ∨ s.TooLong id fragment) : Stopped s (s.onHeaders flags id payload) := by
  unfold onHeaders
  rw [hp]
  dsimp only
  split_ifs with h0 hlong
  · exact ⟨rfl, rfl, rfl, rfl⟩
  · exact ⟨rfl, rfl, rfl, rfl⟩
  · exact absurd (h.resolve_left h0) hlong
  · exact absurd (h.resolve_left h0) hlong

theorem onContinuation_collect (es : Bool) (p : Bytes) (hlong : ¬ s.TooLong id (p ++ payload)) :
    ({ s.collect id es p with continuation := some id } : H2Server H).onContinuation flags id
        payload =
      if flags &&& fEndHeaders ≠ 0 then
        ({ s.collect id es (p ++ payload) with continuation := none } : H2Server H).finishHeaders id
      else { s.collect id es (p ++ payload) with continuation := some id } := by
  unfold onContinuation
  rw [TooLong, List.length_append, ← Nat.add_assoc] at hlong
  simp only [collect, AList.lookup_insert, List.length_append, if_neg hlong, AList.insert_insert,
    List.append_assoc]

theorem onContinuation_stopped (es : Bool) (p : Bytes) (hlong : s.TooLong id (p ++ payload)) :
    Stopped s (({ s.collect id es p with continuation := some id } : H2Server H).onContinuation
      flags id payload) := by
  unfold onContinuation
  rw [TooLong, List.length_append, ← Nat.add_assoc] at hlong
  simp only [collect, AList.lookup_insert, List.length_append, if_pos hlong]
  exact ⟨rfl, rfl, rfl, rfl⟩

end Blocks

end H2Server

namespace HeaderRun

theorem flags_bits : ∀ a b c d : Bool,
    (flags a b c d &&& fEndStream ≠ 0 ↔ a = true) ∧
      (flags a b c d &&& fEndHeaders ≠ 0 ↔ b = true) ∧
      (flags a b c d &&& fPadded ≠ 0 ↔ c = true) ∧
      (flags a b c d &&& fPriority ≠ 0 ↔ d = true) := by decide

/-- The fragment is found between what is around it. -/
theorem headersFragment_payload (r : HeaderRun) (a b : Bool) :
    H2Server.headersFragment (flags a b r.padding.isSome r.priority.isSome) r.payload =
      some r.first := by
  have hpad : ∀ z, r.padding = some z → (UInt8.ofNat z.length).toNat = z.length := by
    intro z hz
    have hfits := r.padding_fits z hz
    rw [UInt8.toNat_ofNat']
    omega
  have hpri : ∀ w, r.priority = some w → ∀ y : Bytes,
      ¬ (w ++ y).length < 5 ∧ (w ++ y).drop 5 = y := by
    intro w hw y
    have hlen := r.priority_fits w hw
    constructor
    · rw [List.length_append]
      omega
    · rw [← hlen, List.drop_left]
  have hcut : ∀ z : Bytes, ¬ (r.first ++ z).length < z.length ∧
      (r.first ++ z).take ((r.first ++ z).length - z.length) = r.first := by
    intro z
    constructor
    · rw [List.length_append]
      omega
    · rw [List.length_append, Nat.add_sub_cancel, List.take_left]
  unfold H2Server.headersFragment H2Server.padding payload
  simp only [flags_bits]
  cases hz : r.padding with
  | none =>
    cases hw : r.priority with
    | none => simp
    | some w =>
      obtain ⟨hlen, hdrop⟩ := hpri w hw r.first
      simp only [Option.isSome_none, Option.isSome_some, Bool.false_eq_true, if_false, if_true,
        Option.map_none, Option.toList_none, Option.getD_none, Option.getD_some, List.nil_append,
        List.append_nil, Option.bind_eq_bind, Option.bind_some]
      rw [if_neg hlen, hdrop]
      simp
  | some z =>
    obtain ⟨hshort, htake⟩ := hcut z
    cases hw : r.priority with
    | none => simp [hpad z hz]
    | some w =>
      obtain ⟨hlen, hdrop⟩ := hpri w hw (r.first ++ z)
      simp only [Option.isSome_some, if_true, Option.map_some, Option.toList_some,
        Option.getD_some, List.singleton_append, Option.bind_eq_bind, Option.bind_some, hpad z hz]
      rw [if_neg hlen, hdrop, if_neg hshort, htake]

end HeaderRun

namespace H2Server

open HeaderRun

variable {H : Hpack} {s : H2Server H} {id : UInt32} {rest : Bytes}

theorem TooLong.mono {p q : Bytes} (h : s.TooLong id p) (hpq : p.length ≤ q.length) :
    s.TooLong id q := by
  unfold TooLong at h ⊢
  omega

theorem Stopped.of_eq {t t' : H2Server H} (h : Stopped s t) (he : t' = t) : Stopped s t' := he ▸ h

/-- A header block is open on the stream. -/
def gathering (s : H2Server H) (id : UInt32) (endStream : Bool) (p inbuf : Bytes) : H2Server H :=
  { s.collect id endStream p with continuation := some id, inbuf }

/-- The header block of the stream is complete. -/
def gathered (s : H2Server H) (id : UInt32) (endStream : Bool) (p inbuf : Bytes) : H2Server H :=
  ({ s.collect id endStream p with continuation := none, inbuf } : H2Server H).finishHeaders id

section Continuations

variable {es : Bool} {flags : UInt8} {p x : Bytes}

theorem run_continuation (hf : s.failed = false) (hx : x.length < 2 ^ 24)
    (hlong : ¬ s.TooLong (id &&& 0x7fffffff) (p ++ x)) :
    ((frameFeeder H).run (s.gathering (id &&& 0x7fffffff) es p
        (frameBytes tContinuation flags id x ++ rest))).2 =
      ((frameFeeder H).run
        (if flags &&& fEndHeaders ≠ 0 then s.gathered (id &&& 0x7fffffff) es (p ++ x) rest
        else s.gathering (id &&& 0x7fffffff) es (p ++ x) rest)).2 := by
  have hfit : ¬ maxStreamBytes < x.length := by
    rw [TooLong, List.length_append] at hlong
    omega
  have hrun :=
    @run_frame H (s.gathering (id &&& 0x7fffffff) es p []) tContinuation flags id x hf hx rest
  rw [if_neg hfit, onFrame_continuation rfl] at hrun
  refine hrun.trans ?_
  congr 2
  exact onContinuation_collect (s := { s with inbuf := rest }) es p hlong

theorem run_continuation_stopped (hf : s.failed = false) (hx : x.length < 2 ^ 24)
    (hlong : s.TooLong (id &&& 0x7fffffff) (p ++ x)) :
    Stopped s ((frameFeeder H).run (s.gathering (id &&& 0x7fffffff) es p
      (frameBytes tContinuation flags id x ++ rest))).2 := by
  have hrun :=
    @run_frame H (s.gathering (id &&& 0x7fffffff) es p []) tContinuation flags id x hf hx rest
  refine Stopped.of_eq ?_ hrun
  split_ifs
  · rw [run_failed rfl]
    exact ⟨rfl, rfl, rfl, rfl⟩
  · rw [onFrame_continuation rfl]
    have hstop := @onContinuation_stopped H { s with inbuf := rest } flags _ _ es p hlong
    have hrunstop := run_failed hstop.failed
    exact Stopped.of_eq ⟨hstop.failed, hstop.ready, hstop.out, hstop.dec⟩ hrunstop

end Continuations

/-- The CONTINUATION frames of an open block add their fragments to it, and the last closes it,
unless it gets too long. -/
theorem run_continuations (hf : s.failed = false) (es : Bool) (x : Bytes) (cs : List Bytes)
    (p : Bytes) (hsize : (p ++ (x :: cs).flatten).length < 2 ^ 24) (rest : Bytes) :
    (¬ s.TooLong (id &&& 0x7fffffff) (p ++ (x :: cs).flatten) →
      ((frameFeeder H).run (s.gathering (id &&& 0x7fffffff) es p
          (continuations id (x :: cs) ++ rest))).2 =
        ((frameFeeder H).run
          (s.gathered (id &&& 0x7fffffff) es (p ++ (x :: cs).flatten) rest)).2) ∧
    (s.TooLong (id &&& 0x7fffffff) (p ++ (x :: cs).flatten) →
      Stopped s ((frameFeeder H).run (s.gathering (id &&& 0x7fffffff) es p
          (continuations id (x :: cs) ++ rest))).2) := by
  have hx : x.length < 2 ^ 24 := by
    rw [List.length_append, List.flatten_cons, List.length_append] at hsize
    omega
  induction cs generalizing x p with
  | nil =>
    rw [List.flatten_cons, List.flatten_nil, List.append_nil, continuations]
    constructor
    · intro hlong
      rw [run_continuation hf hx hlong, if_pos (by decide)]
    · exact run_continuation_stopped hf hx
  | cons y ys ih =>
    have hsplit : p ++ (x :: y :: ys).flatten = p ++ x ++ (y :: ys).flatten := by
      rw [List.flatten_cons, List.append_assoc]
    have hframes : continuations id (x :: y :: ys) ++ rest =
        frameBytes tContinuation 0 id x ++ (continuations id (y :: ys) ++ rest) := by
      rw [continuations, List.append_assoc]
    rw [hsplit] at hsize
    have hlen := @List.length_append _ (p ++ x) (y :: ys).flatten
    have hin : y.length ≤ (y :: ys).flatten.length := by
      rw [List.flatten_cons, List.length_append]
      omega
    have hy : y.length < 2 ^ 24 := by omega
    obtain ⟨hclose, hstop⟩ := ih y (p ++ x) hsize hy
    rw [hsplit, hframes]
    by_cases hlong : s.TooLong (id &&& 0x7fffffff) (p ++ x)
    · constructor
      · intro hshort
        refine absurd (hlong.mono ?_) hshort
        omega
      · intro _
        exact run_continuation_stopped hf hx hlong
    · rw [run_continuation hf hx hlong, if_neg (by decide)]
      exact ⟨hclose, hstop⟩

/-- A header block and the rest of the input, once the server is between two frames. -/
theorem Idle.onInput (h : s.Idle) (data : Bytes) :
    s.onInput data = ((frameFeeder H).run { s with inbuf := data }).2 := by
  rw [H2Server.onInput, h.live, if_neg Bool.false_ne_true, if_pos h.settingsSent, onBytes, h.unread,
    List.nil_append]
  dsimp only
  rw [if_pos h.prefaceSeen, h.live]

theorem Idle.gathered (h : s.Idle) (es : Bool) (p : Bytes) :
    (({ s with inbuf := rest } : H2Server H).collect id es p).finishHeaders id =
      s.gathered id es p rest := by
  rw [H2Server.gathered, ← h.closed]
  rfl

theorem Stopped.run {t : H2Server H} (h : Stopped { s with inbuf := rest } t) :
    Stopped s ((frameFeeder H).run t).2 := by
  rw [run_failed h.failed]
  exact ⟨h.failed, h.ready, h.out, h.dec⟩

/-- A block in frames that are not too long is gathered and decoded, unless it gets too long. -/
theorem Idle.encode (h : s.Idle) (r : HeaderRun) (hfits : r.payload.length ≤ maxStreamBytes)
    (rest : Bytes) :
    (r.streamId &&& 0x7fffffff ≠ 0 → ¬ s.TooLong (r.streamId &&& 0x7fffffff) r.block →
      s.onInput (r.encode ++ rest) = ((frameFeeder H).run
        (s.gathered (r.streamId &&& 0x7fffffff) r.endStream r.block rest)).2) ∧
    (r.streamId &&& 0x7fffffff = 0 ∨ s.TooLong (r.streamId &&& 0x7fffffff) r.block →
      Stopped s (s.onInput (r.encode ++ rest))) := by
  have hsize : r.payload.length < 2 ^ 24 := by
    unfold maxStreamBytes at hfits
    omega
  have hfragment := r.headersFragment_payload r.endStream (r.continued = [])
  obtain ⟨hend, hlast, -⟩ :=
    flags_bits r.endStream (r.continued = []) r.padding.isSome r.priority.isSome
  have hsplit := r.block_fits
  rw [h.onInput, HeaderRun.encode, List.append_assoc, run_frame h.live hsize,
    if_neg (Nat.not_lt.mpr hfits),
    onFrame_headers (s := { s with inbuf := continuations r.streamId r.continued ++ rest })
      h.closed]
  by_cases hbad : r.streamId &&& 0x7fffffff = 0 ∨ s.TooLong (r.streamId &&& 0x7fffffff) r.first
  · have hstop := (onHeaders_stopped (s := { s with
      inbuf := continuations r.streamId r.continued ++ rest }) hfragment hbad).run
    constructor
    · intro h0 hlong
      refine absurd ((hbad.resolve_left h0).mono ?_) hlong
      rw [block, List.length_append]
      omega
    · intro _
      exact hstop
  · obtain ⟨h0, hshort⟩ := not_or.mp hbad
    rw [onHeaders_collect (s := { s with
      inbuf := continuations r.streamId r.continued ++ rest }) h0 hfragment hshort]
    simp only [hend, hlast, decide_eq_true_eq, Bool.decide_eq_true]
    cases hc : r.continued with
    | nil =>
      rw [if_pos rfl, block, hc, List.flatten_nil, List.append_nil, continuations, List.nil_append,
        h.gathered]
      exact ⟨fun _ _ => rfl, fun hor => absurd hor hbad⟩
    | cons x cs =>
      rw [hc] at hsplit
      obtain ⟨hclose, hstop⟩ :=
        @run_continuations H s r.streamId h.live r.endStream x cs r.first hsplit rest
      rw [if_neg (by simp), block, hc]
      exact ⟨fun _ => hclose, fun hor => hstop (hor.resolve_left h0)⟩

/-- The same of the single frame, however long it is. -/
theorem Idle.single (h : s.Idle) (r : HeaderRun) (rest : Bytes) :
    (r.streamId &&& 0x7fffffff ≠ 0 → ¬ s.TooLong (r.streamId &&& 0x7fffffff) r.block →
      s.onInput (r.single ++ rest) = ((frameFeeder H).run
        (s.gathered (r.streamId &&& 0x7fffffff) r.endStream r.block rest)).2) ∧
    (r.streamId &&& 0x7fffffff = 0 ∨ s.TooLong (r.streamId &&& 0x7fffffff) r.block →
      Stopped s (s.onInput (r.single ++ rest))) := by
  let alone : HeaderRun := { r with
    padding := none, priority := none, first := r.block, continued := []
    padding_fits := by simp
    priority_fits := by simp
    block_fits := by
      rw [List.flatten_nil, List.append_nil]
      exact r.block_fits }
  have hpayload : alone.payload = r.block := by simp [payload, alone]
  have hblock : alone.block = r.block := by simp [block, alone]
  have hencode : alone.encode = r.single := by
    rw [HeaderRun.encode, hpayload]
    simp [alone, HeaderRun.single, continuations]
  by_cases hlong : maxStreamBytes < r.block.length
  · have htoo : s.TooLong (r.streamId &&& 0x7fffffff) r.block := by
      unfold TooLong
      omega
    refine ⟨fun _ hshort => absurd htoo hshort, fun _ => ?_⟩
    have hsize : r.block.length < 2 ^ 24 := r.block_fits
    rw [h.onInput, HeaderRun.single, run_frame h.live hsize, if_pos hlong, run_failed rfl]
    exact ⟨rfl, rfl, rfl, rfl⟩
  · have hrun := h.encode alone (by rw [hpayload]; omega) rest
    rw [hencode, hblock] at hrun
    exact hrun

/-- Padding, priority and CONTINUATION frames make no difference, as long as what is around the
first fragment leaves its frame within the limit. -/
theorem Idle.encode_single (h : s.Idle) (r : HeaderRun)
    (hfits : r.payload.length ≤ maxStreamBytes) (rest : Bytes) :
    SameService (s.onInput (r.encode ++ rest)) (s.onInput (r.single ++ rest)) := by
  obtain ⟨hopen, hstop⟩ := h.encode r hfits rest
  obtain ⟨hopen', hstop'⟩ := h.single r rest
  by_cases hbad : r.streamId &&& 0x7fffffff = 0 ∨ s.TooLong (r.streamId &&& 0x7fffffff) r.block
  · have hs := hstop hbad
    have hs' := hstop' hbad
    exact ⟨hs.failed.trans hs'.failed.symm, hs.ready.trans hs'.ready.symm,
      hs.out.trans hs'.out.symm, hs.dec.trans hs'.dec.symm⟩
  · obtain ⟨h0, hshort⟩ := not_or.mp hbad
    rw [hopen h0 hshort, hopen' h0 hshort]
    exact ⟨rfl, rfl, rfl, rfl⟩

end H2Server

open H2Server

/-- Neither the cut of a stream nor what is around a header block makes a difference, as long as the
HEADERS frame keeps within the frame limit. -/
theorem h2_framing (H : Hpack) :
    (∀ a b : List Bytes, (∀ x ∈ a, x ≠ []) → (∀ x ∈ b, x ≠ []) → a.flatten = b.flatten →
      SameService (({} : H2Server H).inputs a) (({} : H2Server H).inputs b) ∧
        blocks H a = blocks H b) ∧
    ∀ s : H2Server H, s.Idle → ∀ r : HeaderRun, r.payload.length ≤ maxStreamBytes →
      ∀ rest, SameService (s.onInput (r.encode ++ rest)) (s.onInput (r.single ++ rest)) := by
  constructor
  · intro a b ha hb h
    -- one run with the record of the blocks settles both
    have hlogged : SameService (({} : H2Server H.logged).inputs a) (({} : H2Server H.logged).inputs b) :=
      inputs_segments ha hb h
    have hserver := hlogged.view H.unlogged
    rw [inputs_logged, inputs_logged] at hserver
    exact ⟨hserver, congrArg Prod.snd hlogged.dec⟩
  · intro s hs r hfits rest
    exact hs.encode_single r hfits rest

/-- A server that has read the preface. -/
def prefaced : H2Server literalHpack := ({} : H2Server literalHpack).onInput preface

private theorem prefaced_idle : prefaced.Idle where
  prefaceSeen := by decide
  settingsSent := by decide
  live := by decide
  unread := by decide
  closed := by decide

/-- A request whose header block is padded, prioritized and continued twice. -/
def paddedRun : HeaderRun where
  streamId := 1
  endStream := true
  padding := some [0, 0]
  priority := some [0, 0, 0, 0, 15]
  first := [0x82]
  continued := [[0x84, 1, 3], ascii "dns"]
  padding_fits := by decide
  priority_fits := by decide
  block_fits := by decide

/-- The preface and the request, cut inside the HEADERS frame: inside its own header and inside its
priority. -/
def paddedCuts : List Bytes :=
  [preface ++ paddedRun.encode.take 5, (paddedRun.encode.drop 5).take 7, paddedRun.encode.drop 12]

theorem h2_framing_split :
    SameService (({} : H2Server literalHpack).inputs paddedCuts)
        (({} : H2Server literalHpack).inputs [preface ++ paddedRun.encode]) ∧
      blocks literalHpack paddedCuts = blocks literalHpack [preface ++ paddedRun.encode] ∧
      blocks literalHpack paddedCuts = [[0x82, 0x84, 1, 3] ++ ascii "dns"] ∧
      SameService (prefaced.onInput (paddedRun.encode ++ []))
        (prefaced.onInput (paddedRun.single ++ [])) ∧
      (prefaced.onInput (paddedRun.encode ++ [])).ready.map H2Request.authority =
        [Str.lit "dns"] := by
  obtain ⟨hcuts, hruns⟩ := h2_framing literalHpack
  obtain ⟨hservice, hblocks⟩ := hcuts paddedCuts [preface ++ paddedRun.encode] (by decide)
    (by decide) (by decide)
  exact ⟨hservice, hblocks, by decide +kernel,
    hruns prefaced prefaced_idle paddedRun (by decide) [], by decide +kernel⟩

/-- A header block of 64 KiB, a field for each byte, and its frame with a pad length of 0. -/
def fullRun : HeaderRun where
  streamId := 1
  endStream := true
  padding := some []
  priority := none
  first := List.replicate 65536 0x84
  continued := []
  padding_fits := by simp
  priority_fits := by simp
  block_fits := by
    rw [List.flatten_nil, List.append_nil, List.length_replicate]
    norm_num

private theorem literalFields_paths (n : ℕ) :
    literalFields n (List.replicate n 0x84) =
      some (List.replicate n (ascii ":path", ascii "/")) := by
  induction n with
  | zero => rfl
  | succ n ih =>
    rw [List.replicate_succ, literalFields, if_neg (by decide), if_neg (by decide), if_pos rfl, ih]
    rfl

private theorem recordHeader_ends (stream : Stream) (headers : List (Bytes × Bytes)) :
    (headers.foldl recordHeader stream).headersDone = stream.headersDone ∧
      (headers.foldl recordHeader stream).endStream = stream.endStream := by
  induction headers generalizing stream with
  | nil => exact ⟨rfl, rfl⟩
  | cons kv headers ih =>
    obtain ⟨hh, he⟩ := ih (recordHeader stream kv)
    rw [List.foldl_cons, hh, he]
    unfold recordHeader
    split_ifs <;> exact ⟨rfl, rfl⟩

/-- The header block of a new stream that ends with it makes a request, if it decodes. -/
theorem gathered_request {H : Hpack} {s : H2Server H} {id : UInt32} {p : Bytes}
    {d : H.Decoder} {headers : List (Bytes × Bytes)} (hl : s.streams.lookup id = none)
    (hd : H.decode s.dec p = (d, some headers)) :
    ∃ req, (s.gathered id true p []).ready = s.ready ++ [req] ∧
      (s.gathered id true p []).inbuf = [] ∧
      (s.gathered id true p []).failed = s.failed := by
  obtain ⟨hh, he⟩ := recordHeader_ends { headersDone := true, endStream := true } headers
  have hdisp := recordHeader_dispatched { headersDone := true, endStream := true } headers
  simp only [gathered, collect, hl, finishHeaders, Option.getD_none, List.nil_append,
    AList.lookup_insert, hd, maybeDispatch, AList.insert_insert, hh, he, hdisp]
  simp

section Limit

variable {H : Hpack} {s : H2Server H}

/-- A plain HEADERS frame that ends a new stream makes a request. -/
theorem H2Server.Idle.single_request (h : s.Idle) (r : HeaderRun)
    (h0 : r.streamId &&& 0x7fffffff ≠ 0)
    (hl : s.streams.lookup (r.streamId &&& 0x7fffffff) = none) (he : r.endStream = true)
    (hfits : r.block.length ≤ maxStreamBytes) {d : H.Decoder} {headers : List (Bytes × Bytes)}
    (hd : H.decode s.dec r.block = (d, some headers)) :
    ∃ req, (s.onInput (r.single ++ [])).ready = s.ready ++ [req] := by
  have hshort : ¬ s.TooLong (r.streamId &&& 0x7fffffff) r.block := by
    rw [TooLong, hl, Option.getD_none, List.length_nil]
    omega
  obtain ⟨req, hr, hi, -⟩ := gathered_request hl hd
  have hstop : (frameFeeder H).step (s.gathered (r.streamId &&& 0x7fffffff) true r.block []) =
      none := frameStep_unread hi
  refine ⟨req, ?_⟩
  rw [(h.single r []).1 h0 hshort, he, (frameFeeder H).run_none hstop, hr]

/-- A HEADERS frame over the limit fails the connection, whatever it is filled with. -/
theorem H2Server.Idle.encode_long (h : s.Idle) (r : HeaderRun)
    (hlong : maxStreamBytes < r.payload.length)
    (hsize : r.payload.length < 2 ^ 24) (rest : Bytes) :
    Stopped s (s.onInput (r.encode ++ rest)) := by
  rw [h.onInput, HeaderRun.encode, List.append_assoc, run_frame h.live hsize, if_pos hlong,
    run_failed rfl]
  exact ⟨rfl, rfl, rfl, rfl⟩

end Limit

/-- A block that makes a request in a plain HEADERS frame fails the connection in a padded one. -/
theorem pad_length_fails : prefaced.Idle ∧ fullRun.padding = some [] ∧
    (∃ req, (prefaced.onInput (fullRun.single ++ [])).ready = [req]) ∧
    (prefaced.onInput (fullRun.encode ++ [])).failed = true ∧
    (prefaced.onInput (fullRun.encode ++ [])).ready = [] := by
  have hnone : prefaced.streams.lookup (fullRun.streamId &&& 0x7fffffff) = none := by
    decide +kernel
  have hready : prefaced.ready = [] := by decide +kernel
  have hblock : fullRun.block = List.replicate 65536 0x84 := by
    rw [HeaderRun.block, fullRun, List.flatten_nil, List.append_nil]
  have hlen : fullRun.block.length = 65536 := by rw [hblock, List.length_replicate]
  have hpayload : fullRun.payload = 0 :: List.replicate 65536 0x84 := by
    rw [HeaderRun.payload, fullRun, Option.getD_none, Option.getD_some, List.append_nil,
      List.nil_append]
    rfl
  have hdecode : ∀ dec, literalHpack.decode dec fullRun.block =
      ((), some (List.replicate 65536 (ascii ":path", ascii "/"))) := by
    intro dec
    have hfields := literalFields_paths 65536
    rw [hblock]
    change ((), literalFields (List.replicate 65536 0x84).length (List.replicate 65536 0x84)) = _
    rw [List.length_replicate, hfields]
  obtain ⟨req, hreq⟩ := prefaced_idle.single_request fullRun (by decide) hnone rfl
    (by rw [hlen]; decide) (hdecode _)
  have hstop := prefaced_idle.encode_long fullRun
    (by rw [hpayload, List.length_cons, List.length_replicate]; decide)
    (by rw [hpayload, List.length_cons, List.length_replicate]; norm_num) []
  rw [hready] at hreq
  exact ⟨prefaced_idle, rfl, ⟨req, hreq⟩, hstop.failed, hstop.ready.trans hready⟩

end Adwarden.Tls
