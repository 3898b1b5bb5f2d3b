import Adwarden.Lib.Transducer
import Adwarden.Tls.DohQuery

/-! DNS over TLS: 2-byte length-prefixed DNS messages on a decrypted client stream. -/
namespace Adwarden.Tls
open Adwarden.Lib Adwarden.Dns

/-- Largest buffered but incomplete message held before falling back to passthrough. -/
def maxPending : ℕ := 128 * 1024

structure Dot where
  appBuf : Bytes := []
  passthrough : Bool := false
deriving DecidableEq

/-- Prepend the DNS-over-TCP length. -/
def pushFramed (msg : Bytes) : Bytes :=
  let len := min msg.length 65535
  UInt8.ofNat (len / 256) :: UInt8.ofNat (len % 256) :: msg.take len

def dotMessage (isBlocked : Str → Bool) (framed : Bytes) : List DnsEmit :=
  let msg := framed.drop 2
  match parseQuery msg with
  | some q =>
    if isBlocked q.name then
      (pushFramed (synthesizeNxdomain msg q)).map .app ++ [.blocked q.name]
    else framed.map .upstream
  | none => framed.map .upstream

/-- One iteration of the loop in `Dot::on_app_data`. -/
def dotStep (isBlocked : Str → Bool) (s : Dot) : Option (List DnsEmit × Dot) :=
  if s.passthrough then none
  else match s.appBuf with
    | hi :: lo :: _ =>
      let total := 2 + (hi.toNat * 256 + lo.toNat)
      if s.appBuf.length < total then
        if maxPending < total then some (s.appBuf.map .upstream, ⟨[], true⟩) else none
      else some (dotMessage isBlocked (s.appBuf.take total), { s with appBuf := s.appBuf.drop total })
    | _ => none

private theorem dotStep_decreases {isBlocked : Str → Bool} {s s' : Dot} {o : List DnsEmit}
    (h : dotStep isBlocked s = some (o, s')) : s'.appBuf.length < s.appBuf.length := by
  unfold dotStep at h
  split_ifs at h
  split at h
  · next hb =>
    dsimp only at h
    split_ifs at h <;> obtain ⟨-, rfl⟩ := by simpa using h
    · simp [hb]
    · simp only [hb, List.length_drop, List.length_cons]
      omega
  · simp at h

def dotFeeder (isBlocked : Str → Bool) : Feeder Dot DnsEmit UInt8 where
  step := dotStep isBlocked
  measure s := s.appBuf.length
  decreases := dotStep_decreases
  ext s d := { s with appBuf := s.appBuf ++ d }
  ext_nil s := by simp
  ext_append s a b := by simp

def Dot.onAppData (isBlocked : Str → Bool) (s : Dot) (data : Bytes) : List DnsEmit × Dot :=
  if s.passthrough then (data.map .upstream, s) else (dotFeeder isBlocked).feed s data

/-- The 16-bit big-endian length prefix followed by the message. -/
def framed (m : Bytes) : Bytes :=
  UInt8.ofNat (m.length / 256) :: UInt8.ofNat (m.length % 256) :: m

/-- `stream` is a sequence of length-prefixed messages followed by an incomplete tail. -/
structure DotFraming (stream : Bytes) (msgs : List Bytes) (tail : Bytes) : Prop where
  eq : stream = msgs.flatMap framed ++ tail
  short : ∀ m ∈ msgs, m.length ≤ 65535
  incomplete : ∀ hi lo rest, tail = hi :: lo :: rest → rest.length < hi.toNat * 256 + lo.toNat

theorem pushFramed_eq {m : Bytes} (h : m.length ≤ 65535) : pushFramed m = framed m := by
  simp [pushFramed, framed, Nat.min_eq_left h]

private theorem prefix_toNat {n : ℕ} (h : n ≤ 65535) :
    (UInt8.ofNat (n / 256)).toNat * 256 + (UInt8.ofNat (n % 256)).toNat = n := by
  have h1 : n / 256 < 256 := by omega
  have h2 : n % 256 < 256 := by omega
  simp only [UInt8.toNat_ofNat', Nat.reducePow, Nat.mod_eq_of_lt h1, Nat.mod_eq_of_lt h2]
  omega

variable {isBlocked : Str → Bool}

variable (isBlocked) in
theorem dotStep_framed {m : Bytes} (hm : m.length ≤ 65535) (x : Bytes) :
    dotStep isBlocked ⟨framed m ++ x, false⟩ =
      some (dotMessage isBlocked (framed m), ⟨x, false⟩) := by
  have hl : (framed m).length = 2 + m.length := by simp [framed]; omega
  have ht : (framed m ++ x).take (2 + m.length) = framed m := by rw [← hl, List.take_left']; rfl
  have hd : (framed m ++ x).drop (2 + m.length) = x := by rw [← hl, List.drop_left']; rfl
  simp only [dotStep, framed, List.cons_append, prefix_toNat hm] at ht hd ⊢
  simp [ht, hd]
  omega

theorem dotStep_incomplete {tail : Bytes}
    (ht : ∀ hi lo rest, tail = hi :: lo :: rest → rest.length < hi.toNat * 256 + lo.toNat) :
    dotStep isBlocked ⟨tail, false⟩ = none := by
  unfold dotStep
  match tail, ht with
  | [], _ => rfl
  | [_], _ => rfl
  | hi :: lo :: rest, ht =>
    have := ht hi lo rest rfl
    have h1 := UInt8.toNat_lt hi
    have h2 := UInt8.toNat_lt lo
    have hlt : rest.length + 1 + 1 < 2 + (hi.toNat * 256 + lo.toNat) := by omega
    have hmax : ¬ maxPending < 2 + (hi.toNat * 256 + lo.toNat) := by simp only [maxPending]; omega
    simp [hlt, hmax]

/-- Passthrough is out of reach, since a prefix addresses at most 64 KiB. -/
theorem dotStep_some {s s' : Dot} {o : List DnsEmit} (h : dotStep isBlocked s = some (o, s')) :
    s.passthrough = false ∧ ∃ m : Bytes, m.length ≤ 65535 ∧ s.appBuf = framed m ++ s'.appBuf ∧
      s'.passthrough = false ∧ o = dotMessage isBlocked (framed m) := by
  unfold dotStep at h
  split_ifs at h with hp
  refine ⟨by simpa using hp, ?_⟩
  split at h
  · next hi lo rest hb =>
    have h1 := UInt8.toNat_lt hi
    have h2 := UInt8.toNat_lt lo
    dsimp only at h
    split_ifs at h with hlt hmax
    · simp only [maxPending] at hmax; omega
    · obtain ⟨rfl, rfl⟩ := by simpa using h
      have hlen : (rest.take (hi.toNat * 256 + lo.toNat)).length = hi.toNat * 256 + lo.toNat := by
        rw [hb] at hlt
        simp only [List.length_cons, not_lt] at hlt
        rw [List.length_take]
        omega
      have hf : framed (rest.take (hi.toNat * 256 + lo.toNat)) =
          s.appBuf.take (2 + (hi.toNat * 256 + lo.toNat)) := by
        have hq : (hi.toNat * 256 + lo.toNat) / 256 = hi.toNat := by omega
        have hr : (hi.toNat * 256 + lo.toNat) % 256 = lo.toNat := by omega
        simp [framed, hlen, hb, hq, hr, Nat.add_comm 2]
      refine ⟨rest.take (hi.toNat * 256 + lo.toNat), by omega, ?_, by simpa using hp, by rw [hf]⟩
      rw [hf, List.take_append_drop]
  · simp at h

theorem dotFeeder_incremental : (dotFeeder isBlocked).Incremental := by
  intro s o s' b h
  obtain ⟨hp, m, hm, hb, hp', rfl⟩ := dotStep_some h
  apply (dotFeeder isBlocked).run_ext_of_step
  obtain ⟨buf, p⟩ := s
  obtain ⟨buf', p'⟩ := s'
  obtain ⟨rfl, rfl, rfl⟩ : p = false ∧ p' = false ∧ buf = framed m ++ buf' := ⟨hp, hp', hb⟩
  simpa [dotFeeder] using dotStep_framed isBlocked hm (buf' ++ b)

/-- One run handles the complete messages in order and keeps the incomplete tail. -/
theorem dot_run_framing {msgs : List Bytes} {stream tail : Bytes}
    (h : DotFraming stream msgs tail) :
    (dotFeeder isBlocked).run ⟨stream, false⟩ =
      (msgs.flatMap fun m => dotMessage isBlocked (framed m), ⟨tail, false⟩) := by
  obtain ⟨rfl, hs, hi⟩ := h
  induction msgs with
  | nil => exact (dotFeeder isBlocked).run_none (dotStep_incomplete hi)
  | cons m msgs ih =>
    have hstep : (dotFeeder isBlocked).step
        ⟨framed m ++ (msgs.flatMap framed ++ tail), false⟩ =
          some (dotMessage isBlocked (framed m), ⟨msgs.flatMap framed ++ tail, false⟩) :=
      dotStep_framed isBlocked (hs m (by simp)) _
    rw [List.flatMap_cons, List.append_assoc, (dotFeeder isBlocked).run_some hstep,
      ih fun m hm => hs m (by simp [hm])]
    rfl

/-- Every byte stream has such a reading. -/
theorem DotFraming.exists (stream : Bytes) : ∃ msgs tail, DotFraming stream msgs tail := by
  induction hn : stream.length using Nat.strongRecOn generalizing stream with
  | ind n ih =>
    cases hs : dotStep (fun _ => false) ⟨stream, false⟩ with
    | some r =>
      obtain ⟨-, m, hm, hb, -, -⟩ := dotStep_some (show _ = some (r.1, r.2) from hs)
      dsimp only at hb
      obtain ⟨msgs, tail, rfl', hshort, hinc⟩ := ih r.2.appBuf.length
        (by rw [← hn, hb]; simp [framed]; omega) r.2.appBuf rfl
      refine ⟨m :: msgs, tail, ?_, ?_, hinc⟩
      · rw [hb, rfl']; simp
      · simpa using ⟨hm, hshort⟩
    | none =>
      refine ⟨[], stream, by simp, by simp, ?_⟩
      rintro hi lo rest rfl
      by_contra hlt
      have h1 := UInt8.toNat_lt hi
      have h2 := UInt8.toNat_lt lo
      have hle : ¬ rest.length + 1 + 1 < 2 + (hi.toNat * 256 + lo.toNat) := by omega
      simp [dotStep, hle] at hs

end Adwarden.Tls
