import Adwarden.Rust.Word
import Mathlib.Tactic.Common

/-! The writer of packet captures, and what of a traffic it keeps under a byte cap. The framing of
blocks is the pcapng library's, which is a parameter. -/
namespace Adwarden.Core

/-- What the library is given to write; an interface is raw IP. -/
inductive PcapBlock where
  | section
  | interface (snaplen : ℕ)
  | unknown (type : ℕ) (body : Bytes)
  | enhancedPacket (timestamp : ℕ) (originalLen : ℕ) (data : Bytes)
deriving DecidableEq

/-- How many bytes the `n`-th block on a descriptor takes, `none` if it cannot be written. -/
abbrev Disk := (fd n : ℕ) → PcapBlock → Option ℕ

def decryptionSecretsBlock : ℕ := 0x0000_000A

def secretsTypeTlsKeylog : ℕ := 0x544C_534B

def pcapSnaplen : ℕ := 65535

/-- `blocks` are those that have been written, and `calls` counts the attempts. -/
structure PcapWriter where
  fd : ℕ
  blocks : List PcapBlock
  calls : ℕ
  snaplen : ℕ
  written : ℕ
  cap : Option ℕ
  stopped : Bool
deriving DecidableEq

namespace PcapWriter

variable (disk : Disk)

/-- The section header is not counted. -/
def new (fd snaplen : ℕ) (cap : Option ℕ) : Option PcapWriter :=
  match disk fd 0 .section, disk fd 1 (.interface snaplen) with
  | some _, some n => some ⟨fd, [.section, .interface snaplen], 2, snaplen, n, cap, false⟩
  | _, _ => none

/-- Write one block, and stop once the cap is reached. An error leaves the counters. -/
def writeBlock (w : PcapWriter) (block : PcapBlock) : PcapWriter :=
  match disk w.fd w.calls block with
  | none => { w with calls := w.calls + 1 }
  | some n =>
    let written := w.written + n
    { w with
      blocks := w.blocks ++ [block]
      calls := w.calls + 1
      written := written
      stopped := w.stopped || (w.cap.map (decide <| · ≤ written)).getD false }

/-- The body of a block of secrets. -/
def secretsBody (keylog : Bytes) : Bytes :=
  leBytes 4 secretsTypeTlsKeylog ++ leBytes 4 keylog.length ++ keylog

def writeTlsSecrets (w : PcapWriter) (keylog : Bytes) : PcapWriter :=
  if w.stopped || keylog.isEmpty then w
  else w.writeBlock disk (.unknown decryptionSecretsBlock (secretsBody keylog))

def writePacket (w : PcapWriter) (timestamp : ℕ) (packet : Bytes) : PcapWriter :=
  if w.stopped then w
  else
    let capLen := min packet.length w.snaplen
    w.writeBlock disk (.enhancedPacket timestamp packet.length (packet.take capLen))

end PcapWriter

/-- What a capture is shown. -/
inductive Crossing where
  | secrets (keylog : Bytes)
  | packet (timestamp : ℕ) (data : Bytes)
deriving DecidableEq

namespace Crossing

/-- The block it makes, if any. -/
def block (snaplen : ℕ) : Crossing → Option PcapBlock
  | secrets [] => none
  | secrets keylog => some (.unknown decryptionSecretsBlock (PcapWriter.secretsBody keylog))
  | packet timestamp data => some (.enhancedPacket timestamp data.length (data.take snaplen))

end Crossing

namespace PcapWriter

variable (disk : Disk)

def tap (w : PcapWriter) : Crossing → PcapWriter
  | .secrets keylog => w.writeTlsSecrets disk keylog
  | .packet timestamp data => w.writePacket disk timestamp data

/-- Write a block unless the writer has stopped. -/
def offer (w : PcapWriter) (block : PcapBlock) : PcapWriter :=
  if w.stopped then w else w.writeBlock disk block

theorem tap_eq (w : PcapWriter) (c : Crossing) :
    w.tap disk c = (c.block w.snaplen).toList.foldl (offer disk) w := by
  cases c with
  | secrets keylog =>
    cases keylog with
    | nil => simp [tap, writeTlsSecrets, Crossing.block]
    | cons b keylog => simp [tap, writeTlsSecrets, Crossing.block, offer]
  | packet timestamp data =>
    have htake : data.take (min data.length w.snaplen) = data.take w.snaplen := by
      rw [min_comm, ← List.take_eq_take_min]
    simp only [tap, writePacket, htake]
    rfl

/-- What of a writer stays as it was made. -/
def header (w : PcapWriter) : ℕ × ℕ × Option ℕ := (w.fd, w.snaplen, w.cap)

@[simp] theorem header_offer (w : PcapWriter) (b : PcapBlock) :
    (w.offer disk b).header = w.header := by
  unfold offer writeBlock
  split
  · rfl
  · split <;> rfl

@[simp] theorem header_tap (w : PcapWriter) (c : Crossing) : (w.tap disk c).header = w.header := by
  rw [tap_eq]
  cases c.block w.snaplen with
  | none => rfl
  | some b => exact header_offer disk w b

theorem header_foldl_tap (w : PcapWriter) (cs : List Crossing) :
    (cs.foldl (tap disk) w).header = w.header := by
  induction cs generalizing w with
  | nil => rfl
  | cons c cs ih => rw [List.foldl_cons, ih, header_tap]

/-- A writer starts with its two headers in the file. -/
theorem new_spec {fd snaplen : ℕ} {cap : Option ℕ} {w : PcapWriter}
    (h : new disk fd snaplen cap = some w) : w.header = (fd, snaplen, cap) ∧
      w.blocks = [.section, .interface snaplen] ∧ w.stopped = false ∧
      disk fd 1 (.interface snaplen) = some w.written := by
  unfold new at h
  split at h
  · next n _ hn =>
    obtain rfl := Option.some.inj h
    exact ⟨rfl, rfl, rfl, hn⟩
  · cases h

/-- All blocks of a traffic, in its order. -/
def blocksOf (snaplen : ℕ) (traffic : List Crossing) : List PcapBlock :=
  traffic.filterMap (Crossing.block snaplen)

theorem foldl_tap (w : PcapWriter) (traffic : List Crossing) :
    traffic.foldl (tap disk) w = (blocksOf w.snaplen traffic).foldl (offer disk) w := by
  induction traffic generalizing w with
  | nil => rfl
  | cons c traffic ih =>
    have hsnap (b : PcapBlock) : (w.offer disk b).snaplen = w.snaplen :=
      congrArg (fun p => p.2.1) (header_offer disk w b)
    rw [List.foldl_cons, ih, tap_eq]
    cases hc : c.block w.snaplen with
    | none => simp [blocksOf, hc]
    | some b => simp [blocksOf, hc, hsnap]

/-- Whatever the disk does, what is in the file was offered, in this order. -/
theorem foldl_offer_sublist (w : PcapWriter) (bs : List PcapBlock) :
    ∃ kept, kept.Sublist bs ∧ (bs.foldl (offer disk) w).blocks = w.blocks ++ kept := by
  induction bs generalizing w with
  | nil => exact ⟨[], .slnil, (List.append_nil _).symm⟩
  | cons b bs ih =>
    obtain ⟨kept, hsub, hblocks⟩ := ih (w.offer disk b)
    rw [List.foldl_cons, hblocks]
    have hone : (w.offer disk b).blocks = w.blocks ∨
        (w.offer disk b).blocks = w.blocks ++ [b] := by
      unfold offer writeBlock
      split
      · exact .inl rfl
      · split
        · exact .inl rfl
        · exact .inr rfl
    rcases hone with h | h
    · exact ⟨kept, hsub.cons b, by rw [h]⟩
    · exact ⟨b :: kept, hsub.cons_cons b, by rw [h, List.append_assoc]; rfl⟩

/-- What a cap leaves of a sequence of blocks: all of it, or the shortest part in front, of one
block at least, that reaches the cap. -/
structure Kept (size : PcapBlock → ℕ) (cap : Option ℕ) (before : ℕ) (bs kept : List PcapBlock) :
    Prop where
  pre : kept <+: bs
  reached : kept ≠ bs → ∃ c, cap = some c ∧ c ≤ before + (kept.map size).sum
  least : ∀ init, init <+: kept → init ≠ kept → init ≠ [] → ∀ c, cap = some c →
    before + (init.map size).sum < c

variable {disk}

/-- A disk that takes all that is written to it. -/
def Roomy (disk : Disk) (size : PcapBlock → ℕ) : Prop := ∀ fd n b, disk fd n b = some (size b)

theorem foldl_offer_stopped {w : PcapWriter} (h : w.stopped = true) (bs : List PcapBlock) :
    bs.foldl (offer disk) w = w := by
  induction bs with
  | nil => rfl
  | cons b bs ih => rw [List.foldl_cons, offer, if_pos h, ih]

theorem foldl_offer_kept {size : PcapBlock → ℕ} (hdisk : Roomy disk size) {w : PcapWriter}
    (hw : w.stopped = false) (bs : List PcapBlock) :
    ∃ kept, (bs.foldl (offer disk) w).blocks = w.blocks ++ kept ∧
      Kept size w.cap w.written bs kept := by
  induction bs generalizing w with
  | nil =>
    refine ⟨[], (List.append_nil _).symm, List.prefix_refl _, fun h => absurd rfl h, ?_⟩
    intro init hinit hne
    exact absurd (List.prefix_nil.mp hinit) hne
  | cons b bs ih =>
    have hwrite : w.offer disk b =
        { w with
          blocks := w.blocks ++ [b]
          calls := w.calls + 1
          written := w.written + size b
          stopped := (w.cap.map (decide <| · ≤ w.written + size b)).getD false } := by
      simp [offer, hw, writeBlock, hdisk w.fd w.calls b]
    rw [List.foldl_cons]
    cases hs : (w.offer disk b).stopped with
    | true =>
      rw [foldl_offer_stopped hs]
      refine ⟨[b], by rw [hwrite], by simp, ?_, ?_⟩
      · intro _
        rw [hwrite] at hs
        cases hc : w.cap with
        | none => simp [hc] at hs
        | some c => exact ⟨c, rfl, by simpa [hc] using hs⟩
      · intro init hinit hne hnil
        rcases List.prefix_cons_iff.mp hinit with h | ⟨t, rfl, ht⟩
        · exact absurd h hnil
        · obtain rfl := List.prefix_nil.mp ht
          exact absurd rfl hne
    | false =>
      obtain ⟨kept, hblocks, hpre, hreached, hleast⟩ := ih hs
      have hcap : (w.offer disk b).cap = w.cap := by rw [hwrite]
      have hsum (bs : List PcapBlock) : (w.offer disk b).written + (bs.map size).sum =
          w.written + ((b :: bs).map size).sum := by
        rw [hwrite, List.map_cons, List.sum_cons]
        exact Nat.add_assoc ..
      simp only [hcap, hsum] at hreached hleast
      refine ⟨b :: kept, ?_, List.cons_prefix_cons.mpr ⟨rfl, hpre⟩, ?_, ?_⟩
      · rw [hblocks, hwrite]
        exact List.append_assoc ..
      · intro hne
        exact hreached (fun h => hne (by rw [h]))
      · intro init hinit hne hnil c hc
        rcases List.prefix_cons_iff.mp hinit with h | ⟨t, rfl, ht⟩
        · exact absurd h hnil
        · by_cases htn : t = []
          · rw [hwrite] at hs
            subst htn
            simpa [hc] using hs
          · exact hleast t ht (fun h => hne (by rw [h])) htn c hc

end PcapWriter

end Adwarden.Core
