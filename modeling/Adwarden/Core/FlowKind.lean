import Adwarden.Core.Flow

/-! What a flow is, under every step that works on it: whether it still waits for its server name,
and whether it is spliced. -/
namespace Adwarden.Core
open Adwarden.Net Adwarden.Tls

variable {σ μ : Type} [Splice μ]

/-- The fields that settle what a flow is; the splice only by its kind. -/
structure FlowKind where
  classify : Classify
  dns : Option Bool
  httpForward : Bool
  uid : ℤ
  server : SocketAddr
deriving DecidableEq

def TcpUpstream.kind (up : TcpUpstream μ) : FlowKind where
  classify := up.classify
  dns := up.mitm.map Splice.isDns
  httpForward := up.httpForward.isSome
  uid := up.uid
  server := up.server

def Flow.kind (x : Flow σ μ) : Option FlowKind := x.up.map TcpUpstream.kind

namespace TcpUpstream

@[simp] theorem kind_closeWrite (up : TcpUpstream μ) : up.closeWrite.kind = up.kind := by
  unfold closeWrite
  split_ifs <;> rfl

@[simp] theorem kind_queue (up : TcpUpstream μ) (data : Bytes) : (up.queue data).kind = up.kind :=
  rfl

@[simp] theorem kind_queueRaw (up : TcpUpstream μ) (data : Bytes) :
    (up.queueRaw data).kind = up.kind := rfl

variable [LawfulSplice μ]

@[simp] theorem kind_provisionCosmetics (h : Shared μ) (up : TcpUpstream μ) :
    (up.provisionCosmetics h).kind = up.kind := by
  unfold provisionCosmetics
  split_ifs
  · rfl
  · cases up.mitm.bind Splice.host with
    | none => rfl
    | some host => simp [kind, Option.map_map, Function.comp_def]

@[simp] theorem kind_recvFromApp (up : TcpUpstream μ) (data : Bytes) :
    (up.recvFromApp data).kind = up.kind := by
  unfold recvFromApp
  split_ifs
  · rfl
  · simp [kind, Option.map_map, Function.comp_def]

@[simp] theorem kind_readIntoMitm (n : ℕ) (up : TcpUpstream μ) :
    (up.readIntoMitm n).kind = up.kind := by
  induction n generalizing up with
  | zero => rfl
  | succ n ih =>
    unfold readIntoMitm
    split_ifs
    · rfl
    · rcases up.io.read (32 * 1024) with ⟨r, io⟩
      cases r with
      | data bytes =>
        dsimp only
        rw [ih]
        simp [kind, Option.map_map, Function.comp_def]
      | eof => rfl
      | wouldBlock => rfl
      | failed => rfl

end TcpUpstream

namespace Flow

theorem isPending_of_kind {x y : Flow σ μ} (h : y.kind = x.kind) : y.isPending = x.isPending := by
  have hkind (z : Flow σ μ) :
      z.isPending = (z.kind.map fun k => k.classify != .settled).getD false := by
    obtain ⟨socket, up, calls⟩ := z
    cases up with
    | none => rfl
    | some up => cases hc : up.classify <;> simp [isPending, TcpUpstream.isPending, kind,
        TcpUpstream.kind, hc]
  rw [hkind, hkind, h]

@[simp] theorem kind_notePinIfRejected (h : Shared μ) (x : Flow σ μ) :
    (notePinIfRejected h x).2.kind = x.kind := by
  obtain ⟨socket, up⟩ := x
  cases up with
  | none => rfl
  | some up =>
    unfold notePinIfRejected
    cases hm : up.mitm with
    | none => simp [hm]
    | some m =>
      simp only [hm]
      split_ifs <;> simp [kind, TcpUpstream.kind, hm]

@[simp] theorem kind_observeSni (h : Shared μ) (x : Flow σ μ) (data : Bytes) :
    (observeSni h x data).2.kind = x.kind := by
  obtain ⟨socket, up⟩ := x
  cases up with
  | none => rfl
  | some up =>
    unfold observeSni
    dsimp only
    split_ifs
    · rfl
    · cases peekSni data <;> rfl

variable [TcpSocket σ]

@[simp] theorem kind_abort (x : Flow σ μ) : x.abort.kind = x.kind := rfl

@[simp] theorem kind_closeApp (x : Flow σ μ) : x.closeApp.kind = x.kind := rfl

@[simp] theorem kind_flushToUpstream (x : Flow σ μ) : x.flushToUpstream.kind = x.kind := by
  obtain ⟨socket, up⟩ := x
  cases up with
  | none => rfl
  | some up =>
    unfold flushToUpstream
    dsimp only
    split_ifs <;> rfl

@[simp] theorem kind_flushToApp (x : Flow σ μ) : x.flushToApp.kind = x.kind := by
  obtain ⟨socket, up⟩ := x
  cases up <;> rfl

@[simp] theorem kind_propagateFin (x : Flow σ μ) : x.propagateFin.kind = x.kind := by
  obtain ⟨socket, up⟩ := x
  unfold propagateFin
  split_ifs
  · cases up with
    | none => rfl
    | some up =>
      dsimp only [kind, Option.map_some]
      split_ifs
      · rw [TcpUpstream.kind_closeWrite]
      · rfl
  · rfl

@[simp] theorem kind_closeMitm (h : Shared μ) (x : Flow σ μ) :
    (closeMitm h x).2.kind = x.kind := by
  unfold closeMitm
  dsimp only [kind]
  rw [Option.map_map]
  have hc : (TcpUpstream.kind ∘ TcpUpstream.closeWrite) = (TcpUpstream.kind (μ := μ)) :=
    funext TcpUpstream.kind_closeWrite
  rw [hc]
  exact (kind_closeApp _).trans <| (kind_flushToApp _).trans <|
    (kind_flushToUpstream _).trans <| kind_notePinIfRejected h x

variable [LawfulSplice μ]

theorem kind_pumpMitm (h : Shared μ) {up : TcpUpstream μ} {m : μ} (hm : up.mitm = some m) :
    (pumpMitm h up m).2.1.kind = up.kind := by
  unfold pumpMitm
  split_ifs
  · simp [TcpUpstream.kind, hm]
  · set up' : TcpUpstream μ := { up with mitm := some (Splice.pump m).2 }
    have hup : up'.kind = up.kind := by simp [up', TcpUpstream.kind, hm]
    exact (TcpUpstream.kind_provisionCosmetics h up').trans hup

@[simp] theorem kind_driveMitm (h : Shared μ) (x : Flow σ μ) : (driveMitm h x).2.kind = x.kind := by
  obtain ⟨socket, up⟩ := x
  cases up with
  | none => rfl
  | some up =>
    unfold driveMitm
    cases hm : up.mitm with
    | none => simp [hm]
    | some m =>
      have hk := kind_pumpMitm h hm
      simp only [hm]
      split_ifs
      · rw [kind_closeMitm]
        exact congrArg some hk
      · exact congrArg some hk

end Flow

end Adwarden.Core
