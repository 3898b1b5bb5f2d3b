import Adwarden.Rust.Addr

/-! TCP sockets towards the apps. They are sockets of the smoltcp library: what it documents of
them is assumed here, as laws on what can be observed of a socket. -/
namespace Adwarden.Net

inductive TcpState where
  | closed
  | listen
  | synSent
  | synReceived
  | established
  | finWait1
  | finWait2
  | closeWait
  | closing
  | lastAck
  | timeWait
deriving DecidableEq

namespace TcpState

/-- The states in which a socket takes bytes for its peer. -/
def canSend : TcpState → Bool
  | .established | .closeWait => true
  | _ => false

/-- The states before the connection is up. -/
def isEarly : TcpState → Bool
  | .listen | .synSent | .synReceived => true
  | _ => false

/-- The states of a socket that has closed neither direction itself. -/
def isOpen (s : TcpState) : Bool := s.isEarly || s.canSend

/-- The states in which the peer has sent its FIN, or the connection is gone. -/
def peerFinished : TcpState → Bool
  | .closeWait | .lastAck | .closing | .timeWait | .closed => true
  | _ => false

/-- The state after `close()`. -/
def close : TcpState → TcpState
  | .listen | .synSent => .closed
  | .synReceived | .established => .finWait1
  | .closeWait => .lastAck
  | s => s

end TcpState

/-- What can be observed of a socket. `taken` and `accepted` are its history: the bytes its owner
has received from it, and those it has accepted to send. -/
structure SocketView where
  state : TcpState
  unread : Bytes
  taken : Bytes
  accepted : Bytes
  sendQueue : ℕ
  sendCapacity : ℕ
deriving DecidableEq

namespace SocketView

def fresh (capacity : ℕ) : SocketView where
  state := .listen
  unread := []
  taken := []
  accepted := []
  sendQueue := 0
  sendCapacity := capacity

/-- Every byte the peer has sent so far, in order. -/
def received (v : SocketView) : Bytes := v.taken ++ v.unread

def sendSpace (v : SocketView) : ℕ := v.sendCapacity - v.sendQueue

/-- How many bytes of `data` are accepted. -/
def accepts (v : SocketView) (data : Bytes) : ℕ :=
  if v.state.canSend then min data.length v.sendSpace else 0

def send (v : SocketView) (data : Bytes) : SocketView :=
  { v with
    accepted := v.accepted ++ data.take (v.accepts data)
    sendQueue := v.sendQueue + v.accepts data }

/-- The receive buffer is taken whole. -/
def drain (v : SocketView) : SocketView :=
  { v with unread := [], taken := v.taken ++ v.unread }

theorem drain_of_unread_nil {v : SocketView} (h : v.unread = []) : v.drain = v := by
  cases v
  simp_all [drain]

/-- What one poll of the interface can make of a socket, whatever arrives. -/
structure Evolves (v v' : SocketView) : Prop where
  taken : v'.taken = v.taken
  accepted : v'.accepted = v.accepted
  sendCapacity : v'.sendCapacity = v.sendCapacity
  acked : v'.sendQueue ≤ v.sendQueue
  received : v.unread <+: v'.unread
  finished : v.state.peerFinished → v'.state.peerFinished ∧ v'.unread = v.unread
  closed : v'.state.isOpen → v.state.isOpen

theorem Evolves.refl (v : SocketView) : v.Evolves v where
  taken := rfl
  accepted := rfl
  sendCapacity := rfl
  acked := le_rfl
  received := List.prefix_rfl
  finished := fun h => ⟨h, rfl⟩
  closed := fun h => h

end SocketView

/-- The part of the library that is used. -/
class TcpSocket (σ : Type) where
  view : σ → SocketView
  /-- A socket with buffers of these sizes, listening on an endpoint. -/
  listen : SocketAddr → (rxBuffer txBuffer : ℕ) → Option σ
  /-- The bytes at the front of the receive buffer that are contiguous. -/
  recv : σ → Bytes × σ
  sendSlice : σ → Bytes → ℕ × σ
  close : σ → σ
  abort : σ → σ
  /-- A poll of the interface can turn the first socket into the second. -/
  Polled : σ → σ → Prop

open TcpSocket

class LawfulTcpSocket (σ : Type) [TcpSocket σ] : Prop where
  view_listen : ∀ {server rx tx} {s : σ}, listen server rx tx = some s →
    view s = SocketView.fresh tx
  recv_ne_nil : ∀ {s : σ}, (view s).unread ≠ [] → (recv s).1 ≠ []
  recv_unread : ∀ {s : σ}, (view s).unread ≠ [] →
    (recv s).1 ++ (view (recv s).2).unread = (view s).unread
  view_recv : ∀ {s : σ}, (view s).unread ≠ [] →
    view (recv s).2 = { view s with
      unread := (view (recv s).2).unread
      taken := (view s).taken ++ (recv s).1 }
  sendSlice_fst : ∀ (s : σ) data, (sendSlice s data).1 = (view s).accepts data
  view_sendSlice : ∀ (s : σ) data, view (sendSlice s data).2 = (view s).send data
  view_close : ∀ s : σ, view (close s) = { view s with state := (view s).state.close }
  view_abort : ∀ s : σ, view (abort s) = { view s with state := .closed }
  sendQueue_le : ∀ s : σ, (view s).sendQueue ≤ (view s).sendCapacity
  sendQueue_early : ∀ s : σ, (view s).state.isEarly → (view s).sendQueue = 0
  evolves : ∀ {s s' : σ}, Polled s s' → (view s).Evolves (view s')

/-- A socket that is just what is observed of it. -/
structure PlainSocket where
  view : SocketView
  sendQueue_le : view.sendQueue ≤ view.sendCapacity
  sendQueue_early : view.state.isEarly → view.sendQueue = 0

namespace PlainSocket

theorem accepts_le (v : SocketView) (data : Bytes) : v.accepts data ≤ v.sendSpace := by
  unfold SocketView.accepts
  split_ifs
  · exact Nat.min_le_right _ _
  · exact Nat.zero_le _

def fresh (capacity : ℕ) : PlainSocket where
  view := .fresh capacity
  sendQueue_le := Nat.zero_le _
  sendQueue_early := fun _ => rfl

def drain (s : PlainSocket) : PlainSocket where
  view := s.view.drain
  sendQueue_le := s.sendQueue_le
  sendQueue_early := s.sendQueue_early

def send (s : PlainSocket) (data : Bytes) : PlainSocket where
  view := s.view.send data
  sendQueue_le := by
    have h := accepts_le s.view data
    have hle := s.sendQueue_le
    unfold SocketView.sendSpace at h
    simp only [SocketView.send]
    omega
  sendQueue_early := by
    intro he
    have hq := s.sendQueue_early he
    have hc : s.view.state.canSend = false := by
      revert he
      change s.view.state.isEarly = true → _
      cases s.view.state <;> simp [TcpState.isEarly, TcpState.canSend]
    simp [SocketView.send, SocketView.accepts, hc, hq]

def close (s : PlainSocket) : PlainSocket where
  view := { s.view with state := s.view.state.close }
  sendQueue_le := s.sendQueue_le
  sendQueue_early := by
    intro he
    revert he
    cases s.view.state <;> simp [TcpState.isEarly, TcpState.close]

def abort (s : PlainSocket) : PlainSocket where
  view := { s.view with state := .closed }
  sendQueue_le := s.sendQueue_le
  sendQueue_early := by simp [TcpState.isEarly]

/-- The connection is up, the app sends bytes, perhaps with its FIN, and acknowledges what it was
sent if it `acks`. -/
def hear (s : PlainSocket) (bytes : Bytes) (fin acks : Bool) : PlainSocket :=
  if s.view.state.isOpen && !s.view.state.peerFinished then
    { view := { s.view with
        state := if fin then .closeWait else .established
        unread := s.view.unread ++ bytes
        sendQueue := if acks then 0 else s.view.sendQueue }
      sendQueue_le := by
        dsimp only
        split_ifs
        · exact Nat.zero_le _
        · exact s.sendQueue_le
      sendQueue_early := by
        cases fin <;> simp [TcpState.isEarly] }
  else s

theorem evolves_hear (s : PlainSocket) (bytes : Bytes) (fin acks : Bool) :
    s.view.Evolves (s.hear bytes fin acks).view := by
  unfold hear
  by_cases h : (s.view.state.isOpen && !s.view.state.peerFinished) = true
  · rw [if_pos h]
    obtain ⟨hopen, hfin⟩ := Bool.and_eq_true_iff.mp h
    refine ⟨rfl, rfl, rfl, ?_, List.prefix_append _ _, fun hf => ?_, fun _ => hopen⟩
    · cases acks
      · exact le_rfl
      · exact Nat.zero_le _
    · rw [hf] at hfin
      cases hfin
  · rw [if_neg h]
    exact .refl s.view

end PlainSocket

instance : TcpSocket PlainSocket where
  view s := s.view
  listen _ _ txBuffer := some (.fresh txBuffer)
  recv s := (s.view.unread, s.drain)
  sendSlice s data := (s.view.accepts data, s.send data)
  close s := s.close
  abort s := s.abort
  Polled s s' := s.view.Evolves s'.view

instance : LawfulTcpSocket PlainSocket where
  view_listen h := by
    obtain rfl := Option.some.inj h
    rfl
  recv_ne_nil h := h
  recv_unread _ := List.append_nil _
  view_recv _ := rfl
  sendSlice_fst _ _ := rfl
  view_sendSlice _ _ := rfl
  view_close _ := rfl
  view_abort _ := rfl
  sendQueue_le s := s.sendQueue_le
  sendQueue_early s := s.sendQueue_early
  evolves h := h

/-- What a poll of the interface does to one socket. -/
structure Poll (σ : Type) [TcpSocket σ] where
  run : σ → σ
  polled : ∀ s, Polled s (run s)

/-- No socket changes in a poll. -/
def Poll.still : Poll PlainSocket where
  run s := s
  polled s := .refl s.view

def Poll.arrives (bytes : Bytes) (fin acks : Bool) : Poll PlainSocket where
  run s := s.hear bytes fin acks
  polled s := s.evolves_hear bytes fin acks

def tcpRxBuf : ℕ := 64 * 1024

def tcpTxBuf : ℕ := 64 * 1024

section Stack

/-! The operations of the stack on the socket of one flow, `none` when the flow is unknown. -/

variable {σ : Type} [TcpSocket σ]

/-- The loop of `tcp_take_app_data`: it receives as long as something is there. -/
def recvLoop : ℕ → σ → Bytes × σ
  | 0, s => ([], s)
  | n + 1, s =>
    if (view s).unread = [] then ([], s)
    else match recv s with
      | ([], s) => ([], s)
      | (chunk, s) => (chunk ++ (recvLoop n s).1, (recvLoop n s).2)

def tcpTakeAppData : Option σ → Bytes × Option σ
  | none => ([], none)
  | some s =>
    let r := recvLoop (view s).unread.length s
    (r.1, some r.2)

def tcpSendToApp : Option σ → Bytes → ℕ × Option σ
  | none, _ => (0, none)
  | some s, data => ((sendSlice s data).1, some (sendSlice s data).2)

def tcpSendSpace : Option σ → ℕ
  | none => 0
  | some s => (view s).sendSpace

/-- Whether the app has closed its sending half and all it sent has been taken. -/
def tcpAppFinished : Option σ → Bool
  | none => true
  | some s => (view s).state.peerFinished && (view s).unread.isEmpty

def tcpCloseApp (s : Option σ) : Option σ := s.map close

def tcpAbort (s : Option σ) : Option σ := s.map abort

theorem recvLoop_spec [LawfulTcpSocket σ] {n : ℕ} {s : σ} (h : (view s).unread.length ≤ n) :
    (recvLoop n s).1 = (view s).unread ∧ view (recvLoop n s).2 = (view s).drain := by
  induction n generalizing s with
  | zero =>
    have hu : (view s).unread = [] := List.length_eq_zero_iff.mp (Nat.le_zero.mp h)
    exact ⟨hu.symm, (SocketView.drain_of_unread_nil hu).symm⟩
  | succ n ih =>
    unfold recvLoop
    split_ifs with hu
    · exact ⟨hu.symm, (SocketView.drain_of_unread_nil hu).symm⟩
    · have hne := LawfulTcpSocket.recv_ne_nil hu
      have hun := LawfulTcpSocket.recv_unread hu
      have hv := LawfulTcpSocket.view_recv hu
      rcases hr : recv s with ⟨chunk, s'⟩
      rw [hr] at hne hun hv
      dsimp only at hne hun hv
      cases chunk with
      | nil => exact absurd rfl hne
      | cons c cs =>
        have hlen : (view s').unread.length ≤ n := by
          have := congrArg List.length hun
          simp only [List.length_append, List.length_cons] at this
          omega
        obtain ⟨hd, hs⟩ := ih hlen
        dsimp only
        constructor
        · rw [hd, hun]
        · rw [hs, hv]
          simp [SocketView.drain, ← hun]

theorem tcpTakeAppData_fst [LawfulTcpSocket σ] (s : σ) :
    (tcpTakeAppData (some s)).1 = (view s).unread :=
  (recvLoop_spec (s := s) le_rfl).1

theorem tcpTakeAppData_snd [LawfulTcpSocket σ] (s : σ) :
    ∃ s', (tcpTakeAppData (some s)).2 = some s' ∧ view s' = (view s).drain :=
  ⟨_, rfl, (recvLoop_spec (s := s) le_rfl).2⟩

end Stack

end Adwarden.Net
