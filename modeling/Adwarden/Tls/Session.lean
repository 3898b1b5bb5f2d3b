import Adwarden.Rust.Bytes
import Adwarden.Rust.Str

/-! What a splice uses of the TLS library: one session toward each peer. -/
namespace Adwarden.Tls

/-- A TLS session, fed with the bytes of its peer. Reading and writing plaintext is apart from
reading and writing TLS. -/
class TlsSession (σ : Type) where
  /-- Takes so many bytes off the front, or fails. -/
  readTls : σ → Bytes → Except σ (ℕ × σ)
  /-- Whether the peer has closed, or `none` for an error. -/
  processNewPackets : σ → Option Bool × σ
  /-- At most so many bytes of plaintext, or `none` where a read returns none. -/
  read : σ → ℕ → Option (Bytes × σ)
  writeAll : σ → Bytes → σ
  sendCloseNotify : σ → σ
  wantsWrite : σ → Bool
  writeTls : σ → Option Bytes × σ
  isHandshaking : σ → Bool
  /-- The plaintext that is left to read. -/
  readable : σ → ℕ
  /-- The TLS bytes that are left to write. -/
  unsent : σ → ℕ
  readable_read : ∀ {s n b s'}, read s n = some (b, s') → readable s' < readable s
  readable_writeAll : ∀ s b, readable (writeAll s b) = readable s
  unsent_writeTls : ∀ {s b}, wantsWrite s = true → (writeTls s).1 = some b →
    unsent (writeTls s).2 < unsent s

class ServerSession (σ : Type) extends TlsSession σ where
  /-- The name that the client asks for, once its first message has been processed. -/
  serverName : σ → Option Str

/-- How sessions toward a server are started: which names are server names, and what comes of
them. -/
structure ClientConfig (κ : Type) where
  isServerName : Str → Bool
  connect : Str → Option κ

/-- Plaintext is read once the handshake is over; closing and writing TLS leave it where it is. -/
class LawfulSession (σ : Type) [TlsSession σ] : Prop where
  read_eq_none : ∀ (s : σ) n, 0 < n → (TlsSession.read s n = none ↔ TlsSession.readable s = 0)
  readable_handshaking : ∀ s : σ, TlsSession.isHandshaking s = true → TlsSession.readable s = 0
  readable_sendCloseNotify :
    ∀ s : σ, TlsSession.readable (TlsSession.sendCloseNotify s) = TlsSession.readable s
  readable_writeTls : ∀ s : σ, TlsSession.readable (TlsSession.writeTls s).2 = TlsSession.readable s

/-- The handshake of a server has come no further. -/
structure SameHandshake {σ : Type} [ServerSession σ] (s s' : σ) : Prop where
  isHandshaking : TlsSession.isHandshaking s' = TlsSession.isHandshaking s
  serverName : ServerSession.serverName s' = ServerSession.serverName s

/-- Only packets bring a handshake forward, and it takes another after the one with the name. -/
class LawfulServer (σ : Type) [ServerSession σ] : Prop extends LawfulSession σ where
  readTls_ok : ∀ (s : σ) b n s', TlsSession.readTls s b = .ok (n, s') → SameHandshake s s'
  readTls_error : ∀ (s : σ) b s', TlsSession.readTls s b = .error s' → SameHandshake s s'
  read : ∀ (s : σ) n b s', TlsSession.read s n = some (b, s') → SameHandshake s s'
  writeAll : ∀ (s : σ) b, SameHandshake s (TlsSession.writeAll s b)
  sendCloseNotify : ∀ s : σ, SameHandshake s (TlsSession.sendCloseNotify s)
  writeTls : ∀ s : σ, SameHandshake s (TlsSession.writeTls s).2
  processNewPackets : ∀ s : σ, TlsSession.isHandshaking (TlsSession.processNewPackets s).2 = true →
    TlsSession.isHandshaking s = true
  handshaking_of_serverName : ∀ s : σ, ServerSession.serverName s = none →
    TlsSession.isHandshaking (TlsSession.processNewPackets s).2 = true

/-- A session that has received nothing is in its handshake. -/
structure ClientConfig.Lawful {κ : Type} [TlsSession κ] (c : ClientConfig κ) : Prop where
  connect : ∀ name k, c.connect name = some k →
    TlsSession.isHandshaking (TlsSession.processNewPackets k).2 = true

/-- How far the handshake has come, and what is left to read once it is over. -/
inductive PlainSession.Phase where
  | start
  | named (name : Str)
  | traffic (name : Str) (plaintext : Bytes)
deriving DecidableEq

/-- Sessions without encryption: a record is a type, a length and a payload, and a handshake is
one record that names the server, then one that is empty. -/
structure PlainSession where
  phase : PlainSession.Phase := .start
  received : Bytes := []
  peerClosed : Bool := false
  /-- What is left to write, a record each. -/
  outbox : List Bytes := []
deriving DecidableEq

namespace PlainSession

def record (type : UInt8) (payload : Bytes) : Bytes :=
  type :: UInt8.ofNat payload.length :: payload

/-- Takes in one record. -/
def handle (s : PlainSession) (type : UInt8) (payload : Bytes) : Option Bool × PlainSession :=
  match s.phase with
  | .start =>
    if type = 1 then (some s.peerClosed, { s with phase := .named (Str.fromUtf8Lossy payload) })
    else (none, s)
  | .named name =>
    if type = 20 then (some s.peerClosed, { s with phase := .traffic name [] }) else (none, s)
  | .traffic name plaintext =>
    if type = 23 then
      (some s.peerClosed, { s with phase := .traffic name (plaintext ++ payload) })
    else if type = 21 then (some true, { s with peerClosed := true })
    else (none, s)

def process (s : PlainSession) : Option Bool × PlainSession :=
  match s.received with
  | type :: length :: rest =>
    if rest.length < length.toNat then (some s.peerClosed, s)
    else { s with received := rest.drop length.toNat }.handle type (rest.take length.toNat)
  | _ => (some s.peerClosed, s)

def readPlain (s : PlainSession) (n : ℕ) : Option (Bytes × PlainSession) :=
  match s.phase with
  | .traffic name plaintext =>
    if n = 0 ∨ plaintext = [] then none
    else some (plaintext.take n, { s with phase := .traffic name (plaintext.drop n) })
  | _ => none

def send (s : PlainSession) (type : UInt8) (payload : Bytes) : PlainSession :=
  { s with outbox := s.outbox ++ [record type payload] }

def flush (s : PlainSession) : Option Bytes × PlainSession :=
  match s.outbox with
  | [] => (some [], s)
  | r :: outbox => (some r, { s with outbox })

def inHandshake (s : PlainSession) : Bool :=
  match s.phase with
  | .traffic _ _ => false
  | _ => true

def unread (s : PlainSession) : ℕ :=
  match s.phase with
  | .traffic _ plaintext => plaintext.length
  | _ => 0

end PlainSession

instance : ServerSession PlainSession where
  readTls s b := .ok (b.length, { s with received := s.received ++ b })
  processNewPackets s := s.process
  read s n := s.readPlain n
  writeAll s b := s.send 23 b
  sendCloseNotify s := s.send 21 []
  wantsWrite s := s.outbox ≠ []
  writeTls s := s.flush
  isHandshaking s := s.inHandshake
  readable s := s.unread
  unsent s := s.outbox.length
  readable_read {s n b s'} h := by
    unfold PlainSession.readPlain at h
    cases hp : s.phase with
    | start => simp [hp] at h
    | named name => simp [hp] at h
    | traffic name plaintext =>
      simp only [hp] at h
      split_ifs at h with hn
      obtain ⟨-, rfl⟩ := by simpa using h
      have := List.length_pos_of_ne_nil (not_or.mp hn).2
      simp only [PlainSession.unread, hp, List.length_drop]
      omega
  readable_writeAll _ _ := rfl
  unsent_writeTls {s b} hw _ := by
    cases ho : s.outbox with
    | nil => simp [ho] at hw
    | cons r rs => simp [PlainSession.flush, ho]
  serverName s :=
    match s.phase with
    | .start => none
    | .named name => some name
    | .traffic name _ => some name

namespace PlainSession

private theorem readPlain_eq_none (s : PlainSession) (n : ℕ) (hn : 0 < n) :
    s.readPlain n = none ↔ s.unread = 0 := by
  unfold readPlain unread
  cases s.phase with
  | start => simp
  | named name => simp
  | traffic name plaintext =>
    have : n ≠ 0 := by omega
    simp [this]

private theorem inHandshake_handle (s : PlainSession) (type : UInt8) (payload : Bytes)
    (h : (s.handle type payload).2.inHandshake = true) : s.inHandshake = true := by
  cases hp : s.phase with
  | start => simp [inHandshake, hp]
  | named name => simp [inHandshake, hp]
  | traffic name plaintext =>
    simp only [handle, hp] at h
    split_ifs at h <;> simp [inHandshake, hp] at h

private theorem inHandshake_process (s : PlainSession) (h : s.process.2.inHandshake = true) :
    s.inHandshake = true := by
  unfold process at h
  split at h
  · split_ifs at h
    · exact h
    · have hs := inHandshake_handle _ _ _ h
      exact hs
  · exact h

private theorem process_start (s : PlainSession) (hs : s.phase = .start) :
    s.process.2.inHandshake = true := by
  unfold process
  split
  · split_ifs
    · simp [inHandshake, hs]
    · simp only [handle, hs]
      split_ifs <;> simp [inHandshake]
  · simp [inHandshake, hs]

private theorem phase_flush (s : PlainSession) : s.flush.2.phase = s.phase := by
  unfold flush
  split <;> rfl

private theorem sameHandshake {s s' : PlainSession} (h : s'.phase = s.phase) :
    SameHandshake s s' := by
  constructor
  · simp [TlsSession.isHandshaking, inHandshake, h]
  · simp [ServerSession.serverName, h]

private theorem sameHandshake_readPlain {s s' : PlainSession} {n : ℕ} {b : Bytes}
    (h : s.readPlain n = some (b, s')) : SameHandshake s s' := by
  unfold readPlain at h
  split at h
  · next hp =>
    split_ifs at h
    obtain ⟨-, rfl⟩ := by simpa using h
    constructor
    · simp [TlsSession.isHandshaking, inHandshake, hp]
    · simp [ServerSession.serverName, hp]
  · cases h

end PlainSession

instance : LawfulServer PlainSession where
  read_eq_none := PlainSession.readPlain_eq_none
  readable_handshaking s h := by
    cases hp : s.phase with
    | start => simp [TlsSession.readable, PlainSession.unread, hp]
    | named name => simp [TlsSession.readable, PlainSession.unread, hp]
    | traffic name plaintext => simp [TlsSession.isHandshaking, PlainSession.inHandshake, hp] at h
  readable_sendCloseNotify _ := rfl
  readable_writeTls s := by
    simp [TlsSession.readable, TlsSession.writeTls, PlainSession.unread, PlainSession.phase_flush]
  readTls_ok s b n s' h := by
    obtain ⟨-, rfl⟩ := by simpa [TlsSession.readTls] using h
    exact PlainSession.sameHandshake rfl
  readTls_error s b s' h := by simp [TlsSession.readTls] at h
  read _ _ _ _ h := PlainSession.sameHandshake_readPlain h
  writeAll _ _ := PlainSession.sameHandshake rfl
  sendCloseNotify _ := PlainSession.sameHandshake rfl
  writeTls s := PlainSession.sameHandshake s.phase_flush
  processNewPackets := PlainSession.inHandshake_process
  handshaking_of_serverName s h := by
    cases hp : s.phase with
    | start => exact PlainSession.process_start s hp
    | named name => simp [ServerSession.serverName, hp] at h
    | traffic name plaintext => simp [ServerSession.serverName, hp] at h

/-- Every name that is not empty is a server name, and every start succeeds. -/
def PlainSession.clientConfig : ClientConfig PlainSession where
  isServerName name := name ≠ []
  connect name := some { phase := .named name, outbox := [PlainSession.record 1 (Str.toBytes name)] }

theorem PlainSession.clientConfig_lawful : PlainSession.clientConfig.Lawful where
  connect name k h := by
    obtain rfl := by simpa [clientConfig] using h
    rfl

end Adwarden.Tls
