import Adwarden.Rust.Bytes

/-! The upstream transport of a flow or of a lookup: a non-blocking socket, or a TLS session over
one. Only the plaintext side is seen: what has arrived, and how the next calls are answered. -/
namespace Adwarden.Core

/-- The answer to a `write`. -/
inductive WriteResult where
  | accepted (n : ℕ)
  | wouldBlock
  | failed
deriving DecidableEq

/-- The answer to a `read`. -/
inductive ReadResult where
  | data (bytes : Bytes)
  | eof
  | wouldBlock
  | failed
deriving DecidableEq

/-- What comes of driving a TLS handshake once more. -/
inductive TlsPump where
  | pending
  | finished
  | failed
deriving DecidableEq

/-- `unread` has arrived and was not read; `writes` and `pumps` answer the next calls, and past
their end a call would block. A socket that has failed stays so. -/
structure UpstreamIo where
  tls : Bool
  handshaking : Bool
  pumps : List TlsPump
  unread : Bytes
  fin : Bool
  /-- A readable event is due: bytes or the FIN arrived after the last one. -/
  readable : Bool
  broken : Bool
  connectError : Bool
  writes : List WriteResult
  writeFailed : Bool
  writeShut : Bool
deriving DecidableEq

/-- What becomes known of a socket: bytes and the FIN of the peer, and how calls will go. -/
structure IoNews where
  bytes : Bytes
  fin : Bool
  broken : Bool
  connectError : Bool
  writes : List WriteResult
  pumps : List TlsPump
deriving DecidableEq

/-- How often a flush was answered. -/
structure Sent where
  count : ℕ
  failed : Bool
  answers : List WriteResult
deriving DecidableEq

/-- The loop of the flushes: it writes until all is written or a write does not go through. -/
def sendLoop : List WriteResult → Bytes → Sent
  | [], _ => ⟨0, false, []⟩
  | answer :: answers, data =>
    if data = [] then ⟨0, false, answer :: answers⟩
    else match answer with
      | .wouldBlock => ⟨0, false, answers⟩
      | .failed => ⟨0, true, answers⟩
      | .accepted n =>
        let k := min n data.length
        if k = 0 then ⟨0, false, answers⟩
        else
          let r := sendLoop answers (data.drop k)
          { r with count := k + r.count }

namespace UpstreamIo

/-- A socket that has just been dialed; `tls` says whether a TLS session is put over it. -/
def dialed (tls : Bool) : UpstreamIo where
  tls := tls
  handshaking := tls
  pumps := []
  unread := []
  fin := false
  readable := false
  broken := false
  connectError := false
  writes := []
  writeFailed := false
  writeShut := false

/-- `read` into a buffer of `n` bytes. -/
def read (io : UpstreamIo) (n : ℕ) : ReadResult × UpstreamIo :=
  if io.broken then (.failed, io)
  else if io.unread = [] then (if io.fin then .eof else .wouldBlock, io)
  else (.data (io.unread.take n), { io with unread := io.unread.drop n })

/-- The flushing loop on this socket. -/
def send (io : UpstreamIo) (data : Bytes) : Sent × UpstreamIo :=
  if io.writeFailed then (⟨0, !data.isEmpty, []⟩, io)
  else
    let r := sendLoop io.writes data
    (r, { io with writes := r.answers, writeFailed := r.failed })

/-- Drive the TLS handshake: whether that went well, and the session after it. -/
def pumpTls (io : UpstreamIo) : Bool × UpstreamIo :=
  match io.pumps with
  | [] => (true, io)
  | .pending :: pumps => (true, { io with pumps := pumps })
  | .finished :: pumps => (true, { io with pumps := pumps, handshaking := false })
  | .failed :: pumps => (false, { io with pumps := pumps })

/-- Nothing arrives behind the FIN. Bytes and the FIN make a readable event due. -/
def hear (io : UpstreamIo) (news : IoNews) : UpstreamIo :=
  let bytes := if io.fin then [] else news.bytes
  { io with
    unread := io.unread ++ bytes
    fin := io.fin || news.fin
    readable := io.readable || !bytes.isEmpty || (news.fin && !io.fin)
    broken := io.broken || news.broken
    connectError := io.connectError || news.connectError
    writes := io.writes ++ news.writes
    pumps := io.pumps ++ news.pumps }

/-- A readable event is delivered. -/
def deliver (io : UpstreamIo) (readable : Bool) : UpstreamIo :=
  { io with readable := io.readable && !readable }

def shutdownWrite (io : UpstreamIo) : UpstreamIo := { io with writeShut := true }

/-- How a loop of reads ended. -/
inductive ReadEnd where
  | eof
  | wouldBlock
  | failed
deriving DecidableEq

/-- The loop that reads all there is, `n` bytes at a time. -/
def readLoop (n : ℕ) : (fuel : ℕ) → UpstreamIo → Bytes × ReadEnd × UpstreamIo
  | 0, io => ([], .wouldBlock, io)
  | fuel + 1, io =>
    match io.read n with
    | (.data bytes, io) =>
      let r := readLoop n fuel io
      (bytes ++ r.1, r.2)
    | (.eof, io) => ([], .eof, io)
    | (.wouldBlock, io) => ([], .wouldBlock, io)
    | (.failed, io) => ([], .failed, io)

def readAll (io : UpstreamIo) (n : ℕ) : Bytes × ReadEnd × UpstreamIo :=
  readLoop n (io.unread.length + 1) io

/-- On a socket that had not failed, a flush fails as the socket does. -/
theorem send_writeFailed {io : UpstreamIo} {data : Bytes} (h : io.writeFailed = false) :
    (io.send data).2.writeFailed = (io.send data).1.failed := by
  simp [send, h]

theorem send_of_writeFailed {io : UpstreamIo} {data : Bytes} (h : io.writeFailed = true) :
    (io.send data).1.count = 0 ∧ (io.send data).2 = io := by
  simp [send, h]

/-- A flush touches neither what has arrived nor the state of the connection. -/
theorem send_frame (io : UpstreamIo) (data : Bytes) :
    ∃ writes failed, (io.send data).2 = { io with writes := writes, writeFailed := failed } := by
  unfold send
  split_ifs
  · exact ⟨io.writes, io.writeFailed, rfl⟩
  · exact ⟨_, _, rfl⟩

/-- A loop of reads takes bytes off the front of what has arrived. -/
theorem readLoop_split (n fuel : ℕ) (io : UpstreamIo) :
    (readLoop n fuel io).1 ++ (readLoop n fuel io).2.2.unread = io.unread ∧
      (readLoop n fuel io).2.2.fin = io.fin := by
  induction fuel generalizing io with
  | zero => exact ⟨rfl, rfl⟩
  | succ fuel ih =>
    unfold readLoop read
    split_ifs with hbroken hnil hfin
    · exact ⟨rfl, rfl⟩
    · exact ⟨rfl, rfl⟩
    · exact ⟨rfl, rfl⟩
    · obtain ⟨hunread, hfin⟩ := ih { io with unread := io.unread.drop n }
      dsimp only
      rw [List.append_assoc, hunread]
      exact ⟨List.take_append_drop n io.unread, hfin⟩

theorem readAll_split (io : UpstreamIo) (n : ℕ) :
    (io.readAll n).1 ++ (io.readAll n).2.2.unread = io.unread ∧
      (io.readAll n).2.2.fin = io.fin :=
  readLoop_split n _ io

end UpstreamIo

end Adwarden.Core
