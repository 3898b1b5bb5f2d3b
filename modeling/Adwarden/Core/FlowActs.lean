import Mathlib.Logic.Relation
import Adwarden.Core.FlowKind

/-! The elementary acts that the methods on a flow are made of. What holds of every act holds of
every method, in whatever order they come. -/
namespace Adwarden.Core
open Relation Adwarden.Net Adwarden.Tls

variable {σ μ : Type} [TcpSocket σ] [Splice μ]

/-- What of an upstream the relay toward it depends on. -/
structure UpCore where
  kind : FlowKind
  token : Token
  openedMs : ℤ
  connecting : Bool
  handshaking : Bool
  toUpstream : Bytes
  relayed : Bytes
  raw : Bytes
  writeClosed : Bool
  writeFailed : Bool
  writeShut : Bool
deriving DecidableEq

def TcpUpstream.core (up : TcpUpstream μ) : UpCore where
  kind := up.kind
  token := up.token
  openedMs := up.openedMs
  connecting := up.connecting
  handshaking := up.handshake.isSome
  toUpstream := up.toUpstream
  relayed := up.relayed
  raw := up.raw
  writeClosed := up.writeClosed
  writeFailed := up.io.writeFailed
  writeShut := up.io.writeShut

/-- The calls that change the socket of a flow. -/
inductive SocketAct : Option σ → Option σ → Prop
  | keep (s : Option σ) : SocketAct s s
  | abort (s : Option σ) : SocketAct s (tcpAbort s)
  | close (s : Option σ) : SocketAct s (tcpCloseApp s)
  | send (s : Option σ) (data : Bytes) : SocketAct s (tcpSendToApp s data).2

/-- A flow in the middle of a method: `data` has been taken from the app and is not placed yet. -/
structure Micro (σ μ : Type) where
  shared : Shared μ
  flow : Flow σ μ
  data : Bytes

namespace Micro

def setUp (m : Micro σ μ) (up : TcpUpstream μ) : Micro σ μ :=
  { m with flow := { m.flow with up := some up } }

/-- Nothing keeps the forwarder from taking the app's bytes. -/
def Open (m : Micro σ μ) : Prop :=
  ∀ up, m.flow.up = some up → up.connecting = false ∧ up.handshake = none

/-- What is done with a flow that is neither spliced nor rewritten. -/
def IsRaw (c : UpCore) : Prop := c.kind.dns = none ∧ c.kind.httpForward = false

/-- The acts that leave the bytes of the app where they are, or that move what is staged on. -/
inductive Move : Micro σ μ → Micro σ μ → Prop
  | note (m : Micro σ μ) (batcher : List Event) (pinned : List (ℤ × IpAddr)) (forward80 : Bool) :
    Move m { m with shared :=
      { m.shared with batcher := batcher, pinned := pinned, httpForward80 := forward80 } }
  | call (m : Micro σ μ) (s : Option σ) (calls : List AppCall) (h : SocketAct m.flow.socket s) :
    Move m { m with flow := { m.flow with socket := s, calls := calls } }
  | teardown (m : Micro σ μ) :
    Move m ⟨(Flow.teardownTcp m.shared m.flow).1, (Flow.teardownTcp m.shared m.flow).2, m.data⟩
  | edit (m : Micro σ μ) (up up' : TcpUpstream μ) (hup : m.flow.up = some up)
      (h : up'.core = up.core) : Move m (m.setUp up')
  | handshake (m : Micro σ μ) (up up' : TcpUpstream μ) (going failed : Bool)
      (hup : m.flow.up = some up) (hh : up.handshake.isSome = true)
      (h : up'.core = { up.core with handshaking := going, writeFailed := failed }) :
    Move m (m.setUp up')
  | connected (m : Micro σ μ) (up up' : TcpUpstream μ) (hup : m.flow.up = some up)
      (h : up'.core = { up.core with connecting := false }) : Move m (m.setUp up')
  | flush (m : Micro σ μ) : Move m { m with flow := m.flow.flushToUpstream }
  | closeWrite (m : Micro σ μ) (up : TcpUpstream μ) (hup : m.flow.up = some up)
      (h : up.mitm.isSome = true ∨ (m.flow.appFinished = true ∧ up.toUpstream = [] ∧
        up.classify = .settled ∧ m.data = [])) :
    Move m (m.setUp up.closeWrite)
  | spliceOut (m : Micro σ μ) (up up' : TcpUpstream μ) (out : Bytes) (hup : m.flow.up = some up)
      (hm : up.mitm.isSome = true)
      (h : up'.core = { up.core with toUpstream := up.toUpstream ++ out }) : Move m (m.setUp up')

inductive Act : Micro σ μ → Micro σ μ → Prop
  | move (m m' : Micro σ μ) (h : Move m m') : Act m m'
  | take (m : Micro σ μ) (hopen : m.Open) (hdata : m.data = []) :
    Act m ⟨m.shared, { m.flow with socket := (tcpTakeAppData m.flow.socket).2 },
      (tcpTakeAppData m.flow.socket).1⟩
  | discard (m : Micro σ μ) (h : ∀ up, m.flow.up = some up → ¬ IsRaw up.core) :
    Act m { m with data := [] }
  | buffer (m : Micro σ μ) (up : TcpUpstream μ) (buf : Bytes) (hup : m.flow.up = some up)
      (hbuf : up.classify = .pendingSni buf) (hpeek : peekPending (buf ++ m.data) = none) :
    Act m ⟨m.shared, { m.flow with up := some { up with
      classify := .pendingSni (buf ++ m.data) } }, []⟩
  | settleRaw (m : Micro σ μ) (up up' : TcpUpstream μ) (buf : Bytes) (sni : Option Str)
      (hup : m.flow.up = some up) (hbuf : up.classify = .pendingSni buf)
      (hpeek : peekPending (buf ++ m.data) = some sni)
      (hclass : m.shared.classification up.uid up.server sni = .raw)
      (h : up'.core = { up.core with
        kind := { up.kind with classify := .settled }
        toUpstream := up.toUpstream ++ (buf ++ m.data)
        raw := up.raw ++ (buf ++ m.data) }) :
    Act m ⟨m.shared, { m.flow with up := some up' }, []⟩
  | settleSplice (m : Micro σ μ) (up up' : TcpUpstream μ) (splice : μ) (buf : Bytes)
      (sni : Option Str) (hup : m.flow.up = some up) (hbuf : up.classify = .pendingSni buf)
      (hpeek : peekPending (buf ++ m.data) = some sni)
      (hclass : m.shared.classification up.uid up.server sni = .doh splice ∨
        m.shared.classification up.uid up.server sni = .cosmetic splice)
      (h : up'.core = { up.core with
        kind := { up.kind with classify := .settled, dns := some (Splice.isDns splice) } }) :
    Act m ⟨m.shared, { m.flow with up := some up' }, []⟩
  | rewrite (m : Micro σ μ) (up up' : TcpUpstream μ) (out : Bytes) (hup : m.flow.up = some up)
      (hf : up.httpForward.isSome = true)
      (h : up'.core = { up.core with toUpstream := up.toUpstream ++ out }) :
    Act m ⟨m.shared, { m.flow with up := some up' }, []⟩
  | queueRaw (m : Micro σ μ) (up : TcpUpstream μ) (hup : m.flow.up = some up)
      (hraw : IsRaw up.core) (hsettled : up.classify = .settled) :
    Act m ⟨m.shared, { m.flow with up := some (up.queueRaw m.data) }, []⟩

/-- Any number of moves. -/
abbrev Moves : Micro σ μ → Micro σ μ → Prop := ReflTransGen Move

/-- Any number of acts. -/
abbrev Acts : Micro σ μ → Micro σ μ → Prop := ReflTransGen Act

namespace Moves

theorem single {m m' : Micro σ μ} (h : Move m m') : Moves m m' := ReflTransGen.single h

theorem acts {m m' : Micro σ μ} (h : Moves m m') : Acts m m' :=
  Relation.ReflTransGen.mono (fun a b hab => Act.move a b hab) _ _ h

theorem sockets (m : Micro σ μ) {s : Option σ} (calls : List AppCall)
    (h : ReflTransGen SocketAct m.flow.socket s) :
    Moves m { m with flow := { m.flow with socket := s, calls := calls } } := by
  induction h with
  | refl => exact single (.call m _ calls (.keep _))
  | tail _ hact ih => exact ih.tail (.call _ _ calls hact)

theorem push (h : Shared μ) (x : Flow σ μ) (d : Bytes) (es : List Event) :
    Moves ⟨h, x, d⟩ ⟨h.push es, x, d⟩ :=
  single (.note ⟨h, x, d⟩ (h.batcher ++ es) h.pinned h.httpForward80)

end Moves

end Micro

section Loops

theorem flushLoop_sockets (n : ℕ) (s : Option σ) (queue : Bytes) :
    ReflTransGen SocketAct s (flushLoop n s queue).1 := by
  induction n generalizing s queue with
  | zero => exact .refl
  | succ n ih =>
    unfold flushLoop
    split_ifs
    · exact .refl
    · exact .head (.send s _) (ih _ _)

theorem pumpLoop_sockets (toApp : Bytes) (n : ℕ) (s : Option σ) (io : UpstreamIo) :
    ReflTransGen SocketAct s (pumpLoop toApp n s io).1 := by
  induction n generalizing s io with
  | zero => exact .refl
  | succ n ih =>
    unfold pumpLoop
    split_ifs
    · exact .refl
    · rcases io.read (min (tcpSendSpace s) (32 * 1024)) with ⟨r, io'⟩
      cases r with
      | eof => exact .single (.close s)
      | data bytes => exact .head (.send s bytes) (ih _ _)
      | wouldBlock => exact .refl
      | failed => exact .single (.abort s)

/-- The state of the sending side of an upstream socket. -/
def UpstreamIo.sendSide (io : UpstreamIo) : Bool × Bool := (io.writeFailed, io.writeShut)

@[simp] theorem UpstreamIo.sendSide_read (io : UpstreamIo) (n : ℕ) :
    (io.read n).2.sendSide = io.sendSide := by
  unfold UpstreamIo.read
  split_ifs <;> rfl

@[simp] theorem UpstreamIo.sendSide_pumpTls (io : UpstreamIo) : io.pumpTls.2.sendSide = io.sendSide := by
  unfold UpstreamIo.pumpTls
  rcases io.pumps with _ | ⟨p, pumps⟩
  · rfl
  · cases p <;> rfl

theorem UpstreamIo.sendSide_readLoop (n fuel : ℕ) (io : UpstreamIo) :
    (UpstreamIo.readLoop n fuel io).2.2.sendSide = io.sendSide := by
  induction fuel generalizing io with
  | zero => rfl
  | succ fuel ih =>
    have hr := io.sendSide_read n
    unfold UpstreamIo.readLoop
    rcases hread : io.read n with ⟨r, io'⟩
    rw [hread] at hr
    cases r with
    | data bytes => exact (ih io').trans hr
    | eof => exact hr
    | wouldBlock => exact hr
    | failed => exact hr

theorem UpstreamIo.sendSide_pumpLoop (toApp : Bytes) (n : ℕ) (s : Option σ) (io : UpstreamIo) :
    (pumpLoop toApp n s io).2.1.sendSide = io.sendSide := by
  induction n generalizing s io with
  | zero => rfl
  | succ n ih =>
    have hr := io.sendSide_read (min (tcpSendSpace s) (32 * 1024))
    unfold pumpLoop
    split_ifs
    · rfl
    · rcases hread : io.read (min (tcpSendSpace s) (32 * 1024)) with ⟨r, io'⟩
      rw [hread] at hr
      cases r with
      | eof => exact hr
      | data bytes => exact (ih _ io').trans hr
      | wouldBlock => exact hr
      | failed => exact hr

namespace TcpUpstream

omit [Splice μ] in
theorem settled_of_isPending {up : TcpUpstream μ} (h : up.isPending = false) :
    up.classify = .settled := by
  unfold isPending at h
  cases hc : up.classify with
  | settled => rfl
  | pendingSni buf => simp [hc] at h

/-- Reading, and whatever else leaves the sending side, does not change the core. -/
theorem core_withIo {up : TcpUpstream μ} {io : UpstreamIo} (h : io.sendSide = up.io.sendSide) :
    ({ up with io := io } : TcpUpstream μ).core = up.core := by
  obtain ⟨hf, hs⟩ := Prod.mk.inj h
  simp [core, kind, hf, hs]

variable [LawfulSplice μ]

theorem core_provisionCosmetics (h : Shared μ) (up : TcpUpstream μ) :
    (up.provisionCosmetics h).core = up.core := by
  have hk := up.kind_provisionCosmetics h
  unfold provisionCosmetics at hk ⊢
  split_ifs at hk ⊢
  · rfl
  · cases hh : up.mitm.bind Splice.host with
    | none => rfl
    | some host =>
      rw [hh] at hk
      simp only [core, hk]

theorem core_recvFromApp (up : TcpUpstream μ) (data : Bytes) :
    (up.recvFromApp data).core = up.core := by
  have hk := up.kind_recvFromApp data
  unfold recvFromApp at hk ⊢
  split_ifs at hk ⊢
  · rfl
  · simp only [core, hk]

theorem core_readIntoMitm (n : ℕ) (up : TcpUpstream μ) : (up.readIntoMitm n).core = up.core := by
  induction n generalizing up with
  | zero => rfl
  | succ n ih =>
    have hr := up.io.sendSide_read (32 * 1024)
    unfold readIntoMitm
    split_ifs
    · rfl
    · rcases hread : up.io.read (32 * 1024) with ⟨r, io⟩
      rw [hread] at hr
      have hio := core_withIo hr
      cases r with
      | data bytes =>
        dsimp only
        rw [ih, ← hio]
        simp [core, kind, Option.map_map, Function.comp_def]
      | eof => exact hio
      | wouldBlock => exact hio
      | failed => exact hio

end TcpUpstream

end Loops

namespace Flow
open Micro

section Transport

theorem moves_abort (h : Shared μ) (x : Flow σ μ) (d : Bytes) : Moves ⟨h, x, d⟩ ⟨h, x.abort, d⟩ :=
  .single (.call ⟨h, x, d⟩ _ x.calls (.abort _))

theorem moves_closeApp (h : Shared μ) (x : Flow σ μ) (d : Bytes) :
    Moves ⟨h, x, d⟩ ⟨h, x.closeApp, d⟩ :=
  .single (.call ⟨h, x, d⟩ _ _ (.close _))

theorem moves_flushToUpstream (h : Shared μ) (x : Flow σ μ) (d : Bytes) :
    Moves ⟨h, x, d⟩ ⟨h, x.flushToUpstream, d⟩ :=
  .single (.flush ⟨h, x, d⟩)

theorem moves_flushToApp (h : Shared μ) (x : Flow σ μ) (d : Bytes) :
    Moves ⟨h, x, d⟩ ⟨h, x.flushToApp, d⟩ := by
  obtain ⟨socket, up, calls⟩ := x
  cases up with
  | none => exact .refl
  | some up =>
    let r := flushLoop up.toApp.length socket up.toApp
    have hs := Moves.sockets ⟨h, ⟨socket, some up, calls⟩, d⟩ (calls ++ r.2.2)
      (flushLoop_sockets up.toApp.length socket up.toApp)
    exact hs.tail (.edit _ up { up with toApp := r.2.1 } rfl rfl)

theorem moves_flush (h : Shared μ) (x : Flow σ μ) (d : Bytes) :
    Moves ⟨h, x, d⟩ ⟨h, x.flushToUpstream.flushToApp, d⟩ :=
  (moves_flushToUpstream h x d).trans (moves_flushToApp h _ d)

theorem moves_pumpUpstreamToApp (h : Shared μ) (x : Flow σ μ) (d : Bytes) :
    Moves ⟨h, x, d⟩ ⟨h, x.pumpUpstreamToApp, d⟩ := by
  obtain ⟨socket, up, calls⟩ := x
  cases up with
  | none => exact .refl
  | some up =>
    let r := pumpLoop up.toApp (up.io.unread.length + 1) socket up.io
    have hs := Moves.sockets ⟨h, ⟨socket, some up, calls⟩, d⟩ (calls ++ r.2.2)
      (pumpLoop_sockets up.toApp (up.io.unread.length + 1) socket up.io)
    have hio := UpstreamIo.sendSide_pumpLoop up.toApp (up.io.unread.length + 1) socket up.io
    exact hs.tail (.edit _ up { up with io := r.2.1 } rfl (TcpUpstream.core_withIo hio))

theorem moves_readUpstreamIntoMitm [LawfulSplice μ] (h : Shared μ) (x : Flow σ μ) (d : Bytes) :
    Moves ⟨h, x, d⟩ ⟨h, x.readUpstreamIntoMitm, d⟩ := by
  obtain ⟨socket, up, calls⟩ := x
  cases up with
  | none => exact .refl
  | some up =>
    exact .single (.edit ⟨h, ⟨socket, some up, calls⟩, d⟩ up _ rfl
      (up.core_readIntoMitm (up.io.unread.length + 1)))

end Transport

section Handshaking

theorem moves_failProxy (h : Shared μ) (x : Flow σ μ) (d : Bytes) :
    Moves ⟨h, x, d⟩ ⟨(failProxy h x).1, (failProxy h x).2, d⟩ := by
  unfold failProxy
  extract_lets es
  refine (Moves.push h x d es).trans ?_
  refine (moves_abort (h.push es) x d).trans ?_
  exact .single (.teardown ⟨h.push es, x.abort, d⟩)

theorem core_flushHandshakeOut (up : TcpUpstream μ) :
    ∃ failed, up.flushHandshakeOut.2.core = { up.core with writeFailed := failed } := by
  unfold TcpUpstream.flushHandshakeOut
  split_ifs
  · exact ⟨up.io.writeFailed, rfl⟩
  · obtain ⟨writes, failed, hio⟩ := up.io.send_frame up.hsOut
    refine ⟨failed, ?_⟩
    simp only [hio]
    rfl

/-- What the leftover of the handshake does to the core: it goes to the splice or to the app. -/
theorem core_leftover [LawfulSplice μ] (up : TcpUpstream μ) (leftover : Bytes) :
    (if leftover = [] then up
      else match up.mitm with
        | some m => { up with mitm := some (Splice.recvFromUpstream m leftover) }
        | none => { up with toApp := up.toApp ++ leftover } : TcpUpstream μ).core = up.core := by
  split_ifs
  · rfl
  · cases hm : up.mitm with
    | none => simp [TcpUpstream.core, TcpUpstream.kind, hm]
    | some m => simp [TcpUpstream.core, TcpUpstream.kind, hm]

theorem moves_handshakeLoop [LawfulSplice μ] (eof : Bool) (n : ℕ) (input : Bytes) (h : Shared μ)
    (x : Flow σ μ) (d : Bytes) :
    Moves ⟨h, x, d⟩ ⟨(handshakeLoop eof n input h x).1, (handshakeLoop eof n input h x).2, d⟩ := by
  induction n generalizing input h x with
  | zero => exact .refl
  | succ n ih =>
    obtain ⟨socket, up, calls⟩ := x
    unfold handshakeLoop
    cases up with
    | none => exact .refl
    | some up =>
      cases hhs : up.handshake with
      | none =>
        simp only [hhs]
        exact .refl
      | some hs =>
        have hgoing : up.handshake.isSome = true := by rw [hhs]; rfl
        simp only [hhs]
        rcases hs.step input with ⟨r, hs'⟩
        have hstepped : Moves ⟨h, ⟨socket, some up, calls⟩, d⟩
            ⟨h, ⟨socket, some { up with handshake := some hs' }, calls⟩, d⟩ := by
          refine .single (.edit _ up _ rfl ?_)
          simp [TcpUpstream.core, TcpUpstream.kind, hhs]
        cases r with
        | error e =>
          dsimp only
          refine hstepped.trans ?_
          refine .trans ?_ (moves_failProxy _ _ d)
          exact .single (.note _ h.batcher h.pinned _)
        | ok step =>
          cases step with
          | read =>
            dsimp only
            split_ifs
            · exact hstepped.trans (moves_failProxy _ _ d)
            · exact hstepped
          | done leftover =>
            dsimp only
            refine .trans ?_ (moves_flushToApp _ _ d)
            refine .single (.handshake _ up _ false up.io.writeFailed rfl hgoing ?_)
            exact core_leftover { up with handshake := none } leftover
          | write bytes =>
            dsimp only
            set out := TcpUpstream.flushHandshakeOut
              { up with handshake := some hs', hsOut := up.hsOut ++ bytes } with hout
            have hsent : Moves ⟨h, ⟨socket, some up, calls⟩, d⟩
                ⟨h, ⟨socket, some out.2, calls⟩, d⟩ := by
              obtain ⟨failed, hc⟩ := core_flushHandshakeOut
                { up with handshake := some hs', hsOut := up.hsOut ++ bytes }
              refine .single (.handshake _ up _ true failed rfl hgoing ?_)
              rw [hout, hc]
              simp [TcpUpstream.core, TcpUpstream.kind]
            split_ifs
            · exact hsent.trans (moves_failProxy _ _ d)
            · exact hsent
            · exact hsent.trans (ih [] h ⟨socket, some out.2, calls⟩)

theorem moves_driveProxyHandshake [LawfulSplice μ] (h : Shared μ) (x : Flow σ μ) (d : Bytes)
    (hgoing : ∀ up, x.up = some up → up.handshake.isSome = true) :
    Moves ⟨h, x, d⟩ ⟨(driveProxyHandshake h x).1, (driveProxyHandshake h x).2, d⟩ := by
  obtain ⟨socket, up, calls⟩ := x
  unfold driveProxyHandshake
  cases up with
  | none => exact moves_failProxy _ _ d
  | some up =>
    have hg := hgoing up rfl
    dsimp only
    set tls := if up.io.handshaking then up.io.pumpTls else (true, up.io) with htls
    have hside : tls.2.sendSide = up.io.sendSide := by
      rw [htls]
      split_ifs
      · exact up.io.sendSide_pumpTls
      · rfl
    have hpumped : Moves ⟨h, ⟨socket, some up, calls⟩, d⟩
        ⟨h, ⟨socket, some { up with io := tls.2 }, calls⟩, d⟩ :=
      .single (.edit _ up _ rfl (TcpUpstream.core_withIo hside))
    split_ifs with hfail hmore hwrite hleft
    · exact hpumped.trans (moves_failProxy _ _ d)
    · exact hpumped
    all_goals
      set out := TcpUpstream.flushHandshakeOut { up with io := tls.2 } with hout
      obtain ⟨failed, hc⟩ := core_flushHandshakeOut { up with io := tls.2 }
      have hsent : Moves ⟨h, ⟨socket, some up, calls⟩, d⟩ ⟨h, ⟨socket, some out.2, calls⟩, d⟩ := by
        refine hpumped.tail (.handshake _ { up with io := tls.2 } _ true failed rfl hg ?_)
        rw [hout, hc]
        simp [TcpUpstream.core, hg]
    · exact hsent.trans (moves_failProxy _ _ d)
    · exact hsent
    · refine hsent.trans ?_
      have hread := UpstreamIo.sendSide_readLoop 4096 (out.2.io.unread.length + 1) out.2.io
      have hdrained : Moves ⟨h, ⟨socket, some out.2, calls⟩, d⟩
          ⟨h, ⟨socket, some { out.2 with io := (out.2.io.readAll 4096).2.2 }, calls⟩, d⟩ :=
        .single (.edit _ out.2 _ rfl (TcpUpstream.core_withIo hread))
      refine hdrained.trans ?_
      cases (out.2.io.readAll 4096).2.1 with
      | failed => exact moves_failProxy _ _ d
      | eof => exact moves_handshakeLoop true 5 _ h _ d
      | wouldBlock => exact moves_handshakeLoop false 5 _ h _ d

end Handshaking

section Interception

variable [LawfulSplice μ]

omit [LawfulSplice μ] in
theorem moves_notePinIfRejected (h : Shared μ) (x : Flow σ μ) (d : Bytes) :
    Moves ⟨h, x, d⟩ ⟨(notePinIfRejected h x).1, (notePinIfRejected h x).2, d⟩ := by
  obtain ⟨socket, up, calls⟩ := x
  unfold notePinIfRejected
  cases up with
  | none => exact .refl
  | some up =>
    cases hm : up.mitm with
    | none =>
      simp only [hm]
      exact .refl
    | some m =>
      have hpin (batcher : List Event) (pinned : List (ℤ × IpAddr)) :
          Moves ⟨h, ⟨socket, some up, calls⟩, d⟩
            ⟨{ h with batcher := batcher, pinned := pinned },
              ⟨socket, some { up with pinReported := true }, calls⟩, d⟩ :=
        .tail (.single (.note _ batcher pinned h.httpForward80)) (.edit _ up _ rfl rfl)
      simp only [hm] at hpin ⊢
      split_ifs
      · exact .refl
      · exact hpin _ _
      · exact hpin _ _

omit [LawfulSplice μ] in
/-- A flow with this kind is spliced. -/
theorem isSome_mitm_of_kind {up : TcpUpstream μ} {k : FlowKind} (h : up.kind = k)
    (hk : k.dns.isSome = true) : up.mitm.isSome = true := by
  rw [← h] at hk
  simpa [TcpUpstream.kind] using hk

omit [LawfulSplice μ] in
theorem moves_closeMitm (h : Shared μ) (x : Flow σ μ) (d : Bytes)
    (hm : ∀ up, x.up = some up → up.mitm.isSome = true) :
    Moves ⟨h, x, d⟩ ⟨(closeMitm h x).1, (closeMitm h x).2, d⟩ := by
  unfold closeMitm
  extract_lets r y
  have hnote := moves_notePinIfRejected h x d
  have hflush : Moves ⟨h, x, d⟩ ⟨r.1, y, d⟩ :=
    (hnote.trans (moves_flush _ _ d)).trans (moves_closeApp _ _ d)
  have hk : y.kind = x.kind :=
    (kind_closeApp _).trans <| (kind_flushToApp _).trans <|
      (kind_flushToUpstream _).trans <| kind_notePinIfRejected h x
  refine hflush.trans ?_
  cases hy : y.up with
  | none =>
    have : ({ y with up := none.map TcpUpstream.closeWrite } : Flow σ μ) = y := by
      rw [Option.map_none, ← hy]
    rw [this]
  | some up =>
    refine .single (.closeWrite ⟨r.1, y, d⟩ up hy (Or.inl ?_))
    have hxk : x.kind = some up.kind := by rw [← hk]; simp [kind, hy]
    obtain ⟨upx, hupx, hkx⟩ := Option.map_eq_some_iff.mp hxk
    have := hm upx hupx
    apply isSome_mitm_of_kind hkx.symm
    simpa [TcpUpstream.kind] using this

theorem core_pumpMitm (h : Shared μ) {up : TcpUpstream μ} {m : μ} (hm : up.mitm = some m) :
    ∃ out, (pumpMitm h up m).2.1.core =
      { up.core with toUpstream := up.toUpstream ++ out } := by
  unfold pumpMitm
  by_cases hdns : Splice.isDns m = true
  · refine ⟨(Splice.pumpDns h.isBlockedDomain m).1.toUpstream, ?_⟩
    rw [if_pos hdns]
    simp [TcpUpstream.core, TcpUpstream.kind, hm]
  · let up' := ({ up with mitm := some (Splice.pump m).2 } : TcpUpstream μ).provisionCosmetics h
    have hc : up'.core = up.core := by
      refine (TcpUpstream.core_provisionCosmetics h _).trans ?_
      simp [TcpUpstream.core, TcpUpstream.kind, hm]
    have ht : up'.toUpstream = up.toUpstream := congrArg UpCore.toUpstream hc
    refine ⟨(Splice.pump m).1.toUpstream, ?_⟩
    rw [if_neg hdns]
    calc
      _ = { up'.core with toUpstream := up'.toUpstream ++ (Splice.pump m).1.toUpstream } := rfl
      _ = _ := by rw [hc, ht]

omit [LawfulSplice μ] in
theorem shared_pumpMitm (h : Shared μ) (up : TcpUpstream μ) (m : μ) :
    ∃ batcher, (pumpMitm h up m).1 = { h with batcher := batcher } := by
  unfold pumpMitm
  split_ifs
  · exact ⟨_, rfl⟩
  · exact ⟨h.batcher, rfl⟩

theorem moves_driveMitm (h : Shared μ) (x : Flow σ μ) (d : Bytes) :
    Moves ⟨h, x, d⟩ ⟨(driveMitm h x).1, (driveMitm h x).2, d⟩ := by
  obtain ⟨socket, up, calls⟩ := x
  unfold driveMitm
  cases up with
  | none => exact .refl
  | some up =>
    cases hm : up.mitm with
    | none =>
      simp only [hm]
      exact .refl
    | some m =>
      simp only [hm]
      obtain ⟨batcher, hshared⟩ := shared_pumpMitm h up m
      obtain ⟨out, hcore⟩ := core_pumpMitm h hm
      have hmitm : up.mitm.isSome = true := by rw [hm]; rfl
      have hpump : Moves ⟨h, ⟨socket, some up, calls⟩, d⟩
          ⟨(pumpMitm h up m).1, ⟨socket, some (pumpMitm h up m).2.1, calls⟩, d⟩ := by
        rw [hshared]
        exact .tail (.single (.note _ batcher h.pinned h.httpForward80))
          (.spliceOut _ up _ out rfl hmitm hcore)
      split_ifs
      · refine hpump.trans (moves_closeMitm _ _ d ?_)
        intro up' hup'
        obtain rfl := Option.some.inj hup'
        apply isSome_mitm_of_kind (kind_pumpMitm h hm)
        simpa [TcpUpstream.kind] using hmitm
      · exact hpump

theorem moves_feedAndDrive (h : Shared μ) (x : Flow σ μ) (d data : Bytes) :
    Moves ⟨h, x, d⟩ ⟨(feedAndDrive h x data).1, (feedAndDrive h x data).2, d⟩ := by
  obtain ⟨socket, up, calls⟩ := x
  unfold feedAndDrive
  refine .trans ?_ (moves_driveMitm _ _ d)
  cases up with
  | none => exact .refl
  | some up => exact .single (.edit _ up _ rfl (up.core_recvFromApp data))

/-- Attaching a splice, when the decision was for that splice. -/
theorem acts_attach (h h' : Shared μ) (x : Flow σ μ) {up up' : TcpUpstream μ} {buf d : Bytes}
    {sni : Option Str} {m : μ} (hup : x.up = some up) (hbuf : up.classify = .pendingSni buf)
    (hpeek : peekPending (buf ++ d) = some sni)
    (hclass : h.classification up.uid up.server sni = .doh m ∨
      h.classification up.uid up.server sni = .cosmetic m)
    (hnote : ∃ batcher, h' = { h with batcher := batcher })
    (hc : up'.core = { up.core with kind := { up.kind with classify := .settled } }) :
    Acts ⟨h, x, d⟩ ⟨(attach h' x up' m (buf ++ d)).1, (attach h' x up' m (buf ++ d)).2, []⟩ := by
  obtain ⟨batcher, rfl⟩ := hnote
  unfold attach
  refine .trans ?_ (moves_feedAndDrive _ _ [] _).acts
  have hsettle : Acts ⟨h, x, d⟩ ⟨h, { x with up := some { up' with mitm := some m } }, []⟩ := by
    refine .single (.settleSplice ⟨h, x, d⟩ up _ m buf sni hup hbuf hpeek hclass ?_)
    have hk : up'.kind = { up.kind with classify := .settled } := congrArg UpCore.kind hc
    calc ({ up' with mitm := some m } : TcpUpstream μ).core
        = { up'.core with kind := { up'.kind with dns := some (Splice.isDns m) } } := rfl
      _ = _ := by rw [hc, hk]
  exact hsettle.tail (.move _ _ (.note _ batcher h.pinned h.httpForward80))

theorem acts_settle (h : Shared μ) (x : Flow σ μ) {up : TcpUpstream μ} {buf d : Bytes}
    {sni : Option Str} (hup : x.up = some up) (hbuf : up.classify = .pendingSni buf)
    (hpeek : peekPending (buf ++ d) = some sni) :
    Acts ⟨h, x, d⟩
      ⟨(settle h x { up with classify := .settled } sni (buf ++ d)).1,
        (settle h x { up with classify := .settled } sni (buf ++ d)).2, []⟩ := by
  unfold settle
  extract_lets logged marked
  have hlogged : ∃ batcher, logged = { h with batcher := batcher } := by
    by_cases hl : h.firewall.logOpen = true
    · exact ⟨_, if_pos hl⟩
    · exact ⟨h.batcher, if_neg hl⟩
  have hmarked : marked.core = { up.core with kind := { up.kind with classify := .settled } } := rfl
  have hplain : ({ up with classify := .settled } : TcpUpstream μ).core =
      { up.core with kind := { up.kind with classify := .settled } } := rfl
  cases hclass : h.classification up.uid up.server sni with
  | doh m => exact acts_attach h h x hup hbuf hpeek (Or.inl hclass) ⟨h.batcher, rfl⟩ hplain
  | cosmetic m => exact acts_attach h logged x hup hbuf hpeek (Or.inr hclass) hlogged hmarked
  | blocked =>
    obtain ⟨socket, upx, calls⟩ := x
    obtain rfl : upx = some up := hup
    have hpush := Moves.push h ⟨socket, some up, calls⟩ d
      [(Event.blockedFlow up.server).withUid up.uid]
    have hgone := (hpush.trans (moves_abort _ _ d)).tail (.teardown _)
    refine .tail (Moves.acts hgone) ?_
    exact .discard ⟨_, ⟨_, none, calls⟩, d⟩ (fun up hup => by cases hup)
  | raw =>
    obtain ⟨batcher, hl⟩ := hlogged
    have hsettle : Acts ⟨h, x, d⟩ ⟨h, { x with up := some (marked.queueRaw (buf ++ d)) }, []⟩ :=
      .single (.settleRaw ⟨h, x, d⟩ up _ buf sni hup hbuf hpeek hclass rfl)
    rw [hl]
    exact hsettle.tail (.move _ _ (.note _ batcher h.pinned h.httpForward80))

end Interception

section Service

theorem moves_observeSni (h : Shared μ) (x : Flow σ μ) (d data : Bytes) :
    Moves ⟨h, x, d⟩ ⟨(observeSni h x data).1, (observeSni h x data).2, d⟩ := by
  obtain ⟨socket, up, calls⟩ := x
  unfold observeSni
  cases up with
  | none => exact .refl
  | some up =>
    dsimp only
    split_ifs
    · exact .refl
    · cases peekSni data with
      | found host => exact (Moves.push h _ d _).tail (.edit _ up _ rfl rfl)
      | needMore => exact .refl
      | none => exact .refl

theorem moves_propagateFin (h : Shared μ) (x : Flow σ μ) (hp : x.isPending = false) :
    Moves ⟨h, x, []⟩ ⟨h, x.propagateFin, []⟩ := by
  obtain ⟨socket, up, calls⟩ := x
  unfold propagateFin
  split_ifs with hfin
  · cases up with
    | none => exact .refl
    | some up =>
      by_cases he : up.toUpstream = []
      · have hsettled : up.classify = .settled := TcpUpstream.settled_of_isPending hp
        simp only [Option.map_some, he, List.isEmpty_nil, if_true]
        exact .single (.closeWrite ⟨h, ⟨socket, some up, calls⟩, []⟩ up rfl
          (Or.inr ⟨hfin, he, hsettled, rfl⟩))
      · have : up.toUpstream.isEmpty = false := by simpa using he
        simp only [Option.map_some, this]
        exact .refl
  · exact .refl

variable [LawfulSplice μ]

theorem acts_classifyPending (h : Shared μ) (x : Flow σ μ) (d : Bytes)
    (hp : x.isPending = true) :
    Acts ⟨h, x, d⟩ ⟨(classifyPending h x d).1, (classifyPending h x d).2, []⟩ := by
  obtain ⟨socket, up, calls⟩ := x
  unfold classifyPending
  cases up with
  | none => simp [isPending] at hp
  | some up =>
    cases hc : up.classify with
    | settled => simp [isPending, TcpUpstream.isPending, hc] at hp
    | pendingSni buf =>
      simp only [hc]
      cases hpeek : peekPending (buf ++ d) with
      | none => exact .single (.buffer ⟨h, ⟨socket, some up, calls⟩, d⟩ up buf rfl hc hpeek)
      | some sni => exact acts_settle h ⟨socket, some up, calls⟩ rfl hc hpeek

theorem acts_relayAppData (h : Shared μ) (x : Flow σ μ) (d : Bytes) (hp : x.isPending = false) :
    Acts ⟨h, x, d⟩ ⟨(relayAppData h x d).2.1, (relayAppData h x d).2.2, []⟩ := by
  obtain ⟨socket, up, calls⟩ := x
  unfold relayAppData
  cases up with
  | none => exact .single (.discard _ fun up hup => by cases hup)
  | some up =>
    have hsettled : up.classify = .settled := TcpUpstream.settled_of_isPending hp
    cases hm : up.mitm with
    | some m =>
      simp only [hm]
      have hraw : ¬ IsRaw up.core := by simp [IsRaw, TcpUpstream.core, TcpUpstream.kind, hm]
      refine .trans ?_ (moves_driveMitm _ _ []).acts
      refine .tail (.single (.discard ⟨h, ⟨socket, some up, calls⟩, d⟩ ?_)) (.move _ _ ?_)
      · intro up' hup'
        obtain rfl := Option.some.inj hup'
        exact hraw
      · exact .edit _ up _ rfl (up.core_recvFromApp d)
    | none =>
      simp only [hm]
      by_cases hd : d = []
      · rw [if_pos hd, hd]
      · rw [if_neg hd]
        cases hf : up.httpForward with
        | some fwd =>
          have hraw : ¬ IsRaw up.core := by simp [IsRaw, TcpUpstream.core, TcpUpstream.kind, hf]
          dsimp only
          rcases fwd.push d with ⟨r, fwd'⟩
          cases r with
          | ok bytes =>
            refine .single (.rewrite ⟨h, ⟨socket, some up, calls⟩, d⟩ up _ bytes rfl ?_ ?_)
            · rw [hf]
              rfl
            · simp [TcpUpstream.core, TcpUpstream.kind, TcpUpstream.queue, hm, hf]
          | error e =>
            refine .trans ?_ (moves_failProxy _ _ []).acts
            refine .tail (.single (.discard ⟨h, ⟨socket, some up, calls⟩, d⟩ ?_)) (.move _ _ ?_)
            · intro up' hup'
              obtain rfl := Option.some.inj hup'
              exact hraw
            · exact .edit _ up _ rfl (by simp [TcpUpstream.core, TcpUpstream.kind, hm, hf])
        | none =>
          have hraw : IsRaw up.core := by simp [IsRaw, TcpUpstream.core, TcpUpstream.kind, hm, hf]
          have hqueue (h' : Shared μ) (y : Flow σ μ) (hy : y.kind = some up.kind) :
              Acts ⟨h', y, d⟩ ⟨h', { y with up := y.up.map (TcpUpstream.queueRaw · d) }, []⟩ := by
            obtain ⟨up', hup', hk⟩ := Option.map_eq_some_iff.mp hy
            have hc : up'.classify = up.classify := congrArg FlowKind.classify hk
            rw [hup']
            refine .single (.queueRaw ⟨h', y, d⟩ up' hup' ?_ (hc.trans hsettled))
            exact ⟨(congrArg FlowKind.dns hk).trans hraw.1,
              (congrArg FlowKind.httpForward hk).trans hraw.2⟩
          dsimp only
          by_cases hlog : h.firewall.logOpen = true
          · simp only [hlog, if_true]
            refine (moves_observeSni h ⟨socket, some up, calls⟩ d d).acts.trans (hqueue _ _ ?_)
            exact kind_observeSni h _ d
          · simp only [hlog, if_false, Bool.false_eq_true]
            exact hqueue h ⟨socket, some up, calls⟩ rfl

theorem isPending_relayAppData (h : Shared μ) (x : Flow σ μ) (d : Bytes)
    (hp : x.isPending = false) : (relayAppData h x d).2.2.isPending = false := by
  obtain ⟨socket, up, calls⟩ := x
  unfold relayAppData
  cases up with
  | none => rfl
  | some up =>
    cases hm : up.mitm with
    | some m =>
      simp only [hm]
      rw [isPending_of_kind (kind_driveMitm _ _), ← hp]
      exact isPending_of_kind (congrArg some (up.kind_recvFromApp d))
    | none =>
      simp only [hm]
      by_cases hd : d = []
      · rw [if_pos hd]
        exact hp
      · rw [if_neg hd]
        cases hf : up.httpForward with
        | some fwd =>
          dsimp only
          rcases fwd.push d with ⟨r, fwd'⟩
          cases r with
          | ok bytes => exact hp
          | error e => rfl
        | none =>
          have hqueue (y : Flow σ μ) (hy : y.kind = some up.kind) :
              ({ y with up := y.up.map (TcpUpstream.queueRaw · d) } : Flow σ μ).isPending =
                false := by
            rw [← hp]
            apply isPending_of_kind
            simp only [kind, Option.map_map, Function.comp_def, TcpUpstream.kind_queueRaw]
            exact hy
          by_cases hlog : h.firewall.logOpen = true
          · simp only [hlog, if_true]
            exact hqueue _ (kind_observeSni h _ d)
          · simp only [hlog, if_false, Bool.false_eq_true]
            exact hqueue ⟨socket, some up, calls⟩ rfl

theorem acts_relayTaken (h : Shared μ) (x : Flow σ μ) (d : Bytes) :
    Acts ⟨h, x, d⟩ ⟨(relayTaken h x d).1, (relayTaken h x d).2, []⟩ := by
  unfold relayTaken
  cases hp : x.isPending with
  | true =>
    simp only [if_true]
    have hrelay := (acts_classifyPending h x d hp).trans (moves_flush _ _ []).acts
    split_ifs
    · exact hrelay.trans (moves_abort _ _ []).acts
    · exact hrelay
  | false =>
    simp only [Bool.false_eq_true, if_false]
    have hrelay := acts_relayAppData h x d hp
    split_ifs
    · exact hrelay
    · refine (hrelay.trans (moves_flush _ _ []).acts).trans (moves_propagateFin _ _ ?_).acts
      rw [isPending_of_kind (kind_flushToApp _), isPending_of_kind (kind_flushToUpstream _)]
      exact isPending_relayAppData h x d hp

theorem acts_relayPass (h : Shared μ) (x : Flow σ μ) (hopen : Micro.Open ⟨h, x, []⟩) :
    Acts ⟨h, x, []⟩ ⟨(relayPass h x).1, (relayPass h x).2, []⟩ :=
  .head (.take ⟨h, x, []⟩ hopen rfl) (acts_relayTaken h _ _)

theorem acts_servicePass (h : Shared μ) (x : Flow σ μ) :
    Acts ⟨h, x, []⟩ ⟨(servicePass h x).1, (servicePass h x).2, []⟩ := by
  unfold servicePass
  cases hup : x.up with
  | none => exact acts_relayPass h x fun up hu => by cases hup.symm.trans hu
  | some up =>
    dsimp only
    split_ifs with hconn hhs
    · exact .refl
    · refine (moves_driveProxyHandshake h x [] ?_).acts
      intro up' hu
      obtain rfl := Option.some.inj (hup.symm.trans hu)
      exact hhs
    · refine acts_relayPass h x ?_
      intro up' hu
      obtain rfl := Option.some.inj (hup.symm.trans hu)
      exact ⟨by simpa using hconn, by simpa using hhs⟩

theorem moves_readUpstream (h : Shared μ) (x : Flow σ μ) (isMitm : Bool) :
    Moves ⟨h, x, []⟩ ⟨(readUpstream h x isMitm).1, (readUpstream h x isMitm).2, []⟩ := by
  unfold readUpstream
  cases isMitm with
  | true =>
    exact (moves_readUpstreamIntoMitm h x []).trans
      ((moves_driveMitm _ _ []).trans (moves_flushToApp _ _ []))
  | false => exact moves_pumpUpstreamToApp h x []

theorem moves_onReadyRelay (h : Shared μ) (x : Flow σ μ) (event : Readiness) :
    Moves ⟨h, x, []⟩ ⟨(onReadyRelay h x event).1, (onReadyRelay h x event).2, []⟩ := by
  unfold onReadyRelay
  extract_lets y isMitm r
  have hflush : Moves ⟨h, x, []⟩ ⟨h, y, []⟩ := by
    by_cases hw : event.writable = true
    · rw [show y = x.flushToUpstream from if_pos hw]
      exact moves_flushToUpstream h x []
    · rw [show y = x from if_neg hw]
  have hread : Moves ⟨h, x, []⟩ ⟨r.1, r.2, []⟩ := by
    refine hflush.trans ?_
    by_cases hr : event.readable = true
    · rw [show r = readUpstream h y isMitm from if_pos hr]
      exact moves_readUpstream h y isMitm
    · rw [show r = (h, y) from if_neg hr]
  split_ifs
  · exact hread.trans ((moves_readUpstream _ _ isMitm).trans (moves_closeApp _ _ []))
  · exact hread

theorem moves_onReady (h : Shared μ) (x : Flow σ μ) (event : Readiness) :
    Moves ⟨h, x, []⟩ ⟨(onReady h x event).1, (onReady h x event).2, []⟩ := by
  obtain ⟨socket, up, calls⟩ := x
  unfold onReady
  cases up with
  | none => exact moves_onReadyRelay h _ event
  | some up =>
    have hdrive (up' : TcpUpstream μ) (hhs : up'.handshake.isSome = true) :=
      moves_driveProxyHandshake h ⟨socket, some up', calls⟩ [] fun up'' hup'' => by
        obtain rfl := Option.some.inj hup''
        exact hhs
    cases hw : (event.writable && up.connecting) with
    | true =>
      have hconn : Moves ⟨h, ⟨socket, some up, calls⟩, []⟩ ⟨h, ⟨socket, some { up with
          connecting := false, io := { up.io with connectError := false } }, calls⟩, []⟩ :=
        .single (.connected _ up _ rfl rfl)
      simp only [hw, if_true, Bool.true_and]
      split_ifs with hfail hhs
      · exact hconn.trans (moves_abort _ _ [])
      · exact hconn.trans (hdrive _ hhs)
      · exact hconn.trans (moves_onReadyRelay _ _ event)
    | false =>
      simp only [hw, Bool.false_eq_true, if_false, Bool.false_and]
      split_ifs with hhs
      · exact hdrive _ hhs
      · exact moves_onReadyRelay _ _ event

end Service

end Flow

section Invariants
open Micro

/-- The fields of the forwarder that its flows only read. -/
structure Shared.SameConfig (h h' : Shared μ) : Prop where
  engine : h'.engine = h.engine
  encryptedDnsMode : h'.encryptedDnsMode = h.encryptedDnsMode
  firewall : h'.firewall = h.firewall
  proxy : h'.proxy = h.proxy
  tls : h'.tls = h.tls
  now : h'.now = h.now

omit [TcpSocket σ] [Splice μ] in
theorem Shared.SameConfig.refl (h : Shared μ) : h.SameConfig h := ⟨rfl, rfl, rfl, rfl, rfl, rfl⟩

omit [TcpSocket σ] [Splice μ] in
theorem Shared.SameConfig.trans {a b c : Shared μ} (hab : a.SameConfig b) (hbc : b.SameConfig c) :
    a.SameConfig c :=
  ⟨hbc.engine.trans hab.engine, hbc.encryptedDnsMode.trans hab.encryptedDnsMode,
    hbc.firewall.trans hab.firewall, hbc.proxy.trans hab.proxy, hbc.tls.trans hab.tls,
    hbc.now.trans hab.now⟩

theorem Micro.Move.sameConfig {m m' : Micro σ μ} (h : Move m m') :
    m.shared.SameConfig m'.shared := by
  cases h with
  | teardown =>
    unfold Flow.teardownTcp
    cases m.flow.up with
    | none => exact .refl _
    | some up => exact ⟨rfl, rfl, rfl, rfl, rfl, rfl⟩
  | _ => exact ⟨rfl, rfl, rfl, rfl, rfl, rfl⟩

theorem Micro.Act.sameConfig {m m' : Micro σ μ} (h : Act m m') :
    m.shared.SameConfig m'.shared := by
  cases h with
  | move _ h => exact h.sameConfig
  | _ => exact ⟨rfl, rfl, rfl, rfl, rfl, rfl⟩

theorem Micro.Acts.sameConfig {m m' : Micro σ μ} (h : Acts m m') :
    m.shared.SameConfig m'.shared := by
  induction h with
  | refl => exact .refl _
  | tail _ hact ih => exact ih.trans hact.sameConfig

/-- An upstream keeps its token, or it goes, and its route with it. -/
def Micro.Tracks (m m' : Micro σ μ) : Prop :=
  (m'.flow.up.map TcpUpstream.token = m.flow.up.map TcpUpstream.token ∧
      m'.shared.routes = m.shared.routes) ∨
    ∃ up, m.flow.up = some up ∧ m'.flow.up = none ∧
      m'.shared.routes = m.shared.routes.erase up.token

omit [TcpSocket σ] in
theorem Micro.token_setUp {m : Micro σ μ} {up up' : TcpUpstream μ} (hup : m.flow.up = some up)
    (hc : up'.core.token = up.core.token) :
    (some up').map TcpUpstream.token = m.flow.up.map TcpUpstream.token := by
  rw [hup]
  exact congrArg some hc

theorem Micro.Move.tracks {m m' : Micro σ μ} (h : Move m m') : m.Tracks m' := by
  cases h with
  | note batcher pinned forward80 => exact Or.inl ⟨rfl, rfl⟩
  | call s calls hs => exact Or.inl ⟨rfl, rfl⟩
  | teardown =>
    unfold Flow.teardownTcp
    cases hup : m.flow.up with
    | none =>
      left
      simp [hup]
    | some up => exact Or.inr ⟨up, hup, rfl, rfl⟩
  | edit up up' hup hc => exact Or.inl ⟨token_setUp hup (by rw [hc]), rfl⟩
  | handshake up up' going failed hup _ hc =>
    exact Or.inl ⟨token_setUp hup (by rw [hc]), rfl⟩
  | connected up up' hup hc => exact Or.inl ⟨token_setUp hup (by rw [hc]), rfl⟩
  | flush =>
    refine Or.inl ⟨?_, rfl⟩
    obtain ⟨h, ⟨socket, up, calls⟩, d⟩ := m
    cases up with
    | none => rfl
    | some up =>
      unfold Flow.flushToUpstream
      dsimp only
      split_ifs <;> rfl
  | closeWrite up hup _ =>
    refine Or.inl ⟨token_setUp hup ?_, rfl⟩
    unfold TcpUpstream.closeWrite
    split_ifs <;> rfl
  | spliceOut up up' out hup _ hc => exact Or.inl ⟨token_setUp hup (by rw [hc]), rfl⟩

theorem Micro.Act.tracks {m m' : Micro σ μ} (h : Act m m') : m.Tracks m' := by
  cases h with
  | move _ h => exact h.tracks
  | take _ _ => exact Or.inl ⟨rfl, rfl⟩
  | discard _ => exact Or.inl ⟨rfl, rfl⟩
  | buffer up buf hup _ _ => exact Or.inl ⟨token_setUp hup rfl, rfl⟩
  | settleRaw up up' buf sni hup _ _ _ hc =>
    exact Or.inl ⟨token_setUp hup (by rw [hc]), rfl⟩
  | settleSplice up up' splice buf sni hup _ _ _ hc =>
    exact Or.inl ⟨token_setUp hup (by rw [hc]), rfl⟩
  | rewrite up up' out hup _ hc => exact Or.inl ⟨token_setUp hup (by rw [hc]), rfl⟩
  | queueRaw up hup _ _ => exact Or.inl ⟨token_setUp hup rfl, rfl⟩

theorem Micro.Acts.tracks {m m' : Micro σ μ} (h : Acts m m') : m.Tracks m' := by
  induction h with
  | refl => exact Or.inl ⟨rfl, rfl⟩
  | @tail b c _ hact ih =>
    rcases ih with ⟨ht, hr⟩ | ⟨up, hup, hnone, hr⟩
    · rcases hact.tracks with ⟨ht', hr'⟩ | ⟨upb, hupb, hnone', hr'⟩
      · exact Or.inl ⟨ht'.trans ht, hr'.trans hr⟩
      · rw [hupb] at ht
        obtain ⟨up, hup, htok⟩ := Option.map_eq_some_iff.mp ht.symm
        exact Or.inr ⟨up, hup, hnone', by rw [hr', hr, htok]⟩
    · rcases hact.tracks with ⟨ht', hr'⟩ | ⟨upb, hupb, -, -⟩
      · rw [hnone] at ht'
        exact Or.inr ⟨up, hup, Option.map_eq_none_iff.mp ht', hr'.trans hr⟩
      · rw [hnone] at hupb
        contradiction

end Invariants

end Adwarden.Core
