import Adwarden.Lib.Drain
import Adwarden.Tls.HttpTap
import Adwarden.Tls.Rewriter
import Adwarden.Tls.Session
import Adwarden.Tls.Splice

/-! The TLS interception of one flow: a server session toward the app, a client session toward the
upstream, and the plaintext that crosses between them. -/
namespace Adwarden.Tls
open Adwarden.Lib

structure Http where
  tap : HttpTap := .new
  rewriter : Rewriter := {}
deriving DecidableEq

inductive Plaintext (H : Hpack) where
  | http (http : Http)
  | dns (dns : DnsStream H)

inductive FailSide where
  | app
  | upstream
  | other
deriving DecidableEq

/-- What a splice does with plaintext: pieces read from either session, with what is given to the
other one for it, and the end of the capture. -/
inductive MitmEvent where
  | fromApp (raw : Bytes) (out : DnsCross)
  | fromUpstream (raw out : Bytes)
  | finished
deriving DecidableEq

namespace MitmEvent

def rawFromApp : MitmEvent → Bytes
  | .fromApp raw _ => raw
  | _ => []

def rawFromUpstream : MitmEvent → Bytes
  | .fromUpstream raw _ => raw
  | _ => []

def toUpstream : MitmEvent → Bytes
  | .fromApp _ out => out.toUpstream
  | _ => []

/-- What the app is given for its own plaintext. -/
def sentBack : MitmEvent → Bytes
  | .fromApp _ out => out.toApp
  | _ => []

def toApp : MitmEvent → Bytes
  | .fromApp _ out => out.toApp
  | .fromUpstream _ out => out
  | .finished => []

end MitmEvent

structure TlsMitm (σ κ : Type) (H : Hpack) where
  server : σ
  client : Option κ := none
  clientConfig : ClientConfig κ
  host : Option Str := none
  appClosed : Bool := false
  upstreamClosed : Bool := false
  failed : Bool := false
  certRejected : Bool := false
  plaintext : Plaintext H

/-- The output of a pump, with what it did with plaintext. -/
structure Pumped (σ κ : Type) (H : Hpack) where
  io : MitmIo := {}
  events : List MitmEvent := []
  mitm : TlsMitm σ κ H

section Loops

variable {σ : Type} [TlsSession σ]

/-- The loop over `read_tls`. -/
structure Intake (σ : Type) where
  session : σ
  data : Bytes
  failed : Bool := false

def intakeLoop : Loop (Intake σ) where
  body i :=
    if i.data = [] then .leave i
    else match TlsSession.readTls i.session i.data with
      | .ok (n, session) =>
        if n = 0 then .leave { i with session }
        else .goOn { i with session, data := i.data.drop n }
      | .error session => .leave { i with session, failed := true }
  measure i := i.data.length
  decreases := by
    intro i i' h
    split_ifs at h with hd
    have := List.length_pos_of_ne_nil hd
    split at h
    · split_ifs at h
      obtain rfl := Turn.goOn.inj h
      simp only [List.length_drop]
      omega
    · cases h

def intake (session : σ) (data : Bytes) : Intake σ := intakeLoop.run { session, data }

/-- The loop over `write_tls`. -/
structure Outflow (σ : Type) where
  session : σ
  out : Bytes := []
  failed : Bool := false

def outflowLoop : Loop (Outflow σ) where
  body o :=
    if TlsSession.wantsWrite o.session then
      match TlsSession.writeTls o.session with
      | (some b, session) => .goOn { o with session, out := o.out ++ b }
      | (none, session) => .leave { o with session, failed := true }
    else .leave o
  measure o := TlsSession.unsent o.session
  decreases := by
    intro o o' h
    split_ifs at h with hw
    split at h
    · next b session hb =>
      obtain rfl := Turn.goOn.inj h
      have := TlsSession.unsent_writeTls (b := b) hw (by rw [hb])
      rwa [hb] at this
    · cases h

def outflow (session : σ) : Outflow σ := outflowLoop.run { session }

end Loops

section Crossing

/-- Both sessions, and what handles the plaintext between them. -/
structure Link (σ κ α : Type) where
  server : σ
  client : κ
  layer : α

variable {σ κ α : Type} [TlsSession σ] [TlsSession κ]

def bufSize : ℕ := 16 * 1024

/-- Reads one of the sessions until there is no more plaintext, and handles each piece. -/
def readLoop {τ : Type} [TlsSession τ] (get : Link σ κ α → τ) (set : Link σ κ α → τ → Link σ κ α)
    (handle : Link σ κ α → Bytes → Except Panic (MitmEvent × Link σ κ α))
    (hkeeps : ∀ {l session raw c l'}, handle (set l session) raw = .ok (c, l') →
      TlsSession.readable (get l') = TlsSession.readable session) :
    Drain (Link σ κ α) Panic MitmEvent where
  step l := (TlsSession.read (get l) bufSize).map fun r =>
    (handle (set l r.2) r.1).map fun r => ([r.1], r.2)
  measure l := TlsSession.readable (get l)
  decreases := by
    intro l o l' h
    obtain ⟨⟨raw, session⟩, hread, h⟩ := Option.map_eq_some_iff.mp h
    cases hh : handle (set l session) raw with
    | error e => simp [hh, Except.map] at h
    | ok r =>
      obtain ⟨c, l₁⟩ := r
      obtain ⟨-, rfl⟩ : _ ∧ l₁ = l' := by simpa [hh, Except.map] using h
      rw [hkeeps hh]
      exact TlsSession.readable_read hread

/-- The capture sees what was read; the upstream is given what the rewriter makes of it. -/
def httpRequest (l : Link σ κ Http) (raw : Bytes) : Except Panic (MitmEvent × Link σ κ Http) :=
  let r := l.layer.rewriter.feedRequest raw
  .ok (.fromApp raw { toUpstream := r.1 },
    { l with
      client := TlsSession.writeAll l.client r.1
      layer := { tap := l.layer.tap.feedRequest raw, rewriter := r.2 } })

def httpResponse (p : Profile) (l : Link σ κ Http) (raw : Bytes) :
    Except Panic (MitmEvent × Link σ κ Http) :=
  (l.layer.rewriter.feedResponse p raw).map fun r =>
    let out := r.1.flatMap RespEmit.render
    (.fromUpstream raw out,
      { l with
        server := TlsSession.writeAll l.server out
        layer := { tap := l.layer.tap.feedResponse raw, rewriter := r.2 } })

/-- Answers go straight back to the app, and only what is left goes to the resolver. -/
def dnsQuery {H : Hpack} (p : Profile) (isBlocked : Str → Bool) (l : Link σ κ (DnsStream H))
    (raw : Bytes) : Except Panic (MitmEvent × Link σ κ (DnsStream H)) :=
  (l.layer.onAppData p isBlocked raw).map fun r =>
    (.fromApp raw r.1,
      { client :=
          if r.1.toUpstream = [] then l.client else TlsSession.writeAll l.client r.1.toUpstream
        server := if r.1.toApp = [] then l.server else TlsSession.writeAll l.server r.1.toApp
        layer := r.2 })

def dnsAnswer {H : Hpack} (l : Link σ κ (DnsStream H)) (raw : Bytes) :
    Except Panic (MitmEvent × Link σ κ (DnsStream H)) :=
  let r := l.layer.onUpstreamData raw
  .ok (.fromUpstream raw r.1,
    { l with server := TlsSession.writeAll l.server r.1, layer := r.2 })

/-- Both directions in turn, from the app first. -/
def crossLink {α : Type} (app upstream : Drain (Link σ κ α) Panic MitmEvent) (l : Link σ κ α) :
    Except Panic (List MitmEvent × Link σ κ α) := do
  let (up, l) ← app.run l
  let (down, l) ← upstream.run l
  .ok (up ++ down, l)

def requestLoop : Drain (Link σ κ Http) Panic MitmEvent :=
  readLoop Link.server (fun l server => { l with server }) httpRequest <| by
    intro l session raw c l' h
    obtain ⟨-, rfl⟩ := by simpa [httpRequest] using h
    rfl

def responseLoop (p : Profile) : Drain (Link σ κ Http) Panic MitmEvent :=
  readLoop Link.client (fun l client => { l with client }) (httpResponse p) <| by
    intro l session raw c l' h
    unfold httpResponse at h
    cases hf : l.layer.rewriter.feedResponse p raw with
    | error e => simp [hf, Except.map] at h
    | ok r =>
      obtain ⟨-, rfl⟩ := by simpa [hf, Except.map] using h
      rfl

def queryLoop {H : Hpack} (p : Profile) (isBlocked : Str → Bool) :
    Drain (Link σ κ (DnsStream H)) Panic MitmEvent :=
  readLoop Link.server (fun l server => { l with server }) (dnsQuery p isBlocked) <| by
    intro l session raw c l' h
    unfold dnsQuery at h
    cases hf : l.layer.onAppData p isBlocked raw with
    | error e => simp [hf, Except.map] at h
    | ok r =>
      obtain ⟨-, rfl⟩ := by simpa [hf, Except.map] using h
      dsimp only
      split_ifs
      · rfl
      · exact TlsSession.readable_writeAll _ _

def answerLoop {H : Hpack} : Drain (Link σ κ (DnsStream H)) Panic MitmEvent :=
  readLoop Link.client (fun l client => { l with client }) dnsAnswer <| by
    intro l session raw c l' h
    obtain ⟨-, rfl⟩ := by simpa [dnsAnswer] using h
    rfl

end Crossing

def Plaintext.setHost {H : Hpack} (t : Plaintext H) (host : Str) : Plaintext H :=
  match t with
  | .http h => .http { h with tap := h.tap.setHost host }
  | .dns _ => t

namespace TlsMitm

variable {σ κ : Type} {H : Hpack} [ServerSession σ] [TlsSession κ]

def withPlaintext (server : σ) (clientConfig : ClientConfig κ) (plaintext : Plaintext H) :
    TlsMitm σ κ H :=
  { server, clientConfig, plaintext }

def new (server : σ) (clientConfig : ClientConfig κ) : TlsMitm σ κ H :=
  withPlaintext server clientConfig (.http {})

def newDns (server : σ) (clientConfig : ClientConfig κ) (kind : DnsKind) : TlsMitm σ κ H :=
  withPlaintext server clientConfig (.dns (.new H kind))

def isDns (m : TlsMitm σ κ H) : Bool :=
  match m.plaintext with
  | .dns _ => true
  | .http _ => false

def takeDnsBlocked (m : TlsMitm σ κ H) : List Str × TlsMitm σ κ H :=
  match m.plaintext with
  | .dns dns => (dns.takeBlocked.1, { m with plaintext := .dns dns.takeBlocked.2 })
  | .http _ => ([], m)

def setCosmetic (m : TlsMitm σ κ H) (css js : Str) : TlsMitm σ κ H :=
  match m.plaintext with
  | .http http =>
    { m with plaintext := .http { http with rewriter := http.rewriter.setCosmetic css js } }
  | .dns _ => m

def takeTransactions (m : TlsMitm σ κ H) : List HttpTransaction × TlsMitm σ κ H :=
  match m.plaintext with
  | .http http =>
    (http.tap.takeTransactions.1,
      { m with plaintext := .http { http with tap := http.tap.takeTransactions.2 } })
  | .dns _ => ([], m)

/-- The capture is complete when the flow is torn down. -/
def finish (m : TlsMitm σ κ H) : TlsMitm σ κ H :=
  match m.plaintext with
  | .http http => { m with plaintext := .http { http with tap := http.tap.finish } }
  | .dns _ => m

/-- Latches the first failure. An app that fails while the server session is in its handshake has
refused the minted leaf. -/
def markFailed (m : TlsMitm σ κ H) (side : FailSide) : TlsMitm σ κ H :=
  if m.failed then m
  else { m with
    failed := true
    certRejected := side == .app && TlsSession.isHandshaking m.server }

def recvFromApp (m : TlsMitm σ κ H) (data : Bytes) : TlsMitm σ κ H :=
  let i := intake m.server data
  let m := { m with server := i.session }
  if i.failed then m.markFailed .app else m

def recvFromUpstream (m : TlsMitm σ κ H) (data : Bytes) : TlsMitm σ κ H :=
  match m.client with
  | none => m
  | some client =>
    let i := intake client data
    let m := { m with client := some i.session }
    if i.failed then m.markFailed .upstream else m

/-- Decrypts what the app has sent. An error is the splice after its failure. -/
def processServer (m : TlsMitm σ κ H) : Except (TlsMitm σ κ H) (TlsMitm σ κ H) :=
  match TlsSession.processNewPackets m.server with
  | (some closed, server) => .ok { m with server, appClosed := m.appClosed || closed }
  | (none, server) => .error ({ m with server }.markFailed .app)

/-- Stands the upstream session up once the app has named its host. -/
def openClient (m : TlsMitm σ κ H) : Except (TlsMitm σ κ H) (TlsMitm σ κ H) :=
  match m.client, ServerSession.serverName m.server with
  | none, some name =>
    let m := { m with host := some name, plaintext := m.plaintext.setHost name }
    if m.clientConfig.isServerName name then
      match m.clientConfig.connect name with
      | some client => .ok { m with client := some client }
      | none => .error (m.markFailed .other)
    else .error (m.markFailed .other)
  | _, _ => .ok m

/-- Decrypts what the upstream has sent. -/
def processClient (m : TlsMitm σ κ H) : Except (TlsMitm σ κ H) (TlsMitm σ κ H) :=
  match m.client with
  | none => .ok m
  | some client =>
    match TlsSession.processNewPackets client with
    | (some closed, client) =>
      .ok { m with client := some client, upstreamClosed := m.upstreamClosed || closed }
    | (none, client) => .error ({ m with client := some client }.markFailed .upstream)

/-- The part of a pump that decrypts. -/
def advance (m : TlsMitm σ κ H) : Except (TlsMitm σ κ H) (TlsMitm σ κ H) :=
  (m.processServer.bind openClient).bind processClient

def crossPlaintext (p : Profile) (dnsFilter : Option (Str → Bool)) (m : TlsMitm σ κ H) :
    Except Panic (List MitmEvent × TlsMitm σ κ H) :=
  match m.client with
  | none => .ok ([], m)
  | some client =>
    match m.plaintext with
    | .http http =>
      (crossLink requestLoop (responseLoop p) { server := m.server, client, layer := http }).map
        fun r => (r.1,
          { m with server := r.2.server, client := some r.2.client, plaintext := .http r.2.layer })
    | .dns dns =>
      -- Without a filter, every query goes through.
      let isBlocked := dnsFilter.getD fun _ => false
      (crossLink (queryLoop p isBlocked) answerLoop { server := m.server, client, layer := dns }).map
        fun r => (r.1,
          { m with server := r.2.server, client := some r.2.client, plaintext := .dns r.2.layer })

/-- Clean closes go across the splice. -/
def propagateClose (m : TlsMitm σ κ H) : TlsMitm σ κ H :=
  { m with
    client := if m.appClosed then m.client.map TlsSession.sendCloseNotify else m.client
    server := if m.upstreamClosed then TlsSession.sendCloseNotify m.server else m.server }

/-- The TLS bytes for both peers. -/
def collect (m : TlsMitm σ κ H) : Except (TlsMitm σ κ H) (MitmIo × TlsMitm σ κ H) :=
  let o := outflow m.server
  let m := { m with server := o.session }
  if o.failed then .error (m.markFailed .other)
  else match m.client with
    | none => .ok ({ toApp := o.out }, m)
    | some client =>
      let u := outflow client
      let m := { m with client := some u.session }
      if u.failed then .error (m.markFailed .other)
      else .ok ({ toApp := o.out, toUpstream := u.out }, m)

/-- What `fail` returns. -/
def failedPump (events : List MitmEvent) (m : TlsMitm σ κ H) : Pumped σ κ H :=
  { io := { closed := true }, events, mitm := m }

def pumpImpl (p : Profile) (dnsFilter : Option (Str → Bool)) (m : TlsMitm σ κ H) :
    Except Panic (Pumped σ κ H) :=
  if m.failed then .ok (failedPump [] m)
  else match m.advance with
    | .error m => .ok (failedPump [] m)
    | .ok m =>
      (m.crossPlaintext p dnsFilter).map fun r =>
        match r.2.propagateClose.collect with
        | .error m => failedPump r.1 m
        | .ok (io, m) =>
          let closed := m.failed || (m.appClosed && m.upstreamClosed)
          { io := { io with closed }
            events := if closed then r.1 ++ [.finished] else r.1
            mitm := if closed then m.finish else m }

def pump (p : Profile) (m : TlsMitm σ κ H) : Except Panic (Pumped σ κ H) := m.pumpImpl p none

def pumpDns (p : Profile) (isBlocked : Str → Bool) (m : TlsMitm σ κ H) :
    Except Panic (Pumped σ κ H) := m.pumpImpl p (some isBlocked)

end TlsMitm

end Adwarden.Tls
