import Adwarden.Rust.Addr

/-! The upstream proxy: the handshakes that open a tunnel through an HTTP, HTTPS or SOCKS5 proxy,
as machines that are fed what the proxy sends. -/
namespace Adwarden.Core

/-- The protocol of a configured proxy. -/
inductive ProxyKind where
  | http
  | https
  | socks5
deriving DecidableEq

structure Proxy where
  kind : ProxyKind
  addr : SocketAddr
  /-- The name an HTTPS proxy must prove to be. -/
  serverName : Str
  username : Option Str
  password : Option Str
deriving DecidableEq

/-- Whether the transport to the proxy itself is TLS. -/
def Proxy.isTls (p : Proxy) : Bool := p.kind == .https

/-- Only SOCKS5 carries UDP. -/
def Proxy.supportsUdp (p : Proxy) : Bool := p.kind == .socks5

inductive ProxyError where
  | httpStatus (code : ℕ)
  | httpMalformed
  | headerTooLarge
  | socks5Version (version : UInt8)
  | socks5NoAcceptableAuth
  | socks5AuthFailed (status : UInt8)
  | socks5Reply (rep : UInt8)
  | socks5Malformed
deriving DecidableEq

/-- One turn of the handshake driver's loop. -/
inductive Step where
  | write (bytes : Bytes)
  | read
  | done (leftover : Bytes)
deriving DecidableEq

inductive Socks5Command where
  | connect
  | udpAssociate
deriving DecidableEq

def Socks5Command.code : Socks5Command → UInt8
  | .connect => 0x01
  | .udpAssociate => 0x03

/-- The last message sent. -/
inductive Socks5Phase where
  | start
  | greeted
  | authed
  | requested
deriving DecidableEq

inductive Machine where
  | http (sent : Bool)
  | socks5 (phase : Socks5Phase) (command : Socks5Command)
deriving DecidableEq

def handshakeBufCap : ℕ := 8 * 1024

structure Handshake where
  target : SocketAddr
  username : Option Str
  password : Option Str
  machine : Machine
  inbuf : Bytes
  /-- The address in a SOCKS reply. -/
  bound : Option SocketAddr
deriving DecidableEq

def portBytes (port : UInt16) : Bytes := [(port >>> 8).toUInt8, port.toUInt8]

def base64Table : Bytes := ascii "ABCDEFGHIJKLMNOPQRSTUVWXYZabcdefghijklmnopqrstuvwxyz0123456789+/"

def base64Char (i : UInt8) : UInt8 := base64Table.getD i.toNat 0

def base64Encode : Bytes → Bytes
  | [] => []
  | [b0] => [base64Char (b0 >>> 2), base64Char ((b0 &&& 0x03) <<< 4), 0x3D, 0x3D]
  | [b0, b1] =>
    [base64Char (b0 >>> 2), base64Char ((b0 &&& 0x03) <<< 4 ||| b1 >>> 4),
      base64Char ((b1 &&& 0x0F) <<< 2), 0x3D]
  | b0 :: b1 :: b2 :: rest =>
    base64Char (b0 >>> 2) :: base64Char ((b0 &&& 0x03) <<< 4 ||| b1 >>> 4) ::
      base64Char ((b1 &&& 0x0F) <<< 2 ||| b2 >>> 6) :: base64Char (b2 &&& 0x3F) ::
      base64Encode rest

def socks5Greeting (withAuth : Bool) : Bytes :=
  if withAuth then [0x05, 0x02, 0x00, 0x02] else [0x05, 0x01, 0x00]

/-- Field lengths are single bytes, so longer credentials are cut. -/
def socks5Userpass (user pass : Str) : Bytes :=
  let ub := (Str.toBytes user).take 255
  let pb := (Str.toBytes pass).take 255
  [0x01, UInt8.ofNat ub.length] ++ ub ++ [UInt8.ofNat pb.length] ++ pb

def socksAddr (addr : SocketAddr) : Bytes :=
  (match addr.ip with
    | .v4 octets => 0x01 :: octets.toList
    | .v6 octets => 0x04 :: octets.toList) ++ portBytes addr.port

def socks5Request (command : Socks5Command) (target : SocketAddr) : Bytes :=
  [0x05, command.code, 0x00] ++ socksAddr target

/-- The length of the reply at the front of `buf`, `none` when more bytes are needed. -/
def socks5ReplyLen (buf : Bytes) : Except ProxyError (Option ℕ) :=
  if buf.length < 4 then .ok none
  else
    let total (addrLen : ℕ) : Option ℕ :=
      if buf.length < 4 + addrLen + 2 then none else some (4 + addrLen + 2)
    if buf[3]? = some 0x01 then .ok (total 4)
    else if buf[3]? = some 0x04 then .ok (total 16)
    else if buf[3]? = some 0x03 then
      match buf[4]? with
      | none => .ok none
      | some len => .ok (total (1 + len.toNat))
    else .error .socks5Malformed

def portAt (b : Bytes) (o : ℕ) : UInt16 :=
  (b.getD o 0).toUInt16 <<< 8 ||| (b.getD (o + 1) 0).toUInt16

def vectorAt (n : ℕ) (b : Bytes) (o : ℕ) : List.Vector UInt8 n :=
  .ofFn fun i => b.getD (o + i) 0

def parseSocks5Bound (reply : Bytes) : Option SocketAddr :=
  match reply[3]? with
  | none => none
  | some atyp =>
    if atyp = 0x01 then some ⟨.v4 (vectorAt 4 reply 4), portAt reply 8⟩
    else if atyp = 0x04 then some ⟨.v6 (vectorAt 16 reply 4), portAt reply 20⟩
    else none

def socks5UdpEncapsulate (target : SocketAddr) (payload : Bytes) : Bytes :=
  [0x00, 0x00, 0x00] ++ socksAddr target ++ payload

def socks5UdpDecapsulate (dgram : Bytes) : Option (SocketAddr × Bytes) :=
  if dgram.length < 4 ∨ dgram[2]? ≠ some 0x00 then none
  else if dgram[3]? = some 0x01 then
    if dgram.length < 10 then none
    else some (⟨.v4 (vectorAt 4 dgram 4), portAt dgram 8⟩, dgram.drop 10)
  else if dgram[3]? = some 0x04 then
    if dgram.length < 22 then none
    else some (⟨.v6 (vectorAt 16 dgram 4), portAt dgram 20⟩, dgram.drop 22)
  else none

def findHeadersEnd (buf : Bytes) : Option ℕ := (findSubsequence [CR, LF, CR, LF] buf).map (· + 4)

namespace Handshake

/-- A tunnel toward `target`. Over HTTPS the machine is the one of HTTP. -/
def connect (proxy : Proxy) (target : SocketAddr) : Handshake where
  target := target
  username := proxy.username
  password := proxy.password
  machine := match proxy.kind with
    | .socks5 => .socks5 .start .connect
    | _ => .http false
  inbuf := []
  bound := none

def udpAssociate (proxy : Proxy) : Handshake where
  target := ⟨.ofOctets 0 0 0 0, 0⟩
  username := proxy.username
  password := proxy.password
  machine := .socks5 .start .udpAssociate
  inbuf := []
  bound := none

def buildHttpConnect (h : Handshake) : Bytes :=
  let authority := Str.toBytes h.target.display
  ascii "CONNECT " ++ authority ++ ascii " HTTP/1.1\r\nHost: " ++ authority ++ CRLF ++
    (match h.username with
      | none => []
      | some user =>
        let pass := h.password.getD []
        ascii "Proxy-Authorization: Basic " ++ base64Encode (Str.toBytes (user ++ [':'] ++ pass)) ++
          CRLF) ++
    ascii "Proxy-Connection: keep-alive\r\n\r\n"

def parseHttpReply (buf : Bytes) : Except ProxyError Step :=
  match findHeadersEnd buf with
  | none => .ok .read
  | some stop =>
    let line := buf.take ((position CR buf).getD stop)
    match splitOn 32 line with
    | _ :: code :: _ =>
      match (Str.fromUtf8 code).bind Str.parseU16 with
      | none => .error .httpMalformed
      | some code =>
        if 200 ≤ code ∧ code < 300 then .ok (.done (buf.drop stop))
        else .error (.httpStatus code)
    | _ => .error .httpMalformed

/-- What a step of the SOCKS5 machine answers, and the handshake after it. -/
def socks5Step (h : Handshake) (phase : Socks5Phase) (command : Socks5Command) :
    Except ProxyError Step × Handshake :=
  let enter (phase : Socks5Phase) (inbuf : Bytes) : Handshake :=
    { h with machine := .socks5 phase command, inbuf := inbuf }
  match phase with
  | .start => (.ok (.write (socks5Greeting h.username.isSome)), enter .greeted h.inbuf)
  | .greeted =>
    match h.inbuf with
    | version :: method :: rest =>
      if version ≠ 0x05 then (.error (.socks5Version version), h)
      else if method = 0x00 then
        (.ok (.write (socks5Request command h.target)), enter .requested rest)
      else match method, h.username with
        | 0x02, some user =>
          (.ok (.write (socks5Userpass user (h.password.getD []))), enter .authed rest)
        | _, _ => (.error .socks5NoAcceptableAuth, enter .greeted rest)
    | _ => (.ok .read, h)
  | .authed =>
    match h.inbuf with
    | _ :: status :: rest =>
      if status ≠ 0 then (.error (.socks5AuthFailed status), enter .authed rest)
      else (.ok (.write (socks5Request command h.target)), enter .requested rest)
    | _ => (.ok .read, h)
  | .requested =>
    match socks5ReplyLen h.inbuf with
    | .error e => (.error e, h)
    | .ok none => (.ok .read, h)
    | .ok (some replyLen) =>
      let version := h.inbuf.getD 0 0
      let rep := h.inbuf.getD 1 0
      if version ≠ 0x05 then (.error (.socks5Version version), h)
      else if rep ≠ 0x00 then (.error (.socks5Reply rep), h)
      else
        (.ok (.done (h.inbuf.drop replyLen)),
          { h with
            inbuf := h.inbuf.take replyLen
            bound := parseSocks5Bound (h.inbuf.take replyLen) })

/-- Advance the handshake with newly received bytes. -/
def step (h : Handshake) (input : Bytes) : Except ProxyError Step × Handshake :=
  let h := { h with inbuf := h.inbuf ++ input }
  if handshakeBufCap < h.inbuf.length then (.error .headerTooLarge, h)
  else match h.machine with
    | .http false => (.ok (.write h.buildHttpConnect), { h with machine := .http true })
    | .http true => (parseHttpReply h.inbuf, h)
    | .socks5 phase command => socks5Step h phase command

end Handshake

end Adwarden.Core
