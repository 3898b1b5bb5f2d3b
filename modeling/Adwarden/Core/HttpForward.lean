import Adwarden.Rust.Str

/-! Absolute-URI forwarding of plaintext HTTP through a proxy: the request lines of the app's
byte stream are rewritten, everything else is passed on. -/
namespace Adwarden.Core

def maxHead : ℕ := 64 * 1024

inductive HttpForwardError where
  | headTooLarge
  | badRequestLine
  | chunkedBodyUnsupported
deriving DecidableEq

/-- Accumulating a request head, or passing on a body of which some bytes remain. -/
inductive ForwardState where
  | head
  | body (remaining : ℕ)
deriving DecidableEq

structure HttpForward where
  fallbackAuthority : Str
  state : ForwardState
  head : Bytes
deriving DecidableEq

namespace HttpForward

def new (fallbackAuthority : Str) : HttpForward where
  fallbackAuthority := fallbackAuthority
  state := .head
  head := []

def parseRequestLine (line : Bytes) : Except HttpForwardError (Str × Str × Str) :=
  match Str.fromUtf8 line with
  | none => .error .badRequestLine
  | some text =>
    let parts := Str.splitn ' ' 3 text
    let method := parts.getD 0 []
    let target := parts.getD 1 []
    let version := parts.getD 2 []
    if method.isEmpty || target.isEmpty || !version.startsWith (Str.lit "HTTP/") then
      .error .badRequestLine
    else .ok (method, target, version)

def splitHeader (line : Bytes) : Option (Str × Str) := do
  let text ← Str.fromUtf8 line
  let (name, value) ← Str.splitOnce ':' text
  some (name.trimEnd, value.trimStart)

/-- The CRLF-delimited lines of `data`; the first argument bounds their number. -/
def splitCrlf : ℕ → Bytes → List Bytes
  | 0, _ => []
  | _ + 1, [] => []
  | n + 1, data =>
    match findSubsequence CRLF data with
    | some pos => data.take pos :: splitCrlf n (data.drop (pos + 2))
    | none => [data]

/-- The header fields that matter. -/
structure Fields where
  host : Option Str
  contentLength : ℕ
  chunked : Bool

def scanField (f : Fields) (line : Bytes) : Fields :=
  match splitHeader line with
  | none => f
  | some (name, value) =>
    if name.eqIgnoreAsciiCase (Str.lit "host") then { f with host := some value }
    else if name.eqIgnoreAsciiCase (Str.lit "content-length") then
      { f with contentLength := (Str.fromStrRadix 64 10 value.trim).getD 0 }
    else if name.eqIgnoreAsciiCase (Str.lit "transfer-encoding") &&
        value.toAsciiLowercase.tails.any (Str.startsWith · (Str.lit "chunked")) then
      { f with chunked := true }
    else f

/-- Rewrite one request head: what is emitted for it, and the length of the body. -/
def rewriteHead (head : Bytes) (fallback : Str) : Except HttpForwardError (Bytes × ℕ) :=
  match findSubsequence CRLF head with
  | none => .error .badRequestLine
  | some firstCrlf =>
    let requestLine := head.take firstCrlf
    let rest := head.drop (firstCrlf + 2)
    match parseRequestLine requestLine with
    | .error e => .error e
    | .ok (method, target, version) =>
      let lines := (splitCrlf rest.length rest).takeWhile (!·.isEmpty)
      let fields := lines.foldl scanField ⟨none, 0, false⟩
      if fields.chunked then .error .chunkedBodyUnsupported
      else
        let line :=
          if target.startsWith ['/'] then
            let authority := ((fields.host.map Str.trim).filter (!·.isEmpty)).getD fallback
            Str.toBytes method ++ ascii " http://" ++ Str.toBytes authority ++
              Str.toBytes target ++ [32] ++ Str.toBytes version ++ CRLF
          else requestLine ++ CRLF
        .ok (line ++ rest, fields.contentLength)

/-- The loop of `push`, with the bytes emitted so far. Every turn takes a byte or completes the
buffered head, so twice the length of the input bounds their number. -/
def pushLoop : ℕ → HttpForward → (input out : Bytes) →
    Except HttpForwardError Bytes × HttpForward
  | 0, f, _, out => (.ok out, f)
  | n + 1, f, input, out =>
    if input = [] then (.ok out, f)
    else match f.state with
      | .head =>
        let prev := f.head.length
        let head := f.head ++ input
        match findSubsequence [CR, LF, CR, LF] head with
        | some pos =>
          let headEnd := pos + 4
          match rewriteHead (head.take headEnd) f.fallbackAuthority with
          | .error e => (.error e, { f with head := head })
          | .ok (bytes, bodyLen) =>
            let consumed := min (headEnd - prev) input.length
            let state := if 0 < bodyLen then ForwardState.body bodyLen else .head
            pushLoop n { f with head := [], state := state } (input.drop consumed) (out ++ bytes)
        | none =>
          if maxHead < head.length then (.error .headTooLarge, { f with head := head })
          else (.ok out, { f with head := head })
      | .body remaining =>
        let take := min remaining input.length
        let state := if remaining - take = 0 then ForwardState.head else .body (remaining - take)
        pushLoop n { f with state := state } (input.drop take) (out ++ input.take take)

/-- Transform a chunk of bytes from the app into the bytes for the proxy. -/
def push (f : HttpForward) (input : Bytes) : Except HttpForwardError Bytes × HttpForward :=
  pushLoop (2 * input.length + 1) f input []

end HttpForward

end Adwarden.Core
