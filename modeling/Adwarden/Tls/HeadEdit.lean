import Adwarden.Tls.Head

/-! Surgical, byte-preserving edits of request and response heads. -/
namespace Adwarden.Tls

/-- The fields of a head cut at each CRLF, with `cur` read of the first line. -/
def crlfLinesFrom (cur : Bytes) : Bytes → List Bytes
  | [] => if cur = [] then [] else [cur]
  | [b] => [cur ++ [b]]
  | b :: c :: rest =>
    if b = CR ∧ c = LF then cur :: crlfLinesFrom [] rest else crlfLinesFrom (cur ++ [b]) (c :: rest)

def crlfLines (fields : Bytes) : List Bytes := crlfLinesFrom [] fields

def lineName (line : Bytes) : Bytes :=
  match position 58 line with
  | some c => line.take c
  | none => line

def asciiTrim (s : Bytes) : Bytes :=
  ((s.dropWhile isAsciiWhitespace).reverse.dropWhile isAsciiWhitespace).reverse

def nameIs (line : Bytes) (target : String) : Bool :=
  eqIgnoreAsciiCase (asciiTrim (lineName line)) (ascii target)

def isContinuation (line : Bytes) : Bool := line.head? == some 32 || line.head? == some 9

def isCsp (line : Bytes) : Bool :=
  nameIs line "content-security-policy" || nameIs line "content-security-policy-report-only" ||
    nameIs line "x-content-security-policy"

def emitLine (line : Bytes) : Bytes := line ++ CRLF

/-- Edit the lines after the start line. A line that `edit` drops takes its continuations along. -/
def editLines (edit : Bytes → Option Bytes) : (droppedPrev : Bool) → List Bytes → Bytes
  | _, [] => []
  | dropped, line :: lines =>
    if isContinuation line then
      (if dropped then [] else emitLine line) ++ editLines edit dropped lines
    else match edit line with
      | none => editLines edit true lines
      | some text => text ++ editLines edit false lines

def editHead (edit : Bytes → Option Bytes) (rawHead : Bytes) : Bytes :=
  match crlfLines (rawHead.take (rawHead.length - 4)) with
  | [] => []
  | start :: lines => emitLine start ++ editLines edit false lines

/-- Rebuild a request head with `Accept-Encoding` forced to `identity`. -/
def editRequestHead (rawHead : Bytes) : Bytes :=
  editHead (fun line => if nameIs line "accept-encoding" then none else some (emitLine line))
    rawHead ++ ascii "Accept-Encoding: identity\r\n\r\n"

def editResponseLine (setCl : Option ℕ) (line : Bytes) : Option Bytes :=
  if isCsp line then none
  else match setCl with
    | some n =>
      if nameIs line "content-length" then
        some (lineName line ++ ascii ": " ++ Str.toBytes (Str.ofNat n) ++ CRLF)
      else some (emitLine line)
    | none => some (emitLine line)

/-- Rebuild a response head: drop the CSP fields and set `Content-Length` to `setCl`. -/
def editResponseHead (rawHead : Bytes) (setCl : Option ℕ) : Bytes :=
  editHead (editResponseLine setCl) rawHead ++ CRLF

/-- `data` as a single HTTP chunk; nothing for no data. -/
def rechunk (data : Bytes) : Bytes :=
  if data = [] then []
  else Str.toBytes (Str.ofNatHex data.length) ++ CRLF ++ data ++ CRLF

end Adwarden.Tls
