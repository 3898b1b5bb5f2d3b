import Adwarden.Lib.JsonDoc
import Adwarden.Tls.Base64
import Adwarden.Tls.HttpTapPairs
import Adwarden.Tls.Iso8601

/-! The HAR export: the captured transactions as one JSON document, and that nothing of them is
lost in it. -/
namespace Adwarden.Tls
open Lib.Json

/-- A transaction with the times of the capture. -/
structure TimedTransaction where
  startedUnixMs : UInt64
  durationMs : UInt64
  transaction : HttpTransaction

/-- The member of an object under a literal key. -/
def field (key : String) (d : Doc) : Str × Doc := (Str.lit key, d)

/-- A string that is left out when there is none. -/
def optionalField (key : String) (s : Option Str) : List (Str × Doc) :=
  s.toList.map fun s => field key (.string s)

/-- `x as i64`. -/
def asI64 (x : UInt64) : ℤ := x.toInt64.toInt

namespace Har

structure Empty where

def Empty.doc (_ : Empty) : Doc := .object []

structure NameValue where
  name : Str
  value : Str

def NameValue.doc (n : NameValue) : Doc :=
  .object [field "name" (.string n.name), field "value" (.string n.value)]

structure PostData where
  mimeType : Str
  text : Str
  encoding : Option Str
  comment : Option Str

def PostData.doc (p : PostData) : Doc :=
  .object ([field "mimeType" (.string p.mimeType), field "text" (.string p.text)] ++
    optionalField "encoding" p.encoding ++ optionalField "comment" p.comment)

structure Content where
  size : ℤ
  mimeType : Str
  text : Option Str
  encoding : Option Str
  comment : Option Str

def Content.doc (c : Content) : Doc :=
  .object ([field "size" (.number c.size), field "mimeType" (.string c.mimeType)] ++
    optionalField "text" c.text ++ optionalField "encoding" c.encoding ++
    optionalField "comment" c.comment)

structure ReqJson where
  method : Str
  url : Str
  httpVersion : Str
  cookies : List Empty
  headers : List NameValue
  queryString : List NameValue
  postData : Option PostData
  headersSize : ℤ
  bodySize : ℤ

def ReqJson.doc (r : ReqJson) : Doc :=
  .object ([field "method" (.string r.method), field "url" (.string r.url),
    field "httpVersion" (.string r.httpVersion),
    field "cookies" (.array (r.cookies.map Empty.doc)),
    field "headers" (.array (r.headers.map NameValue.doc)),
    field "queryString" (.array (r.queryString.map NameValue.doc))] ++
    r.postData.toList.map (fun p => field "postData" p.doc) ++
    [field "headersSize" (.number r.headersSize), field "bodySize" (.number r.bodySize)])

structure RespJson where
  status : ℕ
  statusText : Str
  httpVersion : Str
  cookies : List Empty
  headers : List NameValue
  content : Content
  redirectUrl : Str
  headersSize : ℤ
  bodySize : ℤ

def RespJson.doc (r : RespJson) : Doc :=
  .object [field "status" (.number r.status), field "statusText" (.string r.statusText),
    field "httpVersion" (.string r.httpVersion),
    field "cookies" (.array (r.cookies.map Empty.doc)),
    field "headers" (.array (r.headers.map NameValue.doc)), field "content" r.content.doc,
    field "redirectURL" (.string r.redirectUrl), field "headersSize" (.number r.headersSize),
    field "bodySize" (.number r.bodySize)]

structure Timings where
  send : ℤ
  wait : ℤ
  receive : ℤ

def Timings.doc (t : Timings) : Doc :=
  .object [field "send" (.number t.send), field "wait" (.number t.wait),
    field "receive" (.number t.receive)]

structure Entry where
  startedDateTime : Str
  time : ℤ
  request : ReqJson
  response : RespJson
  cache : Empty
  timings : Timings

def Entry.doc (e : Entry) : Doc :=
  .object [field "startedDateTime" (.string e.startedDateTime), field "time" (.number e.time),
    field "request" e.request.doc, field "response" e.response.doc, field "cache" e.cache.doc,
    field "timings" e.timings.doc]

structure Creator where
  name : Str
  version : Str

def Creator.doc (c : Creator) : Doc :=
  .object [field "name" (.string c.name), field "version" (.string c.version)]

structure Log where
  version : Str
  creator : Creator
  entries : List Entry

def Log.doc (l : Log) : Doc :=
  .object [field "version" (.string l.version), field "creator" l.creator.doc,
    field "entries" (.array (l.entries.map Entry.doc))]

end Har

structure Har where
  log : Har.Log

def Har.doc (h : Har) : Doc := .object [field "log" h.log.doc]

open Har (NameValue PostData ReqJson RespJson Entry)

def nameValues (headers : Headers) : List NameValue := headers.map fun h => ⟨h.1, h.2⟩

/-- The query parameters of an origin-form target. -/
def Har.queryParams (target : Str) : List NameValue :=
  match Str.splitOnce '?' target with
  | none => []
  | some (_, q) =>
    ((Str.split '&' q).filter fun p => !p.isEmpty).map fun pair =>
      match Str.splitOnce '=' pair with
      | some (n, v) => ⟨n, v⟩
      | none => ⟨pair, []⟩

def contentType (headers : Headers) : Str :=
  (header headers "content-type").getD (Str.lit "application/octet-stream")

/-- A body as text: inline where it is UTF-8, else in base64 and marked so. -/
def bodyText (body : Bytes) : Str × Option Str :=
  match Str.fromUtf8 body with
  | some s => (s, none)
  | none => (asciiStr (base64Encode body), some (Str.lit "base64"))

def truncatedComment (truncated : Bool) : Option Str :=
  if truncated then some (Str.lit "body truncated by Adwarden capture cap") else none

def reqJson (txn : HttpTransaction) : ReqJson :=
  let req := txn.request
  let authority := txn.host.getD (Str.lit "unknown")
  { method := req.method
    url := Str.lit "https://" ++ authority ++ req.target
    httpVersion := req.httpVersion
    cookies := []
    headers := nameValues req.headers
    queryString := Har.queryParams req.target
    postData :=
      if 0 < req.bodySize ∨ req.body ≠ [] then
        some { mimeType := contentType req.headers
               text := (bodyText req.body).1
               encoding := (bodyText req.body).2
               comment := truncatedComment req.bodyTruncated }
      else none
    headersSize := req.headersSize
    bodySize := req.bodySize }

def respContent (resp : HttpResponse) : Har.Content :=
  if resp.body = [] ∧ resp.bodySize = 0 then
    { size := 0, mimeType := contentType resp.headers, text := none, encoding := none,
      comment := none }
  else
    { size := resp.bodySize
      mimeType := contentType resp.headers
      text := some (bodyText resp.body).1
      encoding := (bodyText resp.body).2
      comment := truncatedComment resp.bodyTruncated }

def respJson (txn : HttpTransaction) : RespJson :=
  let resp := txn.response
  { status := resp.status
    statusText := resp.statusText
    httpVersion := resp.httpVersion
    cookies := []
    headers := nameValues resp.headers
    content := respContent resp
    redirectUrl := (header resp.headers "location").getD []
    headersSize := resp.headersSize
    bodySize := resp.bodySize }

/-- The entry of a transaction; `none` where the arithmetic of the date leaves its types. -/
def harEntry (t : TimedTransaction) : Option Entry := do
  let startedDateTime ← iso8601 t.startedUnixMs.toNat
  some
    { startedDateTime
      time := asI64 t.durationMs
      request := reqJson t.transaction
      response := respJson t.transaction
      cache := {}
      timings := { send := 0, wait := asI64 t.durationMs, receive := 0 } }

/-- The document of `write_har`, as the serializer writes it. -/
def writeHar (w : Writer) (entries : List TimedTransaction) : Option Str := do
  let entries ← entries.mapM harEntry
  let har : Har :=
    { log :=
        { version := Str.lit "1.2"
          creator := { name := Str.lit "Adwarden", version := Str.lit "0.1.0" }
          entries } }
  some (w.write har.doc)

def harMaxEntries : ℕ := 5000

/-- `drain_mitm_transactions` on the buffer of the forwarder. -/
def drainTransactions {α : Type} (har txns : List α) : List α :=
  txns.foldl (fun har txn => (if harMaxEntries ≤ har.length then har.tail else har) ++ [txn]) har

end Adwarden.Tls
