import Adwarden.Tls.DnsStream
import Adwarden.Tls.RequestText

/-! HTTP/2 requests re-originated as HTTP/1.1: exactly when one request is sent for one stream. -/
namespace Adwarden.Tls

/-- A `Content-Length`, as the builders write it. -/
def lengthText (n : ℕ) : Bytes := ascii "Content-Length" ++ 58 :: 32 :: Str.toBytes (Str.ofNat n)

private def lengthField (n : ℕ) : Str × Str := (asciiStr (ascii "Content-Length"), Str.ofNat n)

theorem lf_not_mem_lengthText (n : ℕ) : LF ∉ lengthText n := by
  have hd := Str.toDigits_isDigits (by omega : 1 < 10) (by omega) n
  have hlf : LF ∉ Str.toBytes (Str.ofNat n) := by
    rw [Str.lf_mem_toBytes]
    intro h
    obtain ⟨d, hv, -⟩ := hd.digits _ h
    simp [Str.digitVal] at hv
  have hlit : LF ∉ ascii "Content-Length" ++ [58, 32] := by decide
  simpa [lengthText, hlf] using hlit

theorem passable_lengthText (n : ℕ) : Passable (lengthText n) := by
  have hhead : lengthText n = 67 :: (lengthText n).tail := rfl
  have hlf := lf_not_mem_lengthText n
  rw [hhead] at hlf ⊢
  exact Passable.of_not_mem (by decide) hlf

set_option maxRecDepth 4000 in
private theorem lineFields_lengthText (n : ℕ) :
    lineFields (textLines (lengthText n)) = some [lengthField n] := by
  have hd := Str.toDigits_isDigits (by omega : 1 < 10) (by omega) n
  have hblank : Str.fromUtf8Lossy (32 :: Str.toBytes (Str.ofNat n)) = ' ' :: Str.ofNat n :=
    Str.fromUtf8Lossy_toBytes (' ' :: Str.ofNat n)
  rw [textLines_of_not_mem (lf_not_mem_lengthText n), lengthText, lineFields_singleton,
    headerField_named (by decide) (by decide), hblank, Str.trim_cons_blank (by decide)]
  rw [lengthField, Str.ofNat, hd.trim]

section Builders

variable (authority path accept : Str) (wire : Bytes)

/-- What `post_wire` sends as its target. -/
def postTarget (path : Str) : Str :=
  let path := ((Str.splitOnce '?' path).map (·.1)).getD path
  if path = [] then Str.lit "/dns-query" else path

private theorem versionHost_bytes : Str.toBytes (Str.lit " HTTP/1.1\r\nHost: ") =
    Str.toBytes (' ' :: Str.lit "HTTP/1.1") ++ (CRLF ++ (ascii "Host" ++ [58, 32])) := by
  decide

private theorem keepAlive_bytes : Str.toBytes (Str.lit "\r\nConnection: keep-alive\r\n\r\n") =
    CRLF ++ (ascii "Connection: keep-alive" ++ (CRLF ++ CRLF)) := by decide

private theorem contentLength_bytes : Str.toBytes (Str.lit "\r\nContent-Length: ") =
    CRLF ++ (ascii "Content-Length" ++ [58, 32]) := by decide

theorem postWire_eq : postWire authority path wire =
    headBytes (requestTexts (Str.lit "POST") (postTarget path) authority
      [ascii "Accept: application/dns-message", ascii "Content-Type: application/dns-message",
        lengthText wire.length]) ++ wire := by
  have hpost : Str.lit "POST " = Str.lit "POST" ++ [' '] := by decide
  have hfields : Str.toBytes (Str.lit
      "\r\nAccept: application/dns-message\r\nContent-Type: application/dns-message") =
      CRLF ++ (ascii "Accept: application/dns-message" ++
        (CRLF ++ ascii "Content-Type: application/dns-message")) := by decide
  simp only [postWire, headBytes, requestTexts, lengthText, hpost, Str.toBytes_append, hfields,
    versionHost_bytes, keepAlive_bytes, contentLength_bytes, List.flatMap_cons, List.flatMap_nil,
    List.cons_append, List.nil_append, List.append_assoc, Str.toBytes_cons, List.append_nil,
    postTarget]

theorem getPath_eq : getPath authority path accept =
    headBytes (requestTexts (Str.lit "GET") (if path = [] then Str.lit "/dns-query" else path)
      authority [ascii "Accept: " ++ Str.toBytes accept]) := by
  have hget : Str.lit "GET " = Str.lit "GET" ++ [' '] := by decide
  have haccept : Str.toBytes (Str.lit "\r\nAccept: ") = CRLF ++ ascii "Accept: " := by
    decide
  simp only [getPath, headBytes, requestTexts, hget, Str.toBytes_append, haccept,
    versionHost_bytes, keepAlive_bytes, List.flatMap_cons, List.flatMap_nil,
    List.cons_append, List.nil_append, List.append_assoc, Str.toBytes_cons, List.append_nil]

end Builders

theorem methodText_post : MethodText (Str.lit "POST") where
  nonempty := by decide
  space := by decide
  lf := by decide
  start := ⟨80, ascii "OST", by decide, by decide⟩

theorem methodText_get : MethodText (Str.lit "GET") where
  nonempty := by decide
  space := by decide
  lf := by decide
  start := ⟨71, ascii "ET", by decide, by decide⟩

/-- The target an HTTP/2 request asks for, without the query that a wire query moves to the
body. -/
def H2Request.target (req : H2Request) : Str :=
  match extractQuery req.method req.path req.contentType req.body with
  | .wire _ => ((Str.splitOnce '?' req.path).map (·.1)).getD req.path
  | _ => req.path

/-- The DNS query that the forwarded request carries as its body. -/
def H2Request.query (req : H2Request) : Bytes :=
  match extractQuery req.method req.path req.contentType req.body with
  | .wire wire => wire
  | _ => []

/-- A `POST` in which no query was found: it is forwarded with its own content type. -/
def H2Request.UnclassifiedPost (req : H2Request) : Prop :=
  req.method.eqIgnoreAsciiCase (Str.lit "POST") = true ∧
    extractQuery req.method req.path req.contentType req.body = .unknown

def H2Request.contentTypeText (req : H2Request) : Bytes :=
  ascii "Content-Type: " ++ Str.toBytes
    (if req.contentType = [] then Str.lit "application/dns-message" else req.contentType)

/-- The strings of a request can stand in an HTTP/1.1 head: the target and the authority cannot be
taken for anything else, and the content type neither ends the head nor declares a body. -/
structure Expressible (authority : Str) (req : H2Request) : Prop where
  target : ' ' ∉ req.target ∧ '\n' ∉ req.target
  path : req.UnclassifiedPost ∨ req.target ≠ []
  authority : '\n' ∉ authority ∧ Str.trim authority = authority
  contentType : req.UnclassifiedPost → MiddleCarries [req.contentTypeText] 0

theorem reconstruct_post {authority : Str} {req : H2Request}
    (h : req.method.eqIgnoreAsciiCase (Str.lit "POST") = true) :
    reconstruct authority req =
      headBytes (requestTexts (Str.lit "POST") req.path authority
        [req.contentTypeText, lengthText req.body.length]) ++ req.body := by
  have hpost : Str.lit "POST " = Str.lit "POST" ++ [' '] := by decide
  have htype : Str.toBytes (Str.lit "\r\nContent-Type: ") = CRLF ++ ascii "Content-Type: " := by
    decide
  simp only [reconstruct, h, if_true, headBytes, requestTexts, lengthText, hpost, htype,
    Str.toBytes_append, versionHost_bytes, keepAlive_bytes, contentLength_bytes, List.flatMap_cons,
    List.flatMap_nil, List.cons_append, List.nil_append, List.append_assoc, Str.toBytes_cons,
    List.append_nil, H2Request.contentTypeText]

private theorem header_lengthField (n : ℕ) (hs : Headers) :
    header (hs ++ [lengthField n]) "transfer-encoding" = header hs "transfer-encoding" ∧
      header (hs ++ [lengthField n]) "content-length" =
        (header hs "content-length").or (some (Str.ofNat n)) := by
  have hte : (lengthField n).1.eqIgnoreAsciiCase (Str.lit "transfer-encoding") = false := by
    simp only [lengthField]
    decide
  have hcl : (lengthField n).1.eqIgnoreAsciiCase (Str.lit "content-length") = true := by
    simp only [lengthField]
    decide
  constructor
  · rw [header_append, header, header, List.find?_cons_of_neg (by simp [hte])]
    simp
  · have hown : header [lengthField n] "content-length" = some (Str.ofNat n) := by
      rw [header, List.find?_cons_of_pos (by exact hcl)]
      rfl
    rw [header_append, hown]

/-- The length the builders declare, after fields that declare nothing. -/
private theorem bodyLength_lengthField {n : ℕ} (hn : n < usizeSize) {hs : Headers}
    (hte : header hs "transfer-encoding" = none) (hcl : header hs "content-length" = none) :
    bodyLength (hs ++ [lengthField n]) = some n := by
  have hchunked : isChunked (hs ++ [lengthField n]) = false := by
    rw [isChunked, (header_lengthField n hs).1, hte]
  have hlength : contentLength (hs ++ [lengthField n]) = some n := by
    rw [contentLength, (header_lengthField n hs).2, hcl]
    exact Str.parseUsize_ofNat hn
  rw [bodyLength, requestFraming, hchunked, hlength]
  cases n <;> rfl

/-- A `Content-Length: 0` that comes last changes nothing. -/
private theorem bodyLength_lengthField_zero (hs : Headers) :
    bodyLength (hs ++ [lengthField 0]) = bodyLength hs := by
  have hchunked : isChunked (hs ++ [lengthField 0]) = isChunked hs := by
    rw [isChunked, (header_lengthField 0 hs).1, isChunked]
  rw [bodyLength, bodyLength, requestFraming, requestFraming, hchunked, contentLength,
    contentLength, (header_lengthField 0 hs).2]
  cases header hs "content-length" with
  | none =>
    have hzero : Str.parseUsize (Str.trim (Str.ofNat 0)) = some 0 := by decide
    simp [hzero]
  | some v => rfl

theorem middleCarries_length_zero (t : Bytes) :
    MiddleCarries [t, lengthText 0] 0 ↔ MiddleCarries [t] 0 := by
  have hfields : lineFields ([t, lengthText 0].flatMap textLines) =
      (lineFields ([t].flatMap textLines)).map (· ++ [lengthField 0]) := by
    simp only [List.flatMap_cons, List.flatMap_nil, List.append_nil]
    rw [lineFields_append, lineFields_lengthText]
    cases lineFields (textLines t) <;> rfl
  constructor
  · rintro ⟨hin, hs, hhs, hn⟩
    rw [hfields] at hhs
    obtain ⟨hs', hhs', rfl⟩ := Option.map_eq_some_iff.mp hhs
    rw [bodyLength_lengthField_zero] at hn
    exact ⟨fun t' hm => hin t' (by simp_all), hs', hhs', hn⟩
  · rintro ⟨hin, hs, hhs, hn⟩
    refine ⟨?_, hs ++ [lengthField 0], by rw [hfields, hhs]; rfl, ?_⟩
    · intro t' hm
      rcases List.mem_cons.mp hm with rfl | hm
      · exact hin _ (List.mem_singleton_self _)
      · rw [List.mem_singleton.mp hm]
        exact (passable_lengthText 0).inside
    · rw [bodyLength_lengthField_zero, hn]

theorem middleCarries_wire {n : ℕ} (hn : n < usizeSize) :
    MiddleCarries [ascii "Accept: application/dns-message",
      ascii "Content-Type: application/dns-message", lengthText n] n := by
  have hconst : lineFields ([ascii "Accept: application/dns-message",
      ascii "Content-Type: application/dns-message"].flatMap textLines) =
      some [(Str.lit "Accept", Str.lit "application/dns-message"),
        (Str.lit "Content-Type", Str.lit "application/dns-message")] := by decide
  constructor
  · intro t hm
    simp only [List.mem_cons, List.not_mem_nil, or_false] at hm
    rcases hm with rfl | rfl | rfl
    · decide
    · decide
    · exact (passable_lengthText n).inside
  · have hlength : bodyLength ([(Str.lit "Accept", Str.lit "application/dns-message"),
        (Str.lit "Content-Type", Str.lit "application/dns-message")] ++ [lengthField n]) = some n :=
      bodyLength_lengthField hn (by decide) (by decide)
    refine ⟨_, ?_, hlength⟩
    have hcut : [ascii "Accept: application/dns-message",
        ascii "Content-Type: application/dns-message", lengthText n].flatMap textLines =
        [ascii "Accept: application/dns-message",
          ascii "Content-Type: application/dns-message"].flatMap textLines ++
          textLines (lengthText n) := by simp
    rw [hcut, lineFields_append, hconst, lineFields_lengthText]
    rfl

theorem middleCarries_accept {accept : Str}
    (h : accept = Str.lit "application/dns-message" ∨ accept = Str.lit "application/dns-json") :
    MiddleCarries [ascii "Accept: " ++ Str.toBytes accept] 0 := by
  rcases h with rfl | rfl
  · exact ⟨by decide, [(Str.lit "Accept", Str.lit "application/dns-message")],
      by decide, by decide⟩
  · exact ⟨by decide, [(Str.lit "Accept", Str.lit "application/dns-json")],
      by decide, by decide⟩

section Verdict

variable {H : Hpack} {isBlocked : Str → Bool} {authority : Str} {req : H2Request}

/-- A builder that puts `/dns-query` for an empty target. -/
theorem isOneRequest_default_iff {method target : Str} {middle : List Bytes} {body : Bytes}
    (hm : MethodText method) (hmiddle : ∀ t ∈ middle, ∃ c rest, t = c :: rest ∧ c ∉ headTerminator)
    (hcarries : MiddleCarries middle body.length) :
    IsOneRequest (headBytes (requestTexts method
        (if target = [] then Str.lit "/dns-query" else target) authority middle) ++ body)
        target authority body ↔
      (' ' ∉ target ∧ '\n' ∉ target) ∧ target ≠ [] ∧
        ('\n' ∉ authority ∧ Str.trim authority = authority) := by
  by_cases hempty : target = []
  · rw [if_pos hempty]
    constructor
    · intro h
      have heq := h.target_eq hm (by decide)
      rw [hempty] at heq
      exact absurd heq (by decide)
    · rintro ⟨-, hne, -⟩
      exact absurd hempty hne
  · rw [if_neg hempty, isOneRequest_iff hm hmiddle]
    constructor
    · rintro ⟨ht, ha, -⟩
      exact ⟨ht, hempty, ha⟩
    · rintro ⟨ht, -, ha⟩
      exact ⟨ht, ha, hcarries⟩

private theorem expressible_iff (hpost : ¬ req.UnclassifiedPost) :
    Expressible authority req ↔ (' ' ∉ req.target ∧ '\n' ∉ req.target) ∧ req.target ≠ [] ∧
      ('\n' ∉ authority ∧ Str.trim authority = authority) := by
  constructor
  · rintro ⟨ht, hp, ha, -⟩
    exact ⟨ht, hp.resolve_left hpost, ha⟩
  · rintro ⟨ht, hp, ha⟩
    exact ⟨ht, Or.inr hp, ha, fun h => absurd h hpost⟩

private theorem postWire_one_request {wire : Bytes} (hlen : wire.length < usizeSize)
    (hx : extractQuery req.method req.path req.contentType req.body = .wire wire) :
    IsOneRequest (postWire authority req.path wire) req.target authority wire ↔
      Expressible authority req := by
  have htarget : postTarget req.path =
      if req.target = [] then Str.lit "/dns-query" else req.target := by
    simp [postTarget, H2Request.target, hx]
  have hstart : ∀ t ∈ [ascii "Accept: application/dns-message",
      ascii "Content-Type: application/dns-message", lengthText wire.length],
      ∃ c rest, t = c :: rest ∧ c ∉ headTerminator := by
    intro t hm
    simp only [List.mem_cons, List.not_mem_nil, or_false] at hm
    rcases hm with rfl | rfl | rfl
    · exact ⟨65, ascii "ccept: application/dns-message", by decide, by decide⟩
    · exact ⟨67, ascii "ontent-Type: application/dns-message", by decide, by decide⟩
    · exact (passable_lengthText _).start
  rw [postWire_eq, htarget,
    isOneRequest_default_iff methodText_post hstart (middleCarries_wire hlen), expressible_iff]
  rintro ⟨-, hu⟩
  rw [hx] at hu
  simp at hu

private theorem getPath_one_request {accept : Str}
    (haccept : accept = Str.lit "application/dns-message" ∨
      accept = Str.lit "application/dns-json")
    (htarget : req.target = req.path) (hpost : ¬ req.UnclassifiedPost) :
    IsOneRequest (getPath authority req.path accept) req.target authority [] ↔
      Expressible authority req := by
  have hstart : ∀ t ∈ [ascii "Accept: " ++ Str.toBytes accept],
      ∃ c rest, t = c :: rest ∧ c ∉ headTerminator := by
    intro t hm
    rw [List.mem_singleton.mp hm]
    exact ⟨65, ascii "ccept: " ++ Str.toBytes accept, rfl, by decide⟩
  have hcarries : MiddleCarries [ascii "Accept: " ++ Str.toBytes accept]
      ([] : Bytes).length := middleCarries_accept haccept
  have hget := getPath_eq authority req.path accept
  rw [← htarget] at hget ⊢
  rw [hget, ← List.append_nil (headBytes _),
    isOneRequest_default_iff methodText_get hstart hcarries, expressible_iff hpost]

private theorem reconstruct_one_request (hpost : req.UnclassifiedPost) (hbody : req.body = [])
    (htarget : req.target = req.path) :
    IsOneRequest (reconstruct authority req) req.target authority [] ↔
      Expressible authority req := by
  have hstart : ∀ t ∈ [req.contentTypeText, lengthText 0],
      ∃ c rest, t = c :: rest ∧ c ∉ headTerminator := by
    intro t hm
    simp only [List.mem_cons, List.not_mem_nil, or_false] at hm
    rcases hm with rfl | rfl
    · exact ⟨67, _, rfl, by decide⟩
    · exact (passable_lengthText _).start
  have hbytes : reconstruct authority req = headBytes (requestTexts (Str.lit "POST") req.target
      authority [req.contentTypeText, lengthText 0]) ++ [] := by
    rw [reconstruct_post hpost.1, hbody, htarget]
    rfl
  rw [hbytes, isOneRequest_iff methodText_post hstart, List.length_nil, middleCarries_length_zero]
  constructor
  · rintro ⟨ht, ha, hc⟩
    exact ⟨ht, Or.inl hpost, ha, fun _ => hc⟩
  · rintro ⟨ht, -, ha, hc⟩
    exact ⟨ht, ha, hc hpost⟩

/-- A verdict that forwards sends one request exactly when the strings are expressible. -/
theorem h2Verdict_forward {bytes : Bytes} (hlen : req.query.length < usizeSize)
    (h : h2Verdict isBlocked authority req = .forward bytes) :
    IsOneRequest bytes req.target authority req.query ↔ Expressible authority req := by
  unfold h2Verdict at h
  cases hx : extractQuery req.method req.path req.contentType req.body with
  | wire wire =>
    have hq : req.query = wire := by rw [H2Request.query, hx]
    rw [hx] at h
    dsimp only at h
    split at h
    · simp at h
    · obtain rfl := H2Verdict.forward.inj h
      rw [hq] at hlen ⊢
      exact postWire_one_request hlen hx
  | jsonName name =>
    have hq : req.query = [] := by rw [H2Request.query, hx]
    have htarget : req.target = req.path := by rw [H2Request.target, hx]
    rw [hx] at h
    dsimp only at h
    split_ifs at h
    obtain rfl := H2Verdict.forward.inj h
    rw [hq]
    refine getPath_one_request (Or.inr rfl) htarget ?_
    rintro ⟨-, hu⟩
    rw [hx] at hu
    simp at hu
  | unknown =>
    have hq : req.query = [] := by rw [H2Request.query, hx]
    have htarget : req.target = req.path := by rw [H2Request.target, hx]
    rw [hx] at h
    obtain rfl := H2Verdict.forward.inj h
    rw [hq]
    by_cases hmethod : req.method.eqIgnoreAsciiCase (Str.lit "POST") = true
    · have hbody : req.body = [] := by
        by_contra hne
        simp [extractQuery, hmethod, hne] at hx
      exact reconstruct_one_request ⟨hmethod, hx⟩ hbody htarget
    · rw [reconstruct, if_neg hmethod]
      exact getPath_one_request (Or.inl rfl) htarget fun hu => hmethod hu.1

/-- What `h2_feed` appends for a request that it forwards is one request with the request's target,
the learned authority and the query, exactly when the strings of the request can stand in an
HTTP/1.1 head. -/
theorem h2Request_one_request_iff {f : H2Feed H}
    (hfwd : (h2Request isBlocked f req).pending = f.pending ++ [req.streamId])
    (hlen : req.query.length < usizeSize) :
    ∃ bytes, DnsEmit.toUpstream (h2Request isBlocked f req).emits =
        DnsEmit.toUpstream f.emits ++ bytes ∧
      (IsOneRequest bytes req.target (h2Request isBlocked f req).authority req.query ↔
        Expressible (h2Request isBlocked f req).authority req) := by
  have hauth : (h2Request isBlocked f req).authority =
      if f.authority = [] ∧ req.authority ≠ [] then req.authority else f.authority := by
    unfold h2Request
    dsimp only
    split <;> rfl
  rw [hauth]
  unfold h2Request at hfwd ⊢
  dsimp only at hfwd ⊢
  cases hv : h2Verdict isBlocked
      (if f.authority = [] ∧ req.authority ≠ [] then req.authority else f.authority) req with
  | respond name contentType body =>
    rw [hv] at hfwd
    simp at hfwd
  | forward bytes => exact ⟨bytes, by simp, h2Verdict_forward hlen hv⟩

end Verdict

/-- A request whose path goes on with a second request. -/
def smugglingRequest : H2Request where
  streamId := 1
  method := Str.lit "GET"
  path := Str.lit "/?a HTTP/1.1\r\nHost: dns\r\n\r\nGET /?name=ads"
  authority := Str.lit "dns"
  contentType := []
  body := []

def emptyFeed : H2Feed literalHpack where
  server := {}
  authority := []
  pending := []

/-- The request is forwarded, and what is sent is two requests, the second one for a blocked
name. -/
theorem h2Request_smuggles :
    let f := h2Request (fun n => n = Str.lit "ads") emptyFeed smugglingRequest
    f.pending = [1] ∧ f.authority = Str.lit "dns" ∧
      ¬ IsOneRequest (DnsEmit.toUpstream f.emits) smugglingRequest.target f.authority
        smugglingRequest.query := by
  refine ⟨by decide +kernel, by decide +kernel, ?_⟩
  rintro ⟨hend, h, he, -, -, -, hbody, -⟩
  have hfound : findHeaderEnd (DnsEmit.toUpstream
      (h2Request (fun n => n = Str.lit "ads") emptyFeed smugglingRequest).emits) = some 31 := by
    decide +kernel
  rw [hfound] at he
  obtain rfl := Option.some.inj he
  revert hbody
  decide +kernel

theorem h2Request_one_request_iff_name :
    let req : H2Request := { smugglingRequest with path := Str.lit "/resolve?name=org" }
    let f := h2Request (fun n => n = Str.lit "ads") emptyFeed req
    (∃ bytes, DnsEmit.toUpstream f.emits = DnsEmit.toUpstream emptyFeed.emits ++ bytes ∧
      (IsOneRequest bytes req.target f.authority req.query ↔ Expressible f.authority req)) ∧
      Expressible f.authority req := by
  refine ⟨h2Request_one_request_iff (by decide +kernel) (by decide +kernel), ?_⟩
  exact {
    target := by decide +kernel
    path := Or.inr (by decide +kernel)
    authority := by decide +kernel
    contentType := fun h => absurd h.1 (by decide +kernel) }

end Adwarden.Tls
