import Adwarden.Dns.NameGrammar
import Adwarden.Tls.DohFilter
import Adwarden.Tls.DohPairing

/-! The name that a DoH request asks for, spelled in a JSON query and in a wire query. -/
namespace Adwarden.Tls
open Adwarden.Dns Adwarden.Str

/-- Text and how it is written in a parameter: characters as they are, or as `%` and two
hexadecimal digits. -/
inductive Encodes : Str → Str → Prop
  | nil : Encodes [] []
  | literal {c : Char} {text spelled : Str} (ascii : c.toNat < 128)
      (plain : c ≠ '%' ∧ c ≠ '+' ∧ c ≠ '&') (h : Encodes text spelled) :
      Encodes (c :: text) (c :: spelled)
  | escape {c hi lo : Char} {a b : Fin 16} {text spelled : Str} (ascii : c.toNat < 128)
      (hhi : digitVal hi = some a.val) (hlo : digitVal lo = some b.val)
      (hc : c.toNat = a.val * 16 + b.val) (h : Encodes text spelled) :
      Encodes (c :: text) ('%' :: hi :: lo :: spelled)

/-- A name in a JSON query: in any case, any characters encoded, with or without the root dot. -/
structure NameSpelling (ls : List Label) where
  text : Str
  rooted : Bool
  same : text.toAsciiLowercase = dotted ls ++ if rooted then ['.'] else []
  spelled : Str
  encodes : Encodes text spelled

/-- The parameter that decides a `GET` request: nothing is extracted from those before it. -/
structure Decides (param : Str) (req : H2Request) : Prop where
  get : req.method.eqIgnoreAsciiCase (lit "POST") = false
  path : ∃ base before after, '?' ∉ base ∧
    req.path = base ++ '?' :: join ['&'] (before ++ param :: after) ∧
    (∀ kv ∈ before, queryParams [kv] = .unknown) ∧ ∀ kv ∈ before ++ param :: after, '&' ∉ kv

/-- The ways a request carries a wire query. -/
inductive CarriesQuery (wire : Bytes) (req : H2Request) : Prop
  | post (hm : req.method.eqIgnoreAsciiCase (lit "POST") = true) (hb : req.body = wire)
  | get {value : Str} (hd : Decides (lit "dns=" ++ value) req)
      (hv : b64urlDecode value = some wire)

/-- A request with a wire query for the name. -/
structure AsksWire (ls : List Label) (req : H2Request) : Prop where
  carries : ∃ hd : Header, ∃ body jumps stop qtype qclass rest,
    CarriesQuery (hd.encode ++ body) req ∧ Spells (hd.encode ++ body) 12 ls jumps stop ∧ jumps ≤ 16 ∧
      (hd.encode ++ body).drop stop = behindName qtype qclass rest

/-- The string that is looked up in the blocklist. -/
def asked (req : H2Request) : Option Str :=
  queryName (extractQuery req.method req.path req.contentType req.body)

/-- The name that is blocked when the request comes over HTTP/1.1. -/
def h1Blocked (isBlocked : Str → Bool) (req : H2Request) : Option Str :=
  (h1Answer isBlocked req.method req.path req.contentType req.body).map (·.1)

section Decoding

private theorem byte_of_ascii {c : Char} (h : c.toNat < 128) :
    ∃ x : UInt8, x < 0x80 ∧ c = Char.ofNat x.toNat := by
  have hx : (UInt8.ofNat c.toNat).toNat = c.toNat := toNat_ofNat_lt (by omega)
  refine ⟨.ofNat c.toNat, ?_, ?_⟩
  · rw [UInt8.lt_iff_toNat_lt, hx]
    exact h
  · rw [hx, Char.ofNat_toNat]

private theorem toBytes_ascii {x : UInt8} (hx : x < 0x80) (s : Str) :
    toBytes (Char.ofNat x.toNat :: s) = x :: toBytes s := by
  rw [toBytes_cons, encode_ascii (UInt8.lt_iff_toNat_lt.mp hx)]
  rfl

private theorem hexVal_digit : ∀ x : UInt8, x < 0x80 → ∀ a : Fin 16,
    digitVal (Char.ofNat x.toNat) = some a.val → hexVal x = some (.ofNat a.val) :=
  forall_byte (by decide +kernel)

private theorem digit_ascii {c : Char} {a : Fin 16} (h : digitVal c = some a.val) :
    c.toNat < 128 := by
  simp only [digitVal] at h
  split_ifs at h <;> omega

private theorem hex_value : ∀ a b : Fin 16,
    (UInt8.ofNat a.val * 16 + UInt8.ofNat b.val).toNat = a.val * 16 + b.val := by decide

theorem percentDecodeBytes_plain {x : UInt8} (h : x ≠ 37 ∧ x ≠ 43) (rest : Bytes) :
    percentDecodeBytes (x :: rest) = x :: percentDecodeBytes rest := by
  obtain ⟨hp, hq⟩ := h
  rcases rest with _ | ⟨c, _ | ⟨d, rest⟩⟩
  · simp [percentDecodeBytes, hq]
  · simp [percentDecodeBytes, hq]
  · rw [percentDecodeBytes, percentEscape, if_neg hp, if_neg hq]

theorem percentDecodeBytes_escape {h l x : UInt8} {a b : Fin 16}
    (hh : hexVal h = some (.ofNat a.val)) (hl : hexVal l = some (.ofNat b.val))
    (hx : x.toNat = a.val * 16 + b.val) (rest : Bytes) :
    percentDecodeBytes (37 :: h :: l :: rest) = x :: percentDecodeBytes rest := by
  have hval : UInt8.ofNat a.val * 16 + UInt8.ofNat b.val = x := by
    apply UInt8.toNat_inj.mp
    rw [hex_value, hx]
  rw [percentDecodeBytes, percentEscape, if_pos rfl, hh, Option.bind_eq_bind, Option.bind_some, hl]
  simp only [Option.bind_some, hval]

/-- Decoding undoes the encoding. -/
theorem Encodes.percentDecode {text spelled : Str} (h : Encodes text spelled) :
    percentDecode spelled = text := by
  have hbytes : percentDecodeBytes (toBytes spelled) = toBytes text := by
    induction h with
    | nil => rfl
    | @literal c text spelled ascii plain _ ih =>
      obtain ⟨x, hx, rfl⟩ := byte_of_ascii ascii
      have hplain : x ≠ 37 ∧ x ≠ 43 := by
        constructor
        · rintro rfl
          exact plain.1 rfl
        · rintro rfl
          exact plain.2.1 rfl
      rw [toBytes_ascii hx, toBytes_ascii hx, percentDecodeBytes_plain hplain, ih]
    | @escape c hi lo a b text spelled ascii hhi hlo hc _ ih =>
      obtain ⟨x, hx, rfl⟩ := byte_of_ascii ascii
      obtain ⟨h, hh, rfl⟩ := byte_of_ascii (digit_ascii hhi)
      obtain ⟨l, hl, rfl⟩ := byte_of_ascii (digit_ascii hlo)
      rw [toNat_asciiChar hx] at hc
      have hmark : toBytes ('%' :: Char.ofNat h.toNat :: Char.ofNat l.toNat :: spelled) =
          37 :: h :: l :: toBytes spelled := by
        rw [← toBytes_ascii hl, ← toBytes_ascii hh, ← toBytes_ascii (x := 37) (by decide)]
        rfl
      rw [hmark, toBytes_ascii hx,
        percentDecodeBytes_escape (hexVal_digit h hh a hhi) (hexVal_digit l hl b hlo) hc, ih]
  rw [Tls.percentDecode, hbytes, fromUtf8Lossy_toBytes]

end Decoding

section Requests

variable {ls : List Label} {req : H2Request}

theorem split_join {c : Char} {p : Str} {ps : List Str} (h : ∀ q ∈ p :: ps, c ∉ q) :
    split c (join [c] (p :: ps)) = p :: ps := by
  induction ps generalizing p with
  | nil => exact split_of_not_mem (h p (by simp))
  | cons q ps ih =>
    rw [join, List.append_assoc, List.singleton_append, split_append (h p (by simp)),
      ih fun r hr => h r (by simp [List.mem_cons.mp hr])]
    simp

theorem queryParams_skip {kv : Str} (h : queryParams [kv] = .unknown) (rest : List Str) :
    queryParams (kv :: rest) = queryParams rest := by
  simp only [queryParams] at h ⊢
  split_ifs at h ⊢
  · split at h <;> simp_all
  · rfl

/-- The deciding parameter is the first from which something is extracted. -/
theorem Decides.extractQuery {param : Str} (h : Decides param req) :
    ∃ after, extractQuery req.method req.path req.contentType req.body =
      queryParams (param :: after) := by
  obtain ⟨base, before, after, hbase, hpath, hbefore, hamp⟩ := h.path
  refine ⟨after, ?_⟩
  have hsplit : split '&' (join ['&'] (before ++ param :: after)) = before ++ param :: after := by
    cases before with
    | nil => exact split_join hamp
    | cons q qs => exact split_join hamp
  rw [Tls.extractQuery, if_neg (by simp [h.get]), hpath, splitOnce_append hbase, Option.map_some,
    Option.getD_some]
  dsimp only
  rw [hsplit]
  clear hpath hsplit hamp
  induction before with
  | nil => rfl
  | cons q qs ih =>
    rw [List.cons_append, queryParams_skip (hbefore q (by simp)),
      ih fun kv hkv => hbefore kv (List.mem_cons_of_mem _ hkv)]

theorem asked_json {spelled : Str} (h : Decides (lit "name=" ++ spelled) req) :
    asked req = some (percentDecode spelled).toAsciiLowercase := by
  obtain ⟨after, hextract⟩ := h.extractQuery
  have hkey : '=' ∉ lit "name" := by decide
  have hkv : splitOnce '=' (lit "name=" ++ spelled) = some (lit "name", spelled) :=
    splitOnce_append hkey spelled
  rw [asked, hextract, queryParams, hkv, Option.getD_some]
  rfl

theorem extractQuery_carriesQuery {wire : Bytes} (hne : wire ≠ []) (h : CarriesQuery wire req) :
    extractQuery req.method req.path req.contentType req.body = .wire wire := by
  cases h with
  | post hm hb => rw [extractQuery, if_pos hm, if_pos (Or.inr (hb ▸ hne)), hb]
  | @get value hd hv =>
    obtain ⟨after, hextract⟩ := hd.extractQuery
    have hkey : '=' ∉ lit "dns" := by decide
    have hkv : splitOnce '=' (lit "dns=" ++ value) = some (lit "dns", value) :=
      splitOnce_append hkey value
    rw [hextract, queryParams, hkv, Option.getD_some]
    dsimp only
    rw [if_pos rfl, hv]

theorem asked_wire (h : AsksWire ls req) : asked req = some (dotted ls) := by
  obtain ⟨hd, body, jumps, stop, qtype, qclass, rest, hcarries, hspells, hjumps, hbehind⟩ :=
    h.carries
  have hne : hd.encode ++ body ≠ [] := by
    simp [Header.encode, beBytes16]
  rw [asked, extractQuery_carriesQuery hne hcarries, queryName,
    parseQuery_spelled hd hspells hjumps hbehind]
  rfl

variable (isBlocked : Str → Bool) (req)

/-- Over HTTP/1.1 and HTTP/2 a request is answered exactly if the name it asks for is blocked. -/
theorem h1Blocked_eq : h1Blocked isBlocked req = (asked req).filter isBlocked :=
  h1Answer_name ..

theorem isForwarded_eq : isForwarded isBlocked req = ((asked req).filter isBlocked).isNone := by
  rw [isForwarded, h2Verdict, asked]
  cases extractQuery req.method req.path req.contentType req.body with
  | unknown => rfl
  | jsonName name => by_cases hb : isBlocked name <;> simp [queryName, Option.filter, hb]
  | wire wire =>
    cases hq : parseQuery wire with
    | none => simp [blockWire, queryName, hq]
    | some q =>
      by_cases hb : isBlocked q.name <;> simp [blockWire, queryName, Option.filter, hq, hb]

end Requests

/-- What makes both forms of a query alike: one string is looked up, and both are blocked under
one name, or forwarded. -/
structure Alike (json wire : H2Request) : Prop where
  name : ∃ n, asked json = some n ∧ asked wire = some n
  h1 : ∀ isBlocked, h1Blocked isBlocked json = h1Blocked isBlocked wire
  h2 : ∀ isBlocked, isForwarded isBlocked json = isForwarded isBlocked wire

/-- A spelling of a name is judged as its wire query is exactly if it has no root dot. -/
theorem spelling_alike_iff {ls : List Label} (s : NameSpelling ls) {json wire : H2Request}
    (hj : Decides (lit "name=" ++ s.spelled) json) (hw : AsksWire ls wire) :
    Alike json wire ↔ s.rooted = false := by
  have hjson : asked json = some (dotted ls ++ if s.rooted then ['.'] else []) := by
    rw [asked_json hj, s.encodes.percentDecode, s.same]
  have hwire := asked_wire hw
  constructor
  · rintro ⟨⟨n, hjn, hwn⟩, -, -⟩
    rw [hjson, Option.some.injEq] at hjn
    rw [hwire, Option.some.injEq, ← hjn] at hwn
    cases hr : s.rooted with
    | false => rfl
    | true => simp [hr] at hwn
  · intro hr
    have heq : asked json = asked wire := by
      rw [hjson, hwire, hr]
      simp
    refine ⟨⟨dotted ls, heq.trans hwire, hwire⟩, ?_, ?_⟩
    · intro isBlocked
      rw [h1Blocked_eq, h1Blocked_eq, heq]
    · intro isBlocked
      rw [isForwarded_eq, isForwarded_eq, heq]

/-- The labels of `ads.com`, and its query as a `POST` and as a `GET`. -/
def adsCom : List Label :=
  [⟨lit "ads", by decide, by decide⟩, ⟨lit "com", by decide, by decide⟩]

def adsComPost : H2Request where
  streamId := 1
  method := lit "POST"
  path := lit "/dns-query"
  authority := []
  contentType := lit "application/dns-message"
  body := [0, 1, 1, 0, 0, 1, 0, 0, 0, 0, 0, 0] ++ spelledOut adsCom (behindName 1 1 [])

def adsComGet (spelled : Str) : H2Request where
  streamId := 3
  method := lit "GET"
  path := lit "/dns-query?name=" ++ spelled
  authority := []
  contentType := []
  body := []

private theorem adsComGet_decides {spelled : Str} (h : '&' ∉ spelled) :
    Decides (lit "name=" ++ spelled) (adsComGet spelled) where
  get := (by decide : (lit "GET").eqIgnoreAsciiCase (lit "POST") = false)
  path := by
    refine ⟨lit "/dns-query", [], [], by decide, ?_, by simp, ?_⟩
    · simp [adsComGet, join, lit]
    · have hkey : '&' ∉ lit "name=" := by decide
      simp [hkey, h]

private theorem adsComPost_asks : AsksWire adsCom adsComPost where
  carries := by
    refine ⟨⟨1, 0x100, 1, [0, 0, 0, 0, 0, 0], rfl, by decide, by decide, by decide⟩,
      spelledOut adsCom (behindName 1 1 []), 0, 21, 1, 1, [], .post (by decide) rfl, ?_,
      by decide, by decide⟩
    exact .root (by decide : _ = encodeLabels adsCom ++ (0 :: behindName 1 1 []))

/-- `aDS.com` with its first letter encoded. -/
def adsComSpelled : NameSpelling adsCom where
  text := lit "aDS.com"
  rooted := false
  same := by decide
  spelled := lit "%61DS.com"
  encodes := .escape (a := 6) (b := 1) (by decide) (by decide) (by decide) (by decide)
    (.literal (by decide) (by decide) (.literal (by decide) (by decide)
      (.literal (by decide) (by decide) (.literal (by decide) (by decide)
        (.literal (by decide) (by decide) (.literal (by decide) (by decide) .nil))))))

def adsComRooted : NameSpelling adsCom where
  text := lit "ads.com."
  rooted := true
  same := by decide
  spelled := lit "ads.com."
  encodes := .literal (by decide) (by decide) (.literal (by decide) (by decide)
    (.literal (by decide) (by decide) (.literal (by decide) (by decide)
      (.literal (by decide) (by decide) (.literal (by decide) (by decide)
        (.literal (by decide) (by decide) (.literal (by decide) (by decide) .nil)))))))

theorem spelling_alike_ads_com :
    Alike (adsComGet (lit "%61DS.com")) adsComPost ↔ adsComSpelled.rooted = false :=
  spelling_alike_iff adsComSpelled (adsComGet_decides (by decide)) adsComPost_asks

/-- With a root dot the name is looked up with that dot, and is not found where the wire query's
name is. -/
theorem root_dot_kept : ∃ s : NameSpelling adsCom, s.spelled = lit "ads.com." ∧
    Decides (lit "name=" ++ s.spelled) (adsComGet s.spelled) ∧ AsksWire adsCom adsComPost ∧
    asked (adsComGet s.spelled) = some (lit "ads.com.") ∧
    asked adsComPost = some (lit "ads.com") ∧
    isForwarded (· == lit "ads.com") (adsComGet s.spelled) = true ∧
    isForwarded (· == lit "ads.com") adsComPost = false :=
  ⟨adsComRooted, rfl, adsComGet_decides (by decide), adsComPost_asks, by decide +kernel,
    by decide +kernel, by decide +kernel, by decide +kernel⟩

end Adwarden.Tls
