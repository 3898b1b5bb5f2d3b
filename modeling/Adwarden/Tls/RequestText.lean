import Adwarden.Rust.Utf8
import Adwarden.Tls.DohH1
import Adwarden.Tls.HeadGrammar

/-! What the request parser makes of a head written from arbitrary strings. -/
namespace Adwarden.Tls

/-- The lines of a text that stands before a CRLF. -/
def textLines (t : Bytes) : List Bytes := splitCrlfLines (t ++ [CR])

theorem textLines_of_not_mem {t : Bytes} (h : LF ∉ t) : textLines t = [t] := by
  have hnot : LF ∉ t ++ [CR] := by simp [h, LF_ne_CR]
  simp [textLines, splitCrlfLines, splitOn_of_not_mem hnot]

theorem splitCrlfLines_headBytes_texts (texts : List Bytes) :
    splitCrlfLines (headBytes texts) = texts.flatMap textLines ++ [[], []] := by
  induction texts with
  | nil => decide
  | cons t ts ih =>
    have hcut : headBytes (t :: ts) = (t ++ [CR]) ++ LF :: headBytes ts := by
      simp [headBytes, CRLF]
    rw [splitCrlfLines] at ih
    rw [splitCrlfLines, hcut, splitOn_append_sep, List.map_append, ih]
    simp [textLines, splitCrlfLines]

/-- The fields of some header lines. -/
def lineFields (lines : List Bytes) : Option Headers :=
  ((lines.map headerField).allSome).map List.flatten

theorem lineFields_append (a b : List Bytes) :
    lineFields (a ++ b) = (lineFields a).bind fun x => (lineFields b).map (x ++ ·) := by
  simp only [lineFields, List.map_append, Str.allSome_append]
  cases (a.map headerField).allSome <;> cases (b.map headerField).allSome <;> simp

theorem lineFields_singleton (l : Bytes) : lineFields [l] = headerField l := by
  cases h : headerField l <;> simp [lineFields, h, List.allSome]

theorem lineFields_blank : lineFields [[], []] = some [] := rfl

section Texts

variable {t : Bytes} {ts : List Bytes}

/-- A text that the search for the end of the head passes through. -/
structure Passable (t : Bytes) : Prop where
  inside : findSubsequence headTerminator (t ++ CRLF) = none
  start : ∃ c rest, t = c :: rest ∧ c ∉ headTerminator

theorem Passable.of_not_mem {c : UInt8} (hc : c ∉ headTerminator) (h : LF ∉ c :: t) :
    Passable (c :: t) where
  inside := by
    cases hf : findSubsequence headTerminator (c :: t ++ CRLF) with
    | none => rfl
    | some i =>
      have hp := findSubsequence_isPrefix hf
      have hle := (hp.sublist.trans (List.drop_sublist _ _)).count_le LF
      rw [List.count_append, List.count_eq_zero_of_not_mem h] at hle
      exact absurd hle (by decide)
  start := ⟨c, t, rfl, hc⟩

private theorem findSubsequence_last (h : findSubsequence headTerminator (t ++ CRLF) = none)
    (x : Bytes) :
    findSubsequence headTerminator (t ++ (CRLF ++ (CRLF ++ x))) = some t.length := by
  induction t with
  | nil => simp [findSubsequence, headTerminator, CRLF, List.isPrefixOf]
  | cons b t ih =>
    simp only [List.cons_append, findSubsequence] at h
    split_ifs at h with hp
    have hno : headTerminator.isPrefixOf (b :: (t ++ (CRLF ++ (CRLF ++ x)))) = false := by
      rw [Bool.eq_false_iff]
      intro hq
      cases t with
      | nil => simp [headTerminator, CRLF, List.isPrefixOf, LF_ne_CR] at hq
      | cons c t =>
        apply hp
        rw [List.isPrefixOf_iff_prefix] at hq ⊢
        refine List.prefix_of_prefix_length_le hq ⟨CRLF ++ x, by simp⟩ ?_
        simp [headTerminator, CRLF]
    rw [List.cons_append, findSubsequence, hno, ih (by simpa using h)]
    rfl

theorem findHeaderEnd_texts (hne : ts ≠ []) (h : ∀ t ∈ ts, Passable t) (x : Bytes) :
    findHeaderEnd (headBytes ts ++ x) = some (headBytes ts).length := by
  suffices ∃ n, findSubsequence headTerminator (headBytes ts ++ x) = some n ∧
      n + 4 = (headBytes ts).length by
    obtain ⟨n, hn, hlen⟩ := this
    rw [findHeaderEnd, hn, Option.map_some, hlen]
  induction ts with
  | nil => exact absurd rfl hne
  | cons t ts ih =>
    have hin := (h t (by simp)).inside
    cases ts with
    | nil =>
      have happ : headBytes [t] ++ x = t ++ (CRLF ++ (CRLF ++ x)) := by simp [headBytes]
      refine ⟨t.length, by rw [happ, findSubsequence_last hin], ?_⟩
      simp [headBytes, CRLF]
    | cons t' ts =>
      obtain ⟨c, rest, hct, hc⟩ := (h t' (by simp)).start
      obtain ⟨n, hn, hlen⟩ := ih (by simp) fun t hm => h t (List.mem_cons_of_mem _ hm)
      have happ : headBytes (t :: t' :: ts) ++ x = (t ++ CRLF) ++ (headBytes (t' :: ts) ++ x) := by
        simp [headBytes]
      have hstart : headBytes (t' :: ts) ++ x = c :: (rest ++ CRLF ++ headBytes ts ++ x) := by
        simp [headBytes, hct]
      refine ⟨n + (t ++ CRLF).length, ?_, ?_⟩
      · rw [happ, hstart, findSubsequence_skip_none hin hc, ← hstart, hn]
        rfl
      · simp only [headBytes, List.flatMap_cons, List.length_append] at hlen ⊢
        omega

/-- When the whole head is found, no text of it ends the head early. -/
theorem inside_of_findHeaderEnd {x : Bytes}
    (h : findHeaderEnd (headBytes ts ++ x) = some (headBytes ts).length) (ht : t ∈ ts) :
    findSubsequence headTerminator (t ++ CRLF) = none := by
  cases hf : findSubsequence headTerminator (t ++ CRLF) with
  | none => rfl
  | some i =>
    exfalso
    obtain ⟨a, b, rfl⟩ := List.append_of_mem ht
    obtain ⟨A, hA⟩ : ∃ A, headBytes (a ++ t :: b) = A ++ (t ++ CRLF) ++ headBytes b :=
      ⟨a.flatMap fun l => l ++ CRLF, by simp [headBytes]⟩
    have hb : 2 ≤ (headBytes b).length := by simp [headBytes, CRLF]
    obtain ⟨j, hj, hle⟩ := findSubsequence_infix A (headBytes b ++ x) hf
    have hi := findSubsequence_le hf
    rw [findHeaderEnd, hA, List.append_assoc _ _ x, hj] at h
    have hlen := Option.some.inj h
    have hT : headTerminator.length = 4 := rfl
    simp only [List.length_append, hT] at hlen hi
    omega

end Texts

/-- `bytes`, read by the HTTP/1.1 request parser, are one request with this target, this `Host` and
this body, and nothing else. -/
def IsOneRequest (bytes : Bytes) (target host : Str) (body : Bytes) : Prop :=
  ∃ hend h, findHeaderEnd bytes = some hend ∧ h1Head (bytes.take hend) = some h ∧
    h.target = target ∧ header h.headers "host" = some host ∧
    bytes.drop hend = body ∧ h.bodyLen = body.length

/-- The texts of a request head as the filter writes it. -/
def requestTexts (method target authority : Str) (middle : List Bytes) : List Bytes :=
  Str.toBytes (method ++ ' ' :: (target ++ ' ' :: Str.lit "HTTP/1.1")) ::
    (ascii "Host" ++ 58 :: 32 :: Str.toBytes authority) ::
      (middle ++ [ascii "Connection: keep-alive"])

/-- The request that a head followed by `body` stands for is decided by the fields of the head. -/
theorem isOneRequest_headBytes_iff {ts : List Bytes} {target host : Str} {body : Bytes} :
    IsOneRequest (headBytes ts ++ body) target host body ↔
      findHeaderEnd (headBytes ts ++ body) = some (headBytes ts).length ∧
        ∃ h, h1Head (headBytes ts) = some h ∧ h.target = target ∧
          header h.headers "host" = some host ∧ h.bodyLen = body.length := by
  constructor
  · rintro ⟨hend, h, he, hh, htarget, hhost, hbody, hlen⟩
    have hle := (findHeaderEnd_le he).2
    have hend' : hend = (headBytes ts).length := by
      have := congrArg List.length hbody
      rw [List.length_drop] at this
      rw [List.length_append] at this hle
      omega
    subst hend'
    rw [List.take_left' rfl] at hh
    exact ⟨he, h, hh, htarget, hhost, hlen⟩
  · rintro ⟨he, h, hh, htarget, hhost, hlen⟩
    refine ⟨_, h, he, ?_, htarget, hhost, List.drop_left' rfl, hlen⟩
    rw [List.take_left' rfl]
    exact hh

theorem mem_textLines {t l : Bytes} (h : l ∈ textLines t) : LF ∉ l := by
  obtain ⟨x, hx, rfl⟩ := List.mem_map.mp h
  have hnot := not_mem_of_mem_splitOn hx
  split_ifs
  · exact fun hm => hnot (List.mem_of_mem_dropLast hm)
  · exact hnot

theorem textLines_ne_nil (t : Bytes) : textLines t ≠ [] := by
  simpa [textLines, splitCrlfLines] using splitOn_ne_nil LF (t ++ [CR])

theorem parseHeadFields_texts {t l : Bytes} {ls ts : List Bytes} (hl : textLines t = l :: ls) :
    parseHeadFields (headBytes (t :: ts)) =
      (lineFields (ls ++ ts.flatMap textLines)).map fun hs => (l, hs) := by
  have hsplit : splitCrlfLines (headBytes (t :: ts)) =
      l :: ((ls ++ ts.flatMap textLines) ++ [[], []]) := by
    rw [splitCrlfLines_headBytes_texts, List.flatMap_cons, hl]
    simp
  have hfields := lineFields_append (ls ++ ts.flatMap textLines) [[], []]
  rw [lineFields_blank] at hfields
  rw [parseHeadFields, hsplit]
  rw [lineFields] at hfields
  dsimp only
  cases hs : lineFields (ls ++ ts.flatMap textLines) with
  | none =>
    rw [hs] at hfields
    simpa using hfields
  | some x =>
    rw [hs] at hfields
    obtain ⟨y, hy, hx⟩ := Option.map_eq_some_iff.mp (hfields.trans (by rfl))
    rw [hy, Option.map_some, hx]
    simp

/-- A parsed target has no space and no line feed. -/
theorem h1Head_target {ts : List Bytes} {h : H1Head} (hne : ts ≠ [])
    (hh : h1Head (headBytes ts) = some h) : ' ' ∉ h.target ∧ '\n' ∉ h.target := by
  obtain ⟨t, ts, rfl⟩ := List.exists_cons_of_ne_nil hne
  obtain ⟨l, ls, hl⟩ := List.exists_cons_of_ne_nil (textLines_ne_nil t)
  have hlf : LF ∉ l := mem_textLines (hl ▸ List.mem_cons_self ..)
  unfold h1Head at hh
  simp only [parseHeadFields_texts hl, Option.bind_eq_bind, Option.bind_eq_some_iff] at hh
  obtain ⟨⟨start, headers⟩, hstart, ⟨method, target, version⟩, hline, hframe⟩ := hh
  obtain ⟨hs, -, hpair⟩ := Option.map_eq_some_iff.mp hstart
  obtain ⟨rfl, rfl⟩ := Prod.mk.inj hpair
  have htarget : h.target = target := by
    dsimp only at hframe
    split at hframe
    · exact (congrArg H1Head.target (Option.some.inj hframe)).symm
    · exact (congrArg H1Head.target (Option.some.inj hframe)).symm
    · simp at hframe
  rw [htarget]
  unfold parseRequestLine at hline
  simp only [Option.bind_eq_bind, Option.bind_eq_some_iff] at hline
  obtain ⟨text, htext, hsplit⟩ := hline
  have hnl : '\n' ∉ text := by
    rw [← Str.fromUtf8Lossy_of_fromUtf8 htext]
    exact fun hm => hlf (Str.lf_mem_of_mem_fromUtf8Lossy hm)
  split at hsplit
  · next m tg v rest hpieces =>
    split_ifs at hsplit
    obtain ⟨rfl, rfl, rfl⟩ := by simpa using hsplit
    obtain ⟨hsp, hsub⟩ := Str.mem_split (hpieces ▸ List.mem_cons_of_mem _ (List.mem_cons_self ..))
    exact ⟨hsp, fun hm => hnl (hsub _ hm)⟩
  · simp at hsplit

theorem parseRequestLine_toBytes {method target : Str} (hne : method ≠ []) (hm : ' ' ∉ method)
    (ht : ' ' ∉ target) :
    parseRequestLine (Str.toBytes (method ++ ' ' :: (target ++ ' ' :: Str.lit "HTTP/1.1"))) =
      some (method, target, Str.lit "HTTP/1.1") := by
  have hv : Str.split ' ' (Str.lit "HTTP/1.1") = [Str.lit "HTTP/1.1"] := by decide
  have hp : Str.startsWith (Str.lit "HTTP/1.1") (Str.lit "HTTP/") = true := by decide
  simp [parseRequestLine, Str.fromUtf8_toBytes, Str.split_append hm, Str.split_append ht, hv, hp,
    hne]

/-- The body length a request's fields declare, if its body is delimited by a length. -/
def bodyLength (headers : Headers) : Option ℕ :=
  match requestFraming headers with
  | none => some 0
  | some (.length n) => some n
  | some _ => none

theorem header_append (a b : Headers) (name : String) :
    header (a ++ b) name = (header a name).or (header b name) := by
  rw [header, List.find?_append, header, header]
  cases a.find? fun kv => kv.1.eqIgnoreAsciiCase (Str.lit name) <;> simp

private def hostField (v : Str) : Str × Str := (asciiStr (ascii "Host"), v)

private def connectionField : Str × Str := (Str.lit "Connection", Str.lit "keep-alive")

private theorem bodyLength_frame (v : Str) (hs : Headers) :
    bodyLength (hostField v :: (hs ++ [connectionField])) = bodyLength hs := by
  have hc : ∀ n ∈ ["transfer-encoding", "content-length"],
      (hostField v).1.eqIgnoreAsciiCase (Str.lit n) = false ∧ header [connectionField] n = none := by
    simp only [hostField]
    decide +kernel
  have key : ∀ n ∈ ["transfer-encoding", "content-length"],
      header (hostField v :: (hs ++ [connectionField])) n = header hs n := by
    intro n hn
    rw [← List.singleton_append, header_append, header_append, (hc n hn).2, Option.or_none]
    simp [header, (hc n hn).1]
  have hchunked : isChunked (hostField v :: (hs ++ [connectionField])) = isChunked hs := by
    rw [isChunked, key "transfer-encoding" (by simp), isChunked]
  have hlength : contentLength (hostField v :: (hs ++ [connectionField])) = contentLength hs := by
    rw [contentLength, key "content-length" (by simp), contentLength]
  rw [bodyLength, requestFraming, hchunked, hlength, bodyLength, requestFraming]

private theorem lineFields_host (p : Bytes) :
    lineFields [ascii "Host" ++ 58 :: p] = some [hostField (Str.trim (Str.fromUtf8Lossy p))] := by
  rw [lineFields_singleton, headerField_named (by decide) (by decide +kernel)]
  rfl

private theorem lineFields_connection :
    lineFields (textLines (ascii "Connection: keep-alive")) = some [connectionField] := by
  decide +kernel

/-- The first line of the `Host` text, which is the whole text unless the authority has a line
feed. -/
private theorem textLines_host (authority : Str) :
    ∃ p ls, textLines (ascii "Host" ++ 58 :: 32 :: Str.toBytes authority) =
        (ascii "Host" ++ 58 :: p) :: ls ∧ LF ∉ p ∧
      ('\n' ∉ authority → p = 32 :: Str.toBytes authority ∧ ls = []) := by
  have hhost : LF ∉ ascii "Host" ++ [58] := by decide
  by_cases hlf : '\n' ∈ authority
  · have hmem : LF ∈ 32 :: Str.toBytes authority :=
      List.mem_cons_of_mem _ (Str.lf_mem_toBytes.mpr hlf)
    obtain ⟨u, v, huv, hu⟩ := List.eq_append_cons_of_mem hmem
    have hne : u ≠ [] := by
      rintro rfl
      simp [LF] at huv
    have hnot : LF ∉ ascii "Host" ++ 58 :: u := by
      simpa [hu] using hhost
    have hcut : (ascii "Host" ++ 58 :: 32 :: Str.toBytes authority) ++ [CR] =
        (ascii "Host" ++ 58 :: u) ++ LF :: (v ++ [CR]) := by
      rw [huv]
      simp
    have hdrop : (ascii "Host" ++ 58 :: u).dropLast = ascii "Host" ++ 58 :: u.dropLast := by
      rw [List.dropLast_append_of_ne_nil (by simp), List.dropLast_cons_of_ne_nil hne]
    rw [textLines, splitCrlfLines, hcut, splitOn_append hnot, List.map_cons, hdrop]
    by_cases hcr : (ascii "Host" ++ 58 :: u).getLast? = some CR
    · exact ⟨u.dropLast, _, by rw [if_pos hcr], fun hm => hu (List.mem_of_mem_dropLast hm),
        fun h => absurd hlf h⟩
    · exact ⟨u, _, by rw [if_neg hcr], hu, fun h => absurd hlf h⟩
  · have hnot : LF ∉ 32 :: Str.toBytes authority := by
      rw [List.mem_cons, not_or]
      exact ⟨by decide, fun h => hlf (Str.lf_mem_toBytes.mp h)⟩
    refine ⟨32 :: Str.toBytes authority, [], textLines_of_not_mem ?_, hnot, fun _ => ⟨rfl, rfl⟩⟩
    simpa [hnot] using hhost

/-- A method as the builders write it. -/
structure MethodText (method : Str) : Prop where
  nonempty : method ≠ []
  space : ' ' ∉ method
  lf : '\n' ∉ method
  start : ∃ c rest, Str.toBytes method = c :: rest ∧ c ∉ headTerminator

/-- Texts between the `Host` and the `Connection` of a head that keep the head whole and declare a
body of `n` bytes. -/
structure MiddleCarries (middle : List Bytes) (n : ℕ) : Prop where
  inside : ∀ t ∈ middle, findSubsequence headTerminator (t ++ CRLF) = none
  fields : ∃ hs, lineFields (middle.flatMap textLines) = some hs ∧ bodyLength hs = some n

section Request

variable {method target authority : Str} {middle : List Bytes}

private theorem h1Head_requestTexts {p : Bytes} {ls : List Bytes}
    (hm : MethodText method) (ht : ' ' ∉ target ∧ '\n' ∉ target)
    (hhost : textLines (ascii "Host" ++ 58 :: 32 :: Str.toBytes authority) =
      (ascii "Host" ++ 58 :: p) :: ls) :
    h1Head (headBytes (requestTexts method target authority middle)) =
      (lineFields (ls ++ middle.flatMap textLines)).bind fun hs =>
        (bodyLength hs).map fun bodyLen =>
          { method, target, bodyLen
            headers := hostField (Str.trim (Str.fromUtf8Lossy p)) :: (hs ++ [connectionField]) } := by
  have hstart : LF ∉ Str.toBytes (method ++ ' ' :: (target ++ ' ' :: Str.lit "HTTP/1.1")) := by
    rw [Str.lf_mem_toBytes]
    have hv : '\n' ∉ Str.lit "HTTP/1.1" := by decide
    simp [hm.lf, ht.2, hv]
  have hfields : lineFields ([] ++ ((ascii "Host" ++ 58 :: 32 :: Str.toBytes authority) ::
      (middle ++ [ascii "Connection: keep-alive"])).flatMap textLines) =
      (lineFields (ls ++ middle.flatMap textLines)).map fun hs =>
        hostField (Str.trim (Str.fromUtf8Lossy p)) :: (hs ++ [connectionField]) := by
    have hcut : ([] ++ ((ascii "Host" ++ 58 :: 32 :: Str.toBytes authority) ::
        (middle ++ [ascii "Connection: keep-alive"])).flatMap textLines) =
        [ascii "Host" ++ 58 :: p] ++ ((ls ++ middle.flatMap textLines) ++
          textLines (ascii "Connection: keep-alive")) := by
      simp [hhost]
    rw [hcut, lineFields_append, lineFields_append, lineFields_host, lineFields_connection]
    cases lineFields (ls ++ middle.flatMap textLines) <;> simp
  rw [requestTexts, h1Head, parseHeadFields_texts (textLines_of_not_mem hstart), hfields]
  cases hl : lineFields (ls ++ middle.flatMap textLines) with
  | none => rfl
  | some hs =>
    have hframe := bodyLength_frame (Str.trim (Str.fromUtf8Lossy p)) hs
    simp only [Option.map_some, Option.bind_eq_bind, Option.bind_some,
      parseRequestLine_toBytes hm.nonempty hm.space ht.1]
    rw [← hframe, bodyLength]
    cases requestFraming (hostField (Str.trim (Str.fromUtf8Lossy p)) :: (hs ++ [connectionField]))
      with
    | none => rfl
    | some framing => cases framing <;> rfl

private theorem header_host (v : Str) (hs : Headers) :
    header (hostField v :: hs) "host" = some v := by
  have h : (hostField v).1.eqIgnoreAsciiCase (Str.lit "host") = true := by
    simp only [hostField]
    decide +kernel
  rw [header, List.find?_cons_of_pos (by exact h)]
  rfl

/-- The target read back from a head written with a clean target. -/
theorem IsOneRequest.target_eq {target' host : Str} {body : Bytes} (hm : MethodText method)
    (ht : ' ' ∉ target ∧ '\n' ∉ target)
    (h : IsOneRequest (headBytes (requestTexts method target authority middle) ++ body)
      target' host body) : target' = target := by
  obtain ⟨-, h, hh, rfl, -, -⟩ := isOneRequest_headBytes_iff.mp h
  obtain ⟨p, ls, hhost, -, -⟩ := textLines_host authority
  rw [h1Head_requestTexts hm ht hhost, Option.bind_eq_some_iff] at hh
  obtain ⟨hs, -, hh⟩ := hh
  obtain ⟨n, -, rfl⟩ := Option.map_eq_some_iff.mp hh
  rfl

theorem isOneRequest_iff {body : Bytes} (hm : MethodText method)
    (hmiddle : ∀ t ∈ middle, ∃ c rest, t = c :: rest ∧ c ∉ headTerminator) :
    IsOneRequest (headBytes (requestTexts method target authority middle) ++ body)
        target authority body ↔
      (' ' ∉ target ∧ '\n' ∉ target) ∧ ('\n' ∉ authority ∧ Str.trim authority = authority) ∧
        MiddleCarries middle body.length := by
  obtain ⟨p, ls, hhost, hp, hclean⟩ := textLines_host authority
  rw [isOneRequest_headBytes_iff]
  constructor
  · rintro ⟨he, h, hh, htarget, hauth, hlen⟩
    have ht := h1Head_target (by simp [requestTexts]) hh
    rw [htarget] at ht
    rw [h1Head_requestTexts hm ht hhost, Option.bind_eq_some_iff] at hh
    obtain ⟨hs, hfields, hh⟩ := hh
    obtain ⟨n, hn, rfl⟩ := Option.map_eq_some_iff.mp hh
    dsimp only at hauth hlen
    rw [header_host] at hauth
    have hv := Option.some.inj hauth
    have hnl : '\n' ∉ authority := by
      rw [← hv]
      exact fun hm => hp (Str.lf_mem_of_mem_fromUtf8Lossy (Str.mem_of_mem_trim hm))
    obtain ⟨-, rfl⟩ := hclean hnl
    refine ⟨ht, ⟨hnl, by rw [← hv, Str.trim_trim]⟩, ?_, hs, hfields, hlen ▸ hn⟩
    exact fun t hmem => inside_of_findHeaderEnd he (by simp [requestTexts, hmem])
  · rintro ⟨ht, ⟨hnl, htrim⟩, hinside, hs, hfields, hn⟩
    obtain ⟨rfl, rfl⟩ := hclean hnl
    have hv : Str.trim (Str.fromUtf8Lossy (32 :: Str.toBytes authority)) = authority := by
      have hblank : Str.fromUtf8Lossy (32 :: Str.toBytes authority) = ' ' :: authority :=
        Str.fromUtf8Lossy_toBytes (' ' :: authority)
      rw [hblank, Str.trim_cons_blank (by decide), htrim]
    refine ⟨findHeaderEnd_texts (by simp [requestTexts]) ?_ body, ?_⟩
    · have hstart : LF ∉ Str.toBytes (method ++ ' ' :: (target ++ ' ' :: Str.lit "HTTP/1.1")) := by
        rw [Str.lf_mem_toBytes]
        have hv : '\n' ∉ Str.lit "HTTP/1.1" := by decide
        simp [hm.lf, ht.2, hv]
      obtain ⟨c, rest, hc, hcT⟩ := hm.start
      intro t hmem
      simp only [requestTexts, List.mem_cons, List.mem_append, List.not_mem_nil, or_false] at hmem
      rcases hmem with rfl | rfl | hmem | rfl
      · rw [Str.toBytes_append, hc, List.cons_append] at hstart ⊢
        exact Passable.of_not_mem hcT hstart
      · have hhead : ascii "Host" = 72 :: ascii "ost" := by decide
        have hlit : LF ∉ 72 :: ascii "ost" := by decide
        rw [hhead, List.cons_append]
        refine Passable.of_not_mem (by decide) ?_
        rw [← List.cons_append, List.mem_append, not_or]
        refine ⟨hlit, fun h => ?_⟩
        rcases List.mem_cons.mp h with h | h
        · exact absurd h (by decide)
        · exact hp h
      · exact ⟨hinside t hmem, hmiddle t hmem⟩
      · exact Passable.of_not_mem (by decide) (by decide)
    · rw [h1Head_requestTexts hm ht hhost, List.nil_append, hfields, Option.bind_some, hn, hv]
      exact ⟨_, rfl, rfl, header_host authority _, rfl⟩

end Request

end Adwarden.Tls
