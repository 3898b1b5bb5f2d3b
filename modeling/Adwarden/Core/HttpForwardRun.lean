import Adwarden.Core.HttpForward
import Adwarden.Core.HttpHead
import Adwarden.Rust.Utf8

/-! What a run of absolute-URI forwarding emits: the stream of the app is read as requests, each a
head and the body the head declares, and the authority is inserted in front of the origin-form
targets. -/
namespace Adwarden.Core.HttpForward

open Str

/-- The header lines of a head, up to the blank one. -/
def headerLines (head : Bytes) : List Bytes :=
  match findSubsequence CRLF head with
  | none => []
  | some pos =>
    let rest := head.drop (pos + 2)
    (splitCrlf rest.length rest).takeWhile (!·.isEmpty)

def hostValue (line : Bytes) : Option Str :=
  (splitHeader line).bind fun p =>
    if p.1.eqIgnoreAsciiCase (lit "host") then some p.2.trim else none

def hostValues (head : Bytes) : List Str := (headerLines head).filterMap hostValue

/-- The last `Host` value, or the fallback when it is blank or there is none. -/
def authority (fallback : Str) (head : Bytes) : Str :=
  ((hostValues head).getLast?.filter (!·.isEmpty)).getD fallback

def bodyLength (head : Bytes) : ℕ :=
  ((headerLines head).foldl scanField ⟨none, 0, false⟩).contentLength

/-- `http://` and the authority in front of the target, when that begins with a slash. -/
def insertAuthority (authority : Str) (head : Bytes) : Bytes :=
  let start := (head.takeWhile (· != 32)).length + 1
  if head[start]? = some 47 then
    head.take start ++ (ascii "http://" ++ toBytes authority) ++ head.drop start
  else head

section Head

theorem parseRequestLine_ok {line : Bytes} {method target version : Str}
    (h : parseRequestLine line = .ok (method, target, version)) :
    line = toBytes method ++ 32 :: (toBytes target ++ 32 :: toBytes version) ∧ ' ' ∉ method ∧
      target ≠ [] := by
  unfold parseRequestLine at h
  cases htext : fromUtf8 line with
  | none =>
    rw [htext] at h
    cases h
  | some text =>
    rw [htext] at h
    dsimp only at h
    split_ifs at h with hbad
    obtain ⟨hm, ht, hv⟩ := Prod.mk.inj (Except.ok.inj h) |>.imp id Prod.mk.inj
    rw [hm, ht, hv] at hbad
    simp only [Bool.or_eq_true, Bool.not_eq_true', not_or, Bool.not_eq_true, Bool.not_eq_false,
      List.isEmpty_eq_false_iff] at hbad
    obtain ⟨⟨-, htarget⟩, hversion⟩ := hbad
    have hline := toBytes_of_fromUtf8 htext
    simp only [splitn] at hm ht hv
    cases hfirst : splitOnce ' ' text with
    | none =>
      rw [hfirst] at ht
      exact absurd ht.symm htarget
    | some p =>
      obtain ⟨a, b⟩ := p
      obtain ⟨rfl, ha⟩ := splitOnce_some hfirst
      rw [hfirst] at hm ht hv
      dsimp only at hm ht hv
      cases hsecond : splitOnce ' ' b with
      | none =>
        rw [hsecond] at hv
        obtain rfl : [] = version := hv
        exact absurd hversion (by decide)
      | some q =>
        obtain ⟨c, d⟩ := q
        obtain ⟨rfl, -⟩ := splitOnce_some hsecond
        rw [hsecond] at ht hv
        obtain rfl : a = method := hm
        obtain rfl : c = target := ht
        obtain rfl : d = version := hv
        refine ⟨?_, ha, htarget⟩
        rw [← hline, toBytes_append, toBytes_cons, toBytes_append, toBytes_cons]
        rfl

private theorem scanField_host (f : Fields) (line : Bytes) :
    (scanField f line).host.map trim = (hostValue line).or (f.host.map trim) := by
  unfold scanField hostValue
  cases splitHeader line with
  | none => rfl
  | some p =>
    obtain ⟨name, value⟩ := p
    simp only [Option.bind_some]
    split_ifs
    all_goals rfl

private theorem scanFields_host (lines : List Bytes) (f : Fields) :
    (lines.foldl scanField f).host.map trim =
      (lines.filterMap hostValue).getLast?.or (f.host.map trim) := by
  induction lines generalizing f with
  | nil => rfl
  | cons line lines ih =>
    rw [List.foldl_cons, ih, scanField_host]
    cases hv : hostValue line with
    | none => rw [List.filterMap_cons_none hv, Option.none_or]
    | some v =>
      rw [List.filterMap_cons_some hv, List.getLast?_cons]
      cases (lines.filterMap hostValue).getLast? with
      | none => rfl
      | some w => rfl

private theorem takeWhile_word {m : Bytes} (hm : 32 ∉ m) (r : Bytes) :
    (m ++ 32 :: r).takeWhile (· != 32) = m := by
  rw [List.takeWhile_append_of_pos]
  · simp
  · intro x hx
    simp only [bne_iff_ne]
    intro he
    exact hm (he ▸ hx)

private theorem insertAuthority_word {m : Bytes} (hm : 32 ∉ m) (a : Str) (r : Bytes) :
    insertAuthority a (m ++ [32] ++ r) =
      if r.head? = some 47 then m ++ [32] ++ (ascii "http://" ++ toBytes a) ++ r
      else m ++ [32] ++ r := by
  have hword : (m ++ [32] ++ r).takeWhile (· != 32) = m := by
    rw [List.append_assoc]
    exact takeWhile_word hm r
  have hlen : m.length + 1 = (m ++ [32]).length := by simp
  unfold insertAuthority
  rw [hword, hlen]
  dsimp only
  rw [List.getElem?_append_right (Nat.le_refl _), Nat.sub_self, ← List.head?_eq_getElem?,
    List.take_left, List.drop_left]

/-- A target begins with a slash as text when it does as bytes. -/
private theorem slash_iff {target : Str} (h : target ≠ []) (r : Bytes) :
    target.startsWith ['/'] = true ↔ (toBytes target ++ r).head? = some 47 := by
  cases target with
  | nil => exact absurd rfl h
  | cons c target =>
    obtain ⟨b, rest, hb, -⟩ := decodeStep_encode c
    rw [toBytes_cons, hb]
    constructor
    · intro hs
      obtain rfl : '/' = c := by simpa [startsWith] using hs
      exact congrArg List.head? hb.symm
    · intro hs
      obtain rfl : b = 47 := by simpa using hs
      have hc : c = '/' := (ascii_mem_encode (show (47 : UInt8).toNat < 0x80 by decide)).mp (by
        rw [hb]
        exact List.mem_cons_self ..)
      rw [hc, startsWith]
      rfl

/-- What is emitted for an accepted head, and the length of its body. -/
theorem rewriteHead_ok {head bytes : Bytes} {fallback : Str} {n : ℕ}
    (h : rewriteHead head fallback = .ok (bytes, n)) :
    bytes = insertAuthority (authority fallback head) head ∧ n = bodyLength head := by
  unfold rewriteHead at h
  cases hpos : findSubsequence CRLF head with
  | none =>
    rw [hpos] at h
    cases h
  | some pos =>
    rw [hpos] at h
    dsimp only at h
    have hlines : headerLines head = (splitCrlf (head.drop (pos + 2)).length
        (head.drop (pos + 2))).takeWhile (!·.isEmpty) := by
      rw [headerLines, hpos]
    have hauthority : authority fallback head = (((((headerLines head).foldl scanField
        ⟨none, 0, false⟩).host.map trim).filter (!·.isEmpty)).getD fallback) := by
      rw [scanFields_host, authority, hostValues, Option.map_none, Option.or_none]
    rw [← hlines] at h
    cases hline : parseRequestLine (head.take pos) with
    | error e =>
      rw [hline] at h
      cases h
    | ok words =>
      obtain ⟨method, target, version⟩ := words
      obtain ⟨htake, hmethod, htarget⟩ := parseRequestLine_ok hline
      have hspace : 32 ∉ toBytes method := fun hmem =>
        hmethod ((ascii_mem_toBytes (by decide)).mp hmem)
      have hhead : head = toBytes method ++ [32] ++
          (toBytes target ++ (32 :: toBytes version ++ CRLF ++ head.drop (pos + 2))) := by
        obtain ⟨t, ht⟩ := findSubsequence_isPrefix hpos
        have htail : t = head.drop (pos + 2) := by
          rw [← List.drop_drop, ← ht]
          rfl
        have hsplit := List.take_append_drop pos head
        rw [htake, ← ht, htail] at hsplit
        refine hsplit.symm.trans ?_
        simp
      rw [hline] at h
      dsimp only at h
      rw [← hauthority] at h
      split_ifs at h with hchunked hslash
      · obtain ⟨hbytes, hn⟩ := Prod.mk.inj (Except.ok.inj h)
        refine ⟨?_, hn.symm⟩
        have hins := insertAuthority_word hspace (authority fallback head)
          (toBytes target ++ (32 :: toBytes version ++ CRLF ++ head.drop (pos + 2)))
        rw [if_pos ((slash_iff htarget _).mp hslash), ← hhead] at hins
        rw [← hbytes, hins]
        simp [ascii]
      · obtain ⟨hbytes, hn⟩ := Prod.mk.inj (Except.ok.inj h)
        refine ⟨?_, hn.symm⟩
        have hins := insertAuthority_word hspace (authority fallback head)
          (toBytes target ++ (32 :: toBytes version ++ CRLF ++ head.drop (pos + 2)))
        rw [if_neg (mt (slash_iff htarget _).mpr hslash), ← hhead] at hins
        rw [← hbytes, hins, htake]
        refine Eq.trans ?_ hhead.symm
        simp

end Head

/-- A head the rewriter takes, with the body it declares. -/
structure Request (fallback : Str) where
  head : Bytes
  body : Bytes
  complete : IsHead head
  accepted : ∃ r, rewriteHead head fallback = .ok r
  framed : body.length = bodyLength head

/-- The end of a stream: a head that is not complete, or one with a part of its body. -/
inductive Rest (fallback : Str) where
  | head (bytes : Bytes) (pending : findSubsequence [CR, LF, CR, LF] bytes = none)
      (bounded : bytes.length ≤ maxHead)
  | body (head part : Bytes) (complete : IsHead head)
      (accepted : ∃ r, rewriteHead head fallback = .ok r) (short : part.length < bodyLength head)

/-- The stream of an app, read as requests. -/
structure Traffic (fallback : Str) where
  requests : List (Request fallback)
  rest : Rest fallback

variable {fallback : Str}

namespace Rest

def bytes : Rest fallback → Bytes
  | .head bytes _ _ => bytes
  | .body h part _ _ _ => h ++ part

/-- Nothing is emitted for a head that is not complete. -/
def output : Rest fallback → Bytes
  | .head _ _ _ => []
  | .body h part _ _ _ => insertAuthority (authority fallback h) h ++ part

def heads : Rest fallback → List Bytes
  | .head _ _ _ => []
  | .body h _ _ _ _ => [h]

/-- The rewriter that has read so far. -/
def forward : Rest fallback → HttpForward
  | .head bytes _ _ => ⟨fallback, .head, bytes⟩
  | .body h part _ _ _ => ⟨fallback, .body (bodyLength h - part.length), []⟩

end Rest

namespace Traffic

def bytes (t : Traffic fallback) : Bytes :=
  t.requests.flatMap (fun r => r.head ++ r.body) ++ t.rest.bytes

def output (t : Traffic fallback) : Bytes :=
  t.requests.flatMap (fun r => insertAuthority (authority fallback r.head) r.head ++ r.body) ++
    t.rest.output

def heads (t : Traffic fallback) : List Bytes := t.requests.map (·.head) ++ t.rest.heads

def forward (t : Traffic fallback) : HttpForward := t.rest.forward

end Traffic

/-- No stream that begins with `s` is read as requests with heads of the size allowed. -/
def Rejected (fallback : Str) (s : Bytes) : Prop :=
  ∀ (t : Traffic fallback) (x : Bytes), t.bytes = s ++ x → ∃ head ∈ t.heads, maxHead < head.length

section Reading

/-- The end of a stream holds no whole request. -/
theorem Rest.ne_request (rest : Rest fallback) (r : Request fallback) (x : Bytes) :
    rest.bytes ≠ r.head ++ r.body ++ x := by
  intro he
  rw [List.append_assoc] at he
  cases rest with
  | head b pending bounded => exact r.complete.ne_append pending he
  | body h part complete accepted short =>
    obtain ⟨rfl, hpart⟩ := complete.unique r.complete he
    have hlen := congrArg List.length hpart
    rw [List.length_append, r.framed] at hlen
    omega

/-- So is the request. -/
theorem Request.unique (q r : Request fallback) {x y : Bytes}
    (h : q.head ++ (q.body ++ x) = r.head ++ (r.body ++ y)) : q = r ∧ x = y := by
  obtain ⟨hhead, hbehind⟩ := q.complete.unique r.complete h
  obtain ⟨hbody, hmore⟩ := List.append_inj hbehind (by rw [q.framed, r.framed, hhead])
  refine ⟨?_, hmore⟩
  cases q
  cases r
  cases hhead
  cases hbody
  rfl

/-- A stream that begins with some requests is read as these and more. -/
theorem Traffic.align (requests : List (Request fallback)) {t : Traffic fallback} {x : Bytes}
    (h : t.bytes = requests.flatMap (fun r => r.head ++ r.body) ++ x) :
    ∃ more, t.requests = requests ++ more ∧ Traffic.bytes ⟨more, t.rest⟩ = x := by
  obtain ⟨own, rest⟩ := t
  induction requests generalizing own with
  | nil => exact ⟨own, rfl, h⟩
  | cons r requests ih =>
    cases own with
    | nil =>
      rw [Traffic.bytes, List.flatMap_nil, List.nil_append, List.flatMap_cons,
        List.append_assoc] at h
      exact absurd h (rest.ne_request r _)
    | cons q own =>
      simp only [Traffic.bytes, List.flatMap_cons, List.append_assoc] at h
      obtain ⟨rfl, hmore⟩ := q.unique r h
      obtain ⟨more, hreq, hx⟩ := ih own hmore
      exact ⟨more, congrArg _ hreq, hx⟩

/-- A stream is read in one way. -/
theorem Traffic.unique {t t' : Traffic fallback} (h : t.bytes = t'.bytes) : t = t' := by
  obtain ⟨more, hreq, hrest⟩ := Traffic.align t'.requests h
  cases more with
  | cons r more =>
    rw [Traffic.bytes, List.flatMap_cons, List.append_assoc] at hrest
    exact absurd hrest.symm (t'.rest.ne_request r _)
  | nil =>
    obtain ⟨requests, rest⟩ := t
    obtain ⟨requests', rest'⟩ := t'
    obtain rfl : requests = requests' := by simpa using hreq
    congr 1
    rw [Traffic.bytes, List.flatMap_nil, List.nil_append] at hrest
    dsimp only at hrest
    cases rest with
    | head b pending bounded =>
      cases rest' with
      | head b' pending' bounded' =>
        obtain rfl : b = b' := hrest
        rfl
      | body h' part' complete' accepted' short' =>
        exact absurd hrest (complete'.ne_append pending)
    | body h part complete accepted short =>
      cases rest' with
      | head b' pending' bounded' => exact absurd hrest.symm (complete.ne_append pending')
      | body h' part' complete' accepted' short' =>
        obtain ⟨rfl, rfl⟩ := complete.unique complete' hrest
        rfl

end Reading

section Push

/-- A head the rewriter refuses is in the way of every reading. -/
theorem Traffic.ne_refused (t : Traffic fallback) (requests : List (Request fallback))
    {head : Bytes} {e : HttpForwardError} (hhead : IsHead head)
    (he : rewriteHead head fallback = .error e) (x : Bytes) :
    t.bytes ≠ requests.flatMap (fun r => r.head ++ r.body) ++ (head ++ x) := by
  intro ht
  have hno : ∀ {h : Bytes}, h = head → (∃ r, rewriteHead h fallback = .ok r) → False := by
    rintro h rfl ⟨r, hr⟩
    rw [he] at hr
    cases hr
  obtain ⟨more, -, hmore⟩ := Traffic.align requests ht
  cases more with
  | cons q more =>
    rw [Traffic.bytes, List.flatMap_cons, List.append_assoc, List.append_assoc] at hmore
    exact hno (q.complete.unique hhead hmore).1 q.accepted
  | nil =>
    rw [Traffic.bytes, List.flatMap_nil, List.nil_append] at hmore
    cases hrest : t.rest with
    | head b pending bounded =>
      rw [hrest] at hmore
      exact hhead.ne_append pending hmore
    | body h part complete accepted short =>
      rw [hrest] at hmore
      exact hno (complete.unique hhead hmore).1 accepted

private theorem rejected_of_error {requests : List (Request fallback)} {head x : Bytes}
    {e : HttpForwardError} (hhead : IsHead head) (he : rewriteHead head fallback = .error e) :
    Rejected fallback (requests.flatMap (fun r => r.head ++ r.body) ++ (head ++ x)) := by
  intro t y ht
  rw [List.append_assoc, List.append_assoc] at ht
  exact absurd ht (t.ne_refused requests hhead he _)

/-- There is no reading of small heads behind too long a part of one. -/
private theorem rejected_of_long {requests : List (Request fallback)} {b : Bytes}
    (hb : findSubsequence [CR, LF, CR, LF] b = none) (hlong : maxHead < b.length) :
    Rejected fallback (requests.flatMap (fun r => r.head ++ r.body) ++ b) := by
  intro t y ht
  have hlonger : ∀ {h z : Bytes}, IsHead h → h ++ z = b ++ y → maxHead < h.length := by
    intro h z hh he
    by_contra hle
    obtain ⟨z', hz'⟩ : h <+: b := by
      refine List.prefix_of_prefix_length_le ⟨z, he⟩ ⟨y, rfl⟩ ?_
      omega
    exact hh.ne_append hb hz'.symm
  rw [List.append_assoc] at ht
  obtain ⟨more, hreq, hmore⟩ := Traffic.align requests ht
  cases more with
  | cons q more =>
    rw [Traffic.bytes, List.flatMap_cons, List.append_assoc, List.append_assoc] at hmore
    refine ⟨q.head, ?_, hlonger q.complete hmore⟩
    rw [Traffic.heads, hreq]
    simp
  | nil =>
    rw [Traffic.bytes, List.flatMap_nil, List.nil_append] at hmore
    cases hrest : t.rest with
    | head p pending bounded =>
      exfalso
      rw [hrest] at hmore
      have hlen := congrArg List.length (show p = b ++ y from hmore)
      rw [List.length_append] at hlen
      omega
    | body h part complete accepted short =>
      rw [hrest] at hmore
      refine ⟨h, ?_, hlonger complete hmore⟩
      rw [Traffic.heads, hrest]
      exact List.mem_append_right _ (List.mem_singleton_self h)

theorem pushLoop_nil (n : ℕ) (f : HttpForward) (out : Bytes) :
    pushLoop n f [] out = (.ok out, f) := by
  cases n with
  | zero => rfl
  | succ n => rw [pushLoop, if_pos rfl]

/-- Passing on a part of the body. -/
theorem pushLoop_body (n : ℕ) {requests : List (Request fallback)} {h part input : Bytes}
    (out : Bytes) (complete : IsHead h) (accepted : ∃ r, rewriteHead h fallback = .ok r)
    (short : part.length < bodyLength h) (hne : input ≠ []) :
    ∃ (t : Traffic fallback) (took : ℕ), 0 < took ∧
      t.bytes = requests.flatMap (fun r => r.head ++ r.body) ++ (h ++ part) ++ input.take took ∧
      t.output = requests.flatMap
        (fun r => insertAuthority (authority fallback r.head) r.head ++ r.body) ++
          (insertAuthority (authority fallback h) h ++ part) ++ input.take took ∧
      pushLoop (n + 1) ⟨fallback, .body (bodyLength h - part.length), []⟩ input out =
        pushLoop n t.forward (input.drop took) (out ++ input.take took) := by
  have hpos := List.length_pos_of_ne_nil hne
  rw [pushLoop, if_neg hne]
  dsimp only
  generalize hk : min (bodyLength h - part.length) input.length = k
  have htake : (part ++ input.take k).length = part.length + k := by
    rw [List.length_append, List.length_take]
    omega
  have hbytes : h ++ (part ++ input.take k) = h ++ part ++ input.take k := by
    rw [List.append_assoc]
  split_ifs with hlast
  · have framed : (part ++ input.take k).length = bodyLength h := by omega
    refine ⟨⟨requests ++ [⟨h, part ++ input.take k, complete, accepted, framed⟩],
      .head [] rfl (Nat.zero_le _)⟩, k, by omega, ?_, ?_, rfl⟩
    · simp [Traffic.bytes, Rest.bytes]
    · simp [Traffic.output, Rest.output]
  · have short' : (part ++ input.take k).length < bodyLength h := by omega
    refine ⟨⟨requests, .body h (part ++ input.take k) complete accepted short'⟩, k, by omega,
      ?_, ?_, ?_⟩
    · simp [Traffic.bytes, Rest.bytes]
    · simp [Traffic.output, Rest.output]
    · rw [Traffic.forward, Rest.forward, htake, Nat.sub_sub]

/-- Completing a head, or running out of input in it. -/
theorem pushLoop_head (n : ℕ) {requests : List (Request fallback)} {b input : Bytes} (out : Bytes)
    (pending : findSubsequence [CR, LF, CR, LF] b = none) (hne : input ≠ []) :
    (∃ (t : Traffic fallback) (took : ℕ) (emitted : Bytes), 0 < took ∧
      t.bytes = requests.flatMap (fun r => r.head ++ r.body) ++ b ++ input.take took ∧
      t.output = requests.flatMap
        (fun r => insertAuthority (authority fallback r.head) r.head ++ r.body) ++ emitted ∧
      pushLoop (n + 1) ⟨fallback, .head, b⟩ input out =
        pushLoop n t.forward (input.drop took) (out ++ emitted)) ∨
    ∃ e g, pushLoop (n + 1) ⟨fallback, .head, b⟩ input out = (.error e, g) ∧
      Rejected fallback (requests.flatMap (fun r => r.head ++ r.body) ++ (b ++ input)) := by
  rw [pushLoop, if_neg hne]
  dsimp only
  cases hfind : findSubsequence [CR, LF, CR, LF] (b ++ input) with
  | none =>
    dsimp only
    split_ifs with hlong
    · right
      exact ⟨_, _, rfl, rejected_of_long hfind hlong⟩
    · left
      refine ⟨⟨requests, .head (b ++ input) hfind (Nat.not_lt.mp hlong)⟩, input.length, [],
        List.length_pos_of_ne_nil hne, ?_, ?_, ?_⟩
      · simp [Traffic.bytes, Rest.bytes]
      · simp [Traffic.output, Rest.output]
      · rw [List.drop_length, List.append_nil, pushLoop_nil]
        rfl
  | some pos =>
    dsimp only
    have hlong := findSubsequence_append_none (by simp) pending hfind
    have hle := findSubsequence_le hfind
    have complete := isHead_take hfind
    have htook : min (pos + 4 - b.length) input.length = pos + 4 - b.length := by
      rw [List.length_append] at hle
      exact Nat.min_eq_left (by simp at hle; omega)
    have hhead : (b ++ input).take (pos + 4) = b ++ input.take (pos + 4 - b.length) := by
      rw [List.take_append, List.take_of_length_le (by simp at hlong; omega)]
    cases hrewrite : rewriteHead ((b ++ input).take (pos + 4)) fallback with
    | error e =>
      right
      refine ⟨_, _, rfl, ?_⟩
      rw [← List.take_append_drop (pos + 4) (b ++ input)]
      exact rejected_of_error complete hrewrite
    | ok r =>
      obtain ⟨bytes, len⟩ := r
      obtain ⟨hbytes, rfl⟩ := rewriteHead_ok hrewrite
      left
      dsimp only
      rw [htook]
      have hpositive : 0 < pos + 4 - b.length := by simp at hlong; omega
      split_ifs with hbody
      · refine ⟨⟨requests, .body _ [] complete ⟨_, hrewrite⟩ hbody⟩, _, bytes,
          hpositive, ?_, ?_, ?_⟩
        · simp [Traffic.bytes, Rest.bytes, hhead]
        · simp [Traffic.output, Rest.output, hbytes]
        · rfl
      · have framed : ([] : Bytes).length = bodyLength ((b ++ input).take (pos + 4)) :=
          (Nat.eq_zero_of_not_pos hbody).symm
        refine ⟨⟨requests ++ [⟨_, [], complete, ⟨_, hrewrite⟩, framed⟩],
          .head [] rfl (Nat.zero_le _)⟩, _, bytes, hpositive, ?_, ?_, rfl⟩
        · simp [Traffic.bytes, Rest.bytes, hhead]
        · simp [Traffic.output, Rest.output, hbytes]

/-- A push reads on, or finds that the stream cannot be read. -/
theorem pushLoop_spec (n : ℕ) (t : Traffic fallback) (input out : Bytes) (hn : input.length < n) :
    (∃ (t' : Traffic fallback) (emitted : Bytes), t'.bytes = t.bytes ++ input ∧
      t'.output = t.output ++ emitted ∧
      pushLoop n t.forward input out = (.ok (out ++ emitted), t'.forward)) ∨
    ∃ e g, pushLoop n t.forward input out = (.error e, g) ∧
      Rejected fallback (t.bytes ++ input) := by
  induction n generalizing t input out with
  | zero => omega
  | succ n ih =>
    by_cases hne : input = []
    · left
      rw [hne, pushLoop_nil]
      exact ⟨t, [], by simp, by simp, by simp⟩
    -- a turn that has read on from `t` to `t'`
    have hturn : ∀ {t' : Traffic fallback} {took : ℕ} {emitted : Bytes}, 0 < took →
        t'.bytes = t.bytes ++ input.take took → t'.output = t.output ++ emitted →
        pushLoop (n + 1) t.forward input out =
          pushLoop n t'.forward (input.drop took) (out ++ emitted) →
        (∃ (t'' : Traffic fallback) (more : Bytes), t''.bytes = t.bytes ++ input ∧
          t''.output = t.output ++ more ∧
          pushLoop (n + 1) t.forward input out = (.ok (out ++ more), t''.forward)) ∨
        ∃ e g, pushLoop (n + 1) t.forward input out = (.error e, g) ∧
          Rejected fallback (t.bytes ++ input) := by
      intro t' took emitted hpos hbytes houtput hloop
      have hall : t'.bytes ++ input.drop took = t.bytes ++ input := by
        rw [hbytes, List.append_assoc, List.take_append_drop]
      have hshort : (input.drop took).length < n := by
        have := List.length_pos_of_ne_nil hne
        rw [List.length_drop]
        omega
      rcases ih t' (input.drop took) (out ++ emitted) hshort with
        ⟨t'', more, hb, ho, hp⟩ | ⟨e, g, hp, hrej⟩
      · left
        refine ⟨t'', emitted ++ more, hb.trans hall, ?_, ?_⟩
        · rw [ho, houtput, List.append_assoc]
        · rw [hloop, hp, List.append_assoc]
      · right
        exact ⟨e, g, hloop.trans hp, hall ▸ hrej⟩
    obtain ⟨requests, rest⟩ := t
    cases rest with
    | head b pending bounded =>
      rcases @pushLoop_head _ n requests _ _ out pending hne with
        ⟨t', took, emitted, hpos, hb, ho, hp⟩ | ⟨e, g, hp, hrej⟩
      · exact hturn hpos hb (by rw [ho]; simp [Traffic.output, Rest.output]) hp
      · right
        refine ⟨e, g, hp, ?_⟩
        rw [Traffic.bytes, List.append_assoc]
        exact hrej
    | body h part complete accepted short =>
      obtain ⟨t', took, hpos, hb, ho, hp⟩ :=
        @pushLoop_body _ n requests _ _ _ out complete accepted short hne
      exact hturn hpos hb ho hp

end Push

/-- Push after push, until one fails. -/
def pushAll : HttpForward → List Bytes → Except HttpForwardError Bytes × HttpForward
  | f, [] => (.ok [], f)
  | f, piece :: pieces =>
    match f.push piece with
    | (.error e, f) => (.error e, f)
    | (.ok out, f) =>
      match pushAll f pieces with
      | (.error e, f) => (.error e, f)
      | (.ok more, f) => (.ok (out ++ more), f)

section Run

/-- Nothing has been read. -/
def Traffic.none (fallback : Str) : Traffic fallback := ⟨[], .head [] rfl (Nat.zero_le _)⟩

private theorem Rejected.append {s : Bytes} (h : Rejected fallback s) (x : Bytes) :
    Rejected fallback (s ++ x) := by
  intro t y ht
  exact h t (x ++ y) (by rw [ht, List.append_assoc])

theorem pushAll_spec (t : Traffic fallback) (pieces : List Bytes) :
    (∃ (t' : Traffic fallback) (out : Bytes), t'.bytes = t.bytes ++ pieces.flatten ∧
      t'.output = t.output ++ out ∧ pushAll t.forward pieces = (.ok out, t'.forward)) ∨
    ∃ e g, pushAll t.forward pieces = (.error e, g) ∧
      Rejected fallback (t.bytes ++ pieces.flatten) := by
  induction pieces generalizing t with
  | nil =>
    left
    exact ⟨t, [], by simp, by simp, rfl⟩
  | cons piece pieces ih =>
    have hpush := pushLoop_spec (2 * piece.length + 1) t piece [] (by omega)
    simp only [List.nil_append] at hpush
    rw [List.flatten_cons, ← List.append_assoc, pushAll, push]
    rcases hpush with ⟨t', out, hbytes, houtput, hrun⟩ | ⟨e, g, hrun, hrej⟩
    · rw [hrun, ← hbytes]
      dsimp only
      rcases ih t' with ⟨t'', more, hbytes', houtput', hrun'⟩ | ⟨e, g, hrun', hrej⟩
      · left
        rw [hrun']
        exact ⟨t'', out ++ more, hbytes', by rw [houtput', houtput, List.append_assoc], rfl⟩
      · right
        rw [hrun']
        exact ⟨e, g, rfl, hrej⟩
    · right
      rw [hrun]
      exact ⟨e, g, rfl, hrej.append pieces.flatten⟩

/-- Forwarding reads the stream as requests and inserts the authority in front of the origin-form
targets, for every split into pushes. -/
theorem forwarding_exact (fallback : Str) (pieces : List Bytes) {out : Bytes} {f : HttpForward}
    (h : pushAll (new fallback) pieces = (.ok out, f)) :
    ∃ t : Traffic fallback, t.bytes = pieces.flatten ∧ out = t.output ∧
      (∀ t' : Traffic fallback, t'.bytes = pieces.flatten → t' = t) ∧
      ∀ pieces' : List Bytes, pieces'.flatten = pieces.flatten →
        (∀ out' f', pushAll (new fallback) pieces' = (.ok out', f') → out' = out) ∧
        ((∀ head ∈ t.heads, head.length ≤ maxHead) →
          pushAll (new fallback) pieces' = (.ok out, f)) := by
  have hspec : ∀ pieces, _ := fun pieces => pushAll_spec (Traffic.none fallback) pieces
  have hbegin : (Traffic.none fallback).forward = new fallback := rfl
  have hbytes : (Traffic.none fallback).bytes = [] := rfl
  have houtput : (Traffic.none fallback).output = [] := rfl
  simp only [hbegin, hbytes, houtput, List.nil_append] at hspec
  rcases hspec pieces with ⟨t, o, ht, ho, hrun⟩ | ⟨e, g, hrun, -⟩
  · obtain ⟨rfl, rfl⟩ : o = out ∧ t.forward = f := by simpa [hrun] using h
    refine ⟨t, ht, ho.symm, fun t' ht' => Traffic.unique (ht'.trans ht.symm), ?_⟩
    intro pieces' hsame
    rcases hspec pieces' with ⟨t', o', ht', ho', hrun'⟩ | ⟨e, g, hrun', hrej⟩
    · obtain rfl : t' = t := Traffic.unique (ht'.trans (hsame.trans ht.symm))
      obtain rfl : o' = o := ho'.symm.trans ho
      refine ⟨?_, fun _ => hrun'⟩
      intro out' f' h'
      rw [hrun'] at h'
      exact (Except.ok.inj (Prod.mk.inj h').1).symm
    · refine ⟨?_, ?_⟩
      · intro out' f' h'
        rw [hrun'] at h'
        cases h'
      · intro hsmall
        obtain ⟨head, hmem, hlong⟩ := hrej t [] (by rw [ht, hsame, List.append_nil])
        exact absurd (hsmall head hmem) (Nat.not_le.mpr hlong)
  · rw [h] at hrun
    cases hrun

def postPieces : List Bytes :=
  [ascii "POST /p HT", ascii "TP/1.1\r\nHost: h\r\nContent-Length: 2\r\n\r", ascii "\nh", ascii "i"]

def postForwarded : Bytes := ascii "POST http://h/p HTTP/1.1\r\nHost: h\r\nContent-Length: 2\r\n\r\nhi"

theorem forwarding_exact_post :
    ∃ t : Traffic (lit "f"), t.bytes = postPieces.flatten ∧ postForwarded = t.output ∧
      (∀ t' : Traffic (lit "f"), t'.bytes = postPieces.flatten → t' = t) ∧
      ∀ pieces' : List Bytes, pieces'.flatten = postPieces.flatten →
        (∀ out' f', pushAll (new (lit "f")) pieces' = (.ok out', f') → out' = postForwarded) ∧
        ((∀ head ∈ t.heads, head.length ≤ maxHead) →
          pushAll (new (lit "f")) pieces' = (.ok postForwarded, new (lit "f"))) :=
  forwarding_exact (lit "f") postPieces (by decide +kernel)

def twoHosts : Bytes := ascii "GET / HTTP/1.1\r\nHost: a\r\nHost: \r\n\r\n"

/-- A blank last `Host` hides the one before it: the fallback is used. -/
theorem blank_host_hides :
    ((hostValues twoHosts).filter (!·.isEmpty)).getLast? = some (lit "a") ∧
      pushAll (new (lit "f")) [twoHosts] =
        (.ok (insertAuthority (lit "f") twoHosts), new (lit "f")) ∧
      insertAuthority (lit "f") twoHosts ≠ insertAuthority (lit "a") twoHosts := by
  refine ⟨?_, ?_, ?_⟩
  all_goals decide +kernel

end Run

end Adwarden.Core.HttpForward
