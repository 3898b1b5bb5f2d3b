import Adwarden.Tls.Har

/-! What can be read off an exported HAR document: all of the transactions that it was written
from. -/
namespace Adwarden.Tls
open Lib Lib.Json Lib.Base64

section Docs

theorem optionalField_append_inj {key : String} {s t : Option Str} {x y : List (Str × Doc)}
    (hx : ∀ m ∈ x, m.1 ≠ Str.lit key) (hy : ∀ m ∈ y, m.1 ≠ Str.lit key)
    (h : optionalField key s ++ x = optionalField key t ++ y) : s = t ∧ x = y := by
  cases s with
  | none =>
    cases t with
    | none => exact ⟨rfl, h⟩
    | some t =>
      have hx' : x = field key (.string t) :: y := h
      exact absurd rfl (hx (field key (.string t)) (hx' ▸ List.mem_cons_self ..))
  | some s =>
    cases t with
    | none =>
      have hy' : field key (.string s) :: x = y := h
      exact absurd rfl (hy (field key (.string s)) (hy' ▸ List.mem_cons_self ..))
    | some t =>
      obtain ⟨hhead, htail⟩ := List.cons.inj h
      have hs : s = t := by simpa [field] using hhead
      exact ⟨congrArg some hs, htail⟩

theorem optionalField_key {key : String} {s : Option Str} :
    ∀ m ∈ optionalField key s, m.1 = Str.lit key := by
  intro m hm
  obtain ⟨t, -, rfl⟩ := List.mem_map.mp hm
  rfl

theorem optionalField_inj {key : String} {s t : Option Str}
    (h : optionalField key s = optionalField key t) : s = t := by
  have hnil : ∀ m ∈ ([] : List (Str × Doc)), m.1 ≠ Str.lit key := by
    intro m hm
    cases hm
  exact (optionalField_append_inj hnil hnil (by rw [h])).1

namespace Har

theorem NameValue.doc_inj {a b : NameValue} (h : a.doc = b.doc) : a = b := by
  cases a
  cases b
  simpa [NameValue.doc, field] using h

private theorem marks_ne {key : String} {encoding comment : Option Str}
    (he : Str.lit "encoding" ≠ Str.lit key) (hc : Str.lit "comment" ≠ Str.lit key) :
    ∀ m ∈ optionalField "encoding" encoding ++ optionalField "comment" comment,
      m.1 ≠ Str.lit key := by
  intro m hm
  rcases List.mem_append.mp hm with hm | hm
  · rw [optionalField_key m hm]
    exact he
  · rw [optionalField_key m hm]
    exact hc

private theorem marks_inj {e e' c c' : Option Str}
    (h : optionalField "encoding" e ++ optionalField "comment" c =
      optionalField "encoding" e' ++ optionalField "comment" c') : e = e' ∧ c = c' := by
  have hne : ∀ (c : Option Str), ∀ m ∈ optionalField "comment" c, m.1 ≠ Str.lit "encoding" := by
    intro c m hm
    rw [optionalField_key m hm]
    decide
  obtain ⟨he, hc⟩ := optionalField_append_inj (hne c) (hne c') h
  exact ⟨he, optionalField_inj hc⟩

theorem PostData.doc_inj {a b : PostData} (h : a.doc = b.doc) : a = b := by
  obtain ⟨m, t, e, c⟩ := a
  obtain ⟨m', t', e', c'⟩ := b
  simp only [PostData.doc, List.cons_append, List.nil_append, field,
    Doc.object.injEq, List.cons.injEq, Prod.mk.injEq, Doc.string.injEq, true_and] at h
  obtain ⟨rfl, rfl, hmarks⟩ := h
  obtain ⟨rfl, rfl⟩ := marks_inj hmarks
  rfl

theorem Content.doc_inj {a b : Content} (h : a.doc = b.doc) : a = b := by
  obtain ⟨n, m, t, e, c⟩ := a
  obtain ⟨n', m', t', e', c'⟩ := b
  simp only [Content.doc, List.append_assoc, List.cons_append, List.nil_append, field,
    Doc.object.injEq, List.cons.injEq, Prod.mk.injEq, Doc.string.injEq, Doc.number.injEq,
    true_and] at h
  obtain ⟨rfl, rfl, hrest⟩ := h
  obtain ⟨rfl, hmarks⟩ := optionalField_append_inj (marks_ne (by decide) (by decide))
    (marks_ne (by decide) (by decide)) hrest
  obtain ⟨rfl, rfl⟩ := marks_inj hmarks
  rfl

private theorem headers_inj {a b : List NameValue}
    (h : a.map NameValue.doc = b.map NameValue.doc) : a = b :=
  List.map_injective_iff.mpr (fun _ _ => NameValue.doc_inj) h

private theorem cookies_inj {a b : List Empty} (h : a.map Empty.doc = b.map Empty.doc) : a = b :=
  List.map_injective_iff.mpr (fun _ _ _ => rfl) h

theorem ReqJson.doc_inj {a b : ReqJson} (h : a.doc = b.doc) : a = b := by
  obtain ⟨method, url, version, cookies, headers, query, post, hs, bs⟩ := a
  obtain ⟨method', url', version', cookies', headers', query', post', hs', bs'⟩ := b
  simp only [ReqJson.doc, List.cons_append, List.nil_append, field,
    Doc.object.injEq, List.cons.injEq, Prod.mk.injEq, Doc.string.injEq, Doc.array.injEq,
    true_and] at h
  obtain ⟨rfl, rfl, rfl, hcookies, hheaders, hquery, hrest⟩ := h
  obtain rfl := cookies_inj hcookies
  obtain rfl := headers_inj hheaders
  obtain rfl := headers_inj hquery
  cases post with
  | none =>
    cases post' with
    | none =>
      simp only [Option.toList_none, List.map_nil, List.nil_append, List.cons.injEq, Prod.mk.injEq,
        Doc.number.injEq, true_and, and_true] at hrest
      obtain ⟨rfl, rfl⟩ := hrest
      rfl
    | some p =>
      have hlen := congrArg List.length hrest
      simp at hlen
  | some p =>
    cases post' with
    | none =>
      have hlen := congrArg List.length hrest
      simp at hlen
    | some q =>
      simp only [Option.toList_some, List.map_cons, List.map_nil, List.cons_append, List.nil_append,
        List.cons.injEq, Prod.mk.injEq, Doc.number.injEq, true_and, and_true] at hrest
      obtain ⟨hpost, rfl, rfl⟩ := hrest
      obtain rfl := PostData.doc_inj hpost
      rfl

theorem RespJson.doc_inj {a b : RespJson} (h : a.doc = b.doc) : a = b := by
  obtain ⟨status, text, version, cookies, headers, content, url, hs, bs⟩ := a
  obtain ⟨status', text', version', cookies', headers', content', url', hs', bs'⟩ := b
  simp only [RespJson.doc, field, Doc.object.injEq, List.cons.injEq, Prod.mk.injEq,
    Doc.string.injEq, Doc.number.injEq, Doc.array.injEq, Nat.cast_inj, true_and, and_true] at h
  obtain ⟨rfl, rfl, rfl, hcookies, hheaders, hcontent, rfl, rfl, rfl⟩ := h
  obtain rfl := cookies_inj hcookies
  obtain rfl := headers_inj hheaders
  obtain rfl := Content.doc_inj hcontent
  rfl

theorem Entry.doc_inj {a b : Entry} (h : a.doc = b.doc) : a = b := by
  obtain ⟨started, time, request, response, cache, send, wait, receive⟩ := a
  obtain ⟨started', time', request', response', cache', send', wait', receive'⟩ := b
  simp only [Entry.doc, Timings.doc, field, Doc.object.injEq, List.cons.injEq, Prod.mk.injEq,
    Doc.string.injEq, Doc.number.injEq, true_and, and_true] at h
  obtain ⟨rfl, rfl, hrequest, hresponse, rfl, rfl, rfl⟩ := h
  obtain rfl := ReqJson.doc_inj hrequest
  obtain rfl := RespJson.doc_inj hresponse
  rfl

end Har

end Docs

theorem asI64_injective : Function.Injective asI64 := by
  intro a b h
  have hi : a.toInt64 = b.toInt64 := Int64.toInt_inj.mp h
  rw [← UInt64.toUInt64_toInt64 a, hi, UInt64.toUInt64_toInt64]

theorem nameValues_injective : Function.Injective nameValues := by
  apply List.map_injective_iff.mpr
  intro a b h
  cases a
  cases b
  simpa using h

private theorem encodes_digits {x text : Bytes} (h : Lib.Base64.Encodes standard x text) :
    ∃ vs, Grouped x vs ∧ text.filter (fun c => c != pad) = vs.map standard := by
  obtain ⟨vs, p, hvs, -, -, rfl⟩ := h
  have hdigit : ∀ v : Fin 64, standard v ≠ pad := by decide
  refine ⟨vs, hvs, ?_⟩
  rw [List.filter_append, List.filter_eq_self.mpr, List.filter_eq_nil_iff.mpr, List.append_nil]
  · intro c hc
    rw [List.eq_of_mem_replicate hc]
    decide
  · intro c hc
    obtain ⟨v, -, rfl⟩ := List.mem_map.mp hc
    exact bne_iff_ne.mpr (hdigit v)

theorem base64Encode_injective : Function.Injective base64Encode := by
  intro x y h
  have hstandard : ∀ v w : Fin 64, standard v = standard w → v = w := by decide +kernel
  obtain ⟨vs, hvs, hx⟩ := encodes_digits (base64Encode_encodes x)
  obtain ⟨ws, hws, hy⟩ := encodes_digits (base64Encode_encodes y)
  rw [h, hy] at hx
  rw [← collectOctets_grouped hvs, ← List.map_injective_iff.mpr (fun v w => hstandard v w) hx,
    collectOctets_grouped hws]

private theorem asciiStr_injective : Function.Injective asciiStr := by
  apply List.map_injective_iff.mpr
  intro a b h
  have hval := congrArg (fun c : Char => c.val.toNat) h
  have ha := a.toNat_lt
  have hb := b.toNat_lt
  simp only [Str.ofNat_val (.inl (show a.toNat < 0xd800 by omega)),
    Str.ofNat_val (.inl (show b.toNat < 0xd800 by omega))] at hval
  exact UInt8.toNat_inj.mp hval

/-- The mark tells how a body was written, and so what it was. -/
theorem bodyText_injective : Function.Injective bodyText := by
  intro x y h
  unfold bodyText at h
  cases hx : Str.fromUtf8 x with
  | some s =>
    cases hy : Str.fromUtf8 y with
    | some t =>
      simp only [hx, hy, Prod.mk.injEq, and_true] at h
      rw [← Str.toBytes_of_fromUtf8 hx, h, Str.toBytes_of_fromUtf8 hy]
    | none => simp [hx, hy] at h
  | none =>
    cases hy : Str.fromUtf8 y with
    | some t => simp [hx, hy] at h
    | none =>
      simp only [hx, hy, Prod.mk.injEq, and_true] at h
      exact base64Encode_injective (asciiStr_injective h)

theorem truncatedComment_injective : Function.Injective truncatedComment := by
  intro a b h
  cases a <;> cases b <;> simp [truncatedComment] at h ⊢

section Stamps

theorem zeroPadded_injective (w : ℕ) : Function.Injective (zeroPadded w) := by
  have hvalue : ∀ n, Nat.ofDigitChars 10 (zeroPadded w n) 0 = n := by
    intro n
    rw [zeroPadded, Nat.ofDigitChars_append, Nat.ofDigitChars_replicate_zero, Nat.mul_zero]
    exact Nat.ofDigitChars_ten_toDigits
  intro m n h
  rw [← hvalue m, h, hvalue n]

theorem zeroPadded_digits {w n : ℕ} : ∀ c ∈ zeroPadded w n, c ≠ '-' := by
  intro c hc
  rcases List.mem_append.mp hc with hc | hc
  · rw [List.eq_of_mem_replicate hc]
    decide
  · rintro rfl
    exact absurd ((digits_toDigits n).2 _ hc) (by decide)

theorem zeroPadded_ne_nil (w n : ℕ) : zeroPadded w n ≠ [] :=
  List.append_ne_nil_of_right_ne_nil _ Nat.toDigits_ne_nil

theorem zeroPadded_length {w n : ℕ} (hw : 0 < w) (h : n < 10 ^ w) : (zeroPadded w n).length = w := by
  have hle : (Str.ofNat n).length ≤ w := (Nat.length_toDigits_le_iff (by decide) hw).mpr h
  rw [zeroPadded, List.length_append, List.length_replicate]
  omega

/-- A number of known width is read off the front. -/
theorem zeroPadded_append_inj {w m n : ℕ} {x y : Str} (hw : 0 < w) (hm : m < 10 ^ w)
    (hn : n < 10 ^ w) (h : zeroPadded w m ++ x = zeroPadded w n ++ y) : m = n ∧ x = y := by
  have hlen : (zeroPadded w m).length = (zeroPadded w n).length := by
    rw [zeroPadded_length hw hm, zeroPadded_length hw hn]
  obtain ⟨hdigits, hrest⟩ := List.append_inj h hlen
  exact ⟨zeroPadded_injective w hdigits, hrest⟩

private theorem dash_inj {a b x y : Str} (ha : ∀ c ∈ a, c ≠ '-') (hb : ∀ c ∈ b, c ≠ '-')
    (h : a ++ '-' :: x = b ++ '-' :: y) : a = b ∧ x = y := by
  have hcut := Str.splitOnce_append (fun hmem => ha _ hmem rfl) x
  rw [h, Str.splitOnce_append (fun hmem => hb _ hmem rfl) y] at hcut
  obtain ⟨hab, hxy⟩ := Prod.mk.inj (Option.some.inj hcut)
  exact ⟨hab.symm, hxy.symm⟩

private theorem signed_ne {w n : ℕ} {x y : Str} : zeroPadded w n ++ x ≠ '-' :: y := by
  obtain ⟨c, s, hs⟩ := List.exists_cons_of_ne_nil (zeroPadded_ne_nil w n)
  have hc : c ≠ '-' := zeroPadded_digits c (hs ▸ List.mem_cons_self ..)
  rw [hs, List.cons_append]
  exact fun h => hc (List.cons.inj h).1

theorem yearText_inj {y z : ℤ} {r s : Str} (h : yearText y ++ '-' :: r = yearText z ++ '-' :: s) :
    y = z ∧ r = s := by
  unfold yearText at h
  split_ifs at h with hy hz hz
  · obtain ⟨hyear, hrest⟩ := dash_inj zeroPadded_digits zeroPadded_digits h
    have := zeroPadded_injective 4 hyear
    exact ⟨by omega, hrest⟩
  · exact absurd h signed_ne
  · exact absurd h.symm signed_ne
  · obtain ⟨hyear, hrest⟩ := dash_inj zeroPadded_digits zeroPadded_digits (List.cons.inj h).2
    have := zeroPadded_injective 3 hyear
    exact ⟨by omega, hrest⟩

theorem stampText_inj {y y' : ℤ} {mo mo' d d' h h' mi mi' s s' ms ms' : ℕ}
    (hmo : mo < 100 ∧ mo' < 100) (hd : d < 100 ∧ d' < 100) (hh : h < 100 ∧ h' < 100)
    (hmi : mi < 100 ∧ mi' < 100) (hs : s < 100 ∧ s' < 100) (hms : ms < 1000 ∧ ms' < 1000)
    (he : stampText y mo d h mi s ms = stampText y' mo' d' h' mi' s' ms') :
    y = y' ∧ mo = mo' ∧ d = d' ∧ h = h' ∧ mi = mi' ∧ s = s' ∧ ms = ms' := by
  simp only [stampText, List.append_assoc, List.singleton_append] at he
  obtain ⟨hyear, he⟩ := yearText_inj he
  obtain ⟨hmonth, he⟩ := zeroPadded_append_inj (w := 2) (by decide) hmo.1 hmo.2 he
  obtain ⟨hday, he⟩ := zeroPadded_append_inj (w := 2) (by decide) hd.1 hd.2 (List.cons.inj he).2
  obtain ⟨hhour, he⟩ := zeroPadded_append_inj (w := 2) (by decide) hh.1 hh.2 (List.cons.inj he).2
  obtain ⟨hmin, he⟩ := zeroPadded_append_inj (w := 2) (by decide) hmi.1 hmi.2 (List.cons.inj he).2
  obtain ⟨hsec, he⟩ := zeroPadded_append_inj (w := 2) (by decide) hs.1 hs.2 (List.cons.inj he).2
  obtain ⟨hmilli, -⟩ := zeroPadded_append_inj (w := 3) (by decide) hms.1 hms.2 (List.cons.inj he).2
  exact ⟨hyear, hmonth, hday, hhour, hmin, hsec, hmilli⟩

/-- The text of a time, with the date that its day number is of. -/
theorem iso8601_text {n : ℕ} (h : n < 2 ^ 64) :
    ∃ date : Gregorian.Date, date.dayNumber = (n / 86400000 : ℕ) ∧ iso8601 n =
      some (stampText date.year date.month date.day (n / 1000 % 86400 / 3600)
        (n / 1000 % 86400 % 3600 / 60) (n / 1000 % 86400 % 60) (n % 1000)) := by
  have hdays : n / 1000 / 86400 < 2 ^ 63 := by omega
  obtain ⟨date, hval, hnum⟩ := @civilFromDays_eq (n / 1000 / 86400 : ℕ) (by omega)
  refine ⟨date, ?_, ?_⟩
  · rw [hnum, Nat.div_div_eq_div_mul]
  · simp only [iso8601, u64AsI64_of hdays, hval]
    rfl

private theorem date_small (date : Gregorian.Date) : date.month < 100 ∧ date.day < 100 := by
  have hmonth := date.month_le
  have hday := date.day_le
  have hlen : Gregorian.daysInMonth date.year date.month ≤ 31 := by
    unfold Gregorian.daysInMonth
    split <;> (try split_ifs) <;> omega
  omega

theorem iso8601_injective {a b : ℕ} (ha : a < 2 ^ 64) (hb : b < 2 ^ 64)
    (h : iso8601 a = iso8601 b) : a = b := by
  obtain ⟨date, hnum, htext⟩ := iso8601_text ha
  obtain ⟨date', hnum', htext'⟩ := iso8601_text hb
  rw [htext, htext', Option.some.injEq] at h
  obtain ⟨hmonth, hday⟩ := date_small date
  obtain ⟨hmonth', hday'⟩ := date_small date'
  obtain ⟨hy, hm, hd, hh, hmi, hs, hms⟩ := stampText_inj ⟨hmonth, hmonth'⟩ ⟨hday, hday'⟩
    (by omega) (by omega) (by omega) (by omega) h
  have hdate : date = date' := Gregorian.Date.ext hy hm hd
  rw [hdate, hnum', Nat.cast_inj] at hnum
  omega

end Stamps

end Adwarden.Tls
