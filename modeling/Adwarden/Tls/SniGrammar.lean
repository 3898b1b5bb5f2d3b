import Adwarden.Rust.Panic
import Adwarden.Rust.Utf8
import Adwarden.Rust.Word
import Adwarden.Tls.Sni

/-! The ClientHello that the peek is for, and the peek with its accesses checked. -/
namespace Adwarden.Tls
open Adwarden.Str

namespace Sni

/-- A length field of two bytes. -/
def len16 (b : Bytes) : Bytes := beBytes16 (.ofNat b.length)

structure Extension where
  kind : UInt16
  body : Bytes

def Extension.encode (e : Extension) : Bytes := beBytes16 e.kind ++ (len16 e.body ++ e.body)

structure NameEntry where
  kind : UInt8
  name : Bytes

def NameEntry.encode (e : NameEntry) : Bytes := e.kind :: (len16 e.name ++ e.name)

/-- A `server_name` list: its first host name, and what stands around it. -/
structure ServerName where
  before : List NameEntry
  host : Str
  after : List NameEntry
  not_host : ∀ e ∈ before, e.kind ≠ 0
  host_ne : host ≠ []

def ServerName.hostEntry (s : ServerName) : NameEntry := ⟨0, toBytes s.host⟩

def ServerName.list (s : ServerName) : Bytes :=
  s.before.flatMap NameEntry.encode ++ (s.hostEntry.encode ++ s.after.flatMap NameEntry.encode)

def ServerName.extension (s : ServerName) : Extension := ⟨0, len16 s.list ++ s.list⟩

end Sni

open Sni

/-- The fields of a ClientHello with a `server_name` extension. -/
structure HelloFields where
  version : Bytes
  random : Bytes
  sessionId : Bytes
  cipherSuites : Bytes
  compression : Bytes
  before : List Extension
  serverName : ServerName
  after : List Extension
  version_len : version.length = 2
  random_len : random.length = 32
  sessionId_len : sessionId.length < 256
  compression_len : compression.length < 256
  not_serverName : ∀ e ∈ before, e.kind ≠ 0

namespace HelloFields

def extensions (c : HelloFields) : Bytes :=
  c.before.flatMap Extension.encode ++
    (c.serverName.extension.encode ++ c.after.flatMap Extension.encode)

def body (c : HelloFields) : Bytes :=
  c.version ++ (c.random ++ (UInt8.ofNat c.sessionId.length :: (c.sessionId ++
    (len16 c.cipherSuites ++ (c.cipherSuites ++ (UInt8.ofNat c.compression.length ::
      (c.compression ++ (len16 c.extensions ++ c.extensions))))))))

def handshake (c : HelloFields) : Bytes :=
  1 :: UInt8.ofNat (c.body.length / 65536) :: (len16 c.body ++ c.body)

end HelloFields

/-- A ClientHello that one record carries. -/
structure ClientHello extends HelloFields where
  fits : toHelloFields.handshake.length < 65536

/-- The record, under any legacy version. -/
def ClientHello.record (c : ClientHello) (legacy : UInt16) : Bytes :=
  0x16 :: (beBytes16 legacy ++ (len16 c.handshake ++ c.handshake))

namespace Sni

section Reads

variable {b x z : Bytes} {o : ℕ}

theorem slice_of_drop (h : b.drop o = x ++ z) : slice b o (o + x.length) = x := by
  rw [slice, List.drop_take, Nat.add_sub_cancel_left, h, List.take_left]

theorem u16_of_drop {n : UInt16} (h : b.drop o = beBytes16 n ++ z) : u16 b o = some n.toNat := by
  have hhi : b[o]? = some (n >>> 8).toUInt8 := get_of_drop h
  have hlo : b[o + 1]? = some n.toUInt8 := get_of_drop (drop_of_drop (x := [(n >>> 8).toUInt8]) h)
  have hn := n.toNat_lt
  have h8 : (8 : UInt16).toNat % 16 = 8 := rfl
  rw [u16, hhi, hlo]
  simp only [UInt16.toNat_toUInt8, UInt16.toNat_shiftRight, h8, Nat.shiftRight_eq_div_pow,
    Option.some.injEq]
  omega

theorem len16_of_drop {y : Bytes} (hy : y.length < 65536) (h : b.drop o = len16 y ++ z) :
    u16 b o = some y.length := by
  rw [u16_of_drop h, UInt16.toNat_ofNat', Nat.mod_eq_of_lt hy]

end Reads

@[simp] theorem len16_length (b : Bytes) : (len16 b).length = 2 := rfl

theorem Extension.encode_length (e : Extension) : e.encode.length = 4 + e.body.length := by
  rw [encode, List.length_append, List.length_append, beBytes16_length, len16_length]
  omega

theorem NameEntry.encode_length (e : NameEntry) : e.encode.length = 3 + e.name.length := by
  rw [encode, List.length_cons, List.length_append, len16_length]
  omega

/-- The loop passes the entries of other kinds and takes the first host name. -/
theorem serverNameLoop_found {ext rest : Bytes} {listEnd : ℕ} {host : Str} (hne : host ≠ [])
    (hfits : listEnd < 65536) {before : List NameEntry} (hbefore : ∀ e ∈ before, e.kind ≠ 0)
    {fuel pos : ℕ} (hfuel : before.length < fuel)
    (hdrop : ext.drop pos =
      before.flatMap NameEntry.encode ++ (NameEntry.encode ⟨0, toBytes host⟩ ++ rest))
    (hend : pos + (before.flatMap NameEntry.encode).length +
      (NameEntry.encode ⟨0, toBytes host⟩).length ≤ listEnd) :
    serverNameLoop ext listEnd fuel pos = .found host.toAsciiLowercase := by
  induction before generalizing pos fuel with
  | nil =>
    obtain ⟨fuel, rfl⟩ := Nat.exists_eq_succ_of_ne_zero (Nat.ne_of_gt hfuel)
    rw [List.flatMap_nil, List.nil_append, NameEntry.encode, List.cons_append,
      List.append_assoc] at hdrop
    rw [List.flatMap_nil, List.length_nil, NameEntry.encode_length] at hend
    dsimp only at hdrop hend
    have hkind : ext[pos]? = some 0 := get_of_drop hdrop
    have hafter : ext.drop (pos + 1) = len16 (toBytes host) ++ (toBytes host ++ rest) :=
      drop_of_drop (x := [0]) hdrop
    have hlen := len16_of_drop (by omega) hafter
    have hname := drop_of_drop hafter
    have hslice := slice_of_drop hname
    rw [len16_length] at hslice
    have hempty : host.isEmpty = false := by simpa using hne
    rw [serverNameLoop]
    simp only [hkind, hlen, Option.getD_some]
    rw [if_pos (by omega), if_neg (by omega), if_pos trivial,
      show slice ext (pos + 3) (pos + 3 + (toBytes host).length) = toBytes host from hslice,
      fromUtf8_toBytes]
    simp [hempty]
  | cons e before ih =>
    obtain ⟨fuel, rfl⟩ := Nat.exists_eq_succ_of_ne_zero (Nat.ne_of_gt (Nat.zero_lt_of_lt hfuel))
    rw [List.flatMap_cons, List.append_assoc] at hdrop
    rw [List.flatMap_cons, List.length_append] at hend
    have hnext := drop_of_drop hdrop
    rw [NameEntry.encode, List.cons_append, List.append_assoc] at hdrop
    rw [NameEntry.encode_length e] at hend hnext
    have hother : ¬ ext[pos]? = some 0 := by
      rw [get_of_drop hdrop]
      exact fun h => hbefore e (List.mem_cons_self ..) (Option.some.inj h)
    have hlen := len16_of_drop (by omega) (drop_of_drop (x := [e.kind]) hdrop)
    rw [List.length_singleton] at hlen
    rw [serverNameLoop]
    simp only [hlen, Option.getD_some]
    rw [if_pos (by omega), if_neg (by omega), if_neg hother]
    rw [← Nat.add_assoc] at hnext
    apply ih (fun e he => hbefore e (List.mem_cons_of_mem _ he)) (by simpa using hfuel) hnext
    omega

/-- The loop passes the other extensions and takes the first server name. -/
theorem extensionsLoop_found {hs rest : Bytes} {extEnd : ℕ} (hfits : extEnd < 65536)
    {before : List Extension} (hbefore : ∀ e ∈ before, e.kind ≠ 0) {body : Bytes} {fuel pos : ℕ}
    (hfuel : before.length < fuel)
    (hdrop : hs.drop pos =
      before.flatMap Extension.encode ++ (Extension.encode ⟨0, body⟩ ++ rest))
    (hend : pos + (before.flatMap Extension.encode).length +
      (Extension.encode ⟨0, body⟩).length ≤ extEnd) :
    extensionsLoop hs extEnd fuel pos = parseServerName body := by
  induction before generalizing pos fuel with
  | nil =>
    obtain ⟨fuel, rfl⟩ := Nat.exists_eq_succ_of_ne_zero (Nat.ne_of_gt hfuel)
    rw [List.flatMap_nil, List.nil_append, Extension.encode, List.append_assoc,
      List.append_assoc] at hdrop
    rw [List.flatMap_nil, List.length_nil, Extension.encode_length] at hend
    dsimp only at hdrop hend
    have hkind : u16 hs pos = some 0 := u16_of_drop hdrop
    have hafter := drop_of_drop hdrop
    have hlen := len16_of_drop (by omega) hafter
    have hslice := slice_of_drop (drop_of_drop hafter)
    rw [beBytes16_length] at hlen hslice
    rw [len16_length] at hslice
    rw [extensionsLoop]
    simp only [hkind, hlen, Option.getD_some]
    rw [if_pos (by omega), if_neg (by omega), if_pos trivial]
    exact congrArg parseServerName hslice
  | cons e before ih =>
    obtain ⟨fuel, rfl⟩ := Nat.exists_eq_succ_of_ne_zero (Nat.ne_of_gt (Nat.zero_lt_of_lt hfuel))
    rw [List.flatMap_cons, List.append_assoc] at hdrop
    rw [List.flatMap_cons, List.length_append] at hend
    have hnext := drop_of_drop hdrop
    rw [Extension.encode, List.append_assoc, List.append_assoc] at hdrop
    rw [Extension.encode_length e] at hend hnext
    have hother : ¬ u16 hs pos = some 0 := by
      rw [u16_of_drop hdrop]
      intro h
      exact hbefore e (List.mem_cons_self ..) (UInt16.toNat_inj.mp (Option.some.inj h))
    have hlen := len16_of_drop (by omega) (drop_of_drop hdrop)
    rw [beBytes16_length] at hlen
    rw [extensionsLoop]
    simp only [hlen, Option.getD_some]
    rw [if_pos (by omega), if_neg (by omega), if_neg hother]
    rw [← Nat.add_assoc] at hnext
    apply ih (fun e he => hbefore e (List.mem_cons_of_mem _ he)) (by simpa using hfuel) hnext
    omega

theorem length_le_flatMap {α : Type} {f : α → Bytes} (hf : ∀ a, 0 < (f a).length) (l : List α) :
    l.length ≤ (l.flatMap f).length := by
  induction l with
  | nil => simp
  | cons a l ih =>
    have := hf a
    rw [List.flatMap_cons, List.length_append, List.length_cons]
    omega

theorem ServerName.parse (s : ServerName) (hfits : s.extension.body.length < 65536) :
    parseServerName s.extension.body = .found s.host.toAsciiLowercase := by
  have hbody : s.extension.body.length = 2 + s.list.length := by
    rw [extension, List.length_append, len16_length]
  have hlen : u16 s.extension.body 0 = some s.list.length :=
    len16_of_drop (z := s.list) (by omega) rfl
  have hlist : s.list.length = (s.before.flatMap NameEntry.encode).length +
      (s.hostEntry.encode.length + (s.after.flatMap NameEntry.encode).length) := by
    rw [list, List.length_append, List.length_append]
  have hbefore := length_le_flatMap (f := NameEntry.encode) (fun e => by simp [NameEntry.encode])
    s.before
  have hend : 2 + (s.before.flatMap NameEntry.encode).length + s.hostEntry.encode.length ≤
      s.extension.body.length := by omega
  rw [parseServerName, hlen]
  dsimp only
  rw [← hbody, Nat.min_self]
  exact serverNameLoop_found s.host_ne hfits s.not_host (by omega) rfl hend

end Sni

namespace ClientHello

variable (c : ClientHello)

theorem handshake_length : c.handshake.length = 4 + c.body.length := by
  rw [HelloFields.handshake, List.length_cons, List.length_cons, List.length_append, len16_length]
  omega

theorem body_length : c.body.length = 34 + (1 + c.sessionId.length + (2 + c.cipherSuites.length +
    (1 + c.compression.length + (2 + c.extensions.length)))) := by
  simp only [HelloFields.body, List.length_append, List.length_cons, len16_length, c.version_len,
    c.random_len]
  omega

theorem extensions_length : c.extensions.length = (c.before.flatMap Extension.encode).length +
    (c.serverName.extension.encode.length + (c.after.flatMap Extension.encode).length) := by
  rw [HelloFields.extensions, List.length_append, List.length_append]

/-- The fields before the extensions are passed one after the other. -/
theorem parse : parseClientHello c.handshake = .found c.serverName.host.toAsciiLowercase := by
  have hfits := c.fits
  have hhs := c.handshake_length
  have hbody := c.body_length
  have hexts := c.extensions_length
  have hsni := Extension.encode_length c.serverName.extension
  have htype : c.handshake[0]? = some 1 := rfl
  have hsid := drop_of_drop (drop_of_drop (show c.handshake.drop 4 = c.version ++ _ from rfl))
  rw [c.version_len, c.random_len, Nat.add_assoc] at hsid
  have hcs := drop_of_drop (drop_of_drop (x := [_]) hsid)
  have hcm := drop_of_drop (drop_of_drop hcs)
  have hext := drop_of_drop (drop_of_drop (x := [_]) hcm)
  have hlist := drop_of_drop (z := c.extensions) hext
  have hcsLen := len16_of_drop (by omega) hcs
  have hextLen := len16_of_drop (z := c.extensions) (by omega) hext
  have hsidLen := get_of_drop hsid
  have hcmLen := get_of_drop hcm
  simp only [List.length_singleton, len16_length, Nat.add_assoc] at hcsLen hextLen hcmLen hlist
  have hsid8 := toNat_ofNat_lt c.sessionId_len
  have hcm8 := toNat_ofNat_lt c.compression_len
  have hbefore := length_le_flatMap (f := Extension.encode)
    (fun e => by rw [Extension.encode_length]; omega) c.before
  rw [parseClientHello, if_neg (by omega), if_neg (not_not.mpr htype)]
  simp only [hsidLen, hsid8, Nat.add_assoc, hcsLen, hcmLen, hcm8, hextLen]
  rw [if_neg (by omega)]
  apply Eq.trans (b := parseServerName c.serverName.extension.body)
  · apply extensionsLoop_found (by omega) c.not_serverName (by omega) hlist
    exact show _ + _ + c.serverName.extension.encode.length ≤ _ by omega
  · exact c.serverName.parse (by omega)

variable (legacy : UInt16)

theorem record_length : (c.record legacy).length = 5 + c.handshake.length := by
  rw [record, List.length_cons, List.length_append, List.length_append, beBytes16_length,
    len16_length]
  omega

/-- Whatever follows it, the record ends where its header says. -/
theorem recordEnd_record {b x : Bytes} (h : c.record legacy <+: b ++ x) (hb : 5 ≤ b.length) :
    recordEnd b = some (c.record legacy).length := by
  obtain ⟨n, hn⟩ := recordEnd_isSome hb
  obtain ⟨y, hy⟩ := h
  have hdrop : (b ++ x).drop 3 = len16 c.handshake ++ (c.handshake ++ y) := by
    rw [← hy]
    simp [record, beBytes16]
  have hlen := len16_of_drop c.fits hdrop
  have hrec : recordEnd (b ++ x) = some (c.record legacy).length := by
    rw [recordEnd, hlen, Option.map_some, c.record_length]
  rw [hn, ← hrec, recordEnd_append x hn]

theorem peek (t : Bytes) :
    peekSni (c.record legacy ++ t) = .found c.serverName.host.toAsciiLowercase := by
  have hlen := c.record_length legacy
  have h0 : (c.record legacy ++ t)[0]? = some 0x16 := rfl
  have hrec : recordEnd (c.record legacy ++ t) = some (c.record legacy).length := by
    apply c.recordEnd_record legacy (x := [])
    · rw [List.append_nil]
      exact List.prefix_append _ _
    · rw [List.length_append]
      omega
  have hslice : slice (c.record legacy ++ t) 5 (5 + c.handshake.length) = c.handshake :=
    slice_of_drop (z := t) rfl
  rw [peekSni, if_neg (by rw [List.length_append]; omega), if_neg (not_not.mpr h0), hrec]
  dsimp only
  rw [if_neg (by rw [List.length_append]; omega), hlen, hslice, c.parse]

theorem peek_prefix {q : Bytes} (hq : q <+: c.record legacy) (hne : q ≠ c.record legacy) :
    peekSni q = .needMore := by
  obtain ⟨x, hx⟩ := hq
  have hlt : q.length < (c.record legacy).length := by
    rw [← hx, List.length_append]
    have hpos : 0 < x.length := by
      rw [List.length_pos_iff]
      intro hnil
      exact hne (by rw [← hx, hnil, List.append_nil])
    omega
  rw [peekSni_eq_needMore, or_iff_not_imp_left, Nat.not_lt]
  intro h5
  constructor
  · have hget : (q ++ x)[0]? = some 0x16 := by
      rw [hx]
      rfl
    rwa [List.getElem?_append_left (by omega)] at hget
  · exact ⟨_, c.recordEnd_record legacy (x := x) (by rw [hx]) h5, hlt⟩

end ClientHello

namespace Sni

/-- `b[i]`. -/
def index (b : Bytes) (i : ℕ) : Except Panic UInt8 :=
  match b[i]? with
  | some x => .ok x
  | none => .error .sliceOutOfRange

/-- `&b[start..stop]`. -/
def range (b : Bytes) (start stop : ℕ) : Except Panic Bytes :=
  if start ≤ stop ∧ stop ≤ b.length then .ok (slice b start stop) else .error .sliceOutOfRange

/-- `serverNameLoop` with the panics of its accesses, run until it is left. -/
def serverNameLoopChecked (ext : Bytes) (listEnd pos : ℕ) : Except Panic SniPeek :=
  if pos + 3 ≤ listEnd then do
    let nameType ← index ext pos
    let nameLen := (u16 ext (pos + 1)).getD 0
    let start := pos + 3
    let stop := start + nameLen
    if listEnd < stop then .ok .none
    else if nameType = 0x00 then do
      let name ← range ext start stop
      match Str.fromUtf8 name with
      | some s => .ok (if s.isEmpty then .none else .found s.toAsciiLowercase)
      | none => .ok .none
    else serverNameLoopChecked ext listEnd stop
  else .ok .none
termination_by listEnd - pos

def parseServerNameChecked (ext : Bytes) : Except Panic SniPeek :=
  match u16 ext 0 with
  | none => .ok .none
  | some listLen => serverNameLoopChecked ext (min (2 + listLen) ext.length) 2

def extensionsLoopChecked (hs : Bytes) (extEnd pos : ℕ) : Except Panic SniPeek :=
  if pos + 4 ≤ extEnd then do
    let extLen := (u16 hs (pos + 2)).getD 0
    let body := pos + 4
    let bodyEnd := body + extLen
    if extEnd < bodyEnd then .ok .none
    else if u16 hs pos = some 0x0000 then do
      let ext ← range hs body bodyEnd
      parseServerNameChecked ext
    else extensionsLoopChecked hs extEnd bodyEnd
  else .ok .none
termination_by extEnd - pos

def parseClientHelloChecked (hs : Bytes) : Except Panic SniPeek :=
  if hs.length < 4 then .ok .none
  else do
    let msgType ← index hs 0
    if msgType ≠ 0x01 then .ok .none
    else
      let pos := 4 + (2 + 32)
      match hs[pos]? with
      | none => .ok .none
      | some sidLen =>
        let pos := pos + (1 + sidLen.toNat)
        match u16 hs pos with
        | none => .ok .none
        | some csLen =>
          let pos := pos + (2 + csLen)
          match hs[pos]? with
          | none => .ok .none
          | some cmLen =>
            let pos := pos + (1 + cmLen.toNat)
            match u16 hs pos with
            | none => .ok .none
            | some extTotal =>
              let pos := pos + 2
              let extEnd := pos + extTotal
              if hs.length < extEnd then .ok .none
              else extensionsLoopChecked hs extEnd pos

end Sni

/-- `peekSni` with the panics of its accesses. -/
def peekSniChecked (buf : Bytes) : Except Panic SniPeek :=
  if buf.length < 5 then .ok .needMore
  else do
    let kind ← index buf 0
    if kind ≠ 0x16 then .ok .none
    else match recordEnd buf with
      | none => .ok .needMore
      | some recEnd =>
        if buf.length < recEnd then .ok .needMore
        else do
          let hs ← range buf 5 recEnd
          parseClientHelloChecked hs

namespace Sni

theorem index_ok {b : Bytes} {i : ℕ} (h : i < b.length) :
    ∃ x, b[i]? = some x ∧ index b i = .ok x := by
  have hget := List.getElem?_eq_getElem h
  exact ⟨b[i], hget, by rw [index, hget]⟩

theorem range_ok {b : Bytes} {start stop : ℕ} (hle : start ≤ stop) (h : stop ≤ b.length) :
    range b start stop = .ok (slice b start stop) := if_pos ⟨hle, h⟩

theorem serverNameLoopChecked_eq {ext : Bytes} {listEnd : ℕ} (hend : listEnd ≤ ext.length)
    {fuel pos : ℕ} (hfuel : listEnd - pos < fuel) :
    serverNameLoopChecked ext listEnd pos = .ok (serverNameLoop ext listEnd fuel pos) := by
  induction fuel generalizing pos with
  | zero => omega
  | succ fuel ih =>
    rw [serverNameLoopChecked, serverNameLoop]
    by_cases hpos : pos + 3 ≤ listEnd
    · obtain ⟨kind, hkind, hindex⟩ := index_ok (show pos < ext.length by omega)
      rw [if_pos hpos, if_pos hpos, hindex, hkind]
      simp only [Except.ok_bind, Option.some.injEq]
      split_ifs with hlist hhost
      · rfl
      · rw [range_ok (Nat.le_add_right _ _) (by omega), Except.ok_bind]
        cases Str.fromUtf8 (slice ext (pos + 3) (pos + 3 + (u16 ext (pos + 1)).getD 0)) with
        | none => rfl
        | some s => rfl
      · exact ih (by omega)
    · rw [if_neg hpos, if_neg hpos]

theorem parseServerNameChecked_eq (ext : Bytes) :
    parseServerNameChecked ext = .ok (parseServerName ext) := by
  unfold parseServerNameChecked parseServerName
  cases u16 ext 0 with
  | none => rfl
  | some listLen => exact serverNameLoopChecked_eq (Nat.min_le_right _ _) (by omega)

theorem extensionsLoopChecked_eq {hs : Bytes} {extEnd : ℕ} (hend : extEnd ≤ hs.length)
    {fuel pos : ℕ} (hfuel : extEnd - pos < fuel) :
    extensionsLoopChecked hs extEnd pos = .ok (extensionsLoop hs extEnd fuel pos) := by
  induction fuel generalizing pos with
  | zero => omega
  | succ fuel ih =>
    rw [extensionsLoopChecked, extensionsLoop]
    by_cases hpos : pos + 4 ≤ extEnd
    · rw [if_pos hpos, if_pos hpos]
      dsimp only
      split_ifs with hbody hkind
      · rfl
      · rw [range_ok (Nat.le_add_right _ _) (by omega), Except.ok_bind,
          parseServerNameChecked_eq]
      · exact ih (by omega)
    · rw [if_neg hpos, if_neg hpos]

theorem parseClientHelloChecked_eq (hs : Bytes) :
    parseClientHelloChecked hs = .ok (parseClientHello hs) := by
  unfold parseClientHelloChecked parseClientHello
  split_ifs with h4 h1
  · rfl
  · obtain ⟨kind, hkind, hindex⟩ := index_ok (show 0 < hs.length by omega)
    rw [hindex, Except.ok_bind, if_pos]
    intro h
    exact h1 (hkind.trans (congrArg some h))
  · obtain ⟨kind, hkind, hindex⟩ := index_ok (show 0 < hs.length by omega)
    rw [hindex, Except.ok_bind, if_neg]
    · dsimp only
      cases hs[4 + (2 + 32)]? with
      | none => rfl
      | some sidLen =>
        dsimp only
        cases u16 hs (4 + (2 + 32) + (1 + sidLen.toNat)) with
        | none => rfl
        | some csLen =>
          dsimp only
          cases hs[4 + (2 + 32) + (1 + sidLen.toNat) + (2 + csLen)]? with
          | none => rfl
          | some cmLen =>
            dsimp only
            cases u16 hs (4 + (2 + 32) + (1 + sidLen.toNat) + (2 + csLen) +
              (1 + cmLen.toNat)) with
            | none => rfl
            | some extTotal =>
              dsimp only
              split_ifs with hext
              · rfl
              · exact extensionsLoopChecked_eq (Nat.not_lt.mp hext) (by omega)
    · rw [not_not]
      exact Option.some.inj (hkind.symm.trans (not_not.mp h1))

end Sni

theorem peekSniChecked_eq (b : Bytes) : peekSniChecked b = .ok (peekSni b) := by
  unfold peekSniChecked peekSni
  split_ifs with h5 h0
  · rfl
  · obtain ⟨kind, hkind, hindex⟩ := index_ok (show 0 < b.length by omega)
    rw [hindex, Except.ok_bind, if_pos]
    intro h
    exact h0 (hkind.trans (congrArg some h))
  · obtain ⟨kind, hkind, hindex⟩ := index_ok (show 0 < b.length by omega)
    rw [hindex, Except.ok_bind, if_neg]
    · obtain ⟨n, hn⟩ := recordEnd_isSome (Nat.not_lt.mp h5)
      have h5n : 5 ≤ n := by
        obtain ⟨k, -, rfl⟩ := Option.map_eq_some_iff.mp hn
        omega
      rw [hn]
      dsimp only
      split_ifs with hlt
      · rfl
      · rw [range_ok h5n (Nat.not_lt.mp hlt), Except.ok_bind, parseClientHelloChecked_eq]
    · rw [not_not]
      exact Option.some.inj (hkind.symm.trans (not_not.mp h0))

/-- The peek finds the name of a ClientHello and waits for the whole of its record; its answers
stand whatever arrives behind them, and no access it makes is out of bounds. -/
theorem peek_exact_stable_total (c : ClientHello) (legacy : UInt16) (t b s : Bytes) :
    peekSni (c.record legacy ++ t) = .found c.serverName.host.toAsciiLowercase ∧
      (∀ q, q <+: c.record legacy → q ≠ c.record legacy → peekSni q = .needMore) ∧
      (peekSni b ≠ .needMore → peekSni (b ++ s) = peekSni b) ∧
      peekSniChecked b = .ok (peekSni b) :=
  ⟨c.peek legacy t, fun _ hq hne => c.peek_prefix legacy hq hne, peekSni_append s,
    peekSniChecked_eq b⟩

example : ∃ c : ClientHello, c.serverName.host = lit "DNS.Google" ∧
    peekSni (c.record 0x0301) = .found (lit "dns.google") :=
  ⟨{ version := [3, 3], random := List.replicate 32 0, sessionId := []
     cipherSuites := [0x13, 1], compression := [0], before := [⟨10, [0, 2, 0, 29]⟩]
     serverName := ⟨[], lit "DNS.Google", [], by simp, by decide⟩, after := []
     version_len := rfl, random_len := rfl, sessionId_len := by decide
     compression_len := by decide, not_serverName := by decide, fits := by decide +kernel },
    rfl, by decide +kernel⟩

end Adwarden.Tls
