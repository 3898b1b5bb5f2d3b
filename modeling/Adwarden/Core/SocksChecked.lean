import Adwarden.Core.SocksCodec
import Adwarden.Dns.Checked

/-! The readers of SOCKS5 with their index expressions, slices and sums as the language checks
them, and the handshake that calls them. -/
namespace Adwarden.Core
open Adwarden.Lib
open Adwarden.Dns (index slice index_of_some slice_of_le)

/-- `octets.copy_from_slice(b)`, which wants `n` bytes. -/
def copyToArray (n : ℕ) (b : Bytes) : Except Panic (List.Vector UInt8 n) :=
  if h : b.length = n then .ok ⟨b, h⟩ else .error .sliceOutOfRange

namespace Checked

def v4At (b : Bytes) (o : ℕ) : Except Panic IpAddr := do
  let b0 ← index b o
  let b1 ← index b (o + 1)
  let b2 ← index b (o + 2)
  let b3 ← index b (o + 3)
  .ok (.ofOctets b0 b1 b2 b3)

def v6At (b : Bytes) (o : ℕ) : Except Panic IpAddr := do
  let octets ← slice b o (o + 16)
  let octets ← copyToArray 16 octets
  .ok (.v6 octets)

def portAt (b : Bytes) (o : ℕ) : Except Panic UInt16 := do
  let hi ← index b o
  let lo ← index b (o + 1)
  .ok (hi.toUInt16 <<< 8 ||| lo.toUInt16)

/-- The sum of the lengths, and whether the buffer has that many bytes. -/
def replyTotal (p : Profile) (buf : Bytes) (addrLen : ℕ) :
    Except Panic (Except ProxyError (Option ℕ)) := do
  let total ← usizeAdd p 4 addrLen
  let total ← usizeAdd p total 2
  .ok (.ok (if buf.length < total then none else some total))

def socks5ReplyLen (p : Profile) (buf : Bytes) : Except Panic (Except ProxyError (Option ℕ)) := do
  if buf.length < 4 then .ok (.ok none)
  else
    let atyp ← index buf 3
    if atyp = 0x01 then replyTotal p buf 4
    else if atyp = 0x04 then replyTotal p buf 16
    else if atyp = 0x03 then
      if buf.length < 5 then .ok (.ok none)
      else
        let len ← index buf 4
        let addrLen ← usizeAdd p 1 len.toNat
        replyTotal p buf addrLen
    else .ok (.error .socks5Malformed)

def parseSocks5Bound (reply : Bytes) : Except Panic (Option SocketAddr) :=
  match reply[3]? with
  | none => .ok none
  | some atyp =>
    if atyp = 0x01 then do
      let ip ← v4At reply 4
      let port ← portAt reply 8
      .ok (some ⟨ip, port⟩)
    else if atyp = 0x04 then do
      let ip ← v6At reply 4
      let port ← portAt reply 20
      .ok (some ⟨ip, port⟩)
    else .ok none

/-- The port behind the address, and the payload behind the port. -/
def datagramAt (dgram : Bytes) (ip : IpAddr) (addrEnd : ℕ) :
    Except Panic (Option (SocketAddr × Bytes)) := do
  let port ← portAt dgram addrEnd
  let payload ← slice dgram (addrEnd + 2) dgram.length
  .ok (some (⟨ip, port⟩, payload))

def socks5UdpDecapsulate (dgram : Bytes) : Except Panic (Option (SocketAddr × Bytes)) := do
  if dgram.length < 4 then .ok none
  else
    let frag ← index dgram 2
    if frag ≠ 0x00 then .ok none
    else
      let atyp ← index dgram 3
      if atyp = 0x01 then
        if dgram.length < 10 then .ok none
        else
          let ip ← v4At dgram 4
          datagramAt dgram ip 8
      else if atyp = 0x04 then
        if dgram.length < 22 then .ok none
        else
          let ip ← v6At dgram 4
          datagramAt dgram ip 20
      else .ok none

/-- One transition of the handshake. -/
def socks5Step (p : Profile) (h : Handshake) (phase : Socks5Phase) (command : Socks5Command) :
    Except Panic (Except ProxyError Step × Handshake) :=
  let enter (phase : Socks5Phase) (inbuf : Bytes) : Handshake :=
    { h with machine := .socks5 phase command, inbuf := inbuf }
  match phase with
  | .start => .ok (.ok (.write (socks5Greeting h.username.isSome)), enter .greeted h.inbuf)
  | .greeted => do
    if h.inbuf.length < 2 then .ok (.ok .read, h)
    else
      let version ← index h.inbuf 0
      if version ≠ 0x05 then .ok (.error (.socks5Version version), h)
      else
        let method ← index h.inbuf 1
        let cut ← splitAt h.inbuf 2
        if method = 0x00 then
          .ok (.ok (.write (socks5Request command h.target)), enter .requested cut.2)
        else match method, h.username with
          | 0x02, some user =>
            .ok (.ok (.write (socks5Userpass user (h.password.getD []))), enter .authed cut.2)
          | _, _ => .ok (.error .socks5NoAcceptableAuth, enter .greeted cut.2)
  | .authed => do
    if h.inbuf.length < 2 then .ok (.ok .read, h)
    else
      let status ← index h.inbuf 1
      let cut ← splitAt h.inbuf 2
      if status ≠ 0 then .ok (.error (.socks5AuthFailed status), enter .authed cut.2)
      else .ok (.ok (.write (socks5Request command h.target)), enter .requested cut.2)
  | .requested => do
    match ← socks5ReplyLen p h.inbuf with
    | .error e => .ok (.error e, h)
    | .ok none => .ok (.ok .read, h)
    | .ok (some replyLen) =>
      let version ← index h.inbuf 0
      if version ≠ 0x05 then .ok (.error (.socks5Version version), h)
      else
        let rep ← index h.inbuf 1
        if rep ≠ 0x00 then .ok (.error (.socks5Reply rep), h)
        else
          let reply ← slice h.inbuf 0 replyLen
          let bound ← parseSocks5Bound reply
          let cut ← splitAt h.inbuf replyLen
          .ok (.ok (.done cut.2), { h with inbuf := cut.1, bound := bound })

end Checked

section Reads

variable {b : Bytes}

theorem index_of_lt {i : ℕ} (h : i < b.length) : index b i = .ok (b.getD i 0) := by
  apply index_of_some
  rw [List.getD_eq_getElem?_getD, List.getElem?_eq_getElem h]
  rfl

theorem index_of_le {i : ℕ} (h : b.length ≤ i) : index b i = .error .sliceOutOfRange := by
  rw [index, List.getElem?_eq_none h]

theorem vectorAt_toList {n o : ℕ} (h : o + n ≤ b.length) :
    (vectorAt n b o).toList = (b.take (o + n)).drop o := by
  rw [vectorAt, List.Vector.toList_ofFn]
  apply List.ext_getElem
  · rw [List.length_ofFn, List.length_drop, List.length_take]
    omega
  · intro i hi hi'
    rw [List.length_ofFn] at hi
    rw [List.getElem_ofFn, List.getElem_drop, List.getElem_take, List.getD_eq_getElem?_getD,
      List.getElem?_eq_getElem (by omega)]
    rfl

theorem Checked.v4At_eq (b : Bytes) (o : ℕ) : Checked.v4At b o =
    if o + 4 ≤ b.length then .ok (.v4 (vectorAt 4 b o)) else .error .sliceOutOfRange := by
  have hread : ∀ i, index b i =
      if i < b.length then .ok (b.getD i 0) else .error .sliceOutOfRange := by
    intro i
    split_ifs with hi
    · exact index_of_lt hi
    · exact index_of_le (Nat.not_lt.mp hi)
  simp only [Checked.v4At, hread]
  split_ifs <;> first | rfl | omega

theorem Checked.portAt_eq (b : Bytes) (o : ℕ) : Checked.portAt b o =
    if o + 2 ≤ b.length then .ok (Core.portAt b o) else .error .sliceOutOfRange := by
  by_cases hroom : o + 2 ≤ b.length
  · rw [Checked.portAt, index_of_lt (by omega), index_of_lt (by omega), if_pos hroom]
    rfl
  · rw [Checked.portAt, if_neg hroom]
    by_cases ho : o < b.length
    · rw [index_of_lt ho, index_of_le (by omega)]
      rfl
    · rw [index_of_le (by omega)]
      rfl

theorem Checked.v6At_eq (b : Bytes) (o : ℕ) : Checked.v6At b o =
    if o + 16 ≤ b.length then .ok (.v6 (vectorAt 16 b o)) else .error .sliceOutOfRange := by
  by_cases hroom : o + 16 ≤ b.length
  · have hlen : ((b.take (o + 16)).drop o).length = 16 := by
      rw [List.length_drop, List.length_take]
      omega
    have hvec : (⟨(b.take (o + 16)).drop o, hlen⟩ : List.Vector UInt8 16) = vectorAt 16 b o :=
      Subtype.ext (vectorAt_toList hroom).symm
    rw [Checked.v6At, slice_of_le (Nat.le_add_right _ _) hroom, Except.ok_bind, copyToArray,
      dif_pos hlen, hvec, if_pos hroom]
    rfl
  · rw [Checked.v6At, slice, if_neg fun h => hroom h.2, if_neg hroom]
    rfl

end Reads

section Readers

variable {b : Bytes}

theorem Checked.replyTotal_eq (p : Profile) (b : Bytes) {addrLen : ℕ} (h : addrLen ≤ 256) :
    Checked.replyTotal p b addrLen =
      .ok (.ok (if b.length < 4 + addrLen + 2 then none else some (4 + addrLen + 2))) := by
  have hsize : 4 + 256 + 2 < usizeSize := by decide
  rw [Checked.replyTotal, usizeAdd_of_lt (by omega), Except.ok_bind, usizeAdd_of_lt (by omega)]
  rfl

/-- Measuring a reply panics on no bytes. -/
theorem Checked.socks5ReplyLen_eq (p : Profile) (b : Bytes) :
    Checked.socks5ReplyLen p b = .ok (Core.socks5ReplyLen b) := by
  unfold Checked.socks5ReplyLen Core.socks5ReplyLen
  by_cases hlen : b.length < 4
  · rw [if_pos hlen, if_pos hlen]
  have hatyp : b[3]? = some b[3] := List.getElem?_eq_getElem (by omega)
  rw [if_neg hlen, if_neg hlen, index_of_some hatyp, Except.ok_bind]
  simp only [hatyp, Option.some.injEq]
  by_cases hv4 : b[3] = 0x01
  · rw [if_pos hv4, if_pos hv4]
    exact Checked.replyTotal_eq p b (by decide)
  rw [if_neg hv4, if_neg hv4]
  by_cases hv6 : b[3] = 0x04
  · rw [if_pos hv6, if_pos hv6]
    exact Checked.replyTotal_eq p b (by decide)
  rw [if_neg hv6, if_neg hv6]
  by_cases hname : b[3] = 0x03
  · rw [if_pos hname, if_pos hname]
    by_cases hroom : b.length < 5
    · rw [if_pos hroom, List.getElem?_eq_none (by omega)]
    · have hsize : 1 + 256 < usizeSize := by decide
      have hbyte : b[4]? = some b[4] := List.getElem?_eq_getElem (by omega)
      have hlt := b[4].toNat_lt
      rw [if_neg hroom, index_of_some hbyte, hbyte, Except.ok_bind, usizeAdd_of_lt (by omega),
        Except.ok_bind]
      exact Checked.replyTotal_eq p b (by omega)
  · rw [if_neg hname, if_neg hname]

/-- An address of a known family that is not there in full. -/
def Truncated (b : Bytes) : Prop :=
  b[3]? = some 0x01 ∧ b.length < 10 ∨ b[3]? = some 0x04 ∧ b.length < 22

instance (b : Bytes) : Decidable (Truncated b) := inferInstanceAs (Decidable (_ ∨ _))

/-- Reading the address of a reply panics where the reply is cut off in its address. -/
theorem Checked.parseSocks5Bound_eq (b : Bytes) : Checked.parseSocks5Bound b =
    if Truncated b then .error .sliceOutOfRange else .ok (Core.parseSocks5Bound b) := by
  unfold Checked.parseSocks5Bound Core.parseSocks5Bound
  cases hatyp : b[3]? with
  | none =>
    have hwhole : ¬ Truncated b := by simp [Truncated, hatyp]
    rw [if_neg hwhole]
  | some atyp =>
    simp only [Checked.v4At_eq, Checked.v6At_eq, Checked.portAt_eq]
    by_cases hv4 : atyp = 0x01
    · subst hv4
      rw [if_pos rfl, if_pos rfl]
      by_cases hroom : b.length < 10
      · have hcut : Truncated b := .inl ⟨hatyp, hroom⟩
        rw [if_pos hcut, if_neg (by omega : ¬ 8 + 2 ≤ b.length)]
        split_ifs <;> rfl
      · have hwhole : ¬ Truncated b := by simp [Truncated, hatyp, hroom]
        rw [if_neg hwhole, if_pos (by omega), if_pos (by omega)]
        rfl
    rw [if_neg hv4, if_neg hv4]
    by_cases hv6 : atyp = 0x04
    · subst hv6
      rw [if_pos rfl, if_pos rfl]
      by_cases hroom : b.length < 22
      · have hcut : Truncated b := .inr ⟨hatyp, hroom⟩
        rw [if_pos hcut, if_neg (by omega : ¬ 20 + 2 ≤ b.length)]
        split_ifs <;> rfl
      · have hwhole : ¬ Truncated b := by simp [Truncated, hatyp, hroom]
        rw [if_neg hwhole, if_pos (by omega), if_pos (by omega)]
        rfl
    · have hwhole : ¬ Truncated b := by simp [Truncated, hatyp, hv4, hv6]
      rw [if_neg hv6, if_neg hv6, if_neg hwhole]

theorem Checked.datagramAt_eq {o : ℕ} (ip : IpAddr) (h : o + 2 ≤ b.length) :
    Checked.datagramAt b ip o = .ok (some (⟨ip, Core.portAt b o⟩, b.drop (o + 2))) := by
  rw [Checked.datagramAt, Checked.portAt_eq, if_pos h, Except.ok_bind, slice_of_le h le_rfl,
    List.take_length]
  rfl

/-- Taking a datagram apart panics on no bytes. -/
theorem Checked.socks5UdpDecapsulate_eq (b : Bytes) :
    Checked.socks5UdpDecapsulate b = .ok (Core.socks5UdpDecapsulate b) := by
  unfold Checked.socks5UdpDecapsulate Core.socks5UdpDecapsulate
  by_cases hlen : b.length < 4
  · rw [if_pos hlen, if_pos (.inl hlen)]
  have hfrag : b[2]? = some b[2] := List.getElem?_eq_getElem (by omega)
  have hatyp : b[3]? = some b[3] := List.getElem?_eq_getElem (by omega)
  rw [if_neg hlen, index_of_some hfrag, Except.ok_bind, index_of_some hatyp]
  simp only [hfrag, hatyp, Option.some.injEq, ne_eq, hlen, false_or, Except.ok_bind]
  by_cases hwhole : b[2] = 0x00
  · rw [if_neg (not_not.mpr hwhole), if_neg (not_not.mpr hwhole)]
    by_cases hv4 : b[3] = 0x01
    · rw [if_pos hv4, if_pos hv4]
      by_cases hroom : b.length < 10
      · rw [if_pos hroom, if_pos hroom]
      · rw [if_neg hroom, if_neg hroom, Checked.v4At_eq, if_pos (by omega), Except.ok_bind]
        exact Checked.datagramAt_eq _ (by omega)
    rw [if_neg hv4, if_neg hv4]
    by_cases hv6 : b[3] = 0x04
    · rw [if_pos hv6, if_pos hv6]
      by_cases hroom : b.length < 22
      · rw [if_pos hroom, if_pos hroom]
      · rw [if_neg hroom, if_neg hroom, Checked.v6At_eq, if_pos (by omega), Except.ok_bind]
        exact Checked.datagramAt_eq _ (by omega)
    · rw [if_neg hv6, if_neg hv6]
  · rw [if_pos hwhole, if_pos hwhole]

/-- A reply is cut off in its address when it has one, and more bytes are asked for. -/
theorem truncated_iff : Truncated b ↔
    (b[3]? = some 0x01 ∨ b[3]? = some 0x04) ∧ Core.socks5ReplyLen b = .ok none := by
  have hlong : ∀ {atyp : UInt8}, b[3]? = some atyp → ¬ b.length < 4 := by
    intro atyp hatyp
    have hlt := (List.getElem?_eq_some_iff.mp hatyp).1
    omega
  constructor
  · rintro (⟨hatyp, hroom⟩ | ⟨hatyp, hroom⟩)
    · refine ⟨.inl hatyp, ?_⟩
      rw [Core.socks5ReplyLen, if_neg (hlong hatyp), hatyp]
      simp [hroom]
    · refine ⟨.inr hatyp, ?_⟩
      rw [Core.socks5ReplyLen, if_neg (hlong hatyp), hatyp]
      simp [hroom]
  · rintro ⟨hatyp | hatyp, hnone⟩
    · rw [Core.socks5ReplyLen, if_neg (hlong hatyp), hatyp] at hnone
      simp only [if_true, Except.ok.injEq, ite_eq_left_iff, reduceCtorEq, imp_false, not_not]
        at hnone
      exact .inl ⟨hatyp, hnone⟩
    · rw [Core.socks5ReplyLen, if_neg (hlong hatyp), hatyp, if_neg (by decide)] at hnone
      simp only [if_true, Except.ok.injEq, ite_eq_left_iff, reduceCtorEq, imp_false, not_not]
        at hnone
      exact .inr ⟨hatyp, hnone⟩

/-- A reply that has been measured is not cut off. -/
theorem not_truncated_take {n : ℕ} (h : Core.socks5ReplyLen b = .ok (some n)) :
    ¬ Truncated (b.take n) := by
  obtain ⟨hroom, hshape⟩ := socks5ReplyLen_found h
  have htake : 3 < n → (b.take n)[3]? = b[3]? := List.getElem?_take_of_lt
  have hlen : (b.take n).length = n := List.length_take_of_le hroom
  unfold Truncated
  rw [hlen]
  rcases hshape with ⟨hatyp, rfl⟩ | ⟨hatyp, rfl⟩ | ⟨hatyp, len, -, rfl⟩
  · rw [htake (by decide), hatyp]
    decide
  · rw [htake (by decide), hatyp]
    decide
  · rw [htake (by omega), hatyp]
    simp

end Readers

/-- The handshake panics on no bytes: the address it reads is that of a reply it has measured. -/
theorem Checked.socks5Step_eq (p : Profile) (h : Handshake) (phase : Socks5Phase)
    (command : Socks5Command) :
    Checked.socks5Step p h phase command = .ok (h.socks5Step phase command) := by
  unfold Checked.socks5Step Handshake.socks5Step
  cases phase with
  | start => rfl
  | greeted =>
    dsimp only
    match h.inbuf with
    | [] => rfl
    | [_] => rfl
    | version :: method :: rest =>
      have hlong : ¬ (version :: method :: rest).length < 2 := by
        rw [List.length_cons, List.length_cons]
        omega
      have hcut : splitAt (version :: method :: rest) 2 = .ok ([version, method], rest) :=
        splitAt_of_le (Nat.not_lt.mp hlong)
      have hversion : index (version :: method :: rest) 0 = .ok version := rfl
      have hmethod : index (version :: method :: rest) 1 = .ok method := rfl
      rw [if_neg hlong, hversion, hmethod, hcut]
      simp only [Except.ok_bind]
      split_ifs
      · rfl
      · rfl
      · by_cases hpass : method = 0x02
        · subst hpass
          cases h.username <;> rfl
        · simp [hpass]
  | authed =>
    dsimp only
    match h.inbuf with
    | [] => rfl
    | [_] => rfl
    | version :: status :: rest =>
      have hlong : ¬ (version :: status :: rest).length < 2 := by
        rw [List.length_cons, List.length_cons]
        omega
      have hcut : splitAt (version :: status :: rest) 2 = .ok ([version, status], rest) :=
        splitAt_of_le (Nat.not_lt.mp hlong)
      have hstatus : index (version :: status :: rest) 1 = .ok status := rfl
      rw [if_neg hlong, hstatus, hcut]
      simp only [Except.ok_bind]
      split_ifs <;> rfl
  | requested =>
    dsimp only
    rw [Checked.socks5ReplyLen_eq, Except.ok_bind]
    cases hlen : Core.socks5ReplyLen h.inbuf with
    | error e => rfl
    | ok o =>
      cases o with
      | none => rfl
      | some n =>
        obtain ⟨-, hlo, hhi⟩ := (socks5ReplyLen_append []).2 n hlen
        have hreply : slice h.inbuf 0 n = .ok (h.inbuf.take n) := slice_of_le (Nat.zero_le n) hhi
        dsimp only
        rw [index_of_lt (by omega), index_of_lt (by omega), hreply, splitAt_of_le hhi]
        simp only [Except.ok_bind]
        rw [Checked.parseSocks5Bound_eq, if_neg (not_truncated_take hlen)]
        split_ifs <;> rfl

/-- Datagrams and replies are read back as they were written, a reply that is cut off is waited
for, and the only bytes on which a reader panics are cut-off replies that were not measured. -/
theorem socks5_codecs :
    (∀ t payload, Checked.socks5UdpDecapsulate (socks5UdpEncapsulate t payload) =
      .ok (some (t, payload))) ∧
    (∀ p version rep rsv a,
      (∀ x, Checked.socks5ReplyLen p ([version, rep, rsv] ++ socksAddr a ++ x) =
          .ok (.ok (some ([version, rep, rsv] ++ socksAddr a).length)) ∧
        Checked.parseSocks5Bound ([version, rep, rsv] ++ socksAddr a ++ x) = .ok (some a)) ∧
      ∀ q, q <+: [version, rep, rsv] ++ socksAddr a → q ≠ [version, rep, rsv] ++ socksAddr a →
        Checked.socks5ReplyLen p q = .ok (.ok none)) ∧
    ∀ p b, (∃ len, Checked.socks5ReplyLen p b = .ok len) ∧
      (∃ datagram, Checked.socks5UdpDecapsulate b = .ok datagram) ∧
      ((∃ e, Checked.parseSocks5Bound b = .error e) ↔
        (b[3]? = some 0x01 ∨ b[3]? = some 0x04) ∧ Checked.socks5ReplyLen p b = .ok (.ok none)) ∧
      ∀ n, Checked.socks5ReplyLen p b = .ok (.ok (some n)) →
        ∃ bound, Checked.parseSocks5Bound (b.take n) = .ok bound := by
  refine ⟨?_, ?_, ?_⟩
  · intro t payload
    rw [Checked.socks5UdpDecapsulate_eq, socks5UdpDecapsulate_encapsulate]
  · intro p version rep rsv a
    have hlen := @socks5ReplyLen_socksAddr version rep rsv a
    refine ⟨fun x => ⟨?_, ?_⟩, fun q hq hne => ?_⟩
    · rw [Checked.socks5ReplyLen_eq, socks5ReplyLen_measures.found hlen x]
    · have hbound := @parseSocks5Bound_socksAddr version rep rsv a x
      have hwhole : ¬ Truncated ([version, rep, rsv] ++ socksAddr a ++ x) := by
        rw [truncated_iff, socks5ReplyLen_measures.found hlen x]
        rintro ⟨-, hnone⟩
        cases hnone
      rw [Checked.parseSocks5Bound_eq, if_neg hwhole, hbound]
    · rw [Checked.socks5ReplyLen_eq, socks5ReplyLen_measures.short hlen hq hne]
  · intro p b
    refine ⟨⟨_, Checked.socks5ReplyLen_eq p b⟩, ⟨_, Checked.socks5UdpDecapsulate_eq b⟩, ?_, ?_⟩
    · rw [Checked.socks5ReplyLen_eq, Except.ok.injEq, ← truncated_iff,
        Checked.parseSocks5Bound_eq]
      split_ifs with hcut
      · exact iff_of_true ⟨_, rfl⟩ hcut
      · refine iff_of_false ?_ hcut
        rintro ⟨e, he⟩
        cases he
    · intro n hn
      rw [Checked.socks5ReplyLen_eq] at hn
      have hwhole := not_truncated_take (Except.ok.inj hn)
      exact ⟨_, by rw [Checked.parseSocks5Bound_eq, if_neg hwhole]⟩

/-- Reading the address of the cut-off reply `05 00 00 01` panics. -/
theorem parse_reads_out_of_bounds :
    ¬ ∀ b, ∃ bound, Checked.parseSocks5Bound b = .ok bound := by
  intro h
  obtain ⟨bound, hbound⟩ := h [0x05, 0x00, 0x00, 0x01]
  have hpanic : Checked.parseSocks5Bound [0x05, 0x00, 0x00, 0x01] = .error .sliceOutOfRange := rfl
  rw [hpanic] at hbound
  cases hbound

end Adwarden.Core
