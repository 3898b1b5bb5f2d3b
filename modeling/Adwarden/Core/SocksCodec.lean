import Adwarden.Core.Proxy
import Adwarden.Lib.Decision
import Adwarden.Rust.Word

/-! The addresses, replies and datagrams of SOCKS5, and what their readers make of what was
written. -/
namespace Adwarden.Core
open Adwarden.Lib

/-- Four bytes of a header, of which the last is the type of the address, then the address, the
port and `x`. -/
def framed {k : ℕ} (h0 h1 h2 atyp : UInt8) (octets : List.Vector UInt8 k) (port : UInt16)
    (x : Bytes) : Bytes :=
  [h0, h1, h2, atyp] ++ (octets.toList ++ (portBytes port ++ x))

section Addresses

variable {k : ℕ} {h0 h1 h2 atyp : UInt8} {octets : List.Vector UInt8 k} {port : UInt16} {x : Bytes}

theorem vectorAt_behind {p : Bytes} {n : ℕ} (v : List.Vector UInt8 n) (t : Bytes) {k : ℕ}
    (hp : p.length = k) : vectorAt n (p ++ (v.toList ++ t)) k = v := by
  subst hp
  apply List.Vector.ext
  intro i
  rw [vectorAt, List.Vector.get_ofFn]
  simp [List.getD_eq_getElem?_getD, List.Vector.get_eq_get_toList, List.getElem?_append_right,
    List.getElem?_append_left]

theorem portAt_behind {p : Bytes} {k : ℕ} (hp : p.length = k) (port : UInt16) (t : Bytes) :
    portAt (p ++ (portBytes port ++ t)) k = port := by
  subst hp
  have hport := join16_beBytes port
  simpa [portAt, portBytes, List.getD_eq_getElem?_getD, List.getElem?_append_right] using hport

/-- Any two bytes are those of a port. -/
theorem exists_portBytes {b : Bytes} (hb : b.length = 2) : ∃ port, b = portBytes port := by
  match b, hb with
  | [hi, lo], _ =>
    refine ⟨hi.toUInt16 <<< 8 ||| lo.toUInt16, ?_⟩
    have hval := join16_toNat hi lo
    have hlo := lo.toNat_lt
    have hhi := hi.toNat_lt
    have h8 : (8 : UInt16).toNat % 16 = 8 := rfl
    have hfirst : ((hi.toUInt16 <<< 8 ||| lo.toUInt16) >>> 8).toUInt8 = hi := by
      apply UInt8.toNat_inj.mp
      rw [UInt16.toNat_toUInt8, UInt16.toNat_shiftRight, hval, h8, Nat.shiftRight_eq_div_pow]
      omega
    have hsecond : (hi.toUInt16 <<< 8 ||| lo.toUInt16).toUInt8 = lo := by
      apply UInt8.toNat_inj.mp
      rw [UInt16.toNat_toUInt8, hval]
      omega
    rw [portBytes, hfirst, hsecond]

theorem framed_length : (framed h0 h1 h2 atyp octets port x).length = 4 + k + 2 + x.length := by
  simp only [framed, portBytes, List.length_append, List.length_cons, List.length_nil,
    List.Vector.toList_length]
  omega

theorem framed_vectorAt : vectorAt k (framed h0 h1 h2 atyp octets port x) 4 = octets :=
  vectorAt_behind octets _ rfl

theorem framed_portAt : portAt (framed h0 h1 h2 atyp octets port x) (4 + k) = port := by
  rw [framed, ← List.append_assoc]
  apply portAt_behind
  simp only [List.length_append, List.length_cons, List.length_nil, List.Vector.toList_length]

theorem framed_drop : (framed h0 h1 h2 atyp octets port x).drop (4 + k + 2) = x := by
  have hsplit : framed h0 h1 h2 atyp octets port x =
      ([h0, h1, h2, atyp] ++ octets.toList ++ portBytes port) ++ x := by
    simp only [framed, List.append_assoc]
  rw [hsplit]
  apply List.drop_left'
  simp only [portBytes, List.length_append, List.length_cons, List.length_nil,
    List.Vector.toList_length]

theorem framed_take :
    (framed h0 h1 h2 atyp octets port x).take (4 + k + 2) =
      framed h0 h1 h2 atyp octets port [] := by
  have hsplit : framed h0 h1 h2 atyp octets port x =
      framed h0 h1 h2 atyp octets port [] ++ x := by
    simp only [framed, List.append_assoc, List.append_nil]
  rw [hsplit]
  apply List.take_left'
  rw [framed_length]
  rfl

/-- Bytes that have room for them hold a header, an address and a port. -/
theorem exists_framed {b : Bytes} (hroom : 4 + k + 2 ≤ b.length) :
    ∃ h0 h1 h2 atyp, ∃ (octets : List.Vector UInt8 k) (port : UInt16),
      b = framed h0 h1 h2 atyp octets port (b.drop (4 + k + 2)) := by
  obtain ⟨port, hport⟩ := exists_portBytes (b := (b.drop (4 + k)).take 2) (by
    rw [List.length_take, List.length_drop]
    omega)
  match b, hroom with
  | h0 :: h1 :: h2 :: atyp :: rest, hroom =>
    rw [List.length_cons, List.length_cons, List.length_cons, List.length_cons] at hroom
    refine ⟨h0, h1, h2, atyp, ⟨rest.take k, by rw [List.length_take]; omega⟩, port, ?_⟩
    have hdrop : ∀ n, (h0 :: h1 :: h2 :: atyp :: rest).drop (4 + n) = rest.drop n := by
      intro n
      rw [Nat.add_comm]
      rfl
    rw [hdrop] at hport
    have hrest : rest = rest.take k ++ (portBytes port ++ rest.drop (k + 2)) := by
      rw [← hport, ← List.drop_drop, List.take_append_drop, List.take_append_drop]
    rw [Nat.add_assoc, hdrop]
    exact congrArg ([h0, h1, h2, atyp] ++ ·) hrest
  | [], hroom => simp at hroom
  | [_], hroom => simp only [List.length_cons, List.length_nil] at hroom; omega
  | [_, _], hroom => simp only [List.length_cons, List.length_nil] at hroom; omega
  | [_, _, _], hroom => simp only [List.length_cons, List.length_nil] at hroom; omega

theorem socksAddr_v4 (octets : List.Vector UInt8 4) :
    [h0, h1, h2] ++ socksAddr ⟨.v4 octets, port⟩ ++ x = framed h0 h1 h2 0x01 octets port x := by
  simp only [socksAddr, framed, List.cons_append, List.nil_append, List.append_assoc]

theorem socksAddr_v6 (octets : List.Vector UInt8 16) :
    [h0, h1, h2] ++ socksAddr ⟨.v6 octets, port⟩ ++ x = framed h0 h1 h2 0x04 octets port x := by
  simp only [socksAddr, framed, List.cons_append, List.nil_append, List.append_assoc]

end Addresses

section Readers

variable {b : Bytes} {h0 h1 h2 : UInt8}

/-- What a decided reply length says stands when more bytes arrive. -/
theorem socks5ReplyLen_append {b : Bytes} (x : Bytes) :
    (∀ e, socks5ReplyLen b = .error e → socks5ReplyLen (b ++ x) = .error e) ∧
      ∀ n, socks5ReplyLen b = .ok (some n) →
        socks5ReplyLen (b ++ x) = .ok (some n) ∧ 4 ≤ n ∧ n ≤ b.length := by
  unfold socks5ReplyLen
  by_cases hlen : b.length < 4
  · rw [if_pos hlen]
    simp
  have hlong : ¬ (b ++ x).length < 4 := by
    rw [List.length_append]
    omega
  have h3 : (b ++ x)[3]? = b[3]? := List.getElem?_append_left (by omega)
  rw [if_neg hlen, if_neg hlong, h3]
  dsimp only
  have htotal : ∀ {k n : ℕ}, (if b.length < 4 + k + 2 then none else some (4 + k + 2)) = some n →
      (if (b ++ x).length < 4 + k + 2 then none else some (4 + k + 2)) = some n ∧ 4 ≤ n ∧
        n ≤ b.length := by
    intro k n h
    split_ifs at h with hk
    obtain rfl := Option.some.inj h
    rw [if_neg (by rw [List.length_append]; omega)]
    exact ⟨rfl, by omega, by omega⟩
  by_cases h1 : b[3]? = some 0x01
  · simp only [if_pos h1]
    refine ⟨by simp, fun n h => ?_⟩
    obtain ⟨hk, hbounds⟩ := htotal (Except.ok.inj h)
    exact ⟨congrArg Except.ok hk, hbounds⟩
  by_cases h4 : b[3]? = some 0x04
  · simp only [if_neg h1, if_pos h4]
    refine ⟨by simp, fun n h => ?_⟩
    obtain ⟨hk, hbounds⟩ := htotal (Except.ok.inj h)
    exact ⟨congrArg Except.ok hk, hbounds⟩
  by_cases hd : b[3]? = some 0x03
  · simp only [if_neg h1, if_neg h4, if_pos hd]
    cases hb : b[4]? with
    | none => simp
    | some len =>
      have h5 : (b ++ x)[4]? = some len := by
        rw [List.getElem?_append_left (List.getElem?_eq_some_iff.mp hb).1, hb]
      rw [h5]
      refine ⟨by simp, fun n h => ?_⟩
      obtain ⟨hk, hbounds⟩ := htotal (Except.ok.inj h)
      exact ⟨congrArg Except.ok hk, hbounds⟩
  · simp [if_neg h1, if_neg h4, if_neg hd]

theorem socks5ReplyLen_measures : Measures socks5ReplyLen where
  error h x := (socks5ReplyLen_append x).1 _ h
  found h x := ((socks5ReplyLen_append x).2 _ h).1
  within h := ((socks5ReplyLen_append []).2 _ h).2.2

/-- A reply that is there in full holds an address of one of the three types. -/
theorem socks5ReplyLen_found {n : ℕ} (h : socks5ReplyLen b = .ok (some n)) :
    n ≤ b.length ∧
      (b[3]? = some 0x01 ∧ n = 4 + 4 + 2 ∨ b[3]? = some 0x04 ∧ n = 4 + 16 + 2 ∨
        b[3]? = some 0x03 ∧ ∃ len, b[4]? = some len ∧ n = 4 + (1 + len.toNat) + 2) := by
  refine ⟨socks5ReplyLen_measures.within h, ?_⟩
  have htotal : ∀ {k : ℕ}, (if b.length < 4 + k + 2 then none else some (4 + k + 2)) = some n →
      n = 4 + k + 2 := by
    intro k hk
    split_ifs at hk
    exact (Option.some.inj hk).symm
  unfold socks5ReplyLen at h
  by_cases hlen : b.length < 4
  · rw [if_pos hlen] at h
    cases h
  rw [if_neg hlen] at h
  dsimp only at h
  by_cases hv4 : b[3]? = some 0x01
  · rw [if_pos hv4] at h
    exact .inl ⟨hv4, htotal (Except.ok.inj h)⟩
  rw [if_neg hv4] at h
  by_cases hv6 : b[3]? = some 0x04
  · rw [if_pos hv6] at h
    exact .inr (.inl ⟨hv6, htotal (Except.ok.inj h)⟩)
  rw [if_neg hv6] at h
  by_cases hname : b[3]? = some 0x03
  · rw [if_pos hname] at h
    cases hb : b[4]? with
    | none =>
      rw [hb] at h
      cases h
    | some len =>
      rw [hb] at h
      exact .inr (.inr ⟨hname, len, rfl, htotal (Except.ok.inj h)⟩)
  · rw [if_neg hname] at h
    cases h

/-- A reply with the address `a` is measured exactly. -/
theorem socks5ReplyLen_socksAddr (a : SocketAddr) :
    socks5ReplyLen ([h0, h1, h2] ++ socksAddr a) =
      .ok (some ([h0, h1, h2] ++ socksAddr a).length) := by
  obtain ⟨ip, port⟩ := a
  rw [← List.append_nil ([h0, h1, h2] ++ _)]
  cases ip with
  | v4 octets =>
    have hatyp : (framed h0 h1 h2 0x01 octets port [])[3]? = some 0x01 := rfl
    rw [socksAddr_v4, socks5ReplyLen, hatyp, framed_length]
    rfl
  | v6 octets =>
    have hatyp : (framed h0 h1 h2 0x04 octets port [])[3]? = some 0x04 := rfl
    rw [socksAddr_v6, socks5ReplyLen, hatyp, framed_length]
    rfl

theorem parseSocks5Bound_socksAddr (a : SocketAddr) (x : Bytes) :
    parseSocks5Bound ([h0, h1, h2] ++ socksAddr a ++ x) = some a := by
  obtain ⟨ip, port⟩ := a
  cases ip with
  | v4 octets =>
    have hatyp : (framed h0 h1 h2 0x01 octets port x)[3]? = some 0x01 := rfl
    have hport : portAt (framed h0 h1 h2 0x01 octets port x) 8 = port := framed_portAt
    rw [socksAddr_v4, parseSocks5Bound, hatyp, framed_vectorAt, hport]
    rfl
  | v6 octets =>
    have hatyp : (framed h0 h1 h2 0x04 octets port x)[3]? = some 0x04 := rfl
    have hport : portAt (framed h0 h1 h2 0x04 octets port x) 20 = port := framed_portAt
    rw [socksAddr_v6, parseSocks5Bound, hatyp, framed_vectorAt, hport]
    rfl

/-- A datagram is taken apart when it has no fragment number and an address of a known family, and
into what follows the first two bytes then. -/
theorem socks5UdpDecapsulate_iff {t : SocketAddr} {payload : Bytes} :
    socks5UdpDecapsulate b = some (t, payload) ↔
      ∃ r0 r1, b = [r0, r1, 0x00] ++ socksAddr t ++ payload := by
  constructor
  · intro h
    unfold socks5UdpDecapsulate at h
    split_ifs at h with hfrag hv4 hroom hv6 hroom
    · obtain ⟨r0, r1, frag, atyp, octets, port, hb⟩ := @exists_framed 4 b (by omega)
      obtain ⟨rest, hrest⟩ : ∃ rest, b.drop 10 = rest := ⟨_, rfl⟩
      rw [show 4 + 4 + 2 = 10 from rfl, hrest] at hb
      subst hb
      obtain rfl : atyp = 0x01 := Option.some.inj hv4
      obtain rfl : frag = 0x00 := Option.some.inj (not_not.mp (not_or.mp hfrag).2)
      have hport : portAt (framed r0 r1 0x00 0x01 octets port rest) 8 = port := framed_portAt
      rw [framed_vectorAt, hport, hrest] at h
      obtain ⟨rfl, rfl⟩ := Prod.mk.inj (Option.some.inj h)
      exact ⟨r0, r1, (socksAddr_v4 octets).symm⟩
    · obtain ⟨r0, r1, frag, atyp, octets, port, hb⟩ := @exists_framed 16 b (by omega)
      obtain ⟨rest, hrest⟩ : ∃ rest, b.drop 22 = rest := ⟨_, rfl⟩
      rw [show 4 + 16 + 2 = 22 from rfl, hrest] at hb
      subst hb
      obtain rfl : atyp = 0x04 := Option.some.inj hv6
      obtain rfl : frag = 0x00 := Option.some.inj (not_not.mp (not_or.mp hfrag).2)
      have hport : portAt (framed r0 r1 0x00 0x04 octets port rest) 20 = port := framed_portAt
      rw [framed_vectorAt, hport, hrest] at h
      obtain ⟨rfl, rfl⟩ := Prod.mk.inj (Option.some.inj h)
      exact ⟨r0, r1, (socksAddr_v6 octets).symm⟩
  · rintro ⟨r0, r1, rfl⟩
    obtain ⟨ip, port⟩ := t
    cases ip with
    | v4 octets =>
      have hport : portAt (framed r0 r1 0x00 0x01 octets port payload) 8 = port := framed_portAt
      have hdrop : (framed r0 r1 0x00 0x01 octets port payload).drop 10 = payload :=
        @framed_drop 4 _ _ _ _ _ _ _
      have hatyp : (framed r0 r1 0x00 0x01 octets port payload)[3]? = some 0x01 := rfl
      have hfrag : (framed r0 r1 0x00 0x01 octets port payload)[2]? = some 0x00 := rfl
      rw [socksAddr_v4, socks5UdpDecapsulate, framed_vectorAt, hport, hdrop, hatyp, hfrag,
        framed_length, if_neg (by simp; omega), if_pos rfl, if_neg (by omega)]
    | v6 octets =>
      have hport : portAt (framed r0 r1 0x00 0x04 octets port payload) 20 = port := framed_portAt
      have hdrop : (framed r0 r1 0x00 0x04 octets port payload).drop 22 = payload :=
        @framed_drop 16 _ _ _ _ _ _ _
      have hatyp : (framed r0 r1 0x00 0x04 octets port payload)[3]? = some 0x04 := rfl
      have hfrag : (framed r0 r1 0x00 0x04 octets port payload)[2]? = some 0x00 := rfl
      rw [socksAddr_v6, socks5UdpDecapsulate, framed_vectorAt, hport, hdrop, hatyp, hfrag,
        framed_length, if_neg (by simp; omega), if_neg (by decide), if_pos rfl,
        if_neg (by omega)]

theorem socks5UdpDecapsulate_encapsulate (t : SocketAddr) (payload : Bytes) :
    socks5UdpDecapsulate (socks5UdpEncapsulate t payload) = some (t, payload) :=
  socks5UdpDecapsulate_iff.mpr ⟨0x00, 0x00, rfl⟩

end Readers

end Adwarden.Core
