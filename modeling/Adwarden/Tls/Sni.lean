import Adwarden.Rust.Str

/-! Passive extraction of the server name from the first TLS record of a ClientHello. -/
namespace Adwarden.Tls

inductive SniPeek where
  | needMore
  | found (host : Str)
  /-- There is no usable server name, and more bytes would not change that. -/
  | none
deriving DecidableEq

namespace Sni

def u16 (b : Bytes) (o : ℕ) : Option ℕ :=
  match b[o]?, b[o + 1]? with
  | some hi, some lo => some (hi.toNat * 256 + lo.toNat)
  | _, _ => none

/-- `b[start..end]`. -/
def slice (b : Bytes) (start stop : ℕ) : Bytes := (b.take stop).drop start

/-- The loop of `parse_server_name` over the entries of the list; every entry takes at least
three bytes, so the length of the extension bounds it. -/
def serverNameLoop (ext : Bytes) (listEnd : ℕ) : (fuel pos : ℕ) → SniPeek
  | 0, _ => .none
  | fuel + 1, pos =>
    if pos + 3 ≤ listEnd then
      let nameLen := (u16 ext (pos + 1)).getD 0
      let start := pos + 3
      let stop := start + nameLen
      if listEnd < stop then .none
      else if ext[pos]? = some 0x00 then
        match Str.fromUtf8 (slice ext start stop) with
        | some s => if s.isEmpty then .none else .found s.toAsciiLowercase
        | none => .none
      else serverNameLoop ext listEnd fuel stop
    else .none

def parseServerName (ext : Bytes) : SniPeek :=
  match u16 ext 0 with
  | none => .none
  | some listLen => serverNameLoop ext (min (2 + listLen) ext.length) (ext.length + 1) 2

/-- The loop of `parse_client_hello` over the extensions. -/
def extensionsLoop (hs : Bytes) (extEnd : ℕ) : (fuel pos : ℕ) → SniPeek
  | 0, _ => .none
  | fuel + 1, pos =>
    if pos + 4 ≤ extEnd then
      let extLen := (u16 hs (pos + 2)).getD 0
      let body := pos + 4
      let bodyEnd := body + extLen
      if extEnd < bodyEnd then .none
      else if u16 hs pos = some 0x0000 then parseServerName (slice hs body bodyEnd)
      else extensionsLoop hs extEnd fuel bodyEnd
    else .none

def parseClientHello (hs : Bytes) : SniPeek :=
  if hs.length < 4 then .none
  else if hs[0]? ≠ some 0x01 then .none
  else
    let pos := 4 + (2 + 32)
    match hs[pos]? with
    | none => .none
    | some sidLen =>
      let pos := pos + (1 + sidLen.toNat)
      match u16 hs pos with
      | none => .none
      | some csLen =>
        let pos := pos + (2 + csLen)
        match hs[pos]? with
        | none => .none
        | some cmLen =>
          let pos := pos + (1 + cmLen.toNat)
          match u16 hs pos with
          | none => .none
          | some extTotal =>
            let pos := pos + 2
            let extEnd := pos + extTotal
            if hs.length < extEnd then .none
            else extensionsLoop hs extEnd (hs.length + 1) pos

end Sni

open Sni

/-- Where the first record ends, if its header says so. -/
def recordEnd (buf : Bytes) : Option ℕ := (u16 buf 3).map (5 + ·)

/-- Peek the server name out of the first TLS record of `buf`. -/
def peekSni (buf : Bytes) : SniPeek :=
  if buf.length < 5 then .needMore
  else if buf[0]? ≠ some 0x16 then .none
  else match recordEnd buf with
    | none => .needMore
    | some recEnd =>
      if buf.length < recEnd then .needMore
      else parseClientHello (slice buf 5 recEnd)

namespace Sni

theorem u16_append {b : Bytes} {o n : ℕ} (x : Bytes) (h : u16 b o = some n) :
    u16 (b ++ x) o = some n := by
  unfold u16 at h ⊢
  cases hi : b[o]? with
  | none => simp [hi] at h
  | some hi' =>
    cases lo : b[o + 1]? with
    | none => simp [lo] at h
    | some lo' =>
      have h1 := (List.getElem?_eq_some_iff.mp hi).1
      have h2 := (List.getElem?_eq_some_iff.mp lo).1
      rw [List.getElem?_append_left h1, List.getElem?_append_left h2]
      exact h

theorem u16_isSome {b : Bytes} {o : ℕ} (h : o + 1 < b.length) : ∃ n, u16 b o = some n := by
  unfold u16
  rw [List.getElem?_eq_getElem (by omega : o < b.length), List.getElem?_eq_getElem h]
  exact ⟨_, rfl⟩

theorem u16_lt {b : Bytes} {o n : ℕ} (h : u16 b o = some n) : n < 65536 := by
  unfold u16 at h
  split at h
  · next hi lo _ _ =>
    have := hi.toNat_lt
    have := lo.toNat_lt
    have := Option.some.inj h
    omega
  · cases h

theorem slice_append {b : Bytes} {start stop : ℕ} (x : Bytes) (h : stop ≤ b.length) :
    slice (b ++ x) start stop = slice b start stop := by
  unfold slice
  rw [List.take_append_of_le_length h]

end Sni

theorem recordEnd_append {b : Bytes} {n : ℕ} (x : Bytes) (h : recordEnd b = some n) :
    recordEnd (b ++ x) = some n := by
  obtain ⟨k, hk, rfl⟩ := Option.map_eq_some_iff.mp h
  simp [recordEnd, u16_append x hk]

theorem recordEnd_isSome {b : Bytes} (h : 5 ≤ b.length) : ∃ n, recordEnd b = some n := by
  obtain ⟨n, hn⟩ := u16_isSome (show 3 + 1 < b.length by omega)
  exact ⟨5 + n, by simp [recordEnd, hn]⟩

namespace Sni

theorem serverNameLoop_ne_needMore (ext : Bytes) (listEnd fuel pos : ℕ) :
    serverNameLoop ext listEnd fuel pos ≠ .needMore := by
  induction fuel generalizing pos with
  | zero => simp [serverNameLoop]
  | succ fuel ih =>
    unfold serverNameLoop
    dsimp only
    split_ifs
    · simp
    · split
      · split_ifs <;> simp
      · simp
    · exact ih _
    · simp

theorem parseServerName_ne_needMore (ext : Bytes) : parseServerName ext ≠ .needMore := by
  unfold parseServerName
  split
  · simp
  · exact serverNameLoop_ne_needMore _ _ _ _

theorem extensionsLoop_ne_needMore (hs : Bytes) (extEnd fuel pos : ℕ) :
    extensionsLoop hs extEnd fuel pos ≠ .needMore := by
  induction fuel generalizing pos with
  | zero => simp [extensionsLoop]
  | succ fuel ih =>
    unfold extensionsLoop
    dsimp only
    split_ifs
    · simp
    · exact parseServerName_ne_needMore _
    · exact ih _
    · simp

theorem parseClientHello_ne_needMore (hs : Bytes) : parseClientHello hs ≠ .needMore := by
  unfold parseClientHello
  dsimp only
  split_ifs
  · simp
  · simp
  · repeat' split
    all_goals first | exact extensionsLoop_ne_needMore _ _ _ _ | simp

end Sni

/-- What the peek waits for: five bytes, and then the whole of a handshake record. -/
theorem peekSni_eq_needMore {b : Bytes} :
    peekSni b = .needMore ↔
      b.length < 5 ∨ (b[0]? = some 0x16 ∧ ∃ n, recordEnd b = some n ∧ b.length < n) := by
  unfold peekSni
  split_ifs with h5 h0
  · simp [h5]
  · simp [h5, h0]
  · obtain ⟨n, hn⟩ := recordEnd_isSome (Nat.not_lt.mp h5)
    rw [hn]
    dsimp only
    split_ifs with hlt
    · simp [not_not.mp h0, hlt]
    · simp [parseClientHello_ne_needMore, h5, hlt]

/-- Once the peek has an answer, more bytes do not change it. -/
theorem peekSni_append {b : Bytes} (x : Bytes) (h : peekSni b ≠ .needMore) :
    peekSni (b ++ x) = peekSni b := by
  rw [Ne, peekSni_eq_needMore, not_or] at h
  obtain ⟨h5, hrec⟩ := h
  have hx : ¬ (b ++ x).length < 5 := by
    rw [List.length_append]
    omega
  have h0 : (b ++ x)[0]? = b[0]? := List.getElem?_append_left (by omega)
  unfold peekSni
  rw [if_neg hx, if_neg h5, h0]
  split_ifs with h16
  · rfl
  · obtain ⟨n, hn⟩ := recordEnd_isSome (Nat.not_lt.mp h5)
    have hle : n ≤ b.length := by
      by_contra hlt
      exact hrec ⟨not_not.mp h16, n, hn, Nat.not_le.mp hlt⟩
    rw [hn, recordEnd_append x hn]
    dsimp only
    rw [if_neg (Nat.not_lt.mpr hle), slice_append x hle, if_neg]
    rw [List.length_append]
    omega

/-- A record ends within 65540 bytes. -/
theorem recordEnd_le {b : Bytes} {n : ℕ} (h : recordEnd b = some n) : n ≤ 65540 := by
  obtain ⟨k, hk, rfl⟩ := Option.map_eq_some_iff.mp h
  have := u16_lt hk
  omega

end Adwarden.Tls
