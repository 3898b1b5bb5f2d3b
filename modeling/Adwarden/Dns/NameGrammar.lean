import Adwarden.Rust.Utf8
import Adwarden.Dns.Answer

/-! The questions that the parser takes: how a name is spelled, with and without pointers. -/
namespace Adwarden.Dns
open Adwarden.Str

structure Label where
  text : Str
  nonempty : text ≠ []
  fits : (toBytes text).length ≤ 63

def Label.encode (l : Label) : Bytes := .ofNat (toBytes l.text).length :: toBytes l.text

def encodeLabels (ls : List Label) : Bytes := ls.flatMap Label.encode

/-- The labels in lower case. -/
def lowered (ls : List Label) : List Str := ls.map fun l => l.text.toAsciiLowercase

def dotted (ls : List Label) : Str := Str.join ['.'] (lowered ls)

/-- A compression pointer to the byte at `target`. -/
def pointer (target : ℕ) : Bytes := [0xC0 ||| .ofNat (target / 256), .ofNat target]

/-- What the bytes of a message from `pos` on spell, how many pointers that takes, and where the
name ends for what follows it. -/
inductive Spells (buf : Bytes) : (pos : ℕ) → List Label → (jumps stop : ℕ) → Prop
  | root {pos : ℕ} {ls : List Label} {rest : Bytes}
      (h : buf.drop pos = encodeLabels ls ++ (0 :: rest)) :
      Spells buf pos ls 0 (pos + (encodeLabels ls).length + 1)
  | pointer {pos target jumps stop : ℕ} {ls suffix : List Label} {rest : Bytes}
      (h : buf.drop pos = encodeLabels ls ++ (pointer target ++ rest)) (ht : target < 2 ^ 14)
      (hs : Spells buf target suffix jumps stop) :
      Spells buf pos (ls ++ suffix) (jumps + 1) (pos + (encodeLabels ls).length + 2)

/-- The header of a standard query. -/
structure Header where
  id : UInt16
  flags : UInt16
  qdcount : UInt16
  counts : Bytes
  counts_len : counts.length = 6
  query : flags &&& 0x8000 = 0
  opcode : (flags >>> 11) &&& 0x0F = 0
  asks : qdcount ≠ 0

def Header.encode (h : Header) : Bytes :=
  beBytes16 h.id ++ (beBytes16 h.flags ++ (beBytes16 h.qdcount ++ h.counts))

/-- The fields behind the name of a question, and the rest of the message. -/
def behindName (qtype qclass : UInt16) (rest : Bytes) : Bytes :=
  beBytes16 qtype ++ (beBytes16 qclass ++ rest)

section Spells

variable {buf z : Bytes} {fuel pos jumps : ℕ} {endAfter : Option ℕ} {labels : List Str}

private theorem label_byte : ∀ n : Fin 64, UInt8.ofNat n.val &&& 0xC0 = 0 ∧
    (UInt8.ofNat n.val).toNat = n.val ∧ (n.val ≠ 0 → UInt8.ofNat n.val ≠ 0) := by decide

private theorem pointer_byte : ∀ n : Fin 64, (0xC0 ||| UInt8.ofNat n.val) &&& 0xC0 = 0xC0 ∧
    ((0xC0 ||| UInt8.ofNat n.val) &&& 0x3F).toNat = n.val := by decide

theorem u16be_of_drop {o : ℕ} {n : UInt16} (h : buf.drop o = beBytes16 n ++ z) :
    u16be buf o = some n := by
  have hhi : buf[o]? = some (n >>> 8).toUInt8 := get_of_drop h
  have hlo : buf[o + 1]? = some n.toUInt8 :=
    get_of_drop (drop_of_drop (x := [(n >>> 8).toUInt8]) h)
  rw [u16be, hhi, hlo]
  simp only [join16_beBytes]

theorem toBytes_ne_nil {s : Str} (h : s ≠ []) : toBytes s ≠ [] := by
  intro hb
  have hs := fromUtf8_toBytes s
  rw [hb] at hs
  exact h (Option.some.inj hs).symm

/-- A label in front of the position is read and pushed. -/
theorem decodeNameLoop_label {l : Label} (h : buf.drop pos = l.encode ++ z) :
    decodeNameLoop buf (fuel + 1) pos endAfter jumps labels =
      decodeNameLoop buf fuel (pos + l.encode.length) endAfter jumps
        (labels ++ [l.text.toAsciiLowercase]) := by
  have hpos : (toBytes l.text).length ≠ 0 := by
    rw [Ne, List.length_eq_zero_iff]
    exact toBytes_ne_nil l.nonempty
  obtain ⟨hclass, hlen, hne⟩ := label_byte ⟨_, Nat.lt_succ_of_le l.fits⟩
  have hbyte : buf[pos]? = some (.ofNat (toBytes l.text).length) := get_of_drop h
  have htext : buf.drop (pos + 1) = toBytes l.text ++ z := drop_of_drop (x := [_]) h
  have hend : pos + 1 + (toBytes l.text).length ≤ buf.length := by
    have hl := congrArg List.length htext
    rw [List.length_drop, List.length_append] at hl
    omega
  have hslice : (buf.take (pos + 1 + (toBytes l.text).length)).drop (pos + 1) =
      toBytes l.text := by
    rw [List.drop_take, Nat.add_sub_cancel_left, htext, List.take_left]
  have hsize : l.encode.length = 1 + (toBytes l.text).length := by
    rw [Label.encode, List.length_cons, Nat.add_comm]
  rw [decodeNameLoop, hbyte]
  dsimp only at hclass hlen hne ⊢
  rw [if_pos hclass, if_neg (hne hpos), hlen, if_neg (Nat.not_lt.mpr hend), hslice,
    fromUtf8_toBytes, hsize, Nat.add_assoc]

theorem decodeNameLoop_labels {ls : List Label} (h : buf.drop pos = encodeLabels ls ++ z) :
    decodeNameLoop buf (ls.length + fuel) pos endAfter jumps labels =
      decodeNameLoop buf fuel (pos + (encodeLabels ls).length) endAfter jumps
        (labels ++ lowered ls) := by
  induction ls generalizing pos labels with
  | nil => simp [encodeLabels, lowered]
  | cons l ls ih =>
    rw [encodeLabels, List.flatMap_cons, List.append_assoc] at h
    rw [List.length_cons, Nat.add_right_comm, decodeNameLoop_label h, ih (drop_of_drop h)]
    simp [encodeLabels, lowered, Nat.add_assoc]

/-- A pointer in front of the position is followed. -/
theorem decodeNameLoop_pointer {target : ℕ} (h : buf.drop pos = pointer target ++ z)
    (ht : target < 2 ^ 14) (hin : target < buf.length) (hjumps : jumps + 1 ≤ 16) :
    decodeNameLoop buf (fuel + 1) pos endAfter jumps labels =
      decodeNameLoop buf fuel target (some (endAfter.getD (pos + 2))) (jumps + 1) labels := by
  obtain ⟨hclass, hhi⟩ := pointer_byte ⟨target / 256, by omega⟩
  have hbyte : buf[pos]? = some (0xC0 ||| .ofNat (target / 256)) := get_of_drop h
  have h' : buf.drop pos = [0xC0 ||| .ofNat (target / 256)] ++ (UInt8.ofNat target :: z) := h
  have hlo : buf[pos + 1]? = some (.ofNat target) := get_of_drop (drop_of_drop h')
  have hbad : ¬ (16 < jumps + 1 ∨ buf.length ≤ target) :=
    not_or.mpr ⟨Nat.not_lt.mpr hjumps, Nat.not_le.mpr hin⟩
  have htarget : target / 256 * 256 + (UInt8.ofNat target).toNat = target := by
    rw [UInt8.toNat_ofNat']
    omega
  rw [decodeNameLoop, hbyte]
  dsimp only at hclass hhi ⊢
  rw [hclass, if_neg (by decide), if_pos rfl, hlo]
  dsimp only
  rw [hhi, htarget, if_neg hbad]

theorem Spells.pos_lt {ls : List Label} {stop : ℕ} (h : Spells buf pos ls jumps stop) :
    pos < buf.length := by
  have hne : buf.drop pos ≠ [] := by
    cases h with
    | root h => simp [h]
    | pointer h => simp [h, Dns.pointer]
  by_contra hle
  exact hne (List.drop_eq_nil_of_le (Nat.not_lt.mp hle))

/-- A spelled name is decoded, whatever was collected before it. -/
theorem Spells.loop {ls : List Label} {stop : ℕ} (h : Spells buf pos ls jumps stop)
    (endAfter : Option ℕ) (labels : List Str) {used : ℕ} (hused : used + jumps ≤ 16) :
    ∃ fuel, decodeNameLoop buf fuel pos endAfter used labels =
      some (Str.join ['.'] (labels ++ lowered ls), endAfter.getD stop) := by
  induction h generalizing endAfter used labels with
  | @root pos ls rest h =>
    refine ⟨ls.length + 1, ?_⟩
    rw [decodeNameLoop_labels h, decodeNameLoop_succ]
    exact .done (get_of_drop (drop_of_drop h)) rfl
  | @pointer pos target jumps stop ls suffix rest h ht hs ih =>
    obtain ⟨fuel, hf⟩ := ih (some (endAfter.getD (pos + (encodeLabels ls).length + 2)))
      (labels ++ lowered ls) (by omega : used + 1 + jumps ≤ 16)
    refine ⟨ls.length + (fuel + 1), ?_⟩
    rw [decodeNameLoop_labels h, decodeNameLoop_pointer (drop_of_drop h) ht hs.pos_lt (by omega),
      hf]
    simp [lowered]

theorem Spells.decodeName {ls : List Label} {stop : ℕ} (h : Spells buf pos ls jumps stop)
    (hjumps : jumps ≤ 16) : decodeName buf pos = some (dotted ls, stop) := by
  obtain ⟨fuel, hf⟩ := h.loop none [] (by omega : 0 + jumps ≤ 16)
  rw [Dns.decodeName]
  exact decodeNameLoop_bound (by omega) hf

/-- The question of a message whose name is spelled out, or shortened by pointers. -/
theorem parseQuery_spelled (hd : Header) {body : Bytes} {ls : List Label} {stop : ℕ}
    {qtype qclass : UInt16} (h : Spells (hd.encode ++ body) 12 ls jumps stop)
    (hjumps : jumps ≤ 16)
    (hbehind : (hd.encode ++ body).drop stop = behindName qtype qclass z) :
    parseQuery (hd.encode ++ body) = some ⟨hd.id, dotted ls, qtype, qclass, stop + 4⟩ := by
  have hlen : ¬ (hd.encode ++ body).length < 12 := by
    rw [List.length_append, Header.encode]
    simp only [List.length_append, beBytes16_length, hd.counts_len]
    omega
  have hid : u16be (hd.encode ++ body) 0 = some hd.id := by
    apply u16be_of_drop (z := beBytes16 hd.flags ++ (beBytes16 hd.qdcount ++ hd.counts) ++ body)
    simp [Header.encode]
  have hflags : u16be (hd.encode ++ body) 2 = some hd.flags := by
    apply u16be_of_drop (z := beBytes16 hd.qdcount ++ hd.counts ++ body)
    simp [Header.encode, beBytes16]
  have hcount : u16be (hd.encode ++ body) 4 = some hd.qdcount := by
    apply u16be_of_drop (z := hd.counts ++ body)
    simp [Header.encode, beBytes16]
  have hqtype := u16be_of_drop hbehind
  have hqclass := u16be_of_drop (drop_of_drop hbehind)
  have hstd : ¬ (hd.flags &&& 0x8000 ≠ 0 ∨ (hd.flags >>> 11) &&& 0x0F ≠ 0 ∨ hd.qdcount = 0) := by
    simp [hd.query, hd.opcode, hd.asks]
  rw [parseQuery, if_neg hlen]
  simp only [hid, hflags, hcount, Option.bind_eq_bind, Option.bind_some]
  rw [if_neg hstd, h.decodeName hjumps]
  rw [beBytes16_length] at hqclass
  simp only [Option.bind_some, hqtype, hqclass]

end Spells

/-- The bytes from the name on of a question that spells its labels out. -/
def spelledOut (ls : List Label) (behind : Bytes) : Bytes := encodeLabels ls ++ (0 :: behind)

/-- The same with a pointer for the labels behind the first ones. -/
def shortened (ls : List Label) (target : ℕ) (behind : Bytes) : Bytes :=
  encodeLabels ls ++ (pointer target ++ behind)

/-- The parser inverts the encoding of a question, and takes a pointer to an equal suffix for
that suffix. -/
theorem parse_query_inverts (hd : Header) (ls : List Label) (qtype qclass : UInt16)
    (rest : Bytes) :
    parseQuery (hd.encode ++ spelledOut ls (behindName qtype qclass rest)) =
        some ⟨hd.id, dotted ls, qtype, qclass, 12 + (encodeLabels ls).length + 5⟩ ∧
      ∀ first suffix target jumps stop behind, ls = first ++ suffix → target < 2 ^ 14 →
        Spells (hd.encode ++ shortened first target (behindName qtype qclass behind)) target
          suffix jumps stop → jumps + 1 ≤ 16 →
        parseQuery (hd.encode ++ shortened first target (behindName qtype qclass behind)) =
          some ⟨hd.id, dotted ls, qtype, qclass, 12 + (encodeLabels first).length + 6⟩ := by
  have hlen : hd.encode.length = 12 := by
    simp only [Header.encode, List.length_append, beBytes16_length, hd.counts_len]
  have hdrop : ∀ body, (hd.encode ++ body).drop 12 = body := by
    intro body
    rw [← hlen, List.drop_left]
  constructor
  · have hname := hdrop (spelledOut ls (behindName qtype qclass rest))
    exact parseQuery_spelled hd (.root hname) (Nat.zero_le _)
      (drop_of_drop (x := [0]) (drop_of_drop hname))
  · rintro first suffix target jumps stop behind rfl ht hs hjumps
    have hname := hdrop (shortened first target (behindName qtype qclass behind))
    exact parseQuery_spelled hd (.pointer hname ht hs) hjumps
      (drop_of_drop (x := pointer target) (drop_of_drop hname))

example : parseQuery ([0x12, 0x34, 1, 0, 0, 1, 0, 0, 0, 0, 0, 0] ++
    ([1, 65] ++ pointer 20 ++ behindName 1 1 [1, 98, 0])) =
      some ⟨0x1234, lit "a.b", 1, 1, 20⟩ := by decide +kernel

end Adwarden.Dns
