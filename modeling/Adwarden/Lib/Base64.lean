import Mathlib.Algebra.Order.Group.Nat
import Mathlib.Data.List.Basic
import Mathlib.Data.Nat.Notation
import Mathlib.Tactic.Common

/-! Base64 as a text over an alphabet of 64 characters: the octets of the data and the six-bit
groups that the characters stand for are the same sequence of bits. -/
namespace Adwarden.Lib.Base64

universe u v

/-- The `w` lowest bits of a number, the highest of them first. -/
def bits : ℕ → ℕ → List Bool
  | 0, _ => []
  | w + 1, n => bits w (n / 2) ++ [n % 2 == 1]

@[simp] theorem bits_length (w n : ℕ) : (bits w n).length = w := by
  induction w generalizing n with
  | zero => rfl
  | succ w ih => rw [bits, List.length_append, ih, List.length_singleton]

theorem bits_add (a b n : ℕ) : bits (a + b) n = bits a (n / 2 ^ b) ++ bits b n := by
  induction b generalizing n with
  | zero => simp [bits]
  | succ b ih =>
    rw [← Nat.add_assoc, bits, ih, bits, List.append_assoc, Nat.div_div_eq_div_mul,
      ← Nat.pow_succ']

theorem bits_eq_iff {w m n : ℕ} : bits w m = bits w n ↔ m % 2 ^ w = n % 2 ^ w := by
  induction w generalizing m n with
  | zero => simp [bits, Nat.mod_one]
  | succ w ih =>
    have hlast : [m % 2 == 1] = [n % 2 == 1] ↔ m % 2 = n % 2 := by
      rcases Nat.mod_two_eq_zero_or_one m with hm | hm <;>
        rcases Nat.mod_two_eq_zero_or_one n with hn | hn <;> simp [hm, hn]
    have happ : bits (w + 1) m = bits (w + 1) n ↔
        bits w (m / 2) = bits w (n / 2) ∧ [m % 2 == 1] = [n % 2 == 1] := by
      constructor
      · intro h
        exact List.append_inj h (by rw [bits_length, bits_length])
      · rintro ⟨hhi, hlo⟩
        rw [bits, bits, hhi, hlo]
    rw [happ, ih, hlast, Nat.pow_succ', Nat.mod_mul, Nat.mod_mul]
    constructor
    · rintro ⟨hhi, hlo⟩
      rw [hhi, hlo]
    · intro h
      have hm := Nat.mod_lt m (Nat.two_pos)
      have hn := Nat.mod_lt n (Nat.two_pos)
      omega

/-- Blocks of one length can be told apart in their concatenation. -/
theorem flatMap_injective {α : Type u} {β : Type v} {f : α → List β} {w : ℕ} (hw : 0 < w)
    (hlen : ∀ a, (f a).length = w) (hf : Function.Injective f) :
    Function.Injective (List.flatMap f) := by
  intro as
  induction as with
  | nil =>
    intro bs h
    cases bs with
    | nil => rfl
    | cons b bs =>
      have hl := congrArg List.length h
      simp only [List.flatMap_nil, List.flatMap_cons, List.length_nil, List.length_append,
        hlen] at hl
      omega
  | cons a as ih =>
    intro bs h
    cases bs with
    | nil =>
      have hl := congrArg List.length h
      simp only [List.flatMap_nil, List.flatMap_cons, List.length_nil, List.length_append,
        hlen] at hl
      omega
    | cons b bs =>
      rw [List.flatMap_cons, List.flatMap_cons] at h
      obtain ⟨hab, hrest⟩ := List.append_inj h (by rw [hlen, hlen])
      rw [hf hab, ih hrest]

def octets (x : List UInt8) : List Bool := x.flatMap fun b => bits 8 b.toNat

def sextets (vs : List (Fin 64)) : List Bool := vs.flatMap fun v => bits 6 v.val

theorem octets_cons (b : UInt8) (x : List UInt8) : octets (b :: x) = bits 8 b.toNat ++ octets x :=
  List.flatMap_cons

theorem sextets_cons (v : Fin 64) (vs : List (Fin 64)) :
    sextets (v :: vs) = bits 6 v ++ sextets vs :=
  List.flatMap_cons

theorem octets_injective : Function.Injective octets := by
  refine @flatMap_injective _ _ (fun b : UInt8 => bits 8 b.toNat) 8 (by omega)
    (fun b => bits_length 8 _) ?_
  intro a b h
  have hmod := bits_eq_iff.mp h
  have ha := a.toNat_lt
  have hb := b.toNat_lt
  exact UInt8.toNat_inj.mp (by omega)

theorem sextets_injective : Function.Injective sextets := by
  refine @flatMap_injective _ _ (fun v : Fin 64 => bits 6 v.val) 6 (by omega)
    (fun v => bits_length 6 _) ?_
  intro a b h
  have hmod := bits_eq_iff.mp h
  exact Fin.ext (by omega)

theorem octets_length (x : List UInt8) : (octets x).length = 8 * x.length := by
  induction x with
  | nil => rfl
  | cons b x ih =>
    rw [octets_cons, List.length_append, bits_length, ih, List.length_cons]
    omega

theorem sextets_length (vs : List (Fin 64)) : (sextets vs).length = 6 * vs.length := by
  induction vs with
  | nil => rfl
  | cons v vs ih =>
    rw [sextets_cons, List.length_append, bits_length, ih, List.length_cons]
    omega

/-- The six-bit groups of some data, the last of them filled up with zeros. -/
def Grouped (x : List UInt8) (vs : List (Fin 64)) : Prop :=
  ∃ z, z < 6 ∧ sextets vs = octets x ++ List.replicate z false

/-- The character that fills up the last quantum of four. -/
def pad : UInt8 := 61

/-- The encoding of some data, with padding. -/
def Encodes (alphabet : Fin 64 → UInt8) (x text : List UInt8) : Prop :=
  ∃ vs p, Grouped x vs ∧ p < 4 ∧ 4 ∣ vs.length + p ∧
    text = vs.map alphabet ++ List.replicate p pad

def EncodesUnpadded (alphabet : Fin 64 → UInt8) (x text : List UInt8) : Prop :=
  ∃ vs, Grouped x vs ∧ text = vs.map alphabet

def standard (v : Fin 64) : UInt8 :=
  if v < 26 then .ofNat (65 + v)
  else if v < 52 then .ofNat (97 + (v - 26))
  else if v < 62 then .ofNat (48 + (v - 52))
  else if v = 62 then 43
  else 47

/-- The alphabet that is safe in URLs and file names. -/
def urlSafe (v : Fin 64) : UInt8 := if v = 62 then 45 else if v = 63 then 95 else standard v

theorem Grouped.unique {x : List UInt8} {vs ws : List (Fin 64)} (hv : Grouped x vs)
    (hw : Grouped x ws) : vs = ws := by
  obtain ⟨z, hz, hvs⟩ := hv
  obtain ⟨z', hz', hws⟩ := hw
  have hlen := congrArg List.length hvs
  have hlen' := congrArg List.length hws
  rw [sextets_length, List.length_append, octets_length, List.length_replicate] at hlen hlen'
  obtain rfl : z = z' := by omega
  exact sextets_injective (hvs.trans hws.symm)

theorem Grouped.ne_nil {x : List UInt8} {vs : List (Fin 64)} (h : Grouped x vs) (hx : x ≠ []) :
    vs ≠ [] := by
  rintro rfl
  obtain ⟨z, hz, hvs⟩ := h
  have hlen := congrArg List.length hvs
  rw [sextets_length, List.length_append, octets_length, List.length_nil] at hlen
  have hpos := List.length_pos_iff.mpr hx
  omega

theorem Encodes.ne_nil {alphabet : Fin 64 → UInt8} {x text : List UInt8}
    (h : Encodes alphabet x text) (hx : x ≠ []) : text ≠ [] := by
  obtain ⟨vs, p, hvs, -, -, rfl⟩ := h
  have hne : vs.map alphabet ≠ [] := fun hnil => hvs.ne_nil hx (List.map_eq_nil_iff.mp hnil)
  exact List.append_ne_nil_of_left_ne_nil hne _

/-- There is one encoding. -/
theorem Encodes.unique {alphabet : Fin 64 → UInt8} {x a b : List UInt8}
    (ha : Encodes alphabet x a) (hb : Encodes alphabet x b) : a = b := by
  obtain ⟨vs, p, hvs, hp, hdvd, rfl⟩ := ha
  obtain ⟨ws, q, hws, hq, hdvd', rfl⟩ := hb
  obtain rfl := hvs.unique hws
  obtain rfl : p = q := by omega
  rfl

/-- Whoever reads whole octets off the groups, and leaves less than one, has read the data. -/
theorem Grouped.decoded {x out : List UInt8} {vs : List (Fin 64)} {rest : List Bool}
    (h : Grouped x vs) (hrest : rest.length < 8) (hout : octets out ++ rest = sextets vs) :
    out = x := by
  obtain ⟨z, hz, hvs⟩ := h
  rw [hvs] at hout
  have hlen := congrArg List.length hout
  rw [List.length_append, List.length_append, octets_length, octets_length,
    List.length_replicate] at hlen
  obtain ⟨hoct, -⟩ := List.append_inj hout (by rw [octets_length, octets_length]; omega)
  exact octets_injective hoct

/-- The groups of three octets, from the highest bits. -/
def first (a : UInt8) : Fin 64 := ⟨a.toNat / 4, by have := a.toNat_lt; omega⟩

def second (a b : UInt8) : Fin 64 :=
  ⟨a.toNat % 4 * 16 + b.toNat / 16, by have := b.toNat_lt; omega⟩

def third (b c : UInt8) : Fin 64 :=
  ⟨b.toNat % 16 * 4 + c.toNat / 64, by have := c.toNat_lt; omega⟩

def fourth (c : UInt8) : Fin 64 := ⟨c.toNat % 64, by omega⟩

theorem bits_quantum (a b c : UInt8) :
    bits 6 (first a) ++ (bits 6 (second a b) ++ (bits 6 (third b c) ++ bits 6 (fourth c))) =
      bits 8 a.toNat ++ (bits 8 b.toNat ++ bits 8 c.toNat) := by
  have ha := a.toNat_lt
  have hb := b.toNat_lt
  have hc := c.toNat_lt
  obtain ⟨n, hn⟩ : ∃ n, n = a.toNat * 65536 + b.toNat * 256 + c.toNat := ⟨_, rfl⟩
  have hfour := bits_add 6 18 n
  rw [bits_add 6 12 n, bits_add 6 6 n] at hfour
  have hthree := bits_add 8 16 n
  rw [bits_add 8 8 n] at hthree
  have h1 : bits 6 (first a) = bits 6 (n / 2 ^ 18) := bits_eq_iff.mpr (by simp only [first]; omega)
  have h2 : bits 6 (second a b) = bits 6 (n / 2 ^ 12) :=
    bits_eq_iff.mpr (by simp only [second]; omega)
  have h3 : bits 6 (third b c) = bits 6 (n / 2 ^ 6) :=
    bits_eq_iff.mpr (by simp only [third]; omega)
  have h4 : bits 6 (fourth c) = bits 6 n := bits_eq_iff.mpr (by simp only [fourth]; omega)
  have ho1 : bits 8 a.toNat = bits 8 (n / 2 ^ 16) := bits_eq_iff.mpr (by omega)
  have ho2 : bits 8 b.toNat = bits 8 (n / 2 ^ 8) := bits_eq_iff.mpr (by omega)
  have ho3 : bits 8 c.toNat = bits 8 n := bits_eq_iff.mpr (by omega)
  rw [h1, h2, h3, h4, ho1, ho2, ho3]
  exact hfour.symm.trans hthree

theorem Grouped.nil : Grouped [] [] := ⟨0, by omega, rfl⟩

theorem Grouped.one (a : UInt8) : Grouped [a] [first a, second a 0] := by
  refine ⟨4, by omega, ?_⟩
  have hq := bits_quantum a 0 0
  have hz : bits 6 (third 0 0) ++ bits 6 (fourth 0) = List.replicate 12 false := by decide
  have hz' : bits 8 (0 : UInt8).toNat ++ bits 8 (0 : UInt8).toNat =
      List.replicate 4 false ++ List.replicate 12 false := by decide
  rw [hz, hz', ← List.append_assoc, ← List.append_assoc] at hq
  simpa [sextets, octets] using List.append_cancel_right hq

theorem Grouped.two (a b : UInt8) : Grouped [a, b] [first a, second a b, third b 0] := by
  refine ⟨2, by omega, ?_⟩
  have hq := bits_quantum a b 0
  have hz : bits 6 (fourth 0) = List.replicate 6 false := by decide
  have hz' : bits 8 (0 : UInt8).toNat = List.replicate 2 false ++ List.replicate 6 false := by
    decide
  rw [hz, hz', ← List.append_assoc, ← List.append_assoc, ← List.append_assoc,
    ← List.append_assoc] at hq
  simpa [sextets, octets] using List.append_cancel_right hq

theorem Grouped.three {x : List UInt8} {vs : List (Fin 64)} (h : Grouped x vs) (a b c : UInt8) :
    Grouped (a :: b :: c :: x) (first a :: second a b :: third b c :: fourth c :: vs) := by
  obtain ⟨z, hz, hvs⟩ := h
  refine ⟨z, hz, ?_⟩
  have hq := congrArg (fun t => t ++ sextets vs) (bits_quantum a b c)
  simp only [List.append_assoc] at hq
  simp only [sextets_cons, octets_cons, List.append_assoc]
  rw [hq, hvs]

theorem grouped_total : ∀ x : List UInt8, ∃ vs, Grouped x vs
  | [] => ⟨_, .nil⟩
  | [a] => ⟨_, .one a⟩
  | [a, b] => ⟨_, .two a b⟩
  | a :: b :: c :: x => by
    obtain ⟨vs, hvs⟩ := grouped_total x
    exact ⟨_, hvs.three a b c⟩

variable (alphabet : Fin 64 → UInt8)

/-- All data has an encoding, with padding and without. -/
theorem encodes_existsUnique (x : List UInt8) : ∃! text, Encodes alphabet x text := by
  obtain ⟨vs, hvs⟩ := grouped_total x
  refine ⟨_, ⟨vs, (4 - vs.length % 4) % 4, hvs, by omega, by omega, rfl⟩, ?_⟩
  intro text htext
  exact htext.unique ⟨vs, _, hvs, by omega, by omega, rfl⟩

theorem encodesUnpadded_existsUnique (x : List UInt8) :
    ∃! text, EncodesUnpadded alphabet x text := by
  obtain ⟨vs, hvs⟩ := grouped_total x
  refine ⟨_, ⟨vs, hvs, rfl⟩, ?_⟩
  rintro text ⟨ws, hws, rfl⟩
  rw [hvs.unique hws]

theorem Encodes.nil : Encodes alphabet [] [] := ⟨[], 0, .nil, by omega, ⟨0, rfl⟩, rfl⟩

theorem Encodes.one (a : UInt8) :
    Encodes alphabet [a] [alphabet (first a), alphabet (second a 0), pad, pad] :=
  ⟨_, 2, .one a, by omega, ⟨1, rfl⟩, rfl⟩

theorem Encodes.two (a b : UInt8) :
    Encodes alphabet [a, b]
      [alphabet (first a), alphabet (second a b), alphabet (third b 0), pad] :=
  ⟨_, 1, .two a b, by omega, ⟨1, rfl⟩, rfl⟩

theorem Encodes.three {alphabet : Fin 64 → UInt8} {x text : List UInt8}
    (h : Encodes alphabet x text) (a b c : UInt8) :
    Encodes alphabet (a :: b :: c :: x)
      (alphabet (first a) :: alphabet (second a b) :: alphabet (third b c) ::
        alphabet (fourth c) :: text) := by
  obtain ⟨vs, p, hvs, hp, hdvd, rfl⟩ := h
  refine ⟨_, p, hvs.three a b c, hp, ?_, rfl⟩
  simp only [List.length_cons]
  omega

end Adwarden.Lib.Base64
