import Adwarden.Tls.ChunkDecoding
import Mathlib.Data.List.TakeWhile

/-! What the chunk reader takes for a whole coded body, and when that is one. -/
namespace Adwarden.Tls
open Adwarden.Lib

/-- A chunk as it lies on the wire. -/
structure ChunkPiece where
  line : Bytes
  data : Bytes
  ending : Bytes

def ChunkPiece.wire (c : ChunkPiece) : Bytes := c.line ++ (c.data ++ c.ending)

/-- A coded body cut into its lines and chunks. -/
structure BodyPieces where
  chunks : List ChunkPiece
  last : Bytes
  trailers : List Bytes
  blank : Bytes

def BodyPieces.wire (r : BodyPieces) : Bytes :=
  r.chunks.flatMap ChunkPiece.wire ++ (r.last ++ (r.trailers.flatten ++ r.blank))

/-- A line with the LF that ends it. -/
def LfLine (l : Bytes) : Prop := ∃ text, l = text ++ [LF] ∧ LF ∉ text

/-- What the reader takes for the end of a chunk's data: CR and any byte, or any other byte. -/
def IsEnding (z : Bytes) : Prop := (∃ b, z = [CR, b]) ∨ ∃ b, b ≠ CR ∧ z = [b]

def ChunkPiece.CutBy (size : Bytes → ℕ → Prop) (c : ChunkPiece) : Prop :=
  LfLine c.line ∧ size c.line c.data.length ∧ c.data ≠ [] ∧ IsEnding c.ending

/-- The pieces are those of a coded body, with sizes read by `size`. -/
structure CutBy (size : Bytes → ℕ → Prop) (r : BodyPieces) : Prop where
  chunks : ∀ c ∈ r.chunks, c.CutBy size
  last : LfLine r.last ∧ size r.last 0
  trailers : ∀ l ∈ r.trailers, LfLine l ∧ trimCrlf l ≠ []
  blank : LfLine r.blank ∧ trimCrlf r.blank = []

/-- A size line that the reader accepts. -/
def ReadsSize (l : Bytes) (n : ℕ) : Prop := chunkSize l = some n

/-- The pieces as the reader cuts them. -/
def Accepted (r : BodyPieces) : Prop := CutBy ReadsSize r

def IsLineEnd (z : Bytes) : Prop := z = CRLF ∨ z = [LF]

/-- A space or a tab. -/
def isBlank (b : UInt8) : Bool := b == 32 || b == 9

/-- A size line: hex digits between blanks, an optional extension, a line end. -/
inductive SizeText : Bytes → ℕ → Prop
  | mk {before digits behind ext ending : Bytes} (hb : ∀ b ∈ before, isBlank b)
      (hne : digits ≠ []) (hd : ∀ d ∈ digits, isHexDigit d) (ha : ∀ b ∈ behind, isBlank b)
      (hx : ext = [] ∨ ext.head? = some 59) (hlf : LF ∉ ext) (he : IsLineEnd ending) :
      SizeText (before ++ digits ++ behind ++ ext ++ ending)
        (Str.digitsValue 16 (asciiStr digits))

/-- The grammar: size lines, data ended by a line end, a zero chunk, trailers, a blank line. -/
def ValidBody (wire : Bytes) : Prop :=
  ∃ r : BodyPieces, r.wire = wire ∧ CutBy SizeText r ∧ (∀ c ∈ r.chunks, IsLineEnd c.ending) ∧
    IsLineEnd r.blank

/-- Nothing but hex digits, spaces and tabs stands where the size is read: in front of the `;` and
of the line end. -/
def PlainSize (l : Bytes) : Prop :=
  ∃ text ending, l = text ++ ending ∧ IsLineEnd ending ∧
    ∀ b ∈ (splitOn 59 text).headD [], isHexDigit b ∨ isBlank b

/-- None of the leniencies of the reader is made use of. -/
structure Strict (r : BodyPieces) : Prop where
  chunks : ∀ c ∈ r.chunks, PlainSize c.line ∧ IsLineEnd c.ending
  last : PlainSize r.last
  blank : IsLineEnd r.blank

section Lines

/-- Lines are cut in one way only. -/
theorem LfLine.unique {a b x y : Bytes} (ha : LfLine a) (hb : LfLine b) (h : a ++ x = b ++ y) :
    a = b ∧ x = y := by
  obtain ⟨s, rfl, hs⟩ := ha
  obtain ⟨t, rfl, ht⟩ := hb
  rw [List.append_assoc, List.append_assoc] at h
  obtain ⟨rfl, hxy⟩ := line_unique hs ht h
  exact ⟨rfl, hxy⟩

/-- There is one LF in a line, at its end. -/
theorem LfLine.front {a ending : Bytes} (h : LfLine (a ++ ending)) (he : IsLineEnd ending) :
    LF ∉ a := by
  obtain ⟨text, htext, hlf⟩ := h
  intro hm
  rcases he with rfl | rfl
  · have hsplit : (a ++ [CR]) ++ [LF] = text ++ [LF] := by rw [← htext, List.append_assoc]; rfl
    obtain rfl := List.append_cancel_right hsplit
    exact hlf (List.mem_append_left _ hm)
  · obtain rfl := List.append_cancel_right htext
    exact hlf hm

theorem IsEnding.unique {a b x y : Bytes} (ha : IsEnding a) (hb : IsEnding b)
    (h : a ++ x = b ++ y) : a = b ∧ x = y := by
  rcases ha with ⟨c, rfl⟩ | ⟨c, hc, rfl⟩
  · rcases hb with ⟨d, rfl⟩ | ⟨d, hd, rfl⟩
    · simpa using h
    · have hcr := (List.cons.inj h).1
      exact absurd hcr.symm hd
  · rcases hb with ⟨d, rfl⟩ | ⟨d, hd, rfl⟩
    · have hcr := (List.cons.inj h).1
      exact absurd hcr hc
    · simpa using h

/-- The trailers and the blank line behind the zero chunk are cut in one way only. -/
theorem trailers_unique {ts ts' : List Bytes} {b b' x x' : Bytes}
    (ht : ∀ l ∈ ts, LfLine l ∧ trimCrlf l ≠ []) (ht' : ∀ l ∈ ts', LfLine l ∧ trimCrlf l ≠ [])
    (hb : LfLine b ∧ trimCrlf b = []) (hb' : LfLine b' ∧ trimCrlf b' = [])
    (h : ts.flatten ++ (b ++ x) = ts'.flatten ++ (b' ++ x')) :
    ts = ts' ∧ b = b' ∧ x = x' := by
  induction ts generalizing ts' with
  | nil =>
    cases ts' with
    | nil =>
      obtain ⟨rfl, rfl⟩ := hb.1.unique hb'.1 h
      exact ⟨rfl, rfl, rfl⟩
    | cons l ls =>
      obtain ⟨hl, hne⟩ := ht' l (List.mem_cons_self ..)
      rw [List.flatten_cons, List.append_assoc] at h
      obtain ⟨rfl, -⟩ := hb.1.unique hl h
      exact absurd hb.2 hne
  | cons l ls ih =>
    obtain ⟨hl, hne⟩ := ht l (List.mem_cons_self ..)
    cases ts' with
    | nil =>
      rw [List.flatten_cons, List.append_assoc] at h
      obtain ⟨rfl, -⟩ := hl.unique hb'.1 h
      exact absurd hb'.2 hne
    | cons l' ls' =>
      obtain ⟨hl', -⟩ := ht' l' (List.mem_cons_self ..)
      rw [List.flatten_cons, List.append_assoc, List.flatten_cons, List.append_assoc] at h
      obtain ⟨rfl, hrest⟩ := hl.unique hl' h
      obtain ⟨rfl, hbx⟩ := ih (fun m hm => ht m (List.mem_cons_of_mem _ hm))
        (fun m hm => ht' m (List.mem_cons_of_mem _ hm)) hrest
      exact ⟨rfl, hbx⟩

variable {size size' : Bytes → ℕ → Prop}

/-- Two ways of reading sizes that agree cut a body in one way only. -/
theorem CutBy.unique (hagree : ∀ l m n, size l m → size' l n → m = n) {r r' : BodyPieces}
    (h : CutBy size r) (h' : CutBy size' r') {x x' : Bytes} (heq : r.wire ++ x = r'.wire ++ x') :
    r = r' ∧ x = x' := by
  obtain ⟨chunks, last, trailers, blank⟩ := r
  obtain ⟨chunks', last', trailers', blank'⟩ := r'
  obtain ⟨hc, ⟨hl, hz⟩, ht, hb⟩ := h
  obtain ⟨hc', ⟨hl', hz'⟩, ht', hb'⟩ := h'
  dsimp only [BodyPieces.wire] at *
  simp only [List.append_assoc] at heq
  induction chunks generalizing chunks' with
  | nil =>
    cases chunks' with
    | nil =>
      obtain ⟨rfl, hrest⟩ := hl.unique hl' heq
      obtain ⟨rfl, rfl, rfl⟩ := trailers_unique ht ht' hb hb' hrest
      exact ⟨rfl, rfl⟩
    | cons c cs =>
      obtain ⟨hline, hsize, hne, -⟩ := hc' c (List.mem_cons_self ..)
      simp only [List.flatMap_nil, List.nil_append, List.flatMap_cons, ChunkPiece.wire,
        List.append_assoc] at heq
      obtain ⟨rfl, -⟩ := hl.unique hline heq
      have hlen := hagree _ _ _ hz hsize
      exact absurd (List.eq_nil_of_length_eq_zero hlen.symm) hne
  | cons c cs ih =>
    obtain ⟨hline, hsize, hne, hend⟩ := hc c (List.mem_cons_self ..)
    cases chunks' with
    | nil =>
      simp only [List.flatMap_nil, List.nil_append, List.flatMap_cons, ChunkPiece.wire,
        List.append_assoc] at heq
      obtain ⟨rfl, -⟩ := hline.unique hl' heq
      have hlen := hagree _ _ _ hsize hz'
      exact absurd (List.eq_nil_of_length_eq_zero hlen) hne
    | cons c' cs' =>
      obtain ⟨hline', hsize', -, hend'⟩ := hc' c' (List.mem_cons_self ..)
      obtain ⟨line, data, ending⟩ := c
      obtain ⟨line', data', ending'⟩ := c'
      simp only [List.flatMap_cons, ChunkPiece.wire, List.append_assoc] at heq
      obtain ⟨rfl, hdata⟩ := hline.unique hline' heq
      obtain ⟨rfl, hends⟩ := List.append_inj hdata (hagree _ _ _ hsize hsize')
      obtain ⟨rfl, hrest⟩ := hend.unique hend' hends
      obtain ⟨heq', hx⟩ := ih cs' (fun m hm => hc m (List.mem_cons_of_mem _ hm))
        (fun m hm => hc' m (List.mem_cons_of_mem _ hm)) hrest
      obtain ⟨rfl, rfl, rfl, rfl⟩ := BodyPieces.mk.inj heq'
      exact ⟨rfl, hx⟩

end Lines

section Sizes

private theorem isBlank_ascii {b : UInt8} (h : isBlank b) :
    b < 0x80 ∧ b ≠ LF ∧ b ≠ CR ∧ b ≠ 59 ∧ Str.isWhitespace (Char.ofNat b.toNat) = true :=
  forall_byte (P := fun b => isBlank b = true → b < 0x80 ∧ b ≠ LF ∧ b ≠ CR ∧ b ≠ 59 ∧
    Str.isWhitespace (Char.ofNat b.toNat) = true) (by decide +kernel) b h

/-- Blanks around a text do not survive `trim`. -/
theorem trim_blanks {before behind : Bytes} (hb : ∀ b ∈ before, isBlank b)
    (ha : ∀ b ∈ behind, isBlank b) (s : Str) :
    Str.trim (asciiStr before ++ s ++ asciiStr behind) = Str.trim s := by
  have hfront : Str.trim (asciiStr before ++ s) = Str.trim s := by
    induction before with
    | nil => rfl
    | cons b before ih =>
      have hblank := (isBlank_ascii (hb b (List.mem_cons_self ..))).2.2.2.2
      rw [asciiStr, List.map_cons, List.cons_append, Str.trim_cons_blank hblank]
      exact ih fun c hc => hb c (List.mem_cons_of_mem _ hc)
  induction behind using List.reverseRecOn with
  | nil =>
    have hnil : asciiStr [] = [] := rfl
    rw [hnil, List.append_nil]
    exact hfront
  | append_singleton behind b ih =>
    have hblank := (isBlank_ascii (ha b (by simp))).2.2.2.2
    rw [Str.asciiStr_append, ← List.append_assoc]
    refine (Str.trim_append_blank hblank _).trans ?_
    exact ih fun c hc => ha c (by simp [hc])

/-- The digits of a number that was read. -/
theorem digits_of_pushDigit {radix : ℕ} {cs : Str} {start : Option ℕ} {n : ℕ}
    (h : cs.foldl (Str.pushDigit radix) start = some n) :
    ∀ c ∈ cs, ∃ d, Str.digitVal c = some d ∧ d < radix := by
  induction cs generalizing start with
  | nil => simp
  | cons c cs ih =>
    have hnone : ∀ ds : Str, ds.foldl (Str.pushDigit radix) none = none := by
      intro ds
      induction ds with
      | nil => rfl
      | cons d ds ihd => rw [List.foldl_cons]; exact ihd
    rw [List.foldl_cons] at h
    intro d hd
    rcases List.mem_cons.mp hd with rfl | hd
    · cases hp : Str.pushDigit radix start d with
      | none =>
        rw [hp, hnone] at h
        cases h
      | some m =>
        unfold Str.pushDigit at hp
        split at hp
        · next k e hk =>
          split_ifs at hp with hlt
          exact ⟨e, hk, hlt⟩
        · cases hp
    · exact ih h d hd

private theorem hexDigit_iff : ∀ b : UInt8, b < 0x80 →
    ((∃ d : Fin 16, Str.digitVal (Char.ofNat b.toNat) = some d.val) ↔ isHexDigit b = true) :=
  forall_byte (by decide +kernel)

private theorem splitOn_part {h ext : Bytes} (hsemi : (59 : UInt8) ∉ h)
    (hx : ext = [] ∨ ext.head? = some 59) : (splitOn 59 (h ++ ext)).headD [] = h := by
  cases ext with
  | nil => simp [splitOn_of_not_mem hsemi]
  | cons x ext =>
    obtain rfl : x = 59 := by simpa using hx
    simp [splitOn_append hsemi]

private theorem splitOn_head (text : Bytes) : ∃ h ext, text = h ++ ext ∧
    (ext = [] ∨ ext.head? = some 59) ∧ (59 : UInt8) ∉ h := by
  refine piece_induction 59 ?_ ?_ text
  · intro l hl
    exact ⟨l, [], (List.append_nil l).symm, Or.inl rfl, hl⟩
  · intro l rest hl _
    exact ⟨l, 59 :: rest, rfl, Or.inr rfl, hl⟩

/-- The part of a line that the size is read from. -/
theorem chunkSize_part {h ext ending : Bytes} (hsemi : (59 : UInt8) ∉ h)
    (hend : ∀ b ∈ h, b ≠ LF ∧ b ≠ CR) (hx : ext = [] ∨ ext.head? = some 59)
    (he : IsLineEnd ending) : chunkSize (h ++ ext ++ ending) = parseHex h := by
  have hlast : ∀ x ∈ h.getLast?, x ≠ LF ∧ x ≠ CR :=
    fun x hm => hend x (List.mem_of_mem_getLast? hm)
  have htrim : trimCrlf (h ++ ext ++ ending) = trimCrlf (h ++ ext) := by
    rcases he with rfl | rfl
    · exact trimCrlf_crlf _
    · simp [trimCrlf]
  obtain ⟨ext', heq, hpre⟩ := trimCrlf_append h ext hlast
  have hx' : ext' = [] ∨ ext'.head? = some 59 := by
    obtain ⟨t, rfl⟩ := hpre
    cases ext' with
    | nil => exact Or.inl rfl
    | cons x ext' => exact Or.inr (by simpa using hx)
  rw [chunkSize, htrim, heq, splitOn_part hsemi hx']

/-- The size that the reader finds is the one that the digits say. -/
theorem SizeText.chunkSize {l : Bytes} {m n : ℕ} (h : SizeText l m)
    (hn : Tls.chunkSize l = some n) : m = n := by
  obtain ⟨hb, hne, hd, ha, hx, -, he⟩ := h
  rename_i before digits behind ext ending
  have hplain : ∀ b ∈ before ++ digits ++ behind, (b ≠ LF ∧ b ≠ CR) ∧ b ≠ 59 ∧ b < 0x80 := by
    intro b hm
    rcases List.mem_append.mp hm with hm | hm
    · rcases List.mem_append.mp hm with hm | hm
      · obtain ⟨h1, h2, h3, h4, -⟩ := isBlank_ascii (hb b hm)
        exact ⟨⟨h2, h3⟩, h4, h1⟩
      · obtain ⟨h1, h2, h3⟩ := hexDigit_ne (hd b hm)
        exact ⟨⟨h1, h2⟩, h3, isHexDigit_ascii (hd b hm)⟩
    · obtain ⟨h1, h2, h3, h4, -⟩ := isBlank_ascii (ha b hm)
      exact ⟨⟨h2, h3⟩, h4, h1⟩
  have hascii : IsAscii (before ++ digits ++ behind) := fun b hm => (hplain b hm).2.2
  have hdig : Str.IsDigits 16 (asciiStr digits) := by
    refine ⟨by simpa [asciiStr] using hne, ?_⟩
    simp only [asciiStr, List.mem_map]
    rintro _ ⟨d, hm, rfl⟩
    exact hexDigit_digitVal (hd d hm)
  rw [chunkSize_part (fun hm => (hplain _ hm).2.1 rfl) (fun b hm => (hplain b hm).1) hx he] at hn
  simp only [parseHex, Str.fromUtf8_ascii hascii, Option.bind_eq_bind, Option.bind_some,
    Str.asciiStr_append, trim_blanks hb ha, hdig.trim, if_neg hdig.nonempty] at hn
  rw [Str.fromStrRadix, hdig.stripPlus, if_neg hdig.nonempty, Str.foldl_pushDigit hdig.digits] at hn
  exact (Option.filter_eq_some_iff.mp hn).1 |> Option.some.inj

private theorem trim_split (s : Str) : ∃ p q, s = p ++ Str.trim s ++ q ∧
    (∀ c ∈ p, Str.isWhitespace c = true) ∧ ∀ c ∈ q, Str.isWhitespace c = true := by
  refine ⟨s.takeWhile Str.isWhitespace,
    ((Str.trimStart s).reverse.takeWhile Str.isWhitespace).reverse, ?_, ?_, ?_⟩
  · have hback : Str.trim s ++ ((Str.trimStart s).reverse.takeWhile Str.isWhitespace).reverse =
        Str.trimStart s := by
      rw [Str.trim, Str.trimEnd, ← List.reverse_append, List.takeWhile_append_dropWhile,
        List.reverse_reverse]
    rw [List.append_assoc, hback, Str.trimStart, List.takeWhile_append_dropWhile]
  · exact fun c hc => List.mem_takeWhile_imp hc
  · exact fun c hc => List.mem_takeWhile_imp (List.mem_reverse.mp hc)

/-- A size that is read with nothing but digits and blanks to read it from is in the grammar. -/
theorem PlainSize.sizeText {l : Bytes} {n : ℕ} (h : PlainSize l) (hl : LfLine l)
    (hn : Tls.chunkSize l = some n) : SizeText l n := by
  obtain ⟨text, ending, rfl, he, hplain⟩ := h
  obtain ⟨h, ext, rfl, hx, hsemi⟩ := splitOn_head text
  rw [splitOn_part hsemi hx] at hplain
  have hbytes : ∀ b ∈ h, (b ≠ LF ∧ b ≠ CR) ∧ b < 0x80 ∧ b ≠ 43 := by
    intro b hm
    have hkey := forall_byte (P := fun b => isHexDigit b = true ∨ isBlank b = true →
      (b ≠ LF ∧ b ≠ CR) ∧ b < 0x80 ∧ b ≠ 43) (by decide +kernel) b
    exact hkey (hplain b hm)
  rw [chunkSize_part hsemi (fun b hm => (hbytes b hm).1) hx he] at hn
  have hascii : IsAscii h := fun b hm => (hbytes b hm).2.1
  obtain ⟨p, q, hsplit, hp, hq⟩ := trim_split (asciiStr h)
  simp only [parseHex, Str.fromUtf8_ascii hascii, Option.bind_eq_bind, Option.bind_some] at hn
  generalize Str.trim (asciiStr h) = t at hn hsplit
  split_ifs at hn with hne
  obtain ⟨front, behind, rfl, hfront, rfl⟩ := List.map_eq_append_iff.mp hsplit
  obtain ⟨before, digits, rfl, rfl, rfl⟩ := List.map_eq_append_iff.mp hfront
  have hblank : ∀ b ∈ before ++ digits ++ behind,
      Str.isWhitespace (Char.ofNat b.toNat) = true → isBlank b := by
    intro b hm hw
    refine (hplain b hm).resolve_left fun hd => ?_
    rw [hexDigit_not_blank hd] at hw
    cases hw
  have hdig : asciiStr digits ≠ [] := hne
  have hplus : Str.stripPlus (asciiStr digits) = asciiStr digits := by
    unfold Str.stripPlus
    split
    · next rest hcons =>
      obtain ⟨b, tail, rfl, hb, -⟩ := List.map_eq_cons_iff.mp hcons
      have hkey := forall_byte (P := fun b => b < 0x80 → b ≠ 43 → Char.ofNat b.toNat ≠ '+')
        (by decide +kernel) b
      obtain ⟨-, hlow, hne43⟩ := hbytes b (by simp)
      exact absurd hb (hkey hlow hne43)
    · rfl
  have hn' : Str.fromStrRadix usizeBits 16 (asciiStr digits) = some n := hn
  rw [Str.fromStrRadix, hplus, if_neg hdig] at hn'
  obtain ⟨hfold, -⟩ := Option.filter_eq_some_iff.mp hn'
  have hall := digits_of_pushDigit hfold
  rw [Str.foldl_pushDigit hall] at hfold
  obtain rfl : Str.digitsValue 16 (asciiStr digits) = n := Option.some.inj hfold
  refine .mk ?_ (fun h => hdig (by rw [h]; rfl)) ?_ ?_ hx ?_ he
  · exact fun b hm => hblank b (by simp [hm]) (hp _ (List.mem_map_of_mem hm))
  · intro b hm
    obtain ⟨d, hd, hlt⟩ := hall _ (List.mem_map_of_mem hm)
    exact (hexDigit_iff b (hbytes b (by simp [hm])).2.1).mp ⟨⟨d, hlt⟩, hd⟩
  · exact fun b hm => hblank b (by simp [hm]) (hq _ (List.mem_map_of_mem hm))
  · exact fun hm => hl.front he (List.mem_append_right _ hm)

theorem SizeText.plain {l : Bytes} {n : ℕ} (h : SizeText l n) : PlainSize l := by
  obtain ⟨hb, hne, hd, ha, hx, -, he⟩ := h
  rename_i before digits behind ext ending
  have hkey := forall_byte (P := fun b => isHexDigit b = true ∨ isBlank b = true → b ≠ 59)
    (by decide +kernel)
  have hplain : ∀ b ∈ before ++ digits ++ behind, isHexDigit b ∨ isBlank b := by
    intro b hm
    rcases List.mem_append.mp hm with hm | hm
    · rcases List.mem_append.mp hm with hm | hm
      · exact Or.inr (hb b hm)
      · exact Or.inl (hd b hm)
    · exact Or.inr (ha b hm)
  have hsemi : (59 : UInt8) ∉ before ++ digits ++ behind := fun hm => hkey _ (hplain _ hm) rfl
  refine ⟨before ++ digits ++ behind ++ ext, ending, rfl, he, ?_⟩
  rw [splitOn_part hsemi hx]
  exact hplain

end Sizes

/-- Pieces that the reader accepts are a coded body exactly if none of its leniencies is made use
of. -/
theorem Accepted.validBody_iff {r : BodyPieces} (h : Accepted r) :
    ValidBody r.wire ↔ Strict r := by
  constructor
  · rintro ⟨r', hwire, hcut, hends, hblank⟩
    have heq : r'.wire ++ [] = r.wire ++ [] := by rw [hwire]
    have hagree : ∀ l m n, SizeText l m → ReadsSize l n → m = n :=
      fun _ _ _ hm hn => hm.chunkSize hn
    obtain ⟨rfl, -⟩ := hcut.unique hagree h heq
    exact ⟨fun c hc => ⟨(hcut.chunks c hc).2.1.plain, hends c hc⟩, hcut.last.2.plain, hblank⟩
  · intro hs
    refine ⟨r, rfl, ⟨?_, ?_, h.trailers, h.blank⟩, fun c hc => (hs.chunks c hc).2, hs.blank⟩
    · intro c hc
      obtain ⟨hl, hsize, hne, hend⟩ := h.chunks c hc
      exact ⟨hl, (hs.chunks c hc).1.sizeText hl hsize, hne, hend⟩
    · exact ⟨h.last.1, hs.last.sizeText h.last.1 h.last.2⟩

section Reading

/-- What has been read when the reader is in this state. -/
inductive ReadTo : ChunkState → Bytes → Prop
  | size {chunks : List ChunkPiece} {line : Bytes}
      (hc : ∀ c ∈ chunks, c.CutBy ReadsSize) (hl : LF ∉ line) :
      ReadTo (.size line) (chunks.flatMap ChunkPiece.wire ++ line)
  | data {chunks : List ChunkPiece} {line data : Bytes} {n : ℕ}
      (hc : ∀ c ∈ chunks, c.CutBy ReadsSize) (hl : LfLine line)
      (hsize : ReadsSize line (data.length + n)) (hpos : data.length + n ≠ 0) :
      ReadTo (.data n) (chunks.flatMap ChunkPiece.wire ++ (line ++ data))
  | dataCrlf {chunks : List ChunkPiece} {line data : Bytes}
      (hc : ∀ c ∈ chunks, c.CutBy ReadsSize) (hl : LfLine line) (hsize : ReadsSize line data.length)
      (hne : data ≠ []) :
      ReadTo .dataCrlf (chunks.flatMap ChunkPiece.wire ++ (line ++ data))
  | trailer {chunks : List ChunkPiece} {last line : Bytes} {trailers : List Bytes}
      (hc : ∀ c ∈ chunks, c.CutBy ReadsSize) (hl : LfLine last ∧ ReadsSize last 0)
      (ht : ∀ l ∈ trailers, LfLine l ∧ trimCrlf l ≠ []) (hline : LF ∉ line) :
      ReadTo (.trailer line)
        (chunks.flatMap ChunkPiece.wire ++ (last ++ (trailers.flatten ++ line)))

/-- The reader has read `p`: it stands in the middle of a body, or behind one. -/
def StandsBehind (l : ChunkLoop) (p : Bytes) : Prop :=
  (l.status = .needMore ∧ ReadTo l.state p) ∨
  (l.status = .done ∧ ∃ r, Accepted r ∧ r.wire = p) ∨ l.status = .error

variable {cap : Option ℕ}

private theorem readLine_reads {line buf l rest : Bytes} (hline : LF ∉ line)
    (h : readLine cap line buf = .line l rest) :
    ∃ used, buf = used ++ rest ∧ l = line ++ used ∧ LfLine l := by
  unfold readLine at h
  split at h
  · next pos hpos =>
    obtain ⟨htake, hbn⟩ := position_some hpos
    obtain ⟨rfl, rfl⟩ := LineRead.line.inj h
    refine ⟨buf.take (pos + 1), (List.take_append_drop ..).symm, rfl, line ++ buf.take pos, ?_, ?_⟩
    · rw [htake, List.append_assoc]
    · exact fun hm => (List.mem_append.mp hm).elim hline hbn
  · split_ifs at h

private theorem readLine_stashes {line buf l : Bytes} (hline : LF ∉ line)
    (h : readLine cap line buf = .stash l) : l = line ++ buf ∧ LF ∉ l := by
  unfold readLine at h
  split at h
  · cases h
  · next hpos =>
    split_ifs at h
    obtain rfl := LineRead.stash.inj h
    exact ⟨rfl, fun hm => (List.mem_append.mp hm).elim hline (position_eq_none.mp hpos)⟩

/-- An iteration takes bytes off the front of the buffer. -/
theorem chunkStep_stands {st : ChunkState} {buf p o : Bytes} {l : ChunkLoop}
    (h : chunkStep cap ⟨st, buf, .needMore⟩ = some (o, l)) (hp : ReadTo st p) :
    ∃ used, buf = used ++ l.buf ∧ StandsBehind l (p ++ used) := by
  cases hp with
  | @size chunks line hc hl =>
    simp only [chunkStep] at h
    split at h
    · cases h
    · obtain ⟨-, rfl⟩ := Prod.mk.inj (Option.some.inj h)
      exact ⟨[], rfl, Or.inr (Or.inr rfl)⟩
    · next l' hr =>
      obtain ⟨-, rfl⟩ := Prod.mk.inj (Option.some.inj h)
      obtain ⟨rfl, hnot⟩ := readLine_stashes hl hr
      refine ⟨buf, (List.append_nil _).symm, Or.inl ⟨rfl, ?_⟩⟩
      rw [List.append_assoc]
      exact .size hc hnot
    · next l' rest hr =>
      obtain ⟨used, rfl, rfl, hline⟩ := readLine_reads hl hr
      split at h
      · obtain ⟨-, rfl⟩ := Prod.mk.inj (Option.some.inj h)
        exact ⟨used, rfl, Or.inr (Or.inr rfl)⟩
      · next hsize =>
        obtain ⟨-, rfl⟩ := Prod.mk.inj (Option.some.inj h)
        refine ⟨used, rfl, Or.inl ⟨rfl, ?_⟩⟩
        have hat := @ReadTo.trailer chunks (line ++ used) [] [] hc ⟨hline, hsize⟩ (by simp)
          (by simp)
        simpa using hat
      · next n hsize =>
        obtain ⟨-, rfl⟩ := Prod.mk.inj (Option.some.inj h)
        refine ⟨used, rfl, Or.inl ⟨rfl, ?_⟩⟩
        have hat := @ReadTo.data chunks (line ++ used) [] (n + 1) hc hline
          (by simpa [ReadsSize] using hsize) (by simp)
        simpa using hat
  | @data chunks line data n hc hl hsize hpos =>
    cases n with
    | zero =>
      obtain ⟨-, rfl⟩ := Prod.mk.inj (Option.some.inj h)
      refine ⟨[], rfl, Or.inl ⟨rfl, ?_⟩⟩
      rw [List.append_nil]
      exact .dataCrlf hc hl hsize (fun hd => hpos (by rw [hd]; rfl))
    | succ n =>
      cases buf with
      | nil => cases h
      | cons b buf =>
        obtain ⟨-, rfl⟩ := Prod.mk.inj (Option.some.inj h)
        refine ⟨(b :: buf).take (n + 1), (List.take_append_drop ..).symm, Or.inl ⟨rfl, ?_⟩⟩
        have hcount : (data ++ (b :: buf).take (n + 1)).length + (n - buf.length) =
            data.length + (n + 1) := by
          rw [List.length_append, List.length_take, List.length_cons]
          omega
        have hat := @ReadTo.data chunks line (data ++ (b :: buf).take (n + 1)) (n - buf.length)
          hc hl (by rw [hcount]; exact hsize) (by omega)
        simpa using hat
  | @dataCrlf chunks line data hc hl hsize hne =>
    have hchunk : ∀ z, IsEnding z → ReadTo (.size [])
        (chunks.flatMap ChunkPiece.wire ++ (line ++ data) ++ z) := by
      intro z hz
      have hat := @ReadTo.size (chunks ++ [⟨line, data, z⟩]) [] (by
        intro c hm
        rcases List.mem_append.mp hm with hm | hm
        · exact hc c hm
        · obtain rfl := List.mem_singleton.mp hm
          exact ⟨hl, hsize, hne, hz⟩) (by simp)
      simpa [ChunkPiece.wire] using hat
    cases buf with
    | nil => cases h
    | cons b buf =>
      simp only [chunkStep] at h
      split_ifs at h with hb
      · cases buf with
        | nil => cases h
        | cons c buf =>
          obtain ⟨-, rfl⟩ := Prod.mk.inj (Option.some.inj h)
          exact ⟨[b, c], rfl, Or.inl ⟨rfl, hchunk _ (Or.inl ⟨c, by rw [hb]⟩)⟩⟩
      · obtain ⟨-, rfl⟩ := Prod.mk.inj (Option.some.inj h)
        exact ⟨[b], rfl, Or.inl ⟨rfl, hchunk _ (Or.inr ⟨b, hb, rfl⟩)⟩⟩
  | @trailer chunks last line trailers hc hlast ht hline =>
    simp only [chunkStep] at h
    split at h
    · cases h
    · obtain ⟨-, rfl⟩ := Prod.mk.inj (Option.some.inj h)
      exact ⟨[], rfl, Or.inr (Or.inr rfl)⟩
    · next l' hr =>
      obtain ⟨-, rfl⟩ := Prod.mk.inj (Option.some.inj h)
      obtain ⟨rfl, hnot⟩ := readLine_stashes hline hr
      refine ⟨buf, (List.append_nil _).symm, Or.inl ⟨rfl, ?_⟩⟩
      have hat := ReadTo.trailer hc hlast ht hnot
      simpa using hat
    · next l' rest hr =>
      obtain ⟨used, rfl, rfl, hfull⟩ := readLine_reads hline hr
      split_ifs at h with hblank
      · obtain ⟨-, rfl⟩ := Prod.mk.inj (Option.some.inj h)
        refine ⟨used, rfl, Or.inr (Or.inl ⟨rfl, ⟨chunks, last, trailers, line ++ used⟩,
          ⟨hc, hlast, ht, hfull, hblank⟩, ?_⟩)⟩
        simp [BodyPieces.wire]
      · obtain ⟨-, rfl⟩ := Prod.mk.inj (Option.some.inj h)
        refine ⟨used, rfl, Or.inl ⟨rfl, ?_⟩⟩
        have hat := @ReadTo.trailer chunks last [] (trailers ++ [line ++ used]) hc hlast (by
          intro l hm
          rcases List.mem_append.mp hm with hm | hm
          · exact ht l hm
          · obtain rfl := List.mem_singleton.mp hm
            exact ⟨hfull, hblank⟩) (by simp)
        simpa using hat

theorem run_stands (l : ChunkLoop) {p : Bytes} (h : StandsBehind l p) :
    ∃ used, l.buf = used ++ ((chunkFeeder cap).run l).2.buf ∧
      StandsBehind ((chunkFeeder cap).run l).2 (p ++ used) := by
  refine (chunkFeeder cap).run_induction (P := fun l r => ∀ p, StandsBehind l p →
    ∃ used, l.buf = used ++ r.2.buf ∧ StandsBehind r.2 (p ++ used)) l ?_ ?_ p h
  · intro l _ p hp
    exact ⟨[], rfl, by rwa [List.append_nil]⟩
  · intro l o l' hs ih p hp
    obtain ⟨st, buf, status⟩ := l
    obtain rfl : status = .needMore := by
      by_contra hne
      have hnone : chunkStep cap ⟨st, buf, status⟩ = none := chunkStep_stopped hne
      exact absurd (hnone.symm.trans hs) (by simp)
    obtain ⟨-, hread⟩ : Step.needMore = .needMore ∧ ReadTo st p := by
      rcases hp with hp | ⟨hp, -⟩ | hp
      · exact hp
      · cases hp
      · cases hp
    obtain ⟨used, hbuf, hstand⟩ := chunkStep_stands hs hread
    obtain ⟨used', hbuf', hstand'⟩ := ih _ hstand
    rw [List.append_assoc] at hstand'
    refine ⟨used ++ used', ?_, hstand'⟩
    rw [List.append_assoc, ← hbuf']
    exact hbuf

end Reading

namespace Decoding

/-- What the calls on this input have come to. -/
def Fed (d : Decoding) (input : Bytes) : Prop :=
  ∃ p, input = p ++ d.buf ∧ StandsBehind ⟨d.reader.state, d.buf, d.step⟩ p

theorem Fed.call {d : Decoding} {input : Bytes} (h : d.Fed input) (piece : Bytes) :
    (d.call piece).Fed (input ++ piece) := by
  obtain ⟨p, rfl, hp⟩ := h
  unfold Decoding.call
  split_ifs with hmore
  · have hp' : StandsBehind ⟨d.reader.state, d.buf ++ piece, .needMore⟩ p := by
      rw [hmore] at hp
      exact hp
    obtain ⟨used, hbuf, hstand⟩ := @run_stands (some maxHeaderBytes) _ _ hp'
    refine ⟨p ++ used, ?_, hstand⟩
    rw [List.append_assoc, List.append_assoc]
    exact congrArg (p ++ ·) hbuf
  · exact ⟨p, by rw [List.append_assoc], hp⟩

theorem Fed.calls {d : Decoding} {input : Bytes} (h : d.Fed input) (pieces : List Bytes) :
    (d.calls pieces).Fed (input ++ pieces.flatten) := by
  induction pieces generalizing d input with
  | nil => simpa [Decoding.calls] using h
  | cons piece pieces ih =>
    rw [List.flatten_cons, ← List.append_assoc]
    exact ih (h.call piece)

theorem fed_new : ({} : Decoding).Fed [] :=
  ⟨[], rfl, Or.inl ⟨rfl, @ReadTo.size [] [] (by simp) (by simp)⟩⟩

/-- What the calls have consumed. -/
def consumed (pieces : List Bytes) : Bytes :=
  pieces.flatten.take (pieces.flatten.length - (({} : Decoding).calls pieces).buf.length)

end Decoding

/-- The input starts with a body as the reader cuts it, and it is cut without leniency. -/
def StartsStrict (input : Bytes) : Prop :=
  ∃ r rest, Accepted r ∧ input = r.wire ++ rest ∧ Strict r

/-- A run that is done has consumed a body as the reader cuts it. -/
theorem Decoding.done_consumed {pieces : List Bytes}
    (h : (({} : Decoding).calls pieces).step = .done) : ∃ r, Accepted r ∧
      r.wire = consumed pieces ∧
      pieces.flatten = consumed pieces ++ (({} : Decoding).calls pieces).buf := by
  obtain ⟨p, hp, hstand⟩ := fed_new.calls pieces
  rw [List.nil_append] at hp
  have hconsumed : consumed pieces = p := by
    have hlen := congrArg List.length hp
    rw [List.length_append] at hlen
    rw [consumed, hlen, Nat.add_sub_cancel, hp, List.take_left]
  rw [hconsumed]
  rcases hstand with ⟨hmore, -⟩ | ⟨-, r, hr, rfl⟩ | herr
  · rw [h] at hmore
    cases hmore
  · exact ⟨r, hr, rfl, hp⟩
  · rw [h] at herr
    cases herr

theorem Accepted.startsStrict_iff {r : BodyPieces} (h : Accepted r) (rest : Bytes) :
    StartsStrict (r.wire ++ rest) ↔ Strict r := by
  constructor
  · rintro ⟨r', rest', h', heq, hs⟩
    obtain ⟨rfl, -⟩ := h.unique (fun _ _ _ hm hn => Option.some.inj (hm.symm.trans hn)) h' heq
    exact hs
  · exact fun hs => ⟨r, rest, h, rfl, hs⟩

/-- What the reader takes for a whole body is one exactly if none of its leniencies was needed. -/
theorem only_chunked_iff {pieces : List Bytes}
    (h : (({} : Decoding).calls pieces).step = .done) :
    pieces.flatten = Decoding.consumed pieces ++ (({} : Decoding).calls pieces).buf ∧
      (ValidBody (Decoding.consumed pieces) ↔ StartsStrict pieces.flatten) := by
  obtain ⟨r, hr, hwire, hsplit⟩ := Decoding.done_consumed h
  refine ⟨hsplit, ?_⟩
  rw [hsplit, ← hwire, hr.validBody_iff, hr.startsStrict_iff]

theorem only_chunked_abc :
    [codedAbc].flatten = Decoding.consumed [codedAbc] ++ (({} : Decoding).calls [codedAbc]).buf ∧
      (ValidBody (Decoding.consumed [codedAbc]) ↔ StartsStrict [codedAbc].flatten) :=
  only_chunked_iff (by decide +kernel)

/-- A chunk with a sign in front of its size and any byte behind its data. -/
def signedPiece : ChunkPiece := ⟨ascii "+1\r\n", ascii "A", ascii "X"⟩

def signedBody : BodyPieces := ⟨[signedPiece], ascii "0\r\n", [], CRLF⟩

/-- A signed size, and a byte that is no line end behind the data, are taken for a coded body. -/
theorem sign_and_junk_taken :
    (({} : Decoding).calls [ascii "+1\r\nAX0\r\n\r\n"]).step = .done ∧
      Decoding.consumed [ascii "+1\r\nAX0\r\n\r\n"] = signedBody.wire ∧
      ¬ ValidBody signedBody.wire := by
  have hline : ∀ t : Bytes, LF ∉ t → LfLine (t ++ [LF]) := fun t ht => ⟨t, rfl, ht⟩
  have hr : Accepted signedBody := by
    have hzero : chunkSize (ascii "0\r\n") = some 0 := by decide +kernel
    have hone : chunkSize (ascii "+1\r\n") = some 1 := by decide +kernel
    refine ⟨?_, ⟨hline (ascii "0\r") (by decide), hzero⟩, by simp [signedBody],
      hline [CR] (by decide), by decide⟩
    intro c hc
    obtain rfl := List.mem_singleton.mp hc
    exact ⟨hline (ascii "+1\r") (by decide), hone, by decide,
      Or.inr ⟨88, by decide, rfl⟩⟩
  refine ⟨by decide +kernel, by decide +kernel, ?_⟩
  rw [hr.validBody_iff]
  intro hs
  obtain ⟨-, hend⟩ := hs.chunks signedPiece (List.mem_singleton_self _)
  rcases hend with hend | hend <;> exact absurd hend (by decide)

end Adwarden.Tls
