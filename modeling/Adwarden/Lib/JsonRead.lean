import Adwarden.Lib.Json

/-! A reader of JSON texts. It gives every text the value that the text stands for, so that no text
stands for two values. -/
namespace Adwarden.Lib.Json

def skipSpace (s : List Char) : List Char := s.dropWhile isSpace

def isNumberChar (c : Char) : Bool :=
  isDigit c || c == '-' || c == '+' || c == '.' || c == 'e' || c == 'E'

/-- The content of a string, and what follows its closing quote. -/
def readContent : List Char → Option (List ℕ × List Char)
  | [] => none
  | c :: s =>
    if c = '"' then some ([], s)
    else if c = '\\' then
      match s with
      | [] => none
      | e :: s =>
        if e = 'u' then
          match s with
          | a :: b :: c :: d :: s => do
            let i ← hexDigit a
            let j ← hexDigit b
            let k ← hexDigit c
            let l ← hexDigit d
            let (us, s) ← readContent s
            some ((((i * 16 + j) * 16 + k) * 16 + l) :: us, s)
          | _ => none
        else do
          let u ← escapes.lookup e
          let (us, s) ← readContent s
          some (u :: us, s)
    else do
      let (us, s) ← readContent s
      some (units c ++ us, s)

def readWord (word : List Char) (v : Value) (s : List Char) : Option (Value × List Char) :=
  if word.isPrefixOf s then some (v, s.drop word.length) else none

mutual

/-- The value at the front of a text, and what follows it. The first argument bounds the depth. -/
def readValue : ℕ → List Char → Option (Value × List Char)
  | 0, _ => none
  | _ + 1, [] => none
  | n + 1, c :: s =>
    if c = '"' then (readContent s).map fun r => (.string r.1, r.2)
    else if c = '[' then
      if (skipSpace s).head? = some ']' then some (.array [], (skipSpace s).tail)
      else (readItems n s).map fun r => (.array r.1, r.2)
    else if c = '\x7b' then
      if (skipSpace s).head? = some '\x7d' then some (.object [], (skipSpace s).tail)
      else (readMembers n s).map fun r => (.object r.1, r.2)
    else if c = 'n' then readWord ['n', 'u', 'l', 'l'] .null (c :: s)
    else if c = 't' then readWord ['t', 'r', 'u', 'e'] (.bool true) (c :: s)
    else if c = 'f' then readWord ['f', 'a', 'l', 's', 'e'] (.bool false) (c :: s)
    else some (.number ((c :: s).takeWhile isNumberChar), (c :: s).dropWhile isNumberChar)

def readItems : ℕ → List Char → Option (List Value × List Char)
  | 0, _ => none
  | n + 1, s => do
    let (v, s) ← readValue n (skipSpace s)
    match skipSpace s with
    | [] => none
    | c :: s =>
      if c = ',' then (readItems n s).map fun r => (v :: r.1, r.2)
      else if c = ']' then some ([v], s)
      else none

def readMembers : ℕ → List Char → Option (List (List ℕ × Value) × List Char)
  | 0, _ => none
  | n + 1, s => do
    let (m, s) ← readMember n s
    match s with
    | [] => none
    | c :: s =>
      if c = ',' then (readMembers n s).map fun r => (m :: r.1, r.2)
      else if c = '\x7d' then some ([m], s)
      else none

def readMember : ℕ → List Char → Option ((List ℕ × Value) × List Char)
  | 0, _ => none
  | n + 1, s =>
    match skipSpace s with
    | [] => none
    | q :: s =>
      if q = '"' then do
        let (key, s) ← readContent s
        match skipSpace s with
        | [] => none
        | c :: s =>
          if c = ':' then do
            let (v, s) ← readValue n (skipSpace s)
            some ((key, v), skipSpace s)
          else none
      else none

end

def read (s : List Char) : Option Value :=
  (readValue (2 * s.length + 1) (skipSpace s)).map Prod.fst

/-- What may follow a value. -/
def Ends (s : List Char) : Prop := ∀ c ∈ s.head?, isNumberChar c = false

theorem Ends.append {a s : List Char} (ha : Spaces a) (h : Ends s) : Ends (a ++ s) := by
  cases a with
  | nil => exact h
  | cons c a =>
    have hc := ha c (List.mem_cons_self ..)
    have key : isSpace c = true → isNumberChar c = false := by
      intro hc
      simp only [isSpace, Bool.or_eq_true, beq_iff_eq] at hc
      rcases hc with ((rfl | rfl) | rfl) | rfl <;> decide
    intro x hx
    obtain rfl : c = x := by simpa using hx
    exact key hc

theorem ends_nil : Ends [] := by
  intro c hc
  cases hc

theorem ends_cons {c : Char} (s : List Char) (h : isNumberChar c = false) : Ends (c :: s) := by
  intro x hx
  obtain rfl : c = x := by simpa using hx
  exact h

theorem skipSpace_append {a : List Char} (ha : Spaces a) (s : List Char) :
    skipSpace (a ++ s) = skipSpace s :=
  List.dropWhile_append_of_pos ha

theorem skipSpace_cons {c : Char} (h : isSpace c = false) (s : List Char) :
    skipSpace (c :: s) = c :: s :=
  List.dropWhile_cons_of_neg (by rw [h]; decide)

theorem skipSpace_spaces {a : List Char} (ha : Spaces a) {c : Char} (h : isSpace c = false)
    (s : List Char) : skipSpace (a ++ c :: s) = c :: s := by
  rw [skipSpace_append ha, skipSpace_cons h]

theorem escapes_lookup {c : Char} {u : ℕ} (h : (c, u) ∈ escapes) :
    c ≠ 'u' ∧ escapes.lookup c = some u := by
  simp only [escapes, List.mem_cons, Prod.mk.injEq, List.not_mem_nil, or_false] at h
  rcases h with ⟨rfl, rfl⟩ | ⟨rfl, rfl⟩ | ⟨rfl, rfl⟩ | ⟨rfl, rfl⟩ | ⟨rfl, rfl⟩ | ⟨rfl, rfl⟩ |
    ⟨rfl, rfl⟩ | ⟨rfl, rfl⟩ <;> decide

theorem Content.read {us : List ℕ} {s : List Char} (h : Content us s) (x : List Char) :
    readContent (s ++ '"' :: x) = some (us, x) := by
  induction h with
  | nil =>
    rw [List.nil_append, readContent.eq_def]
    exact if_pos rfl
  | plain c control quote backslash _ ih =>
    rw [List.cons_append, readContent.eq_def]
    dsimp only
    rw [if_neg quote, if_neg backslash, ih]
    rfl
  | escape c u mem _ ih =>
    obtain ⟨hu, hlookup⟩ := escapes_lookup mem
    rw [List.cons_append, List.cons_append, readContent.eq_def]
    dsimp only
    rw [if_neg (by decide), if_pos rfl, if_neg hu, hlookup, ih]
    rfl
  | hex a b c d i j k l ha hb hc hd _ ih =>
    simp only [List.cons_append]
    rw [readContent.eq_def]
    dsimp only
    rw [if_neg (by decide), if_pos rfl, if_pos rfl, ha, hb, hc, hd, ih]
    rfl

private theorem digits_number {s : List Char} (h : Digits s) : ∀ c ∈ s, isNumberChar c = true := by
  intro c hc
  simp only [isNumberChar, h.2 c hc, Bool.true_or]

theorem Number.chars {s : List Char} (h : Number s) : ∀ c ∈ s, isNumberChar c = true := by
  obtain ⟨sign, int, frac, exp, hsign, ⟨hint, -⟩, hfrac, hexp, rfl⟩ := h
  intro c hc
  simp only [List.mem_append] at hc
  rcases hc with ((hc | hc) | hc) | hc
  · rcases hsign with rfl | rfl
    · cases hc
    · rw [List.mem_singleton.mp hc]
      decide
  · exact digits_number hint c hc
  · rcases hfrac with rfl | ⟨ds, hds, rfl⟩
    · cases hc
    · rcases List.mem_cons.mp hc with rfl | hc
      · decide
      · exact digits_number hds c hc
  · rcases hexp with rfl | ⟨e, sign, ds, he, hsign, hds, rfl⟩
    · cases hc
    · rcases List.mem_cons.mp hc with rfl | hc
      · rcases he with rfl | rfl <;> decide
      · rcases List.mem_append.mp hc with hc | hc
        · rcases hsign with rfl | rfl | rfl
          · cases hc
          · rw [List.mem_singleton.mp hc]
            decide
          · rw [List.mem_singleton.mp hc]
            decide
        · exact digits_number hds c hc

theorem Number.ne_nil {s : List Char} (h : Number s) : s ≠ [] := by
  obtain ⟨sign, int, frac, exp, -, ⟨⟨hint, -⟩, -⟩, -, -, rfl⟩ := h
  intro hnil
  simp only [List.append_eq_nil_iff] at hnil
  exact hint hnil.1.1.2

/-- A number is taken whole, as no character of a number follows it. -/
theorem Number.cut {s x : List Char} (h : Number s) (hx : Ends x) :
    (s ++ x).takeWhile isNumberChar = s ∧ (s ++ x).dropWhile isNumberChar = x := by
  have hstop : x.takeWhile isNumberChar = [] ∧ x.dropWhile isNumberChar = x := by
    cases x with
    | nil => exact ⟨rfl, rfl⟩
    | cons c x =>
      have hc : isNumberChar c = false := hx c rfl
      simp [hc]
  constructor
  · rw [List.takeWhile_append_of_pos h.chars, hstop.1, List.append_nil]
  · rw [List.dropWhile_append_of_pos h.chars, hstop.2]

private theorem number_start {c : Char} (h : isNumberChar c = true) :
    isSpace c = false ∧ c ≠ ']' ∧ c ≠ '"' ∧ c ≠ '[' ∧ c ≠ '\x7b' ∧ c ≠ 'n' ∧ c ≠ 't' ∧ c ≠ 'f' := by
  have hne : ∀ d, isNumberChar d = false → c ≠ d := by
    intro d hd he
    rw [he, hd] at h
    cases h
  refine ⟨?_, hne _ (by decide), hne _ (by decide), hne _ (by decide), hne _ (by decide),
    hne _ (by decide), hne _ (by decide), hne _ (by decide)⟩
  rw [isSpace, Bool.or_eq_false_iff, Bool.or_eq_false_iff, Bool.or_eq_false_iff]
  exact ⟨⟨⟨beq_false_of_ne (hne _ (by decide)), beq_false_of_ne (hne _ (by decide))⟩,
    beq_false_of_ne (hne _ (by decide))⟩, beq_false_of_ne (hne _ (by decide))⟩

/-- No value begins with a space or with the bracket that closes an array. -/
theorem IsValue.start {v : Value} {s : List Char} (h : IsValue v s) :
    ∃ c r, s = c :: r ∧ isSpace c = Bool.false ∧ c ≠ ']' := by
  cases h with
  | null => exact ⟨_, _, rfl, by decide, by decide⟩
  | true => exact ⟨_, _, rfl, by decide, by decide⟩
  | false => exact ⟨_, _, rfl, by decide, by decide⟩
  | number h =>
    obtain ⟨c, r, rfl⟩ := List.exists_cons_of_ne_nil h.ne_nil
    have hc := number_start (h.chars c (List.mem_cons_self ..))
    exact ⟨c, r, rfl, hc.1, hc.2.1⟩
  | string h => exact ⟨_, _, rfl, by decide, by decide⟩
  | noItems h => exact ⟨_, _, rfl, by decide, by decide⟩
  | array h => exact ⟨_, _, rfl, by decide, by decide⟩
  | noMembers h => exact ⟨_, _, rfl, by decide, by decide⟩
  | object h => exact ⟨_, _, rfl, by decide, by decide⟩

theorem IsValue.skipSpace {v : Value} {s a : List Char} (h : IsValue v s) (ha : Spaces a)
    (x : List Char) : Json.skipSpace (a ++ (s ++ x)) = s ++ x := by
  obtain ⟨c, r, rfl, hc, -⟩ := h.start
  rw [List.cons_append, skipSpace_spaces ha hc]

theorem IsItems.start {vs : List Value} {s : List Char} (h : IsItems vs s) (x : List Char) :
    (Json.skipSpace (s ++ x)).head? ≠ some ']' := by
  have key : ∀ {v a t} (y : List Char), Spaces a → IsValue v t →
      (Json.skipSpace (a ++ (t ++ y))).head? ≠ some ']' := by
    intro v a t y ha hv
    rw [hv.skipSpace ha]
    obtain ⟨c, r, rfl, -, hc⟩ := hv.start
    rw [List.cons_append, List.head?_cons]
    exact fun h => hc (Option.some.inj h)
  cases h with
  | last ha h hb =>
    rw [List.append_assoc, List.append_assoc]
    exact key _ ha h
  | more ha h hb rest =>
    rw [List.append_assoc, List.append_assoc, List.append_assoc]
    exact key _ ha h

theorem IsMember.start {m : List ℕ × Value} {s : List Char} (h : IsMember m s) (x : List Char) :
    (Json.skipSpace (s ++ x)).head? = some '"' := by
  cases h with
  | intro ha key hb hc h hd =>
    simp only [List.append_assoc, List.cons_append]
    rw [skipSpace_spaces ha (by decide)]
    rfl

theorem IsMembers.start {ms : List (List ℕ × Value)} {s : List Char} (h : IsMembers ms s)
    (x : List Char) : (Json.skipSpace (s ++ x)).head? = some '"' := by
  cases h with
  | last h => exact h.start x
  | more h rest =>
    rw [List.append_assoc]
    exact h.start _

theorem readWord_append (word : List Char) (v : Value) (x : List Char) :
    readWord word v (word ++ x) = some (v, x) := by
  rw [readWord, if_pos (by simp), List.drop_left]

private theorem exists_succ {m n : ℕ} (h : m < n) : ∃ k, n = k + 1 :=
  Nat.exists_eq_add_one_of_ne_zero (Nat.ne_of_gt (Nat.zero_lt_of_lt h))

mutual

/-- A value is read off the front of what follows it. -/
theorem IsValue.read {v : Value} {s : List Char} {n : ℕ} {x : List Char} :
    IsValue v s → 2 * s.length < n → Ends x → readValue n (s ++ x) = some (v, x)
  | .null, hn, _ => by
    obtain ⟨n, rfl⟩ := exists_succ hn
    exact readWord_append ['n', 'u', 'l', 'l'] .null x
  | .true, hn, _ => by
    obtain ⟨n, rfl⟩ := exists_succ hn
    exact readWord_append ['t', 'r', 'u', 'e'] (.bool .true) x
  | .false, hn, _ => by
    obtain ⟨n, rfl⟩ := exists_succ hn
    exact readWord_append ['f', 'a', 'l', 's', 'e'] (.bool .false) x
  | .number h, hn, hx => by
    obtain ⟨n, rfl⟩ := exists_succ hn
    obtain ⟨hread, hrest⟩ := h.cut hx
    obtain ⟨c, r, rfl⟩ := List.exists_cons_of_ne_nil h.ne_nil
    obtain ⟨-, -, h1, h2, h3, h4, h5, h6⟩ := number_start (h.chars c (List.mem_cons_self ..))
    rw [List.cons_append] at hread hrest ⊢
    rw [readValue, if_neg h1, if_neg h2, if_neg h3, if_neg h4, if_neg h5, if_neg h6, hread, hrest]
  | .string h, hn, _ => by
    obtain ⟨n, rfl⟩ := exists_succ hn
    rw [List.append_assoc, List.cons_append, List.singleton_append, readValue, if_pos rfl, h.read]
    rfl
  | .noItems (w := w) h, hn, _ => by
    obtain ⟨n, rfl⟩ := exists_succ hn
    rw [List.append_assoc, List.cons_append, List.singleton_append, readValue, if_neg (by decide),
      if_pos rfl, skipSpace_spaces h (by decide)]
    exact if_pos rfl
  | .array (s := s) h, hn, _ => by
    obtain ⟨n, rfl⟩ := exists_succ hn
    have hlen : 2 * s.length + 1 < n := by
      simp only [List.length_append, List.length_cons, List.length_nil] at hn
      omega
    rw [List.append_assoc, List.cons_append, List.singleton_append, readValue, if_neg (by decide),
      if_pos rfl, if_neg (h.start _), h.read hlen]
    rfl
  | .noMembers h, hn, _ => by
    obtain ⟨n, rfl⟩ := exists_succ hn
    rw [List.append_assoc, List.cons_append, List.singleton_append, readValue, if_neg (by decide),
      if_neg (by decide), if_pos rfl, skipSpace_spaces h (by decide)]
    exact if_pos rfl
  | .object (s := s) h, hn, _ => by
    obtain ⟨n, rfl⟩ := exists_succ hn
    have hlen : 2 * s.length + 1 < n := by
      simp only [List.length_append, List.length_cons, List.length_nil] at hn
      omega
    have hstart : (Json.skipSpace (s ++ '\x7d' :: x)).head? ≠ some '\x7d' := by
      rw [h.start]
      decide
    rw [List.append_assoc, List.cons_append, List.singleton_append, readValue, if_neg (by decide),
      if_neg (by decide), if_pos rfl, if_neg hstart, h.read hlen]
    rfl

theorem IsItems.read {vs : List Value} {s : List Char} {n : ℕ} {x : List Char} :
    IsItems vs s → 2 * s.length + 1 < n → readItems n (s ++ ']' :: x) = some (vs, x)
  | .last (a := a) (s := s) (b := b) ha h hb, hn => by
    obtain ⟨n, rfl⟩ := exists_succ hn
    have hlen : 2 * s.length < n := by
      simp only [List.length_append] at hn
      omega
    have hends : Ends (b ++ ']' :: x) := (ends_cons _ (by decide)).append hb
    simp only [List.append_assoc]
    rw [readItems, h.skipSpace ha, h.read hlen hends]
    simp only [Option.bind_eq_bind, Option.bind_some, skipSpace_spaces hb (show isSpace ']' = .false
      by decide)]
    rfl
  | .more (a := a) (s := s) (b := b) (t := t) ha h hb rest, hn => by
    obtain ⟨n, rfl⟩ := exists_succ hn
    have hlen : 2 * s.length < n ∧ 2 * t.length + 1 < n := by
      simp only [List.length_append, List.length_cons] at hn
      omega
    have hends : Ends (b ++ ',' :: (t ++ ']' :: x)) := (ends_cons _ (by decide)).append hb
    simp only [List.append_assoc, List.cons_append]
    rw [readItems, h.skipSpace ha, h.read hlen.1 hends]
    simp only [Option.bind_eq_bind, Option.bind_some, skipSpace_spaces hb (show isSpace ',' = .false
      by decide), if_true, rest.read hlen.2]
    rfl

theorem IsMembers.read {ms : List (List ℕ × Value)} {s : List Char} {n : ℕ} {x : List Char} :
    IsMembers ms s → 2 * s.length + 1 < n → readMembers n (s ++ '\x7d' :: x) = some (ms, x)
  | .last h, hn => by
    obtain ⟨n, rfl⟩ := exists_succ hn
    rw [readMembers, h.read (by omega) (by decide) (by decide)]
    rfl
  | .more (s := s) (t := t) h rest, hn => by
    obtain ⟨n, rfl⟩ := exists_succ hn
    have hlen : 2 * s.length < n ∧ 2 * t.length + 1 < n := by
      simp only [List.length_append, List.length_cons] at hn
      omega
    rw [List.append_assoc, List.cons_append, readMembers, h.read hlen.1 (by decide) (by decide)]
    simp only [Option.bind_eq_bind, Option.bind_some, if_true, rest.read hlen.2]
    rfl

theorem IsMember.read {m : List ℕ × Value} {s : List Char} {n : ℕ} {x : List Char} {e : Char} :
    IsMember m s → 2 * s.length < n → isSpace e = .false → isNumberChar e = .false →
      readMember n (s ++ e :: x) = some (m, e :: x)
  | .intro (s := s) ha key hb hc h hd, hn, he, he' => by
    obtain ⟨n, rfl⟩ := exists_succ hn
    have hlen : 2 * s.length < n := by
      simp only [List.length_append, List.length_cons] at hn
      omega
    have hends := (ends_cons x he').append hd
    simp only [List.append_assoc, List.cons_append]
    rw [readMember, skipSpace_spaces ha (by decide)]
    simp only [if_true, key.read, Option.bind_eq_bind, Option.bind_some, List.nil_append,
      skipSpace_spaces hb (show isSpace ':' = .false by decide), h.skipSpace hc, h.read hlen hends,
      skipSpace_spaces hd he]

end

/-- The reader finds the value of every text. -/
theorem IsText.read {v : Value} {s : List Char} (h : IsText v s) : Json.read s = some v := by
  obtain ⟨a, t, b, ha, hv, hb, rfl⟩ := h
  have hends : Ends b := by
    have := ends_nil.append hb
    rwa [List.append_nil] at this
  have hlen : 2 * t.length < 2 * (a ++ t ++ b).length + 1 := by
    simp only [List.length_append]
    omega
  rw [Json.read, List.append_assoc, hv.skipSpace ha, ← List.append_assoc, hv.read hlen hends,
    Option.map_some]

/-- A text stands for one value. -/
theorem IsText.unique {v w : Value} {s : List Char} (hv : IsText v s) (hw : IsText w s) : v = w :=
  Option.some.inj (hv.read.symm.trans hw.read)

end Adwarden.Lib.Json
