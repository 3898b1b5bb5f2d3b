import Adwarden.Lib.Json
import Adwarden.Tls.DohQuery

/-! The JSON body that answers a blocked DoH query, as a JSON text. -/
namespace Adwarden.Tls
open Lib.Json

def jsonEscaped (name : Str) : Str :=
  name.flatMap fun c =>
    if c = '\\' then ['\\', '\\'] else if c = '"' then ['\\', '"'] else [c]

/-- Characters that JSON does not take in a string. -/
def isControl (c : Char) : Bool := c.toNat < 0x20

theorem jsonEscaped_cons (c : Char) (name : Str) :
    jsonEscaped (c :: name) =
      (if c = '\\' then ['\\', '\\'] else if c = '"' then ['\\', '"'] else [c]) ++
        jsonEscaped name :=
  List.flatMap_cons

theorem jsonEscaped_content {name : Str} (h : ∀ c ∈ name, ¬isControl c) :
    Content (unitsOf name) (jsonEscaped name) := by
  induction name with
  | nil => exact .nil
  | cons c name ih =>
    have hrest := ih fun x hx => h x (List.mem_cons_of_mem _ hx)
    have hc : 0x20 ≤ c.toNat := by simpa [isControl] using h c (List.mem_cons_self ..)
    rw [jsonEscaped_cons]
    split_ifs with hslash hquote
    · subst hslash
      exact .escape '\\' 0x5C (by decide) hrest
    · subst hquote
      exact .escape '"' 0x22 (by decide) hrest
    · exact .plain c hc hquote hslash hrest

theorem jsonEscaped_scan {name : Str} {p : Place} (h : scan .inside (jsonEscaped name) = some p) :
    ∀ c ∈ name, ¬isControl c := by
  induction name with
  | nil => exact fun c hc => absurd hc List.not_mem_nil
  | cons c name ih =>
    rw [jsonEscaped_cons] at h
    have hhead : ¬isControl c ∧ scan .inside (jsonEscaped name) = some p := by
      split_ifs at h with hslash hquote
      · subst hslash
        exact ⟨by decide, h⟩
      · subst hquote
        exact ⟨by decide, h⟩
      · rw [List.singleton_append, scan, if_neg hquote, if_neg hslash] at h
        split_ifs at h with hcontrol
        exact ⟨by simpa [isControl] using hcontrol, h⟩
    intro x hx
    rcases List.mem_cons.mp hx with rfl | hx
    · exact hhead.1
    · exact ih hhead.2 x hx

private def jsonFront : Str :=
  Str.lit "\x7b\"Status\":3,\"TC\":false,\"RD\":true,\"RA\":true,\"AD\":false,\"CD\":false," ++
    Str.lit "\"Question\":[\x7b\"name\":\""

private def jsonBack : Str := Str.lit "\",\"type\":1\x7d],\"Answer\":[]\x7d"

private theorem jsonNxdomain_eq (name : Str) :
    jsonNxdomain name = jsonFront ++ (jsonEscaped name ++ jsonBack) := by
  simp only [jsonNxdomain, jsonFront, jsonBack, jsonEscaped, List.append_assoc]

/-- The body is a JSON text with the status of a name that does not exist, and its question names
`name` and nothing else. -/
def AnswersNxdomain (name : Str) : Prop :=
  ∃ v, IsText v (jsonNxdomain name) ∧ v.member (Str.lit "Status") = some (.number ['3']) ∧
    ∀ n : Str, (((v.member (Str.lit "Question")).bind (Value.item 0)).bind
      (Value.member (Str.lit "name"))) = some (.string (unitsOf n)) ↔ n = name

theorem AnswersNxdomain.no_control {name : Str} (h : AnswersNxdomain name) :
    ∀ c ∈ name, ¬isControl c := by
  obtain ⟨v, htext, -⟩ := h
  have hscan := htext.scan
  have hfront : scan .outside jsonFront = some .inside := by decide +kernel
  rw [jsonNxdomain_eq, scan_append, hfront, Option.bind_some, scan_append] at hscan
  obtain ⟨p, hp, -⟩ := Option.bind_eq_some_iff.mp hscan
  exact jsonEscaped_scan hp

private def nxdomainValue (name : Str) : Value :=
  .object [
    (unitsOf (Str.lit "Status"), .number ['3']),
    (unitsOf (Str.lit "TC"), .bool false),
    (unitsOf (Str.lit "RD"), .bool true),
    (unitsOf (Str.lit "RA"), .bool true),
    (unitsOf (Str.lit "AD"), .bool false),
    (unitsOf (Str.lit "CD"), .bool false),
    (unitsOf (Str.lit "Question"), .array [.object [
      (unitsOf (Str.lit "name"), .string (unitsOf name)),
      (unitsOf (Str.lit "type"), .number ['1'])]]),
    (unitsOf (Str.lit "Answer"), .array [])]

private theorem key_content (k : String)
    (h : (Str.lit k).all fun c => 0x20 ≤ c.toNat ∧ c ≠ '"' ∧ c ≠ '\\') :
    Content (unitsOf (Str.lit k)) (Str.lit k) :=
  .literal fun c hc => of_decide_eq_true (List.all_eq_true.mp h c hc)

theorem nxdomain_isText {name : Str} (h : ∀ c ∈ name, ¬isControl c) :
    IsText (nxdomainValue name) (jsonNxdomain name) := by
  have hname := IsMember.compact (key_content "name" (by decide))
    (IsValue.string (jsonEscaped_content h))
  have htype := IsMember.compact (key_content "type" (by decide))
    (IsValue.number (@number_digit '1' (by decide)))
  have hquestion := IsMember.compact (key_content "Question" (by decide))
    (.array (.last spaces_nil (.object (.more hname (.last htype))) spaces_nil))
  have hstatus := IsMember.compact (key_content "Status" (by decide))
    (IsValue.number (@number_digit '3' (by decide)))
  have hanswer := IsMember.compact (key_content "Answer" (by decide)) (IsValue.noItems spaces_nil)
  have htc := IsMember.compact (key_content "TC" (by decide)) IsValue.false
  have hrd := IsMember.compact (key_content "RD" (by decide)) IsValue.true
  have hra := IsMember.compact (key_content "RA" (by decide)) IsValue.true
  have had := IsMember.compact (key_content "AD" (by decide)) IsValue.false
  have hcd := IsMember.compact (key_content "CD" (by decide)) IsValue.false
  have hobject := IsValue.object (.more hstatus (.more htc (.more hrd (.more hra (.more had
    (.more hcd (.more hquestion (.last hanswer))))))))
  refine ⟨[], _, [], spaces_nil, hobject, spaces_nil, ?_⟩
  rw [jsonNxdomain_eq]
  simp [jsonFront, jsonBack, Str.lit]

/-- The body answers for the names without control characters, and for no others: only quotes and
backslashes are escaped. -/
theorem answersNxdomain_iff (value : Str) :
    AnswersNxdomain (percentDecode value).toAsciiLowercase ↔
      ∀ c ∈ (percentDecode value).toAsciiLowercase, ¬isControl c := by
  generalize (percentDecode value).toAsciiLowercase = name
  constructor
  · exact AnswersNxdomain.no_control
  · intro h
    refine ⟨nxdomainValue name, nxdomain_isText h, rfl, ?_⟩
    intro n
    have hfield : ((((nxdomainValue name).member (Str.lit "Question")).bind (Value.item 0)).bind
        (Value.member (Str.lit "name"))) = some (.string (unitsOf name)) := rfl
    rw [hfield, Option.some.injEq, Value.string.injEq]
    constructor
    · intro heq
      exact (unitsOf_injective heq).symm
    · rintro rfl
      rfl

/-- A line feed in the name, from `?name=a%0Ab.example`. -/
theorem answersNxdomain_line_feed :
    extractQuery (Str.lit "GET") (Str.lit "/resolve?name=a%0Ab.example") [] [] =
        .jsonName (Str.lit "a\nb.example") ∧
      (percentDecode (Str.lit "a%0Ab.example")).toAsciiLowercase = Str.lit "a\nb.example" ∧
      ¬AnswersNxdomain (Str.lit "a\nb.example") := by
  refine ⟨by decide +kernel, by decide +kernel, ?_⟩
  intro h
  exact h.no_control '\n' (by decide +kernel) (by decide)

end Adwarden.Tls
