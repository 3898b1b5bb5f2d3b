import Adwarden.Rust.Bytes

/-! The head of an HTTP message, as the front of a stream. -/
namespace Adwarden.Core

/-- A head ends with its first blank line. -/
def IsHead (head : Bytes) : Prop :=
  ∃ pos, findSubsequence [CR, LF, CR, LF] head = some pos ∧ head.length = pos + 4

theorem IsHead.find_append {head : Bytes} (h : IsHead head) (x : Bytes) :
    ∃ pos, findSubsequence [CR, LF, CR, LF] (head ++ x) = some pos ∧ head.length = pos + 4 := by
  obtain ⟨pos, hpos, hlen⟩ := h
  exact ⟨pos, findSubsequence_append x hpos, hlen⟩

/-- The head at the front of a stream is determined by the stream. -/
theorem IsHead.unique {a b x y : Bytes} (ha : IsHead a) (hb : IsHead b) (h : a ++ x = b ++ y) :
    a = b ∧ x = y := by
  obtain ⟨i, hi, hai⟩ := ha.find_append x
  obtain ⟨j, hj, hbj⟩ := hb.find_append y
  rw [h, hj] at hi
  have hlen : a.length = b.length := by
    have hij := Option.some.inj hi
    omega
  exact List.append_inj h hlen

theorem isHead_take {b : Bytes} {pos : ℕ} (h : findSubsequence [CR, LF, CR, LF] b = some pos) :
    IsHead (b.take (pos + 4)) := by
  have hle := findSubsequence_le h
  have hlen : (b.take (pos + 4)).length = pos + 4 := by
    rw [List.length_take]
    exact Nat.min_eq_left hle
  have htake : b.take (pos + 4) = b.take pos ++ [CR, LF, CR, LF] ++ [] := by
    obtain ⟨t, ht⟩ := findSubsequence_isPrefix h
    rw [List.append_nil, List.take_add, ← ht]
    rfl
  obtain ⟨i, hi, -⟩ := findSubsequence_infix (b.take pos) []
    (show findSubsequence [CR, LF, CR, LF] [CR, LF, CR, LF] = some 0 by decide)
  rw [← htake] at hi
  have happ := findSubsequence_append (b.drop (pos + 4)) hi
  rw [List.take_append_drop, h] at happ
  exact ⟨pos, hi.trans happ.symm, hlen⟩

/-- A stream without a complete head has none at its front. -/
theorem IsHead.ne_append {head b x : Bytes} (h : IsHead head)
    (hb : findSubsequence [CR, LF, CR, LF] b = none) : b ≠ head ++ x := by
  intro he
  obtain ⟨pos, hpos, -⟩ := h.find_append x
  rw [← he, hb] at hpos
  cases hpos

end Adwarden.Core
