-- The complete lines of a text that grows: a line is complete when its end stands there, and
-- what is read up to an end of line stays what it was. Nothing here is about a program.
import Kervax.Texts
import Mathlib.Data.List.Basic

namespace Lines

variable {c : Char} {a b s : List Char}

/-- The complete lines, each without its end `c`. -/
def lines (c : Char) (s : List Char) : List (List Char) := (s.splitOn c).dropLast

/-- The text stops at an end of line. -/
def Ended (c : Char) (s : List Char) : Prop := s = [] ∨ ∃ t, s = t ++ [c]

@[simp] theorem lines_nil : lines c [] = [] := by
  simp [lines]

theorem lines_of_not_mem (h : c ∉ s) : lines c s = [] := by
  unfold lines
  rw [List.splitOn_eq_singleton h]
  rfl

theorem lines_cut (t : List Char) : lines c (a ++ c :: t) = a.splitOn c ++ lines c t := by
  unfold lines List.splitOn
  rw [List.splitOnP_append_cons _ _ (by simp), List.dropLast_append_of_ne_nil]
  exact List.splitOnP_ne_nil _ _

theorem lines_snoc : lines c (a ++ [c]) = a.splitOn c := by
  rw [lines_cut, lines_nil, List.append_nil]

/-- Lines that are complete stay so when the text grows. -/
theorem lines_append (h : Ended c a) (b : List Char) : lines c (a ++ b) = lines c a ++ lines c b := by
  rcases h with rfl | ⟨t, rfl⟩
  · simp
  · rw [List.append_assoc, List.singleton_append, lines_cut, lines_snoc]

theorem Ended.append (h : Ended c a) (hb : Ended c b) : Ended c (a ++ b) := by
  rcases hb with rfl | ⟨t, rfl⟩
  · simpa using h
  · exact .inr ⟨a ++ t, by simp⟩

/-- A text up to its last end of line has its lines, and nothing of it is complete after that. -/
theorem upto_lastOf {i : Nat} (h : Texts.lastOf c s = some i) :
    s.take (i + 1) = s.take i ++ [c] ∧ c ∉ s.drop (i + 1) := by
  induction s generalizing i with
  | nil => cases h
  | cons x s ih =>
    rw [Texts.lastOf_cons] at h
    cases hs : Texts.lastOf c s with
    | some j =>
      obtain rfl : j + 1 = i := by simpa [hs] using h
      obtain ⟨htake, hdrop⟩ := ih hs
      exact ⟨by rw [List.take_succ_cons, htake, List.take_succ_cons, List.cons_append], hdrop⟩
    | none =>
      obtain ⟨rfl, rfl⟩ : x = c ∧ 0 = i := by simpa [hs] using h
      exact ⟨by simp, by simpa using Texts.lastOf_eq_none.mp hs⟩

theorem lines_upto {i : Nat} (h : Texts.lastOf c s = some i) :
    lines c (s.take (i + 1)) = (s.take i).splitOn c := by
  rw [(upto_lastOf h).1, lines_snoc]

theorem ended_upto {i : Nat} (h : Texts.lastOf c s = some i) : Ended c (s.take (i + 1)) :=
  .inr ⟨s.take i, (upto_lastOf h).1⟩

/-- The lines of a text begin the lines of what it grows to. -/
theorem lines_start (a b : List Char) : lines c a <+: lines c (a ++ b) := by
  cases h : Texts.lastOf c a with
  | none =>
    rw [lines_of_not_mem (Texts.lastOf_eq_none.mp h)]
    exact List.nil_prefix
  | some i =>
    have hsplit := List.take_append_drop (i + 1) a
    have hlines : lines c a = lines c (a.take (i + 1)) := by
      conv_lhs => rw [← hsplit]
      rw [lines_append (ended_upto h), lines_of_not_mem (upto_lastOf h).2, List.append_nil]
    rw [hlines]
    conv_rhs => rw [← hsplit, List.append_assoc]
    rw [lines_append (ended_upto h)]
    exact List.prefix_append _ _

end Lines
