-- Texts made of fields: lines `key=value` and words between blanks. What is written
-- reads back as long as no separator stands inside a field. Nothing here is about a
-- program.
import Mathlib.Data.List.Basic

namespace Fields

/-! ## Lines of a key and a value -/

/-- `key=value`. -/
def line (p : List Char × List Char) : List Char := p.1 ++ '=' :: p.2

/-- The lines, each with its end. -/
def text (ps : List (List Char × List Char)) : List Char :=
  ['\n'].intercalate (ps.map line) ++ ['\n']

/-- A line split at its first `=`. -/
def cut (l : List Char) : List Char × List Char :=
  (l.takeWhile (· ≠ '='), (l.dropWhile (· ≠ '=')).drop 1)

/-- Line after line, each up to its end. -/
def parse (s : List Char) : List (List Char × List Char) := (s.splitOn '\n').dropLast.map cut

theorem cut_line {p : List Char × List Char} (h : '=' ∉ p.1) : cut (line p) = p := by
  have hkey : ∀ c ∈ p.1, decide (c ≠ '=') = true := by
    intro c hc
    have hne : c ≠ '=' := fun he => h (he ▸ hc)
    simpa using hne
  unfold cut line
  rw [List.takeWhile_append_of_pos hkey, List.dropWhile_append_of_pos hkey]
  simp

theorem intercalate_snoc (sep : List Char) (ls : List (List Char)) (hne : ls ≠ []) :
    sep.intercalate ls ++ sep = sep.intercalate (ls ++ [[]]) := by
  induction ls with
  | nil => exact absurd rfl hne
  | cons l ls ih =>
    cases ls with
    | nil => simp [List.intercalate]
    | cons m ls =>
      have h := ih (by simp)
      simp only [List.intercalate, List.cons_append, List.intersperse_cons_cons,
        List.flatten_cons, List.append_assoc] at h ⊢
      rw [h]

/-- The text reads back as the pairs it was made from. -/
theorem parse_text {ps : List (List Char × List Char)} (hne : ps ≠ [])
    (hkey : ∀ p ∈ ps, '=' ∉ p.1) (hline : ∀ p ∈ ps, '\n' ∉ line p) : parse (text ps) = ps := by
  have hsep : ∀ l ∈ ps.map line ++ [[]], '\n' ∉ l := by
    intro l hl
    rcases List.mem_append.mp hl with hin | hin
    · obtain ⟨p, hp, rfl⟩ := List.mem_map.mp hin
      exact hline p hp
    · simp [List.mem_singleton.mp hin]
  unfold parse text
  rw [intercalate_snoc _ _ (by simpa using hne), List.splitOn_intercalate _ hsep (by simp),
    List.dropLast_concat, List.map_map]
  conv_rhs => rw [← List.map_id ps]
  exact List.map_congr_left fun p hp => cut_line (hkey p hp)

/-! ## Words -/

section

variable {blank : Char → Bool}

/-- The words between blanks. -/
def words (blank : Char → Bool) (s : List Char) : List (List Char) :=
  (s.splitOnP blank).filter (· ≠ [])

theorem words_single {w : List Char} (hne : w ≠ []) (hw : ∀ c ∈ w, blank c = false) :
    words blank w = [w] := by
  unfold words
  rw [List.splitOnP_eq_singleton hw]
  simp [hne]

theorem words_cons {w s : List Char} {sep : Char} (hne : w ≠ []) (hw : ∀ c ∈ w, blank c = false)
    (hsep : blank sep = true) : words blank (w ++ sep :: s) = w :: words blank s := by
  unfold words
  rw [List.splitOnP_append_cons_of_forall_mem hw sep hsep, List.filter_cons_of_pos (by simpa using hne)]

end

end Fields
