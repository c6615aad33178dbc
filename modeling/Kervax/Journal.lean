-- A journal with lanes: lists that a run only appends to, and the rollback
-- that cuts chosen lanes to the lengths they had before. Nothing here is
-- about a program: lanes and entries are arbitrary types.
import Mathlib.Logic.Function.Basic
import Mathlib.Data.List.Basic

namespace Journal

variable {ι E : Type} [DecidableEq ι]

/-- One list for each lane. -/
abbrev Book (ι E : Type) := ι → List E

def push (b : Book ι E) (l : ι) (e : E) : Book ι E := Function.update b l (b l ++ [e])

theorem push_self (b : Book ι E) (l : ι) (e : E) : push b l e l = b l ++ [e] := by simp [push]

theorem push_ne (b : Book ι E) {l k : ι} (e : E) (h : k ≠ l) : push b l e k = b k := by
  simp [push, h]

/-- The lengths of the lanes, noted before a step that may fail. -/
def lens (b : Book ι E) : ι → Nat := fun l => (b l).length

/-- The rollback: each lane of `rolled` is cut to its noted length. -/
def cut (rolled : List ι) (n : ι → Nat) (b : Book ι E) : Book ι E :=
  fun l => if l ∈ rolled then (b l).take (n l) else b l

/-- A book that has grown out of another one. -/
def Extends (b b' : Book ι E) : Prop := ∀ l, ∃ es, b' l = b l ++ es

omit [DecidableEq ι] in
theorem Extends.refl (b : Book ι E) : Extends b b := fun _ => ⟨[], by simp⟩

theorem Extends.push {b b' : Book ι E} (h : Extends b b') (l : ι) (e : E) :
    Extends b (push b' l e) := by
  intro k
  obtain ⟨es, hes⟩ := h k
  by_cases hk : k = l
  · subst hk
    exact ⟨es ++ [e], by rw [push_self, hes, List.append_assoc]⟩
  · exact ⟨es, by rw [push_ne _ _ hk, hes]⟩

/-- A lane that is rolled back is as it was. -/
theorem cut_of_mem {b b' : Book ι E} (h : Extends b b') {rolled : List ι} {l : ι}
    (hl : l ∈ rolled) : cut rolled (lens b) b' l = b l := by
  obtain ⟨es, hes⟩ := h l
  simp [cut, hl, lens, hes]

/-- A lane that is not rolled back keeps what was appended. -/
theorem cut_of_not_mem {b b' : Book ι E} {rolled : List ι} {l : ι} (hl : l ∉ rolled) :
    cut rolled (lens b) b' l = b' l := by
  simp [cut, hl]

/-! ## Who wrote an entry

A mark is a name with the length that a lane had when its writer began. The
entries between two marks belong to the first one. -/

variable {N : Type}

/-- The owners of the entries, read from the marks; `stop` is the length of the
lane at the end. -/
def owners : List (N × Nat) → Nat → List N
  | [], _ => []
  | [m], stop => List.replicate (stop - m.2) m.1
  | m :: m' :: ms, stop => List.replicate (m'.2 - m.2) m.1 ++ owners (m' :: ms) stop

/-- A new mark closes the part of the one before it. -/
theorem owners_snoc (ms : List (N × Nat)) (m : N × Nat) (stop : Nat) :
    owners (ms ++ [m]) stop = owners ms m.2 ++ List.replicate (stop - m.2) m.1 := by
  induction ms with
  | nil => simp [owners]
  | cons a ms ih =>
    rcases ms with _ | ⟨b, ms⟩
    · simp [owners]
    · simp only [List.cons_append, owners] at ih ⊢
      rw [ih, List.append_assoc]

end Journal
