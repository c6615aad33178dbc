-- Lists read as sequences that go on for ever with one default, ordered by
-- the first place where they differ. Nothing here is about a program.
import Mathlib.Order.PiLex
import Mathlib.Data.List.Basic

namespace PadOrder

/-- The sequence that a list begins. -/
def pad {α : Type} (d : α) (as : List α) : Lex (ℕ → α) := toLex fun i => as.getD i d

theorem pad_nil_cons {α : Type} (d : α) : pad d [d] = pad d [] := by
  unfold pad
  congr 1
  funext i
  cases i <;> simp

theorem pad_headD_tail {α : Type} (d : α) (as : List α) :
    pad d (as.headD d :: as.tail) = pad d as := by
  cases as with
  | nil => exact pad_nil_cons d
  | cons a as => rfl

variable {α : Type} [LinearOrder α] (d : α)

/-- The default stands after the list: the first entry that differs decides. -/
def belowDefault : List α → Bool
  | [] => false
  | b :: bs => if d = b then belowDefault bs else decide (b < d)

/-- `as` stands after `bs`: the first place where they differ decides. -/
def after : List α → List α → Bool
  | [], bs => belowDefault d bs
  | a :: as, bs => if a = bs.headD d then after as bs.tail else decide (bs.headD d < a)

/-- Two sequences compare by their heads, and by their tails where these agree. -/
theorem lex_cons {x y : ℕ → α} :
    toLex x < toLex y ↔
      x 0 < y 0 ∨ x 0 = y 0 ∧ toLex (fun i => x (i + 1)) < toLex fun i => y (i + 1) := by
  constructor
  · rintro ⟨i, heq, hlt⟩
    cases i with
    | zero => exact .inl hlt
    | succ i => exact .inr ⟨heq 0 (by omega), i, fun j hj => heq (j + 1) (by omega), hlt⟩
  · rintro (hlt | ⟨h0, i, heq, hlt⟩)
    · exact ⟨0, fun j hj => absurd hj (by omega), hlt⟩
    · refine ⟨i + 1, ?_, hlt⟩
      intro j hj
      cases j with
      | zero => exact h0
      | succ j => exact heq j (by omega)

theorem pad_cons_lt (a b : α) (as bs : List α) :
    pad d (b :: bs) < pad d (a :: as) ↔ b < a ∨ b = a ∧ pad d bs < pad d as := by
  unfold pad
  rw [lex_cons]
  simp

theorem pad_cons_self_lt (a : α) (as bs : List α) :
    pad d (a :: as) < pad d (a :: bs) ↔ pad d as < pad d bs := by
  rw [pad_cons_lt]
  simp

theorem belowDefault_iff (bs : List α) : belowDefault d bs = true ↔ pad d bs < pad d [] := by
  induction bs with
  | nil =>
    simp only [belowDefault, Bool.false_eq_true, false_iff]
    exact lt_irrefl _
  | cons b bs ih =>
    rw [← pad_nil_cons, pad_cons_lt]
    unfold belowDefault
    by_cases hb : d = b
    · rw [if_pos hb, ih]
      simp [hb]
    · rw [if_neg hb]
      simp [Ne.symm hb]

/-- `after` is the order of the sequences. -/
theorem after_iff (as bs : List α) : after d as bs = true ↔ pad d bs < pad d as := by
  induction as generalizing bs with
  | nil => exact belowDefault_iff d bs
  | cons a as ih =>
    rw [← pad_headD_tail d bs, pad_cons_lt]
    unfold after
    by_cases hb : a = bs.headD d
    · rw [if_pos hb, ih, ← hb]
      simp
    · rw [if_neg hb, decide_eq_true_eq]
      simp only [Ne.symm hb, false_and, or_false]

theorem after_irrefl (as : List α) : after d as as = false := by
  rw [← Bool.not_eq_true, after_iff]
  exact lt_irrefl _

theorem after_asymm {as bs : List α} (h : after d as bs = true) : after d bs as = false := by
  rw [← Bool.not_eq_true, after_iff]
  exact lt_asymm ((after_iff d as bs).mp h)

theorem after_trans {as bs cs : List α} (h : after d as bs = true) (h' : after d bs cs = true) :
    after d as cs = true :=
  (after_iff d as cs).mpr (lt_trans ((after_iff d bs cs).mp h') ((after_iff d as bs).mp h))

/-- Neither of two lists stands after the other exactly when they begin the same
sequence. -/
theorem neither_after {as bs : List α} :
    after d as bs = false ∧ after d bs as = false ↔ pad d as = pad d bs := by
  rw [← Bool.not_eq_true, ← Bool.not_eq_true, after_iff, after_iff]
  constructor
  · rintro ⟨h1, h2⟩
    exact le_antisymm (not_lt.mp h1) (not_lt.mp h2)
  · intro h
    rw [h]
    exact ⟨lt_irrefl _, lt_irrefl _⟩

end PadOrder
