-- A flag that is looked at from time to time, where a change counts when it is seen twice in a
-- row: what is remembered between two looks, and the changes that a list of looks amounts to.
-- Nothing here is about a program.
import Mathlib.Data.List.Basic
import Mathlib.Data.List.Chain

namespace Debounce

variable {T : Type}

/-- The flag as it counts, and since when it is seen to be the other way. -/
structure Watch (T : Type) where
  on : Bool
  since : Option T

def Watch.look (w : Watch T) (x : T × Bool) : Watch T :=
  if x.2 = w.on then ⟨w.on, none⟩
  else
    match w.since with
    | some _ => ⟨x.2, none⟩
    | none => ⟨w.on, some x.1⟩

/-- The change that a look tells, at the time when it was seen first. -/
def Watch.tell (w : Watch T) (x : T × Bool) : Option (T × Bool) :=
  if x.2 = w.on then none else w.since.map fun t => (t, x.2)

def Watch.told (w : Watch T) : List (T × Bool) → List (T × Bool)
  | [] => []
  | x :: xs => (w.tell x).toList ++ (w.look x).told xs

/-- Each look with what it tells. -/
def Watch.tells (w : Watch T) : List (T × Bool) → List (T × Option (T × Bool))
  | [] => []
  | x :: xs => (x.1, w.tell x) :: (w.look x).tells xs

/-- A change with the time of the look that tells it. -/
def toldAt (x : T × Option (T × Bool)) : Option (T × T × Bool) := x.2.map fun c => (x.1, c)

/-- A change is told with what the look says. -/
theorem Watch.tell_pair (w : Watch T) (t : T) (b : Bool) :
    ((w.tell (t, b)).map Prod.fst).map (fun s => (s, b)) = w.tell (t, b) := by
  unfold Watch.tell
  split
  · rfl
  · cases w.since <;> rfl

/-- The changes of a list of looks: two in a row that say the same, and not what counted. Each
is the first of the two, here with the time of the second. -/
def confirmed (on : Bool) : List (T × Bool) → List (T × T × Bool)
  | x :: y :: rest =>
    if x.2 = y.2 ∧ x.2 ≠ on then (y.1, x) :: confirmed x.2 (y :: rest) else confirmed on (y :: rest)
  | _ => []

def changes (on : Bool) (xs : List (T × Bool)) : List (T × Bool) :=
  (confirmed on xs).map Prod.snd

/-- What counts after them: what the last two in a row that agree have said. -/
def settled (on : Bool) : List (T × Bool) → Bool
  | x :: y :: rest => settled (if x.2 = y.2 then x.2 else on) (y :: rest)
  | _ => on

/-! ## What is told is what has changed -/

theorem confirmed_same {on : Bool} {x : T × Bool} (h : x.2 = on) (xs : List (T × Bool)) :
    confirmed on (x :: xs) = confirmed on xs := by
  cases xs with
  | nil => rfl
  | cons y xs => simp [confirmed, h]

theorem settled_same {on : Bool} {x : T × Bool} (h : x.2 = on) (xs : List (T × Bool)) :
    settled on (x :: xs) = settled on xs := by
  cases xs with
  | nil => rfl
  | cons y xs => simp [settled, h]

/-- The look that is remembered. -/
def Watch.first (w : Watch T) : List (T × Bool) := w.since.toList.map fun t => (t, !w.on)

theorem ne_iff_not {a b : Bool} : a ≠ b ↔ a = !b := by
  cases a <;> cases b <;> decide

theorem tells_eq (w : Watch T) (xs : List (T × Bool)) :
    (w.tells xs).filterMap toldAt = confirmed w.on (w.first ++ xs) ∧
      (xs.foldl Watch.look w).on = settled w.on (w.first ++ xs) := by
  induction xs generalizing w with
  | nil => cases h : w.since <;> simp [Watch.tells, Watch.first, h, confirmed, settled]
  | cons x xs ih =>
    obtain ⟨htold, hon⟩ := ih (w.look x)
    rw [Watch.tells, List.filterMap_cons, htold, List.foldl_cons, hon]
    by_cases hx : x.2 = w.on
    · have hlook : w.look x = ⟨w.on, none⟩ := by simp [Watch.look, hx]
      have htell : w.tell x = none := by simp [Watch.tell, hx]
      rw [hlook, htell]
      cases hs : w.since with
      | none => simp [toldAt, Watch.first, hs, confirmed_same hx, settled_same hx]
      | some t =>
        simp [toldAt, Watch.first, hs, confirmed, settled, hx, confirmed_same hx, settled_same hx]
    · have hnot := ne_iff_not.mp hx
      cases hs : w.since with
      | none =>
        have hlook : w.look x = ⟨w.on, some x.1⟩ := by simp [Watch.look, hx, hs]
        have htell : w.tell x = none := by simp [Watch.tell, hs]
        have hpair : (x.1, !w.on) = x := Prod.ext rfl hnot.symm
        rw [hlook, htell]
        simp [toldAt, Watch.first, hs, hpair]
      | some t =>
        have hlook : w.look x = ⟨x.2, none⟩ := by simp [Watch.look, hx, hs]
        have htell : w.tell x = some (t, x.2) := by simp [Watch.tell, hx, hs]
        rw [hlook, htell]
        simp [toldAt, Watch.first, hs, confirmed, settled, hnot, confirmed_same, settled_same]

theorem told_tells (w : Watch T) (xs : List (T × Bool)) :
    w.told xs = ((w.tells xs).filterMap toldAt).map Prod.snd := by
  induction xs generalizing w with
  | nil => rfl
  | cons x xs ih =>
    rw [Watch.told, Watch.tells, List.filterMap_cons, ih]
    cases h : w.tell x <;> simp [toldAt]

theorem told_eq (w : Watch T) (xs : List (T × Bool)) :
    w.told xs = changes w.on (w.first ++ xs) := by
  rw [told_tells, (tells_eq w xs).1]
  rfl

/-! ## What changes are -/

/-- A change goes from what counted to the other, and back. -/
theorem changes_alternate (on : Bool) (xs : List (T × Bool)) :
    List.IsChain (· ≠ ·) (on :: (changes on xs).map Prod.snd) := by
  unfold changes
  fun_induction confirmed on xs with
  | case1 on x y rest h ih => exact List.isChain_cons_cons.mpr ⟨Ne.symm h.2, ih⟩
  | case2 on x y rest h ih => exact ih
  | case3 on xs h => simp

/-- A change is told at the time of one of the looks. -/
theorem confirmed_times (on : Bool) (xs : List (T × Bool)) :
    ((confirmed on xs).map Prod.fst).Sublist (xs.map Prod.fst).tail := by
  fun_induction confirmed on xs with
  | case1 on x y rest h ih => exact List.Sublist.cons_cons y.1 (by simpa using ih)
  | case2 on x y rest h ih => exact List.Sublist.cons y.1 (by simpa using ih)
  | case3 on xs h => exact List.nil_sublist _

end Debounce
