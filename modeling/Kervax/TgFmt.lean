-- The short texts of the chat (`tg_fmt.py`): a value of an agent in one line, and a list of
-- names that is cut.
import Kervax.ClientIp
import Kervax.Texts

namespace Kervax.TgFmt

/-- `NAMES_MAX`, `VALUE_MAX`. -/
def namesMax : Nat := 3
def valueMax : Nat := 200

/-- `_CTRL`: control characters, the separators of Unicode, and what turns the text around. -/
def isCtrl (c : Char) : Bool :=
  let n := c.toNat
  n ≤ 0x1f || (0x7f ≤ n && n ≤ 0x9f) || n = 0x2028 || n = 0x2029 || (0x202a ≤ n && n ≤ 0x202e) ||
    (0x2066 ≤ n && n ≤ 0x2069)

def flat (s : List Char) : List Char := s.map fun c => if isCtrl c then ' ' else c

def clip (s : List Char) (n : Nat) : List Char :=
  if s.length ≤ n then s
  else Texts.rstripBy isSpace (s.take (max (n - 3) 1)) ++ ['.', '.', '.']

def field (s : String) : String :=
  String.ofList (clip (Texts.stripBy isSpace (flat s.toList)) valueMax)

/-! ## A list that is cut -/

/-- The first `n` items, and how many are left out. -/
def listText (sep : String) (n : Nat) (items : List String) : String :=
  sep.intercalate (items.take n) ++
    if n < items.length then " и еще " ++ toString (items.length - n) else ""

/-- The different values of a list, in its order. -/
def distinct (items : List String) : List String := ((items.map field).filter (· ≠ "")).eraseDups

def names (limit : Nat) (items : List String) : String := listText ", " limit (distinct items)

/-- A text that has another in it. -/
def Has (t part : String) : Prop := ∃ a b, t = a ++ part ++ b

instance (t part : String) : Decidable (Has t part) := by
  refine decidable_of_iff (part.toList <:+: t.toList) ⟨?_, ?_⟩
  · rintro ⟨a, b, he⟩
    refine ⟨String.ofList a, String.ofList b, String.toList_injective ?_⟩
    simpa using he.symm
  · rintro ⟨a, b, rfl⟩
    exact ⟨a.toList, b.toList, by simp⟩

theorem has_self (t : String) : Has t t := ⟨"", "", by simp⟩

theorem Has.trans {t u v : String} (h : Has t u) (hu : Has u v) : Has t v := by
  obtain ⟨a, b, rfl⟩ := h
  obtain ⟨c, d, rfl⟩ := hu
  exact ⟨a ++ c, d ++ b, by simp only [String.append_assoc]⟩

theorem has_append_left (t u : String) : Has (t ++ u) t := ⟨"", u, by simp⟩

theorem has_append_right (t u : String) : Has (t ++ u) u := ⟨t, "", by simp⟩

theorem has_empty {part : String} : Has "" part ↔ part = "" := by
  constructor
  · rintro ⟨a, b, he⟩
    have hparts : (a = "" ∧ part = "") ∧ b = "" := by simpa using he.symm
    exact hparts.1.2
  · rintro rfl
    exact has_self ""

theorem has_intercalate {sep t : String} {items : List String} (h : t ∈ items) :
    Has (sep.intercalate items) t := by
  induction items with
  | nil => cases h
  | cons u items ih =>
    rcases List.mem_cons.mp h with rfl | h
    · cases items with
      | nil => exact ⟨"", "", by simp⟩
      | cons u items => exact ⟨"", sep ++ sep.intercalate (u :: items), by simp [String.append_assoc]⟩
    · rw [String.intercalate_cons_of_ne_nil (List.ne_nil_of_mem h)]
      exact (has_append_right _ _).trans (ih h)

/-- The text has the items that are not cut. -/
theorem has_listText {sep t : String} {n : Nat} {items : List String} (h : t ∈ items.take n) :
    Has (listText sep n items) t :=
  (has_append_left _ _).trans (has_intercalate h)

theorem mem_distinct {items : List String} {x : String} :
    x ∈ distinct items ↔ x ≠ "" ∧ ∃ n ∈ items, field n = x := by
  unfold distinct
  rw [List.mem_eraseDups, List.mem_filter, List.mem_map, decide_eq_true_eq]
  exact and_comm

/-- A list with room for all of its different values names each. -/
theorem has_names {items : List String} {n : String} {limit : Nat}
    (hroom : (distinct items).length ≤ limit) (hn : n ∈ items) (hne : field n ≠ "") :
    Has (names limit items) (field n) := by
  apply has_listText
  rw [List.take_of_length_le hroom]
  exact mem_distinct.mpr ⟨hne, n, hn, rfl⟩

end Kervax.TgFmt
