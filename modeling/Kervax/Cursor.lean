-- A list in the order of its numbers that is read piece by piece from a number on, and the
-- place in the list that the number stands for. Nothing here is about a program.
import Mathlib.Data.List.Basic
import Mathlib.Data.List.Induction
import Mathlib.Order.MinMax

namespace Cursor

variable {α : Type} (num : α → Nat)

def Sorted (l : List α) : Prop := l.Pairwise fun a b => num a < num b

/-- What has the number `k` or a later one. -/
def onward (k : Nat) (l : List α) : List α := l.filter fun a => k ≤ num a

/-- How many have a number before `k`. -/
def below (k : Nat) (l : List α) : Nat := l.countP fun a => num a < k

/-- The next number after `k` and those that were read. -/
def next (k : Nat) (l : List α) : Nat := l.foldl (fun k a => max k (num a + 1)) k

variable {num} {k : Nat} {l m : List α}

theorem below_le (k : Nat) (l : List α) : below num k l ≤ l.length := List.countP_le_length

theorem mem_onward {a : α} : a ∈ onward num k l ↔ a ∈ l ∧ k ≤ num a := by
  simp [onward]

theorem below_eq_zero (h : ∀ a ∈ l, k ≤ num a) : below num k l = 0 := by
  unfold below
  rw [List.countP_eq_zero]
  intro a ha
  simpa using h a ha

theorem below_eq_length (h : ∀ a ∈ l, num a < k) : below num k l = l.length := by
  unfold below
  rw [List.countP_eq_length]
  intro a ha
  simpa using h a ha

theorem below_add (k : Nat) (l m : List α) :
    below num k (l ++ m) = below num k l + below num k m := List.countP_append

theorem below_append (h : ∀ a ∈ m, k ≤ num a) : below num k (l ++ m) = below num k l := by
  rw [below_add, below_eq_zero h, Nat.add_zero]

theorem onward_append (k : Nat) (l m : List α) :
    onward num k (l ++ m) = onward num k l ++ onward num k m := List.filter_append ..

theorem onward_all (h : ∀ a ∈ l, k ≤ num a) : onward num k l = l := by
  apply List.filter_eq_self.mpr
  simpa using h

theorem onward_onward {j : Nat} (h : j ≤ k) (l : List α) :
    onward num k (onward num j l) = onward num k l := by
  unfold onward
  rw [List.filter_filter]
  apply List.filter_congr
  intro a _
  by_cases hk : k ≤ num a
  · simp [hk, h.trans hk]
  · simp [hk]

/-- The number is a place. -/
theorem onward_eq_drop (h : Sorted num l) (k : Nat) : onward num k l = l.drop (below num k l) := by
  induction l with
  | nil => rfl
  | cons a l ih =>
    obtain ⟨ha, hl⟩ := List.pairwise_cons.mp h
    by_cases hk : k ≤ num a
    · have hall : ∀ b ∈ a :: l, k ≤ num b := by
        intro b hb
        rcases List.mem_cons.mp hb with rfl | hb
        · exact hk
        · exact hk.trans (ha b hb).le
      rw [below_eq_zero hall, onward_all hall, List.drop_zero]
    · have hlt : num a < k := by omega
      have hbelow : below num k (a :: l) = below num k l + 1 := by simp [below, hlt]
      have honward : onward num k (a :: l) = onward num k l := by simp [onward, hk]
      rw [hbelow, honward, List.drop_succ_cons, ih hl]

theorem mem_drop_below (h : Sorted num l) {a : α} (ha : a ∈ l) (hk : k ≤ num a) :
    a ∈ l.drop (below num k l) := by
  rw [← onward_eq_drop h]
  exact mem_onward.mpr ⟨ha, hk⟩

theorem mem_take_below (h : Sorted num l) {a : α} (ha : a ∈ l) (hk : num a < k) :
    a ∈ l.take (below num k l) := by
  rw [← List.take_append_drop (below num k l) l, List.mem_append] at ha
  refine ha.resolve_right fun hd => ?_
  rw [← onward_eq_drop h] at hd
  have hle : k ≤ num a := by simpa using (List.mem_filter.mp hd).2
  omega

theorem le_next (k : Nat) (l : List α) : k ≤ next num k l := by
  unfold next
  induction l generalizing k with
  | nil => exact le_rfl
  | cons a l ih => exact (le_max_left _ _).trans (ih _)

theorem next_cases (k : Nat) (l : List α) :
    next num k l = k ∨ ∃ a ∈ l, next num k l = num a + 1 := by
  unfold next
  induction l using List.reverseRecOn with
  | nil => exact .inl rfl
  | append_singleton l a ih =>
    rw [List.foldl_append, List.foldl_cons, List.foldl_nil]
    rcases max_cases (l.foldl (fun k a => max k (num a + 1)) k) (num a + 1) with ⟨h, -⟩ | ⟨h, -⟩ <;>
      rw [h]
    · exact ih.imp id fun ⟨b, hb, hn⟩ => ⟨b, List.mem_append_left _ hb, hn⟩
    · exact .inr ⟨a, by simp, rfl⟩

theorem lt_next {a : α} (ha : a ∈ l) (k : Nat) : num a < next num k l := by
  unfold next
  induction l generalizing k with
  | nil => cases ha
  | cons b l ih =>
    rcases List.mem_cons.mp ha with rfl | ha
    · exact (Nat.lt_succ_self _).trans_le ((le_max_right _ _).trans (le_next _ _))
    · exact ih ha _

/-- The number after a piece that was read stands for the place behind it. -/
theorem below_next (h : Sorted num l) (hm : m <+: l.drop (below num k l)) :
    below num (next num k m) l = below num k l + m.length := by
  obtain ⟨rest, hrest⟩ := hm
  have hsplit : l = l.take (below num k l) ++ (m ++ rest) := by rw [hrest, List.take_append_drop]
  have hs := h
  rw [hsplit] at hs
  obtain ⟨-, hmr, hcross⟩ := List.pairwise_append.mp hs
  obtain ⟨-, -, hmrest⟩ := List.pairwise_append.mp hmr
  have hfirst : ∀ a ∈ l.take (below num k l), num a < next num k m := by
    intro a ha
    refine lt_of_lt_of_le ?_ (le_next k m)
    by_contra hge
    have hin := mem_drop_below h (List.mem_of_mem_take ha) (not_lt.mp hge)
    rw [← hrest] at hin
    exact lt_irrefl _ (hcross a ha a hin)
  have hlast : ∀ a ∈ rest, next num k m ≤ num a := by
    intro a ha
    rcases @next_cases _ num k m with hk | ⟨b, hb, hk⟩
    · rw [hk]
      have hin : a ∈ onward num k l := by
        rw [onward_eq_drop h, ← hrest]
        exact List.mem_append_right _ ha
      exact (mem_onward.mp hin).2
    · rw [hk]
      exact hmrest b hb a ha
  have hlen : (l.take (below num k l)).length = below num k l := by
    rw [List.length_take, Nat.min_eq_left (below_le k l)]
  conv_lhs => rw [hsplit]
  rw [below_add, below_add, below_eq_length hfirst, below_eq_length fun a ha => lt_next ha k,
    below_eq_zero hlast, hlen, Nat.add_zero]

end Cursor
