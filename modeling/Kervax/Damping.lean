-- Changes that are ranked by how many came shortly before each: with a memory that forgets what
-- is too old at every look, and without one. Nothing here is about a program.
import Mathlib.Order.Monotone.Basic
import Mathlib.Data.List.Basic
import Mathlib.Data.List.Pairwise
import Mathlib.Order.Lattice

namespace Damping

variable {T β : Type} [LinearOrder T] (cut : T → T)

/-- The times that are not too old now. -/
def recent (hist : List T) (now : T) : List T := hist.filter fun t => cut now ≤ t

/-- Looks, some with a change: each change with the number of those that are remembered. -/
def kept (hist : List T) : List (T × Option (T × β)) → List (Nat × T × β)
  | [] => []
  | (now, none) :: xs => kept (recent cut hist now) xs
  | (now, some c) :: xs =>
    ((recent cut hist now).length, c) :: kept (recent cut hist now ++ [c.1]) xs

/-- Changes, each with the number of recent ones among all before it. -/
def ranked (past : List T) : List (T × T × β) → List (Nat × T × β)
  | [] => []
  | (now, c) :: xs => ((recent cut past now).length, c) :: ranked (past ++ [c.1]) xs

theorem ranked_changes (past : List T) (xs : List (T × T × β)) :
    (ranked cut past xs).map Prod.snd = xs.map Prod.snd := by
  induction xs generalizing past with
  | nil => rfl
  | cons x xs ih => simp [ranked, ih]

theorem ranked_length (past : List T) (xs : List (T × T × β)) :
    ∀ r ∈ ranked cut past xs, r.1 < past.length + xs.length := by
  induction xs generalizing past with
  | nil => simp [ranked]
  | cons x xs ih =>
    intro r hr
    rcases List.mem_cons.mp hr with rfl | hr
    · have hle : (recent cut past x.1).length ≤ past.length := List.length_filter_le _ _
      rw [List.length_cons]
      dsimp only
      omega
    · have hlt := ih _ r hr
      simp only [List.length_append, List.length_cons, List.length_nil] at hlt ⊢
      omega

/-! ## Forgetting changes nothing -/

/-- What is remembered and what was: the same from some time on. -/
def Agree (c : T) (hist past : List T) : Prop :=
  ∀ d, c ≤ d → (hist.filter fun t => d ≤ t) = past.filter fun t => d ≤ t

theorem Agree.recent {c : T} {hist past : List T} (h : Agree c hist past) {now : T}
    (hnow : c ≤ cut now) : Agree (cut now) (recent cut hist now) past := by
  intro d hd
  rw [← h d (le_trans hnow hd)]
  unfold Damping.recent
  rw [List.filter_filter]
  apply List.filter_congr
  intro t ht
  have hle : d ≤ t → cut now ≤ t := le_trans hd
  by_cases hdt : d ≤ t <;> simp [hdt, hle]

theorem Agree.append {c : T} {hist past : List T} (h : Agree c hist past) (t : T) :
    Agree c (hist ++ [t]) (past ++ [t]) := by
  intro d hd
  rw [List.filter_append, List.filter_append, h d hd]

variable {cut}

theorem kept_eq (hcut : Monotone cut) {c : T} {hist past : List T} (h : Agree c hist past)
    {xs : List (T × Option (T × β))} (hc : ∀ x ∈ xs, c ≤ cut x.1)
    (hsorted : (xs.map Prod.fst).Pairwise (· ≤ ·)) :
    kept cut hist xs = ranked cut past (xs.filterMap fun x => x.2.map fun b => (x.1, b)) := by
  induction xs generalizing c hist past with
  | nil => rfl
  | cons x xs ih =>
    obtain ⟨now, change⟩ := x
    have hnow : c ≤ cut now := hc _ List.mem_cons_self
    obtain ⟨hfirst, hrest⟩ := List.pairwise_cons.mp hsorted
    have hlater : ∀ x ∈ xs, cut now ≤ cut x.1 := by
      intro x hx
      exact hcut (hfirst x.1 (List.mem_map_of_mem hx))
    have hnext := h.recent cut hnow
    cases change with
    | none =>
      rw [kept, ih hnext hlater hrest]
      simp
    | some b =>
      have hsame : recent cut hist now = recent cut past now := h (cut now) hnow
      rw [kept, ih (hnext.append b.1) hlater hrest, hsame]
      simp [ranked]

/-! ## Few of a low rank -/

/-- Of the changes that have a low rank, few are recent at the end. -/
theorem low_le (n : Nat) (c : T) (past : List T) {xs : List (T × T × β)}
    (h : ∀ x ∈ xs, cut x.1 ≤ c) :
    ((ranked cut past xs).filter fun r => r.1 < n ∧ c ≤ r.2.1) = [] ∨
      (past.filter fun t => c ≤ t).length +
        ((ranked cut past xs).filter fun r => r.1 < n ∧ c ≤ r.2.1).length ≤ n := by
  induction xs generalizing past with
  | nil => exact .inl rfl
  | cons x xs ih =>
    obtain ⟨now, t, b⟩ := x
    have hnow : cut now ≤ c := h _ List.mem_cons_self
    have hle : (past.filter fun t => c ≤ t).length ≤ (recent cut past now).length := by
      apply List.Sublist.length_le
      apply List.monotone_filter_right
      intro a ha
      simp only [decide_eq_true_eq] at ha ⊢
      exact le_trans hnow ha
    have hrest := ih (past ++ [t]) fun x hx => h x (List.mem_cons_of_mem _ hx)
    rw [List.filter_append, List.length_append] at hrest
    rw [ranked]
    by_cases ht : c ≤ t
    · by_cases hlow : (recent cut past now).length < n
      · refine .inr ?_
        simp only [List.filter_cons, ht, hlow, List.filter_nil, and_self, decide_true, if_true,
          List.length_cons, List.length_nil] at hrest ⊢
        rcases hrest with hnil | hrest
        · rw [hnil, List.length_nil]
          omega
        · omega
      · simp only [List.filter_cons, ht, hlow, List.filter_nil, false_and, decide_true, decide_false,
          if_true, List.length_cons, List.length_nil] at hrest ⊢
        simp only [Bool.false_eq_true, if_false]
        exact hrest.imp id (by omega)
    · simp only [List.filter_cons, ht, List.filter_nil, and_false, decide_false, Bool.false_eq_true,
        if_false, List.length_nil, Nat.add_zero] at hrest ⊢
      exact hrest

end Damping
