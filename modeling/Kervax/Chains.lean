-- Chains of a map from each thing to the one it stands behind: cycles, and a walk
-- along a chain that remembers where it has been. Nothing here is about a program.
import Mathlib.Logic.Relation
import Mathlib.Logic.Function.Basic
import Mathlib.Data.List.Basic

namespace Chains

open Relation

variable {α : Type} [DecidableEq α]

/-- `b` is the next one behind `a`. -/
def Behind (next : α → Option α) (a b : α) : Prop := next a = some b

/-- No chain comes back to where it began. -/
def Acyclic (next : α → Option α) : Prop := ∀ a, ¬ TransGen (Behind next) a a

/-! ## Changes of the map -/

omit [DecidableEq α] in
theorem Acyclic.mono {next next' : α → Option α} (h : Acyclic next)
    (hsub : ∀ a b, next' a = some b → next a = some b) : Acyclic next' := by
  intro a hc
  exact h a (TransGen.mono (fun x y => hsub x y) _ _ hc)

/-- What a new link `a` to `p` can reach from `p`, when `a` is not there. -/
theorem reach_link {next : α → Option α} {a p b : α}
    (hfree : ∀ c, ReflTransGen (Behind next) p c → c ≠ a)
    (h : ReflTransGen (Behind (Function.update next a (some p))) p b) :
    ReflTransGen (Behind next) p b := by
  induction h with
  | refl => exact .refl
  | tail _ hstep ih =>
    apply ih.tail
    unfold Behind at *
    rwa [Function.update_of_ne (hfree _ ih)] at hstep

/-- A chain over a new link is one without it, or leads to it and goes on behind it. -/
theorem chain_link {next : α → Option α} {a p c d : α}
    (h : TransGen (Behind (Function.update next a (some p))) c d) :
    TransGen (Behind next) c d ∨
      ReflTransGen (Behind next) c a ∧
        ReflTransGen (Behind (Function.update next a (some p))) p d := by
  have step : ∀ {x y : α}, Behind (Function.update next a (some p)) x y →
      Behind next x y ∨ x = a ∧ y = p := by
    intro x y hxy
    unfold Behind at *
    by_cases hx : x = a
    · subst hx
      rw [Function.update_self] at hxy
      exact .inr ⟨rfl, (Option.some.inj hxy).symm⟩
    · exact .inl (by rwa [Function.update_of_ne hx] at hxy)
  induction h with
  | single hstep =>
    rcases step hstep with hold | ⟨rfl, rfl⟩
    · exact .inl (.single hold)
    · exact .inr ⟨.refl, .refl⟩
  | tail _ hstep ih =>
    rcases ih with hold | ⟨hto, hon⟩
    · rcases step hstep with hold' | ⟨rfl, rfl⟩
      · exact .inl (hold.tail hold')
      · exact .inr ⟨hold.to_reflTransGen, .refl⟩
    · exact .inr ⟨hto, hon.tail hstep⟩

/-- A link to a chain that does not lead back closes no cycle. -/
theorem Acyclic.link {next : α → Option α} {a p : α} (h : Acyclic next)
    (hfree : ∀ c, ReflTransGen (Behind next) p c → c ≠ a) :
    Acyclic (Function.update next a (some p)) := by
  intro c hc
  rcases chain_link hc with hold | ⟨hto, hon⟩
  · exact h c hold
  · exact hfree a ((reach_link hfree hon).trans hto) rfl

/-- A link to a chain that leads back closes one. -/
theorem link_cycle {next : α → Option α} {a p : α} (h : ReflTransGen (Behind next) p a) :
    ¬ Acyclic (Function.update next a (some p)) := by
  have first : Behind (Function.update next a (some p)) a p := Function.update_self _ _ _
  have back : ∀ {c}, ReflTransGen (Behind next) p c →
      ReflTransGen (Behind (Function.update next a (some p))) p c ∨
        ReflTransGen (Behind (Function.update next a (some p))) p a := by
    intro c hc
    induction hc with
    | refl => exact .inl .refl
    | @tail b c _ hstep ih =>
      rcases ih with hb | ha
      · by_cases hba : b = a
        · exact .inr (hba ▸ hb)
        · apply Or.inl
          apply hb.tail
          unfold Behind at *
          rwa [Function.update_of_ne hba]
      · exact .inr ha
  intro hac
  rcases back h with hb | hb <;> exact hac a (TransGen.head' first hb)

/-! ## The walk -/

/-- Along the chain from `cur` until it ends (false) or comes to one that was seen
(true); none when the steps do not suffice. -/
def walk (next : α → Option α) : Nat → List α → Option α → Option Bool
  | 0, _, _ => none
  | _ + 1, _, none => some false
  | n + 1, seen, some a => if a ∈ seen then some true else walk next n (a :: seen) (next a)

/-- The walk ends: each step sees one more of the finitely many that have a next one. -/
theorem walk_ends {next : α → Option α} {dom : List α} (hdom : ∀ a, next a ≠ none → a ∈ dom)
    {n : Nat} {seen : List α} {cur : Option α}
    (hn : (dom.filter (· ∉ seen)).length + 2 ≤ n) : (walk next n seen cur).isSome := by
  induction n generalizing seen cur with
  | zero => omega
  | succ n ih =>
    cases cur with
    | none => rfl
    | some a =>
      unfold walk
      split_ifs with hseen
      · rfl
      · by_cases hnext : next a = none
        · -- one more step, and the chain has ended
          obtain ⟨k, rfl⟩ : ∃ k, n = k + 1 := ⟨n - 1, by omega⟩
          rw [hnext]
          rfl
        · apply ih
          have hlt : (dom.filter (· ∉ a :: seen)).length < (dom.filter (· ∉ seen)).length := by
            have hsplit : dom.filter (· ∉ a :: seen) =
                (dom.filter (· ∉ seen)).filter (· ≠ a) := by
              rw [List.filter_filter]
              apply List.filter_congr
              intro x _
              simp [not_or]
            rw [hsplit]
            apply List.length_filter_lt_length_iff_exists.mpr
            exact ⟨a, by simp [hdom a hnext, hseen], by simp⟩
          omega

theorem walk_mono {next : α → Option α} {n : Nat} {seen : List α} {cur : Option α} {b : Bool}
    (h : walk next n seen cur = some b) : walk next (n + 1) seen cur = some b := by
  induction n generalizing seen cur with
  | zero => simp [walk] at h
  | succ n ih =>
    cases cur with
    | none => exact h
    | some a =>
      unfold walk at h ⊢
      split_ifs at h ⊢ with hseen
      · exact h
      · exact ih h

theorem walk_false {next : α → Option α} {n : Nat} {seen : List α} {a b : α}
    (h : walk next n seen (some a) = some false) (hr : ReflTransGen (Behind next) a b) :
    b ∉ seen := by
  induction n generalizing seen a with
  | zero => simp [walk] at h
  | succ n ih =>
    unfold walk at h
    by_cases hseen : a ∈ seen
    · simp [hseen] at h
    rw [if_neg hseen] at h
    rcases ReflTransGen.cases_head hr with rfl | ⟨c, hac, hcb⟩
    · exact hseen
    · rw [hac] at h
      exact fun hb => ih h hcb (List.mem_cons_of_mem _ hb)

theorem walk_true {next : α → Option α} {n : Nat} {seen : List α} {a : α}
    (h : walk next n seen (some a) = some true) :
    ∃ b, ReflTransGen (Behind next) a b ∧ (b ∈ seen ∨ TransGen (Behind next) b b) := by
  induction n generalizing seen a with
  | zero => simp [walk] at h
  | succ n ih =>
    unfold walk at h
    split_ifs at h with hseen
    · exact ⟨a, .refl, .inl hseen⟩
    · cases hnext : next a with
      | none =>
        rw [hnext] at h
        cases n <;> simp [walk] at h
      | some c =>
        rw [hnext] at h
        obtain ⟨b, hcb, hb⟩ := ih h
        have hab : TransGen (Behind next) a b := TransGen.head' hnext hcb
        rcases hb with hb | hb
        · rcases List.mem_cons.mp hb with rfl | hb
          · exact ⟨b, .refl, .inr hab⟩
          · exact ⟨b, hab.to_reflTransGen, .inl hb⟩
        · exact ⟨b, hab.to_reflTransGen, .inr hb⟩

end Chains
