-- Marks in time and their spells: a mark goes on the spell of the one before it when it comes
-- soon enough. What is kept are the newest spells, for some time after their ends. Nothing here
-- is about a program.
import Mathlib.Algebra.Order.Group.Defs
import Mathlib.Data.List.DropRight
import Mathlib.Data.List.SplitBy

set_option linter.unusedSectionVars false

namespace Spells

variable {μ : Type}

/-! ## The newest elements -/

theorem rtake_append {n : Nat} (l : List μ) {m : List μ} (h : n ≤ m.length) :
    (l ++ m).rtake n = m.rtake n := by
  unfold List.rtake
  rw [List.length_append, Nat.add_sub_assoc h, List.drop_length_add_append]

theorem rtake_of_length_le {n : Nat} {l : List μ} (h : l.length ≤ n) : l.rtake n = l := by
  unfold List.rtake
  rw [Nat.sub_eq_zero_of_le h, List.drop_zero]

theorem length_rtake_le (n : Nat) (l : List μ) : (l.rtake n).length ≤ n := by
  unfold List.rtake
  rw [List.length_drop]
  omega

theorem mem_rtake {n : Nat} {l : List μ} {a : μ} (h : a ∈ l.rtake n) : a ∈ l :=
  List.mem_of_mem_drop h

/-- The newest of those with a property that, once an element has it, every later one has: it
does not matter that only the newest of some more were left. -/
theorem rtake_filter {p q : μ → Bool} {k n : Nat} {l : List μ} (hk : k ≤ n)
    (hpq : ∀ a, q a = true → p a = true) (hl : l.Pairwise fun a b => q a = true → q b = true) :
    (((l.filter p).rtake n).filter q).rtake k = (l.filter q).rtake k := by
  have hfilter : l.filter q = (l.filter p).filter q := by
    rw [List.filter_filter]
    apply List.filter_congr
    intro a _
    cases hq : q a with
    | false => rfl
    | true => rw [hpq a hq, Bool.and_self]
  have hpair := hl.filter p
  rw [hfilter]
  generalize l.filter p = l at hpair
  rcases Nat.le_total l.length n with hlen | hlen
  · rw [rtake_of_length_le hlen]
  · have hsplit : l = l.take (l.length - n) ++ l.rtake n := (List.take_append_drop _ l).symm
    have hnewest : (l.rtake n).length = n := by
      unfold List.rtake
      rw [List.length_drop]
      omega
    generalize l.take (l.length - n) = older at hsplit
    generalize l.rtake n = newer at hsplit hnewest
    subst hsplit
    rw [List.filter_append]
    by_cases hnone : older.filter q = []
    · rw [hnone, List.nil_append]
    · -- an older one has it, so all of the newer ones do
      obtain ⟨a, ha⟩ := List.exists_mem_of_ne_nil _ hnone
      obtain ⟨ha, hqa⟩ := List.mem_filter.mp ha
      have hall : newer.filter q = newer := List.filter_eq_self.mpr fun b hb =>
        (List.pairwise_append.mp hpair).2.2 a ha b hb hqa
      rw [hall, rtake_append _ (by omega)]

/-! ## Spells -/

/-- One more mark: it goes on the last spell, or begins one. -/
def add (near : μ → μ → Bool) (ls : List (List μ)) (m : μ) : List (List μ) :=
  match ls.getLast? with
  | none => [[m]]
  | some r => if r.getLast?.any (near · m) then ls.dropLast ++ [r ++ [m]] else ls ++ [[m]]

section
variable {near : μ → μ → Bool} {ls : List (List μ)} {m : μ}

theorem add_concat (near : μ → μ → Bool) (init : List (List μ)) (r : List μ) (a m : μ) :
    add near (init ++ [r ++ [a]]) m =
      if near a m then init ++ [r ++ [a] ++ [m]] else init ++ [r ++ [a]] ++ [[m]] := by
  unfold add
  rw [List.getLast?_concat]
  simp

/-- Spells end in marks. -/
theorem eq_concat (hls : [] ∉ ls) (hne : ls ≠ []) :
    ∃ init r a, ls = init ++ [r ++ [a]] := by
  rcases List.eq_nil_or_concat' ls with rfl | ⟨init, r, rfl⟩
  · exact absurd rfl hne
  · rcases List.eq_nil_or_concat' r with rfl | ⟨r, a, rfl⟩
    · exact absurd (List.mem_append_right _ (List.mem_singleton.mpr rfl)) hls
    · exact ⟨init, r, a, rfl⟩

theorem nil_notMem_add (hls : [] ∉ ls) : [] ∉ add near ls m := by
  by_cases hne : ls = []
  · subst hne
    simp [add]
  · obtain ⟨init, r, a, rfl⟩ := eq_concat hls hne
    rw [add_concat]
    split
    · intro h
      rcases List.mem_append.mp h with h | h
      · exact hls (List.mem_append_left _ h)
      · simp at h
    · intro h
      rcases List.mem_append.mp h with h | h
      · exact hls h
      · simp at h

/-- A mark that is near no spell. -/
theorem add_far (hls : [] ∉ ls) (h : ∀ r ∈ ls, ∀ a ∈ r, near a m = false) :
    add near ls m = ls ++ [[m]] := by
  by_cases hne : ls = []
  · rw [hne]
    rfl
  · obtain ⟨init, r, a, rfl⟩ := eq_concat hls hne
    rw [add_concat, h (r ++ [a]) (by simp) a (by simp)]
    rfl

/-- The spells of marks are found one mark after the other. -/
theorem splitBy_snoc (near : μ → μ → Bool) (marks : List μ) (m : μ) :
    (marks ++ [m]).splitBy near = add near (marks.splitBy near) m := by
  by_cases hne : marks = []
  · subst hne
    rfl
  have hls : marks.splitBy near ≠ [] := List.splitBy_ne_nil.mpr hne
  obtain ⟨init, r, a, hsplit⟩ := eq_concat (List.nil_notMem_splitBy near marks) hls
  obtain ⟨hflat, hnil, hchains, hbetween⟩ := List.splitBy_eq_iff.mp hsplit
  rw [hsplit, add_concat]
  by_cases hnear : near a m = true
  · rw [if_pos hnear, List.splitBy_eq_iff]
    obtain ⟨hinit, -, hlast⟩ := List.isChain_append.mp hbetween
    refine ⟨by simp [hflat], ?_, ?_, ?_⟩
    · intro h
      rcases List.mem_append.mp h with h | h
      · exact hnil (List.mem_append_left _ h)
      · simp at h
    · intro s hs
      rcases List.mem_append.mp hs with hs | hs
      · exact hchains s (List.mem_append_left _ hs)
      · rw [List.mem_singleton.mp hs]
        refine List.isChain_append.mpr ⟨hchains _ (by simp), List.isChain_singleton _, ?_⟩
        intro x hx y hy
        obtain rfl : a = x := by simpa using hx
        obtain rfl : m = y := by simpa using hy
        exact hnear
    · refine List.isChain_append.mpr ⟨hinit, List.isChain_singleton _, ?_⟩
      intro x hx y hy
      obtain rfl : r ++ [a] ++ [m] = y := by simpa using hy
      obtain ⟨hx', hb, hfar⟩ := hlast x hx (r ++ [a]) (by simp)
      refine ⟨hx', by simp, ?_⟩
      rw [List.head_append_of_ne_nil hb]
      exact hfar
  · rw [if_neg hnear, ← hsplit]
    refine List.splitBy_append_cons [] fun x hx => ?_
    rw [hflat] at hx
    obtain rfl : a = x := by simpa using hx
    exact Bool.eq_false_iff.mpr hnear

end

/-! ## What is kept -/

/-- When marks are near one another, and how many spells are kept for how long. -/
structure Rules (μ T : Type) [Zero T] [LE T] where
  time : μ → T
  gap : T
  keep : T
  most : Nat
  nonneg : 0 ≤ gap
  gap_le : gap ≤ keep

variable {T : Type} [AddCommGroup T] [LinearOrder T] [IsOrderedAddMonoid T] (R : Rules μ T)

def Rules.near (a b : μ) : Bool := R.time b - R.time a ≤ R.gap

/-- The spell did not end too long ago. -/
def Rules.recent (now : T) (r : List μ) : Bool := r.getLast?.any fun a => now - R.time a ≤ R.keep

/-- The newest of the spells that did not end too long ago. -/
def Rules.kept (now : T) (ls : List (List μ)) : List (List μ) :=
  (ls.filter (R.recent now)).rtake R.most

/-- The marks come one after the other. -/
def Rules.InOrder (ls : List (List μ)) : Prop :=
  ls.flatten.Pairwise fun a b => R.time a ≤ R.time b

section
variable {R}

theorem inOrder_splitBy {near : μ → μ → Bool} {marks : List μ}
    (h : marks.Pairwise fun a b => R.time a ≤ R.time b) : R.InOrder (marks.splitBy near) := by
  rw [← List.flatten_splitBy near marks] at h
  exact h

theorem recent_iff {now : T} {r : List μ} :
    R.recent now r = true ↔ ∃ a ∈ r.getLast?, now - R.time a ≤ R.keep := by
  unfold Rules.recent
  cases r.getLast? <;> simp

theorem recent_later {t now : T} (h : t ≤ now) {r : List μ} (hr : R.recent now r = true) :
    R.recent t r = true := by
  obtain ⟨a, ha, hkeep⟩ := recent_iff.mp hr
  exact recent_iff.mpr ⟨a, ha, (sub_le_sub_right h _).trans hkeep⟩

theorem Rules.InOrder.recent {ls : List (List μ)} (h : R.InOrder ls) (hls : [] ∉ ls) (now : T) :
    ls.Pairwise fun r s => R.recent now r = true → R.recent now s = true := by
  refine (List.pairwise_flatten.mp h).2.imp_of_mem fun {r s} _ hs hrs hr => ?_
  obtain ⟨a, ha, hkeep⟩ := recent_iff.mp hr
  rcases List.eq_nil_or_concat' s with rfl | ⟨s, b, rfl⟩
  · exact absurd hs hls
  · have hab := hrs a (List.mem_of_getLast? ha) b (by simp)
    exact recent_iff.mpr ⟨b, by simp, (sub_le_sub_left hab _).trans hkeep⟩

/-- Time passes. -/
theorem kept_kept {ls : List (List μ)} (h : R.InOrder ls) (hls : [] ∉ ls) {t now : T}
    (hle : t ≤ now) : R.kept now (R.kept t ls) = R.kept now ls :=
  rtake_filter (le_refl _) (fun _ => recent_later hle) (h.recent hls now)

/-- Time passes, and nothing is counted again. -/
theorem kept_filter {ls : List (List μ)} (h : R.InOrder ls) (hls : [] ∉ ls) {t now : T}
    (hle : t ≤ now) : (R.kept t ls).filter (R.recent now) = R.kept now ls := by
  rw [← kept_kept h hls hle]
  refine (rtake_of_length_le ?_).symm
  exact (List.length_filter_le _ _).trans (length_rtake_le _ _)

theorem nil_notMem_kept {ls : List (List μ)} (hls : [] ∉ ls) (t : T) : [] ∉ R.kept t ls :=
  fun h => hls (List.mem_of_mem_filter (mem_rtake h))

/-- The last spell is kept while it is recent, with those that were there. -/
theorem kept_concat {n : Nat} (hmost : R.most = n + 1) {now : T} {r : List μ}
    (hr : R.recent now r = true) (ls : List (List μ)) :
    R.kept now (ls ++ [r]) = (ls.filter (R.recent now)).rtake n ++ [r] := by
  unfold Rules.kept
  rw [hmost, List.filter_append, List.filter_cons_of_pos hr, List.filter_nil,
    List.rtake_concat_succ]

/-- A mark: it does not matter that only what was kept is there to go on. -/
theorem kept_add {ls : List (List μ)} (h : R.InOrder ls) (hls : [] ∉ ls) {t : T} {m : μ}
    (hle : t ≤ R.time m) :
    R.kept (R.time m) (add R.near (R.kept t ls) m) = R.kept (R.time m) (add R.near ls m) := by
  cases hmost : R.most with
  | zero => simp [Rules.kept, hmost]
  | succ n =>
    have hlater : ∀ r, R.recent (R.time m) r = true → R.recent t r = true :=
      fun _ => recent_later hle
    have hrecent : ∀ r, R.recent (R.time m) (r ++ [m]) = true := by
      intro r
      refine recent_iff.mpr ⟨m, by simp, ?_⟩
      rw [sub_self]
      exact R.nonneg.trans R.gap_le
    have hone := hrecent []
    rw [List.nil_append] at hone
    by_cases hnear : ∀ r ∈ ls, ∀ a ∈ r, R.near a m = false
    · -- The mark begins a spell, also when the last spell is still kept.
      rw [add_far hls hnear, add_far (nil_notMem_kept hls t) fun r hr =>
        hnear r (List.mem_of_mem_filter (mem_rtake hr))]
      rw [kept_concat hmost hone, kept_concat hmost hone]
      unfold Rules.kept
      rw [hmost, rtake_filter (Nat.le_succ n) hlater (h.recent hls _)]
    · -- The mark goes on the last spell, which is still kept.
      push Not at hnear
      obtain ⟨s, hs, b, hb, hbm⟩ := hnear
      obtain ⟨init, r, a, rfl⟩ := eq_concat hls (List.ne_nil_of_mem hs)
      have hba : R.time b ≤ R.time a := by
        have hmem : b ∈ (init ++ [r ++ [a]]).flatten := List.mem_flatten.mpr ⟨s, hs, hb⟩
        unfold Rules.InOrder at h
        have hflat : (init ++ [r ++ [a]]).flatten = init.flatten ++ r ++ [a] := by simp
        rw [hflat] at h hmem
        rcases List.mem_append.mp hmem with hmem | hmem
        · exact (List.pairwise_append.mp h).2.2 b hmem a (List.mem_singleton.mpr rfl)
        · rw [List.mem_singleton.mp hmem]
      have ham : R.near a m = true := by
        have hbm : R.time m - R.time b ≤ R.gap := by simpa [Rules.near] using hbm
        exact decide_eq_true ((sub_le_sub_left hba _).trans hbm)
      have hlast : R.recent t (r ++ [a]) = true := by
        refine hlater _ (recent_iff.mpr ⟨a, by simp, ?_⟩)
        exact (of_decide_eq_true ham).trans R.gap_le
      rw [kept_concat hmost hlast, add_concat, add_concat, if_pos ham, if_pos ham,
        kept_concat hmost (hrecent _), kept_concat hmost (hrecent _)]
      rw [rtake_filter (le_refl n) hlater]
      exact ((h.recent hls _).sublist (List.sublist_append_left _ _))

end

end Spells
