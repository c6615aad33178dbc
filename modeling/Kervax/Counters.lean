-- Counters that only grow and start again at zero: the growth over a row of readings, and
-- what is left of it for a reader that keeps no older reading than the last round's.
-- Nothing here is about a program.
import Mathlib.Data.List.Basic
import Mathlib.Algebra.Order.Group.Int
import Mathlib.Tactic.Linarith

namespace Counters

/-! ## Growth -/

/-- What a counter has grown by: a smaller one has started again. -/
def grow (old new : Int) : Int := if old ≤ new then new - old else new

theorem grow_nonneg (old : Int) {new : Int} (h : 0 ≤ new) : 0 ≤ grow old new := by
  unfold grow
  split <;> omega

/-- The growth over a row of readings. -/
def growth : List Int → Int
  | [] => 0
  | [_] => 0
  | a :: b :: l => grow a b + growth (b :: l)

/-- A reading between two others says nothing new, unless the counter starts again. -/
theorem growth_middle {a b c : Int} (hab : a ≤ b) (hbc : b ≤ c) (pre post : List Int) :
    growth (pre ++ a :: b :: c :: post) = growth (pre ++ a :: c :: post) := by
  induction pre with
  | nil =>
    simp only [List.nil_append, growth, grow, if_pos hab, if_pos hbc, if_pos (le_trans hab hbc)]
    omega
  | cons p pre ih =>
    cases pre with
    | nil =>
      simp only [List.nil_append, List.cons_append, growth] at ih ⊢
      rw [ih]
    | cons q pre =>
      simp only [List.cons_append, growth] at ih ⊢
      rw [ih]

/-! ## A reader that forgets -/

/-- What a round shows of a counter: the round is void, or the counter is not in it, or
its reading. -/
inductive Sight
  | void
  | missing
  | seen (c : Int)
deriving DecidableEq

def Sight.reading : Sight → Option Int
  | .seen c => some c
  | _ => none

def readings (ss : List Sight) : List Int := ss.filterMap Sight.reading

/-- What the reader adds up: a round without the counter takes the base away. -/
def tally : Option Int → List Sight → Int
  | _, [] => 0
  | base, .void :: ss => tally base ss
  | _, .missing :: ss => tally none ss
  | base, .seen c :: ss => (base.map fun b => grow b c).getD 0 + tally (some c) ss

/-- What the reader misses: the growth since the last reading, where the base is gone. -/
def missed : Option Int → Option Int → List Sight → Int
  | _, _, [] => 0
  | base, last, .void :: ss => missed base last ss
  | _, last, .missing :: ss => missed none last ss
  | base, last, .seen c :: ss =>
    (if base = none then (last.map fun b => grow b c).getD 0 else 0) + missed (some c) (some c) ss

theorem missed_seen (base last : Option Int) (c : Int) (ss : List Sight) :
    missed base last (.seen c :: ss) =
      (if base = none then (last.map fun b => grow b c).getD 0 else 0) +
        missed (some c) (some c) ss := rfl

theorem tally_add_missed (base last : Option Int) (h : base = none ∨ base = last)
    (ss : List Sight) : tally base ss + missed base last ss = growth (last.toList ++ readings ss) := by
  induction ss generalizing base last with
  | nil => cases last <;> rfl
  | cons s ss ih =>
    cases s with
    | void => exact ih base last h
    | missing => exact ih none last (Or.inl rfl)
    | seen c =>
      have hrest := ih (some c) (some c) (Or.inr rfl)
      simp only [tally, missed, readings, List.filterMap_cons, Sight.reading] at hrest ⊢
      cases last with
      | none =>
        obtain rfl : base = none := by simpa using h
        simp only [Option.map_none, Option.getD_none, if_true, Option.toList_none,
          List.nil_append]
        simpa using hrest
      | some b =>
        simp only [Option.toList_some, List.cons_append, List.nil_append, growth] at hrest ⊢
        rcases h with rfl | rfl
        · simp only [Option.map_none, Option.getD_none, if_true, Option.map_some,
            Option.getD_some]
          omega
        · simp only [Option.map_some, Option.getD_some, reduceCtorEq, if_false]
          omega

theorem tally_nonneg (base : Option Int) {ss : List Sight} (h : ∀ c ∈ readings ss, 0 ≤ c) :
    0 ≤ tally base ss := by
  induction ss generalizing base with
  | nil => exact le_refl _
  | cons s ss ih =>
    cases s with
    | void => exact ih base h
    | missing => exact ih none h
    | seen c =>
      simp only [readings, List.filterMap_cons, Sight.reading, List.forall_mem_cons] at h
      have hrest := ih (some c) h.2
      unfold tally
      cases base with
      | none => simpa using hrest
      | some b =>
        have hc := grow_nonneg b h.1
        simp only [Option.map_some, Option.getD_some]
        omega

theorem missed_nonneg (base last : Option Int) {ss : List Sight} (h : ∀ c ∈ readings ss, 0 ≤ c) :
    0 ≤ missed base last ss := by
  induction ss generalizing base last with
  | nil => exact le_refl _
  | cons s ss ih =>
    cases s with
    | void => exact ih base last h
    | missing => exact ih none last h
    | seen c =>
      simp only [readings, List.filterMap_cons, Sight.reading, List.forall_mem_cons] at h
      have hrest := ih (some c) (some c) h.2
      rw [missed_seen]
      cases last with
      | none => simpa using hrest
      | some b =>
        have hc := grow_nonneg b h.1
        simp only [Option.map_some, Option.getD_some]
        split <;> omega

/-! ## When nothing is missed -/

/-- Wherever a counter comes back after a round without it, it has not grown. -/
def Still (ss : List Sight) : Prop :=
  ∀ pre old mid new post, ss = pre ++ .seen old :: (mid ++ .seen new :: post) →
    readings mid = [] → .missing ∈ mid → grow old new = 0

/-- The same for the first reading of the row, against an older one. -/
def StillFrom (base last : Option Int) (ss : List Sight) : Prop :=
  ∀ mid new post, ss = mid ++ .seen new :: post → readings mid = [] →
    base = none ∨ .missing ∈ mid → ∀ old ∈ last, grow old new = 0

theorem still_cons_blank {s : Sight} {ss : List Sight} (hs : s.reading = none) :
    Still (s :: ss) ↔ Still ss := by
  constructor
  · intro h pre old mid new post he
    exact h (s :: pre) old mid new post (by rw [he, List.cons_append])
  · intro h pre old mid new post he
    cases pre with
    | nil =>
      rw [List.nil_append, List.cons.injEq] at he
      rw [he.1] at hs
      cases hs
    | cons p pre =>
      rw [List.cons_append, List.cons.injEq] at he
      exact h pre old mid new post he.2

theorem still_cons_seen {c : Int} {ss : List Sight} :
    Still (.seen c :: ss) ↔ StillFrom (some c) (some c) ss ∧ Still ss := by
  constructor
  · intro h
    constructor
    · intro mid new post he hmid hgone old hold
      obtain rfl : c = old := by simpa using hold
      refine h [] c mid new post (by rw [he, List.nil_append]) hmid ?_
      rcases hgone with hnone | hgone
      · cases hnone
      · exact hgone
    · intro pre old mid new post he
      exact h (.seen c :: pre) old mid new post (by rw [he, List.cons_append])
  · rintro ⟨hfirst, hrest⟩ pre old mid new post he hmid hgone
    cases pre with
    | nil =>
      rw [List.nil_append, List.cons.injEq, Sight.seen.injEq] at he
      obtain ⟨rfl, he⟩ := he
      exact hfirst mid new post he hmid (Or.inr hgone) c rfl
    | cons p pre =>
      rw [List.cons_append, List.cons.injEq] at he
      exact hrest pre old mid new post he.2 hmid hgone

theorem stillFrom_cons_blank (base base' last : Option Int) {s : Sight} {ss : List Sight}
    (hs : s.reading = none) (hbase : base' = none ↔ base = none ∨ s = .missing) :
    StillFrom base last (s :: ss) ↔ StillFrom base' last ss := by
  constructor
  · intro h mid new post he hmid hgone
    refine h (s :: mid) new post (by rw [he, List.cons_append]) ?_ ?_
    · simpa [readings, hs] using hmid
    · rcases hgone with hb | hgone
      · rcases hbase.mp hb with hb | rfl
        · exact Or.inl hb
        · exact Or.inr List.mem_cons_self
      · exact Or.inr (List.mem_cons_of_mem _ hgone)
  · intro h mid new post he hmid hgone
    cases mid with
    | nil =>
      rw [List.nil_append, List.cons.injEq] at he
      rw [he.1] at hs
      cases hs
    | cons m mid =>
      rw [List.cons_append, List.cons.injEq] at he
      obtain ⟨rfl, he⟩ := he
      refine h mid new post he (by simpa [readings, hs] using hmid) ?_
      rcases hgone with hb | hgone
      · exact Or.inl (hbase.mpr (Or.inl hb))
      · rcases List.mem_cons.mp hgone with hm | hgone
        · exact Or.inl (hbase.mpr (Or.inr hm.symm))
        · exact Or.inr hgone

theorem stillFrom_cons_seen {base last : Option Int} {c : Int} {ss : List Sight} :
    StillFrom base last (.seen c :: ss) ↔ (base = none → ∀ old ∈ last, grow old c = 0) := by
  constructor
  · intro h hb
    exact h [] c ss rfl rfl (Or.inl hb)
  · intro h mid new post he hmid hgone
    cases mid with
    | nil =>
      rw [List.nil_append, List.cons.injEq, Sight.seen.injEq] at he
      obtain ⟨rfl, -⟩ := he
      rcases hgone with hb | hgone
      · exact h hb
      · cases hgone
    | cons m mid =>
      rw [List.cons_append, List.cons.injEq] at he
      rw [← he.1] at hmid
      cases hmid

theorem missed_eq_zero_iff (base last : Option Int) {ss : List Sight}
    (h : ∀ c ∈ readings ss, 0 ≤ c) :
    missed base last ss = 0 ↔ StillFrom base last ss ∧ Still ss := by
  induction ss generalizing base last with
  | nil =>
    refine ⟨fun _ => ⟨?_, ?_⟩, fun _ => rfl⟩
    · intro mid new post he
      simp at he
    · intro pre old mid new post he
      simp at he
  | cons s ss ih =>
    cases s with
    | void =>
      rw [stillFrom_cons_blank base base last rfl (by simp), still_cons_blank rfl]
      exact ih base last h
    | missing =>
      rw [stillFrom_cons_blank base none last rfl (by simp), still_cons_blank rfl]
      exact ih none last h
    | seen c =>
      simp only [readings, List.filterMap_cons, Sight.reading, List.forall_mem_cons] at h
      have hrest := ih (some c) (some c) h.2
      have hpos := missed_nonneg (some c) (some c) h.2
      rw [stillFrom_cons_seen, still_cons_seen, ← hrest, missed_seen]
      cases last with
      | none => simp
      | some b =>
        have hc := grow_nonneg b h.1
        by_cases hb : base = none
        · simp only [hb, if_true, Option.map_some, Option.getD_some, forall_const,
            Option.mem_some_iff, forall_eq']
          omega
        · simp [hb]

/-- The reader has all the growth exactly if nothing grew while it was missing. -/
theorem tally_eq_growth_iff {ss : List Sight} (h : ∀ c ∈ readings ss, 0 ≤ c) :
    tally none ss = growth (readings ss) ↔ Still ss := by
  have hsum := tally_add_missed none none (Or.inl rfl) ss
  have hzero := missed_eq_zero_iff none none h
  have hfirst : StillFrom none none ss := by
    intro mid new post _ _ _ old hold
    cases hold
  simp only [Option.toList_none, List.nil_append] at hsum
  constructor
  · intro he
    exact (hzero.mp (by omega)).2
  · intro hs
    have hm := hzero.mpr ⟨hfirst, hs⟩
    omega

end Counters
