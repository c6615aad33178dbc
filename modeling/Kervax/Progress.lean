-- The progress of the reports of an agent (`report_progress.py`): a report is
-- evidence only if it was collected after the last one, which its clock and its
-- uptime have to show.
import Kervax.Runs
import Kervax.Kinds
import Mathlib.Data.Rat.Defs
import Mathlib.Algebra.Order.Ring.Rat
import Mathlib.Tactic.Linarith

namespace Kervax

open Runs

/-! ## One report -/

/-- `MAX_SAME_SECONDS`, `NEW_EPOCH_POINTS`. -/
def maxSame : Time := sec 120
def newEpochPoints : Nat := 3

/-- `_number`. What is no finite number is none. -/
def number (v : Option ℚ) : Option ℚ := v.filter fun q => 0 ≤ q ∧ q ≤ 2 ^ 63 - 1

/-- The two counters of a report. A missing one is zero. -/
structure Report where
  clock : Option ℚ := some 0
  up : Option ℚ := some 0
deriving DecidableEq

/-- A new epoch that is not yet believed. -/
structure Candidate where
  clock : ℚ
  up : ℚ
  at' : Time
  n : Nat
deriving DecidableEq

/-- What is stored of the last usable report. -/
structure Progress where
  clock : Option ℚ := some 0
  up : Option ℚ := some 0
  at' : Option Time := none
  candidate : Option Candidate := none
deriving DecidableEq

/-- The age is known, and within `MAX_SAME_SECONDS`. -/
def recent (at' : Option Time) (now : Time) : Bool :=
  match at' with
  | none => false
  | some t => 0 ≤ now - t ∧ now - t ≤ maxSame

/-- `_candidate`: both counters went back. -/
def candidateStep (old : Progress) (clock up : ℚ) (now : Time) : Progress × Bool × Bool :=
  let oldClock := (old.candidate.map (·.clock)).getD 0
  let oldUp := (old.candidate.map (·.up)).getD 0
  if recent (old.candidate.map (·.at')) now ∧ clock = oldClock ∧ up = oldUp then (old, false, false)
  else
    let ordered : Bool :=
      recent (old.candidate.map (·.at')) now ∧ oldClock < clock ∧ oldUp < up
    let count := if ordered then min ((old.candidate.map (·.n)).getD 0 + 1) newEpochPoints else 1
    if newEpochPoints ≤ count then ({ clock := clock, up := up, at' := now }, true, true)
    else ({ old with candidate := some ⟨clock, up, now, count⟩ }, false, false)

/-- `step`: the stored progress, whether the report is usable, and whether it
breaks the continuity. -/
def progressStep (previous : Option Progress) (report : Option Report) (now : Time) :
    Option Progress × Bool × Bool :=
  let old := previous.getD {}
  match report with
  | none => (previous, false, false)
  | some r =>
    match number r.clock with
    | none => (previous, false, false)
    | some clock =>
      if clock = 0 then (none, true, false)
      else
        match number r.up with
        | none => (previous, false, false)
        | some up =>
          let oldClock := (number old.clock).getD 0
          let oldUp := (number old.up).getD 0
          let epoch : Bool := oldClock = 0 ∨ number old.up = none ∨ ¬ recent old.at' now
          let point : Progress := { clock := clock, up := up, at' := now }
          if oldClock ≠ 0 then
            if clock < oldClock then
              if up ≠ 0 ∧ oldUp ≠ 0 ∧ up < oldUp then
                let r := candidateStep old clock up now
                (some r.1, r.2)
              else if ¬ (up ≠ 0 ∧ oldUp ≠ 0 ∧ oldUp < up) then (previous, false, false)
              -- the uptime went on across a correction of the clock
              else (some point, true, true)
            else if up ≠ 0 ∧ oldUp ≠ 0 ∧ up < oldUp then
              if clock ≤ oldClock then (previous, false, false)
              -- an ordinary reboot
              else (some point, true, true)
            else if clock = oldClock ∧ up = oldUp then
              if old.at' = none then (some point, true, true)
              else (some { old with candidate := none }, recent old.at' now, false)
            else (some point, true, epoch)
          else (some point, true, epoch)

/-! ## Histories -/

/-- A call of `step`. -/
structure ProgressTick where
  report : Option Report
  now : Time
deriving DecidableEq

def progressNext (x : Option Progress) (i : ProgressTick) : Option Progress :=
  (progressStep x i.report i.now).1

/-- The report counts as an observation. -/
def usable (x : Option Progress) (i : ProgressTick) : Bool := (progressStep x i.report i.now).2.1

/-- The counters of a report that carries both. -/
def pairOf (r : Option Report) : Option (ℚ × ℚ) :=
  match r with
  | none => none
  | some r =>
    match number r.clock, number r.up with
    | some c, some u => if c ≠ 0 ∧ u ≠ 0 then some (c, u) else none
    | _, _ => none

/-- The stored counters, once there are both. -/
def storedPair (x : Option Progress) : Option (ℚ × ℚ) := pairOf (x.map fun old => ⟨old.clock, old.up⟩)

/-- Earlier in both counters. -/
def Earlier (a b : ℚ × ℚ) : Prop := a.1 < b.1 ∧ a.2 < b.2

/-- The reports of a history hold two observations that lead up to `p`, one
after the other in both counters. -/
def Third (hist : List ProgressTick) (p : ℚ × ℚ) : Prop :=
  ∃ i j a b, [i, j].Sublist hist ∧ pairOf i.report = some a ∧ pairOf j.report = some b ∧
    Earlier a b ∧ Earlier b p

/-- A candidate was seen, and so was what it counts. -/
def CandidateSeen (hist : List ProgressTick) (x : Option Progress) : Prop :=
  ∀ cand, (x.getD {}).candidate = some cand →
    (∃ j ∈ hist, pairOf j.report = some (cand.clock, cand.up)) ∧
      (2 ≤ cand.n → ∃ i j a, [i, j].Sublist hist ∧ pairOf i.report = some a ∧
        pairOf j.report = some (cand.clock, cand.up) ∧ Earlier a (cand.clock, cand.up))

/-! ## What a step can do -/

variable {x : Option Progress} {i : ProgressTick} {hist : List ProgressTick}

theorem pairOf_some {r : Report} {c u : ℚ} (h : pairOf (some r) = some (c, u)) :
    number r.clock = some c ∧ number r.up = some u ∧ c ≠ 0 ∧ u ≠ 0 := by
  unfold pairOf at h
  dsimp only at h
  split at h
  · rename_i c' u' hc hu
    split at h
    · cases h
      exact ⟨hc, hu, ‹_›⟩
    · cases h
  · cases h

/-- What becomes of a report that went back in both counters. -/
inductive CandidateEnd (old : Progress) (clock up : ℚ) (now : Time) : Progress × Bool × Bool → Prop
  | again : CandidateEnd old clock up now (old, false, false)
  | counted (n : Nat)
      (hn : 2 ≤ n → ∃ p, old.candidate = some p ∧ p.clock < clock ∧ p.up < up) :
      CandidateEnd old clock up now
        ({ old with candidate := some ⟨clock, up, now, n⟩ }, false, false)
  /-- The third in a row. -/
  | believed (p : Candidate) (hp : old.candidate = some p) (hn : 2 ≤ p.n)
      (hlt : p.clock < clock ∧ p.up < up) :
      CandidateEnd old clock up now ({ clock := clock, up := up, at' := now }, true, true)

theorem candidateStep_end (old : Progress) (clock up : ℚ) (now : Time) :
    CandidateEnd old clock up now (candidateStep old clock up now) := by
  unfold candidateStep
  cases hc : old.candidate with
  | none =>
    simp only [Option.map_none, recent, Option.getD_none, Bool.false_eq_true, false_and, if_false,
      decide_false]
    rw [if_neg (by decide)]
    exact .counted 1 fun h => absurd h (by decide)
  | some p =>
    simp only [Option.map_some, Option.getD_some]
    split
    · exact .again
    generalize ho : decide (recent (some p.at') now = true ∧ p.clock < clock ∧ p.up < up) = ordered
    cases ordered with
    | true =>
      have ho := of_decide_eq_true ho
      simp only [if_true]
      split
      · rename_i hcount
        refine .believed p hc ?_ ho.2
        unfold newEpochPoints at hcount
        omega
      · exact .counted _ fun _ => ⟨p, hc, ho.2⟩
    | false =>
      simp only [Bool.false_eq_true, if_false]
      rw [if_neg (by decide)]
      exact .counted 1 fun h => absurd h (by decide)

/-- A report that carries both counters, against stored ones. -/
theorem progressStep_pair {old : Progress} {r : Report} {c u c₀ u₀ : ℚ}
    (hr : pairOf (some r) = some (c, u)) (hs : storedPair (some old) = some (c₀, u₀)) (now : Time) :
    progressStep (some old) (some r) now =
      if c < c₀ then
        if u < u₀ then (some (candidateStep old c u now).1, (candidateStep old c u now).2)
        else if u₀ < u then (some { clock := c, up := u, at' := now }, true, true)
        else (some old, false, false)
      else if u < u₀ then
        if c ≤ c₀ then (some old, false, false)
        else (some { clock := c, up := u, at' := now }, true, true)
      else if c = c₀ ∧ u = u₀ then
        if old.at' = none then (some { clock := c, up := u, at' := now }, true, true)
        else (some { old with candidate := none }, recent old.at' now, false)
      else (some { clock := c, up := u, at' := now }, true, !recent old.at' now) := by
  obtain ⟨hc, hu, hc0, hu0⟩ := pairOf_some hr
  obtain ⟨hc', hu', hc0', hu0'⟩ := pairOf_some hs
  unfold progressStep
  simp only [Option.getD_some, hc, hu, hc', hu', hc0, hu0, hc0', hu0', if_false, ne_eq,
    not_false_eq_true,
    true_and, if_true, not_lt]
  split_ifs <;> first | rfl | (exfalso; linarith) | simp_all

theorem pairOf_eq {r : Report} {c u : ℚ} (hc : number r.clock = some c) (hu : number r.up = some u)
    (hc0 : c ≠ 0) (hu0 : u ≠ 0) : pairOf (some r) = some (c, u) := by
  simp [pairOf, hc, hu, hc0, hu0]

/-- A candidate that is stored after a step was stored before it, or it is this
report. -/
theorem progressNext_candidate {cand : Candidate}
    (h : ((progressNext x i).getD {}).candidate = some cand) :
    (x.getD {}).candidate = some cand ∨
      pairOf i.report = some (cand.clock, cand.up) ∧
        (2 ≤ cand.n → ∃ p, (x.getD {}).candidate = some p ∧ p.clock < cand.clock ∧
          p.up < cand.up) := by
  unfold progressNext progressStep at h
  cases hr : i.report with
  | none =>
    simp only [hr] at h
    exact .inl h
  | some r =>
    simp only [hr] at h
    cases hc : number r.clock with
    | none =>
      simp only [hc] at h
      exact .inl h
    | some c =>
      simp only [hc] at h
      split at h
      · cases h
      rename_i hc0
      cases hu : number r.up with
      | none =>
        simp only [hu] at h
        exact .inl h
      | some u =>
        simp only [hu] at h
        split at h
        · split at h
          · split at h
            · rename_i hback
              have hend := candidateStep_end (x.getD {}) c u i.now
              generalize candidateStep (x.getD {}) c u i.now = q at hend h
              cases hend with
              | again => exact .inl h
              | counted n hn =>
                cases h
                exact .inr ⟨pairOf_eq hc hu hc0 hback.1, hn⟩
              | believed => cases h
            · split at h
              · exact .inl h
              · cases h
          · split at h
            · split at h
              · exact .inl h
              · cases h
            · split at h
              · split at h <;> cases h
              · cases h
        · cases h

theorem candidateSeen_step (h : CandidateSeen hist x) (i : ProgressTick) :
    CandidateSeen (hist ++ [i]) (progressNext x i) := by
  have hmono : hist.Sublist (hist ++ [i]) := List.sublist_append_left ..
  intro cand hcand
  rcases progressNext_candidate hcand with hold | ⟨hp, hn⟩
  · obtain ⟨⟨j, hj, hjp⟩, h2⟩ := h cand hold
    refine ⟨⟨j, hmono.subset hj, hjp⟩, fun hle => ?_⟩
    obtain ⟨k, l, a, hs, hrest⟩ := h2 hle
    exact ⟨k, l, a, hs.trans hmono, hrest⟩
  · refine ⟨⟨i, by simp, hp⟩, fun hle => ?_⟩
    obtain ⟨p, hp', hlt⟩ := hn hle
    obtain ⟨⟨j, hj, hjp⟩, -⟩ := h p hp'
    refine ⟨j, i, _, ?_, hjp, hp, hlt⟩
    exact List.Sublist.append (List.singleton_sublist.2 hj) (List.Sublist.refl [i])

theorem candidateSeen_run (is : List ProgressTick) :
    CandidateSeen is (run progressNext none is) := by
  induction is using List.reverseRecOn with
  | nil =>
    intro cand hc
    cases hc
  | append_singleton is i ih =>
    rw [run_snoc]
    exact candidateSeen_step ih i

/-- What went back in both counters is usable as the third in a row only. -/
theorem back_third (h : CandidateSeen hist x) {p q : ℚ × ℚ} (hp : pairOf i.report = some p)
    (hq : storedPair x = some q) (hback : Earlier p q) (hu : usable x i = true) : Third hist p := by
  obtain ⟨c, u⟩ := p
  obtain ⟨c₀, u₀⟩ := q
  obtain ⟨hc, hlt⟩ := hback
  cases hr : i.report with
  | none =>
    rw [hr] at hp
    cases hp
  | some r =>
    cases x with
    | none => cases hq
    | some old =>
      rw [hr] at hp
      unfold usable at hu
      rw [hr, progressStep_pair hp hq, if_pos hc, if_pos hlt] at hu
      have hend := candidateStep_end old c u i.now
      generalize candidateStep old c u i.now = r at hend hu
      cases hend with
      | again => cases hu
      | counted => cases hu
      | believed cand hcand hn hless =>
        obtain ⟨k, l, a, hs, ha, hb, hab⟩ := (h cand hcand).2 hn
        exact ⟨k, l, a, _, hs, ha, hb, hab, hless⟩

/-! ## Behind the stored report -/

/-- The report carries both counters. -/
def Both (i : ProgressTick) : Prop := ∃ p, pairOf i.report = some p

/-- A usable report moves neither counter back. -/
def Steady (x : Option Progress) (i : ProgressTick) : Prop :=
  usable x i = true → ∀ p q, pairOf i.report = some p → storedPair x = some q →
    q.1 ≤ p.1 ∧ q.2 ≤ p.2

/-- Once there is a stored report, it has both counters. -/
def StoredBoth (x : Option Progress) : Prop := x = none ∨ ∃ q, storedPair x = some q

theorem number_again {v : Option ℚ} {q : ℚ} (h : number v = some q) : number (some q) = some q := by
  unfold number at h ⊢
  rw [Option.filter_eq_some_iff] at h
  rw [Option.filter_eq_some_iff]
  exact ⟨rfl, h.2⟩

/-- What a usable report stores. -/
theorem storedPair_point {r : Report} {c u : ℚ} (hr : pairOf (some r) = some (c, u)) (now : Time) :
    storedPair (some { clock := c, up := u, at' := now }) = some (c, u) := by
  obtain ⟨hc, hu, hc0, hu0⟩ := pairOf_some hr
  exact pairOf_eq (number_again hc) (number_again hu) hc0 hu0

/-- What is stored after a step over both counters. -/
theorem storedPair_next (hx : StoredBoth x) {p : ℚ × ℚ} (hp : pairOf i.report = some p) :
    usable x i = true ∧ storedPair (progressNext x i) = some p ∨
      usable x i = false ∧ ∃ q, storedPair x = some q ∧ storedPair (progressNext x i) = some q ∧
        p.1 ≤ q.1 ∧ p.2 ≤ q.2 := by
  obtain ⟨c, u⟩ := p
  cases hr : i.report with
  | none =>
    rw [hr] at hp
    cases hp
  | some r =>
    rw [hr] at hp
    have hpoint := storedPair_point hp i.now
    rcases hx with rfl | ⟨⟨c₀, u₀⟩, hq⟩
    · obtain ⟨hc, hu, hc0, hu0⟩ := pairOf_some hp
      left
      unfold progressNext usable progressStep
      have h0 : number (some 0) = some 0 := by decide +kernel
      simpa [hr, hc, hu, hc0, h0] using hpoint
    · cases x with
      | none => cases hq
      | some old =>
        unfold progressNext usable
        rw [hr, progressStep_pair hp hq]
        split
        · rename_i hback
          split
          · rename_i hup
            -- both went back: a candidate, or the third of a new epoch
            have hend := candidateStep_end old c u i.now
            generalize candidateStep old c u i.now = e at hend
            cases hend with
            | again => exact .inr ⟨rfl, _, hq, hq, hback.le, hup.le⟩
            | counted => exact .inr ⟨rfl, _, hq, hq, hback.le, hup.le⟩
            | believed => exact .inl ⟨rfl, hpoint⟩
          · split
            · exact .inl ⟨rfl, hpoint⟩
            · exact .inr ⟨rfl, _, hq, hq, hback.le, not_lt.1 ‹_›⟩
        · split
          · rename_i hup
            split
            · exact .inr ⟨rfl, _, hq, hq, ‹_›, hup.le⟩
            · exact .inl ⟨rfl, hpoint⟩
          · split
            · rename_i heq
              obtain ⟨rfl, rfl⟩ := heq
              split
              · exact .inl ⟨rfl, hpoint⟩
              · cases hrec : recent old.at' i.now with
                | true => exact .inl ⟨rfl, hq⟩
                | false => exact .inr ⟨rfl, _, hq, hq, le_refl _, le_refl _⟩
            · exact .inl ⟨rfl, hpoint⟩

theorem storedBoth_next (hx : StoredBoth x) (hb : Both i) : StoredBoth (progressNext x i) := by
  obtain ⟨p, hp⟩ := hb
  rcases storedPair_next hx hp with ⟨-, h⟩ | ⟨-, q, -, h, -⟩
  · exact .inr ⟨_, h⟩
  · exact .inr ⟨_, h⟩

/-- The stored counters are nowhere behind `p`. -/
def Reached (p : ℚ × ℚ) (x : Option Progress) : Prop :=
  ∃ q, storedPair x = some q ∧ p.1 ≤ q.1 ∧ p.2 ≤ q.2

/-- A report that was processed is nowhere ahead of what is stored. -/
theorem reached_own (hx : StoredBoth x) {p : ℚ × ℚ} (hp : pairOf i.report = some p) :
    Reached p (progressNext x i) := by
  rcases storedPair_next hx hp with ⟨-, h⟩ | ⟨-, q, -, h, hle⟩
  · exact ⟨p, h, le_refl _, le_refl _⟩
  · exact ⟨q, h, hle⟩

/-- And it stays so while nothing usable goes back. A usable report that differs
supersedes it for good. -/
theorem reached_next {p : ℚ × ℚ} (hx : Reached p x) (hb : Both i) (hs : Steady x i) :
    Reached p (progressNext x i) ∧
      ((storedPair x ≠ some p ∨ usable x i = true ∧ pairOf i.report ≠ some p) →
        storedPair (progressNext x i) ≠ some p) := by
  obtain ⟨q, hq, hle⟩ := hx
  obtain ⟨p', hp'⟩ := hb
  rcases storedPair_next (.inr ⟨q, hq⟩) hp' with ⟨hus, h⟩ | ⟨hu, q', hq', h, -⟩
  · have hup := hs hus p' q hp' hq
    refine ⟨⟨p', h, le_trans hle.1 hup.1, le_trans hle.2 hup.2⟩, ?_⟩
    rintro (hne | ⟨-, hne⟩) heq
    · rw [h] at heq
      cases heq
      exact hne (by rw [hq, Prod.ext (le_antisymm hup.1 hle.1) (le_antisymm hup.2 hle.2)])
    · rw [h, ← hp'] at heq
      exact hne heq
  · rw [hq] at hq'
    cases hq'
    refine ⟨⟨q, h, hle⟩, ?_⟩
    rintro (hne | ⟨hus, -⟩)
    · rwa [h, ← hq]
    · rw [hu] at hus
      cases hus

/-- A report behind the stored one is usable only as the third of a new epoch. -/
theorem reached_third {p : ℚ × ℚ} (h : CandidateSeen hist x) (hx : Reached p x)
    (hne : storedPair x ≠ some p) (hp : pairOf i.report = some p) (hu : usable x i = true) :
    Third hist p := by
  obtain ⟨q, hq, hle⟩ := hx
  by_cases hback : Earlier p q
  · exact back_third h hp hq hback hu
  exfalso
  obtain ⟨c, u⟩ := p
  obtain ⟨c₀, u₀⟩ := q
  cases hr : i.report with
  | none =>
    rw [hr] at hp
    cases hp
  | some r =>
    cases x with
    | none => cases hq
    | some old =>
      rw [hr] at hp
      unfold usable at hu
      rw [hr, progressStep_pair hp hq] at hu
      have hclock : c ≤ c₀ := hle.1
      have hup : u ≤ u₀ := hle.2
      split at hu
      · rename_i hc
        rw [if_neg fun hlt => hback ⟨hc, hlt⟩, if_neg (not_lt.2 hup)] at hu
        cases hu
      · rename_i hc
        have heq : c = c₀ := le_antisymm hclock (not_lt.1 hc)
        split at hu
        · cases hu
        · rename_i hlt
          exact hne (by rw [hq, heq, le_antisymm hup (not_lt.1 hlt)])

/-! ## Runs -/

theorem storedBoth_run {is : List ProgressTick} (hx : StoredBoth x) (h : ∀ i ∈ is, Both i) :
    StoredBoth (run progressNext x is) := by
  induction is generalizing x with
  | nil => exact hx
  | cons i is ih =>
    exact ih (storedBoth_next hx (h i (by simp))) fun j hj => h j (by simp [hj])

/-- A usable report of the list says something else than `p`. -/
def Supersedes (p : ℚ × ℚ) (x : Option Progress) (is : List ProgressTick) : Prop :=
  ∃ before n after, is = before ++ n :: after ∧ usable (run progressNext x before) n = true ∧
    pairOf n.report ≠ some p

theorem reached_run {p : ℚ × ℚ} {is : List ProgressTick} (hx : Reached p x) (hb : ∀ i ∈ is, Both i)
    (hs : Along progressNext Steady x is) :
    Reached p (run progressNext x is) ∧
      ((storedPair x ≠ some p ∨ Supersedes p x is) →
        storedPair (run progressNext x is) ≠ some p) := by
  induction is generalizing x with
  | nil =>
    refine ⟨hx, ?_⟩
    rintro (hne | ⟨before, n, after, heq, -⟩)
    · exact hne
    · cases before <;> cases heq
  | cons i is ih =>
    have hnext := reached_next hx (hb i (by simp)) hs.1
    obtain ⟨hreach, hsup⟩ := ih hnext.1 (fun j hj => hb j (by simp [hj])) hs.2
    refine ⟨hreach, fun h => hsup ?_⟩
    rcases h with hne | ⟨before, n, after, heq, hu, hn⟩
    · exact .inl (hnext.2 (.inl hne))
    · cases before with
      | nil =>
        cases heq
        exact .inl (hnext.2 (.inr ⟨hu, hn⟩))
      | cons j before =>
        cases heq
        exact .inr ⟨before, n, after, rfl, hu, hn⟩

/-- A report of both counters, so many seconds in. -/
def counted (clock up : ℚ) (n : ℤ) : ProgressTick := ⟨some ⟨some clock, some up⟩, sec n⟩

end Kervax
