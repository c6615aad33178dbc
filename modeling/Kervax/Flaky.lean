-- A site that answers every other time (`flaky.py`): what `short_failures` counts,
-- and how `is_flaky` moves with it over the checks. `_flaky_step` reads only the
-- last checks, and that is enough.
import Kervax.SiteFlap
import Kervax.Stretches
import Kervax.Runs

namespace Kervax.Flaky

open Stretches

/-! ## What is counted -/

/-- The checks that failed are those that are down: a slow answer is no failure. -/
abbrev Down (st : CheckStatus) : Prop := st = .down

/-- The start of the window: the last `WINDOW` checks. -/
def windowStart (statuses : List CheckStatus) : Nat := statuses.length - flakyWindow

/-- The longest runs of failures, taken over the whole history, that are shorter than
`longRun` and reach into the window. -/
def shortRuns (statuses : List CheckStatus) (longRun : Int) : Set (Nat × Nat) :=
  {r | Stretch Down statuses r.1 r.2 ∧ ((r.2 - r.1 : Nat) : Int) < longRun ∧
    windowStart statuses < r.2}

/-- The failures in the window that belong to a run shorter than `longRun`. -/
def shortDowns (statuses : List CheckStatus) (longRun : Int) : Set Nat :=
  {k | windowStart statuses ≤ k ∧
    ∃ i j, Stretch Down statuses i j ∧ ((j - i : Nat) : Int) < longRun ∧ i ≤ k ∧ k < j}

/-- The last `longRun` checks failed: an outage that the usual alert tells of. -/
def Outage (statuses : List CheckStatus) (longRun : Int) : Prop :=
  max longRun.toNat 1 ≤ statuses.length ∧
    ∀ k, statuses.length ≤ k + max longRun.toNat 1 → k < statuses.length → At Down statuses k

/-- No run is shorter than 1, so that a smaller threshold is no other than 1. -/
theorem lt_longRun_iff {n : Nat} (hn : 0 < n) (longRun : Int) :
    (n : Int) < longRun ↔ n < max longRun.toNat 1 := by omega

theorem shortRuns_eq (statuses : List CheckStatus) (longRun : Int) :
    shortRuns statuses longRun =
      short Down statuses (max longRun.toNat 1) (windowStart statuses) := by
  ext ⟨i, j⟩
  refine and_congr_right fun hs => and_congr_left fun _ => lt_longRun_iff ?_ longRun
  exact Nat.sub_pos_of_lt hs.lt

theorem shortDowns_eq (statuses : List CheckStatus) (longRun : Int) :
    shortDowns statuses longRun =
      shortPlaces Down statuses (max longRun.toNat 1) (windowStart statuses) := by
  ext k
  refine and_congr_right fun _ => exists_congr fun i => exists_congr fun j => ?_
  refine and_congr_right fun hs => and_congr_left fun _ => lt_longRun_iff ?_ longRun
  exact Nat.sub_pos_of_lt hs.lt

/-! ## `short_failures` -/

/-- A step of the loop over the statuses. -/
def scan (acc : Nat × Nat × List (Nat × Nat)) (st : CheckStatus) : Nat × Nat × List (Nat × Nat) :=
  if st = .down then (acc.1 + 1, acc.2.1 + 1, acc.2.2)
  else (acc.1 + 1, 0, if acc.2.1 ≠ 0 then acc.2.2 ++ [(acc.1, acc.2.1)] else acc.2.2)

/-- What the loop has found: the failures at the end, and the runs before them. -/
theorem scan_spec (statuses : List CheckStatus) :
    (statuses.foldl scan (0, 0, [])).1 = statuses.length ∧
      Tail Down statuses (statuses.foldl scan (0, 0, [])).2.1 ∧
      Lists Down statuses statuses.length (statuses.foldl scan (0, 0, [])).2.2 := by
  induction statuses using List.reverseRecOn with
  | nil => exact ⟨rfl, Tail.nil, Lists.nil⟩
  | append_singleton statuses st ih =>
    obtain ⟨hi, htail, hruns⟩ := ih
    rw [List.foldl_append, List.foldl_cons, List.foldl_nil]
    generalize statuses.foldl scan (0, 0, []) = acc at hi htail hruns ⊢
    rw [List.length_append, List.length_singleton]
    unfold scan
    split
    · rename_i hdown
      exact ⟨by simp only [hi], htail.snoc hdown, hruns.snoc hdown⟩
    · rename_i hdown
      refine ⟨by simp only [hi], Tail.snoc_not hdown, ?_⟩
      rw [hi]
      exact (hruns.close htail).snoc_not hdown

/-- The runs that `short_failures` collects are all there are. -/
theorem failRuns_spec (statuses : List CheckStatus) :
    Lists Down statuses (statuses.length + 1) (failRuns statuses) := by
  obtain ⟨hi, htail, hruns⟩ := scan_spec statuses
  have hclose := hruns.close htail
  rw [← hi] at hclose
  rw [← hi]
  exact hclose

/-- A step of the loop over the runs. -/
def count (longRun lo : Nat) (acc : Nat × Nat) (e : Nat × Nat) : Nat × Nat :=
  if longRun ≤ e.2 then acc
  else if 0 < e.1 - max (e.1 - e.2) lo then (acc.1 + (e.1 - max (e.1 - e.2) lo), acc.2 + 1)
  else acc

/-- The loop adds up the short runs that reach into the window. -/
theorem count_spec (longRun lo : Nat) {R : List (Nat × Nat)} (hR : ∀ e ∈ R, 0 < e.2 ∧ e.2 ≤ e.1)
    (acc : Nat × Nat) :
    R.foldl (count longRun lo) acc =
      (acc.1 + ((pick R longRun lo).map fun e => e.1 - max (e.1 - e.2) lo).sum,
        acc.2 + (pick R longRun lo).length) := by
  induction R generalizing acc with
  | nil => rfl
  | cons e R ih =>
    obtain ⟨hpos, hle⟩ := hR e List.mem_cons_self
    rw [List.foldl_cons, ih fun e he => hR e (List.mem_cons_of_mem _ he)]
    unfold count pick
    rw [List.filter_cons]
    by_cases hin : e.2 < longRun ∧ lo < e.1
    · rw [if_neg (by omega), if_pos (by omega), if_pos (by simpa using hin)]
      simp only [List.map_cons, List.sum_cons, List.length_cons, Prod.mk.injEq]
      omega
    · have hsame : (if longRun ≤ e.2 then acc
          else if 0 < e.1 - max (e.1 - e.2) lo then
            (acc.1 + (e.1 - max (e.1 - e.2) lo), acc.2 + 1)
          else acc) = acc := by
        split
        · rfl
        · rw [if_neg (by omega)]
      rw [hsame, if_neg (by simpa using hin)]

/-- `short_failures` by its specification. -/
theorem shortFailures_eq (statuses : List CheckStatus) (longRun : Int) :
    shortFailures statuses longRun.toNat =
      ((shortDowns statuses longRun).ncard, (shortRuns statuses longRun).ncard) := by
  have hruns := failRuns_spec statuses
  have hsane : ∀ e ∈ failRuns statuses, 0 < e.2 ∧ e.2 ≤ e.1 := by
    rintro ⟨j, n⟩ he
    obtain ⟨i, hi, -, hs⟩ := (hruns.mem j n).mp he
    have hlt := hs.lt
    simp only
    omega
  have hloop : shortFailures statuses longRun.toNat =
      (failRuns statuses).foldl (count (max longRun.toNat 1) (windowStart statuses)) (0, 0) := rfl
  rw [hloop, count_spec _ _ hsane, hruns.sum_pick, hruns.length_pick, shortRuns_eq, shortDowns_eq,
    Nat.zero_add, Nat.zero_add]

/-! ## `in_outage` -/

theorem inOutage_iff (statuses : List CheckStatus) (longRun : Int) :
    inOutage statuses longRun.toNat = true ↔ Outage statuses longRun := by
  unfold inOutage Outage lastN
  generalize max longRun.toNat 1 = n
  simp only [decide_eq_true_eq, List.length_drop, List.all_eq_true]
  constructor
  · rintro ⟨hlen, hall⟩
    refine ⟨by omega, fun k hk hlt => ⟨statuses[k], List.getElem?_eq_getElem hlt, ?_⟩⟩
    refine hall _ (List.mem_iff_getElem?.mpr ⟨k - (statuses.length - n), ?_⟩)
    rw [List.getElem?_drop, Nat.add_sub_cancel' (by omega), List.getElem?_eq_getElem hlt]
  · rintro ⟨hlen, hall⟩
    refine ⟨by omega, fun st hst => ?_⟩
    obtain ⟨k, hk⟩ := List.mem_iff_getElem?.mp hst
    rw [List.getElem?_drop] at hk
    obtain ⟨hlt, -⟩ := List.getElem?_eq_some_iff.mp hk
    obtain ⟨st', hst', hdown⟩ := hall _ (by omega) hlt
    rw [hk] at hst'
    cases hst'
    exact hdown

/-! ## `is_flaky` over the checks -/

/-- The checks so far, and what was made of them. -/
structure Watch where
  statuses : List CheckStatus
  flaky : Bool

/-- One more check, with the threshold it is judged by. -/
def Watch.check (w : Watch) (i : CheckStatus × Int) : Watch :=
  ⟨w.statuses ++ [i.1], isFlaky (w.statuses ++ [i.1]) i.2.toNat w.flaky⟩

/-- What a check may make of the state. -/
structure Lawful (was now : Watch) (longRun : Int) : Prop where
  /-- It switches on with enough short failures in enough runs, and not otherwise. -/
  on : was.flaky = false → ¬ Outage now.statuses longRun →
    (now.flaky = true ↔ flakyFails ≤ (shortDowns now.statuses longRun).ncard ∧
      flakyRuns ≤ (shortRuns now.statuses longRun).ncard)
  /-- It stays on for as long as more than `CLEAR` are left. -/
  off : was.flaky = true → ¬ Outage now.statuses longRun →
    (now.flaky = true ↔ flakyClear < (shortDowns now.statuses longRun).ncard)
  /-- In an outage nothing changes. -/
  outage : Outage now.statuses longRun → now.flaky = was.flaky

theorem isFlaky_outage {statuses : List CheckStatus} {longRun : Int} {was : Bool}
    (hout : Outage statuses longRun) : isFlaky statuses longRun.toNat was = was := by
  unfold isFlaky
  rw [if_pos ((inOutage_iff statuses longRun).mpr hout)]

theorem isFlaky_calm {statuses : List CheckStatus} {longRun : Int} {was : Bool}
    (hout : ¬ Outage statuses longRun) :
    isFlaky statuses longRun.toNat was = true ↔
      if was = false then flakyFails ≤ (shortDowns statuses longRun).ncard ∧
        flakyRuns ≤ (shortRuns statuses longRun).ncard
      else flakyClear < (shortDowns statuses longRun).ncard := by
  unfold isFlaky
  rw [if_neg fun h => hout ((inOutage_iff statuses longRun).mp h), shortFailures_eq]
  cases was <;> simp

theorem check_lawful (w : Watch) (i : CheckStatus × Int) : Lawful w (w.check i) i.2 where
  on hwas hout := by
    refine (isFlaky_calm hout).trans ?_
    rw [if_pos hwas]
  off hwas hout := by
    refine (isFlaky_calm hout).trans ?_
    rw [if_neg (by simp [hwas])]
  outage hout := isFlaky_outage hout

/-! ## The checks that `_flaky_step` reads -/

theorem lastN_drop {α : Type} {l : List α} {d n : Nat} (h : d + n ≤ l.length) :
    lastN n (l.drop d) = lastN n l := by
  unfold lastN
  rw [List.length_drop, List.drop_drop]
  congr 1
  omega

theorem inOutage_drop {statuses : List CheckStatus} {d longRun : Nat}
    (hd : d + max longRun 1 ≤ statuses.length) :
    inOutage (statuses.drop d) longRun = inOutage statuses longRun := by
  unfold inOutage
  dsimp only
  rw [lastN_drop hd]

theorem shortFailures_drop {statuses : List CheckStatus} {d longRun : Nat}
    (hd : d + max longRun 1 + flakyWindow ≤ statuses.length) :
    shortFailures (statuses.drop d) longRun = shortFailures statuses longRun := by
  have hlo : windowStart statuses - d = windowStart (statuses.drop d) := by
    unfold windowStart
    rw [List.length_drop]
    omega
  have hspare : d + max longRun 1 ≤ windowStart statuses := by
    unfold windowStart
    omega
  have heq : ∀ l : List CheckStatus, shortFailures l longRun = _ :=
    fun l => shortFailures_eq l longRun
  rw [heq, heq]
  simp only [shortRuns_eq, shortDowns_eq, Int.toNat_natCast, ← hlo, ncard_short_drop hspare,
    ncard_shortPlaces_drop hspare]

/-- A run that starts before the checks at hand is as long with them as it is with all. -/
theorem isFlaky_drop {statuses : List CheckStatus} {d longRun : Nat} (was : Bool)
    (hd : d + max longRun 1 + flakyWindow ≤ statuses.length) :
    isFlaky (statuses.drop d) longRun was = isFlaky statuses longRun was := by
  unfold isFlaky
  rw [inOutage_drop (by omega), shortFailures_drop hd]

/-- The checks before `now` that count: those after the last closed episode. -/
def samplesBefore (row : SiteRow) (now : Time) : List CheckStatus :=
  (row.samples.filter fun e => e.1 < now && row.flap.cutoff.all (· < e.1)).map (·.2)

/-- What a monitor has to go by, with nothing left out. -/
def watchOf (row : SiteRow) (now : Time) : Watch :=
  ⟨samplesBefore row now, row.flakySince.isSome⟩

theorem flakyHist_eq (m : SiteMon) (row : SiteRow) (now : Time) (status : CheckStatus) :
    flakyHist m row now status =
      (samplesBefore row now ++ [status]).drop
        ((samplesBefore row now).length - (flakyWindow + max m.alertAfter 1)) := by
  have hle : (samplesBefore row now).length - (flakyWindow + max m.alertAfter 1) ≤
    (samplesBefore row now).length := Nat.sub_le _ _
  rw [List.drop_append_of_le_length hle]
  unfold flakyHist samplesBefore lastN
  dsimp only
  rw [List.map_drop, List.length_map]
  cases row.flap.cutoff <;> simp only [Option.all]

/-- The checks that are read give the state that all checks would give. -/
theorem isFlaky_flakyHist (m : SiteMon) (row : SiteRow) (now : Time) (status : CheckStatus)
    (was : Bool) :
    isFlaky (flakyHist m row now status) (max m.alertAfter 1) was =
      isFlaky (samplesBefore row now ++ [status]) (max m.alertAfter 1) was := by
  rw [flakyHist_eq]
  by_cases hmany : (samplesBefore row now).length ≤ flakyWindow + max m.alertAfter 1
  · rw [Nat.sub_eq_zero_of_le hmany, List.drop_zero]
  · apply isFlaky_drop
    rw [List.length_append, List.length_singleton]
    omega

theorem withFlaky_isSome (row : SiteRow) (nowFlaky : Bool) (now : Time) :
    (row.withFlaky nowFlaky now).flakySince.isSome = nowFlaky := by
  unfold SiteRow.withFlaky
  cases hwas : row.flakySince with
  | none => cases nowFlaky <;> simp [hwas]
  | some t => cases nowFlaky <;> simp [hwas]

/-- What follows the judgement leaves the start of "flaky" alone. -/
theorem flakyStep_isSome (m : SiteMon) (row : SiteRow) (status : CheckStatus) (now : Time) :
    (flakyStep m row status now).1.flakySince.isSome =
      isFlaky (flakyHist m row now status) (max m.alertAfter 1) row.flakySince.isSome := by
  unfold flakyStep
  dsimp only
  generalize isFlaky (flakyHist m row now status) (max m.alertAfter 1) row.flakySince.isSome = b
  have hset := withFlaky_isSome row b now
  generalize row.withFlaky b now = row' at hset ⊢
  split_ifs <;> exact hset

/-- `short_failures` counts the failures of the short runs and these runs, taken over
the whole history; every check moves `is_flaky` as these counts and an outage have it;
and the last `WINDOW` checks and a threshold more give what all of them would give. -/
theorem short_failures_and_flaky_meet_their_specification :
    (∀ (statuses : List CheckStatus) (longRun : Int),
      shortFailures statuses longRun.toNat =
        ((shortDowns statuses longRun).ncard, (shortRuns statuses longRun).ncard)) ∧
    (∀ (w : Watch) (checks : List (CheckStatus × Int)),
      Runs.Along Watch.check (fun w i => Lawful w (w.check i) i.2) w checks) ∧
    ∀ (m : SiteMon) (row : SiteRow) (status : CheckStatus) (now : Time),
      (flakyStep m row status now).1.flakySince.isSome =
        ((watchOf row now).check (status, (max m.alertAfter 1 : Nat))).flaky := by
  refine ⟨shortFailures_eq, fun w checks => ?_, fun m row status now => ?_⟩
  · exact Runs.along_of_inv (I := fun _ => True) trivial (fun _ _ _ => trivial)
      (fun w i _ => check_lawful w i) checks
  · rw [flakyStep_isSome, isFlaky_flakyHist]
    rfl

end Kervax.Flaky
