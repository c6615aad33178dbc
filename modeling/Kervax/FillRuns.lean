-- The disk alert over runs of ticks that feed `fill` what it gave: when the level rises,
-- that it only goes up, and what must come before its end.
import Kervax.FillAlert
import Mathlib.Tactic.Linarith

namespace Kervax.Fill

/-! ## What has held since a moment -/

section Held
variable {ι : Type} {C : ι → Prop} {clock : ι → Time} {ts : List ι} {t : ι} {b : Time}

/-- Some input came at `b`, and from it on they all met `C`. -/
def Since (C : ι → Prop) (clock : ι → Time) (ts : List ι) (b : Time) : Prop :=
  ∃ before u rest, ts = before ++ u :: rest ∧ clock u = b ∧ ∀ v ∈ u :: rest, C v

/-- From some input, `d` or longer before `t`, all inputs met `C`, and so does `t`. -/
def HeldFor (d : Time) (C : ι → Prop) (clock : ι → Time) (ts : List ι) (t : ι) : Prop :=
  ∃ before u rest, ts = before ++ u :: rest ∧ d ≤ clock t - clock u ∧
    ∀ v ∈ u :: rest ++ [t], C v

theorem Since.start (ht : C t) : Since C clock (ts ++ [t]) (clock t) :=
  ⟨ts, t, [], rfl, rfl, by simpa using ht⟩

theorem Since.snoc (h : Since C clock ts b) (ht : C t) : Since C clock (ts ++ [t]) b := by
  obtain ⟨before, u, rest, rfl, hb, hall⟩ := h
  refine ⟨before, u, rest ++ [t], by simp, hb, fun v hv => ?_⟩
  rw [← List.cons_append, List.mem_append, List.mem_singleton] at hv
  rcases hv with hv | rfl
  · exact hall v hv
  · exact ht

/-- The clock that goes on, or starts now. -/
theorem since_getD {o : Option Time} (h : ∀ b, o = some b → Since C clock ts b) (ht : C t) :
    Since C clock (ts ++ [t]) (o.getD (clock t)) := by
  cases o with
  | none => exact Since.start ht
  | some b => exact (h b rfl).snoc ht

/-- A clock that has run for `d` was started by an earlier input. -/
theorem heldFor_getD {d : Time} {o : Option Time} (h : ∀ b, o = some b → Since C clock ts b)
    (hd : 0 < d) (hlong : d ≤ clock t - o.getD (clock t)) (ht : C t) :
    HeldFor d C clock ts t := by
  cases o with
  | none =>
    simp only [Option.getD_none, sub_self] at hlong
    exact absurd hlong (not_le.mpr hd)
  | some b =>
    obtain ⟨before, u, rest, rfl, rfl, hall⟩ := h b rfl
    refine ⟨before, u, rest, rfl, hlong, fun v hv => ?_⟩
    rw [List.mem_append, List.mem_singleton] at hv
    rcases hv with hv | rfl
    · exact hall v hv
    · exact ht

end Held

/-! ## One tick -/

/-- The next tick finds what this one gave. -/
def tick (s : FillState) (t : FillTick) : FillState := (fill s t).state

/-- The state after the ticks. -/
def after (ts : List FillTick) : FillState := Runs.run tick {} ts

@[simp] theorem after_snoc (ts : List FillTick) (t : FillTick) :
    after (ts ++ [t]) = tick (after ts) t := by
  simp [after]

/-- The disk fills fast: it is above a threshold, and `fast_fill` says so. -/
def FillTick.FillsFast (t : FillTick) : Prop :=
  0 < t.raw ∧ (fastFill t.points t.stepValue t.now).isSome

/-- The value is at or above the line of the end. -/
def FillTick.AtLine (t : FillTick) : Prop := ∃ low ∈ t.low, low - hyst ≤ t.stepValue

/-- The value is below the line of the end. -/
def FillTick.Below (t : FillTick) : Prop := ∃ low ∈ t.low, t.stepValue < low - hyst

/-- All that a tick can do. -/
inductive Move (s : FillState) (t : FillTick) : FillState → Prop
  | stay : 0 < s.level → t.AtLine → Move s t ⟨max s.level t.raw, some (s.since.getD t.now), none⟩
  | cooling : 0 < s.level → t.Below → Move s t ⟨s.level, s.since, some (s.cool.getD t.now)⟩
  | ending : 0 < s.level → t.Below → calmS ≤ t.now - s.cool.getD t.now →
      Move s t ⟨0, none, some (s.cool.getD t.now)⟩
  | rise : (0 < s.level → t.low = none) → 0 < t.raw →
      fillCrit ≤ t.raw ∨ t.FillsFast ∨ holdS ≤ t.now - s.since.getD t.now →
      Move s t ⟨t.raw, some (s.since.getD t.now), none⟩
  | wait : (0 < s.level → t.low = none) → 0 < t.raw → Move s t ⟨0, some (s.since.getD t.now), none⟩
  | quiet : (0 < s.level → t.low = none) → t.raw = 0 → Move s t ⟨0, none, none⟩

theorem tick_move (s : FillState) (t : FillTick) : Move s t (tick s t) := by
  unfold tick fill step
  dsimp only
  split
  · rename_i line hline
    split at hline
    · rename_i hlvl
      have hpos := Nat.pos_of_ne_zero hlvl
      split
      · rename_i hat
        exact .stay hpos ⟨line, hline, hat⟩
      · rename_i hat
        have hbelow : t.Below := ⟨line, hline, not_le.mp hat⟩
        split
        · exact .cooling hpos hbelow
        · rename_i hcalm
          exact .ending hpos hbelow (not_lt.mp hcalm)
    · cases hline
  · rename_i hline
    have hlow : 0 < s.level → t.low = none := by
      intro hpos
      rwa [if_pos (Nat.pos_iff_ne_zero.mp hpos)] at hline
    split
    · rename_i hraw
      have hpos := Nat.pos_of_ne_zero hraw
      split
      · rename_i hrise
        refine .rise hlow hpos ?_
        simpa [FillTick.FillsFast, hpos] using hrise
      · exact .wait hlow hpos
    · rename_i hraw
      exact .quiet hlow (not_not.mp hraw)

/-! ## The thresholds -/

/-- A level comes from a threshold that is on. -/
theorem reached_of_raw {t : FillTick} (h : 0 < t.raw) :
    ∃ x ∈ [t.warn, t.prob, t.crit].filter (· ≠ 0), (x : ℚ) ≤ t.value := by
  have hmem : ∀ x, x ∈ [t.warn, t.prob, t.crit] → t.reached x = true →
      ∃ x ∈ [t.warn, t.prob, t.crit].filter (· ≠ 0), (x : ℚ) ≤ t.value := by
    intro x hx hr
    simp only [FillTick.reached, decide_eq_true_eq] at hr
    exact ⟨x, List.mem_filter.mpr ⟨hx, by simpa using hr.1⟩, hr.2⟩
  unfold FillTick.raw at h
  split at h
  · rename_i hr
    exact hmem _ (by simp) hr
  · split at h
    · rename_i hr
      exact hmem _ (by simp) hr
    · split at h
      · rename_i hr
        exact hmem _ (by simp) hr
      · exact absurd h (Nat.lt_irrefl 0)

/-- What is reached is not below the lowest threshold. -/
theorem low_of_raw {t : FillTick} (h : 0 < t.raw) : ∃ low ∈ t.low, low ≤ t.value := by
  obtain ⟨x, hx, hle⟩ := reached_of_raw h
  unfold FillTick.low
  cases hmin : ([t.warn, t.prob, t.crit].filter (· ≠ 0)).min? with
  | none =>
    rw [List.min?_eq_none_iff.mp hmin] at hx
    cases hx
  | some low =>
    have hlow : low ≤ x := (List.min?_eq_some_iff.mp hmin).2 x hx
    exact ⟨low, rfl, (Int.cast_le.mpr hlow).trans hle⟩

theorem low_eq_none_iff {t : FillTick} :
    t.low = none ↔ t.crit = 0 ∧ t.prob = 0 ∧ t.warn = 0 := by
  simp only [FillTick.low, Option.map_eq_none_iff, List.min?_eq_none_iff, List.filter_eq_nil_iff,
    List.mem_cons, List.not_mem_nil, or_false, decide_eq_true_eq, not_not, forall_eq_or_imp,
    forall_eq]
  tauto

/-- Below the line no threshold is reached. -/
theorem raw_of_below {t : FillTick} (h : t.Below) : t.raw = 0 := by
  obtain ⟨low, hlow, hbelow⟩ := h
  by_contra hraw
  obtain ⟨low', hlow', hle⟩ := low_of_raw (Nat.pos_of_ne_zero hraw)
  have heq : low = low' := Option.some.inj (hlow.symm.trans hlow')
  have hvalue : t.stepValue = t.value := by
    simp [FillTick.stepValue, FillTick.elsewhere, hraw]
  rw [hvalue, heq] at hbelow
  unfold hyst at hbelow
  linarith

/-- Without a threshold there is no level. -/
theorem raw_of_low_none {t : FillTick} (h : t.low = none) : t.raw = 0 := by
  by_contra hraw
  obtain ⟨low, hlow, -⟩ := low_of_raw (Nat.pos_of_ne_zero hraw)
  rw [h] at hlow
  cases hlow

theorem level_zero {s : FillState} {t : FillTick} (hlow : 0 < s.level → t.low = none)
    (hraw : 0 < t.raw) : s.level = 0 := by
  by_contra hne
  exact absurd (raw_of_low_none (hlow (Nat.pos_of_ne_zero hne))) (Nat.pos_iff_ne_zero.mp hraw)

/-! ## Runs -/

/-- The two clocks: since when the thresholds are passed, and since when the value is
below the line. -/
structure Clocked (ts : List FillTick) (s : FillState) : Prop where
  since : s.level = 0 → ∀ b, s.since = some b → Since (0 < ·.raw) FillTick.now ts b
  cool : 0 < s.level → ∀ b, s.cool = some b → Since FillTick.Below FillTick.now ts b

theorem clocked_after (ts : List FillTick) : Clocked ts (after ts) := by
  induction ts using List.reverseRecOn with
  | nil => exact ⟨by simp [after], by simp [after]⟩
  | append_singleton ts t ih =>
    rw [after_snoc]
    have hmove := tick_move (after ts) t
    generalize after ts = s at ih hmove ⊢
    generalize tick s t = s' at hmove ⊢
    cases hmove with
    | stay hpos hat => exact ⟨fun h0 => absurd h0 (by simp only; omega), by simp⟩
    | cooling hpos hbelow =>
      refine ⟨fun h0 => absurd h0 (Nat.pos_iff_ne_zero.mp hpos), fun _ b hb => ?_⟩
      cases hb
      exact since_getD (ih.cool hpos) hbelow
    | ending hpos hbelow hcalm => exact ⟨by simp, by simp⟩
    | rise hlow hraw hrise => exact ⟨fun h0 => absurd h0 (Nat.pos_iff_ne_zero.mp hraw), by simp⟩
    | wait hlow hraw =>
      refine ⟨fun _ b hb => ?_, by simp⟩
      cases hb
      exact since_getD (ih.since (level_zero hlow hraw)) hraw
    | quiet hlow hraw => exact ⟨by simp, by simp⟩

/-- A level is not less than what a tick gave it. -/
theorem raw_le_tick (s : FillState) (t : FillTick) (h : 0 < (tick s t).level) :
    t.raw ≤ (tick s t).level := by
  have hmove := tick_move s t
  generalize tick s t = s' at hmove h ⊢
  cases hmove with
  | stay hpos hat => exact Nat.le_max_right ..
  | cooling hpos hbelow => exact (raw_of_below hbelow).le.trans (Nat.zero_le _)
  | ending hpos hbelow hcalm => exact absurd h (Nat.lt_irrefl 0)
  | rise hlow hraw hrise => exact le_rfl
  | wait hlow hraw => exact absurd h (Nat.lt_irrefl 0)
  | quiet hlow hraw => exact absurd h (Nat.lt_irrefl 0)

/-- It goes up, or ends. -/
theorem level_le_tick (s : FillState) (t : FillTick) (h : 0 < (tick s t).level) :
    s.level ≤ (tick s t).level := by
  have hmove := tick_move s t
  generalize tick s t = s' at hmove h ⊢
  cases hmove with
  | stay hpos hat => exact Nat.le_max_left ..
  | cooling hpos hbelow => exact le_rfl
  | ending hpos hbelow hcalm => exact absurd h (Nat.lt_irrefl 0)
  | rise hlow hraw hrise => exact (level_zero hlow hraw).le.trans (Nat.zero_le _)
  | wait hlow hraw => exact absurd h (Nat.lt_irrefl 0)
  | quiet hlow hraw => exact absurd h (Nat.lt_irrefl 0)

theorem rise_of_tick {ts : List FillTick} {s : FillState} {t : FillTick} (hs : Clocked ts s)
    (h0 : s.level = 0) (h : 0 < (tick s t).level) :
    fillCrit ≤ t.raw ∨ t.FillsFast ∨ HeldFor holdS (0 < ·.raw) FillTick.now ts t := by
  have hmove := tick_move s t
  generalize tick s t = s' at hmove h
  cases hmove with
  | stay hpos hat => exact absurd h0 (Nat.pos_iff_ne_zero.mp hpos)
  | cooling hpos hbelow => exact absurd h0 (Nat.pos_iff_ne_zero.mp hpos)
  | ending hpos hbelow hcalm => exact absurd h (Nat.lt_irrefl 0)
  | rise hlow hraw hrise =>
    refine hrise.imp_right (Or.imp_right fun hlong => ?_)
    exact heldFor_getD (hs.since h0) (by decide) hlong hraw
  | wait hlow hraw => exact absurd h (Nat.lt_irrefl 0)
  | quiet hlow hraw => exact absurd h (Nat.lt_irrefl 0)

theorem end_of_tick {ts : List FillTick} {s : FillState} {t : FillTick} (hs : Clocked ts s)
    (hpos : 0 < s.level) (h : (tick s t).level = 0) :
    (t.crit = 0 ∧ t.prob = 0 ∧ t.warn = 0) ∨ HeldFor calmS FillTick.Below FillTick.now ts t := by
  have hmove := tick_move s t
  generalize tick s t = s' at hmove h
  cases hmove with
  | stay _ hat =>
    simp only at h
    omega
  | cooling _ hbelow => exact absurd h (Nat.pos_iff_ne_zero.mp hpos)
  | ending _ hbelow hcalm => exact .inr (heldFor_getD (hs.cool hpos) (by decide) hcalm hbelow)
  | rise hlow hraw hrise => exact absurd h (Nat.pos_iff_ne_zero.mp hraw)
  | wait hlow hraw => exact .inl (low_eq_none_iff.mp (hlow hpos))
  | quiet hlow hraw => exact .inl (low_eq_none_iff.mp (hlow hpos))

/-- Through ticks that leave the level positive it does not fall. -/
theorem level_le_run (s : FillState) (ts : List FillTick)
    (h : ∀ mid, mid <+: ts → 0 < (Runs.run tick s mid).level) :
    s.level ≤ (Runs.run tick s ts).level := by
  induction ts generalizing s with
  | nil => exact le_rfl
  | cons t ts ih =>
    have hfirst : 0 < (tick s t).level := h [t] (by simp)
    refine (level_le_tick s t hfirst).trans (ih _ fun mid hmid => ?_)
    exact h (t :: mid) (List.cons_prefix_cons.mpr ⟨rfl, hmid⟩)

/-- What a tick may make of the level, after the ticks before it. -/
structure Lawful (ts : List FillTick) (t : FillTick) : Prop where
  /-- It does not fall but to 0. -/
  up : 0 < (after ts).level → (after (ts ++ [t])).level ≠ 0 →
    (after ts).level ≤ (after (ts ++ [t])).level
  /-- It rises from 0 after `HOLD_S` above a threshold; at once if it is critical or fast. -/
  rise : (after ts).level = 0 → 0 < (after (ts ++ [t])).level →
    fillCrit ≤ t.raw ∨ t.FillsFast ∨ HeldFor holdS (0 < ·.raw) FillTick.now ts t
  /-- It ends after `CALM_S` below the line, or when all thresholds are off. -/
  ending : 0 < (after ts).level → (after (ts ++ [t])).level = 0 →
    (t.crit = 0 ∧ t.prob = 0 ∧ t.warn = 0) ∨ HeldFor calmS FillTick.Below FillTick.now ts t
  /-- It is not less than any level that was seen since it rose. -/
  worst : ∀ before u rest, ts ++ [t] = before ++ u :: rest →
    (∀ mid, mid <+: rest → 0 < (after (before ++ u :: mid)).level) →
    u.raw ≤ (after (ts ++ [t])).level

theorem after_append (before rest : List FillTick) (u : FillTick) :
    after (before ++ u :: rest) = Runs.run tick (tick (after before) u) rest := by
  simp [after, Runs.run]

/-- The laws of the alert, for every run. -/
theorem fill_level_is_lawful (ts : List FillTick) (t : FillTick) : Lawful ts t where
  up _ h := by
    rw [after_snoc] at h ⊢
    exact level_le_tick _ t (Nat.pos_of_ne_zero h)
  rise h0 h := by
    rw [after_snoc] at h
    exact rise_of_tick (clocked_after ts) h0 h
  ending hpos h := by
    rw [after_snoc] at h
    exact end_of_tick (clocked_after ts) hpos h
  worst before u rest heq hpos := by
    have hfirst := hpos [] List.nil_prefix
    simp only [after_append] at hpos hfirst
    rw [heq, after_append]
    exact (raw_le_tick _ u hfirst).trans (level_le_run _ rest hpos)

/-- A disk that is critical, and the thresholds switched off a minute later. -/
def fullDisk : FillTick := { now := 0, crit := 95, prob := 90, warn := 85, value := 97 }
def switchedOff : FillTick := { now := sec 60, crit := 0, prob := 0, warn := 0, value := 97 }

/-- The alert ends at once, with the disk as full as before. -/
theorem no_thresholds_no_calm :
    (after [fullDisk]).level = 3 ∧ (after ([fullDisk] ++ [switchedOff])).level = 0 ∧
      ¬ HeldFor calmS FillTick.Below FillTick.now [fullDisk] switchedOff := by
  refine ⟨by decide +kernel, by decide +kernel, ?_⟩
  rintro ⟨before, u, rest, -, -, hall⟩
  obtain ⟨low, hlow, -⟩ := hall switchedOff (by simp)
  rw [low_eq_none_iff.mpr ⟨rfl, rfl, rfl⟩] at hlow
  cases hlow

end Kervax.Fill
