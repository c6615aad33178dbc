-- Maintenance windows (`maint.py`): the occurrences of a window in the local
-- time of the panel, which of them runs now, and the check that
-- `maintenance_tick` makes after each of them.
import Kervax.Kinds
import Mathlib.Order.SuccPred.IntervalSucc
import Mathlib.Algebra.Order.Ring.Int
import Mathlib.Tactic.Linarith
import Mathlib.Data.Int.ConditionallyCompleteOrder

namespace Kervax

/-! ## Time zones -/

/-- A time zone as the code uses it: the offset of an instant, whether the wall
clock shows the instant for the second time, and the offset that a reading of
the wall clock (a day, a time of the day, the fold) stands for. An offset is
under a day, and from one day to the next it grows by a day at most. -/
structure Zone where
  offset : Time → Time
  fold : Time → Bool
  wall : Int → Time → Bool → Time
  offset_lt : ∀ t, -day < offset t ∧ offset t < day
  wall_lt : ∀ d c f, -day < wall d c f ∧ wall d c f < day
  wall_jump : ∀ d c f, wall (d + 1) c f ≤ wall d c f + day
  /-- The wall clock of an instant is read back as its offset. -/
  wall_reads : ∀ t, wall ((t + offset t) / day) ((t + offset t) % day) (fold t) = offset t

/-- The local date, in days. -/
def Zone.date (z : Zone) (t : Time) : Int := (t + z.offset t) / day

/-- The local time of the day. -/
def Zone.clock (z : Zone) (t : Time) : Time := (t + z.offset t) % day

/-- `datetime.combine(day, first.time(), tzinfo=z)` in UTC, `first` being the
local time of `t`. -/
def Zone.combine (z : Zone) (d : Int) (t : Time) : Time :=
  d * day + z.clock t - z.wall d (z.clock t) (z.fold t)

/-- `day.weekday()`: day 0 is a Thursday. -/
def weekday (d : Int) : Int := (d + 3) % 7

theorem day_pos : 0 < day := by decide

theorem Zone.clock_bounds (z : Zone) (t : Time) : 0 ≤ z.clock t ∧ z.clock t < day :=
  ⟨Int.emod_nonneg _ (ne_of_gt day_pos), Int.emod_lt_of_pos _ day_pos⟩

theorem Zone.date_clock (z : Zone) (t : Time) : z.date t * day + z.clock t = t + z.offset t :=
  Int.ediv_mul_add_emod _ _

theorem Zone.combine_mono (z : Zone) (t : Time) : Monotone fun d => z.combine d t := by
  apply monotone_int_of_le_succ
  intro d
  have hj := z.wall_jump d (z.clock t) (z.fold t)
  unfold Zone.combine
  linarith

/-- A start that is no further than two days from a moment belongs to a day
that is no further than eight days from the moment's. -/
theorem Zone.combine_near (z : Zone) (d : Int) (t around : Time)
    (h : z.combine d t ≤ around + 2 * day ∧ around ≤ z.combine d t + 2 * day) :
    z.date around - 8 ≤ d ∧ d ≤ z.date around + 8 := by
  have hc := z.clock_bounds t
  have ha := z.clock_bounds around
  have hd := z.date_clock around
  have hw := z.wall_lt d (z.clock t) (z.fold t)
  have ho := z.offset_lt around
  unfold Zone.combine at h
  simp only [day, sec] at hc ha hd hw ho h
  constructor
  · by_contra hlt
    have : d + 9 ≤ z.date around := by linarith [Int.lt_iff_add_one_le.mp (not_le.mp hlt)]
    linarith
  · by_contra hlt
    have : z.date around + 9 ≤ d := by linarith [Int.lt_iff_add_one_le.mp (not_le.mp hlt)]
    linarith

/-! ## Windows and their occurrences -/

inductive Repeat
  | once
  | daily
  | weekly
deriving DecidableEq, Repr

/-- The schedule of a window, and whether it asks for the check. -/
structure MaintWindow where
  startsAt : Time
  endsAt : Time
  rep : Repeat
  weekdays : List Int := []
  verify : Bool := true
deriving DecidableEq, Repr

/-- The length of every occurrence. -/
def MaintWindow.dur (w : MaintWindow) : Time := w.endsAt - w.startsAt

/-- What `_validate` lets through. -/
structure MaintWindow.Valid (w : MaintWindow) : Prop where
  forward : w.startsAt < w.endsAt
  repeated : w.rep ≠ .once → w.dur ≤ sec (24 * 3600)
  single : w.rep = .once → w.dur ≤ sec (31 * 86400)
  someDay : w.rep = .weekly → w.weekdays ≠ []
  inWeek : ∀ d ∈ w.weekdays, 0 ≤ d ∧ d ≤ 6

/-- `VERIFY_AFTER`, `KEEP_DONE`, `_SPAN_DAYS`. -/
def verifyAfter : Time := sec (5 * 60)
def keepDone : Time := sec (30 * 86400)
def spanDays : Nat := 8

/-- A repeated window has an occurrence that starts on this day. -/
def MaintWindow.onDay (w : MaintWindow) (z : Zone) (d : Int) : Bool :=
  decide (z.date w.startsAt ≤ d) && (w.rep != .weekly || w.weekdays.contains (weekday d))

/-- The occurrence of a repeated window that starts on this day. -/
def MaintWindow.onDate (w : MaintWindow) (z : Zone) (d : Int) : Time × Time :=
  (z.combine d w.startsAt, z.combine d w.startsAt + w.dur)

/-- `occurrences`. -/
def occurrences (w : MaintWindow) (around : Time) (z : Zone) : List (Time × Time) :=
  if w.rep = .once then [(w.startsAt, w.endsAt)]
  else
    let days := (List.range (2 * spanDays + 1)).map fun (i : Nat) => z.date around - spanDays + i
    (days.filter fun d => w.onDay z d).map fun d => w.onDate z d

/-- `current`. -/
def current (w : MaintWindow) (now : Time) (z : Zone) : Option (Time × Time) :=
  (occurrences w now z).find? fun o => o.1 ≤ now ∧ now < o.2

/-- `last_ended`. -/
def lastEnded (w : MaintWindow) (now : Time) (z : Zone) : Option (Time × Time) :=
  ((occurrences w now z).filter fun o => o.2 ≤ now).getLast?

/-- `finished`. -/
def finished (w : MaintWindow) (now : Time) : Bool := w.rep = .once ∧ w.endsAt ≤ now

/-- `due_verify`. -/
def dueVerify (w : MaintWindow) (verifiedEnd : Option Time) (now : Time) (z : Zone) :
    Option (Time × Time) :=
  if w.verify then
    match lastEnded w now z with
    | none => none
    | some o =>
      if now - o.2 < verifyAfter ∨ sec 86400 < now - o.2 then none
      else if verifiedEnd.any (o.2 ≤ ·) then none
      else some o
  else none

/-! ## What an occurrence is -/

/-- The occurrences of a window over all time: the window itself, or one on each
of its days from the first on. -/
def Occurs (w : MaintWindow) (z : Zone) (o : Time × Time) : Prop :=
  (w.rep = .once ∧ o = (w.startsAt, w.endsAt)) ∨
    (w.rep ≠ .once ∧ ∃ d, w.onDay z d = true ∧ o = w.onDate z d)

theorem Occurs.snd {w : MaintWindow} {z : Zone} {o : Time × Time} (h : Occurs w z o) :
    o.2 = o.1 + w.dur := by
  rcases h with ⟨-, rfl⟩ | ⟨-, d, -, rfl⟩
  · simp [MaintWindow.dur]
  · rfl

/-- An occurrence is known by its end. -/
theorem Occurs.eq_of_snd {w : MaintWindow} {z : Zone} {o p : Time × Time} (h : Occurs w z o)
    (hp : Occurs w z p) (he : o.2 = p.2) : o = p := by
  have h1 := h.snd
  have h2 := hp.snd
  exact Prod.ext (by linarith) he

theorem mem_occurrences {w : MaintWindow} {z : Zone} {around : Time} {o : Time × Time} :
    o ∈ occurrences w around z ↔
      (w.rep = .once ∧ o = (w.startsAt, w.endsAt)) ∨
        (w.rep ≠ .once ∧ ∃ d, (z.date around - 8 ≤ d ∧ d ≤ z.date around + 8) ∧
          w.onDay z d = true ∧ o = w.onDate z d) := by
  unfold occurrences
  by_cases hr : w.rep = .once
  · simp [hr]
  · simp only [hr, if_false, false_and, false_or, List.mem_map, List.mem_filter, List.mem_range,
      spanDays]
    constructor
    · rintro ⟨d, ⟨⟨i, hi, rfl⟩, hd⟩, rfl⟩
      exact ⟨hr, _, ⟨by omega, by omega⟩, hd, rfl⟩
    · rintro ⟨-, d, ⟨h1, h2⟩, hd, rfl⟩
      refine ⟨d, ⟨⟨(d - (z.date around - 8)).toNat, ?_, ?_⟩, hd⟩, rfl⟩ <;> omega

theorem occurs_of_mem {w : MaintWindow} {z : Zone} {around : Time} {o : Time × Time}
    (h : o ∈ occurrences w around z) : Occurs w z o := by
  rcases mem_occurrences.mp h with h | ⟨hr, d, -, hd, he⟩
  · exact .inl h
  · exact .inr ⟨hr, d, hd, he⟩

/-- The occurrences that start within two days of a moment are found around it. -/
theorem mem_of_near {w : MaintWindow} {z : Zone} {around : Time} {o : Time × Time}
    (h : Occurs w z o) (hn : o.1 ≤ around + 2 * day ∧ around ≤ o.1 + 2 * day) :
    o ∈ occurrences w around z := by
  rcases h with h | ⟨hr, d, hd, rfl⟩
  · exact mem_occurrences.mpr (.inl h)
  · exact mem_occurrences.mpr (.inr ⟨hr, d, z.combine_near d _ _ hn, hd, rfl⟩)

/-- An occurrence that ended within the last day is found. -/
theorem mem_of_ended {w : MaintWindow} (hw : w.Valid) {z : Zone} {now : Time} {o : Time × Time}
    (h : Occurs w z o) (he : o.2 ≤ now ∧ now ≤ o.2 + day) : o ∈ occurrences w now z := by
  rcases h with h | ⟨hr, hd⟩
  · exact mem_occurrences.mpr (.inl h)
  · have hs := hw.repeated hr
    have hf := hw.forward
    have h2 := Occurs.snd (.inr ⟨hr, hd⟩)
    apply mem_of_near (.inr ⟨hr, hd⟩)
    simp only [MaintWindow.dur, day, sec] at hs hf h2 he ⊢
    constructor <;> linarith

/-- The ends stand in order. -/
theorem occurrences_sorted (w : MaintWindow) (z : Zone) (around : Time) :
    (occurrences w around z).Pairwise fun o p => o.2 ≤ p.2 := by
  unfold occurrences
  split
  · exact List.pairwise_singleton _ _
  · have hdays : ((List.range (2 * spanDays + 1)).map
        fun (i : Nat) => z.date around - spanDays + i).Pairwise (· ≤ ·) :=
      List.pairwise_map.mpr (List.pairwise_le_range.imp fun h => by omega)
    apply List.pairwise_map.mpr
    apply (hdays.filter _).imp
    intro a b hab
    have := z.combine_mono w.startsAt hab
    simp only [MaintWindow.onDate] at this ⊢
    linarith

/-- `current` gives an occurrence that covers the moment. -/
theorem current_covers {w : MaintWindow} {z : Zone} {now : Time} {o : Time × Time}
    (h : current w now z = some o) : Occurs w z o ∧ o.1 ≤ now ∧ now < o.2 := by
  have hcover := List.find?_some h
  simp only [decide_eq_true_eq] at hcover
  exact ⟨occurs_of_mem (List.mem_of_find?_eq_some h), hcover⟩

/-- `current` gives one whenever there is one. -/
theorem current_isSome {w : MaintWindow} (hw : w.Valid) {z : Zone} {now : Time} {o : Time × Time}
    (ho : Occurs w z o) (hn : o.1 ≤ now ∧ now < o.2) : (current w now z).isSome = true := by
  have hmem : o ∈ occurrences w now z := by
    rcases ho with h | ⟨hr, hd⟩
    · exact mem_occurrences.mpr (.inl h)
    · have hd' := hw.repeated hr
      have h2 := Occurs.snd (.inr ⟨hr, hd⟩)
      apply mem_of_near (.inr ⟨hr, hd⟩)
      simp only [day, sec] at hd' h2 ⊢
      constructor <;> linarith
  rw [current, List.find?_isSome]
  exact ⟨o, hmem, by simp [hn]⟩

/-- The zone of the world's clock. -/
def utc : Zone where
  offset _ := 0
  fold _ := false
  wall _ _ _ := 0
  offset_lt _ := by decide
  wall_lt _ _ _ := by decide
  wall_jump _ _ _ := by decide
  wall_reads _ := rfl

end Kervax
