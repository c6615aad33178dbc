-- The two flap guards: `_flapping` for the link of a server, and
-- `_flap_metric` for a metric that moves around its threshold.
import Kervax.AlertState

namespace Kervax

/-- The series that a guard counts in: a new one once the window is over. -/
def series (f : Flap) (window now : Time) : Time × Nat :=
  match f.since with
  | none => (now, f.count)
  | some first => if window < now - first then (now, 0) else (first, f.count)

/-- `_flapping`: the new marks, whether this change of the link goes unsaid,
and whether the message of the series is due. -/
def flapping (f : Flap) (now : Time) : Flap × Bool × Bool :=
  let (first, n) := series f flapWindow now
  let f' := { f with since := some first, count := n + 1 }
  if n + 1 < flapLimit then (f', false, false)
  else if f.muted then (f', true, false)
  else ({ f' with muted := true }, true, true)

/-- The change of the link fills the series. -/
def Flap.full (f : Flap) (now : Time) : Prop := flapLimit ≤ (series f flapWindow now).2 + 1

/-- The marks with one change more. -/
def Flap.counted (f : Flap) (now : Time) : Flap :=
  { f with since := some (series f flapWindow now).1, count := (series f flapWindow now).2 + 1 }

theorem flapping_rare {f : Flap} {now : Time} (h : ¬ f.full now) :
    flapping f now = (f.counted now, false, false) := by
  unfold Flap.full at h
  simp only [flapping, Flap.counted]
  rw [if_pos (by omega)]

theorem flapping_muted {f : Flap} {now : Time} (h : f.full now) (hm : f.muted = true) :
    flapping f now = (f.counted now, true, false) := by
  unfold Flap.full at h
  simp only [flapping, Flap.counted]
  rw [if_neg (by omega), if_pos hm]

theorem flapping_full {f : Flap} {now : Time} (h : f.full now) (hm : f.muted = false) :
    flapping f now = ({ f.counted now with muted := true }, true, true) := by
  unfold Flap.full at h
  simp only [flapping, Flap.counted]
  rw [if_neg (by omega), if_neg (by simp [hm])]

/-- A series that is over counts from the beginning. -/
theorem not_full_of_over {f : Flap} {now first : Time} (hf : f.since = some first)
    (h : flapWindow < now - first) : ¬ f.full now := by
  simp [Flap.full, series, hf, h, flapLimit]

/-- `_flap_metric`: the same for an entry of a metric. A muted series only
moves its end. -/
def flapMetric (k : Kind) (f : Flap) (now : Time) : Flap × Bool × Bool :=
  if f.muted then ({ f with last := some now }, true, false)
  else
    let (first, n) := series f flapMetricWindow now
    let f' := { f with since := some first, count := n + 1, last := some now }
    if n + 1 < flapMetricLimitOf k then (f', false, false)
    else ({ f' with muted := true }, true, true)

/-- The entry fills the series of the metric. -/
def Flap.metricFull (k : Kind) (f : Flap) (now : Time) : Prop :=
  flapMetricLimitOf k ≤ (series f flapMetricWindow now).2 + 1

/-- The marks with one entry more. -/
def Flap.metricCounted (f : Flap) (now : Time) : Flap :=
  { f with
    since := some (series f flapMetricWindow now).1
    count := (series f flapMetricWindow now).2 + 1
    last := some now }

theorem flapMetric_muted {k : Kind} {f : Flap} {now : Time} (hm : f.muted = true) :
    flapMetric k f now = ({ f with last := some now }, true, false) := by
  simp only [flapMetric]
  rw [if_pos hm]

theorem flapMetric_rare {k : Kind} {f : Flap} {now : Time} (h : ¬ f.metricFull k now)
    (hm : f.muted = false) : flapMetric k f now = (f.metricCounted now, false, false) := by
  unfold Flap.metricFull at h
  simp only [flapMetric, Flap.metricCounted]
  rw [if_neg (by simp [hm]), if_pos (by omega)]

theorem flapMetric_full {k : Kind} {f : Flap} {now : Time} (h : f.metricFull k now)
    (hm : f.muted = false) :
    flapMetric k f now = ({ f.metricCounted now with muted := true }, true, true) := by
  unfold Flap.metricFull at h
  simp only [flapMetric, Flap.metricCounted]
  rw [if_neg (by simp [hm]), if_neg (by omega)]

/-- The series of the link is over: no change for a window. -/
def linkCalm (f : Flap) (now : Time) : Bool :=
  f.muted &&
    match f.since with
    | none => true
    | some first => flapWindow < now - first

/-- The series of a metric is over. -/
def metricCalm (f : Flap) (now : Time) : Bool :=
  f.muted &&
    match f.last.or f.since with
    | none => true
    | some last => flapMetricWindow < now - last

end Kervax
