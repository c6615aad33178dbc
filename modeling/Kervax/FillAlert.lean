-- How full a disk is (`fill_alert.py`, and `fill` of `_server_conditions`): an alert that
-- waits out a jump, does not go down by steps, and ends only after a calm.
import Kervax.Doubles
import Kervax.Kinds
import Kervax.Runs

namespace Kervax.Fill

/-! ## `fill_alert.py` -/

/-- `HOLD_S`, `HYST`, `CALM_S`. -/
def holdS : Time := sec 1800
def hyst : ℚ := 3
def calmS : Time := sec 1800

/-- `FAST_WINDOW_S`, `FAST_MIN_SPAN_S`, `FAST_MIN_POINTS`, `FAST_ETA_S`. -/
def fastWindowS : ℚ := 600
def fastMinSpanS : ℚ := 480
def fastMinPoints : Nat := 6
def fastEtaS : ℚ := 1800

/-- `timestamp`. -/
def unix (now : Time) : ℚ := now / 1000000

/-- Tenths of a percent a minute, and the minutes that are left. -/
structure Fast where
  rate : Int
  etaMin : Int
deriving DecidableEq, Repr

/-- `at`: the point next to a moment, the first of those as near. -/
def nearest (first : ℚ × ℚ) (pts : List (ℚ × ℚ)) (x : ℚ) : ℚ × ℚ :=
  pts.foldl (fun best p => if |p.1 - x| < |best.1 - x| then p else best) first

/-- The growth from one mark to the next. -/
def slope (a b : ℚ × ℚ) : ℚ := (b.2 - a.2) / (b.1 - a.1)

/-- `fast_fill`: every third of the window grows, and at the slowest rate of the three
the disk is full before `FAST_ETA_S`. -/
def fastFill (points : List (ℚ × ℚ)) (value : ℚ) (now : Time) : Option Fast :=
  let t := unix now
  let seen := points.filter fun p => t - fastWindowS ≤ p.1 ∧ p.1 < t - 1
  let last := (t, value)
  let pts := seen ++ [last]
  let first := seen.headD last
  if pts.length < fastMinPoints ∨ last.1 - first.1 < fastMinSpanS then none
  else
    let third := (last.1 - first.1) / 3
    let a := nearest first pts (first.1 + third)
    let b := nearest first pts (first.1 + 2 * third)
    if a.1 ≤ first.1 ∨ b.1 ≤ a.1 ∨ last.1 ≤ b.1 then none
    else
      let rate := min (min (slope first a) (slope a b)) (slope b last)
      if rate ≤ 0 then none
      else
        let eta := (100 - value) / rate
        if fastEtaS < eta then none
        else some ⟨Doubles.roundHalf (rate * 60 * 10), max 1 (Doubles.roundHalf (eta / 60))⟩

/-- What the state holds of the alert: its level, since when the disk is above a threshold,
and since when it is below the line of the end. -/
structure FillState where
  level : Nat := 0
  since : Option Time := none
  cool : Option Time := none
deriving DecidableEq, Repr

/-- `step`: the level of this tick, and what is to be kept. The clocks are kept as text,
which gives back the moment that was written. -/
def step (s : FillState) (value : ℚ) (raw : Nat) (low : Option ℚ) (now : Time)
    (points : List (ℚ × ℚ)) : FillState × Option Fast :=
  let fast := if raw ≠ 0 then fastFill points value now else none
  match (if s.level ≠ 0 then low else none) with
  | some line =>
    if line - hyst ≤ value then (⟨max s.level raw, some (s.since.getD now), none⟩, fast)
    else
      let started := s.cool.getD now
      if now - started < calmS then (⟨s.level, s.since, some started⟩, fast)
      else (⟨0, none, some started⟩, fast)
  | none =>
    if raw ≠ 0 then
      let begun := s.since.getD now
      if fillCrit ≤ raw ∨ fast.isSome ∨ holdS ≤ now - begun then (⟨raw, some begun, none⟩, fast)
      else (⟨0, some begun, none⟩, fast)
    else (⟨0, none, none⟩, fast)

/-! ## `fill` -/

/-- What a tick knows of the disk or of its inodes: the thresholds of the server (0 is off),
the value of the worst mount, and for a server with backups the mounts that were announced. -/
structure FillTick where
  now : Time
  crit : Int
  prob : Int
  warn : Int
  value : ℚ
  points : List (ℚ × ℚ) := []
  isDisk : Bool := true
  backupHost : Bool := false
  storage : Bool := false
  mount : Option String := none
  who : List String := []

/-- A threshold that is on and is reached. -/
def FillTick.reached (t : FillTick) (threshold : Int) : Bool :=
  threshold ≠ 0 ∧ (threshold : ℚ) ≤ t.value

def FillTick.raw (t : FillTick) : Nat :=
  if t.reached t.crit then 3 else if t.reached t.prob then 2 else if t.reached t.warn then 1 else 0

/-- `_fill_low`: the lowest of the thresholds that are on. -/
def FillTick.low (t : FillTick) : Option ℚ :=
  ([t.warn, t.prob, t.crit].filter (· ≠ 0)).min?.map (Int.cast : Int → ℚ)

/-- The worst mount is not one of those that were announced: these are well. -/
def FillTick.elsewhere (t : FillTick) : Bool :=
  t.isDisk ∧ t.backupHost ∧ t.raw = 0 ∧ t.who ≠ [] ∧ ∀ m ∈ t.mount, m ∉ t.who

/-- `step_value`. -/
def FillTick.stepValue (t : FillTick) : ℚ := if t.elsewhere then 0 else t.value

/-- The condition of the alert, with what `fill` puts into its context. -/
structure FillCond where
  state : FillState
  fast : Option Fast
  raw : Nat
  threshold : Int
  severity : String
  /-- The percentage of another mount is not shown. -/
  hidden : Bool
deriving DecidableEq, Repr

def FillTick.threshold (t : FillTick) (level : Nat) : Int :=
  let thr := if level = 3 then t.crit else if level = 2 then t.prob
    else if level = 1 then t.warn else 0
  if t.storage ∧ thr ≠ 0 then max 90 thr else thr

def severity (level : Nat) : String :=
  if level = 3 then "критично" else if level = 2 then "проблема"
  else if level = 1 then "предупреждение" else ""

def fill (s : FillState) (t : FillTick) : FillCond :=
  let (state, fast) := step s t.stepValue t.raw t.low t.now t.points
  { state := state
    fast := fast
    raw := t.raw
    threshold := t.threshold state.level
    severity := if t.isDisk then severity state.level else ""
    hidden := t.elsewhere }

end Kervax.Fill
