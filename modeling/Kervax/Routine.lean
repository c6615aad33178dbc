-- The routine of a kind: the history of its episodes, and the usual end of an
-- episode that began at this time on each of the days before.
import Kervax.AlertState

namespace Kervax

/-- An episode: its begin, and its end once it has one. -/
abbrev Episode := Time × Option Time

/-- `routine_start`: the history with a new episode. -/
def routineStart (hist : List Episode) (now : Time) : List Episode :=
  let keep := hist.filter fun e => now - routineKeep < e.1
  (keep ++ [(now, none)]).drop ((keep.length + 1) - 40)

/-- `routine_end`: the last episode gets an end. -/
def routineEnd (hist : List Episode) (now : Time) : List Episode :=
  match hist.getLast? with
  | some (a, none) => hist.dropLast ++ [(a, some now)]
  | _ => hist

/-- `routine_open`: the last episode goes on, unless it ended before `begun`. -/
def routineOpen (hist : List Episode) (begun : Option Time) : List Episode :=
  match begun, hist.getLast? with
  | some t, some (a, some b) => if t ≤ b then hist.dropLast ++ [(a, none)] else hist
  | _, _ => hist

/-- How far apart two moments are. -/
def apart (a b : Time) : Time := if a ≤ b then b - a else a - b

/-- The episode is at the time `t` of its day, and it went by itself. -/
def routineHit (t : Time) (e : Episode) : Bool :=
  match e.2 with
  | none => false
  | some b => apart e.1 t ≤ routineSlack ∧ 0 < b - e.1 ∧ b - e.1 ≤ routineMax

/-- The first of the episodes that is nearest to `t`. -/
def nearest (t : Time) : List Episode → Option Episode
  | [] => none
  | e :: es =>
    match nearest t es with
    | none => some e
    | some e' => if apart e'.1 t < apart e.1 t then some e' else some e

/-- The episode of `d` days before, moved to today. -/
def routineSpan (hist : List Episode) (now : Time) (d : Nat) : Option (Time × Time) :=
  let t := now - d * day
  match nearest t (hist.filter (routineHit t)) with
  | some (a, some b) => some (a + d * day, b + d * day)
  | _ => none

/-- `routine_of`: the usual begin and end today. -/
def routineOf (hist : List Episode) (now : Time) : Option (Time × Time) :=
  match routineSpan hist now 1, routineSpan hist now 2 with
  | some (a, b), some (a', b') => some (min a a', max b b')
  | _, _ => none

end Kervax
