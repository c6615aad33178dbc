-- The kernel's count of OOM kills (`oom.counter_step`): what a report adds to it, and what
-- waits for a point of the graph.
import Kervax.FillAlert

namespace Kervax.OomCounter

/-- What is read of a report. -/
structure Body where
  oomKill : Option ℚ
  oomTotal : Option Int
  uptime : Int

/-- What is read of the last report. -/
structure Prev where
  oomTotal : Option Int := none
  uptime : Int := 0
  oomPend : Int := 0

/-- The uptime went down, with a margin. -/
def rebooted (prev : Prev) (body : Body) : Bool :=
  prev.uptime ≠ 0 && body.uptime ≠ 0 && body.uptime < prev.uptime - 60

/-- `counter_step`. -/
def counterStep (prev : Prev) (body : Body) : Int × Int :=
  let delta := match body.oomTotal, prev.oomTotal with
    | some cur, some pt => if rebooted prev body then cur else max 0 (cur - pt)
    | _, _ => Doubles.roundHalf (body.oomKill.getD 0)
  (delta, prev.oomPend + delta)

/-- What the panel keeps of a server between reports. -/
structure Server where
  lastReport : Prev := {}
  metricWrittenAt : Option Time := none

/-- A point of the graph is written: so often, in seconds. -/
def writeMetric (every : Int) (s : Server) (now : Time) : Bool :=
  every ≤ 0 || s.metricWrittenAt.all fun prev => sec every ≤ now - prev

/-- The kills of the point that a report writes. -/
def point (every : Int) (s : Server) (now : Time) (body : Body) : Option (Option Int) :=
  if writeMetric every s now then
    some (if body.oomKill.isSome || body.oomTotal.isSome then some (counterStep s.lastReport body).2
      else none)
  else none

/-- A report comes in. -/
def receive (every : Int) (s : Server) (now : Time) (body : Body) : Server :=
  let write := writeMetric every s now
  { lastReport :=
      { oomTotal := body.oomTotal
        uptime := body.uptime
        oomPend := if write then 0 else (counterStep s.lastReport body).2 }
    metricWrittenAt := if write then some now else s.metricWrittenAt }

/-! ## The machine -/

/-- A machine: how often it was booted, for how long it is up, and how many processes the
kernel has killed since. -/
structure Machine where
  boot : Nat := 0
  uptime : Nat := 0
  kills : Nat := 0

/-- What happens to it. A report carries what the agent has counted since its last look, and
the uptime if it could be read. -/
inductive Event
  | kill
  | run (seconds : Nat)
  | reboot
  | report (now : Time) (oomKill : Option ℚ) (readable : Bool)

def Machine.next (m : Machine) : Event → Machine
  | .kill => { m with kills := m.kills + 1 }
  | .run seconds => { m with uptime := m.uptime + seconds }
  | .reboot => { boot := m.boot + 1 }
  | .report _ _ _ => m

/-- A report that came, and the machine it was taken from. -/
structure Reading where
  machine : Machine
  now : Time
  oomKill : Option ℚ
  readable : Bool

def Reading.body (r : Reading) : Body where
  oomKill := r.oomKill
  oomTotal := some r.machine.kills
  uptime := if r.readable then r.machine.uptime else 0

/-- The reports that come; what is lost on the way is not among the events. -/
def taken (m : Machine) : List Event → List Reading
  | [] => []
  | .report now oomKill readable :: es => ⟨m, now, oomKill, readable⟩ :: taken m es
  | e :: es => taken (m.next e) es

/-- What the panel makes of each report: what it adds, and whether a point is written. -/
def counted (every : Int) (s : Server) : List Reading → List (Int × Bool)
  | [] => []
  | r :: rs => ((counterStep s.lastReport r.body).1, writeMetric every s r.now) ::
      counted every (receive every s r.now r.body) rs

/-- What the panel keeps after the reports. -/
def kept (every : Int) (s : Server) (rs : List Reading) : Server :=
  rs.foldl (fun s r => receive every s r.now r.body) s

end Kervax.OomCounter
