-- The traffic of a server (`traffic.py`): the byte counters of its interfaces from report
-- to report, and the bytes of a day.
import Kervax.Counters
import Kervax.Dict
import Kervax.Kinds

namespace Kervax.Traffic

/-! ## A report -/

/-- An entry of `net_ifaces`; a counter that is no integer is none. -/
structure Iface where
  name : Option String := none
  phys : Bool := false
  rxTotal : Option Int := none
  txTotal : Option Int := none
deriving DecidableEq, Repr

abbrev Table := List (String × (Int × Int))

/-- `str(i.get("if") or "?")`. -/
def Iface.key (i : Iface) : String :=
  match i.name with
  | none => "?"
  | some n => if n = "" then "?" else n

/-- The counters of one interface, if they are to be counted. -/
def Iface.counters (i : Iface) : Option (Int × Int) :=
  match i.rxTotal, i.txTotal with
  | some rx, some tx => if i.phys = true ∧ 0 ≤ rx ∧ 0 ≤ tx then some (rx, tx) else none
  | _, _ => none

/-- `cur`. -/
def current (ifaces : List Iface) : Table :=
  ifaces.foldl (fun cur i =>
    match i.counters with
    | some c => Dict.put cur i.key c
    | none => cur) []

/-! ## The server -/

/-- `traffic_ctr` and the rows of `server_traffic`, by the day. -/
structure Server where
  since : Option Time := none
  base : Table := []
  days : List (Int × (Int × Int)) := []
deriving DecidableEq, Repr

/-- A report, and when it comes. -/
structure Report where
  ifaces : List Iface
  now : Time
deriving DecidableEq, Repr

/-- What an interface adds; one that has no base adds nothing yet. -/
def added (base : Table) (name : String) (c : Int × Int) : Int × Int :=
  match base.lookup name with
  | none => (0, 0)
  | some p => (Counters.grow p.1 c.1, Counters.grow p.2 c.2)

/-- The loop over the interfaces: `drx` and `dtx`. -/
def deltas (base cur : Table) : Int × Int :=
  cur.foldl (fun d p => (d.1 + (added base p.1 p.2).1, d.2 + (added base p.1 p.2).2)) (0, 0)

/-- `now.astimezone(timezone.utc).date()`, as a number of days. -/
def dayOf (now : Time) : Int := now / day

/-- The row of the day gets the bytes. -/
def addDay (days : List (Int × (Int × Int))) (d : Int) (drx dtx : Int) : List (Int × (Int × Int)) :=
  let old := (days.lookup d).getD (0, 0)
  Dict.put days d (old.1 + drx, old.2 + dtx)

/-- `ingest`, without the summary that is made of the rows. -/
def ingest (s : Server) (r : Report) : Server :=
  let cur := current r.ifaces
  if cur = [] then s
  else
    let d := deltas s.base cur
    { since := some (s.since.getD r.now)
      base := cur
      days := if d.1 ≠ 0 ∨ d.2 ≠ 0 then addDay s.days (dayOf r.now) d.1 d.2 else s.days }

end Kervax.Traffic
