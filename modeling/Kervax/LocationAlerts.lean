-- Partial availability (`evaluate_location_alerts` of the collector): from where a
-- monitor answers and from where it does not, the alert about it and its recovery.
import Mathlib.Data.List.Sort
import Kervax.Kinds

namespace Kervax.Locations

/-! ## What a tick reads -/

/-- The status of a check; `unknown` is one that has not run. -/
inductive Answer
  | up | degraded | down | unknown
deriving DecidableEq, Repr

/-- A row of `locations` that is enabled and checks monitors. The one without a proxy
is the direct one: the monitor's own check. -/
structure Location where
  id : Nat
  name : String
  url : String
deriving DecidableEq, Repr

/-- A row of `location_results`. -/
structure Result where
  status : Answer
  consecutiveFails : Int
deriving DecidableEq, Repr

/-- A row of `checks` without its marks. -/
structure Check where
  id : Nat
  name : String
  enabled : Bool := true
  checkLocations : Bool := true
  http : Bool := true
  locationIds : Option (List Nat) := none
  alertAfterFailures : Int := 3
  lastStatus : Answer := .unknown
  consecutiveFails : Int := 0
deriving DecidableEq, Repr

/-- The marks of a row: `loc_alerted`, `loc_partial_since` and `loc_notified`. -/
structure Marks where
  alerted : Option (List Nat) := none
  partialSince : Option Time := none
  notified : Option (List Nat) := none
deriving DecidableEq, Repr

/-- What one tick finds: the tables, what `test_proxy` answers (or answered within
its five minutes), and for whom an alert of this tick is let through and delivered. -/
structure Tick where
  now : Time
  enabled : List Location
  rows : List Check
  results : Nat → Nat → Option Result
  proxyAnswers : Nat → Bool := fun _ => true
  delivered : Nat → Bool := fun _ => true
  nodup : (rows.map Check.id).Nodup := by decide

/-- `effective_locations`. -/
def effectiveLocations (c : Check) (enabled : List Location) : List Location :=
  match c.locationIds with
  | none => enabled
  | some ids => enabled.filter fun loc => loc.id ∈ ids

/-! ## Broken proxies -/

/-- `_BROKEN_MIN_CHECKS`. -/
def brokenMinChecks : Nat := 3

/-- The monitors that are checked through a location, with what it says of them. -/
def through (probing : List Location) (checks : List Check) (results : Nat → Nat → Option Result)
    (loc : Location) : List (Check × Result) :=
  checks.filterMap fun c =>
    if c.enabled ∧ c.checkLocations ∧ c.http ∧ loc ∈ effectiveLocations c probing then
      (results c.id loc.id).map fun r => (c, r)
    else none

/-- `broken_location_ids`: all that is checked through the proxy is down, and from the
panel something answers. -/
def brokenLocationIds (probing : List Location) (checks : List Check)
    (results : Nat → Nat → Option Result) (minFails : Int) : List Nat :=
  (probing.filter fun loc => loc.url ≠ "" ∧
    brokenMinChecks ≤ (through probing checks results loc).length ∧
    (∀ g ∈ through probing checks results loc,
      g.2.status = .down ∧ minFails ≤ g.2.consecutiveFails) ∧
    (∃ g ∈ through probing checks results loc,
      g.1.lastStatus = .up ∨ g.1.lastStatus = .degraded)).map Location.id

/-- `_confirm_broken`: of the suspects those whose proxy does not answer itself. -/
def confirmBroken (suspect : List Nat) (enabled : List Location) (answers : Nat → Bool) :
    List Nat :=
  (enabled.filter fun loc => loc.id ∈ suspect ∧ answers loc.id = false).map Location.id

/-- The monitors that are looked at: enabled, checked from locations, of type http. -/
def Tick.checks (t : Tick) : List Check :=
  t.rows.filter fun c => c.enabled ∧ c.checkLocations ∧ c.http

def Tick.broken (t : Tick) : List Nat :=
  confirmBroken (brokenLocationIds t.enabled t.checks t.results 2) t.enabled t.proxyAnswers

/-! ## One monitor -/

/-- The status and the failures in a row that a location has of the monitor. -/
def report (t : Tick) (c : Check) (loc : Location) : Answer × Int :=
  if loc.url = "" then (c.lastStatus, c.consecutiveFails)
  else
    match t.results c.id loc.id with
    | some r => (r.status, r.consecutiveFails)
    | none => (.unknown, 0)

/-- How a location counts: up, down or not at all. Behind a broken proxy only what was
down before is still down, and a failure counts once there are enough in a row. -/
def count (t : Tick) (c : Check) (m : Marks) (loc : Location) : Option Bool :=
  if loc.id ∈ t.broken then
    if loc.id ∈ m.alerted.getD [] then some false else none
  else
    match (report t c loc).1 with
    | .up | .degraded => some true
    | .down => if (report t c loc).2 < max c.alertAfterFailures 1 then none else some false
    | .unknown => none

/-- The locations that count, each with whether the site is up from it. -/
def counted (t : Tick) (c : Check) (m : Marks) : List (Location × Bool) :=
  (effectiveLocations c t.enabled).filterMap fun loc => (count t c m loc).map fun up => (loc, up)

def nUp (t : Tick) (c : Check) (m : Marks) : Nat := (counted t c m).countP fun p => p.2

def nDown (t : Tick) (c : Check) (m : Marks) : Nat := (counted t c m).countP fun p => !p.2

def sortedIds (ids : List Nat) : List Nat := ids.insertionSort (· ≤ ·)

def downIds (t : Tick) (c : Check) (m : Marks) : List Nat :=
  sortedIds (((counted t c m).filter fun p => !p.2).map fun p => p.1.id)

/-- The lines of the alert, one for each location that counts. -/
def lines (t : Tick) (c : Check) (m : Marks) : List String :=
  (counted t c m).map fun p =>
    if p.2 then "🟢 " ++ p.1.name ++ " — доступен" else "🔴 " ++ p.1.name ++ " — недоступен"

inductive Kind
  | locpart | locrec
deriving DecidableEq, Repr

/-- An alert to be sent, with the value `loc_notified` takes once it is delivered. -/
structure Pending where
  kind : Kind
  name : String
  message : String
  checkId : Nat
  flag : Option (List Nat)
deriving DecidableEq, Repr

/-- What the tick does with a monitor: the new `loc_alerted` and `loc_partial_since`,
if they are written, and the alert, if there is one. -/
structure Outcome where
  update : Option (Option (List Nat) × Option Time) := none
  pending : Option Pending := none
deriving DecidableEq, Repr

/-- `_LOC_PARTIAL_SUSTAIN`. -/
def partialSustain : Time := sec 300

/-- The body of the loop of `evaluate_location_alerts`. -/
def judge (t : Tick) (c : Check) (m : Marks) : Outcome :=
  let down := downIds t c m
  if nUp t c m ≠ 0 ∧ nDown t c m ≠ 0 then
    let since := m.partialSince.getD t.now
    { update :=
        if some down ≠ m.alerted.map sortedIds ∨ m.partialSince = none then
          some (some down, some since)
        else none
      pending :=
        if partialSustain ≤ t.now - since ∧ some down ≠ m.notified.map sortedIds then
          some ⟨.locpart, c.name, "\n".intercalate (lines t c m), c.id, some down⟩
        else none }
  else if nDown t c m = 0 then
    { update := if m.alerted ≠ none ∨ m.partialSince ≠ none then some (none, none) else none
      pending := if m.notified ≠ none then some ⟨.locrec, c.name, "", c.id, none⟩ else none }
  else if nUp t c m = 0 ∧ m.partialSince ≠ none then
    -- down from everywhere: the incident of the monitor tells it, here the clock starts anew
    { update := some (m.alerted, none) }
  else {}

/-! ## The tick -/

/-- `_forget_stale_locations`: a mark none of whose locations is checked any more goes. -/
def forget (t : Tick) (c : Check) (m : Marks) : Marks :=
  let want := if c.enabled ∧ c.checkLocations then effectiveLocations c t.enabled else []
  if m.alerted.getD [] ≠ [] ∧ ∀ l ∈ m.alerted.getD [], l ∉ want.map Location.id then
    { m with alerted := none }
  else m

/-- `state_updates` written. -/
def Outcome.saved (o : Outcome) (m : Marks) : Marks :=
  match o.update with
  | none => m
  | some (alerted, since) => { m with alerted := alerted, partialSince := since }

/-- `loc_notified` written, which `_send_alerts` does after the delivery. -/
def Outcome.sent (o : Outcome) (delivered : Bool) (m : Marks) : Marks :=
  match o.pending with
  | none => m
  | some p => if delivered then { m with notified := p.flag } else m

/-- What a tick makes of the marks of a row; they are read before the stale ones go. -/
def settle (t : Tick) (c : Check) (m : Marks) : Marks :=
  if c ∈ t.checks then
    let o := judge t c m
    o.sent (t.delivered c.id) (o.saved (forget t c m))
  else forget t c m

/-- The alerts of a tick. -/
def pending (s : Nat → Marks) (t : Tick) : List Pending :=
  t.checks.filterMap fun c => (judge t c (s c.id)).pending

/-- `evaluate_location_alerts`, on the marks of all rows. -/
def evaluate (s : Nat → Marks) (t : Tick) : Nat → Marks := fun id =>
  match t.rows.find? fun c => c.id = id with
  | none => s id
  | some c => settle t c (s id)

end Kervax.Locations
