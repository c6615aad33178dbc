-- CronJobs of a cluster (`kube_cron.py`): what is wrong with one, and what the panel remembers of
-- it between reports. The texts, and what only they read, are left out. Times are seconds.
import Kervax.ClientIp
import Kervax.Fields
import Kervax.Podnames
import Kervax.Dict
import Mathlib.Algebra.Order.Field.Rat

namespace Kervax.KubeCron

open Kervax.Podnames (Text)

/-! ## The report -/

/-- `SLACK`. -/
def slack : ℚ := 2 * 3600

/-- The last Job of a CronJob; texts that are missing are empty. -/
structure Last where
  st : String
  reason : String := ""
  pr : String := ""
  x : Option Int := none
deriving DecidableEq

/-- A CronJob in a report; a time that is missing is zero, and `dump` is what
`_looks_dump_cron` says of it. -/
structure CronJob where
  ns : Text
  name : Text
  schedule : Text
  suspend : Bool := false
  active : Nat := 0
  lastSchedule : Nat := 0
  lastSuccess : Nat := 0
  last : Option Last := none
  dump : Bool := false
deriving DecidableEq

/-- `key`. -/
def key (cj : CronJob) : Text := cj.ns ++ '/' :: cj.name

/-- The CronJobs of a cluster, whose names differ. -/
structure Report where
  cronjobs : List CronJob
  nodup : (cronjobs.map key).Nodup

/-! ## Schedules -/

/-- `int` of a text: a sign and ASCII digits. The underscores and the digits beyond ASCII that `int`
takes too are left out: no schedule that Kubernetes admits has them. -/
def intOf (s : Text) : Option Int :=
  let digits := fun t : Text =>
    if t ≠ [] ∧ t.all Char.isDigit then
      some (t.foldl (fun n c => n * 10 + (c.toNat - '0'.toNat)) 0) else none
  match s with
  | '-' :: t => (digits t).map fun n => -(n : Int)
  | '+' :: t => (digits t).map fun n => (n : Int)
  | _ => (digits s).map fun n => (n : Int)

/-- A field with a step, in so many seconds; none when it raises. -/
def stepOf (field : Text) (unit : Int) : Option Int :=
  (if field.drop 2 = [] then some 1 else intOf (field.drop 2)).map fun n => max (n * unit) unit

def stepped (field : Text) : Bool := "*/".toList.isPrefixOf field

/-- `interval`: a rough guess. -/
def interval (sched : Text) : Option Int :=
  match Fields.words isSpace sched with
  | [minute, hour, dom, _, dow] =>
    if stepped minute then stepOf minute 60
    else if minute = ['*'] then some 60
    else if hour = ['*'] then some 3600
    else if stepped hour then stepOf hour 3600
    else if dow ≠ ['*'] then some (7 * 86400)
    else if stepped dom then stepOf dom 86400
    else if dom ≠ ['*'] then some (28 * 86400)
    else some 86400
  | _ => some 86400

/-! ## What is wrong with a CronJob -/

inductive Kind
  | suspend | hang | fail | stale | nostart
deriving DecidableEq

/-- `_HELD`. -/
def held (k : Kind) : Bool := k = .fail || k = .stale

/-- What is remembered of a CronJob: the schedule, when it changed, and the verdict on the last
run that ended. -/
structure Rec where
  s : Text
  at' : Option ℚ
  bad : Option Kind
deriving DecidableEq

abbrev State := List (Text × Rec)

/-- `_held`. -/
def heldOf (state : State) (name : Text) : Option Kind :=
  ((Dict.get state name).bind Rec.bad).filter held

/-- `changed_at`. -/
def changedAt (state : State) (name : Text) : ℚ := ((Dict.get state name).bind Rec.at').getD 0

/-- `run_cause`: the parts of the text are there. -/
def hasCause (last : Last) : Bool :=
  last.reason ≠ "" || (last.pr ≠ "" && last.pr ≠ "Error") || last.x.any (· ≠ 0)

def staleAfter (every : Int) : ℚ := max ((every * 2 : Int) : ℚ) (2 * 3600)

/-- `_stale`: the last start, or the change of the schedule, is too long ago. -/
def stale (every : Int) (cj : CronJob) (since now : ℚ) : Bool :=
  let ran := max (cj.lastSchedule : ℚ) since
  ran ≠ 0 && staleAfter every < now - ran

/-- `issue` while a run is going on. -/
def issueActive (every : Int) (cj : CronJob) (now : ℚ) (bad : Option Kind) : Option Kind :=
  if ¬ (cj.lastSchedule ≠ 0 ∧ max ((every * 2 : Int) : ℚ) 86400 < now - cj.lastSchedule) then bad
  else some .hang

/-- There has been no success for too long. -/
def overdue (every : Int) (cj : CronJob) (since now : ℚ) : Bool :=
  0 < cj.lastSuccess && staleAfter every < now - max (cj.lastSuccess : ℚ) since

/-- The last run began too long after the last success. -/
def unsuccessful (cj : CronJob) : Bool :=
  cj.lastSchedule ≠ 0 &&
    (cj.lastSuccess = 0 || slack < (cj.lastSchedule : ℚ) - cj.lastSuccess)

def running (cj : CronJob) : Bool := cj.last.any fun l => l.st = "running"

/-- `issue` between two runs. -/
def issueIdle (every : Int) (cj : CronJob) (since now : ℚ) : Option Kind :=
  if overdue every cj since now then
    if stale every cj since now then some .nostart
    else if cj.last.any fun l => l.st = "failed" || hasCause l then some .fail
    else some .stale
  else if unsuccessful cj && !running cj then some .fail
  else none

/-- `issue`; the outer none when it raises. -/
def issue (cj : CronJob) (now : ℚ) (state : State) (dumps : Bool) : Option (Option Kind) :=
  if cj.suspend then some (if dumps then some .suspend else none)
  else (interval cj.schedule).map fun every =>
    if cj.active ≠ 0 then issueActive every cj now (heldOf state (key cj))
    else issueIdle every cj (changedAt state (key cj)) now

/-! ## What is remembered -/

/-- The schedule that a CronJob has now, and when it changed. -/
def scheduled (was : Option Rec) (cj : CronJob) (now : ℚ) : Rec :=
  match was with
  | none => ⟨cj.schedule, none, none⟩
  | some rec => if rec.s = cj.schedule then rec else ⟨cj.schedule, some now, none⟩

/-- The record of one CronJob; between two runs its verdict is the one on this report. -/
def record (prev : State) (now : ℚ) (cj : CronJob) : Option Rec :=
  let rec' := scheduled (Dict.get prev (key cj)) cj now
  if cj.active = 0 then
    (issue cj now (Dict.put prev (key cj) rec') cj.dump).map fun bad =>
      { rec' with bad := bad.filter held }
  else some rec'

/-- `track`; none when it raises. -/
def track (prev : State) (rep : Report) (now : ℚ) : Option State :=
  rep.cronjobs.foldlM (fun out cj => (record prev now cj).map (Dict.put out (key cj))) []

end Kervax.KubeCron
