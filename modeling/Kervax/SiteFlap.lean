-- A site that flaps: one alert and one recovery for the whole episode
-- (`record_outcome` and `_flaky_step` of `collector.py`, `site_flap.py`,
-- `flaky.py`). The state of the monitor changes at once, and what was announced
-- is marked after the delivery.
import Kervax.SiteAlerts
import Kervax.Kinds

namespace Kervax

inductive CheckStatus
  | up | degraded | down
deriving DecidableEq, Repr

/-- Times and statuses, the old ones first. -/
abbrev Hist := List (Time × CheckStatus)

/-! ## `site_flap.py` -/

/-- `FLAP_WINDOW`, `STABLE`, `STABLE_N`, `WORSE`. -/
def siteFlapWindow : Time := sec 3600
def stableFor : Time := sec (30 * 60)
def stableN : Nat := 3
def worseAfter : Time := sec (10 * 60)

inductive FlapLevel
  | down | flaky
deriving DecidableEq, Repr

/-- `Check.flap_state`: no episode yet, an open one, or when the last one closed. -/
inductive FlapState
  | never
  | opened (lvl : FlapLevel) (since : Time)
  | closed (since : Time)
deriving DecidableEq, Repr

/-- `level`. -/
def FlapState.level : FlapState → Option FlapLevel
  | .opened lvl _ => some lvl
  | _ => none

/-- `cutoff`. -/
def FlapState.cutoff : FlapState → Option Time
  | .closed t => some t
  | _ => none

/-- `runs`: the runs of failures among the checks from `since` on. -/
def outageRuns (hist : Hist) (since : Time) : Nat :=
  (hist.foldl (fun (n, inside) (ts, st) =>
    if ts < since then (n, inside)
    else if st ≠ .up then (if inside then n else n + 1, true)
    else (n, false)) (0, false)).1

/-- `flapping`. -/
def isFlapping (hist : Hist) (now : Time) : Bool := 2 ≤ outageRuns hist (now - siteFlapWindow)

/-- `stable`: the last checks went well, and nothing was down for `STABLE`. A slow
answer is no outage. -/
def isStable (hist : Hist) (now : Time) : Bool :=
  let tail := (lastN stableN hist).map (·.2)
  if tail.length < stableN ∨ tail.any (· ≠ .up) then false
  else
    match ((hist.filter (·.2 = .down)).map (·.1)).max? with
    | none => true
    | some last => stableFor ≤ now - last

/-! ## `flaky.py` -/

/-- `WINDOW`, `FAILS`, `RUNS`, `CLEAR`. -/
def flakyWindow : Nat := 20
def flakyFails : Nat := 4
def flakyRuns : Nat := 3
def flakyClear : Nat := 1

/-- The runs of failures: where each ends, and how long it is. -/
def failRuns (statuses : List CheckStatus) : List (Nat × Nat) :=
  let (i, n, runs) := statuses.foldl (fun (i, n, runs) st =>
    if st = .down then (i + 1, n + 1, runs)
    else (i + 1, 0, if n ≠ 0 then runs ++ [(i, n)] else runs)) (0, 0, [])
  if n ≠ 0 then runs ++ [(i, n)] else runs

/-- `short_failures`: the failures in the window that belong to short runs, and
the number of these runs. -/
def shortFailures (statuses : List CheckStatus) (longRun : Nat) : Nat × Nat :=
  let longRun := max longRun 1
  let lo := statuses.length - flakyWindow
  (failRuns statuses).foldl (fun (fails, count) (stop, length) =>
    if longRun ≤ length then (fails, count)
    else
      let inside := stop - max (stop - length) lo
      if 0 < inside then (fails + inside, count + 1) else (fails, count)) (0, 0)

/-- `in_outage`. -/
def inOutage (statuses : List CheckStatus) (longRun : Nat) : Bool :=
  let longRun := max longRun 1
  let tail := lastN longRun statuses
  tail.length = longRun ∧ tail.all (· = .down)

/-- `is_flaky`. -/
def isFlaky (statuses : List CheckStatus) (longRun : Nat) (was : Bool) : Bool :=
  if inOutage statuses longRun then was
  else
    let (fails, count) := shortFailures statuses longRun
    if !was then flakyFails ≤ fails ∧ flakyRuns ≤ count else flakyClear < fails

/-! ## The monitor -/

/-- The settings of a monitor that the checks read. -/
structure SiteMon where
  alertAfter : Nat
  degradedAfter : Nat
  intervalSeconds : Nat

/-- An open incident. -/
structure SiteInc where
  startedAt : Time
  notified : Bool
deriving DecidableEq, Repr

/-- The row of a monitor: what the checks read of it and write to it. -/
structure SiteRow where
  consecutiveFails : Nat := 0
  inc : Option SiteInc := none
  flap : FlapState := .never
  flakySince : Option Time := none
  flakyNotified : Bool := false
  lastCheckedAt : Option Time := none
  lastStatus : Option CheckStatus := none
  samples : Hist := []
deriving DecidableEq, Repr

/-- What is set on the row once an alert is out. -/
inductive RowMark
  | flap (s : FlapState)
  | flakyNotified (b : Bool)
deriving DecidableEq, Repr

/-- An alert in the queue. A `bad` also marks the open incident. -/
structure SiteAlert where
  kind : SiteKind
  marks : List RowMark := []
deriving DecidableEq, Repr

/-- `_flap_hist`. -/
def flapHist (m : SiteMon) (row : SiteRow) (now : Time) (status : CheckStatus) : Hist :=
  let lim := max stableN (3600 / max m.intervalSeconds 1 + 2)
  lastN (min lim 400) (row.samples.filter (·.1 < now)) ++ [(now, status)]

/-- The statuses that `_flaky_step` looks at: the failures of a closed episode do
not count a second time. -/
def flakyHist (m : SiteMon) (row : SiteRow) (now : Time) (status : CheckStatus) :
    List CheckStatus :=
  let prev := row.samples.filter fun e => e.1 < now &&
    match row.flap.cutoff with
    | some cut => cut < e.1
    | none => true
  (lastN (flakyWindow + max m.alertAfter 1) prev).map (·.2) ++ [status]

/-! ## One check -/

/-- The check failed: an incident, and an alert at the threshold. -/
def failStep (m : SiteMon) (row : SiteRow) (status : CheckStatus) (now : Time) (manual : Bool) :
    SiteRow × List SiteAlert :=
  let inc := row.inc.getD ⟨now, false⟩
  let threshold := max (if status = .degraded then m.degradedAfter else m.alertAfter) 1
  if !manual ∧ !inc.notified ∧ threshold ≤ row.consecutiveFails then
    if row.flap.level = some .down then ({ row with inc := some { inc with notified := true } }, [])
    else if row.flap.level = some .flaky ∧ now - inc.startedAt < worseAfter then
      ({ row with inc := some inc }, [])
    else ({ row with inc := some inc }, [⟨.bad, [.flap (.opened .down now)]⟩])
  else ({ row with inc := some inc }, [])

/-- The check went well: the incident ends, and so does the episode of a site
that has held out. -/
def upStep (m : SiteMon) (row : SiteRow) (now : Time) : SiteRow × List SiteAlert :=
  match row.inc with
  | some inc =>
    let row := { row with inc := none }
    if inc.notified then
      if row.flakySince.isSome || isFlapping (flapHist m row now .up) now then
        if row.flap.level = some .down then (row, [])
        else ({ row with flap := .opened .down now }, [])
      else ({ row with flap := .closed now }, [⟨.recovery, []⟩])
    else (row, [])
  | none =>
    if row.flap.level = some .down ∧ isStable (flapHist m row now .up) now then
      ({ row with flap := .closed now, flakySince := none, flakyNotified := false },
        [⟨.recstable, []⟩])
    else (row, [])

/-- The row with the start of "flaky" as the last checks have it. -/
def SiteRow.withFlaky (row : SiteRow) (nowFlaky : Bool) (now : Time) : SiteRow :=
  if nowFlaky && !row.flakySince.isSome then { row with flakySince := some now }
  else if row.flakySince.isSome && !nowFlaky then { row with flakySince := none }
  else row

/-- `_flaky_step`. -/
def flakyStep (m : SiteMon) (row : SiteRow) (status : CheckStatus) (now : Time) :
    SiteRow × List SiteAlert :=
  let nowFlaky := isFlaky (flakyHist m row now status) (max m.alertAfter 1) row.flakySince.isSome
  let row := row.withFlaky nowFlaky now
  let ep := row.flap.level
  if nowFlaky ∧ !row.flakyNotified ∧ ep ≠ none then ({ row with flakyNotified := true }, [])
  else if !nowFlaky ∧ row.flakyNotified ∧ ep = some .down then
    ({ row with flakyNotified := false }, [])
  else if nowFlaky ∧ !row.flakyNotified then
    (row, [⟨.flaky, [.flakyNotified true, .flap (.opened .flaky now)]⟩])
  else if !nowFlaky ∧ row.flakyNotified then
    (if ep = some .flaky then { row with flap := .closed now } else row,
      [⟨.flakyrec, [.flakyNotified false]⟩])
  else (row, [])

/-- The count of the failures in a row, which a manual check does not move. -/
def countFails (row : SiteRow) (status : CheckStatus) (manual : Bool) : SiteRow :=
  if status = .up then { row with consecutiveFails := 0 }
  else if !manual then { row with consecutiveFails := row.consecutiveFails + 1 }
  else row

/-- Without checks for `STABLE` the episode is forgotten. -/
def forgetEpisode (row : SiteRow) (now : Time) : SiteRow :=
  match row.lastCheckedAt with
  | some t => if row.flap.level ≠ none ∧ stableFor < now - t then { row with flap := .never } else row
  | none => row

/-- `record_outcome`, for the incident, the episode and their alerts. -/
def recordOutcome (m : SiteMon) (row : SiteRow) (status : CheckStatus) (now : Time)
    (manual : Bool) : SiteRow × List SiteAlert :=
  let row := forgetEpisode (countFails row status manual) now
  let (row, queue) := if status = .up then upStep m row now else failStep m row status now manual
  let (row, more) := if manual then (row, []) else flakyStep m row status now
  ({ row with
      lastStatus := some status
      lastCheckedAt := some now
      samples := row.samples ++ [(now, status)] }, queue ++ more)

/-! ## What `_send_alerts` does for one monitor -/

/-- What becomes of a batch: alerts are off, a message of the batch did not go
out (`reached` says which alerts of the monitor went out with the others), or
all of it went out but for the alerts that the settings keep back. -/
inductive Sending
  | off
  | failed (reached : SiteKind → Bool)
  | done (kept : SiteKind → Bool)

/-- A call of `_send_alerts`: whether the status for the retries could be read,
and the outcome. -/
structure SendIn where
  readable : Bool
  outcome : Sending

/-- What happens to the alerts of a monitor. -/
inductive SiteEvent
  /-- A check has queued the alert. -/
  | queued (kind : SiteKind)
  /-- It went out, and so did its whole batch. -/
  | out (kind : SiteKind)
  /-- It went out with a batch that failed, and comes again. -/
  | partly (kind : SiteKind)
deriving DecidableEq, Repr

/-- The monitor, the recovery that waits in the table of each process, and what
is not in the source: all that happened to its alerts. -/
structure SiteEpisode where
  row : SiteRow
  waits : Bool → Option (SiteKind × Time) := fun _ => none
  log : List SiteEvent := []

/-- `_with_retries` for one monitor: the recovery that joins the batch, and what
stays in the table. -/
def joinRetry (entry : Option (SiteKind × Time)) (queue : List SiteAlert) (now : Time)
    (readable : Bool) (last : Option CheckStatus) :
    List SiteAlert × Option (SiteKind × Time) :=
  match entry with
  | none => ([], none)
  | some (kind, since) =>
    if recRetryMax ≤ now - since then ([], none)
    else if queue.any (·.kind ∈ recoveryKinds) then ([], entry)
    else if !readable then ([], entry)
    else if last = some .up then ([⟨kind, []⟩], entry)
    else ([], none)

def setMark (row : SiteRow) : RowMark → SiteRow
  | .flap s => { row with flap := s }
  | .flakyNotified b => { row with flakyNotified := b }

/-- The commit of one alert. -/
def commitAlert (row : SiteRow) (a : SiteAlert) : SiteRow :=
  a.marks.foldl setMark <|
    if a.kind = .bad then { row with inc := row.inc.map fun i => { i with notified := true } }
    else row

/-- The batch of the monitor in a call of `_send_alerts`. -/
def batchOf (e : SiteEpisode) (manual : Bool) (queue : List SiteAlert) (now : Time) (d : SendIn) :
    List SiteAlert :=
  queue ++ (joinRetry (e.waits manual) queue now d.readable e.row.lastStatus).1

/-- The alerts of a batch that go out. -/
def Sending.told (o : Sending) (batch : List SiteAlert) : List SiteAlert :=
  match o with
  | .off => []
  | .failed reached => batch.filter fun a => reached a.kind
  | .done kept => batch.filter fun a => !kept a.kind

/-- And how they go out. -/
def Sending.event (o : Sending) (k : SiteKind) : SiteEvent :=
  match o with
  | .failed _ => .partly k
  | _ => .out k

/-- What the table of the process holds after the call. -/
def Sending.waits (o : Sending) (batch : List SiteAlert) (entry : Option (SiteKind × Time))
    (now : Time) : Option (SiteKind × Time) :=
  match o, (batch.filter (·.kind ∈ recoveryKinds)).getLast? with
  | .failed _, some a => some (entry.getD (a.kind, now))
  | .done _, some _ => none
  | _, _ => entry

/-- The row after the call: only a whole batch is marked. -/
def Sending.commit (o : Sending) (told : List SiteAlert) (row : SiteRow) : SiteRow :=
  match o with
  | .done _ => told.foldl commitAlert row
  | _ => row

/-- `_send_alerts` for one monitor, in the process of the checks or in that of the
button. -/
def SiteEpisode.send (e : SiteEpisode) (manual : Bool) (queue : List SiteAlert) (now : Time)
    (d : SendIn) : SiteEpisode :=
  let batch := batchOf e manual queue now d
  let told := d.outcome.told batch
  let entry := (joinRetry (e.waits manual) queue now d.readable e.row.lastStatus).2
  { row := d.outcome.commit told e.row
    waits := Function.update e.waits manual (d.outcome.waits batch entry now)
    log := e.log ++ queue.map (.queued ·.kind) ++ told.map (d.outcome.event ·.kind) }

/-- A check of the monitor, or a batch of others that is sent by one of the two
processes. -/
inductive EpisodeIn
  | check (status : CheckStatus) (now : Time) (manual : Bool) (d : SendIn)
  | resend (manual : Bool) (now : Time) (d : SendIn)

/-- The alerts that the input queues. -/
def SiteEpisode.queue (m : SiteMon) (e : SiteEpisode) : EpisodeIn → List SiteAlert
  | .check status now manual _ => (recordOutcome m e.row status now manual).2
  | .resend .. => []

def SiteEpisode.next (m : SiteMon) (e : SiteEpisode) : EpisodeIn → SiteEpisode
  | .check status now manual d =>
    let (row, queue) := recordOutcome m e.row status now manual
    if queue = [] then { e with row := row }
    else SiteEpisode.send { e with row := row } manual queue now d
  | .resend manual now d => e.send manual [] now d

end Kervax
