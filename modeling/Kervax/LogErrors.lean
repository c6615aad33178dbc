-- Errors in the logs of containers and pods (`log_errors.py`): what is a spike and what an
-- incident, what the panel remembers of each log, and which logs are told. The texts are left
-- out. Times are microseconds, the clock of a report is in seconds; the usual hour and the limits
-- are doubles, with the roundings of the source.
import Kervax.Doubles
import Kervax.Grouping
import Kervax.Kinds
import Kervax.Podnames
import Mathlib.Data.List.DropRight
import Mathlib.Data.List.Sort
import Mathlib.Data.Char
import Mathlib.Data.List.Lex

namespace Kervax.LogErrors

open Doubles (fl)
open Kervax.Podnames (Text)

/-! ## The report -/

/-- `LOG_MIN`, `LOG_X`, `LOG_NOBASE`, `LOG_HOT`, `LOG_HOT_MIN`. -/
def logMin : ℚ := 200
def logX : ℚ := 5
def logNoBase : ℚ := 20000
def logHot : ℚ := 20
def logHotMin : Nat := 1000

/-- `SUSTAIN`, `SUSTAIN_HELD`. -/
def sustain : Nat := 4
def sustainHeld : Nat := 3

/-- `BASE_SPAN`, `MAX_AGE` in seconds. -/
def baseSpan : Nat := 4 * 3600
def maxAge : ℚ := 600

/-- `TG_HOLD`, `EV_GAP`, `EV_KEEP`, `EV_MAX`. -/
def tgHold : Time := sec (2 * 3600)
def evGap : Time := sec 900
def evKeep : Time := sec 86400
def evMax : Nat := 5

/-- The log of a container; counts that are missing are zero, and an old helper sends no counts
for each ten minutes. -/
structure Source where
  where' : Text
  container : Text := []
  h1 : Nat
  d1 : Nat
  span : Nat
  hb : List Nat := []
deriving DecidableEq

/-- What the helper sent; `v` says that it is of the known version. -/
structure Block where
  v : Bool := true
  ts : ℚ
  sources : List Source

structure Report where
  clockUnix : ℚ
  logerr : Option Block
  pods : List Podnames.Pod := []

/-- `block`, when it is not too old by the clock of the report, or by the panel's. -/
def block (rep : Report) (utcnow : ℚ) : Option Block :=
  rep.logerr.filter fun b =>
    b.v && 0 < b.ts &&
      fl ((if rep.clockUnix ≠ 0 then rep.clockUnix else utcnow) - b.ts) ≤ maxAge

/-! ## Logs -/

/-- `where_text`. -/
def whereText (w : Text) : Text :=
  if "container ".toList.isPrefixOf w then "контейнер ".toList ++ w.drop 10
  else if "pod ".toList.isPrefixOf w then "под ".toList ++ w.drop 4
  else if w = [] ∨ w = "host".toList then "на хосте".toList
  else w

/-- `base`: the usual hour; none when the history is too short. -/
def base (src : Source) : Option ℚ :=
  let span := min src.span 86400
  if span < baseSpan then none
  else some (fl (((src.d1 - src.h1 : Nat) : ℚ) * 3600 / ((span : ℚ) - 3600)))

/-- A log, with the copies of a workload in one. -/
structure Log where
  where' : Text
  container : Text
  h1 : Nat
  hb : List Nat
  base : Option ℚ
deriving DecidableEq

def key (x : Log) : Text := whereText x.where' ++ '|' :: x.container

/-- The pod of a log by its workload. -/
def placed (ctrl : List (Text × Text)) (w : Text) : Text :=
  if "pod ".toList.isPrefixOf w ∧ '/' ∈ w then
    let ns := Podnames.before '/' (w.drop 4)
    let name := Podnames.behind '/' (w.drop 4)
    let of := (Dict.get ctrl ("pod:".toList ++ ns ++ '/' :: name)).getD []
    "pod ".toList ++ ns ++ '/' :: Podnames.workload name of
  else w

/-- The usual hour of some copies; that of a copy without a history is its last hour. -/
def baseOf (ms : List Source) : Option ℚ :=
  if ms.all fun m => (base m).isNone then none
  else some (Doubles.sumFrom 0 (ms.map fun m =>
    match base m with
    | some b => .float b
    | none => .int m.h1))

/-- The counts for each ten minutes, added up when all copies have as many. -/
def hbOf (ms : List Source) : List Nat :=
  match ms with
  | [] => []
  | m :: ms =>
    if (m :: ms).all fun h => h.hb ≠ [] ∧ h.hb.length = m.hb.length then
      ms.foldl (fun col h => List.zipWith (· + ·) col h.hb) m.hb
    else []

/-- The copies of a workload, or one log. -/
def merged (w c : Text) (ms : List Source) : Log :=
  match ms with
  | [m] => ⟨w, c, m.h1, m.hb, base m⟩
  | _ => ⟨w, c, (ms.map Source.h1).sum, hbOf ms, baseOf ms⟩

/-- `sources`. -/
def sources (rep : Report) (utcnow : ℚ) : List Log :=
  let ctrl := Podnames.ctrls rep.pods
  let raw := ((block rep utcnow).map Block.sources).getD []
  (Grouping.groupsBy (fun x => some (placed ctrl x.where', x.container)) raw).map fun g =>
    merged g.1.1 g.1.2 g.2

/-! ## Spikes -/

/-- `_sustained`. -/
def sustained (x : Log) (held : Bool) : Bool :=
  x.hb = [] ||
    let most := max logMin (match x.base with | none => logNoBase | some b => fl (logX * b))
    let need := fl (fl (most * (if held then 1 / 2 else 1)) / 6)
    (if held then sustainHeld else sustain) ≤ x.hb.countP fun v : Nat => need ≤ (v : ℚ)

/-- `spike`: 0 for none, 1 for a warning, 2 for a problem; half the limits for a log that was
told. -/
def spike (x : Log) (held : Bool := false) : Nat :=
  let k : ℚ := if held then 1 / 2 else 1
  if (x.h1 : ℚ) < logMin * k then 0
  else if (x.h1 : ℚ) < (match x.base with
      | none => logNoBase * k
      | some b => fl (fl (logX * b) * k)) then 0
  else if ¬ sustained x held then 0
  else
    match x.base with
    | none => 1
    | some b => if fl (logHot * b) ≤ x.h1 ∧ logHotMin ≤ x.h1 then 2 else 1

/-- `_hot`: an incident. -/
def hot (x : Log) : Bool := spike x = 2 && x.hb ≠ [] && x.base.isSome

/-! ## What is remembered -/

/-- A spike. -/
structure Ev where
  from' : Time
  to' : Time
  peak : Nat
  base : Option ℚ
  lvl : Nat
deriving DecidableEq

/-- What is remembered of a log: the minute of the last look, since when it is an incident, and
its spikes. -/
structure Entry where
  t : Int
  hot : Option Time
  ev : List Ev
deriving DecidableEq

abbrev State := List (Text × Entry)

def minute (now : Time) : Int := now / sec 60

/-- `round(b, 1)`. -/
def tenths (b : ℚ) : ℚ := fl (Doubles.roundHalf (b * 10) / 10)

/-- A look at a spike: it goes on the last one, or begins one. -/
def spiked (evs : List Ev) (x : Log) (now : Time) : List Ev :=
  match evs.getLast? with
  | none => [⟨now, now, x.h1, x.base.map tenths, spike x⟩]
  | some last =>
    if evGap < now - last.to' then evs ++ [⟨now, now, x.h1, x.base.map tenths, spike x⟩]
    else
      evs.dropLast ++
        [{ last with to' := now, peak := max last.peak x.h1, lvl := max last.lvl (spike x) }]

def fresh (now : Time) (evs : List Ev) : List Ev := evs.filter fun v => now - v.to' ≤ evKeep

/-- What a look at a log leaves of it. -/
def looked (e : Option Entry) (x : Log) (now : Time) : Entry :=
  let evs := ((e.map Entry.ev).getD [])
  let since := if hot x then e.bind Entry.hot else none
  if spike x = 0 then { t := minute now, hot := since, ev := (fresh now evs).rtake evMax }
  else
    { t := minute now
      hot := since.or (if hot x then some now else none)
      ev := (fresh now (spiked evs x now)).rtake evMax }

/-- A log is looked at once in a minute. -/
def look (now : Time) (st : State) (x : Log) : State :=
  if (Dict.get st (key x)).any fun e => e.t = minute now then st
  else Dict.put st (key x) (looked (Dict.get st (key x)) x now)

/-- What is left of a log that is not in the report. -/
def gone (now : Time) (e : Entry) : Entry := { e with hot := none, ev := fresh now e.ev }

def live (e : Entry) : Bool := e.ev ≠ [] || e.hot.isSome

/-- A report, when the panel looks at it. -/
structure Tick where
  rep : Report
  now : Time
  utcnow : ℚ

/-- `update`. -/
def update (st : State) (t : Tick) : State :=
  if (block t.rep t.utcnow).isNone then st
  else
    let xs := sources t.rep t.utcnow
    ((xs.foldl (look t.now) st).map fun p =>
      (p.1, if p.1 ∈ xs.map key then p.2 else gone t.now p.2)).filter fun p => live p.2

/-! ## What is told -/

/-- A mark "fixed" of a person (`alert_fixed["log_errors"]`). -/
structure FixedMark where
  at' : Option Time
  done : Bool

/-- What is read of a server. -/
structure Server where
  alertMutes : List Text := []
  alertSnoozes : List (Text × Time) := []
  sig : List Text := []
  fixed : Option FixedMark := none
  logerrEv : State := []
  lastReport : Report

def mutePrefix : Text := "logerr:".toList

/-- `norm_key`. -/
def normKey (k : Text) : Text :=
  let w := Podnames.before '|' k
  if "под ".toList.isPrefixOf w ∧ '/' ∈ w then
    let rest := w.drop 4
    "под ".toList ++ Podnames.before '/' rest ++
      '/' :: Podnames.workload (Podnames.behind '/' rest) [] ++ k.drop w.length
  else k

/-- `_muted`. -/
def muted (s : Server) (now : Time) : List Text :=
  let keys :=
    ((s.alertMutes ++ (s.alertSnoozes.filter fun p => now < p.2).map Prod.fst).filter
      ( mutePrefix.isPrefixOf ·)).map fun m => m.drop mutePrefix.length
  keys ++ keys.map normKey

/-- `_held`: what was told, unless a person said since that it is fixed. -/
def held (s : Server) : List Text :=
  if s.fixed.any fun ent => !ent.done then [] else s.sig.map normKey

/-- `_hot_for`. -/
def hotFor (s : Server) (k : Text) (now : Time) : Time :=
  match (Dict.get s.logerrEv k).bind Entry.hot with
  | none => 0
  | some since =>
    match s.fixed.bind FixedMark.at' with
    | none => now - since
    | some at' => now - (if since < at' then at' else since)

structure Problem where
  key : Text
  level : Nat
  hold : Time
  h1 : Nat
  base : Option ℚ
deriving DecidableEq

/-- A log that is told, if it is. -/
def problem (s : Server) (now : Time) (x : Log) : Option Problem :=
  let k := key x
  let lvl := spike x (k ∈ held s)
  if lvl = 0 ∨ k ∈ muted s now then none
  else if k ∉ held s ∧ (¬ hot x ∨ hotFor s k now < tgHold) then none
  else some ⟨k, lvl, hotFor s k now, x.h1, x.base⟩

/-- `problems`. -/
def problems (s : Server) (now : Time) (utcnow : ℚ) : List Problem :=
  ((sources s.lastReport utcnow).filterMap (problem s now)).insertionSort fun a b =>
    b.level < a.level ∨ a.level = b.level ∧ a.key ≤ b.key

end Kervax.LogErrors
