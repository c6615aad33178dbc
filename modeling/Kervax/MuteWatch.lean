-- The life of a server's mutes (`mute_watch.py`): what is known about the problem
-- under each of them, when a timed one is lifted, held or prolonged, and how the
-- decision is written (`snooze_put` of the collector).
import Kervax.Kinds
import Kervax.Dict

namespace Kervax.Mutes

/-! ## The mutes of a server -/

/-- `SERVER`: the key of the snooze of the whole server. -/
def serverKey : String := ""

/-- `QUIET_LIFT`, `HOLD_MIN`, `LEAD`, `HOLD_STEP`, `HOLD_RENEW`, `GONE`. -/
def quietLift : Time := sec 86400
def holdMin : Time := sec (86400 - 600)
def lead : Time := sec 600
def holdStep : Time := sec 86400
def holdRenew : Time := sec 3600
def gone : Time := sec 600

/-- `DECISIONS`: keys that are decisions and not muted alerts. -/
def decisions : List String :=
  ["access:", "exposed:", "cfip:", "memlim:", "dockrisk:", "noboot:", "osupd:", "swver:", "ssh:",
    "proxyold:", "bkhttp:", "home:"]

/-- `watched`. -/
def watched (k : String) : Bool :=
  k ≠ "" && !decisions.any fun d => d.toList.isPrefixOf k.toList

/-- `item`: a key of one thing and not of a kind. -/
def item (k : String) : Bool := k.toList.contains ':'

/-- `key.split("@", 1)[0]`. -/
def base (k : String) : String := String.ofList (k.toList.takeWhile (· ≠ '@'))

/-- The columns of the server: permanent mutes, snoozes with their terms, and the
term of the server's own snooze. -/
structure Row where
  mutes : List String := []
  snoozes : List (String × Time) := []
  snoozeUntil : Option Time := none
  nodup : (Dict.keys snoozes).Nodup := by decide

/-- The stored term of a key. -/
def Row.term (r : Row) (k : String) : Option Time :=
  if k = serverKey then r.snoozeUntil else r.snoozes.lookup k

/-- `keys`: the mutes in force, each with its term, or none if it is permanent; a
permanent one comes before a snooze. -/
def keys (r : Row) (now : Time) : List (String × Option Time) :=
  let server := (r.snoozeUntil.filter (now < ·)).toList.map fun u => (serverKey, some u)
  let timed := (r.snoozes.filter fun s => watched s.1 ∧ now < s.2).map fun s => (s.1, some s.2)
  (r.mutes.filter watched).foldl (fun out k => Dict.put out k none) (server ++ timed)

/-! ## What is known -/

/-- `alert_state["mute_live"]` for one key: whether the problem is there and since
when, what it is, when the panel first saw the term and the term. -/
structure Entry where
  on : Option Bool := none
  t : Option Time := none
  w : Option String := none
  seen : Option Time := none
  u : Option Time := none
deriving DecidableEq, Repr

abbrev Live := List (String × Entry)

/-- The term of an entry; a new term is seen now, or at a time unknown. -/
def Entry.termed (old : Option Entry) (first : Bool) (term : Option Time) (now : Time) : Entry :=
  match old with
  | none => { seen := if first then none else some now, u := term }
  | some e => if e.u ≠ term then { e with seen := if first then none else some now, u := term } else e

/-- What is judged of an entry; without a judgement all stays. -/
def Entry.judged (e : Entry) (j : Option (Bool × String)) (now : Time) : Entry :=
  match j with
  | none => e
  | some (on, w) =>
    let marked := if e.on ≠ some on ∨ e.t = none then { e with on := some on, t := some now } else e
    { marked with w := if on ∧ w ≠ "" then some w else none }

/-- `live_step`. -/
def liveStep (prev : Option Live) (cur : List (String × Option Time))
    (judged : String → Option (Bool × String)) (now : Time) : Live :=
  cur.map fun (k, term) =>
    (k, (Entry.termed ((prev.getD []).lookup k) prev.isNone term now).judged (judged k) now)

/-! ## Holds -/

/-- A condition of the server: its level, the level before the mutes, and whom it
is about. -/
structure Cond where
  level : Nat
  raw : Nat := 0
  sig : Option (List String) := none
deriving DecidableEq, Repr

/-- `_lvl`. -/
def Cond.lvl (c : Cond) : Nat := max c.level c.raw

/-- What was there when a hold began. -/
structure Snap where
  kinds : List (String × Nat) := []
  lvl : Nat := 0
  sig : Option (List String) := none
deriving DecidableEq, Repr

abbrev Conds := List (String × Cond)

/-- `snapshot`. -/
def snapshot (k : String) (conds : Conds) : Snap :=
  if k = serverKey then
    { kinds := (conds.filter fun c => 0 < c.2.lvl).map fun c => (c.1, c.2.lvl) }
  else if item k then {}
  else
    match conds.lookup (base k) with
    | some c => { lvl := c.lvl, sig := c.sig }
    | none => {}

def sortTexts (l : List String) : List String := l.mergeSort fun a b => decide (a ≤ b)

/-- `worse`: what is worse than in the snapshot. -/
def worse (k : String) (snap : Snap) (conds : Conds) : Option String :=
  if k = serverKey then
    let up := conds.filter fun c => (snap.kinds.lookup c.1).getD 0 < c.2.lvl
    if up = [] then none
    else some ("новое: " ++ String.intercalate ", " (sortTexts (up.map Prod.fst)))
  else if item k then none
  else
    match conds.lookup (base k) with
    | none => none
    | some c =>
      if snap.lvl < c.lvl then some "уровень выше"
      else
        match c.sig, snap.sig with
        | some sig, some was =>
          let more := sig.filter fun x => !was.contains x
          if more = [] then none
          else some ("новое: " ++ String.intercalate ", " ((sortTexts more.dedup).take 3))
        | _, _ => none

/-- `alert_state["mute_over"]` for one key. -/
structure Hold where
  at_ : Time
  ext : Time
  snap : Snap
deriving DecidableEq, Repr

/-! ## Decisions -/

inductive Why
  | prolong
  | gone
  | worse (what : String)
  | quiet
deriving DecidableEq, Repr

/-- The line in the journal. -/
def Why.text : Why → String
  | .prolong => ""
  | .gone => "заглушка снята: проблема ушла"
  | .worse what => "заглушка снята: стало хуже (" ++ what ++ ")"
  | .quiet => "заглушка снята: проблемы нет уже сутки"

/-- A decision about the term of a key: the term that must stand, the new one or
none, and why. -/
structure Action where
  key : String
  expect : Time
  new : Option Time
  why : Why
deriving DecidableEq, Repr

/-- What the decisions of one tick read. -/
structure View where
  live : Live
  conds : Conds
  stored : String → Option Time
  now : Time
  lift : Bool

def View.entry (v : View) (k : String) : Entry := (v.live.lookup k).getD {}

/-- The problem has been absent so long by its mark. -/
def Entry.absentFor (e : Entry) (now span : Time) : Bool :=
  e.on = some false ∧ e.t.any fun t => span ≤ now - t

/-- The first loop of `plan`, for one hold: what is left of it, and the decision. -/
def planHold (v : View) (k : String) (o : Hold) : Option Hold × Option Action :=
  if v.stored k ≠ some o.ext then (none, none)
  else if (v.entry k).absentFor v.now gone then (none, some ⟨k, o.ext, none, .gone⟩)
  else
    match worse k o.snap v.conds with
    | some what => (none, some ⟨k, o.ext, none, .worse what⟩)
    | none =>
      if o.ext - v.now < holdRenew then
        (some { o with ext := v.now + holdStep }, some ⟨k, o.ext, some (v.now + holdStep), .prolong⟩)
      else (some o, none)

/-- The term was long when the panel first saw it, or it was there before. -/
def Entry.long (e : Entry) (u : Time) : Bool := e.seen.all fun seen => holdMin ≤ u - seen

/-- The second loop of `plan`, for a term in force without a hold. -/
def planTerm (v : View) (k : String) (u : Time) : Option Hold × Option Action :=
  let e := v.entry k
  if e.on = some true then
    if e.long u ∧ u - v.now ≤ lead then
      (some ⟨u, u + holdStep, snapshot k v.conds⟩, some ⟨k, u, some (u + holdStep), .prolong⟩)
    else (none, none)
  else if v.lift ∧ e.absentFor v.now quietLift then (none, some ⟨k, u, none, .quiet⟩)
  else (none, none)

abbrev Over := List (String × Hold)

/-- The holds that go on. -/
def heldOver (v : View) (muteOver : Over) : Over := Dict.choose (fun k o => (planHold v k o).1) muteOver

/-- The terms in force that have no hold. -/
def openTerms (v : View) (cur : List (String × Option Time)) (muteOver : Over) : List (String × Time) :=
  Dict.choose (fun k term => if ((heldOver v muteOver).lookup k).isSome then none else term) cur

/-- `plan`: the new `mute_over`, and the decisions. -/
def plan (v : View) (cur : List (String × Option Time)) (muteOver : Over) : Over × List Action :=
  (heldOver v muteOver ++ Dict.choose (fun k u => (planTerm v k u).1) (openTerms v cur muteOver),
    muteOver.filterMap (fun o => (planHold v o.1 o.2).2) ++
      (openTerms v cur muteOver).filterMap fun u => (planTerm v u.1 u.2).2)

/-! ## The write -/

/-- `d.pop(k)`. -/
def dropKey (d : List (String × Time)) (k : String) : List (String × Time) := d.filter fun p => p.1 ≠ k

theorem nodup_dropKey {d : List (String × Time)} (h : (Dict.keys d).Nodup) (k : String) :
    (Dict.keys (dropKey d k)).Nodup :=
  (List.filter_sublist.map Prod.fst).nodup h

/-- The new term of a key. -/
def Row.setTerm (r : Row) (k : String) (new : Option Time) : Row :=
  if k = serverKey then { r with snoozeUntil := new }
  else
    match new with
    | none => { r with snoozes := dropKey r.snoozes k, nodup := nodup_dropKey r.nodup k }
    | some u => { r with snoozes := Dict.put r.snoozes k u, nodup := Dict.nodup_put r.nodup k u }

/-- One turn of `snooze_put`: written only over the term that the decision is
about. -/
def snoozePut (r : Row) (a : Action) : Row :=
  if r.term a.key ≠ some a.expect then r else r.setTerm a.key a.new

/-! ## Ticks and edits -/

/-- One tick: the moment, whether the node talks, what is judged of each key then,
and the conditions. -/
structure Tick where
  now : Time
  talking : Bool := true
  judged : String → Option (Bool × String) := fun _ => none
  conds : Conds := []

/-- A silent node is not judged. -/
def Tick.heard (t : Tick) (k : String) : Option (Bool × String) :=
  if t.talking then t.judged k else none

/-- A tick with the row that it read. -/
structure Look where
  tick : Tick
  row : Row

/-- The term with which a key was in force at a look. -/
def Look.term (l : Look) (k : String) : Option (Option Time) := (keys l.row l.tick.now).lookup k

/-- The server and the stored state; `looks` are the ticks so far, the last one
first. -/
structure State where
  row : Row := {}
  live : Option Live := none
  muteOver : Over := []
  looks : List Look := []

/-- `live_step` of a tick. -/
def liveAt (s : State) (t : Tick) : Live := liveStep s.live (keys s.row t.now) t.heard t.now

def viewAt (s : State) (t : Tick) : View :=
  { live := liveAt s t, conds := t.conds, stored := s.row.term, now := t.now, lift := t.talking }

/-- `mute_life`: the decisions of a tick. -/
def planAt (s : State) (t : Tick) : Over × List Action :=
  plan (viewAt s t) (keys s.row t.now) s.muteOver

/-- What happens to a server: a tick, with the row as it is found at the commit if
someone has changed it since it was read, or a change by hand. -/
inductive Input
  | tick (t : Tick) (found : Option Row)
  | edit (row : Row)

def next (s : State) (i : Input) : State :=
  match i with
  | .edit row => { s with row := row }
  | .tick t found =>
    { row := (planAt s t).2.foldl snoozePut (found.getD s.row)
      live := some (liveAt s t)
      muteOver := (planAt s t).1
      looks := ⟨t, s.row⟩ :: s.looks }

end Kervax.Mutes
