-- The monitors of one place in one message (`site_group.py` and `_site_groups`
-- of `collector.py`). A failure opens a group of its place or joins the open
-- one, and the recoveries of an announced group wait for each other.
import Kervax.SiteFlap
import Kervax.Grouping

namespace Kervax

open Grouping

/-! ## A group -/

/-- The sorts of failures that are grouped apart. -/
inductive PlaceLvl
  | flaky | down | slow
deriving DecidableEq, Repr

/-- `lvl_of`. -/
def placeLvlOf (kind : SiteKind) (status : String) : Option PlaceLvl :=
  match kind with
  | .flaky => some .flaky
  | .bad => some (if status = "degraded" then .slow else .down)
  | _ => none

/-- `JOIN`, `PARTIAL`. -/
def joinWindow : Time := sec (30 * 60)
def partialAfter : Time := sec 3600

/-- A monitor in the list of a group. -/
structure Member where
  name : String
  host : String
deriving DecidableEq, Repr

structure SiteGroup where
  id : Nat
  key : String
  lvl : PlaceLvl
  last : Time
  members : List (Nat × Member) := []
  ok : List (Nat × Time) := []
  solo : Bool := true
  first : String := ""
  kind : String := ""
  grp : String := ""
deriving DecidableEq, Repr

/-- The monitors of a group. -/
def SiteGroup.ids (g : SiteGroup) : List Nat := g.members.map Prod.fst

/-- `g["members"].setdefault` for each of them. -/
def SiteGroup.withMembers (g : SiteGroup) (ms : List (Nat × Member)) : SiteGroup :=
  { g with members := ms.foldl (fun l m => if m.1 ∈ l.map Prod.fst then l else l ++ [m]) g.members }

/-- The group with the last failure. -/
def latestGroup (groups : List SiteGroup) : Option SiteGroup :=
  groups.foldl (fun best g =>
    match best with
    | none => some g
    | some b => if b.last < g.last then some g else best) none

/-- `open_for`. -/
def openFor (groups : List SiteGroup) (key : String) (lvl : PlaceLvl) (now : Time) :
    Option SiteGroup :=
  latestGroup (groups.filter fun g => g.key = key ∧ g.lvl = lvl ∧ now - g.last ≤ joinWindow)

/-- `member_of`. -/
def memberOf (groups : List SiteGroup) (cid : Nat) : List SiteGroup :=
  groups.filter fun g => !g.solo && cid ∈ g.ids

/-- `ok_since`. -/
def SiteGroup.okSince (g : SiteGroup) (cid : Nat) (ok : Bool) (now : Time) :
    SiteGroup × Option Time :=
  if !ok then ({ g with ok := g.ok.filter (·.1 ≠ cid) }, none)
  else
    match g.ok.lookup cid with
    | some t => (g, some t)
    | none => ({ g with ok := g.ok ++ [(cid, now)] }, some now)

/-- `stale`. -/
def SiteGroup.stale (g : SiteGroup) (now : Time) : Bool :=
  g.members = [] ∨ (g.solo ∧ joinWindow < now - g.last)

/-! ## The texts of a batch -/

/-- What `src` and `places` know of a failure: its place, its sort and its
monitor. -/
structure PlaceSrc where
  key : String
  lvl : PlaceLvl
  cid : Nat
  mem : Member
deriving DecidableEq, Repr

/-- A text of the batch. `fold` lists the monitors that were folded into it. -/
structure SiteText where
  msg : Msg
  src : Option PlaceSrc := none
  fold : List (Nat × Member) := []
deriving DecidableEq, Repr

/-- The monitors that a message points at. -/
def Msg.checks (m : Msg) : List Nat :=
  match m.ref with
  | .chk ids => ids
  | _ => []

/-- How the panel words the messages of a group. -/
structure GroupWords where
  alert : SiteGroup → String
  back : SiteGroup → List String → List Member → String
  line : SiteGroup → String → String

/-- The monitors of a text with a source: its own and the folded ones. -/
def SiteText.members (t : SiteText) : List (Nat × Member) :=
  match t.src with
  | some s => (s.cid, s.mem) :: t.fold
  | none => t.fold

/-- The failures of one place and sort in this batch, with their indices. -/
abbrev PlaceBatch := (String × PlaceLvl) × List (SiteText × Nat)

/-- `by_place`. -/
def byPlace (texts : List SiteText) : List PlaceBatch :=
  groupsBy (fun e : SiteText × Nat => e.1.src.map fun s => (s.key, s.lvl)) texts.zipIdx

/-- `new_group`, and the fields of the first text. -/
def newGroup (id : Nat) (p : PlaceBatch) (now : Time) : SiteGroup :=
  match p.2.head? with
  | some (t, _) =>
    { id := id, key := p.1.1, lvl := p.1.2, last := now
      first := t.msg.target, kind := t.msg.kind, grp := t.msg.group }
  | none => { id := id, key := p.1.1, lvl := p.1.2, last := now }

/-- The group with the failures of the batch. -/
def SiteGroup.grown (g : SiteGroup) (p : PlaceBatch) (now : Time) : SiteGroup :=
  { g.withMembers (p.2.flatMap fun e => e.1.members) with last := now }

/-- The message of a group. -/
def groupMsg (w : GroupWords) (g : SiteGroup) (p : PlaceBatch) : Msg where
  text := w.alert g
  sect := "sites"
  group := g.grp
  kind := g.kind
  target := g.first
  ref := .chk g.ids
  parts := p.2.flatMap fun e => e.1.msg.partsOr

/-- What the loop over the places carries along: `drop` and `swap` by index, and
what goes only into the history. -/
structure Placing where
  groups : List SiteGroup
  next : Nat
  drop : List Nat := []
  swap : List (Nat × Msg) := []
  quiet : List Msg := []

/-- One place: its failures join the open group as lines of the message that was
sent, or they open a group. -/
def placeOne (w : GroupWords) (now : Time) (st : Placing) (p : PlaceBatch) : Placing :=
  match openFor st.groups p.1.1 p.1.2 now with
  | some old =>
    { st with
      groups := st.groups.map fun g =>
        if g.id = old.id then { g.grown p now with solo := false } else g
      drop := st.drop ++ p.2.map Prod.snd
      quiet := st.quiet ++ p.2.map (·.1.msg) }
  | none =>
    let g := (newGroup st.next p now).grown p now
    let st := { st with next := st.next + 1 }
    if 1 < p.2.length then
      let g := { g with solo := false }
      { st with
        groups := st.groups ++ [g]
        drop := st.drop ++ (p.2.map Prod.snd).tail
        swap := st.swap ++ (p.2.map fun e => (e.2, groupMsg w g p)).head?.toList }
    else { st with groups := st.groups ++ [g] }

/-- The recovery of monitors that all wait in announced groups is silent. -/
def silenced (groups : List SiteGroup) (m : Msg) : Bool :=
  m.recovery && m.checks ≠ [] && m.checks.all fun c => (memberOf groups c).any (·.kind = m.kind)

/-! ## The recoveries of the groups -/

/-- What is read of a monitor of a group. -/
structure CheckRow where
  enabled : Bool
  flap : FlapState
  flakyNotified : Bool
deriving DecidableEq, Repr

/-- Nothing of the row waits for a recovery: the monitor is gone or disabled, or no
episode is open. -/
def rowOk : Option CheckRow → Bool
  | none => true
  | some r => !r.enabled || (r.flap.level = none && !r.flakyNotified)

/-- `is_ok`. -/
def isOk (fails recs : List Nat) (db : Nat → Option CheckRow) (c : Nat) : Bool :=
  if c ∈ fails then false
  else if c ∈ recs then true
  else rowOk (db c)

/-- `ok_since` for each member. -/
def okSinceAll (g : SiteGroup) (ok : Nat → Bool) (now : Time) :
    SiteGroup × List (Nat × Option Time) :=
  g.ids.foldl (fun (g, oks) c =>
    let (g, t) := g.okSince c (ok c) now
    (g, oks ++ [(c, t)])) (g, [])

/-- The members that are reported now: all of them, or those that are well for
`PARTIAL`. -/
def readyOf (oks : List (Nat × Option Time)) (now : Time) : List Nat :=
  let good := oks.filterMap fun e => e.2.map fun t => (e.1, t)
  if good.length = oks.length then good.map Prod.fst
  else (good.filter fun e => partialAfter ≤ now - e.2).map Prod.fst

/-- The message of the members that are well again. -/
def backMsg (w : GroupWords) (g : SiteGroup) (ready : List Nat) : Msg :=
  let mems : List Member := ready.filterMap fun c => g.members.lookup c
  let left := (g.members.filter (·.1 ∉ ready)).map Prod.snd
  { text := w.back g (mems.map (·.host)) left
    sect := "sites"
    group := g.grp
    kind := g.kind
    target := g.first
    recovery := true
    parts := mems.map fun m =>
      { text := w.line g m.host, sect := "sites", group := g.grp, kind := g.kind, target := m.name
        recovery := true, ref := .empty } }

/-- One group after the batch: what stays of it, and its recovery. -/
def settleGroup (w : GroupWords) (ok : Nat → Bool) (now : Time) (g : SiteGroup) :
    Option SiteGroup × Option (Msg × List Nat) :=
  let (g, oks) := okSinceAll g ok now
  if g.solo then (if oks.all (·.2.isSome) then none else some g, none)
  else
    let ready := readyOf oks now
    if ready = [] then (some g, none)
    else
      let m := backMsg w g ready
      if g.members.all (·.1 ∈ ready) then (none, some (m, ready))
      else
        (some { g with
          members := g.members.filter (·.1 ∉ ready)
          ok := g.ok.filter (·.1 ∉ ready) }, some (m, ready))

/-! ## The whole batch -/

/-- What `_site_groups` returns: the messages, with the monitors that each of them
is about, what goes only into the history, and the groups to save once the
messages are out. -/
structure Grouped where
  out : List (Msg × List Nat)
  quiet : List Msg
  groups : List SiteGroup
  next : Nat

/-- The monitors with pending failures and recoveries, and their rows. -/
structure PlaceDb where
  fails : List Nat
  recs : List Nat
  row : Nat → Option CheckRow

/-- `_site_groups`. -/
def siteGroups (w : GroupWords) (groups : List SiteGroup) (next : Nat) (texts : List SiteText)
    (db : PlaceDb) (now : Time) : Grouped :=
  let st := (byPlace texts).foldl (placeOne w now) { groups := groups, next := next }
  let settled := st.groups.map (settleGroup w (isOk db.fails db.recs db.row) now)
  let sent := texts.zipIdx.filterMap fun (t, i) =>
    if i ∈ st.drop then none
    else if silenced st.groups t.msg then none
    else
      let m := (st.swap.lookup i).getD t.msg
      some (m, m.checks)
  { out := sent ++ settled.filterMap Prod.snd
    quiet := st.quiet
    groups := (settled.filterMap Prod.fst).filter fun g => !g.stale now
    next := st.next }

end Kervax
