-- Containers, pods and units at their own memory limit (`mem_limit.py`): the episode of each
-- key, and which keys are told, without the texts. Times are microseconds.
import Kervax.Podnames
import Kervax.Dict
import Kervax.Episodes
import Mathlib.Algebra.Order.Field.Rat
import Mathlib.Algebra.Order.Ring.Int
import Mathlib.Data.List.Sort
import Mathlib.Data.Char
import Mathlib.Data.List.Lex

namespace Kervax.MemLimit

open Kervax.Podnames (Text)

/-! ## The report -/

def seconds (n : Int) : Int := n * 1000000

/-- `HOT_RATIO`, `FULL_MIN`, `SOME_MIN`, `MF_MIN`, `RF_MIN`, `CRIT_FULL`. -/
def hotRatio : ℚ := 95 / 100
def fullMin : ℚ := 1
def someMin : ℚ := 5
def mfMin : ℚ := 50
def rfMin : ℚ := 2000
def critFull : ℚ := 10

/-- `HOLD_S`, `GAP_S`, `COOL_S`, `KEEP_S`. -/
def holdS : Int := seconds (10 * 60)
def gapS : Int := seconds (3 * 60)
def coolS : Int := seconds (15 * 60)
def keepS : Int := seconds 86400

/-- `_KIND`. -/
inductive Kind
  | container | pod | unit
deriving DecidableEq

/-- The numbers of a row; what is no number counts as zero. -/
structure Numbers where
  lim : ℚ
  cur : ℚ
  anon : ℚ := 0
  full : ℚ := 0
  f10 : ℚ := 0
  psiSome : ℚ := 0
  mf : ℚ := 0
  rf : ℚ := 0

/-- A row of `mem_limits`, of a known kind or of none; without a name it has the empty one. -/
structure Row where
  kind : Option Kind
  name : Text
  u : Text := []
  num : Numbers

/-- A row that counts. -/
structure Item where
  kind : Kind
  name : Text
  u : Text
  num : Numbers
  lim_pos : 0 < num.lim

/-- A pod of the cluster, with `ctrl` of the agent. -/
structure PodRow where
  ns : Text
  name : Text
  ctrl : Text

structure Report where
  memLimits : Option (List Row)
  pods : List PodRow := []

def Row.item (x : Row) : Option Item :=
  match x.kind with
  | none => none
  | some kind => if h : 0 < x.num.lim then some ⟨kind, x.name, x.u, x.num, h⟩ else none

/-- `block`: none of an old agent. -/
def block (rep : Report) : Option (List Item) := rep.memLimits.map fun rows => rows.filterMap Row.item

/-- `_ctrls`. -/
def ctrls (rep : Report) : List (Text × Text) :=
  (rep.pods.filter fun p => p.name ≠ [] ∧ p.ctrl ≠ []).foldl (fun out p =>
    Dict.put out ((if p.ns = [] then ['?'] else p.ns) ++ '/' :: p.name) p.ctrl) []

def nameOf (x : Item) (podNames : List (Text × Text)) : Text :=
  let name := if x.name = [] then ['?'] else x.name
  if x.kind = .pod ∧ "pod ".toList.isPrefixOf name ∧ x.u ≠ [] then
    (podNames.lookup x.u).getD name else name

def keyOf (x : Item) (name : Text) (ctrls : List (Text × Text)) : Text :=
  match x.kind with
  | .container => "docker:".toList ++ name
  | .unit => "unit:".toList ++ name
  | .pod =>
    if "pod ".toList.isPrefixOf name then "pod:?/".toList ++ name
    else Podnames.podKey ("pod:".toList ++ name) ((ctrls.lookup name).getD [])

/-- `hot`: at its limit and slowed down. -/
def hot (x : Item) : Bool :=
  hotRatio ≤ x.num.cur / x.num.lim &&
    (fullMin ≤ x.num.full || someMin ≤ x.num.psiSome && (mfMin ≤ x.num.mf || rfMin ≤ x.num.rf))

/-! ## The episodes -/

/-- `_snap`. -/
structure Snap where
  num : Numbers
  kind : Kind
  name : Text

/-- An episode: its start, its last sample at the limit, and that sample. -/
structure Episode where
  s : Int
  l : Int
  v : Snap

abbrev State := List (Text × Episode)

/-- `_active`. -/
def active (cs : Episode) (now : Int) : Bool := holdS ≤ cs.l - cs.s && now - cs.l ≤ coolS

/-- A sample at the limit begins an episode when the last one is over. -/
def sample (old : Option Episode) (t : Int) (v : Snap) : Episode :=
  match old with
  | none => ⟨t, t, v⟩
  | some cs => if gapS < t - cs.l ∧ active cs t = false then ⟨t, t, v⟩ else ⟨cs.s, t, v⟩

/-- What comes to the panel at a time, with the names of pods from the controllers' reports. -/
structure Event where
  rep : Report
  t : Int
  podNames : List (Text × Text) := []

/-- The key of a row in its report. -/
def Event.key (ev : Event) (x : Item) : Text := keyOf x (nameOf x ev.podNames) (ctrls ev.rep)

def Event.step (ev : Event) (new : State) (x : Item) : State :=
  if hot x then
    Dict.put new (ev.key x)
      (sample (Dict.get new (ev.key x)) ev.t ⟨x.num, x.kind, nameOf x ev.podNames⟩)
  else new

/-- `update`; none of an old agent. -/
def update (state : Option State) (ev : Event) : Option State :=
  (block ev.rep).map fun items =>
    items.foldl ev.step ((state.getD []).filter fun e => ev.t - e.2.l ≤ keepS)

/-! ## What is told -/

structure Server where
  alertMutes : List Text
  memlim : Option State
  lastReport : Option Report

def mutePrefix : Text := "memlim:".toList

/-- `decided`. -/
def decided (s : Server) : List Text :=
  (s.alertMutes.filter ( mutePrefix.isPrefixOf ·)).map fun m => m.drop mutePrefix.length

structure Problem where
  key : Text
  kind : Text
  name : Text
  level : Nat
  since : Int
  v : Snap
  decided : Bool

def shown (key : Text) : Text :=
  let name := Podnames.behind ':' key
  if "?/".toList.isPrefixOf name then name.drop 2 else name

/-- A key of the state, told with its episode. -/
def problem (s : Server) (now : Int) (withDecided : Bool) (k : Text) (cs : Episode) :
    Option Problem :=
  if active cs now = false ∨ Podnames.muted (decided s) k = true ∧ withDecided = false then none
  else some
    { key := k
      kind := Podnames.before ':' k
      name := shown k
      level := if critFull ≤ cs.v.num.full then 2 else 1
      since := if cs.s = 0 then now else cs.s
      v := cs.v
      decided := Podnames.muted (decided s) k }

/-- `sorted(st)`. -/
def sortedKeys (st : State) : List Text := (Dict.keys st).insertionSort (· ≤ ·)

def problems (s : Server) (now : Int) (withDecided : Bool) : List Problem :=
  match s.memlim, s.lastReport.bind block with
  | some st, some _ =>
    (sortedKeys st).filterMap fun k => (Dict.get st k).bind (problem s now withDecided k)
  | _, _ => []

/-- A report comes: an old agent leaves the episodes as they are. -/
def receive (s : Server) (ev : Event) : Server :=
  { s with lastReport := some ev.rep, memlim := (update s.memlim ev).or s.memlim }

/-- The panel after so many reports. -/
def after (mutes : List Text) (events : List Event) : Server :=
  events.foldl receive ⟨mutes, none, none⟩

end Kervax.MemLimit
