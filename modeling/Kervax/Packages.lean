-- The journal of package installs on the panel (`packages.py`): which lines of a report are
-- new, how they are cut into runs of apt, and the events of the timeline that they make. The
-- clock is in whole seconds: the code truncates both bounds that it takes from it.
import Kervax.ClientIp
import Kervax.Clusters
import Kervax.Dict
import Kervax.Texts

namespace Kervax.Packages

/-! ## Lines -/

def MAX_EVENTS : Nat := 500
def RUN_GAP : Int := 180
def KEEP : Int := 90 * 86400

/-- A line of the journal as the agent sends it; a version that is left out is empty. -/
structure Line where
  t : Int
  a : String
  p : String
  o : String
  n : String
deriving DecidableEq

inductive Act
  | install | upgrade | remove
deriving DecidableEq

/-- `_ACT`. -/
def act : String → Option Act
  | "install" => some .install
  | "upgrade" => some .upgrade
  | "remove" => some .remove
  | "purge" => some .remove
  | _ => none

/-- `s[:n]`. -/
def cut (n : Nat) (s : String) : String := String.ofList (s.toList.take n)

def Line.name (e : Line) : String := cut 200 e.p

def Line.key (e : Line) : String := e.a ++ "|" ++ e.name ++ "|" ++ e.o ++ "|" ++ e.n

/-- A package in an event: what was done with it, the version before and the one after. -/
structure Item where
  a : Act
  p : String
  o : String
  n : String
deriving DecidableEq

/-- The line as an item; `none` where it has no known action or no name. -/
def Line.item (e : Line) : Option Item :=
  (act e.a).bind fun a =>
    if e.name = "" then none else some { a, p := e.name, o := cut 120 e.o, n := cut 120 e.n }

/-! ## What is new in a report -/

/-- The row of a server: the time of the last line that was taken, and the lines of that time. -/
structure Row where
  evTs : Int
  evKeys : List String
deriving DecidableEq

def Row.new : Row := ⟨0, []⟩

/-- The variables of the loop of `store_events`. -/
structure Scan where
  last : Int
  keys : List String
  fresh : List Line
deriving DecidableEq

/-- The line has an action and a name, and is neither too old nor in the future. -/
def Line.fits (now : Int) (e : Line) : Bool :=
  e.item.isSome && now - KEEP ≤ e.t && e.t ≤ now + 3600

def Scan.seen (s : Scan) (e : Line) : Bool := e.t < s.last || (e.t = s.last && e.key ∈ s.keys)

/-- One turn of the loop. -/
def Scan.look (now : Int) (s : Scan) (e : Line) : Scan :=
  if e.fits now then
    if s.seen e then s
    else
      { last := max s.last e.t
        keys := (if s.last < e.t then [] else s.keys).insert e.key
        fresh := s.fresh ++ [e] }
  else s

def scan (r : Row) (now : Int) (events : List Line) : Scan :=
  (Clusters.sorted Line.t (events.take MAX_EVENTS)).foldl (Scan.look now) ⟨r.evTs, r.evKeys, []⟩

/-- `sorted(keys)[:300]`. -/
def keepKeys (keys : List String) : List String := (keys.insertionSort (· ≤ ·)).take 300

def Scan.row (s : Scan) : Row := ⟨s.last, keepKeys s.keys⟩

/-! ## Runs of apt -/

/-- A line goes to the last run if it comes soon after its last line. -/
def grow (runs : List (List Line)) (e : Line) : List (List Line) :=
  match runs.getLast? with
  | some run =>
    if ∃ l ∈ run.getLast?, e.t - l.t ≤ RUN_GAP then runs.dropLast ++ [run ++ [e]] else runs ++ [[e]]
  | none => [[e]]

def runs (fresh : List Line) : List (List Line) := fresh.foldl grow []

/-! ## The items of a run -/

/-- `a or b` of texts. -/
def orText (a b : String) : String := if a = "" then b else a

/-- One turn of `_merge`. -/
def mergeItem (seen : List (String × Item)) (i : Item) : List (String × Item) :=
  match Dict.get seen i.p with
  | none => Dict.put seen i.p i
  | some cur =>
    if i.a = .remove then
      Dict.put seen i.p { a := .remove, p := i.p, o := orText cur.o i.o, n := "" }
    else
      Dict.put seen i.p { a := if cur.a = .install then cur.a else i.a, p := i.p, o := cur.o, n := i.n }

/-- `_merge`: one item for each package of a run. -/
def merge (old new : List Item) : List Item := ((old ++ new).foldl mergeItem []).map Prod.snd

/-! ## The text of an event -/

/-- `_LABEL`. -/
def label : Act → String
  | .upgrade => "обновлены"
  | .install => "установлены"
  | .remove => "удалены"

/-- A package of a short list. -/
def Item.line (i : Item) : String :=
  if i.a = .upgrade then i.p ++ " " ++ i.o ++ " -> " ++ i.n
  else String.ofList (Texts.stripBy isSpace (i.p ++ " " ++ orText i.n i.o).toList)

def shown (grp : List Item) : String :=
  if grp.length ≤ 2 then ", ".intercalate (grp.map Item.line)
  else ", ".intercalate ((grp.take 4).map Item.p) ++
    if 4 < grp.length then " и еще " ++ toString (grp.length - 4) else ""

/-- The part of a text about one action. -/
def part (items : List Item) (a : Act) : Option String :=
  let grp := items.filter (·.a = a)
  if grp = [] then none
  else some (label a ++ " (" ++ toString grp.length ++ "): " ++ shown grp)

/-- `_text`. -/
def text (items : List Item) : String :=
  "пакеты: " ++ "; ".intercalate ([Act.upgrade, .install, .remove].filterMap (part items))

/-! ## The timeline -/

/-- An event of the timeline. -/
structure Event where
  ts : Int
  text : String
  n : Nat
  data : List Item
deriving DecidableEq

/-- The event that a run makes, ended at the time of its last line. -/
def event (ts : Int) (data : List Item) : Event := { ts, text := text data, n := data.length, data }

/-- The query for the event that a run goes on: the last one from `lo` to `hi`, with its place. -/
def prevEvent (events : List Event) (lo hi : Int) : Option (Event × Nat) :=
  ((events.zipIdx.filter fun e => lo ≤ e.1.ts && e.1.ts ≤ hi).insertionSort
    fun a b => b.1.ts ≤ a.1.ts).head?

/-- The items of a run. -/
def items (run : List Line) : List Item := run.filterMap Line.item

/-- A run goes to the event before it if that ended shortly before, else it is a new one. -/
def storeRun (events : List Event) (run : List Line) : List Event :=
  match run.head?, run.getLast? with
  | some first, some last =>
    match prevEvent events (first.t - RUN_GAP) last.t with
    | some (prev, i) => events.set i (event last.t (merge prev.data (items run)))
    | none => events ++ [event last.t (merge [] (items run))]
  | _, _ => events

/-- What the panel has of the journal of a server. -/
structure Panel where
  row : Row
  events : List Event
deriving DecidableEq

def Panel.new : Panel := ⟨.new, []⟩

/-- `store_events`. -/
def storeEvents (s : Panel) (now : Int) (lines : List Line) : Panel :=
  let found := scan s.row now lines
  { row := found.row, events := (runs found.fresh).foldl storeRun s.events }

end Kervax.Packages
