-- Queues that grow and are not drained (`queue_watch.py`): the move of each queue, when
-- its alert condition holds, and which queues are told, without the texts. Times are whole
-- seconds, names are ASCII; a tenth of the peak is exact, as the float is below 10^15.
import Kervax.Dict
import Mathlib.Data.List.Sort
import Mathlib.Algebra.Order.Ring.Int

namespace Kervax.QueueWatch

/-! ## The move of a queue -/

/-- `STUCK_S`, `GROW_MIN`, `SLOW_S`, `SLOW_GROW`. -/
def stuckS : Int := 1800
def growMin : Int := 100
def slowS : Int := 3 * 3600
def slowGrow : Int := 5
/-- `HOLD_S`, `PULL_KEEP`, `BASE_DAYS`, `BASE_X`. -/
def holdS : Int := 600
def pullKeep : Int := 7 * 86400
def baseDays : Int := 7
def baseX : Int := 2
/-- `AGE_S`, `STALL_S`, `MIN_DEPTH`, `GAP_S`, `KEEP_S`. -/
def ageS : Int := 3600
def stallS : Int := 1800
def minDepth : Int := 100
def gapS : Int := 600
def keepS : Int := 3600

/-- An entry of `qwatch`; the days of `dm` are numbers of days. -/
structure Entry where
  t0 : Int
  d0 : Int
  p : Int
  nd : Bool
  last : Int
  seen : Int
  oc : Option Int
  ocs : Option Int
  c : Option Int
  z0 : Option Int
  zd : Option Int
  zc : Option Int
  dm : List (Int × Int)
  bad : Option Int

/-- What is truthy: a number that is there and not zero. -/
def truthy (o : Option Int) : Option Int := o.filter (· ≠ 0)

/-- `int(e.get(key) or 0)`. -/
def orZero (o : Option Int) : Int := o.getD 0

/-- `x or y` of a number that is there. -/
def orElse (x y : Int) : Int := if x = 0 then y else x

def gap (e : Option Entry) (ts : Int) : Bool := e.all fun e => gapS < ts - e.seen

/-- The depth is below the peak by more than `max(DIP_ABS, DIP_REL * p)`. -/
def dipped (p d : Int) : Bool := 10 * d < 10 * p - max 50 p

def dip (e : Option Entry) (d ts : Int) : Bool := !gap e ts && e.any fun e => dipped e.p d

/-- The entry of the report before, where no gap is between. -/
def prevOf (e : Option Entry) (ts : Int) : Option Entry := if gap e ts then none else e

def fresh (prev : Option Entry) (d ts : Int) : Entry :=
  { t0 := ts, d0 := d, p := d, nd := true, last := d, seen := ts, oc := none, ocs := none,
    c := none, z0 := none, zd := none, zc := none, dm := [],
    bad := prev.bind fun e => truthy e.bad }

def goesOn (e : Entry) (d ts : Int) : Entry :=
  { e with p := max e.p d, nd := e.nd && e.last ≤ d, last := d, seen := ts }

/-- The new move at a gap or a dip, else the old one goes on. -/
def moved (e : Option Entry) (d ts : Int) : Entry :=
  match e with
  | none => fresh none d ts
  | some e =>
    if gap (some e) ts || dip (some e) d ts then fresh (prevOf (some e) ts) d ts
    else goesOn e d ts

/-- Since when the oldest task is the same. -/
def sameSince (prev : Option Entry) (oldest : Option Int) (ts : Int) : Option Int :=
  (truthy oldest).map fun o =>
    match prev.bind fun e => if e.oc = some o then truthy e.ocs else none with
    | some since => since
    | none => ts

/-- The series of reports without consumers that goes on: its start and its depth. -/
def zeroSeries (prev : Option Entry) : Option (Int × Int) :=
  prev.bind fun e => if e.c = some 0 then (truthy e.z0).map fun z => (z, orZero e.zd) else none

def zeroStart (prev : Option Entry) (consumers : Option Int) (d ts : Int) : Option (Int × Int) :=
  if consumers = some 0 then some ((zeroSeries prev).getD (ts, d)) else none

/-- The queue went down while nobody consumed it. -/
def pulled (prev : Option Entry) (consumers : Option Int) (d : Int) : Bool :=
  consumers = some 0 && prev.any fun e => e.c = some 0 && d < e.last

def day (ts : Int) : Int := ts / 86400

/-- The peaks by days of the last week, with that of a move that a dip has ended. -/
def peaks (e : Option Entry) (d ts : Int) : List (Int × Int) :=
  let dm := ((e.map Entry.dm).getD []).filter fun kv => 0 ≤ kv.1 && day ts - baseDays ≤ kv.1
  match e with
  | some e =>
    if dip (some e) d ts then Dict.put dm (day ts) (max ((dm.lookup (day ts)).getD 0) e.p) else dm
  | none => dm

def pulledAt (e prev : Option Entry) (consumers : Option Int) (d ts : Int) : Option Int :=
  let zc := if pulled prev consumers d then ts else orZero (e.bind Entry.zc)
  if zc ≠ 0 ∧ ts - zc ≤ pullKeep then some zc else none

def step (e : Option Entry) (d ts : Int) (oldest consumers : Option Int) : Entry :=
  { moved e d ts with
    oc := truthy oldest
    ocs := sameSince (prevOf e ts) oldest ts
    c := consumers
    z0 := (zeroStart (prevOf e ts) consumers d ts).map Prod.fst
    zd := (zeroStart (prevOf e ts) consumers d ts).map Prod.snd
    dm := peaks e d ts
    zc := pulledAt e (prevOf e ts) consumers d ts }

/-! ## The condition -/

inductive Kind
  | none
  | nocons
  | slow
  | grow
  | stall
  deriving DecidableEq

/-- The median of the peaks of a week. -/
def usual (e : Entry) (ts : Int) : Option Int :=
  let vals := ((e.dm.filter fun kv => 0 ≤ kv.1 && day ts - baseDays ≤ kv.1).map
    Prod.snd).insertionSort (· ≤ ·)
  vals[vals.length / 2]?

def pull (e : Entry) (ts : Int) : Bool := (truthy e.zc).any fun zc => ts - zc ≤ pullKeep

/-- `MIN_DEPTH // 2 if held else MIN_DEPTH`. -/
def depthFrom (held : Bool) : Int := if held then minDepth / 2 else minDepth

/-- There is no entry of late, or the queue is too short to be judged. -/
def unjudged (e : Entry) (d ts : Int) (held : Bool) : Bool :=
  gapS < ts - e.seen || d < depthFrom held

def growsSlow (e : Entry) (d ts : Int) : Bool :=
  slowS ≤ ts - orElse e.t0 ts && e.nd && slowGrow ≤ d - e.d0

/-- A rush within what is usual for the queue. -/
def withinUsual (e : Entry) (d ts : Int) (held : Bool) : Bool :=
  (usual e ts).any fun base => if held then d < base else d < baseX * base

def growsLong (e : Entry) (d ts : Int) (held : Bool) : Bool :=
  stuckS ≤ ts - orElse e.t0 ts && (if held then growMin / 2 else growMin) ≤ d - e.d0

/-- Nobody consumes the queue, and it has grown since. -/
def noConsumers (e : Entry) (d ts : Int) (consumers : Option Int) : Bool :=
  consumers = some 0 && (truthy e.z0).isSome && !pull e ts && slowGrow ≤ d - orZero e.zd

def why (e : Option Entry) (d ts : Int) (consumers : Option Int) (held : Bool) : Kind × Int :=
  match e with
  | .none => (.none, 0)
  | some e =>
    if unjudged e d ts held then (.none, 0)
    else if noConsumers e d ts consumers then (.nocons, ts - orZero e.z0)
    else if growsSlow e d ts then (.slow, ts - orElse e.t0 ts)
    else if withinUsual e d ts held then (.none, 0)
    else if growsLong e d ts held then (.grow, ts - orElse e.t0 ts)
    else (.none, 0)

def stalled (e : Option Entry) (d ts : Int) (held : Bool) : Int :=
  match e with
  | none => 0
  | some e =>
    if unjudged e d ts held then 0
    else if orZero e.oc = 0 ∨ orZero e.ocs = 0 ∨ ts - orZero e.oc < ageS ∨
        ts - orZero e.ocs < stallS then 0
    else ts - orZero e.oc

/-! ## All queues of a server -/

structure Queue where
  key : String
  name : String
  source : String
  depth : Int
  consumers : Option Int
  oldest : Option Int

abbrev Watch := List (String × Entry)

/-- The alert condition of a queue, as the report at `ts` finds it. -/
def stands (e : Entry) (q : Queue) (ts : Int) (held : Bool) : Bool :=
  (why (some e) q.depth ts q.consumers held).1 ≠ .none || stalled (some e) q.depth ts held ≠ 0

/-- `bad` goes on, or starts now, where the condition holds. -/
def judged (e : Entry) (q : Queue) (ts : Int) (held : Bool) : Entry :=
  { e with bad := if stands e q ts held then some ((truthy e.bad).getD ts) else none }

def stepOf (e : Option Entry) (q : Queue) (ts : Int) : Entry :=
  step e q.depth ts q.oldest q.consumers

def queueTurn (ts : Int) (held : List String) (st : Watch) (q : Queue) : Watch :=
  Dict.put st q.key (judged (stepOf (st.lookup q.key) q ts) q ts (q.key ∈ held))

/-- What is remembered: a week where something is known of the queue, else an hour. -/
def remembered (ts : Int) (e : Entry) : Bool :=
  ts - e.seen ≤
    if e.dm ≠ [] ∨ (truthy e.zc).isSome = true then baseDays * 86400 else keepS

def update (st : Watch) (queues : List Queue) (ts : Int) (held : List String) : Watch :=
  queues.foldl (queueTurn ts held) (st.filter fun kv => remembered ts kv.2)

/-! ## What is told -/

structure Problem where
  key : String
  name : String
  source : String
  age : Int
  d0 : Int
  depth : Int
  consumers : Option Int
  wait : Int
  stall : Bool
  kind : Kind
  base : Option Int
  since : Int

def problemOf (e : Entry) (q : Queue) (ts : Int) (held : Bool) : Problem :=
  let w := why (some e) q.depth ts q.consumers held
  let since := if w.2 ≠ 0 then ts - w.2 else orElse (orZero e.ocs) ts
  { key := q.key, name := q.name, source := q.source
    age := if w.2 ≠ 0 then w.2 else ts - since
    d0 := if w.1 = .nocons then orZero e.zd else e.d0
    depth := q.depth, consumers := q.consumers
    wait := match q.oldest with
      | some o => if o ≠ 0 ∧ o < ts then ts - o else 0
      | none => 0
    stall := w.2 = 0, kind := if w.2 ≠ 0 then w.1 else .stall, base := usual e ts, since := since }

def separator (c : Char) : Bool := c = '.' || c = '_' || c = ':' || c = '-'

def deadWords : List String :=
  ["dlq", "dlx", "dead", "deadletter", "dead_letter", "dead-letter", "failed", "parking"]

/-- `$`: the end, or a newline before it. -/
def ended (s : List Char) : Bool := s = [] || s = ['\n']

/-- Dead letters and service queues: `_SKIP.search(name)`. -/
def skipped (name : String) : Bool :=
  let s := name.toList.map Char.toLower
  (':' :: s).tails.any (fun t =>
    match t with
    | c :: rest => separator c && deadWords.any fun w => w.toList.isPrefixOf rest &&
        (ended (rest.drop w.length) || (rest.drop w.length).head?.any separator)
    | [] => false) ||
  s.tails.any (fun t => ".pidbox".toList.isPrefixOf t && ended (t.drop 7)) ||
  "celeryev.".toList.isPrefixOf s || "amq.".toList.isPrefixOf s ||
  s.tails.any (".reply-".toList.isPrefixOf ·) || "reply.".toList.isPrefixOf s ||
  "reply_".toList.isPrefixOf s || "reply-".toList.isPrefixOf s

/-- The condition holds, and has been held for `HOLD_S` unless the queue was told already. -/
def told (e : Option Entry) (q : Queue) (ts : Int) (held : Bool) : Bool :=
  ((why e q.depth ts q.consumers held).2 ≠ 0 || stalled e q.depth ts held ≠ 0) &&
    (held || e.any fun e => holdS ≤ ts - (truthy e.bad).getD ts)

def stuckAll (st : Watch) (queues : List Queue) (ts : Int) (held : List String) : List Problem :=
  ((queues.filter fun q => !skipped q.name).filterMap fun q =>
    (st.lookup q.key).bind fun e =>
      if told (some e) q ts (q.key ∈ held) then some (problemOf e q ts (q.key ∈ held)) else none
    ).insertionSort fun a b => b.age ≤ a.age

/-- `problems`, without the muted queues. -/
def problems (st : Watch) (queues : List Queue) (ts : Int) (held muted : List String) :
    List Problem :=
  (stuckAll st queues ts held).filter fun x => x.key ∉ muted

end Kervax.QueueWatch
