-- The alert about the OOM killer (`alert_step`): episodes of kills from the helper's
-- block, the growth of the kernel counter, and what a tick says about them, writes at
-- once and writes after the delivery.
import Kervax.Clusters
import Kervax.Kinds

namespace Kervax.Oom

open Clusters

/-! ## Spans of time -/

/-- `GAP`, `BLOCK_MAX_AGE`, `SETTLE`, `WAIT_DETAILS`, `REPEAT_S`, `UNIT_WINDOW`, `LATE_S`. -/
def gap : Time := sec 60
def blockMaxAge : Time := sec 600
def settle : Time := sec 90
def waitDetails : Time := sec 300
def repeatS : Time := sec 3600
def unitWindow : Time := sec 180
def lateS : Time := sec 600

/-- How old an episode is that the first block does not report any more. -/
def historyS : Time := sec 900

/-- How long before a growth of the counter its kill may have ended. -/
def growthS : Time := sec 600

/-! ## The block of the helper -/

/-- A kill record of the block. -/
structure Kill where
  ts : Time
  pid : Option Int
  name : String
deriving DecidableEq, Repr

/-- systemd's note that a unit lost a process or failed. -/
structure Mark where
  ts : Time
  unit : String
deriving DecidableEq, Repr

/-- `report.d/oom.json`. -/
structure Block where
  ts : Time
  kills : List Kill
  units : List Mark
deriving DecidableEq, Repr

/-- What the alert reads of a report: `clock_unix` (0 without it), the block, and
the units that are down. -/
structure Report where
  clock : Time := 0
  block : Option Block := none
  failedNow : List String := []
deriving DecidableEq, Repr

/-- `block`: the block, if it is fresh. -/
def freshBlock (rep : Report) (ref : Time) : Option Block :=
  rep.block.filter fun b => 0 < b.ts ∧ ref - b.ts ≤ blockMaxAge

/-- `records`: the rows that make sense. -/
def Block.killRecords (b : Block) : List Kill := b.kills.filter fun k => 0 < k.ts
def Block.unitRecords (b : Block) : List Mark := b.units.filter fun m => 0 < m.ts ∧ m.unit ≠ ""

/-! ## Episodes -/

/-- Kills one after another, and systemd's notes around them. -/
structure Episode where
  kills : List Kill
  some : kills ≠ []
  units : List Mark
deriving DecidableEq, Repr

def Episode.start (e : Episode) : Time := (e.kills.head e.some).ts
def Episode.stop (e : Episode) : Time := (e.kills.getLast e.some).ts

/-- `str(int(e["start"]))`, as a number of seconds. -/
def Episode.id (e : Episode) : Int := e.start / 1000000

/-- The episode of a group of kills. -/
def episodeOf (marks : List Mark) (kills : List Kill) (h : kills ≠ []) : Episode :=
  { kills := kills
    some := h
    units := marks.filter fun m =>
      (kills.head h).ts - unitWindow ≤ m.ts ∧ m.ts ≤ (kills.getLast h).ts + unitWindow }

/-- `episodes`: in the order of time, a kill joins the episode whose last kill is at
most `GAP` before it. -/
def episodes (kills : List Kill) (marks : List Mark) : List Episode :=
  (clusters Kill.ts gap kills).pmap (episodeOf marks) fun _ => ne_nil_of_cluster

/-- `IMPORTANT`. -/
def important : List String :=
  ["mysqld", "mariadbd", "postgres", "postmaster", "mongod", "redis-server", "clickhouse-server",
    "clickhouse", "dockerd", "containerd", "nginx", "apache2", "httpd", "haproxy", "caddy",
    "traefik", "beam.smp", "etcd", "kubelet", "kube-apiserver", "elasticsearch", "memcached"]

/-- The number and the tail of `user@1000.service`. -/
def quietTail (s : List Char) : Bool :=
  s.takeWhile Char.isDigit ≠ [] ∧ s.dropWhile Char.isDigit = ".service".toList

/-- `quiet_unit`: the manager of a user's session. -/
def quietUnit (unit : String) : Bool :=
  ["user@", "user-runtime-dir@"].any fun p =>
    p.toList.isPrefixOf unit.toList && quietTail (unit.toList.drop p.toList.length)

/-- `level`. -/
def level (e : Episode) (failedNow : List String) : Nat :=
  if e.kills.any fun k => important.contains k.name then 2
  else if e.units.any fun m => !quietUnit m.unit && failedNow.contains m.unit then 2
  else 1

/-! ## The texts -/

/-- `late_text`: so many minutes late; `held` is the reason that is given. -/
structure Late where
  minutes : Int
  held : Bool
deriving DecidableEq, Repr

def lateText (e : Episode) (now : Time) (held : Bool) : Option Late :=
  if now - e.stop < lateS then none else some ⟨(now - e.stop) / sec 60, held⟩

/-- What the text of an alert is made from. -/
inductive Text
  /-- `episode_text`: the episode, and so many more since the last message. -/
  | episode (e : Episode) (failedNow : List String) (week more : Nat) (late : Option Late)
  /-- The held ones have left the block: so many times more. -/
  | again (times : Nat)
  /-- The kernel killed so many, nothing else is known. -/
  | counter (kills : Int) (victim : String)
deriving DecidableEq, Repr

structure Alert where
  level : Nat
  text : Text
deriving DecidableEq, Repr

/-! ## The state -/

/-- An entry of `oom_held`: the id of an episode, or `c<total>` of a growth. -/
inductive HeldId
  | episode (start : Int)
  | counter (total : Int)
deriving DecidableEq, Repr

/-- The keys of `alert_state`; a moment that is not there is 0. -/
structure St where
  oomEnd : Option Time := none
  oomSeen : Int := 0
  oomSent : Time := 0
  oomSentLvl : Nat := 0
  oomHeld : List HeldId := []
  oomWait : Time := 0
deriving DecidableEq, Repr

/-- Keys to write. -/
structure Upd where
  oomEnd : Option Time := none
  oomSeen : Option Int := none
  oomSent : Option Time := none
  oomSentLvl : Option Nat := none
  oomHeld : Option (List HeldId) := none
  oomWait : Option Time := none
deriving DecidableEq, Repr

/-- `{**a, **b}`. -/
def Upd.and (a b : Upd) : Upd :=
  { oomEnd := b.oomEnd.or a.oomEnd
    oomSeen := b.oomSeen.or a.oomSeen
    oomSent := b.oomSent.or a.oomSent
    oomSentLvl := b.oomSentLvl.or a.oomSentLvl
    oomHeld := b.oomHeld.or a.oomHeld
    oomWait := b.oomWait.or a.oomWait }

def St.apply (st : St) (u : Upd) : St :=
  { oomEnd := u.oomEnd.or st.oomEnd
    oomSeen := u.oomSeen.getD st.oomSeen
    oomSent := u.oomSent.getD st.oomSent
    oomSentLvl := u.oomSentLvl.getD st.oomSentLvl
    oomHeld := u.oomHeld.getD st.oomHeld
    oomWait := u.oomWait.getD st.oomWait }

/-- What a tick has to go by: the moment, the last report, the server's `oom_total` and
`oom_victim`, whether all of OOM is muted and which episodes are (`episode_muted`), and
whether a message of this tick is delivered. -/
structure Tick where
  now : Time
  pos : 0 < now
  rep : Report
  total : Int
  victim : String := ""
  oomMuted : Bool := false
  muted : Episode → Bool := fun _ => false
  delivered : Bool := true

/-- What is counted: an episode, or a growth of the counter without one. -/
structure Item where
  ep : Option Episode
  total : Int
deriving DecidableEq, Repr

/-- The result of `alert_step`: the alert, what to write after its delivery, what to
write at once. `items` is what the step counts, whether told or held. -/
structure Outcome where
  fire : Option Alert := none
  done : Upd := {}
  now : Upd := {}
  items : List Item := []

/-! ## The step -/

/-- `ref`: the node's clock. -/
def Tick.ref (t : Tick) : Time := if t.rep.clock = 0 then t.now else t.rep.clock

def Tick.block (t : Tick) : Option Block := freshBlock t.rep t.ref

/-- The kills of the block. -/
def Tick.kills (t : Tick) : List Kill := (t.block.map Block.killRecords).getD []

def Tick.marks (t : Tick) : List Mark := (t.block.map Block.unitRecords).getD []

def Tick.eps (t : Tick) : List Episode := episodes t.kills t.marks

/-- `max(e["end"] for e in eps)`, 0 without one. -/
def latest (eps : List Episode) : Time := (eps.map Episode.stop).max?.getD 0

/-- `done`: the end of the last episode that was counted; with the first block, of the
last one that is history. -/
def doneAt (st : St) (t : Tick) : Time :=
  match st.oomEnd with
  | some done => done
  | none =>
    if t.block.isSome then latest (t.eps.filter fun e => historyS < t.ref - e.stop) else 0

/-- `now_apply` of the first block. -/
def firstApply (st : St) (t : Tick) : Upd :=
  if t.block.isSome ∧ st.oomEnd = none then { oomEnd := some (doneAt st t) } else {}

/-- The episodes that are not counted yet, and those of them that are over. -/
def fresh (st : St) (t : Tick) : List Episode := t.eps.filter fun e => doneAt st t < e.stop
def ready (st : St) (t : Tick) : List Episode := (fresh st t).filter fun e => settle ≤ t.ref - e.stop

/-- `recent`: a message has gone out within the hour. -/
def recent (st : St) (t : Tick) : Bool := st.oomSent ≠ 0 ∧ t.now - st.oomSent < repeatS

def week (t : Tick) : Nat := (t.eps.filter fun e => t.ref - 7 * day ≤ e.start).length

def maxLevel (eps : List Episode) (t : Tick) : Nat :=
  (eps.map fun e => level e t.rep.failedNow).foldl max 0

/-- What becomes of the keys once the episodes that are over are counted. -/
def readyUpd (st : St) (t : Tick) : Upd :=
  { oomEnd := some (latest (ready st t)), oomSeen := some (max st.oomSeen t.total), oomWait := some 0 }

/-- The episodes `told` of a tick are held, or go out with the held ones. -/
def tellReady (st : St) (t : Tick) (told : List Episode) (last : Episode) : Outcome :=
  let lvl := maxLevel told t
  if recent st t ∧ lvl ≤ st.oomSentLvl then
    { now := ((firstApply st t).and (readyUpd st t)).and
        { oomHeld := some (st.oomHeld ++ told.map fun e => .episode e.id) }
      items := told.map fun e => ⟨some e, t.total⟩ }
  else
    { fire := some ⟨lvl, .episode last t.rep.failedNow (week t)
        (st.oomHeld.length + told.length - 1) (lateText last t.now false)⟩
      done := (readyUpd st t).and
        { oomHeld := some [], oomSent := some t.now, oomSentLvl := some lvl }
      now := firstApply st t
      items := told.map fun e => ⟨some e, t.total⟩ }

/-- Some episode is over. -/
def readyStep (st : St) (t : Tick) : Outcome :=
  let told := (ready st t).filter fun e => !t.muted e
  match told.getLast? with
  | none => { now := (firstApply st t).and (readyUpd st t) }
  | some last => tellReady st t told last

/-- `by_id.get(i)`. -/
def byId (t : Tick) : HeldId → Option Episode
  | .episode i => t.eps.reverse.find? fun e => e.id = i
  | .counter _ => none

/-- One message about the held ones. -/
def tellHeld (st : St) (t : Tick) (held : List HeldId) : Outcome :=
  let sent (lvl : Nat) : Upd :=
    { oomHeld := some [], oomSent := some t.now, oomSentLvl := some lvl }
  match held.reverse.findSome? (byId t) with
  | some last =>
    let lvl := level last t.rep.failedNow
    { fire := some ⟨lvl, .episode last t.rep.failedNow (week t) (held.length - 1)
        (lateText last t.now true)⟩
      done := sent lvl
      now := firstApply st t }
  | none => { fire := some ⟨1, .again held.length⟩, done := sent 1, now := firstApply st t }

/-- The hour after the message is over. -/
def heldStep (st : St) (t : Tick) : Outcome :=
  let held := st.oomHeld.filter fun i => !(t.oomMuted || (byId t i).any t.muted)
  if held = [] then { now := (firstApply st t).and { oomHeld := some [] } }
  else tellHeld st t held

/-- When the growth was noticed. -/
def noticed (st : St) (t : Tick) : Time := if st.oomWait = 0 then t.now else st.oomWait

/-- The counter has grown, and the journal says nothing. -/
def counterStep (st : St) (t : Tick) : Outcome :=
  let upd : Upd := { oomSeen := some t.total, oomWait := some 0 }
  if t.eps.any fun e => noticed st t - growthS ≤ e.stop then { now := (firstApply st t).and upd }
  else if t.block.isSome ∧ st.oomWait = 0 then
    { now := (firstApply st t).and { oomWait := some t.now } }
  else if t.block.isSome ∧ t.now - st.oomWait < waitDetails then { now := firstApply st t }
  else if t.oomMuted then { now := (firstApply st t).and upd }
  else if recent st t then
    { now := ((firstApply st t).and upd).and { oomHeld := some (st.oomHeld ++ [.counter t.total]) }
      items := [⟨none, t.total⟩] }
  else
    { fire := some ⟨1, .counter (t.total - st.oomSeen) t.victim⟩
      done := upd.and { oomHeld := some [], oomSent := some t.now, oomSentLvl := some 1 }
      now := firstApply st t
      items := [⟨none, t.total⟩] }

/-- `alert_step`. -/
def alertStep (st : St) (t : Tick) : Outcome :=
  if ready st t ≠ [] then readyStep st t
  else if st.oomHeld ≠ [] ∧ recent st t = false then heldStep st t
  else if st.oomSeen < t.total ∧ fresh st t = [] then counterStep st t
  else { now := firstApply st t }

end Kervax.Oom
