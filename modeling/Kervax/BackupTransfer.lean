-- The speed of a backup that a store receives (`backup_transfer.py`): one workload is followed
-- from sample to sample, and a loss of speed is told against its own reference.
import Kervax.Podnames
import Mathlib.Algebra.Order.Field.Rat
import Mathlib.Algebra.Order.Group.Abs
import Mathlib.Data.List.Sort

namespace Kervax.BackupTransfer

open Kervax.Podnames (Text)

/-- `MIB`, `BASE_MIN`, `BASE_SECONDS`, `SLOW_SECONDS`, `STALL_SECONDS`, `MAX_GAP`, `FRESH_LOCK`. -/
def mib : ℚ := 1024 * 1024
def baseMin : ℚ := 8 * mib
def baseSeconds : ℚ := 10 * 60
def slowSeconds : ℚ := 30 * 60
def stallSeconds : ℚ := 60 * 60
def maxGap : ℚ := 3 * 60
def freshLock : ℚ := 10 * 60

/-- `REPORT_FRESH_S` of the helpers' blocks. -/
def reportFresh : ℚ := 15 * 60

/-! ## The report -/

/-- `_number`: what is no number of seconds, bytes or items is none. -/
def number (v : Option ℚ) : Option ℚ := v.filter fun q => 0 ≤ q ∧ q ≤ 2 ^ 63 - 1

/-- The block of a helper; a version or a time that is no number counts as zero. -/
structure Block where
  v : ℚ
  ts : ℚ
  running : Bool := false
  current : Text := []

structure Repo where
  valid : Bool
  name : Text
  locked : Bool
  lockTs : Option ℚ
  lastActivity : Option ℚ

/-- `backup_server`. -/
structure Store where
  present : Bool
  running : Option Bool
  storageUnavailable : Bool
  repos : List Repo

structure Report where
  clockUnix : Option ℚ
  netRx : Option ℚ
  diskWrite : Option ℚ
  backupServer : Option Store
  mirror : Option Block
  helper : Option Block

/-- `_fresh`, against the clock of the report. -/
def fresh (block : Option Block) (clock : ℚ) : Option Block :=
  block.filter fun b => b.v = 1 ∧ b.ts ≠ 0 ∧ clock - b.ts ≤ reportFresh

/-- A block that is not far from the clock of the report. -/
def near (block : Option Block) (clock : ℚ) : Option Block :=
  (fresh block clock).filter fun b => |clock - b.ts| ≤ maxGap

/-- `locks`: the name, the last snapshot and the time of the lock. -/
def locks (store : Store) : List (Text × ℚ × ℚ) :=
  (store.repos.filter fun r => r.valid ∧ r.name ≠ [] ∧ r.locked).map fun r =>
    (r.name, (number r.lastActivity).getD 0, (number r.lockTs).getD 0)

/-- The order of pairs of a name and a snapshot. -/
def pairLe (a b : Text × ℚ) : Bool := a.1 < b.1 ∨ a.1 = b.1 ∧ a.2 ≤ b.2

/-- `_workload`, with the digest of the locked repositories: none when the helper could not
confirm work, empty when it is idle. -/
def workload (digest : List (Text × ℚ) → Text) (rep : Report) (clock : ℚ)
    (previousWork : Option Text) : Option Text :=
  let mirror := near rep.mirror clock
  match mirror.filter fun m => m.running ∧ m.current ≠ [] with
  | some m => some ("mirror:".toList ++ m.current)
  | none =>
    match rep.backupServer.filter Store.present with
    | none => if mirror.isSome then some [] else none
    | some store =>
      if (near rep.helper clock).isNone ∨ store.storageUnavailable then none
      else if store.running = some false then some []
      else if locks store = [] then some []
      else
        let work := digest (((locks store).map fun l => (l.1, l.2.1)).insertionSort (pairLe · ·))
        if (locks store).any fun l => -60 ≤ clock - l.2.2 ∧ clock - l.2.2 ≤ freshLock then some work
        else if some work = previousWork then none else some []

/-! ## The record of one workload -/

inductive Trouble
  | slow | stalled
deriving DecidableEq

structure Sample where
  work : Text
  clock : ℚ
  base : ℚ
  baseAt : ℚ
  ready : Bool
  slowAt : Option ℚ
  stallAt : Option ℚ
  problem : Option Trouble
  problemSince : Option ℚ
  rate : Option ℚ
deriving DecidableEq

/-- What `observe` reads from a report that it takes. -/
structure Reading where
  work : Text
  clock : ℚ
  rx : ℚ
  write : ℚ
  restart : Bool
deriving DecidableEq

def Reading.low (r : Reading) : ℚ := min r.rx r.write
def Reading.high (r : Reading) : ℚ := max r.rx r.write

/-- A time that is there and not zero. -/
def truthy : Option ℚ → Option ℚ
  | none => none
  | some t => if t = 0 then none else some t

/-- The reference, from when it is, and whether it has lasted. -/
structure Ref where
  base : ℚ
  baseAt : ℚ
  ready : Bool

/-- A reference that is interrupted, weak or broken by half begins anew. -/
def reference (previous : Option Sample) (contiguous : Bool) (r : Reading) : Ref :=
  match previous with
  | none => ⟨r.low, r.clock, false⟩
  | some p =>
    if p.ready then ⟨p.base, p.baseAt, true⟩
    else if contiguous = false ∨ p.base < baseMin ∨ r.low < max baseMin (p.base / 2) then
      ⟨r.low, r.clock, false⟩
    else ⟨min p.base r.low, p.baseAt, baseSeconds ≤ r.clock - p.baseAt⟩

def Ref.slow (f : Ref) (r : Reading) : Bool := f.ready && r.high < f.base / 4

/-- A mirror pull is known from its start; a lock needs a measured transfer. -/
def Ref.stalled (f : Ref) (r : Reading) : Bool :=
  (f.ready || "mirror:".toList.isPrefixOf r.work) && r.high < mib / 8

/-- Fast enough to end a problem. -/
def Ref.well (f : Ref) (r : Reading) : Bool := (if f.ready then f.base / 2 else mib / 8) ≤ r.high

/-- The start of an uninterrupted series. -/
def series (start : Option ℚ) (contiguous on : Bool) (clock : ℚ) : Option ℚ :=
  if on then some ((truthy (if contiguous then start else none)).getD clock) else none

/-- So long since the start. -/
def lasts (start : Option ℚ) (clock span : ℚ) : Bool :=
  (truthy start).any fun s => span ≤ clock - s

def verdict (f : Ref) (r : Reading) (slowAt stallAt : Option ℚ) (old : Option Trouble) :
    Option Trouble :=
  if lasts stallAt r.clock stallSeconds then some .stalled
  else if lasts slowAt r.clock slowSeconds && !f.stalled r then some .slow
  else if f.well r then none
  else old

/-- The rest of `observe`: a sample of the workload that is followed, or of a new one. -/
def take (previous : Option Sample) (contiguous : Bool) (r : Reading) : Sample :=
  let f := reference previous contiguous r
  let slowAt := series (previous.bind Sample.slowAt) contiguous (f.slow r) r.clock
  let stallAt := series (previous.bind Sample.stallAt) contiguous (f.stalled r) r.clock
  let trouble := verdict f r slowAt stallAt (previous.bind Sample.problem)
  let since := previous.bind Sample.problemSince
  { work := r.work
    clock := r.clock
    base := f.base
    baseAt := f.baseAt
    ready := f.ready
    slowAt := slowAt
    stallAt := stallAt
    problem := trouble
    problemSince :=
      if trouble.isSome then
        ((truthy since).or (truthy slowAt)).or stallAt
      else if f.well r then none else since
    rate := if trouble.isSome then some r.high else previous.bind Sample.rate }

/-- The years of a `datetime`. -/
def firstSecond : ℚ := -62135596800
def lastSecond : ℚ := 253402300800

/-- A report at the panel's time. -/
structure Obs where
  rep : Report
  now : ℚ
  restart : Bool
  now_lt : now < lastSecond

/-- The clock and the rates of a report that can be read. -/
def rates (o : Obs) : Option (ℚ × ℚ × ℚ) :=
  match number o.rep.clockUnix, number o.rep.netRx, number o.rep.diskWrite with
  | some clock, some rx, some write =>
    if clock = 0 ∨ o.now + maxGap < clock then none else some (clock, rx, write)
  | _, _, _ => none

/-- `observe`. -/
def observe (digest : List (Text × ℚ) → Text) (o : Obs) (previous : Option Sample) :
    Option Sample × Bool :=
  match rates o with
  | none => (previous, false)
  | some (clock, rx, write) =>
    match workload digest o.rep clock (previous.map Sample.work) with
    | none => (previous, false)
    | some [] => (none, true)
    | some work =>
      let same := previous.filter fun p => p.work = work
      let gap := clock - (same.map Sample.clock).getD 0
      if gap ≤ 0 ∧ o.restart = false then (same, gap = 0)
      else (some (take same (0 < gap ∧ gap ≤ maxGap ∧ o.restart = false)
        ⟨work, clock, rx, write, o.restart⟩), true)

/-- What is told: the rate and the reference in MiB, when it is not stalled. -/
inductive Detail
  | stalled
  | slowed (rate base : ℚ)

/-- `problem`; none when it raises. -/
def problem (sample : Option Sample) : Option (Nat × Option Detail × Option ℚ) :=
  match sample with
  | none => some (0, none, none)
  | some s =>
    match s.problem with
    | none => some (0, none, none)
    | some trouble => do
      let detail ← match trouble with
        | .stalled => some Detail.stalled
        | .slow => s.rate.map fun rate => .slowed (rate / mib) (s.base / mib)
      let since ← s.problemSince.filter fun t => firstSecond ≤ t ∧ t < lastSecond
      some (2, some detail, some since)

end Kervax.BackupTransfer
