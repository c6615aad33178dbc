-- One tick of one kind of one server, as `evaluate_servers` goes through it:
-- what is done before the loop over the conditions, and the body of that loop
-- in blocks, each of which may leave it early.
import Kervax.BodyFlow
import Kervax.Repeats
import Kervax.Routine
import Kervax.Flapping

namespace Kervax

/-- The keys under which the source has changed how it names a member: old
names count as told. -/
structure Norms where
  /-- `podnames.pod_key`, for `kube_restarts`. -/
  podKey : String → String
  /-- `log_errors.norm_key`. -/
  logKey : String → String
  /-- `workers.program_key`. -/
  programKey : String → String

/-- The stored names, as the tick reads them. -/
def Norms.oldSig (nm : Norms) (k : Kind) (x : Finset String) : Finset String :=
  if k = .kubeRestarts then x.image nm.podKey
  else if k = .logErrors then x.image nm.logKey
  else x

/-- The told names, with those that they stand for. -/
def Norms.told (nm : Norms) (k : Kind) (x : Finset String) : Finset String :=
  if k = .workers then x ∪ x.image nm.programKey
  else if k = .logErrors then x ∪ x.image nm.logKey
  else x

/-! ## Before the loop -/

/-- The end of a series, checked on every tick. -/
def liftFlap (k : Kind) (s : Seen) (st : KindSt) : KindSt × List Notice :=
  if s.quietBefore then (st, [])
  else if k = .offline then
    if linkCalm st.flap s.now then
      ({ st with flap := { st.flap with muted := false, count := 0 } }, [⟨.seriesEnd, 0, ∅⟩])
    else (st, [])
  else if k ∈ flapMetricKinds ∧ metricCalm st.flap s.now then
    ({ st with flap := { st.flap with muted := false, count := 0, last := none } },
      if st.level = 0 then [⟨.seriesEnd, 0, ∅⟩] else [])
  else (st, [])

/-- The role of the server has another check for this kind. -/
def retires (k : Kind) (s : Seen) (st : KindSt) : Bool :=
  s.talking && s.fresh &&
    match k with
    | .diskSlow => s.backupHost
    | .backupTransfer => !s.backupHost
    | .pressure => s.backupHost && st.res = some .io
    | _ => false

def retire (k : Kind) (s : Seen) (st : KindSt) : KindSt × Bool :=
  if retires k s st then
    ({ closedSt k st with begun := none, was := none, quiet := none, res := none },
      st.level ≠ 0 && st.quiet.isNone && st.hush.isNone)
  else (st, false)

/-- The report says of the kind that it was looked at, from a complete source. -/
def confirmed (s : Seen) : Bool :=
  s.talking && s.fresh && !s.epoch &&
    match s.cond with
    | none => false
    | some c => c.ctx.complete

/-- An unknown span cannot fill the hold of a recovery. -/
def calmReset (s : Seen) (st : KindSt) : KindSt :=
  if confirmed s then st else { st with calm := none }

/-- The mark "fixed" counts on this tick: the kind is in `fix_now`. -/
def fixNow (k : Kind) (s : Seen) : Bool :=
  match s.fixedMark with
  | none => false
  | some m =>
    !m.expired s.now && !m.done && s.talking && s.fresh &&
      match s.cond with
      | none => k ∉ fixedState
      | some c => (k ∉ fixedState || c.ctx.complete) && !broken k c

/-- The condition as the loop reads it: zero once it is fixed. -/
def condNow (k : Kind) (s : Seen) : Option Cond :=
  if fixNow k s then
    s.cond.map fun c =>
      ⟨0, { c.ctx with cool := none, itemsEmpty := true, sig := some ∅, since := false }⟩
  else s.cond

/-- What is noted on every tick: the level before the first silent step down,
what the pressure is about, and since when there is trouble. -/
def bookkeep (k : Kind) (s : Seen) (c : Cond) (st : KindSt) : KindSt :=
  if ¬ s.talking ∧ k ≠ .offline then st
  else if k ≠ .offline ∧ (¬ s.fresh ∨ (c.level = 0 ∧ ¬ c.ctx.complete)) then st
  else
    let st := if 0 < c.level ∧ c.level < st.level ∧ st.toldLvl = 0 ∧ st.hush = none ∧ st.quiet = none
      then
        { st with
          toldLvl := st.level
          pressureTold :=
            match k, st.res with
            | .pressure, some r =>
              if 2 ≤ st.level ∧ r ∈ [PressRes.thrash, .dstate] then {r} else st.pressureTold
            | _, _ => st.pressureTold }
      else st
    let st := match c.ctx.res with
      | some r => { st with res := r }
      | none => st
    if 0 < c.level then { st with begun := st.begun.or (some s.now) } else { st with begun := none }

/-! ## The server is snoozed or in maintenance -/

def quietTick (k : Kind) (s : Seen) (c : Cond) (st : KindSt) (out : Out) : KindSt × Out :=
  if ¬ s.talking ∧ k ≠ .offline ∨ st.level ≤ c.level then (st, out)
  else if k ≠ .offline ∧ (¬ s.fresh ∨ s.epoch ∨ ¬ c.ctx.complete) then (st, out)
  else if c.level ≠ 0 ∨ k ∈ silentRecovery ∨ (k ∈ flapMetricKinds ∧ st.flap.muted) then
    ({ st with level := c.level }, out)
  else
    (st, { out with
      recs := out.recs ++ [⟨.recovery, 0, ∅⟩], recApply := out.recApply ++ closedTail k st })

/-- The mute of a broken disk goes once the disk is replaced: the state begins
from nothing. -/
def liftDiskMute (k : Kind) (s : Seen) (st : KindSt) (out : Out) : KindSt × Out :=
  if k = .diskHealth ∧ s.diskLift then
    ({ st with level := 0, sig := ∅, told := ∅, toldLvl := 0 },
      { out with recs := out.recs ++ [⟨.muteLift, 0, ∅⟩] })
  else (st, out)

/-! ## The body of the loop -/

/-- What the body carries along: the state with what it wrote at once, the
level to compare with, and what goes out. -/
structure Carry where
  st : KindSt
  prev : Nat
  out : Out := {}
deriving DecidableEq

/-- What `_sig_all_quiet` closes without any observation. -/
def policyClose (s : Seen) (c : Cond) (st : KindSt) : Bool :=
  c.level = 0 && st.sig ≠ ∅ && s.sigQuiet st.sig

/-- The gates that leave the body before anything is compared, and what they
write: a mute lets the level down. -/
def gates (k : Kind) (s : Seen) (c : Cond) (x : Carry) : BodyFlow Carry :=
  let level := c.level
  if ¬ s.talking ∧ k ≠ .offline then .done x
  else if k ≠ .offline ∧ ¬ fixNow k s ∧ ¬ policyClose s c x.st ∧
      (¬ s.fresh ∨ (level = 0 ∧ ((s.epoch ∧ k ∈ ownSettle) ∨ ¬ c.ctx.complete))) then .done x
  else if ¬ s.ruleOk then .done x
  else if k = .offline ∧ x.st.level < level ∧ (s.gap ∨ s.parentHeld) then .done x
  else if s.warm ∧ k ∈ bootHold ∧ 0 < level then .done x
  else if isMuted s level ∧ (0 < level ∨ x.st.level = 0) then
    .done (if level < x.st.level then { x with st := { x.st with level := level } } else x)
  else if covers s.known level c.ctx.sig then .done x
  else if s.onb ∧ ¬ condOk k level ∧ x.st.level < level then .done x
  else .next x

/-- The level to compare with: an acknowledged growth of a backup is over when
the next run grows again. -/
def startPrev (k : Kind) (s : Seen) (c : Cond) (x : Carry) : BodyFlow Carry :=
  let grown : Bool :=
    match c.ctx.growthTs, s.growthAck with
    | some run, some ack => ack < run && x.st.growthAt.getD 0 ≤ ack
    | _, _ => false
  if k = .backupGrowth ∧ 0 < c.level ∧ 0 < x.st.level ∧ grown then .next { x with prev := 0 }
  else .next { x with prev := x.st.level }

/-- The tail of a closing by the mark "fixed". -/
def fixedTail (k : Kind) (st : KindSt) : List KWrite :=
  closedTail k st ++ [onlyIf (st.was ≠ none) (.was none), onlyIf (st.quiet ≠ none) .quiet,
    onlyIf (st.said ≠ none) (.said none)].flatten

def fixedBlock (k : Kind) (s : Seen) (x : Carry) : BodyFlow Carry :=
  if fixNow k s then
    if 0 < x.prev ∧ x.st.quiet = none ∧ x.st.hush = none then
      .done { x with out := { x.out with
        recs := x.out.recs ++ [⟨.fixed, 0, ∅⟩]
        recApply := x.out.recApply ++ fixedTail k x.st } }
    else if 0 < x.prev ∨ 1 < (fixedTail k x.st).length then
      .done { x with st := applyAll (fixedTail k x.st) x.st }
    else .done x
  else .next x

/-- A swallowed repeat: the level is taken over without a message. -/
def swallow (s : Seen) (c : Cond) (w : Was) (st : KindSt) : KindSt :=
  let st := { st with
    level := c.level, hush := some s.now, toldLvl := if w.lvl = 0 then c.level else w.lvl }
  match c.ctx.sig with
  | some sig => { st with sig := sig, told := w.sig ∪ sig }
  | none => if whoOf c.ctx ≠ ∅ then { st with who := whoOf c.ctx } else st

/-- The hold of a recovery, the silent closing of a repeat, and the repeat. -/
def settleBlock (k : Kind) (s : Seen) (c : Cond) (x : Carry) : BodyFlow Carry :=
  if k ∈ noSettle then .next x
  else
    let calm := x.st.calm
    let hush := x.st.hush
    if 0 < c.level then
      let x := if calm.isSome then { x with st := { x.st with calm := none } } else x
      if x.prev = 0 then
        match againOf x.st c.level (whoOf c.ctx) s.now with
        | some w => .done { x with st := swallow s c w x.st }
        | none => .next x
      else
        match hush with
        | some h =>
          if againTell ≤ s.now - h ∧ ¬ heldOnly c.ctx then .next { x with prev := 0 } else .next x
        | none => .next x
    else if 0 < x.prev then
      if k ∉ ownSettle ∧ calm = none then .done { x with st := { x.st with calm := some s.now } }
      else if k ∉ ownSettle ∧ s.now - calm.getD 0 < settleS then .done x
      else if hush.isSome then
        let st := applyAll (closedTail k x.st) x.st
        .done { x with st := { st with was := some (wasAfter st x.prev s.now) } }
      else .next x
    else .next x

/-- A slow sign waits for the morning. -/
def nightBlock (k : Kind) (s : Seen) (c : Cond) (x : Carry) : BodyFlow Carry :=
  if k ∈ daytimeKinds ∧ 0 < c.level ∧ (k ≠ .diskForecast ∨ c.level < 2) ∧ ¬ s.day then .done x
  else .next x

/-- `told_lvl`: the highest level that the open alert has told. -/
def toldTop (x : Carry) : Nat := if 0 < x.prev then max x.prev x.st.toldLvl else 0

/-- What a member message writes once it is out. -/
def tellMembers (s : Seen) (c : Cond) (new told : Finset String) (top : Nat) : List KWrite :=
  [.sig new, .told (told ∪ new), .said (some s.now), .toldLvl (max top c.level)]

/-- Old, new and told members, and the news among the new ones. -/
structure Members where
  old : Finset String
  new : Finset String
  told : Finset String

def membersOf (nm : Norms) (k : Kind) (c : Cond) (x : Carry) : Members :=
  let new := c.ctx.sig.getD ∅
  let new := if c.ctx.complete then new else new ∪ x.st.sig
  let old := nm.oldSig k x.st.sig
  ⟨old, new, nm.told k (if 0 < x.prev then x.st.told ∪ old else ∅)⟩

def Members.news (m : Members) : Finset String := m.new \ m.told

/-- The kinds that remember each broken object. -/
def membersBlock (nm : Norms) (k : Kind) (s : Seen) (c : Cond) (x : Carry) : BodyFlow Carry :=
  if k ∉ tracksMembers then .next x
  else
    let m := membersOf nm k c x
    let level := c.level
    if 0 < x.prev ∧ level = 0 ∧ m.old ≠ ∅ ∧ s.sigQuiet m.old then
      .done { x with out := { x.out with
        closed := true
        recApply := x.out.recApply ++ [.calm, .hush, .sig ∅, .told ∅, .toldLvl 0, .level 0] } }
    else if level = x.prev then
      if 0 < level ∧ m.news ≠ ∅ then
        if k ∈ sigStory ∧ (x.st.said.any fun t => s.now - t < sigStoryS) then
          .done { x with st := { x.st with sig := m.new, told := m.told ∪ m.new } }
        else
          .done { x with out := { x.out with
            fires := x.out.fires ++ [⟨.news, level, m.new⟩]
            fireApply := x.out.fireApply ++ onlyIf (x.st.hush ≠ none) .hush ++
              tellMembers s c m.new m.told (toldTop x) } }
      else if m.new ≠ m.old then
        .done { x with st := { x.st with
          sig := m.new, told := if 0 < level ∧ x.st.told = ∅ then m.told else x.st.told } }
      else .done x
    else if x.prev < level ∧ 0 < x.prev ∧ level ≤ toldTop x ∧ m.news = ∅ then
      .done { x with st := { x.st with level := level, sig := m.new, told := m.told ∪ m.new } }
    else if x.prev < level then
      .next { x with out := { x.out with
        fireApply := x.out.fireApply ++ tellMembers s c m.new m.told (toldTop x) } }
    else if 0 < level then
      .next { x with st := { x.st with sig := m.new, told := m.told ∪ m.new } }
    else
      .next { x with out := { x.out with
        recApply := x.out.recApply ++ [.sig ∅, .told ∅, .toldLvl 0] } }

/-- The pressure is a lack of memory: no routine. -/
def isThrash (k : Kind) (c : Cond) : Bool := k = .pressure && c.ctx.res = some (some .thrash)

def thrashBlock (k : Kind) (c : Cond) (x : Carry) : BodyFlow Carry :=
  if isThrash k c ∧ x.st.quiet.isSome then
    .next { x with st := { x.st with quiet := none }, prev := 0 }
  else .next x

/-- An episode of the routine: its history, and whether it is held. -/
def routineHold (s : Seen) (c : Cond) (x : Carry) : BodyFlow Carry :=
  if 0 < c.level ∧ 0 < x.prev ∧ heldOnly c.ctx then
    let x' := { x with st := { x.st with hist := routineEnd x.st.hist (c.ctx.cool.getD s.now) } }
    if x.st.quiet.isSome then .done x' else .next x'
  else if 0 < c.level ∧ x.prev = 0 then
    let hist := routineStart x.st.hist s.now
    match routineOf hist.dropLast s.now with
    | some r =>
      .done { x with st := { x.st with
        hist := hist, level := c.level, quiet := some (r.2 + routineOver) } }
    | none => .next { x with st := { x.st with hist := hist } }
  else if 0 < c.level then
    .next { x with st := { x.st with hist := routineOpen x.st.hist x.st.begun } }
  else .next x

/-- The held episode lasts longer than usual, or ends. -/
def routineOverrun (s : Seen) (c : Cond) (x : Carry) : BodyFlow Carry :=
  match x.st.quiet with
  | some until' =>
    if 0 < c.level ∧ 0 < x.prev ∧ ¬ heldOnly c.ctx then
      if s.now < until' then .done { x with st := { x.st with level := c.level } }
      else .next { x with st := { x.st with quiet := none }, prev := 0 }
    else if c.level = 0 ∧ 0 < x.prev then
      .done { x with st := { x.st with
        hist := routineEnd x.st.hist s.now, level := 0, quiet := none } }
    else .next x
  | none =>
    if c.level = 0 ∧ 0 < x.prev then
      .next { x with st := { x.st with hist := routineEnd x.st.hist s.now } }
    else .next x

def routineBlock (k : Kind) (s : Seen) (c : Cond) (x : Carry) : BodyFlow Carry :=
  if k ∈ routineKinds ∧ ¬ isThrash k c then (routineHold s c x).bind (routineOverrun s c)
  else .next x

/-- `pressure_causes` and `pressure_told`. -/
def causesOf (k : Kind) (c : Cond) : Finset PressRes :=
  if k = .pressure ∧ 2 ≤ c.level ∧ ¬ heldOnly c.ctx then c.ctx.causes else ∅

def causesTold (k : Kind) (x : Carry) : Finset PressRes :=
  if k = .pressure ∧ 0 < x.prev then x.st.pressureTold else ∅

/-- The same level, and the way back up to a level that was told. `top` is
`told_lvl`, which was read before the routine. -/
def sameBlock (k : Kind) (c : Cond) (top : Nat) (x : Carry) : BodyFlow Carry :=
  if c.level = x.prev then .done x
  else if k ∉ tracksMembers ∧ x.prev < c.level ∧ 0 < x.prev ∧ (c.level ≤ top ∨ k = .diskSlow) ∧
      causesOf k c \ causesTold k x = ∅ then
    .done { x with st := { x.st with level := c.level, toldLvl := max top c.level } }
  else .next x

/-- The flap guard of the link. The return from an outage that was told is
always told. -/
def linkBlock (k : Kind) (s : Seen) (c : Cond) (x : Carry) : BodyFlow Carry :=
  if k = .offline ∧ ¬ (c.level = 0 ∧ x.st.offSaid) then
    let (f, held, note) := flapping x.st.flap s.now
    let fires := if note then x.out.fires ++ [⟨.flapping, 2, ∅⟩] else x.out.fires
    let x' := { x with st := { x.st with flap := f }, out := { x.out with fires := fires } }
    if held then
      .done { x' with out := { x'.out with fireApply := x'.out.fireApply ++ [.level c.level] } }
    else .next x'
  else .next x

/-- What a new alert writes once it is out. -/
def alertWrites (k : Kind) (s : Seen) (c : Cond) (top : Nat) (x : Carry) : List KWrite :=
  [[.level c.level], onlyIf (k = .backupGrowth ∧ c.ctx.growthTs ≠ none) (.growthAt c.ctx.growthTs),
    onlyIf (k ∉ tracksMembers) (.toldLvl (if 0 < x.prev then max top c.level else c.level)),
    onlyIf (causesOf k c ≠ ∅) (.pressureTold (causesTold k x ∪ causesOf k c)),
    onlyIf (x.st.hush ≠ none) .hush,
    onlyIf (c.ctx.sig = none ∧ k ∉ noSettle ∧ whoOf c.ctx ≠ ∅)
      (.who ((if 0 < x.prev then x.st.who else ∅) ∪ whoOf c.ctx)),
    onlyIf (k = .offline) (.offSaid true),
    onlyIf (k = .offline ∧ s.kidsDown ≠ []) (.offKids s.kidsDown)].flatten

/-- The level rose: the flap guard of the metrics, or the alert. -/
def riseBlock (k : Kind) (s : Seen) (c : Cond) (top : Nat) (x : Carry) : Carry :=
  let urgent := k ∈ [Kind.disk, .inode] ∧ (fillCrit ≤ c.level ∨ c.ctx.fast)
  let guarded := x.prev = 0 ∧ k ∈ flapMetricKinds ∧ ¬ urgent
  let (f, held, note) := if guarded then flapMetric k x.st.flap s.now else (x.st.flap, false, false)
  let x := { x with st := { x.st with flap := f } }
  if held then
    { x with out := { x.out with
      fires := if note then x.out.fires ++ [⟨.flapping, 1, ∅⟩] else x.out.fires
      fireApply := x.out.fireApply ++ [.level c.level] } }
  else
    { x with out := { x.out with
      fires := x.out.fires ++ [⟨.alert, c.level, whoOf c.ctx⟩]
      fireApply := x.out.fireApply ++ alertWrites k s c top x } }

/-- The monitors behind the server: those named in the alert, and those that
lie now. -/
def kidsOf (s : Seen) (st : KindSt) : List Nat :=
  (st.offKids.filter fun i => (s.kids i).isSome) ++ s.kidsDown

/-- The recovery waits until each monitor was checked after the return. -/
def kidsUnchecked (s : Seen) (st : KindSt) : Bool :=
  let back := st.offBack.getD s.now
  decide (s.now - back < kidsWait) && (kidsOf s st).any fun i =>
    match s.kids i with
    | none => false
    | some m => m.checkedAt.all fun t => decide (t < back)

/-- What a recovery writes once it is out. -/
def recoveryWrites (k : Kind) (s : Seen) (x : Carry) : List KWrite :=
  [[.level 0], onlyIf (k ∉ tracksMembers ∧ x.st.toldLvl ≠ 0) (.toldLvl 0),
    onlyIf (causesTold k x ≠ ∅) (.pressureTold ∅), onlyIf (k ∉ noSettle) .calm,
    onlyIf (k ∉ noSettle) (.was (some (wasAfter x.st x.prev s.now))),
    onlyIf (k ∉ noSettle ∧ x.st.who ≠ ∅) (.who ∅),
    if k = .offline then [.offSaid false, .offKids [], .offBack] else []].flatten

/-- The level is zero again. -/
def zeroBlock (k : Kind) (s : Seen) (x : Carry) : Carry :=
  if k ∈ flapMetricKinds ∧ x.st.flap.muted then
    { x with st := { x.st with level := 0, toldLvl := 0 } }
  else if k ∈ silentRecovery then
    { x with st := { x.st with
      level := 0, toldLvl := 0
      growthAt := if k = .backupGrowth then none else x.st.growthAt } }
  else if k = .offline ∧ kidsUnchecked s x.st then
    { x with st := { x.st with offBack := x.st.offBack.or (some s.now) } }
  else
    { x with out := { x.out with
      recs := x.out.recs ++ [⟨.recovery, 0, ∅⟩]
      recApply := x.out.recApply ++ recoveryWrites k s x } }

/-- The level went down, but not to zero. -/
def lowerBlock (c : Cond) (x : Carry) : Carry :=
  if c.ctx.complete then { x with st := { x.st with level := c.level } } else x

def reportBlock (k : Kind) (s : Seen) (c : Cond) (top : Nat) (x : Carry) : BodyFlow Carry :=
  .done (if x.prev < c.level then riseBlock k s c top x
    else if c.level = 0 then zeroBlock k s x
    else lowerBlock c x)

/-- The second half of the body, with `told_lvl` as it was read before the
members and the routine. -/
def loopTail (nm : Norms) (k : Kind) (s : Seen) (c : Cond) (x : Carry) : BodyFlow Carry :=
  ((((membersBlock nm k s c x).bind (thrashBlock k c)).bind (routineBlock k s c)).bind
    (sameBlock k c (toldTop x))).bind fun y =>
      (linkBlock k s c y).bind (reportBlock k s c (toldTop x))

/-- The body of the loop for one kind. -/
def loopBody (nm : Norms) (k : Kind) (s : Seen) (c : Cond) (x : Carry) : BodyFlow Carry :=
  (((((gates k s c x).bind (startPrev k s c)).bind (fixedBlock k s)).bind
    (settleBlock k s c)).bind (nightBlock k s c)).bind (loopTail nm k s c)

/-! ## The whole tick -/

/-- The tick of one kind: the state with what is written at once, and what
goes out. -/
def kindTick (nm : Norms) (k : Kind) (s : Seen) (st : KindSt) : KindSt × Out :=
  if s.skip then (st, {})
  else
    let (st, back) := liftFlap k s st
    let (st, closed) := retire k s st
    let st := calmReset s st
    let out : Out := { recs := back, closed := closed }
    match condNow k s with
    | none => if s.quietSrv then (st, out) else liftDiskMute k s st out
    | some c =>
      let st := bookkeep k s c st
      if s.quietSrv then quietTick k s c st out
      else
        let (st, out) := liftDiskMute k s st out
        let x := (loopBody nm k s c ⟨st, st.level, out⟩).out
        (x.st, x.out)

/-- One step of a run: what the tick reads, and whether the writes that wait for
its messages are made. -/
structure KindIn where
  seen : Seen
  fireAck : Bool
  recAck : Bool

/-- The state after a tick and its deliveries. -/
def afterTick (k : Kind) (i : KindIn) (r : KindSt × Out) : KindSt :=
  commit k i.seen.onb i.recAck r.2.recApply (commit k i.seen.onb i.fireAck r.2.fireApply r.1)

def kindStep (nm : Norms) (k : Kind) (st : KindSt) (i : KindIn) : KindSt :=
  afterTick k i (kindTick nm k i.seen st)

/-! ## A server of development -/

/-- One step of a run of a server that may be marked as one of development:
what the tick reads, the mark, and what becomes of the messages that are sent. -/
structure MarkedIn where
  seen : Seen
  dev : Bool := false
  /-- No fire of the server is left to be sent, and no recovery. -/
  fireAlone : Bool := false
  recAlone : Bool := false
  fireAck : Bool
  recAck : Bool

/-- `dev_mode.split` does not send the messages of the kind. -/
def MarkedIn.holds (k : Kind) (i : MarkedIn) : Bool := i.dev && k ∈ devApp

/-- The step for the states: what is not sent is written at once, or, when
something of the server is sent, together with that. -/
def MarkedIn.tick (k : Kind) (i : MarkedIn) : KindIn where
  seen := i.seen
  fireAck := (i.holds k && i.fireAlone) || i.fireAck
  recAck := (i.holds k && i.recAlone) || i.recAck

end Kervax
