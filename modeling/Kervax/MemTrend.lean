-- Memory leaks (`mem_trend.py`): the daily minima of each key, the growth that
-- is a leak, and the condition `mem_leak` that the alerts read.
import Kervax.MemReport
import Kervax.Maintenance

namespace Kervax.Mem

/-! ## The stored history -/

/-- `LEAK_DAYS`, `KEEP_DAYS`, `MIN_GROWTH_MB`, `MIN_STEP_MB`, `STEP_RATIO`, `CRIT_DAYS`. -/
def leakDays : Nat := 4
def keepDays : Nat := 8
def minGrowthMb : Int := 100
def minStepMb : Int := 5
def stepRatio : Int := 4
def critDays : Int := 3

/-- The history of a key: the day that goes on and its minimum, the minima of the
finished days, and the identity of the pod. -/
structure Series where
  d : Int
  m : Int
  h : List (Int × Int) := []
  u : String := ""
deriving DecidableEq, Repr

/-- `alert_state["mem_trend"]`. -/
abbrev Trend := List (Key × Series)

/-- `_identity_changed`: both identities are known and differ. -/
def identityChanged (known found : String) : Bool := known ≠ "" ∧ found ≠ "" ∧ known ≠ found

/-- `step`: a sample of the day; a day that is over goes to the history. -/
def stepSeries (prev : Option Series) (v day : Int) : Series :=
  match prev with
  | none => { d := day, m := v }
  | some p =>
    if p.d = day then { d := day, m := min (if p.m = 0 then v else p.m) v, h := p.h }
    else { d := day, m := v, h := lastN keepDays (p.h ++ [(p.d, p.m)]) }

/-- The identity that a report gives to a key: none for what is no pod. -/
def uidOf (rep : Report) (k : Key) : String :=
  if k.kind = .pod then ((podOf rep k).map Pod.uid).getD "" else ""

/-- The pod of this name is another one than the history is about. -/
def replaced (rep : Report) (k : Key) (known : String) : Bool :=
  k.kind = .pod ∧ identityChanged known (uidOf rep k)

/-- The first loop of `update`, for one key with its memory: the new history of a
key with a fresh sample. An incomplete list does not prove a new identity. -/
def sampled (old : Trend) (rep : Report) (now : Time) (day : Int) (k : Key) (v : Int) :
    Option Series :=
  if sampleFresh rep k now = false then none
  else
    let prev := old.lookup k
    let other := prev.any fun p => replaced rep k p.u
    if other ∧ inventoryComplete rep k.kind = false then none
    else
      let prev := if other then none else prev
      let uid := if uidOf rep k ≠ "" then uidOf rep k else (prev.map Series.u).getD ""
      some { stepSeries prev v day with u := if k.kind = .pod then uid else "" }

/-- What a history without a fresh sample is kept for: its absence is not proven,
or it had a sample on this day or the day before. -/
def keeps (rep : Report) (day : Int) (k : Key) (s : Series) : Bool :=
  inventoryComplete rep k.kind = false ∨ isMember rep k ∨ day - 1 ≤ s.d

/-- `update`. -/
def update (old : Trend) (rep : Report) (now : Time) (day : Int) : Trend :=
  let new := Dict.choose (sampled old rep now day) (targets rep)
  new ++ Dict.choose
    (fun k s => if new.lookup k = none ∧ keeps rep day k s then some s else none) old

/-! ## A leak -/

/-- The pairs of neighbours. -/
def steps (vals : List Int) : List Int := List.zipWith (fun a b => b - a) vals vals.tail

/-- The points that a leak is judged by. -/
def points (s : Series) : List (Int × Int) := lastN (leakDays + 1) s.h

/-- Enough finished days, one after another. -/
def continuous (s : Series) : Bool :=
  (points s).length = leakDays + 1 ∧ (steps ((points s).map Prod.fst)).all (· = 1)

/-- The growth rule: every step is one, the steps are of one size, and together
they are much. -/
def grows (vals : List Int) : Bool :=
  let base := vals.headD 0
  let total := vals.getLastD 0 - base
  0 < base ∧ (steps vals).all (fun s => base ≤ 100 * s ∧ minStepMb ≤ s) ∧
    (steps vals).foldl max 0 ≤ stepRatio * (steps vals).foldl min ((steps vals).headD 0) ∧
    base ≤ 5 * total ∧ minGrowthMb ≤ total

/-- `leak`: the growth in a day, in bytes. -/
def leak (s : Option Series) : Option Int :=
  match s with
  | none => none
  | some s =>
    let vals := (points s).map Prod.snd
    if continuous s ∧ grows vals then some ((vals.getLastD 0 - vals.headD 0) * mb / leakDays)
    else none

/-! ## The condition -/

/-- What of a server the condition reads. The three lists of announced keys are
those of the alert, of its story and of the known problem; `muted` is
`podnames.muted` for the mutes of the server. -/
structure Server where
  trend : Option Trend := none
  memLeak : Nat := 0
  sig : List Key := []
  told : List Key := []
  knownLevel : Nat := 0
  knownSig : List Key := []
  lastSeen : Option Time := none
  offlineAfter : Int := 120
  report : Report := {}
  muted : Key → Bool := fun _ => false

/-- `fresh`. -/
def fresh (s : Server) (now : Time) : Bool :=
  match s.lastSeen with
  | none => false
  | some seen =>
    -sec 60 ≤ now - seen ∧ now - seen ≤ sec (if s.offlineAfter = 0 then 120 else s.offlineAfter)

/-- What the server is known to say. -/
def Server.series (s : Server) (k : Key) : Option Series := (s.trend.getD []).lookup k

/-- The object of a key is gone or another one, and a complete list says so. -/
def provenGone (s : Server) (now : Time) (k : Key) : Bool :=
  fresh s now ∧ inventoryComplete s.report k.kind ∧
    (isMember s.report k = false ∨ replaced s.report k ((s.series k).map Series.u |>.getD ""))

/-- One growing object, with its growth in a day. -/
structure Growing where
  key : Key
  rate : Int
deriving DecidableEq, Repr

/-- The first loop of `problems`: what grows, in the order of the keys. -/
def growing (s : Server) (now : Time) : List Growing :=
  ((s.trend.getD []).mergeSort fun a b => decide (a.1.text ≤ b.1.text)).filterMap fun (k, cs) =>
    if provenGone s now k ∨ s.muted k then none else (leak (some cs)).map fun r => ⟨k, r⟩

/-- A pod of this very node. -/
def localPod (s : Server) (k : Key) : Bool :=
  k.kind = .pod ∧ s.report.hostname ≠ "" ∧
    ((podOf s.report k).map Pod.node).getD "" = s.report.hostname

/-- The processes are left out when a container or a pod of this node grows. -/
def shown (s : Server) (now : Time) : List Growing :=
  let out := growing s now
  if out.any fun x => localPod s x.key ∨ x.key.kind = .docker then
    out.filter fun x => x.key.kind ≠ .proc
  else out

/-- What all that grows in one memory takes of it in a day. -/
def rateOf (s : Server) (now : Time) (p : Pool) : Int :=
  ((shown s now).filter fun x =>
    fresh s now && sampleFresh s.report x.key now && (pool s.report x.key now).1 = p).map
      Growing.rate |>.sum

/-- `eta < CRIT_DAYS`, where `eta` is rounded to a tenth of a day. -/
def short (free rate : Int) : Bool := 20 * free < (20 * critDays - 1) * rate

/-- The level of what grows: by the memory left where it is known, and as it was
announced where it is not. -/
def levelOf (s : Server) (now : Time) (k : Key) : Nat :=
  let (p, free) := pool s.report k now
  match free with
  | some f =>
    if fresh s now ∧ sampleFresh s.report k now ∧
        replaced s.report k ((s.series k).map Series.u |>.getD "") = false then
      if 0 < rateOf s now p ∧ short f (rateOf s now p) then 2 else 0
    else held
  | none => held
where
  held : Nat :=
    let prior := if s.sig = [] then s.told else s.sig
    max (if prior = [] ∨ k ∈ prior then s.memLeak else 0)
      (if s.knownSig = [] ∨ k ∈ s.knownSig then s.knownLevel else 0)

/-- `problems`: what grows, with its level. -/
def problems (s : Server) (now : Time) : List (Growing × Nat) :=
  if s.trend = none then [] else (shown s now).map fun x => (x, levelOf s now x.key)

/-- `previous_keys`. -/
def previousKeys (s : Server) : List Key :=
  let keys := s.sig ++ s.told ++ s.knownSig
  if keys ≠ [] then keys
  else ((s.trend.getD []).filter fun x => leak (some x.2) ≠ none).map Prod.fst

/-- `recovery_confirmed` for one key. -/
def keyConfirmed (s : Server) (now : Time) (k : Key) : Bool :=
  if isMember s.report k = false then inventoryComplete s.report k.kind
  else if replaced s.report k ((s.series k).map Series.u |>.getD "") then
    inventoryComplete s.report k.kind
  else if sampleFresh s.report k now = false then false
  else leak (s.series k) = none ∨ (pool s.report k now).2 ≠ none

/-- `recovery_confirmed`. -/
def recoveryConfirmed (s : Server) (now : Time) : Bool :=
  fresh s now && previousKeys s ≠ [] && (previousKeys s).all (keyConfirmed s now)

/-- The server is on line for `_server_conditions`. -/
def online (s : Server) (now : Time) : Bool :=
  s.lastSeen.any fun seen => now - seen ≤ sec (max s.offlineAfter 30)

/-- The condition `mem_leak` of `_server_conditions`: its level and whom it is
about, or nothing at all. -/
def memLeakCond (s : Server) (now : Time) : Option (Nat × List Key) :=
  if online s now = false ∨ s.trend = none then none
  else
    let ml := (problems s now).filter fun x => x.2 ≠ 0
    if ml = [] ∧ recoveryConfirmed s now = false then none
    else some ((ml.map Prod.snd).foldl max 0, ml.map fun x => x.1.key)

end Kervax.Mem
