-- The sending of the alerts of the site monitors (`_send_alerts` of
-- `collector.py`): the batch is folded by domain and by site, sent at once,
-- and marked at once. A recovery that did not go out waits in a table.
import Kervax.Dispatch
import Mathlib.Data.List.Sort

namespace Kervax

/-! ## A pending alert -/

inductive SiteKind
  | bad | recovery | recstable | ssl | domain | locpart | locrec | flaky | flakyrec | tamper
  | tamperrec | known
deriving DecidableEq, Repr

/-- `_RECOVERY_KINDS`: the recoveries of a monitor that was down. -/
def recoveryKinds : List SiteKind := [.recovery, .recstable]

/-- `_SITE_RECOVERY`. -/
def siteRecovery : List SiteKind := [.recovery, .recstable, .locrec, .flakyrec, .tamperrec]

/-- The kinds that a known problem or a silent parent keeps back. -/
def failureKinds : List SiteKind := [.bad, .flaky, .locpart]

/-- `_SITE_RULE_KIND`. -/
def SiteKind.rule : SiteKind → Option String
  | .bad => some "down"
  | .recovery | .recstable => some "recovery"
  | .ssl => some "ssl"
  | .domain => some "domain"
  | .locpart | .locrec => some "locpart"
  | .flaky | .flakyrec => some "flaky"
  | .tamper | .tamperrec => some "tamper"
  | .known => none

/-- `_SITE_HISTORY_KIND.get(kind, rk or kind)`. -/
def SiteKind.history : SiteKind → String
  | .bad | .recovery | .recstable => "down"
  | .tamperrec => "tamper"
  | k => k.rule.getD "known"

/-- `Pending`. `flag` lists what to set on the monitor once the alert is out;
`V` is the type of these values. A reminder of a known problem sets nothing. -/
structure Pending (V : Type) where
  kind : SiteKind
  name : String
  status : String
  msg : String
  incId : Option Nat
  checkId : Option Nat
  flag : List (String × V)
  known_bare : kind = .known → incId = none ∧ flag = []

/-- One write into the database. -/
inductive Write (V : Type)
  /-- `inc.notified = True`. -/
  | notified (inc : Nat)
  /-- `setattr(row, attr, value)`. -/
  | set (check : Nat) (attr : String) (value : V)

variable {V : Type}

/-- What the commit of an alert writes: its incident, and its flags. -/
def Pending.marks (p : Pending V) : List (Write V) :=
  (match p.kind, p.incId with
    | .bad, some i => [.notified i]
    | _, _ => []) ++
  match p.checkId with
  | some c => p.flag.map fun f => .set c f.1 f.2
  | none => []

/-! ## The settings that the loop reads -/

inductive SiteScope
  | all
  | groups (l : List String)
  | checks (l : List Nat)
  | other
deriving DecidableEq, Repr

structure SiteRule where
  enabled : Bool
  scope : SiteScope := .all
deriving DecidableEq, Repr

/-- `_site_scope_ok`. -/
def siteScopeOk (rule : SiteRule) (checkId : Option Nat) (group : String) : Bool :=
  match rule.scope with
  | .all | .other => true
  | .groups l => group ∈ l
  | .checks l =>
    match checkId with
    | some c => c ∈ l
    | none => false

/-- What `_send_alerts` reads of the monitors before the loop. A monitor is
named by its id, and an alert without one reads the default. -/
structure SiteCtx where
  rules : String → Option SiteRule
  group : Nat → String
  mutes : Nat → List String
  /-- Target and type. -/
  addr : Nat → String × String
  snoozed : List Nat
  quietFailures : List Nat
  held : List Nat

/-- The texts of the alerts, and the domain that is paid for as a whole. -/
structure SiteWords (V : Type) where
  say : Pending V → String
  host : Pending V → String
  domCount : Msg → Nat → String
  alsoHosts : Msg → List String → String
  registrable : String → String

def has (l : List Nat) (c : Option Nat) : Bool :=
  match c with
  | some c => c ∈ l
  | none => false

/-! ## The folding of the batch -/

/-- What the loop carries along. The lists `domN`, `sameHosts`, `moreIds` and
`moreNames` hold one entry for each alert that was folded into a text. `carry`
is not in the source: it says which text each alert went to. -/
structure Folding (V : Type) where
  texts : List Msg := []
  commits : List (Pending V) := []
  domAt : List (String × Nat) := []
  domN : List Nat := []
  sameAt : List ((SiteKind × String × String) × Nat) := []
  sameHosts : List (Nat × String) := []
  moreIds : List (Nat × Nat) := []
  moreNames : List (Nat × String) := []
  carry : List (Pending V × Nat) := []

def idOf (idx : Nat) (c : Option Nat) : List (Nat × Nat) :=
  match c with
  | some c => [(idx, c)]
  | none => []

/-- An alert that goes into the text `idx` of a neighbour. -/
def Folding.join (f : Folding V) (p : Pending V) (idx : Nat) : Folding V :=
  { f with
    commits := f.commits ++ [p]
    moreIds := f.moreIds ++ idOf idx p.checkId
    moreNames := f.moreNames ++ [(idx, p.name)]
    carry := f.carry ++ [(p, idx)] }

/-- An alert that gets a text of its own. -/
def Folding.add (f : Folding V) (p : Pending V) (m : Msg) (zone : Option String)
    (same : Option (SiteKind × String × String)) : Folding V :=
  let idx := f.texts.length
  { f with
    texts := f.texts ++ [m]
    commits := f.commits ++ [p]
    domAt := f.domAt ++ (match zone with | some z => [(z, idx)] | none => [])
    sameAt := f.sameAt ++ (match same with | some k => [(k, idx)] | none => [])
    carry := f.carry ++ [(p, idx)] }

/-- The reminder of a known problem: a text, and nothing to commit. -/
def Folding.remind (f : Folding V) (p : Pending V) (m : Msg) : Folding V :=
  { f with texts := f.texts ++ [m], carry := f.carry ++ [(p, f.texts.length)] }

/-- An alert that the settings keep back before it is folded. -/
def keptBack (x : SiteCtx) (p : Pending V) : Bool :=
  (has x.snoozed p.checkId && p.kind ∉ recoveryKinds) ||
    match p.kind.rule, p.checkId with
    | some rk, some c => rk ∈ x.mutes c
    | _, _ => false

def keptBackFailure (x : SiteCtx) (p : Pending V) : Bool :=
  (has x.quietFailures p.checkId || has x.held p.checkId) && p.kind ∈ failureKinds

/-- The rule of the kind is off, or does not reach the monitor. -/
def ruleOff (x : SiteCtx) (p : Pending V) (grp : String) : Bool :=
  match p.kind.rule.bind x.rules with
  | some rule => !rule.enabled || !siteScopeOk rule p.checkId grp
  | none => false

def groupOf (x : SiteCtx) (p : Pending V) : String := (p.checkId.map x.group).getD ""

def addrOf (x : SiteCtx) (p : Pending V) : String × String :=
  (p.checkId.map x.addr).getD ("", "http")

/-- `zone`: the domain that runs out, unless it has no name. -/
def zoneOf (x : SiteCtx) (sw : SiteWords V) (p : Pending V) : Option String :=
  let (tgt, _) := addrOf x p
  let zone := sw.registrable (if tgt ≠ "" then tgt else p.name)
  if p.kind = .domain ∧ zone ≠ "" then some zone else none

/-- `same`: what the alerts of one site have in common. -/
def sameOf (x : SiteCtx) (sw : SiteWords V) (p : Pending V) :
    Option (SiteKind × String × String) :=
  let (tgt, typ) := addrOf x p
  if p.kind ∈ [SiteKind.bad, .recovery, .recstable] ∧ tgt ≠ "" ∧ typ ∉ ["push", "dns"] then
    some (p.kind, p.status, sw.registrable tgt)
  else none

/-- One turn of the loop over the pending alerts. -/
def foldOne (x : SiteCtx) (sw : SiteWords V) (f : Folding V) (p : Pending V) : Folding V :=
  let grp := groupOf x p
  let msg : Msg :=
    { text := sw.say p, sect := "sites", group := grp, kind := p.kind.history, target := p.name }
  if keptBack x p then f
  else if p.kind = .known then f.remind p { msg with kind := "known" }
  else if keptBackFailure x p then f
  else
    let zone := zoneOf x sw p
    let same := sameOf x sw p
    match zone.bind fun z => f.domAt.lookup z, same.bind fun k => f.sameAt.lookup k with
    | some idx, _ => { f.join p idx with domN := f.domN ++ [idx] }
    | none, some idx => { f.join p idx with sameHosts := f.sameHosts ++ [(idx, sw.host p)] }
    | none, none =>
      if ruleOff x p grp then f
      else
        f.add p { msg with
          recovery := p.kind ∈ siteRecovery
          ref := match p.checkId with | some c => .chk [c] | none => .empty } zone same

/-- The texts as they stand after the loop: the counts, the other hosts, the
ids under the buttons and the parts for the history. -/
def Folding.finish (sw : SiteWords V) (f : Folding V) : List Msg :=
  f.texts.mapIdx fun i m =>
    let n := 1 + f.domN.count i
    let m := if 1 < n then { m with text := sw.domCount m n } else m
    let hosts := (f.sameHosts.filter (·.1 = i)).map (·.2)
    let m := if hosts ≠ [] then { m with text := sw.alsoHosts m hosts } else m
    let ids := (f.moreIds.filter (·.1 = i)).map (·.2)
    let m := match m.ref with
      | .chk l => { m with ref := .chk (l ++ ids) }
      | _ => m
    let names := (f.moreNames.filter (·.1 = i)).map (·.2)
    if names = [] then m
    else { m with
      parts := m.part ::
        (names.filter (· ≠ m.target)).map fun n => { m.part with target := n, ref := .empty } }

def foldAll (x : SiteCtx) (sw : SiteWords V) (pending : List (Pending V)) : Folding V :=
  pending.foldl (foldOne x sw) {}

/-! ## The retries of the recoveries -/

/-- `_REC_RETRY`: the recoveries that did not go out, by monitor. -/
abbrev Retry (V : Type) := List (Nat × Pending V × Int)

def recRetryMax : Int := 24 * 3600 * 1000000

/-- The monitors of the pending recoveries: the keys of `recs`. -/
def recIds (pending : List (Pending V)) : List Nat :=
  (pending.filter (·.kind ∈ recoveryKinds)).filterMap (·.checkId)

/-- `_with_retries`: the recoveries of monitors that are still up join the
batch. `up` is what the database says, or nothing when it cannot be read. -/
def withRetries (retry : Retry V) (pending : List (Pending V)) (now : Int)
    (up : Option (Nat → Bool)) : List (Pending V) × Retry V :=
  let live := retry.filter fun e => now - e.2.2 < recRetryMax
  let want := live.filter fun e => e.1 ∉ recIds pending
  if want = [] then (pending, live)
  else
    match up with
    | none => (pending, live)
    | some up =>
      (pending ++ ((want.filter fun e => up e.1).insertionSort fun a b => a.1 ≤ b.1).map (·.2.1),
        live.filter fun e => e.1 ∈ recIds pending || up e.1)

/-- `_REC_RETRY.setdefault` for each recovery of the batch. -/
def setDefaults (retry : Retry V) (pending : List (Pending V)) (now : Int) : Retry V :=
  pending.foldl (fun r p =>
    match p.checkId with
    | some c => if p.kind ∈ recoveryKinds ∧ c ∉ r.map (·.1) then r ++ [(c, p, now)] else r
    | none => r) retry

/-! ## The whole batch -/

/-- The world around one `_send_alerts`: the settings, the channels, and how
`_site_groups` merges the texts of one place (which texts each message that
goes out carries). -/
structure SiteWorld (V : Type) where
  ctx : SiteCtx
  words : SiteWords V
  /-- Alerts are muted, or no channel is set. -/
  off : Bool
  up : Option (Nat → Bool)
  siteGroups : List Msg → List (Msg × List Nat)
  wording : Wording
  cfg : Cfg
  net : Net
  threshold : Nat

/-- What goes out: the messages with the texts that each of them carries, and
which of them `dispatch` finished. -/
structure Delivery (V : Type) where
  commits : List (Pending V)
  carry : List (Pending V × Nat)
  sent : List (Msg × List Nat)
  finished : Finset Nat
  ok : Bool

/-- The batch is folded and sent, unless alerts are off. -/
def deliver (e : SiteWorld V) (pending : List (Pending V)) : Option (Delivery V) :=
  if e.off then none
  else
    let f := foldAll e.ctx e.words pending
    let out := e.siteGroups (f.finish e.words)
    let d := dispatch e.wording e.cfg e.net true (out.map (·.1)) e.threshold false
    some ⟨f.commits, f.carry, out, d.finished, d.ok⟩

/-- What `_send_alerts` leaves: the writes it made, and the table of recoveries. -/
structure SiteSent (V : Type) where
  writes : List (Write V) := []
  retry : Retry V

/-- `_send_alerts`. -/
def sendAlerts (e : SiteWorld V) (retry : Retry V) (pending : List (Pending V)) (now : Int) :
    SiteSent V :=
  let (pending, retry) := withRetries retry pending now e.up
  match deliver e pending with
  | none => { retry := retry }
  | some d =>
    if d.ok then
      { writes := d.commits.flatMap (·.marks), retry := retry.filter (·.1 ∉ recIds pending) }
    else { retry := setDefaults retry pending now }

end Kervax
