-- The term of a domain that several monitors stand on (`DomainAlerts`,
-- `_apply_expiry` of the domain): one message for a domain and a threshold.
import Kervax.Expiry

namespace Kervax

open Runs

/-! ## One pass over the monitors of a domain -/

/-- `DomainAlerts` for one domain: the marker and the days of each monitor, as
the pass began and with what it changed since. -/
structure DomainAlerts where
  members : List Nat
  by' : Nat → Option Int × Option Int

/-- `setdefault`. -/
def DomainAlerts.enter (doms : DomainAlerts) (cid : Nat) : DomainAlerts :=
  if cid ∈ doms.members then doms
  else { members := doms.members ++ [cid], by' := Function.update doms.by' cid (none, none) }

def DomainAlerts.others (doms : DomainAlerts) (cid : Nat) : List (Option Int × Option Int) :=
  (doms.members.filter (· ≠ cid)).map doms.by'

/-- `should_alert`. -/
def DomainAlerts.shouldAlert (doms : DomainAlerts) (cid : Nat) (bucket : Int) :
    DomainAlerts × Bool :=
  let entered := doms.enter cid
  ({ entered with by' := Function.update entered.by' cid (some bucket, (entered.by' cid).2) },
    !(doms.others cid).any fun o => o.1.any (· ≤ bucket))

/-- `first_renewed`. -/
def DomainAlerts.firstRenewed (doms : DomainAlerts) (cid : Nat) (days limit : Int) :
    DomainAlerts × Bool :=
  let entered := doms.enter cid
  ({ entered with by' := Function.update entered.by' cid (none, some days) },
    !(doms.others cid).any fun o => o.1 = none ∧ o.2.any (limit < ·))

/-- The rows of the monitors, the domain's state, and what is queued. `stale` is
not in the source: it tells the markers from before the last renewal. -/
structure Pass where
  rows : Nat → Term
  doms : DomainAlerts
  pending : List (Nat × TermMsg) := []
  stale : Nat → Bool

/-- A monitor that is refreshed in a pass. -/
structure Refresh where
  cid : Nat
  look : Look

/-- Renewed: the marker is cleared, and one message is enough. -/
def renewDomain (dom : String) (cid : Nat) (row : Term) (doms : DomainAlerts) (d : Int) :
    Term × DomainAlerts × List TermMsg :=
  match row.thr.max? with
  | none => (row, doms, [])
  | some limit =>
    if limit < d then
      let out := doms.firstRenewed cid d limit
      ({ row with alerted := none }, out.1,
        if row.alerted ≠ none ∧ !row.quiet ∧ out.2 then
          [.renewed s!"регистрация домена {dom} продлена, до истечения {d} дн."]
        else [])
    else (row, doms, [])

/-- The reminder that is due, or a silent mark: another monitor said it. -/
def remindDomain (dom : String) (n cid : Nat) (row : Term) (doms : DomainAlerts) (d : Int) :
    Term × DomainAlerts × List TermMsg :=
  match expiryBucket d row.thr row.alerted with
  | none => (row, doms, [])
  | some bucket =>
    if row.quiet then (row, doms, [])
    else
      let out := doms.shouldAlert cid bucket
      if out.2 then
        let text := expiryText s!"регистрация домена {dom}" d s!"регистрация домена {dom} истекла"
        let more := if 1 < n then s!" (мониторов на нем: {n})" else ""
        (row, out.1, [.reminder (text ++ more) bucket])
      else ({ row with alerted := some bucket }, out.1, [])

/-- `_apply_expiry` of the domain. -/
def applyDomain (dom : String) (cid : Nat) (row : Term) (doms : DomainAlerts)
    (info : Option Int) : Term × DomainAlerts × List TermMsg :=
  let row := row.probed info
  match info with
  | none => (row, doms, [])
  | some d =>
    if row.check then
      let x := renewDomain dom cid row doms d
      let y := remindDomain dom doms.members.length cid x.1 x.2.1 d
      (y.1, y.2.1, x.2.2 ++ y.2.2)
    else (row, doms, [])

/-- The refresh of one monitor. -/
def refreshNext (dom : String) (x : Pass) (i : Refresh) : Pass :=
  let out := applyDomain dom i.cid (i.look.row (x.rows i.cid)) x.doms i.look.days
  { rows := Function.update x.rows i.cid out.1
    doms := out.2.1
    pending := x.pending ++ out.2.2.map fun m => (i.cid, m)
    stale := if i.look.days = none then x.stale else Function.update x.stale i.cid false }

/-! ## Passes and deliveries -/

/-- The reminders that are queued: the monitor and the bucket. -/
def reminders (pending : List (Nat × TermMsg)) : List (Nat × Int) :=
  pending.filterMap fun p =>
    match p.2 with
    | .reminder _ bucket => some (p.1, bucket)
    | .renewed _ => none

/-- The monitors of a domain over its passes. `told` and `stale` are not in the
source: the buckets of the delivered reminders since the last renewal, and the
markers from before it. -/
structure DomainLog where
  rows : Nat → Term
  told : List Int := []
  stale : Nat → Bool := fun _ => false

inductive DomainEvent
  /-- The domain is renewed. -/
  | renewed
  /-- A pass: the monitors in the order of their refresh, and for each whether
  the reminder that it offers goes out. A pause, a snooze, a rule that is off and
  a failed batch are all no delivery. -/
  | pass (refreshes : List Refresh) (delivered : Nat → Bool)

/-- The pass as it begins: `DomainAlerts` reads the rows. -/
def DomainLog.start (members : List Nat) (s : DomainLog) : Pass :=
  { rows := s.rows
    doms := ⟨members, fun c => ((s.rows c).alerted, (s.rows c).days)⟩
    stale := s.stale }

/-- The commits of the delivered reminders. -/
def commitOffers (rows : Nat → Term) (sent : List (Nat × Int)) : Nat → Term :=
  sent.foldl (fun rows p => Function.update rows p.1 { rows p.1 with alerted := some p.2 }) rows

/-- The reminders of the pass that go out. -/
def Pass.sent (x : Pass) (delivered : Nat → Bool) : List (Nat × Int) :=
  (reminders x.pending).filter fun p => delivered p.1

def domainNext (dom : String) (members : List Nat) (s : DomainLog) : DomainEvent → DomainLog
  | .renewed => { s with told := [], stale := fun c => (s.rows c).alerted.isSome }
  | .pass refreshes delivered =>
    let x := run (refreshNext dom) (s.start members) refreshes
    { rows := commitOffers x.rows (x.sent delivered)
      told := s.told ++ (x.sent delivered).map (·.2)
      stale := x.stale }

end Kervax
