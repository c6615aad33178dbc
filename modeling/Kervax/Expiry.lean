-- The terms of a certificate (`_expiry_bucket`, `_apply_expiry`,
-- `expiry_snooze.py`): one reminder for each threshold that is reached, and a
-- term that was put off.
import Kervax.Runs
import Mathlib.Data.List.Sort
import Mathlib.Data.List.Dedup

namespace Kervax

open Runs

/-! ## The thresholds -/

/-- `_EXPIRED_BUCKET`: tighter than each threshold that can be set. -/
def expiredBucket : Int := -1

/-- The thresholds that are reached: `crossed`. -/
def crossed (days : Int) (thresholds : List Int) : List Int :=
  thresholds.filter (days ≤ ·) ++ if days < 0 then [expiredBucket] else []

/-- `_expiry_bucket`. -/
def expiryBucket (days : Int) (thresholds : List Int) (alerted : Option Int) : Option Int :=
  match (crossed days thresholds).min? with
  | none => none
  | some bucket =>
    match alerted with
    | none => some bucket
    | some a => if bucket < a then some bucket else none

/-- `_expiry_text`. -/
def expiryText (what : String) (days : Int) (expired : String) : String :=
  if 0 < days then s!"{what} истекает через {days} дн."
  else if days = 0 then s!"{what} истекает сегодня"
  else expired

/-! ## A term that was put off -/

/-- `RENEW_SLACK`. -/
def renewSlack : Int := 2

/-- An entry of `expiry_snooze`: how many days before the end it comes back (0 is
never), and the days that were left when it was put off. -/
structure Snooze where
  mode : Int
  days : Option Int
deriving DecidableEq

/-- `renewed`. -/
def Snooze.renewed (e : Snooze) (days : Option Int) : Bool :=
  match e.days, days with
  | some was, some days => was + renewSlack < days
  | _, _ => false

/-- `hidden`. -/
def hidden (e : Option Snooze) (days : Option Int) : Bool :=
  match e with
  | none => false
  | some e =>
    if e.mode = 0 then true
    else if e.renewed days then false
    else
      match days with
      | none => false
      | some days => e.mode < days

/-- `thresholds`: those that are set, and that of the term that was put off. -/
def thresholds (e : Option Snooze) (thr : List Int) (days : Option Int) : List Int :=
  match e with
  | none => thr
  | some e =>
    if e.renewed days then thr
    else if 0 < e.mode then (thr ++ [e.mode]).dedup.insertionSort (· ≥ ·)
    else thr

/-- `sync`: a renewal ends what was put off. Not to follow stays. -/
def syncSnooze (e : Option Snooze) (days : Option Int) : Option Snooze :=
  match e with
  | none => none
  | some e => if 0 < e.mode ∧ e.renewed days then none else some e

/-! ## The certificate of a monitor -/

/-- The fields of a monitor that its certificate has. -/
structure Term where
  /-- `check_ssl`, `ssl_warn_days`. -/
  check : Bool := true
  warn : List Int := []
  days : Option Int := none
  alerted : Option Int := none
  snooze : Option Snooze := none
deriving DecidableEq

/-- What is queued about a term. -/
inductive TermMsg
  /-- Renewed: a message without a flag. -/
  | renewed (text : String)
  /-- A reminder, and the bucket that its delivery stores. -/
  | reminder (text : String) (bucket : Int)
deriving DecidableEq

/-- The days left are over every threshold. -/
def overAll (days : Int) (thr : List Int) : Bool :=
  match thr.max? with
  | none => false
  | some m => m < days

/-- The thresholds that count, and whether the term is put off. -/
def Term.thr (row : Term) : List Int := thresholds row.snooze row.warn row.days

def Term.quiet (row : Term) : Bool := hidden row.snooze row.days

/-- What the probe found; days that it could not tell stay as they were. -/
def Term.probed (row : Term) (info : Option Int) : Term :=
  { row with days := info.or row.days, snooze := syncSnooze row.snooze (info.or row.days) }

/-- Renewed: the marker is cleared. -/
def Term.renew (row : Term) (d : Int) : Term × List TermMsg :=
  if overAll d row.thr then
    ({ row with alerted := none },
      if row.alerted ≠ none ∧ !row.quiet then
        [.renewed s!"SSL-сертификат перевыпущен, до истечения {d} дн."]
      else [])
  else (row, [])

/-- The reminder that is due. -/
def Term.remind (row : Term) (d : Int) : List TermMsg :=
  match expiryBucket d row.thr row.alerted with
  | none => []
  | some bucket =>
    if row.quiet then []
    else [.reminder (expiryText "SSL-сертификат" d "SSL-сертификат истёк") bucket]

/-- `_apply_expiry` of the certificate; `info` are the days that the probe gave. -/
def applyExpiry (row : Term) (info : Option Int) : Term × List TermMsg :=
  let row := row.probed info
  match info with
  | none => (row, [])
  | some d =>
    if row.check then
      let (row, back) := row.renew d
      (row, back ++ row.remind d)
    else (row, [])

/-- The buckets of the reminders among the messages. -/
def reminded (msgs : List TermMsg) : List Int :=
  msgs.filterMap fun
    | .reminder _ bucket => some bucket
    | .renewed _ => none

/-- The commits of `_send_alerts`, once the messages went out. -/
def commitTerm (row : Term) (msgs : List TermMsg) : Term :=
  (reminded msgs).foldl (fun row bucket => { row with alerted := some bucket }) row

/-! ## Runs -/

/-- An observation: the settings as they stand by then, and the days left. -/
structure Look where
  check : Bool := true
  warn : List Int
  /-- A change of what was put off since the last one. -/
  snooze : Option (Option Snooze) := none
  days : Option Int
deriving DecidableEq

def Look.row (i : Look) (row : Term) : Term :=
  { row with check := i.check, warn := i.warn, snooze := i.snooze.getD row.snooze }

/-- A certificate, and the buckets of the reminders since the last renewal. -/
structure TermLog where
  row : Term := {}
  sent : List Int := []
deriving DecidableEq

/-- The days left rose: a renewal. -/
def rose (row : Term) (i : Look) : Bool :=
  match row.days, i.days with
  | some was, some days => was < days
  | _, _ => false

/-- The reminders since the last renewal, as an observation begins. -/
def TermLog.since (s : TermLog) (i : Look) : List Int := if rose s.row i then [] else s.sent

/-- An observation whose messages are delivered. -/
def lookNext (s : TermLog) (i : Look) : TermLog :=
  let out := applyExpiry (i.row s.row) i.days
  { row := commitTerm out.1 out.2, sent := s.since i ++ reminded out.2 }

/-- The monitor as an observation finds it. -/
def Look.seen (i : Look) (row : Term) : Term := (i.row row).probed i.days

/-- What is due at an observation: the tightest threshold that is reached, when
it is tighter than all that was said since the last renewal. -/
def TermLog.due (s : TermLog) (i : Look) : List Int :=
  match i.days with
  | none => []
  | some d =>
    if i.check ∧ (i.seen s.row).quiet = false then
      match (crossed d (i.seen s.row).thr).min? with
      | none => []
      | some c => if ∀ b ∈ s.since i, c < b then [c] else []
    else []

/-- The observation says what is due. -/
def Announced (s : TermLog) (i : Look) : Prop :=
  reminded (applyExpiry (i.row s.row) i.days).2 = s.due i

/-- While a reminder stands, the days left are over every threshold exactly when
they rose. -/
def Synced (s : TermLog) (i : Look) : Prop :=
  s.row.alerted ≠ none →
    (rose s.row i = true ↔
      i.check = true ∧ ∃ d, i.days = some d ∧ overAll d (i.seen s.row).thr = true)

/-! ## What an observation does -/

variable {s : TermLog} {i : Look}

/-- The marker as the bucket is compared with it. -/
def Look.marker (i : Look) (row : Term) : Option Int :=
  match i.days with
  | none => row.alerted
  | some d => if i.check ∧ overAll d (i.seen row).thr then none else row.alerted

theorem renew_reminded (row : Term) (d : Int) : reminded (row.renew d).2 = [] := by
  unfold Term.renew
  split
  · split <;> rfl
  · rfl

theorem renew_row (row : Term) (d : Int) :
    (row.renew d).1.thr = row.thr ∧ (row.renew d).1.quiet = row.quiet ∧
      (row.renew d).1.alerted = if overAll d row.thr then none else row.alerted := by
  unfold Term.renew
  split <;> exact ⟨rfl, rfl, rfl⟩

theorem remind_reminded (row : Term) (d : Int) :
    reminded (row.remind d) =
      if row.quiet then [] else (expiryBucket d row.thr row.alerted).toList := by
  unfold Term.remind
  cases expiryBucket d row.thr row.alerted with
  | none => simp [reminded]
  | some b => cases row.quiet <;> rfl

theorem commitTerm_alerted (row : Term) (msgs : List TermMsg) :
    (commitTerm row msgs).alerted = (reminded msgs).getLast?.or row.alerted := by
  unfold commitTerm
  induction reminded msgs using List.reverseRecOn with
  | nil => rfl
  | append_singleton l b _ => simp

/-- What an observation sends, and the marker after it. -/
theorem applyExpiry_spec (row : Term) (i : Look) :
    (reminded (applyExpiry (i.row row) i.days).2 =
      match i.days with
      | none => []
      | some d =>
        if i.check = true ∧ (i.seen row).quiet = false then
          (expiryBucket d (i.seen row).thr (i.marker row)).toList
        else []) ∧
    (commitTerm (applyExpiry (i.row row) i.days).1 (applyExpiry (i.row row) i.days).2).alerted =
      (reminded (applyExpiry (i.row row) i.days).2).getLast?.or (i.marker row) := by
  rw [commitTerm_alerted]
  cases hd : i.days with
  | none => simp [applyExpiry, reminded, Look.marker, hd, Term.probed, Look.row]
  | some d =>
    have hseen : (i.row row).probed (some d) = i.seen row := by rw [Look.seen, hd]
    have hcheck : (i.seen row).check = i.check := rfl
    have halert : (i.seen row).alerted = row.alerted := rfl
    obtain ⟨hthr, hquiet, hmark⟩ := renew_row (i.seen row) d
    simp only [applyExpiry, hseen, hcheck, Look.marker, hd]
    cases i.check with
    | false => simp [reminded, halert]
    | true =>
      rw [halert] at hmark
      simp only [if_true, true_and]
      rw [hmark]
      refine ⟨?_, rfl⟩
      rw [reminded, List.filterMap_append]
      change reminded _ ++ reminded _ = _
      rw [renew_reminded, remind_reminded, hthr, hquiet, hmark]
      cases (i.seen row).quiet <;> simp

theorem expiryBucket_eq (d : Int) (thr : List Int) (a : Option Int) :
    expiryBucket d thr a =
      (crossed d thr).min?.bind fun c => if ∀ b ∈ a, c < b then some c else none := by
  unfold expiryBucket
  cases (crossed d thr).min? with
  | none => rfl
  | some c => cases a <;> simp

/-! ## Runs in step with the renewals -/

/-- The marker is the last reminder since the last renewal, and the tightest. -/
structure TermSane (s : TermLog) : Prop where
  marked : s.row.alerted = s.sent.getLast?
  tighter : s.sent.Pairwise (· > ·)

/-- Tighter than the last is tighter than all. -/
theorem lt_last {l : List Int} (h : l.Pairwise (· > ·)) (c : Int) :
    (∀ b ∈ l.getLast?, c < b) ↔ ∀ b ∈ l, c < b := by
  induction l using List.reverseRecOn with
  | nil => simp
  | append_singleton l a _ =>
    have hlast := (List.pairwise_append.1 h).2.2
    simp only [List.getLast?_append, List.getLast?_singleton, Option.some_or, Option.mem_def,
      Option.some.injEq, List.mem_append, List.mem_singleton]
    constructor
    · rintro hc b (hb | rfl)
      · exact (hc a rfl).trans (hlast b hb a (by simp))
      · exact hc b rfl
    · rintro hc b rfl
      exact hc _ (.inr rfl)

theorem since_marked (h : TermSane s) (hs : Synced s i) : i.marker s.row = (s.since i).getLast? := by
  cases ha : s.row.alerted with
  | none =>
    have hsent : s.sent = [] := List.getLast?_eq_none_iff.1 (h.marked ▸ ha)
    have hm : i.marker s.row = none := by
      unfold Look.marker
      split
      · exact ha
      · split
        · rfl
        · exact ha
    simp [hm, TermLog.since, hsent]
  | some a =>
    have hiff := hs (by simp [ha])
    unfold TermLog.since
    cases hr : rose s.row i with
    | true =>
      obtain ⟨hc, d, hd, hover⟩ := hiff.1 hr
      simp [Look.marker, hd, hc, hover]
    | false =>
      have hno : i.marker s.row = s.row.alerted := by
        unfold Look.marker
        split
        · rfl
        · rename_i d hd
          rw [if_neg]
          rintro ⟨hc, hover⟩
          exact Bool.false_ne_true (hr.symm.trans (hiff.2 ⟨hc, d, hd, hover⟩))
      rw [hno, h.marked]
      rfl

theorem since_tighter (h : TermSane s) : (s.since i).Pairwise (· > ·) := by
  unfold TermLog.since
  split
  · exact .nil
  · exact h.tighter

/-- In step with the renewals, an observation says what is due. -/
theorem announced_of_synced (h : TermSane s) (hs : Synced s i) : Announced s i := by
  unfold Announced TermLog.due
  rw [(applyExpiry_spec s.row i).1]
  cases hd : i.days with
  | none => rfl
  | some d =>
    dsimp only
    split
    · rw [expiryBucket_eq, since_marked h hs]
      cases (crossed d (i.seen s.row).thr).min? with
      | none => rfl
      | some c =>
        simp only [Option.bind_some, lt_last (since_tighter h)]
        split <;> rfl
    · rfl

theorem termSane_next (h : TermSane s) (hs : Synced s i) : TermSane (lookNext s i) := by
  have hsaid : reminded (applyExpiry (i.row s.row) i.days).2 = s.due i := announced_of_synced h hs
  refine ⟨?_, ?_⟩
  · simp only [lookNext, (applyExpiry_spec s.row i).2, since_marked h hs, List.getLast?_append]
  · simp only [lookNext, hsaid]
    refine List.pairwise_append.2 ⟨since_tighter h, ?_, ?_⟩
    · unfold TermLog.due
      grind
    · intro b hb c hc
      unfold TermLog.due at hc
      grind

/-- Along a run in step with the renewals every observation says what is due,
and the reminders since the last renewal tighten strictly. -/
theorem expiry_escalates (is : List Look) (h : Along lookNext Synced {} is) :
    Along lookNext Announced {} is ∧ (run lookNext {} is).sent.Pairwise (· > ·) := by
  have h0 : TermSane {} := ⟨rfl, .nil⟩
  exact ⟨step_of_run h0 (fun _ _ hi hs => termSane_next hi hs)
    (fun _ _ hi hs => announced_of_synced hi hs) h,
    (inv_run h0 (fun _ _ hi hs => termSane_next hi hs) h).tighter⟩

/-- Observations with the thresholds 14, 7 and 1. -/
def daysLeft (ds : List Int) : List Look := ds.map fun d => { warn := [14, 7, 1], days := some d }

theorem expiry_escalates_renewal :
    (Along lookNext Announced {} (daysLeft [20, 14, 10, 7, 90, 14]) ∧
      (run lookNext {} (daysLeft [20, 14, 10, 7, 90, 14])).sent.Pairwise (· > ·)) ∧
      (run lookNext {} (daysLeft [20, 14, 10, 7])).sent = [14, 7] := by
  refine ⟨expiry_escalates (daysLeft [20, 14, 10, 7, 90, 14]) ?_, by decide +kernel⟩
  simp only [daysLeft, List.map_cons, List.map_nil, Along, and_true, Synced]
  decide +kernel

/-- A renewal that ends within the thresholds leaves the marker, and the next
threshold goes unsaid. -/
theorem a_short_renewal_stays_silent :
    ¬ ∀ is : List Look, Along lookNext Announced {} is := by
  intro h
  have hall := h (daysLeft [1, 10, 7])
  simp only [daysLeft, List.map_cons, List.map_nil, Along, and_true, Announced] at hall
  revert hall
  decide +kernel

end Kervax
