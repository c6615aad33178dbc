-- Runs of the CronJob watch: a run that failed stays a problem, and what is behind each verdict.
import Kervax.KubeCron
import Mathlib.Data.List.Induction
import Mathlib.Tactic.Linarith

namespace Kervax.KubeCron

open Kervax.Podnames (Text)

/-! ## The record of one CronJob -/

theorem foldlM_put {now : ℚ} {prev out st : State} {cjs : List CronJob}
    (h : cjs.foldlM (fun out cj => (record prev now cj).map (Dict.put out (key cj))) out = some st)
    (hnodup : (cjs.map key).Nodup) :
    (∀ cj ∈ cjs, ∃ r, record prev now cj = some r ∧ Dict.get st (key cj) = some r) ∧
      ∀ k, k ∉ cjs.map key → Dict.get st k = Dict.get out k := by
  induction cjs generalizing out with
  | nil =>
    obtain rfl : out = st := by simpa using h
    exact ⟨fun cj hcj => (by cases hcj), fun k _ => rfl⟩
  | cons a cjs ih =>
    obtain ⟨hnew, hnodup⟩ := List.nodup_cons.mp hnodup
    rw [List.foldlM_cons] at h
    obtain ⟨out', hout, hrest⟩ := Option.bind_eq_some_iff.mp h
    obtain ⟨r, hr, rfl⟩ := Option.map_eq_some_iff.mp hout
    obtain ⟨hthere, hother⟩ := ih hrest hnodup
    constructor
    · refine List.forall_mem_cons.mpr ⟨⟨r, hr, ?_⟩, hthere⟩
      rw [hother _ hnew, Dict.get_put, if_pos rfl]
    · intro k hk
      obtain ⟨hne, hk⟩ := not_or.mp (mt List.mem_cons.mpr hk)
      rw [hother k hk, Dict.get_put, if_neg hne]

/-- What is remembered of a CronJob of the report. -/
theorem track_get {prev st : State} {rep : Report} {now : ℚ} (h : track prev rep now = some st)
    {cj : CronJob} (hcj : cj ∈ rep.cronjobs) :
    ∃ r, record prev now cj = some r ∧ Dict.get st (key cj) = some r :=
  (foldlM_put h rep.nodup).1 cj hcj

/-- The verdict on a CronJob, from its own record. -/
def issueOf (cj : CronJob) (every : Int) (now : ℚ) (r : Rec) : Option Kind :=
  if cj.active ≠ 0 then issueActive every cj now (r.bad.filter held)
  else issueIdle every cj (r.at'.getD 0) now

theorem issue_get {cj : CronJob} {now : ℚ} {st : State} {r : Rec} {dumps : Bool}
    (hget : Dict.get st (key cj) = some r) (hon : cj.suspend = false) :
    issue cj now st dumps = (interval cj.schedule).map fun every => issueOf cj every now r := by
  unfold issue heldOf changedAt issueOf
  rw [hget, hon]
  rfl

/-- Between two runs the record holds the verdict on the report. -/
theorem record_idle {prev : State} {now : ℚ} {cj : CronJob} {r : Rec}
    (h : record prev now cj = some r) (hidle : cj.active = 0) (hon : cj.suspend = false) :
    ∃ every, interval cj.schedule = some every ∧
      r.at' = (scheduled (Dict.get prev (key cj)) cj now).at' ∧
      r.s = (scheduled (Dict.get prev (key cj)) cj now).s ∧
      r.bad = (issueIdle every cj (r.at'.getD 0) now).filter held := by
  unfold record at h
  simp only [if_pos hidle] at h
  obtain ⟨bad, hbad, rfl⟩ := Option.map_eq_some_iff.mp h
  have hput : Dict.get (Dict.put prev (key cj) (scheduled (Dict.get prev (key cj)) cj now))
      (key cj) = some (scheduled (Dict.get prev (key cj)) cj now) := by
    rw [Dict.get_put, if_pos rfl]
  rw [issue_get hput hon] at hbad
  obtain ⟨every, hevery, rfl⟩ := Option.map_eq_some_iff.mp hbad
  refine ⟨every, hevery, rfl, rfl, ?_⟩
  unfold issueOf
  rw [if_neg (not_not.mpr hidle)]

theorem record_active {prev : State} {now : ℚ} {cj : CronJob} {r : Rec}
    (h : record prev now cj = some r) (hactive : cj.active ≠ 0) :
    r = scheduled (Dict.get prev (key cj)) cj now := by
  unfold record at h
  simp only [if_neg hactive] at h
  exact (Option.some.inj h).symm

theorem scheduled_s (was : Option Rec) (cj : CronJob) (now : ℚ) :
    (scheduled was cj now).s = cj.schedule := by
  cases was with
  | none => rfl
  | some r =>
    show (if r.s = cj.schedule then r else _).s = cj.schedule
    by_cases hs : r.s = cj.schedule
    · rw [if_pos hs, hs]
    · rw [if_neg hs]

/-- Under the same schedule the record goes on. -/
theorem scheduled_same {r : Rec} {cj : CronJob} (h : r.s = cj.schedule) (now : ℚ) :
    scheduled (some r) cj now = r := if_pos h

theorem scheduled_bad {was : Option Rec} {cj : CronJob} {now : ℚ} {kind : Kind}
    (h : (scheduled was cj now).bad = some kind) :
    was = some (scheduled was cj now) := by
  cases was with
  | none => cases h
  | some r =>
    change (if r.s = cj.schedule then r else ⟨cj.schedule, some now, none⟩).bad = _ at h
    by_cases hs : r.s = cj.schedule
    · rw [scheduled_same hs]
    · rw [if_neg hs] at h
      cases h

/-- A report keeps when the schedule of a CronJob changed, and while a run goes on the verdict. -/
theorem record_same {prev : State} {now : ℚ} {cj : CronJob} {r r' : Rec}
    (h : record prev now cj = some r') (hget : Dict.get prev (key cj) = some r)
    (hs : r.s = cj.schedule) :
    r'.s = r.s ∧ r'.at' = r.at' ∧ (cj.active ≠ 0 → r' = r) := by
  by_cases hactive : cj.active = 0
  · unfold record at h
    simp only [if_pos hactive, hget, scheduled_same hs] at h
    obtain ⟨bad, -, rfl⟩ := Option.map_eq_some_iff.mp h
    exact ⟨rfl, rfl, fun hne => absurd hactive hne⟩
  · have hr := record_active h hactive
    rw [hget, scheduled_same hs] at hr
    exact ⟨by rw [hr], by rw [hr], fun _ => hr⟩

/-! ## Runs of reports -/

/-- A report that came, and the CronJob of it that is watched. -/
structure Seen where
  rep : Report
  now : ℚ
  cj : CronJob
  there : cj ∈ rep.cronjobs

/-- What is remembered after some reports. -/
def after (st : State) (run : List Seen) : Option State :=
  run.foldlM (fun st s => track st s.rep s.now) st

/-- `issue` on the last report of a run, which begins with nothing remembered. -/
def verdict (run : List Seen) (s : Seen) : Option (Option Kind) :=
  (after [] (run ++ [s])).bind fun st => issue s.cj s.now st s.cj.dump

theorem after_append (st : State) (run more : List Seen) :
    after st (run ++ more) = (after st run).bind fun st => after st more := by
  unfold after
  rw [List.foldlM_append]
  rfl

theorem after_snoc {st st' : State} {run : List Seen} {s : Seen}
    (h : after st (run ++ [s]) = some st') :
    ∃ mid, after st run = some mid ∧ track mid s.rep s.now = some st' := by
  rw [after_append] at h
  obtain ⟨mid, hmid, hlast⟩ := Option.bind_eq_some_iff.mp h
  refine ⟨mid, hmid, ?_⟩
  unfold after at hlast
  simpa using hlast

/-- The verdict on a report is on the record of the CronJob after it. -/
theorem verdict_get {run : List Seen} {s : Seen} (hon : s.cj.suspend = false)
    {v : Option Kind} (h : verdict run s = some v) :
    ∃ st r every, after [] (run ++ [s]) = some st ∧ Dict.get st (key s.cj) = some r ∧
      r.s = s.cj.schedule ∧ interval s.cj.schedule = some every ∧
      v = issueOf s.cj every s.now r := by
  obtain ⟨st, hst, hv⟩ := Option.bind_eq_some_iff.mp h
  obtain ⟨mid, -, htrack⟩ := after_snoc hst
  obtain ⟨r, hr, hget⟩ := track_get htrack s.there
  rw [issue_get hget hon] at hv
  obtain ⟨every, hevery, rfl⟩ := Option.map_eq_some_iff.mp hv
  refine ⟨st, r, every, hst, hget, ?_, hevery, rfl⟩
  by_cases hactive : s.cj.active = 0
  · obtain ⟨-, -, -, hs, -⟩ := record_idle hr hactive hon
    rw [hs, scheduled_s]
  · rw [record_active hr hactive, scheduled_s]

/-- The record of a CronJob over reports that do not change its schedule. -/
theorem after_same {st st' : State} {run : List Seen} {k : Text} {r : Rec}
    (h : after st run = some st') (hget : Dict.get st k = some r)
    (hrun : ∀ s ∈ run, key s.cj = k ∧ s.cj.schedule = r.s) :
    ∃ r', Dict.get st' k = some r' ∧ r'.s = r.s ∧ r'.at' = r.at' ∧
      ((∀ s ∈ run, s.cj.active ≠ 0) → r' = r) := by
  induction run generalizing st r with
  | nil =>
    obtain rfl : st = st' := by simpa [after] using h
    exact ⟨r, hget, rfl, rfl, fun _ => rfl⟩
  | cons s run ih =>
    obtain ⟨⟨hkey, hsched⟩, hrest⟩ := List.forall_mem_cons.mp hrun
    unfold after at h
    rw [List.foldlM_cons] at h
    obtain ⟨mid, hmid, hafter⟩ := Option.bind_eq_some_iff.mp h
    obtain ⟨r₁, hr₁, hget₁⟩ := track_get hmid s.there
    rw [← hkey] at hget
    obtain ⟨hs, hat, hsame⟩ := record_same hr₁ hget hsched.symm
    rw [hkey] at hget₁
    have hrest₁ : ∀ s ∈ run, key s.cj = k ∧ s.cj.schedule = r₁.s := by
      intro s' hs'
      rw [hs]
      exact hrest s' hs'
    obtain ⟨r', hr', hs', hat', hall⟩ := ih hafter hget₁ hrest₁
    refine ⟨r', hr', hs'.trans hs, hat'.trans hat, ?_⟩
    intro hactive
    obtain ⟨ha, hrun⟩ := List.forall_mem_cons.mp hactive
    rw [hall hrun, hsame ha]

/-! ## A problem stays one -/

/-- Between two runs there is no problem just when the last success is in time and the last run
did not fail. -/
theorem issueIdle_none (every : Int) (cj : CronJob) (since now : ℚ) :
    issueIdle every cj since now = none ↔
      overdue every cj since now = false ∧ (unsuccessful cj = false ∨ running cj = true) := by
  unfold issueIdle
  cases overdue every cj since now with
  | true =>
    rw [if_pos rfl]
    simp only [Bool.true_eq_false, false_and, iff_false]
    split
    · exact Option.some_ne_none _
    · split <;> exact Option.some_ne_none _
  | false =>
    cases unsuccessful cj <;> cases running cj <;> simp

/-- The CronJob of a later report: under the same schedule, and without a success since. -/
structure Unhealed (s e : Seen) : Prop where
  key : key e.cj = key s.cj
  schedule : e.cj.schedule = s.cj.schedule
  success : e.cj.lastSuccess = s.cj.lastSuccess
  on : e.cj.suspend = false
  now : s.now ≤ e.now
  began : s.cj.lastSchedule ≤ e.cj.lastSchedule

theorem Unhealed.overdue {s e : Seen} (h : Unhealed s e) {every : Int} {since : ℚ}
    (ho : overdue every s.cj since s.now = true) : overdue every e.cj since e.now = true := by
  unfold KubeCron.overdue at ho ⊢
  rw [h.success]
  simp only [Bool.and_eq_true, decide_eq_true_eq] at ho ⊢
  exact ⟨ho.1, lt_of_lt_of_le ho.2 (sub_le_sub_right h.now _)⟩

theorem Unhealed.unsuccessful {s e : Seen} (h : Unhealed s e)
    (hu : unsuccessful s.cj = true) : unsuccessful e.cj = true := by
  unfold KubeCron.unsuccessful at hu ⊢
  rw [h.success]
  simp only [Bool.and_eq_true, Bool.or_eq_true, decide_eq_true_eq] at hu ⊢
  have hbegan := h.began
  refine ⟨by omega, hu.2.imp_right fun hslack => lt_of_lt_of_le hslack ?_⟩
  exact sub_le_sub_right (Nat.cast_le.mpr hbegan) _

/-- A verdict that is no problem of a later report between two runs. -/
theorem Unhealed.idle {s e : Seen} (h : Unhealed s e) {every : Int} {since : ℚ}
    (hbad : issueIdle every s.cj since s.now ≠ none) (hrun : running e.cj = false) :
    issueIdle every e.cj since e.now ≠ none := by
  intro hnone
  obtain ⟨hin, hok⟩ := (issueIdle_none ..).mp hnone
  have hok : KubeCron.unsuccessful e.cj = false := by
    rcases hok with hok | hok
    · exact hok
    · rw [hrun] at hok
      cases hok
  refine hbad ((issueIdle_none ..).mpr ⟨?_, .inl ?_⟩)
  · refine Bool.eq_false_iff.mpr fun ho => ?_
    rw [h.overdue ho] at hin
    cases hin
  · refine Bool.eq_false_iff.mpr fun hu => ?_
    rw [h.unsuccessful hu] at hok
    cases hok

theorem after_cons {st st' : State} {run later : List Seen} {s : Seen}
    (h : after st (run ++ s :: later) = some st') :
    ∃ mid, after st (run ++ [s]) = some mid ∧ after mid later = some st' := by
  rw [List.append_cons, after_append] at h
  exact Option.bind_eq_some_iff.mp h

/-- What a verdict between two runs leaves in the record. -/
theorem verdict_idle {run : List Seen} {s : Seen} {st : State} (hon : s.cj.suspend = false)
    (hidle : s.cj.active = 0) (h : after [] (run ++ [s]) = some st) :
    ∃ r every, Dict.get st (key s.cj) = some r ∧ r.s = s.cj.schedule ∧
      interval s.cj.schedule = some every ∧
      verdict run s = some (issueIdle every s.cj (r.at'.getD 0) s.now) ∧
      r.bad = (issueIdle every s.cj (r.at'.getD 0) s.now).filter held := by
  obtain ⟨mid, -, htrack⟩ := after_snoc h
  obtain ⟨r, hr, hget⟩ := track_get htrack s.there
  obtain ⟨every, hevery, -, hs, hbad⟩ := record_idle hr hidle hon
  rw [scheduled_s] at hs
  refine ⟨r, every, hget, hs, hevery, ?_, hbad⟩
  unfold verdict
  rw [h, Option.bind_some, issue_get hget hon, hevery, Option.map_some]
  unfold issueOf
  rw [if_neg (not_not.mpr hidle)]

/-- A report between two runs, some time after a failure. -/
theorem keeps_idle {before later : List Seen} {t e : Seen} {kind : Kind}
    (ht : t.cj.active = 0) (hon : t.cj.suspend = false)
    (hbad : verdict before t = some (some kind)) (hlater : ∀ s ∈ later, Unhealed t s)
    (he : Unhealed t e) (hidle : e.cj.active = 0) (hrun : running e.cj = false) :
    verdict (before ++ t :: later) e ≠ some none := by
  intro hnone
  obtain ⟨st, r', every', hst, hget', -, hevery', hv⟩ := verdict_get he.on hnone
  rw [List.append_assoc, List.cons_append] at hst
  obtain ⟨mid, hmid, hafter⟩ := after_cons hst
  obtain ⟨r, every, hget, hs, hevery, hverdict, -⟩ := verdict_idle hon ht hmid
  have hall : ∀ s ∈ later ++ [e], Unhealed t s := by
    intro s hs
    rcases List.mem_append.mp hs with hs | hs
    · exact hlater s hs
    · rw [List.mem_singleton.mp hs]
      exact he
  obtain ⟨r₁, hget₁, -, hat, -⟩ := after_same hafter hget fun s h =>
    ⟨(hall s h).key, by rw [(hall s h).schedule, hs]⟩
  rw [he.key] at hget'
  obtain rfl : r₁ = r' := Option.some.inj (hget₁.symm.trans hget')
  rw [he.schedule, hevery] at hevery'
  obtain rfl : every = every' := Option.some.inj hevery'
  rw [hbad] at hverdict
  refine @Unhealed.idle t e he every (r.at'.getD 0) ?_ hrun ?_
  · rw [← Option.some.inj hverdict]
    exact Option.some_ne_none _
  · unfold issueOf at hv
    rw [if_neg (not_not.mpr hidle), hat] at hv
    exact hv.symm

/-- What stands between two runs holds on when the next one begins, except `nostart`. -/
theorem issueIdle_held {every : Int} {cj : CronJob} {since now : ℚ} {kind : Kind}
    (h : issueIdle every cj since now = some kind) (hno : kind ≠ .nostart) :
    held kind = true := by
  unfold issueIdle at h
  split at h
  · split at h
    · exact absurd (Option.some.inj h).symm hno
    · split at h <;> obtain rfl := Option.some.inj h <;> rfl
  · split at h
    · obtain rfl := Option.some.inj h
      rfl
    · cases h

/-- While runs go on, the verdict on the last report between two of them stands. -/
theorem keeps_busy {run busy : List Seen} {u e : Seen} {kind : Kind} (hu : u.cj.active = 0)
    (hon : u.cj.suspend = false) (hbad : verdict run u = some (some kind))
    (hno : kind ≠ .nostart)
    (hbusy : ∀ s ∈ busy ++ [e],
      key s.cj = key u.cj ∧ s.cj.schedule = u.cj.schedule ∧ s.cj.active ≠ 0)
    (he : e.cj.suspend = false) : verdict (run ++ u :: busy) e ≠ some none := by
  intro hnone
  obtain ⟨hkey, -, hactive⟩ := hbusy e (List.mem_append_right _ (List.mem_singleton.mpr rfl))
  obtain ⟨st, r', every', hst, hget', -, -, hv⟩ := verdict_get he hnone
  rw [List.append_assoc, List.cons_append] at hst
  obtain ⟨mid, hmid, hafter⟩ := after_cons hst
  obtain ⟨r, every, hget, hs, -, hverdict, hr⟩ := verdict_idle hon hu hmid
  obtain ⟨r₁, hget₁, -, -, hsame⟩ := after_same hafter hget fun s h =>
    ⟨(hbusy s h).1, by rw [(hbusy s h).2.1, hs]⟩
  obtain rfl : r₁ = r := hsame fun s h => (hbusy s h).2.2
  rw [hkey] at hget'
  obtain rfl : r₁ = r' := Option.some.inj (hget₁.symm.trans hget')
  rw [hbad] at hverdict
  have hheld := issueIdle_held (Option.some.inj hverdict).symm hno
  have hkept : r₁.bad = some kind := by
    rw [hr, ← Option.some.inj hverdict, Option.filter_some, if_pos hheld]
  unfold issueOf issueActive at hv
  rw [if_pos hactive, hkept, Option.filter_some, if_pos hheld] at hv
  split at hv <;> cases hv

/-! ## Where a verdict comes from -/

/-- Reports end with those of one run, after the last report between two runs. -/
theorem last_idle (run : List Seen) :
    (∀ s ∈ run, s.cj.active ≠ 0) ∨
      ∃ more u busy, run = more ++ u :: busy ∧ u.cj.active = 0 ∧ ∀ s ∈ busy, s.cj.active ≠ 0 := by
  induction run with
  | nil => exact .inl fun s hs => (by cases hs)
  | cons s run ih =>
    rcases ih with hall | ⟨more, u, busy, rfl, hu, hbusy⟩
    · by_cases hs : s.cj.active = 0
      · exact .inr ⟨[], s, run, rfl, hs, hall⟩
      · exact .inl (List.forall_mem_cons.mpr ⟨hs, hall⟩)
    · exact .inr ⟨s :: more, u, busy, rfl, hu, hbusy⟩

/-- A verdict in the record is the one on the last report between two runs, which is not
suspended, and the schedule is the same since. -/
theorem bad_origin {run : List Seen} {st : State} {k : Text} {r : Rec} {kind : Kind}
    (h : after [] run = some st) (hget : Dict.get st k = some r) (hbad : r.bad = some kind)
    (hrun : ∀ s ∈ run, key s.cj = k) :
    ∃ before u busy, run = before ++ u :: busy ∧ u.cj.active = 0 ∧ u.cj.suspend = false ∧
      (∀ s ∈ busy, s.cj.active ≠ 0) ∧ (∀ s ∈ u :: busy, s.cj.schedule = r.s) ∧
      verdict before u = some (some kind) := by
  induction run using List.reverseRecOn generalizing st r with
  | nil =>
    obtain rfl : [] = st := by simpa [after] using h
    cases hget
  | append_singleton run s ih =>
    obtain ⟨mid, hmid, htrack⟩ := after_snoc h
    obtain ⟨r₁, hr₁, hget₁⟩ := track_get htrack s.there
    rw [hrun s (List.mem_append_right _ (List.mem_singleton.mpr rfl))] at hget₁
    obtain rfl : r₁ = r := Option.some.inj (hget₁.symm.trans hget)
    by_cases hactive : s.cj.active = 0
    · have hon : s.cj.suspend = false := by
        by_contra hsuspend
        unfold record issue at hr₁
        simp only [if_pos hactive, if_pos (Bool.of_not_eq_false hsuspend)] at hr₁
        obtain rfl := Option.some.inj hr₁
        cases hdump : s.cj.dump <;> rw [hdump] at hbad <;> cases hbad
      obtain ⟨r, every, hget', hs, -, hverdict, hr⟩ := verdict_idle hon hactive h
      rw [hrun s (List.mem_append_right _ (List.mem_singleton.mpr rfl))] at hget'
      obtain rfl : r₁ = r := Option.some.inj (hget₁.symm.trans hget')
      rw [hbad] at hr
      have hissue := (Option.filter_eq_some_iff.mp hr.symm).1
      refine ⟨run, s, [], rfl, hactive, hon, fun s hs => (by cases hs), ?_, ?_⟩
      · intro s' hs'
        rw [List.mem_singleton.mp hs', hs]
      · rw [hverdict, hissue]
    · rw [record_active hr₁ hactive] at hbad
      have hsame := scheduled_bad hbad
      rw [← record_active hr₁ hactive,
        hrun s (List.mem_append_right _ (List.mem_singleton.mpr rfl))] at hsame
      rw [← record_active hr₁ hactive] at hbad
      obtain ⟨before, u, busy, rfl, hu, hon, hbusy, hsched, hv⟩ :=
        ih hmid hsame hbad fun s hs => hrun s (List.mem_append_left _ hs)
      refine ⟨before, u, busy ++ [s], by simp, hu, hon, ?_, ?_, hv⟩
      · intro s' hs'
        rcases List.mem_append.mp hs' with hs' | hs'
        · exact hbusy s' hs'
        · rw [List.mem_singleton.mp hs']
          exact hactive
      · intro s' hs'
        rw [← List.cons_append] at hs'
        rcases List.mem_append.mp hs' with hs' | hs'
        · exact hsched s' hs'
        · rw [List.mem_singleton.mp hs', record_active hr₁ hactive, scheduled_s]

/-! ## Nothing raises -/

theorem foldlM_total {α β : Type} {f : β → α → Option β} {l : List α}
    (h : ∀ b, ∀ a ∈ l, (f b a).isSome) (b : β) : (l.foldlM f b).isSome := by
  induction l generalizing b with
  | nil => rfl
  | cons a l ih =>
    obtain ⟨b', hb'⟩ := Option.isSome_iff_exists.mp (h b a List.mem_cons_self)
    rw [List.foldlM_cons, hb']
    exact ih (fun b a ha => h b a (List.mem_cons_of_mem _ ha)) b'

theorem issue_isSome {cj : CronJob} (h : (interval cj.schedule).isSome) (now : ℚ) (st : State)
    (dumps : Bool) : (issue cj now st dumps).isSome := by
  unfold issue
  split
  · rfl
  · rw [Option.isSome_map]
    exact h

theorem track_isSome {rep : Report} (h : ∀ cj ∈ rep.cronjobs, (interval cj.schedule).isSome)
    (prev : State) (now : ℚ) : (track prev rep now).isSome := by
  refine foldlM_total (fun out cj hcj => ?_) []
  rw [Option.isSome_map]
  unfold record
  dsimp only
  split
  · rw [Option.isSome_map]
    exact issue_isSome (h cj hcj) ..
  · rfl

theorem after_isSome {run : List Seen}
    (h : ∀ s ∈ run, ∀ cj ∈ s.rep.cronjobs, (interval cj.schedule).isSome) (st : State) :
    (after st run).isSome :=
  foldlM_total (fun st s hs => track_isSome (h s hs) st s.now) st

/-! ## The watch as a whole -/

/-- What the verdicts on a CronJob say, over any run of reports. -/
structure WatchLaw : Prop where
  /-- After a failure between two runs there is a problem on every later report while the
  schedule and the last success are the same, if the last report between two runs since does not
  show a running Job and, when a run follows it, does not say that the CronJob does not start. -/
  keeps : ∀ (before later : List Seen) (t e : Seen) (kind : Kind),
    t.cj.active = 0 → t.cj.suspend = false →
    verdict before t = some (some kind) → kind = .fail ∨ kind = .stale →
    (∀ s ∈ later ++ [e], Unhealed t s) →
    (∀ more u busy, later ++ [e] = more ++ u :: busy → u.cj.active = 0 →
      (∀ s ∈ busy, s.cj.active ≠ 0) →
      running u.cj = false ∧
        (busy ≠ [] → verdict (before ++ t :: more) u ≠ some (some .nostart))) →
    verdict (before ++ t :: later) e ≠ some none
  /-- A failure that is told while a run goes on is the one of the last report between two runs,
  and the schedule is the same since. -/
  origin : ∀ (run : List Seen) (e : Seen) (kind : Kind),
    e.cj.active ≠ 0 → e.cj.suspend = false → (∀ s ∈ run, key s.cj = key e.cj) →
    verdict run e = some (some kind) → kind = .fail ∨ kind = .stale →
    ∃ before u busy, run = before ++ u :: busy ∧ u.cj.active = 0 ∧
      (∀ s ∈ busy, s.cj.active ≠ 0) ∧
      (∀ s ∈ u :: busy, s.cj.schedule = e.cj.schedule) ∧
      verdict before u = some (some kind)
  /-- Between two runs there is no problem just when the last success, or the change of the
  schedule, is at most two guessed intervals (and no less than two hours) ago, and the last run
  began at most two hours after the last success or goes on. -/
  calm : ∀ (run : List Seen) (e : Seen) (v : Option Kind),
    e.cj.active = 0 → e.cj.suspend = false → verdict run e = some v →
    ∃ st every, after [] (run ++ [e]) = some st ∧ interval e.cj.schedule = some every ∧
      (v = none ↔
        (e.cj.lastSuccess = 0 ∨
          e.now - max (e.cj.lastSuccess : ℚ) (changedAt st (key e.cj)) ≤
            max ((every * 2 : Int) : ℚ) (2 * 3600)) ∧
        (e.cj.lastSchedule = 0 ∨
          e.cj.lastSuccess ≠ 0 ∧ (e.cj.lastSchedule : ℚ) - e.cj.lastSuccess ≤ 2 * 3600 ∨
          running e.cj = true))
  /-- Nothing raises where every schedule can be read. -/
  returns : ∀ (run : List Seen) (e : Seen),
    (∀ s ∈ run ++ [e], ∀ cj ∈ s.rep.cronjobs, (interval cj.schedule).isSome) →
    (verdict run e).isSome

/-- The run that began after a later report between two runs goes on. -/
theorem keeps_run {before more busy : List Seen} {t u e : Seen} {kind : Kind}
    (ht : t.cj.active = 0) (hon : t.cj.suspend = false)
    (hbad : verdict before t = some (some kind)) (hmore : ∀ s ∈ more, Unhealed t s)
    (hut : Unhealed t u) (hu : u.cj.active = 0) (hrun : running u.cj = false)
    (hno : verdict (before ++ t :: more) u ≠ some (some .nostart))
    (hbusy : ∀ s ∈ busy ++ [e],
      key s.cj = key u.cj ∧ s.cj.schedule = u.cj.schedule ∧ s.cj.active ≠ 0)
    (he : e.cj.suspend = false) :
    verdict (before ++ t :: (more ++ u :: busy)) e ≠ some none := by
  intro hnone
  rw [← List.cons_append, ← List.append_assoc] at hnone
  obtain ⟨st, hst, -⟩ := Option.bind_eq_some_iff.mp hnone
  rw [List.append_assoc, List.cons_append] at hst
  obtain ⟨mid, hmid, -⟩ := after_cons hst
  obtain ⟨r, every, -, -, -, hv, -⟩ := verdict_idle hut.on hu hmid
  cases hissue : issueIdle every u.cj (r.at'.getD 0) u.now with
  | none =>
    rw [hissue] at hv
    exact keeps_idle ht hon hbad hmore hut hu hrun hv
  | some kind' =>
    rw [hissue] at hv
    refine keeps_busy hu hut.on hv ?_ hbusy he hnone
    rintro rfl
    exact hno hv

theorem keeps_verdict {before later : List Seen} {t e : Seen} {kind : Kind}
    (ht : t.cj.active = 0) (hon : t.cj.suspend = false)
    (hbad : verdict before t = some (some kind)) (hkind : kind = .fail ∨ kind = .stale)
    (hall : ∀ s ∈ later ++ [e], Unhealed t s)
    (hlast : ∀ more u busy, later ++ [e] = more ++ u :: busy → u.cj.active = 0 →
      (∀ s ∈ busy, s.cj.active ≠ 0) →
      running u.cj = false ∧
        (busy ≠ [] → verdict (before ++ t :: more) u ≠ some (some .nostart))) :
    verdict (before ++ t :: later) e ≠ some none := by
  have he : Unhealed t e := hall e (List.mem_append_right _ (List.mem_singleton.mpr rfl))
  rcases last_idle (later ++ [e]) with hbusy | ⟨more, u, busy, heq, hu, hbusy⟩
  · -- The run that began after `t` goes on.
    refine keeps_busy ht hon hbad ?_ (fun s hs => ?_) he.on
    · rcases hkind with rfl | rfl <;> exact nofun
    · exact ⟨(hall s hs).key, (hall s hs).schedule, hbusy s hs⟩
  · obtain ⟨hrun, hno⟩ := hlast more u busy heq hu hbusy
    have hmore : ∀ s ∈ more, Unhealed t s := fun s hs =>
      hall s (heq ▸ List.mem_append_left _ hs)
    have hut : Unhealed t u :=
      hall u (heq ▸ List.mem_append_right _ List.mem_cons_self)
    rcases List.eq_nil_or_concat' busy with rfl | ⟨busy, e', rfl⟩
    · obtain ⟨rfl, h⟩ := List.append_inj' heq rfl
      obtain rfl : e = u := by simpa using h
      exact keeps_idle ht hon hbad hmore he hu hrun
    · rw [← List.cons_append, ← List.append_assoc] at heq
      obtain ⟨rfl, h⟩ := List.append_inj' heq rfl
      obtain rfl : e = e' := by simpa using h
      refine keeps_run ht hon hbad hmore hut hu hrun (hno (by simp)) (fun s hs => ?_) he.on
      have hs' : s ∈ (more ++ u :: busy) ++ [e] := by
        rw [List.append_assoc, List.cons_append]
        exact List.mem_append_right _ (List.mem_cons_of_mem _ hs)
      have hts := hall s hs'
      exact ⟨hts.key.trans hut.key.symm, hts.schedule.trans hut.schedule.symm, hbusy s hs⟩

theorem issueIdle_calm (every : Int) (cj : CronJob) (since now : ℚ) :
    issueIdle every cj since now = none ↔
      (cj.lastSuccess = 0 ∨
        now - max (cj.lastSuccess : ℚ) since ≤ max ((every * 2 : Int) : ℚ) (2 * 3600)) ∧
      (cj.lastSchedule = 0 ∨
        cj.lastSuccess ≠ 0 ∧ (cj.lastSchedule : ℚ) - cj.lastSuccess ≤ 2 * 3600 ∨
        running cj = true) := by
  have hin : overdue every cj since now = false ↔ cj.lastSuccess = 0 ∨
      now - max (cj.lastSuccess : ℚ) since ≤ max ((every * 2 : Int) : ℚ) (2 * 3600) := by
    unfold overdue staleAfter
    rw [Bool.and_eq_false_iff, decide_eq_false_iff_not, decide_eq_false_iff_not, not_lt, not_lt,
      Nat.le_zero]
  have hok : unsuccessful cj = false ↔ cj.lastSchedule = 0 ∨
      cj.lastSuccess ≠ 0 ∧ (cj.lastSchedule : ℚ) - cj.lastSuccess ≤ 2 * 3600 := by
    unfold unsuccessful slack
    rw [Bool.and_eq_false_iff, decide_eq_false_iff_not, not_not, Bool.or_eq_false_iff,
      decide_eq_false_iff_not, decide_eq_false_iff_not, not_lt]
  rw [issueIdle_none, hin, hok, or_assoc]

theorem watch_told : WatchLaw := by
  constructor
  case keeps =>
    intro before later t e kind ht hon hbad hkind hall hlast
    exact keeps_verdict ht hon hbad hkind hall hlast
  case origin =>
    intro run e kind hactive hon hrun hv hkind
    obtain ⟨st, r, every, hst, hget, hs, -, hissue⟩ := verdict_get hon hv
    obtain ⟨mid, hmid, htrack⟩ := after_snoc hst
    obtain ⟨r₁, hr₁, hget₁⟩ := track_get htrack e.there
    obtain rfl : r₁ = r := Option.some.inj (hget₁.symm.trans hget)
    unfold issueOf issueActive at hissue
    rw [if_pos hactive] at hissue
    split at hissue
    · have hbad := (Option.filter_eq_some_iff.mp hissue.symm).1
      rw [record_active hr₁ hactive] at hbad
      have hsame := scheduled_bad hbad
      obtain ⟨before, u, busy, hsplit, hu, -, hbusy, hsched, hu'⟩ :=
        bad_origin hmid hsame hbad hrun
      rw [scheduled_s] at hsched
      exact ⟨before, u, busy, hsplit, hu, hbusy, hsched, hu'⟩
    · obtain rfl := Option.some.inj hissue
      rcases hkind with hkind | hkind <;> cases hkind
  case calm =>
    intro run e v hidle hon hv
    obtain ⟨st, r, every, hst, hget, -, hevery, rfl⟩ := verdict_get hon hv
    refine ⟨st, every, hst, hevery, ?_⟩
    have hsince : changedAt st (key e.cj) = r.at'.getD 0 := by
      unfold changedAt
      rw [hget]
      rfl
    unfold issueOf
    rw [if_neg (not_not.mpr hidle), issueIdle_calm, hsince]
  case returns =>
    intro run e h
    obtain ⟨st, hst⟩ := Option.isSome_iff_exists.mp (after_isSome h [])
    unfold verdict
    rw [hst]
    exact issue_isSome (h e (List.mem_append_right _ (List.mem_singleton.mpr rfl)) e.cj e.there) ..

/-- A report on one CronJob, which runs every night. -/
def nightly (now : ℚ) (active lastSchedule lastSuccess : Nat) (last : Option Last)
    (schedule : String := "0 3 * * *") : Seen :=
  let cj : CronJob := {
    ns := "db".toList
    name := "backup".toList
    schedule := schedule.toList
    active
    lastSchedule
    lastSuccess
    last }
  { rep := ⟨[cj], List.nodup_singleton _⟩, now, cj, there := List.mem_singleton.mpr rfl }

/-- A failed CronJob that then did not start for two days is no problem when its next run begins;
and one whose runs all succeed is told not to start when it runs in one hour of the day only. -/
theorem start_recovers :
    (verdict [] (nightly 1000000 0 990000 800000 (some ⟨"failed", "", "", none⟩)) =
        some (some .fail) ∧
      verdict [nightly 1000000 0 990000 800000 (some ⟨"failed", "", "", none⟩),
          nightly 1200000 0 990000 800000 (some ⟨"failed", "", "", none⟩)]
        (nightly 1200200 1 1200100 800000 none) = some none) ∧
      verdict [] (nightly 100000 0 50000 50010 (some ⟨"complete", "", "", none⟩)
        "*/5 9 * * *") = some (some .nostart) := by
  decide +kernel

end Kervax.KubeCron
