-- The recovery of a partial outage over whole runs: it follows an alert that was
-- delivered, and on which ticks it says what the locations see.
import Kervax.LocationAlerts
import Kervax.Runs

namespace Kervax.Locations

open Runs

/-! ## What one tick does -/

theorem mem_checks {t : Tick} {c : Check} :
    c ∈ t.checks ↔ c ∈ t.rows ∧ c.enabled ∧ c.checkLocations ∧ c.http := by
  simp [Tick.checks]

theorem find_row {t : Tick} {c : Check} (h : c ∈ t.rows) :
    t.rows.find? (fun r => r.id = c.id) = some c := by
  cases hf : t.rows.find? fun r => r.id = c.id with
  | none => simpa using List.find?_eq_none.mp hf c h
  | some r =>
    have hid : r.id = c.id := by simpa using List.find?_some hf
    rw [List.inj_on_of_nodup_map t.nodup (List.mem_of_find?_eq_some hf) h hid]

theorem evaluate_row (s : Nat → Marks) {t : Tick} {c : Check} (h : c ∈ t.rows) :
    evaluate s t c.id = settle t c (s c.id) := by
  simp [evaluate, find_row h]

theorem mem_pending {s : Nat → Marks} {t : Tick} {p : Pending} :
    p ∈ pending s t ↔ ∃ c ∈ t.checks, (judge t c (s c.id)).pending = some p := by
  simp [pending]

@[simp] theorem forget_notified (t : Tick) (c : Check) (m : Marks) :
    (forget t c m).notified = m.notified := by
  unfold forget
  dsimp only
  split_ifs <;> rfl

@[simp] theorem saved_notified (o : Outcome) (m : Marks) : (o.saved m).notified = m.notified := by
  unfold Outcome.saved
  split <;> rfl

/-- With something down a recovery is not pending, and a breakdown needs something up. -/
theorem judge_down {t : Tick} {c : Check} {m : Marks} {p : Pending} (hd : nDown t c m ≠ 0)
    (h : (judge t c m).pending = some p) :
    nUp t c m ≠ 0 ∧ p = ⟨.locpart, c.name, "\n".intercalate (lines t c m), c.id,
      some (downIds t c m)⟩ := by
  unfold judge at h
  dsimp only at h
  by_cases hu : nUp t c m = 0
  · rw [if_neg (by simp [hu]), if_neg hd] at h
    split_ifs at h
  · rw [if_pos ⟨hu, hd⟩] at h
    refine ⟨hu, ?_⟩
    dsimp only at h
    split_ifs at h
    exact (Option.some.inj h).symm

/-- With nothing down a recovery is pending for what is announced. -/
theorem judge_clear {t : Tick} {c : Check} {m : Marks} (hd : nDown t c m = 0) :
    (judge t c m).pending =
      if m.notified ≠ none then some ⟨.locrec, c.name, "", c.id, none⟩ else none := by
  simp [judge, hd]

/-- What may be pending: a breakdown where some count up and some down, a recovery
where none counts down and something is announced. -/
theorem judge_pending {t : Tick} {c : Check} {m : Marks} {p : Pending}
    (h : (judge t c m).pending = some p) :
    p.checkId = c.id ∧
      (p.kind = .locpart ∧ nUp t c m ≠ 0 ∧ p.flag = some (downIds t c m) ∨
        p.kind = .locrec ∧ nDown t c m = 0 ∧ m.notified ≠ none ∧ p.flag = none) := by
  by_cases hd : nDown t c m = 0
  · rw [judge_clear hd] at h
    split_ifs at h with hn
    cases h
    exact ⟨rfl, .inr ⟨rfl, hd, hn, rfl⟩⟩
  · obtain ⟨hu, rfl⟩ := judge_down hd h
    exact ⟨rfl, .inl ⟨rfl, hu, rfl⟩⟩

/-- The pending alert of a monitor is the one its row is judged to have. -/
theorem judge_of_mem {s : Nat → Marks} {t : Tick} {c : Check} (hc : c ∈ t.rows) {p : Pending}
    (hp : p ∈ pending s t) (hid : p.checkId = c.id) :
    c ∈ t.checks ∧ (judge t c (s c.id)).pending = some p := by
  obtain ⟨c', hc', hj⟩ := mem_pending.mp hp
  have : c' = c := List.inj_on_of_nodup_map t.nodup (mem_checks.mp hc').1 hc
    ((judge_pending hj).1.symm.trans hid)
  exact this ▸ ⟨hc', hj⟩

theorem sent_none {o : Outcome} (h : o.pending = none) (d : Bool) (m : Marks) : o.sent d m = m := by
  simp [Outcome.sent, h]

theorem sent_some {o : Outcome} {p : Pending} (h : o.pending = some p) (d : Bool) (m : Marks) :
    o.sent d m = if d then { m with notified := p.flag } else m := by
  simp [Outcome.sent, h]

/-- A tick leaves `loc_notified` as it was, with nothing delivered of the monitor, or
writes what a delivered alert carries. -/
theorem evaluate_notified (s : Nat → Marks) (t : Tick) (id : Nat) :
    ((evaluate s t id).notified = (s id).notified ∧
        ∀ p ∈ pending s t, p.checkId = id → t.delivered id = false) ∨
      t.delivered id = true ∧
        ∃ p ∈ pending s t, p.checkId = id ∧ (evaluate s t id).notified = p.flag := by
  cases hrow : t.rows.find? fun r => r.id = id with
  | none =>
    refine .inl ⟨by simp [evaluate, hrow], ?_⟩
    intro p hp hid
    obtain ⟨c, hc, hj⟩ := mem_pending.mp hp
    have := List.find?_eq_none.mp hrow c (mem_checks.mp hc).1
    simp [← (judge_pending hj).1, hid] at this
  | some c =>
    have hc : c ∈ t.rows := List.mem_of_find?_eq_some hrow
    obtain rfl : c.id = id := by simpa using List.find?_some hrow
    rw [evaluate_row s hc]
    unfold settle
    split_ifs with hin
    · cases hp : (judge t c (s c.id)).pending with
      | none =>
        refine .inl ⟨by simp [sent_none hp], ?_⟩
        intro p hp' hid
        simp [(judge_of_mem hc hp' hid).2] at hp
      | some p =>
        cases hd : t.delivered c.id with
        | false => exact .inl ⟨by simp [sent_some hp], fun _ _ _ => rfl⟩
        | true =>
          refine .inr ⟨rfl, p, mem_pending.mpr ⟨c, hin, hp⟩, (judge_pending hp).1, ?_⟩
          simp [sent_some hp]
    · refine .inl ⟨by simp, ?_⟩
      intro p hp hid
      exact absurd (judge_of_mem hc hp hid).1 hin

/-! ## Runs -/

/-- The marks after the ticks of a run; a new row has none. -/
def after (ticks : List Tick) : Nat → Marks := run evaluate (fun _ => {}) ticks

@[simp] theorem after_nil : after [] = fun _ => {} := rfl

@[simp] theorem after_snoc (ticks : List Tick) (t : Tick) :
    after (ticks ++ [t]) = evaluate (after ticks) t := run_snoc _ _ _ _

/-- An alert of a kind was delivered for the monitor at a tick after `past`. -/
def Delivered (past : List Tick) (t : Tick) (id : Nat) (k : Kind) (flag : Option (List Nat)) :
    Prop :=
  t.delivered id = true ∧ ∃ p ∈ pending (after past) t, p.kind = k ∧ p.checkId = id ∧ p.flag = flag

/-- The run has delivered the breakdown of these locations, and nothing of the monitor
after it. -/
def Told (ticks : List Tick) (id : Nat) (ids : List Nat) : Prop :=
  ∃ past t later, ticks = past ++ t :: later ∧ Delivered past t id .locpart (some ids) ∧
    ∀ mid u rest, later = mid ++ u :: rest →
      ∀ k flag, ¬ Delivered (past ++ t :: mid) u id k flag

/-- `loc_notified` is what the last delivered alert said. -/
theorem told_of_notified {ticks : List Tick} {id : Nat} {ids : List Nat}
    (h : (after ticks id).notified = some ids) : Told ticks id ids := by
  induction ticks using List.reverseRecOn generalizing ids with
  | nil => simp at h
  | append_singleton ticks t ih =>
    rw [after_snoc] at h
    rcases evaluate_notified (after ticks) t id with ⟨heq, hquiet⟩ | ⟨hd, p, hp, hid, heq⟩
    · obtain ⟨past, u, later, rfl, hu, hlater⟩ := ih (heq ▸ h)
      refine ⟨past, u, later ++ [t], by simp, hu, ?_⟩
      intro mid v rest hsplit k flag
      rcases List.eq_nil_or_concat rest with rfl | ⟨rest, w, rfl⟩
      · -- the new tick: it delivers nothing of the monitor
        obtain ⟨rfl, hv⟩ := List.append_inj' hsplit rfl
        obtain rfl : t = v := by simpa using hv
        rintro ⟨hd, p, hp, -, hid, -⟩
        simp [hquiet p hp hid] at hd
      · have hl : later = mid ++ v :: rest := by
          have : later ++ [t] = (mid ++ v :: rest) ++ [w] := by simpa using hsplit
          exact (List.append_inj' this rfl).1
        exact hlater mid v rest hl k flag
    · obtain ⟨c, hc, hj⟩ := mem_pending.mp hp
      rcases (judge_pending hj).2 with ⟨hk, -, -⟩ | ⟨-, -, -, hf⟩
      · refine ⟨ticks, t, [], rfl, ⟨hd, p, hp, hk, hid, heq.symm.trans h⟩, ?_⟩
        intro mid u rest hsplit
        simp at hsplit
      · rw [heq, hf] at h
        cases h

/-! ## What a recovery says -/

def SeesUp (t : Tick) (c : Check) (loc : Location) : Prop :=
  (report t c loc).1 = .up ∨ (report t c loc).1 = .degraded

def SeesDown (t : Tick) (c : Check) (loc : Location) : Prop := (report t c loc).1 = .down

/-- The location was announced as failing. -/
def Announced (m : Marks) (loc : Location) : Prop := loc.id ∈ m.notified.getD []

/-- A recovery is true: some location sees the site up, none that was announced sees it
down, and the announcement was delivered. -/
structure Genuine (past : List Tick) (t : Tick) (c : Check) : Prop where
  up : ∃ loc ∈ effectiveLocations c t.enabled, SeesUp t c loc
  down : ∀ loc ∈ effectiveLocations c t.enabled,
    Announced (after past c.id) loc → ¬ SeesDown t c loc
  told : ∃ ids, (after past c.id).notified = some ids ∧ Told past c.id ids

/-- A tick after `past` invents no recovery of the monitor, and where no location knows
anything it keeps what is announced. -/
structure Right (past : List Tick) (t : Tick) (c : Check) : Prop where
  locrec : ∀ p ∈ pending (after past) t, p.kind = .locrec → p.checkId = c.id → Genuine past t c
  held : (∀ loc ∈ effectiveLocations c t.enabled, (report t c loc).1 = .unknown) →
    (evaluate (after past) t c.id).notified = (after past c.id).notified

/-- A location sees the site down and is left out of the count: its failures are still
too few, or its proxy is broken and it was not down before. -/
def LeftOut (t : Tick) (c : Check) (m : Marks) (loc : Location) : Prop :=
  SeesDown t c loc ∧ count t c m loc = none

/-- Nothing is announced, or something counts as down, or some location sees the site
up and none that was announced is left out. -/
def Settled (t : Tick) (c : Check) (m : Marks) : Prop :=
  m.notified = none ∨
    (∃ loc ∈ effectiveLocations c t.enabled, count t c m loc = some false) ∨
    ((∃ loc ∈ effectiveLocations c t.enabled, SeesUp t c loc) ∧
      ∀ loc ∈ effectiveLocations c t.enabled, Announced m loc → ¬ LeftOut t c m loc)

theorem nDown_eq_zero {t : Tick} {c : Check} {m : Marks} :
    nDown t c m = 0 ↔ ∀ loc ∈ effectiveLocations c t.enabled, count t c m loc ≠ some false := by
  unfold nDown counted
  rw [List.countP_eq_zero]
  constructor
  · intro h loc hl hc
    simpa using h (loc, false) (List.mem_filterMap.mpr ⟨loc, hl, by simp [hc]⟩)
  · intro h p hp
    obtain ⟨loc, hl, hc⟩ := List.mem_filterMap.mp hp
    obtain ⟨up, hup, rfl⟩ := Option.map_eq_some_iff.mp hc
    cases up with
    | true => simp
    | false => exact absurd hup (h loc hl)

theorem nUp_eq_zero {t : Tick} {c : Check} {m : Marks} :
    nUp t c m = 0 ↔ ∀ loc ∈ effectiveLocations c t.enabled, count t c m loc ≠ some true := by
  unfold nUp counted
  rw [List.countP_eq_zero]
  constructor
  · intro h loc hl hc
    simpa using h (loc, true) (List.mem_filterMap.mpr ⟨loc, hl, by simp [hc]⟩)
  · intro h p hp
    obtain ⟨loc, hl, hc⟩ := List.mem_filterMap.mp hp
    obtain ⟨up, hup, rfl⟩ := Option.map_eq_some_iff.mp hc
    cases up with
    | false => simp
    | true => exact absurd hup (h loc hl)

theorem seesUp_of_count {t : Tick} {c : Check} {m : Marks} {loc : Location}
    (h : count t c m loc = some true) : SeesUp t c loc := by
  unfold count at h
  unfold SeesUp
  cases hr : (report t c loc).1 <;> simp only [hr] at h <;> split_ifs at h <;> simp_all

theorem not_seesUp {t : Tick} {c : Check} {loc : Location} (h : SeesDown t c loc) :
    ¬ SeesUp t c loc := by
  unfold SeesDown at h
  simp [SeesUp, h]

/-- The alert of a monitor decides what becomes of its `loc_notified`. -/
theorem evaluate_quiet {s : Nat → Marks} {t : Tick} {c : Check} (hc : c ∈ t.checks)
    (h : (judge t c (s c.id)).pending = none) :
    (evaluate s t c.id).notified = (s c.id).notified := by
  rw [evaluate_row s (mem_checks.mp hc).1]
  simp [settle, hc, sent_none h]

/-- A settled tick is right about the monitor. -/
theorem Settled.right {past : List Tick} {t : Tick} {c : Check} (hc : c ∈ t.checks)
    (h : Settled t c (after past c.id)) : Right past t c where
  locrec p hp hk hid := by
    have hj := (judge_of_mem (mem_checks.mp hc).1 hp hid).2
    rcases (judge_pending hj).2 with ⟨hk', -⟩ | ⟨-, hd, hn, -⟩
    · simp [hk] at hk'
    obtain ⟨ids, hids⟩ := Option.ne_none_iff_exists'.mp hn
    have hcount := nDown_eq_zero.mp hd
    rcases h with hnone | ⟨loc, hl, hf⟩ | ⟨hup, hleft⟩
    · exact absurd hnone hn
    · exact absurd hf (hcount loc hl)
    · refine ⟨hup, ?_, ids, hids, told_of_notified hids⟩
      intro loc hl ha hdown
      apply hleft loc hl ha
      refine ⟨hdown, ?_⟩
      cases hct : count t c (after past c.id) loc with
      | none => rfl
      | some up =>
        cases up with
        | true => exact absurd (seesUp_of_count hct) (not_seesUp hdown)
        | false => exact absurd hct (hcount loc hl)
  held hall := by
    have noup : ∀ loc ∈ effectiveLocations c t.enabled, ¬ SeesUp t c loc := by
      intro loc hl hu
      simp [SeesUp, hall loc hl] at hu
    have hup : nUp t c (after past c.id) = 0 :=
      nUp_eq_zero.mpr fun loc hl hct => noup loc hl (seesUp_of_count hct)
    apply evaluate_quiet hc
    cases hj : (judge t c (after past c.id)).pending with
    | none => rfl
    | some p =>
      exfalso
      rcases (judge_pending hj).2 with ⟨-, hu, -⟩ | ⟨-, hd, hn, -⟩
      · exact hu hup
      · rcases h with hnone | ⟨loc, hl, hf⟩ | ⟨⟨loc, hl, hu⟩, -⟩
        · exact hn hnone
        · exact nDown_eq_zero.mp hd loc hl hf
        · exact noup loc hl hu

/-- After any run, what a tick says of a monitor is right exactly when it is settled. -/
theorem right_iff_settled (past : List Tick) (t : Tick) (c : Check) (hc : c ∈ t.checks) :
    Right past t c ↔ Settled t c (after past c.id) := by
  constructor
  · intro h
    by_cases hn : (after past c.id).notified = none
    · exact .inl hn
    by_cases hd : nDown t c (after past c.id) = 0
    · -- the recovery is pending, so what it says has to be so
      have hp : ⟨.locrec, c.name, "", c.id, none⟩ ∈ pending (after past) t :=
        mem_pending.mpr ⟨c, hc, by simp [judge_clear hd, hn]⟩
      have hg := h.locrec _ hp rfl rfl
      exact .inr (.inr ⟨hg.up, fun loc hl ha hleft => hg.down loc hl ha hleft.1⟩)
    · have : ∃ loc ∈ effectiveLocations c t.enabled,
          count t c (after past c.id) loc = some false := by
        by_contra hno
        push Not at hno
        exact hd (nDown_eq_zero.mpr hno)
      exact .inr (.inl this)
  · exact Settled.right hc

/-! A monitor that is not seen from the second location, then a tick where that location
is off and the check itself has failed once. -/

def panelLoc : Location := ⟨1, "Панель", ""⟩
def proxyLoc : Location := ⟨2, "Прокси", "socks5://203.0.113.10:1080"⟩

def partialTick (now : Time) : Tick where
  now := now
  enabled := [panelLoc, proxyLoc]
  rows := [{ id := 7, name := "site", lastStatus := .up }]
  results := fun _ _ => some ⟨.down, 3⟩

def failedOnce : Check :=
  { id := 7, name := "site", lastStatus := .down, consecutiveFails := 1 }

def offTick : Tick where
  now := sec 330
  enabled := [panelLoc]
  rows := [failedOnce]
  results := fun _ _ => none

theorem right_iff_settled_offTick :
    failedOnce ∈ offTick.checks ∧
      (Right [partialTick 0, partialTick (sec 300)] offTick failedOnce ↔
        Settled offTick failedOnce (after [partialTick 0, partialTick (sec 300)] 7)) :=
  ⟨by decide, right_iff_settled _ _ _ (by decide)⟩

/-- The recovery goes out although the site is not up from anywhere. -/
theorem locrec_invented :
    ¬ ∀ (past : List Tick) (t : Tick), ∀ c ∈ t.checks, Right past t c := by
  intro h
  have hr := h [partialTick 0, partialTick (sec 300)] offTick failedOnce (by decide)
  have hp : ⟨.locrec, "site", "", 7, none⟩ ∈
      pending (after [partialTick 0, partialTick (sec 300)]) offTick := by decide
  obtain ⟨loc, hl, hu⟩ := (hr.locrec _ hp rfl rfl).up
  revert loc
  unfold SeesUp
  decide

end Kervax.Locations
