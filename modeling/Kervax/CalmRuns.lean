-- The hold of a recovery, over runs: an alert is closed only after a span in
-- which every tick saw the server well.
import Kervax.KindEnds
import Kervax.FlapRuns

namespace Kervax

open Runs

/-! ## What a run has seen -/

/-- The tick saw, from a whole and fresh report, that all is well. -/
def wellSeen (s : Seen) : Bool :=
  !s.skip && s.talking && s.fresh &&
    match s.cond with
    | none => false
    | some c => c.level = 0 && c.ctx.complete

structure CalmLog where
  /-- Since when every tick was well. -/
  well : Option Time := none
  last : Option Time := none

def CalmLog.after (g : CalmLog) (s : Seen) : CalmLog where
  well := if wellSeen s then some (g.well.getD s.now) else none
  last := some s.now

def calmStep (nm : Norms) (k : Kind) (x : KindSt × CalmLog) (i : KindIn) : KindSt × CalmLog :=
  (kindStep nm k x.1 i, x.2.after i.seen)

/-! ## What is asked of a tick -/

/-- The open alert is closed on this tick, by a recovery that is offered or
without a word. -/
def Closes (nm : Norms) (k : Kind) (st : KindSt) (i : KindIn) : Prop :=
  0 < st.level ∧ ((kindStep nm k st i).level = 0 ∨
    offers .recovery (kindTick nm k i.seen st).2.recs = true)

/-- The closing is a decision, not an observation: a mark "fixed", or a kind
that retires, which goes to `quiet_closed`. -/
def Decided (k : Kind) (st : KindSt) (i : KindIn) : Prop :=
  fixNow k i.seen = true ∨ retires k i.seen (liftFlap k i.seen st).1 = true

/-- Every tick since `settleS` ago, and this one, was well. -/
def CalmClosing (nm : Norms) (k : Kind) (x : KindSt × CalmLog) (i : KindIn) : Prop :=
  Closes nm k x.1 i → ¬ Decided k x.1 i →
    wellSeen i.seen = true ∧ ∃ t₀, x.2.well = some t₀ ∧ settleS ≤ i.seen.now - t₀

/-- The body gets past its gates. -/
def Passes (k : Kind) (s : Seen) (c : Cond) (st : KindSt) : Prop :=
  gates k s c (bodyStart k s c st) = .next (bodyStart k s c st)

/-- Ticks come one after the other. -/
def InOrder (x : KindSt × CalmLog) (i : KindIn) : Prop := ∀ t, x.2.last = some t → t ≤ i.seen.now

/-- What keeps the mark of the calm true. -/
structure CalmSound (nm : Norms) (k : Kind) (x : KindSt × CalmLog) (i : KindIn) : Prop where
  /-- No tick is lost while the alert calms down. -/
  skip : i.seen.skip = true → x.1.calm = none
  /-- Trouble within the calm is looked at, not left at a gate or to a snooze;
  a closing by a mark "fixed" is delivered. -/
  trouble : confirmed i.seen = true → x.1.calm ≠ none → ∀ c, i.seen.cond = some c → 0 < c.level →
    i.seen.quietSrv = false ∧ (∀ d, condNow k i.seen = some d → Passes k i.seen d x.1) ∧
      (fixNow k i.seen = true → i.recAck = true ∧ 0 < x.1.level)
  /-- A snooze closes no alert that has not been calm for as long. -/
  snooze : i.seen.quietSrv = true → confirmed i.seen = true → fixNow k i.seen = false →
    ∀ c, i.seen.cond = some c → c.level = 0 → 0 < x.1.level →
      ∃ t, x.1.calm = some t ∧ settleS ≤ i.seen.now - t
  /-- What is muted now is let go only by a whole and fresh report. -/
  policy : ∀ c, condNow k i.seen = some c →
    policyClose i.seen c (bodyStart k i.seen c x.1).st = true →
      i.seen.fresh = true ∧ c.ctx.complete = true
  /-- The mute of a disk is not lifted from an open alert. -/
  lift : k = .diskHealth → i.seen.diskLift = true → x.1.level = 0

/-- The mark of the calm is true: since then every tick was well. -/
structure CalmSane (x : KindSt × CalmLog) : Prop where
  well : ∀ t, x.1.calm = some t → ∃ t₀, x.2.well = some t₀ ∧ t₀ ≤ t
  last : ∀ t₀, x.2.well = some t₀ → ∃ t, x.2.last = some t ∧ t₀ ≤ t

theorem calmSane_start : CalmSane ({}, {}) := ⟨by simp, by simp⟩

/-! ## The calm and the level before the body -/

variable {nm : Norms} {k : Kind} {s : Seen} {c : Cond} {st : KindSt}

theorem liftFlap_keeps (k : Kind) (s : Seen) (st : KindSt) :
    (liftFlap k s st).1.level = st.level ∧ (liftFlap k s st).1.calm = st.calm ∧
      offers .recovery (liftFlap k s st).2 = false := by
  unfold liftFlap
  split_ifs <;> simp [offers]

theorem closedSt_level (k : Kind) (st : KindSt) : (closedSt k st).level = 0 := by
  unfold closedSt
  dsimp only
  split <;> rfl

theorem closedSt_calm (k : Kind) (st : KindSt) : (closedSt k st).calm = none := by
  unfold closedSt
  dsimp only
  split <;> rfl

theorem bookkeep_keeps (k : Kind) (s : Seen) (c : Cond) (st : KindSt) :
    (bookkeep k s c st).level = st.level ∧ (bookkeep k s c st).calm = st.calm := by
  unfold bookkeep
  split_ifs
  · exact ⟨rfl, rfl⟩
  · exact ⟨rfl, rfl⟩
  all_goals
    dsimp only
    split <;> exact ⟨rfl, rfl⟩

/-- A calm that the tick still finds was there before, and is confirmed. -/
theorem prepared_calm {t : Time} (h : (prepared k s st).calm = some t) :
    st.calm = some t ∧ confirmed s = true := by
  unfold prepared calmReset at h
  split at h
  · refine ⟨?_, ‹_›⟩
    unfold retire at h
    split at h
    · simp [closedSt_calm] at h
    · rwa [(liftFlap_keeps k s st).2.1] at h
  · cases h

theorem prepared_level (hr : retires k s (liftFlap k s st).1 = false) :
    (prepared k s st).level = st.level := by
  unfold prepared retire
  rw [hr]
  unfold calmReset
  split <;> exact (liftFlap_keeps k s st).1

/-- Nothing has been closed by the time the body begins. -/
structure StaysOpen (y : Carry) : Prop where
  level : 0 < y.st.level
  recs : offers .recovery y.out.recs = false
  fire : .level 0 ∉ y.out.fireApply
  rec' : .level 0 ∉ y.out.recApply

theorem bodyStart_calm {t : Time} (h : (bodyStart k s c st).st.calm = some t) :
    st.calm = some t ∧ confirmed s = true := by
  refine prepared_calm (k := k) ?_
  rw [← (bookkeep_keeps k s c (prepared k s st)).2]
  unfold bodyStart at h
  rcases liftDiskMute_end (k := k) (s := s) (bookkeep k s c (prepared k s st))
    (preparedOut k s st) with heq | ⟨-, -, heq⟩
  all_goals
    rw [heq] at h
    exact h

/-- A kind that retires has no calm left. -/
theorem retires_of_calm {t : Time} (h : (bodyStart k s c st).st.calm = some t) :
    retires k s (liftFlap k s st).1 = false := by
  by_contra hr
  rw [Bool.not_eq_false] at hr
  have hnone : (prepared k s st).calm = none := by
    unfold prepared retire calmReset
    rw [hr]
    split
    · exact closedSt_calm ..
    · rfl
  unfold bodyStart at h
  rcases liftDiskMute_end (k := k) (s := s) (bookkeep k s c (prepared k s st))
    (preparedOut k s st) with heq | ⟨-, -, heq⟩
  all_goals
    rw [heq] at h
    have h : (bookkeep k s c (prepared k s st)).calm = some t := h
    rw [(bookkeep_keeps ..).2, hnone] at h
    cases h

theorem bodyStart_queue (k : Kind) (s : Seen) (c : Cond) (st : KindSt) :
    (bodyStart k s c st).out.fires = [] ∧
    (bodyStart k s c st).out.fireApply = [] ∧ (bodyStart k s c st).out.recApply = [] := by
  unfold bodyStart
  rcases liftDiskMute_end (k := k) (s := s) (bookkeep k s c (prepared k s st))
    (preparedOut k s st) with heq | ⟨-, -, heq⟩
  all_goals
    rw [heq]
    exact ⟨rfl, rfl, rfl⟩

theorem bodyStart_open (hr : retires k s (liftFlap k s st).1 = false)
    (hd : k = .diskHealth → s.diskLift = true → st.level = 0) (hl : 0 < st.level) :
    (bodyStart k s c st).st.level = st.level ∧ StaysOpen (bodyStart k s c st) := by
  have hlift : liftDiskMute k s (bookkeep k s c (prepared k s st)) (preparedOut k s st) =
      (bookkeep k s c (prepared k s st), preparedOut k s st) := by
    rcases liftDiskMute_end (k := k) (s := s) (bookkeep k s c (prepared k s st))
      (preparedOut k s st) with heq | ⟨hk, hdl, -⟩
    · exact heq
    · have := hd hk hdl
      omega
  have hlevel : (bookkeep k s c (prepared k s st)).level = st.level := by
    rw [(bookkeep_keeps ..).1, prepared_level hr]
  unfold bodyStart
  rw [hlift]
  refine ⟨hlevel, ?_, ?_, ?_, ?_⟩
  · rw [← hlevel] at hl
    exact hl
  · exact (liftFlap_keeps k s st).2.2
  · exact List.not_mem_nil
  · exact List.not_mem_nil

/-! ## The body keeps an open alert open while there is trouble -/

theorem level_mem_alertWrites {n top : Nat} {x : Carry}
    (h : .level n ∈ alertWrites k s c top x) : n = c.level := by
  simp only [alertWrites, List.flatten_cons, List.flatten_nil, List.mem_append, List.mem_singleton,
    mem_onlyIf, List.not_mem_nil, reduceCtorEq, and_false, or_false, KWrite.level.injEq] at h
  exact h

variable {x : Carry}

theorem SettleEnd.open' {r : BodyFlow Carry} (h : SettleEnd k s c x r) (hl : 0 < c.level)
    (hx : StaysOpen x) : StaysOpen r.out := by
  cases h with
  | again =>
    refine ⟨?_, hx.recs, hx.fire, hx.rec'⟩
    simp only [BodyFlow.out_done, swallow]
    split
    · exact hl
    · split <;> exact hl
  | calms => omega
  | hushed => omega
  | _ => exact ⟨hx.level, hx.recs, hx.fire, hx.rec'⟩

theorem MembersEnd.open' {r : BodyFlow Carry} (h : MembersEnd nm k s c x r) (hl : 0 < c.level)
    (hx : StaysOpen x) : StaysOpen r.out := by
  cases h with
  | policy => omega
  | zero => omega
  | climb => exact ⟨hl, hx.recs, hx.fire, hx.rec'⟩
  | news =>
    refine ⟨hx.level, hx.recs, ?_, hx.rec'⟩
    simp [tellMembers, hx.fire]
  | rise =>
    refine ⟨hx.level, hx.recs, ?_, hx.rec'⟩
    simp [tellMembers, hx.fire]
  | _ => exact ⟨hx.level, hx.recs, hx.fire, hx.rec'⟩

theorem ThrashPass.open' {y : Carry} (h : ThrashPass k c x y) (hx : StaysOpen x) :
    StaysOpen y := by
  cases h <;> exact ⟨hx.level, hx.recs, hx.fire, hx.rec'⟩

theorem RoutineEnd.open' {r : BodyFlow Carry} (h : RoutineEnd k s c x r) (hl : 0 < c.level)
    (hx : StaysOpen x) : StaysOpen r.out := by
  cases h with
  | quietEnd => omega
  | held => exact ⟨hl, hx.recs, hx.fire, hx.rec'⟩
  | usual => exact ⟨hl, hx.recs, hx.fire, hx.rec'⟩
  | _ => exact ⟨hx.level, hx.recs, hx.fire, hx.rec'⟩

theorem SameEnd.open' {r : BodyFlow Carry} {top : Nat} (h : SameEnd k c top x r) (hl : 0 < c.level)
    (hx : StaysOpen x) : StaysOpen r.out := by
  cases h with
  | climb => exact ⟨hl, hx.recs, hx.fire, hx.rec'⟩
  | _ => exact hx

theorem LinkPass.open' {r : BodyFlow Carry} (h : LinkPass k s c x r) (hl : 0 < c.level)
    (hx : StaysOpen x) : StaysOpen r.out := by
  have hne : (0 : Nat) ≠ c.level := by omega
  cases h with
  | other => exact hx
  | rare => exact ⟨hx.level, hx.recs, hx.fire, hx.rec'⟩
  | swallowed => exact ⟨hx.level, hx.recs, by simp [hx.fire, hne], hx.rec'⟩
  | series => exact ⟨hx.level, hx.recs, by simp [hx.fire, hne], hx.rec'⟩

theorem ReportEnd.open' {y : Carry} {top : Nat} (h : ReportEnd k s c top x y) (hl : 0 < c.level)
    (hx : StaysOpen x) : StaysOpen y := by
  have hne : (0 : Nat) ≠ c.level := by omega
  cases h with
  | swallowed => exact ⟨hx.level, hx.recs, by simp [hx.fire, hne], hx.rec'⟩
  | series => exact ⟨hx.level, hx.recs, by simp [hx.fire, hne], hx.rec'⟩
  | alert _ st' hst =>
    refine ⟨?_, hx.recs, ?_, hx.rec'⟩
    · rcases hst with ⟨-, rfl⟩ | ⟨-, rfl⟩ <;> exact hx.level
    · intro hmem
      rcases List.mem_append.1 hmem with hmem | hmem
      · exact hx.fire hmem
      · exact hne (level_mem_alertWrites hmem)
  | lower => exact ⟨hl, hx.recs, hx.fire, hx.rec'⟩
  | keeps => exact hx
  | _ => omega

/-- With trouble the whole tail keeps the alert open. -/
theorem AtLevel.open' {z : Carry} (h : AtLevel nm k s c x z) (hl : 0 < c.level)
    (hx : StaysOpen x) : StaysOpen z := by
  obtain ⟨y, y', hm, ht, hr⟩ := h.path
  exact hr.open' hl (ht.open' (hm.open' hl hx))

theorem AtMembers.open' {b : Carry} (h : AtMembers k s c b x) (hl : 0 < c.level)
    (hb : StaysOpen b) : StaysOpen x := by
  obtain ⟨p, -, hs⟩ := h.settle
  exact hs.open' hl ⟨hb.level, hb.recs, hb.fire, hb.rec'⟩

/-! ## The calm over the body -/

theorem MembersEnd.calm {r : BodyFlow Carry} (h : MembersEnd nm k s c x r) :
    r.out.st.calm = x.st.calm := by
  cases h <;> rfl

theorem RoutineEnd.calm {r : BodyFlow Carry} (h : RoutineEnd k s c x r) :
    r.out.st.calm = x.st.calm := by
  cases h <;> rfl

theorem SameEnd.calm {r : BodyFlow Carry} {top : Nat} (h : SameEnd k c top x r) :
    r.out.st.calm = x.st.calm := by
  cases h <;> rfl

theorem LinkPass.calm {r : BodyFlow Carry} (h : LinkPass k s c x r) :
    r.out.st.calm = x.st.calm := by
  cases h <;> rfl

theorem ThrashPass.calm {y : Carry} (h : ThrashPass k c x y) : y.st.calm = x.st.calm := by
  cases h <;> rfl

theorem ReportEnd.calm {y : Carry} {top : Nat} (h : ReportEnd k s c top x y) :
    y.st.calm = x.st.calm := by
  cases h with
  | alert _ st' hst => rcases hst with ⟨-, rfl⟩ | ⟨-, rfl⟩ <;> rfl
  | _ => rfl

theorem AtLevel.calm {z : Carry} (h : AtLevel nm k s c x z) : z.st.calm = x.st.calm := by
  obtain ⟨y, y', hm, ht, hr⟩ := h.path
  exact (hr.calm.trans ht.calm).trans hm.calm

theorem swallow_calm (w : Was) (st : KindSt) : (swallow s c w st).calm = st.calm := by
  unfold swallow
  dsimp only
  split
  · rfl
  · split <;> rfl

/-- Past the settle rules the calm is gone with trouble, and kept without. -/
theorem AtMembers.calm {b : Carry} (h : AtMembers k s c b x) (hk : k ∉ noSettle) :
    (0 < c.level ∧ x.st.calm = none) ∨ (c.level = 0 ∧ x.st.calm = b.st.calm) := by
  obtain ⟨p, -, hs⟩ := h.settle
  cases hs with
  | own hno => exact absurd hno hk
  | overdue _ hl => exact .inl ⟨hl, rfl⟩
  | trouble _ hl => exact .inl ⟨hl, rfl⟩
  | settled _ hl => exact .inr ⟨hl, rfl⟩

/-- What becomes of the calm of a kind that settles. -/
inductive CalmEnd (k : Kind) (s : Seen) (c : Cond) (b y : Carry) : Prop
  | gone (h : y.st.calm = none)
  | left (hg : gates k s c b = .done y) (h : y.st.calm = b.st.calm)
  | decided (hf : fixNow k s = true) (hp : b.st.level ≠ 0)
      (hrec : y.out.recApply = b.out.recApply ++ fixedTail k b.st) (hst : y.st = b.st)
      (hfire : y.out.fireApply = b.out.fireApply)
  | idle (hf : fixNow k s = true) (hp : b.st.level = 0) (h : y.st.calm = b.st.calm)
  | kept (hf : fixNow k s = false) (hl : c.level = 0) (h : y.st.calm = b.st.calm)
  | begins (hf : fixNow k s = false) (hl : c.level = 0) (hpass : GatesEnd k s c b (.next b))
      (h : y.st.calm = some s.now)

/-- Past the settle rules, whatever the tail does. -/
theorem CalmEnd.tail {b y : Carry} (hx : AtMembers k s c b x) (hk : k ∉ noSettle)
    (hy : y.st.calm = x.st.calm) : CalmEnd k s c b y := by
  rcases hx.calm hk with ⟨-, hc⟩ | ⟨hl, hc⟩
  · exact .gone (hy.trans hc)
  · exact .kept hx.fix hl (hy.trans hc)

theorem fixedTail_silent (k : Kind) (st : KindSt) : (applyAll (fixedTail k st) st).calm = none := by
  have hcalm : ∀ ws : List KWrite, ∀ st' : KindSt, st'.calm = none →
      (applyAll ws st').calm = none := by
    intro ws st' h
    induction ws generalizing st' with
    | nil => exact h
    | cons w ws ih => exact ih _ (by cases w <;> simp [KWrite.set, h])
  rw [fixedTail, applyAll_append, applyAll_closedTail]
  exact hcalm _ _ (closedSt_calm k st)

theorem BodyEnd.calm {b y : Carry} (h : BodyEnd nm k s c b y) (hk : k ∉ noSettle) :
    CalmEnd k s c b y := by
  have hprev : ∀ {p}, PrevOf k c b p → p = b.st.level := by
    rintro p (hp | ⟨-, rfl, -⟩)
    · exact hp
    · exact absurd (by decide) hk
  cases h with
  | gates y hg h =>
    cases h with
    | left => exact .left hg rfl
    | muted => exact .left hg rfl
  | fixed hpass p hp y h =>
    cases h with
    | told hf h0 =>
      have := hprev hp
      exact .decided hf (by dsimp only at h0; omega) rfl rfl rfl
    | silent => exact .gone (fixedTail_silent ..)
    | nothing hf h0 => exact .idle hf (by rw [← hprev hp]; exact h0) rfl
  | settle hpass hfix p hp y h =>
    cases h with
    | again => exact .gone (swallow_calm ..)
    | calms _ hl => exact .begins hfix hl hpass rfl
    | waits _ hl => exact .kept hfix hl rfl
    | hushed => exact .gone (closedSt_calm ..)
  | night x hx => exact .tail hx hk rfl
  | members x hx y h => exact .tail hx hk h.calm
  | routine x hx y y' hm ht z h => exact .tail hx hk ((h.calm.trans ht.calm).trans hm.calm)
  | same x hx z hz w h => exact .tail hx hk (h.calm.trans hz.calm)
  | link x hx z hz hs w h => exact .tail hx hk (h.calm.trans hz.calm)
  | report x hx z hz hs w hw v h => exact .tail hx hk ((h.calm.trans hw.calm).trans hz.calm)

/-! ## One step -/

theorem wellSeen_of_confirmed (hskip : s.skip = false) (hconf : confirmed s = true)
    (h0 : ∀ d, s.cond = some d → d.level = 0) : wellSeen s = true := by
  unfold confirmed at hconf
  cases hc : s.cond with
  | none => simp [hc] at hconf
  | some d =>
    simp only [hc, Bool.and_eq_true, Bool.not_eq_true'] at hconf
    obtain ⟨⟨⟨htalk, hfresh⟩, -⟩, hcomp⟩ := hconf
    simp [wellSeen, hskip, htalk, hfresh, hc, h0 d hc, hcomp]

/-- The condition of the body is the one that was observed, unless a mark
"fixed" counts. -/
theorem condNow_eq (hf : fixNow k s = false) : condNow k s = s.cond := by
  unfold condNow
  rw [hf]
  rfl

theorem condNow_none (h : condNow k s = none) : s.cond = none := by
  unfold condNow at h
  split at h
  · simpa using h
  · exact h

theorem not_confirmed_of_unseen (h : condNow k s = none) : confirmed s = false := by
  simp [confirmed, condNow_none h]

/-- A tick in quiet hours leaves the calm as it was prepared. -/
theorem quietTick_calm (c : Cond) (st : KindSt) (o : Out) :
    (quietTick k s c st o).1.calm = st.calm := by
  have hend := quietTick_end (k := k) (s := s) (c := c) st o
  generalize quietTick k s c st o = q at hend
  cases hend <;> rfl

/-- A calm begins on a tick that saw all well. -/
theorem wellSeen_of_begins {x : KindSt × CalmLog} {i : KindIn} (hk : k ∉ noSettle)
    (hs : CalmSound nm k x i) (hskip : i.seen.skip = false) {c : Cond}
    (hc : condNow k i.seen = some c) (hf : fixNow k i.seen = false) (hl : c.level = 0) {y : Carry}
    (hpass : GatesEnd k i.seen c (bodyStart k i.seen c x.1) (.next y)) :
    wellSeen i.seen = true := by
  have hoff : k ≠ .offline := by
    rintro rfl
    exact hk (by decide)
  cases hpass with
  | pass htalk hsure =>
    have hsure : i.seen.fresh = true ∧ c.ctx.complete = true := by
      rcases hsure with h' | h' | h' | ⟨h', h''⟩
      · exact absurd h' hoff
      · rw [hf] at h'
        cases h'
      · exact hs.policy c hc h'
      · exact ⟨h', (h'' hl).1⟩
    rw [condNow_eq hf] at hc
    simp [wellSeen, hskip, htalk.resolve_right hoff, hsure.1, hc, hl, hsure.2]

/-- A calm that outlives the tick: either it was there before and the tick saw
all well, or it begins with such a tick. -/
theorem kindStep_calm {x : KindSt × CalmLog} {i : KindIn} (hk : k ∉ noSettle)
    (hs : CalmSound nm k x i) {t : Time} (h : (kindStep nm k x.1 i).calm = some t) :
    (x.1.calm = some t ∧ (i.seen.skip = false → wellSeen i.seen = true)) ∨
      (t = i.seen.now ∧ wellSeen i.seen = true) := by
  have hr := commit_calm (commit_calm h)
  -- raw trouble rules out each way that keeps the calm
  have hkept : ∀ hskip : i.seen.skip = false, x.1.calm = some t → confirmed i.seen = true →
      (∀ d, i.seen.cond = some d → d.level = 0) →
      (x.1.calm = some t ∧ (i.seen.skip = false → wellSeen i.seen = true)) ∨
        (t = i.seen.now ∧ wellSeen i.seen = true) := fun hskip hcalm hconf h0 =>
    .inl ⟨hcalm, fun _ => wellSeen_of_confirmed hskip hconf h0⟩
  have hend := kindTick_end nm k i.seen x.1
  generalize hgen : kindTick nm k i.seen x.1 = r at hend hr
  cases hend with
  | skip hskip => exact .inl ⟨hr, fun hno => by rw [hskip] at hno; cases hno⟩
  | unseenQuiet hskip hc =>
    have hconf := (prepared_calm hr).2
    rw [not_confirmed_of_unseen hc] at hconf
    cases hconf
  | unseen hskip hc =>
    have hcalm : (prepared k i.seen x.1).calm = some t := by
      rcases liftDiskMute_end (k := k) (s := i.seen) (prepared k i.seen x.1)
        (preparedOut k i.seen x.1) with heq | ⟨-, -, heq⟩
      all_goals
        rw [heq] at hr
        exact hr
    have hconf := (prepared_calm hcalm).2
    rw [not_confirmed_of_unseen hc] at hconf
    cases hconf
  | quiet hskip c hc hq =>
    have hcalm : (prepared k i.seen x.1).calm = some t := by
      rw [← (bookkeep_keeps k i.seen c (prepared k i.seen x.1)).2]
      exact (quietTick_calm ..).symm.trans hr
    obtain ⟨hold, hconf⟩ := prepared_calm hcalm
    refine hkept hskip hold hconf fun d hd => ?_
    by_contra hne
    have := (hs.trouble hconf (by simp [hold]) d hd (by omega)).1
    rw [hq] at this
    cases this
  | body hskip c hc hq =>
    have hloop := (loopBody_end nm k i.seen c (bodyStart k i.seen c x.1)).calm hk
    have hpre : (bodyStart k i.seen c x.1).st.calm = some t →
        x.1.calm = some t ∧ confirmed i.seen = true := bodyStart_calm
    cases hloop with
    | gone hnone =>
      rw [hnone] at hr
      cases hr
    | left hg heq =>
      obtain ⟨hold, hconf⟩ := hpre (heq ▸ hr)
      refine hkept hskip hold hconf fun d hd => ?_
      by_contra hne
      have hpass := (hs.trouble hconf (by simp [hold]) d hd (by omega)).2.1 c hc
      unfold Passes at hpass
      rw [hg] at hpass
      cases hpass
    | decided hf hp hrec hst hfire =>
      obtain ⟨hold, hconf⟩ := hpre (hst ▸ hr)
      refine hkept hskip hold hconf fun d hd => ?_
      by_contra hne
      have hack := ((hs.trouble hconf (by simp [hold]) d hd (by omega)).2.2 hf).1
      obtain ⟨-, hfire', hrec'⟩ := bodyStart_queue k i.seen c x.1
      unfold kindStep afterTick at h
      rw [hgen] at h
      simp only [hrec, hfire, hst, hfire', hrec', List.nil_append, commit_nil, hack,
        commit_ack, fixedTail_silent] at h
      cases h
    | idle hf hp heq =>
      have hb := heq ▸ hr
      obtain ⟨hold, hconf⟩ := hpre hb
      refine hkept hskip hold hconf fun d hd => ?_
      by_contra hne
      have hl := ((hs.trouble hconf (by simp [hold]) d hd (by omega)).2.2 hf).2
      have hopen := (bodyStart_open (c := c) (retires_of_calm hb) hs.lift hl).1
      omega
    | kept hf hl heq =>
      obtain ⟨hold, hconf⟩ := hpre (heq ▸ hr)
      refine hkept hskip hold hconf fun d hd => ?_
      rw [condNow_eq hf, hd] at hc
      cases hc
      exact hl
    | begins hf hl hpass hnow =>
      have ht : t = i.seen.now := by
        rw [hnow] at hr
        exact (Option.some.inj hr).symm
      exact .inr ⟨ht, wellSeen_of_begins hk hs hskip hc hf hl hpass⟩

theorem calmSane_step {x : KindSt × CalmLog} {i : KindIn} (hk : k ∉ noSettle) (h : CalmSane x)
    (ho : InOrder x i) (hs : CalmSound nm k x i) : CalmSane (calmStep nm k x i) where
  well := by
    intro t ht
    rcases kindStep_calm hk hs ht with ⟨hold, hwell⟩ | ⟨rfl, hwell⟩
    · have hskip : i.seen.skip = false := by
        by_contra hskip
        rw [Bool.not_eq_false] at hskip
        rw [hs.skip hskip] at hold
        cases hold
      obtain ⟨t₀, hw, hle⟩ := h.well t hold
      exact ⟨t₀, by simp [calmStep, CalmLog.after, hwell hskip, hw], hle⟩
    · cases hw : x.2.well with
      | none => exact ⟨i.seen.now, by simp [calmStep, CalmLog.after, hwell, hw], le_refl _⟩
      | some t₀ =>
        obtain ⟨l, hl, hle⟩ := h.last t₀ hw
        exact ⟨t₀, by simp [calmStep, CalmLog.after, hwell, hw], hle.trans (ho l hl)⟩
  last := by
    intro t₀ ht
    refine ⟨i.seen.now, rfl, ?_⟩
    simp only [calmStep, CalmLog.after] at ht
    split at ht
    · cases hw : x.2.well with
      | none =>
        simp only [hw, Option.getD_none, Option.some.injEq] at ht
        exact ht ▸ le_refl _
      | some t₁ =>
        simp only [hw, Option.getD_some, Option.some.injEq] at ht
        obtain ⟨l, hl, hle⟩ := h.last t₁ hw
        exact ht ▸ hle.trans (ho l hl)
    · cases ht

/-! ## What a closing rests on -/

/-- A tick that leaves the level above zero, and offers no recovery. -/
theorem not_closes {i : KindIn} (hlevel : 0 < (kindTick nm k i.seen st).1.level)
    (hrecs : offers .recovery (kindTick nm k i.seen st).2.recs = false)
    (hfire : .level 0 ∉ (kindTick nm k i.seen st).2.fireApply)
    (hrec : .level 0 ∉ (kindTick nm k i.seen st).2.recApply) : ¬ Closes nm k st i := by
  rintro ⟨-, h0 | hoff⟩
  · unfold kindStep afterTick at h0
    rcases commit_level_mem k i.seen.onb i.recAck (kindTick nm k i.seen st).2.recApply
      (commit k i.seen.onb i.fireAck (kindTick nm k i.seen st).2.fireApply
        (kindTick nm k i.seen st).1) with h | h
    · rw [h] at h0
      rcases commit_level_mem k i.seen.onb i.fireAck (kindTick nm k i.seen st).2.fireApply
        (kindTick nm k i.seen st).1 with h' | h'
      · omega
      · rw [h0] at h'
        exact hfire h'
    · rw [h0] at h
      exact hrec h
  · rw [hrecs] at hoff
    cases hoff

theorem not_closes_of_open {i : KindIn} {y : Carry} (hy : kindTick nm k i.seen st = (y.st, y.out))
    (h : StaysOpen y) : ¬ Closes nm k st i := by
  refine not_closes ?_ ?_ ?_ ?_
  · rw [hy]
    exact h.level
  · rw [hy]
    exact h.recs
  · rw [hy]
    exact h.fire
  · rw [hy]
    exact h.rec'

/-- The rules of the body close an open alert after its calm only. -/
theorem BodyEnd.closing {b y : Carry} (h : BodyEnd nm k s c b y) (hk : k ∉ noSettle)
    (ho : k ∉ ownSettle) (hb : StaysOpen b) :
    StaysOpen y ∨ fixNow k s = true ∨
      fixNow k s = false ∧ c.level = 0 ∧ ∃ t, b.st.calm = some t ∧ settleS ≤ s.now - t := by
  have hprev : ∀ {p}, PrevOf k c b p → p = b.st.level := by
    rintro p (hp | ⟨-, rfl, -⟩)
    · exact hp
    · exact absurd (by decide) hk
  have hpos := hb.level
  -- with trouble everything stays open, without it the calm has been looked at
  have hmem : ∀ {x : Carry}, AtMembers k s c b x → (0 < c.level → StaysOpen y) →
      StaysOpen y ∨ fixNow k s = true ∨
        fixNow k s = false ∧ c.level = 0 ∧ ∃ t, b.st.calm = some t ∧ settleS ≤ s.now - t := by
    intro x hx htail
    by_cases hl : 0 < c.level
    · exact .inl (htail hl)
    · obtain ⟨p, hp, hs⟩ := hx.settle
      cases hs with
      | own hno => exact absurd hno hk
      | overdue _ hl' => exact absurd hl' hl
      | trouble _ hl' => exact absurd hl' hl
      | settled _ h0 hh =>
        have hcalm := (hh (by rw [hprev hp]; exact hpos)).2 ho
        exact .inr (.inr ⟨hx.fix, h0, hcalm⟩)
  cases h with
  | gates y hg h =>
    left
    cases h with
    | left => exact hb
    | muted hm h0 => exact ⟨h0, hb.recs, hb.fire, hb.rec'⟩
  | fixed hpass p hp y h =>
    right
    left
    cases h <;> assumption
  | settle hpass hfix p hp y h =>
    cases h with
    | again h' hl hp0 =>
      rw [hprev hp] at hp0
      dsimp only at hp0
      omega
    | calms => exact .inl ⟨hb.level, hb.recs, hb.fire, hb.rec'⟩
    | waits => exact .inl ⟨hb.level, hb.recs, hb.fire, hb.rec'⟩
    | hushed _ h0 _ _ hcalm => exact .inr (.inr ⟨hfix, h0, hcalm ho⟩)
  | night x hx hl => exact .inl (hx.open' hl hb)
  | members x hx y h => exact hmem hx fun hl => h.open' hl (hx.open' hl hb)
  | routine x hx y y' hm ht z h =>
    exact hmem hx fun hl => h.open' hl (ht.open' (hm.open' hl (hx.open' hl hb)))
  | same x hx z hz w h => exact hmem hx fun hl => h.open' hl (hz.open' hl (hx.open' hl hb))
  | link x hx z hz hs w h => exact hmem hx fun hl => h.open' hl (hz.open' hl (hx.open' hl hb))
  | report x hx z hz hs w hw v h =>
    exact hmem hx fun hl => h.open' hl (hw.open' hl (hz.open' hl (hx.open' hl hb)))

/-- An open alert is closed only by a tick that is well, after its calm. -/
theorem closes_calm {x : KindSt × CalmLog} {i : KindIn} (hk : k ∉ noSettle) (ho : k ∉ ownSettle)
    (hs : CalmSound nm k x i) (hc : Closes nm k x.1 i) (hd : ¬ Decided k x.1 i) :
    wellSeen i.seen = true ∧ ∃ t, x.1.calm = some t ∧ settleS ≤ i.seen.now - t := by
  have hpos := hc.1
  have hfix : fixNow k i.seen = false := by
    by_contra hf
    exact hd (.inl (by simpa using hf))
  have hret : retires k i.seen (liftFlap k i.seen x.1).1 = false := by
    by_contra hr
    exact hd (.inr (by simpa using hr))
  have hplevel : (prepared k i.seen x.1).level = x.1.level := prepared_level hret
  have hlift : ∀ st' out, liftDiskMute k i.seen st' out = (st', out) := by
    intro st' out
    rcases liftDiskMute_end (k := k) (s := i.seen) st' out with heq | ⟨hkd, hdl, -⟩
    · exact heq
    · have := hs.lift hkd hdl
      omega
  have hend := kindTick_end nm k i.seen x.1
  generalize hgen : kindTick nm k i.seen x.1 = r at hend
  have hopen0 : r = (prepared k i.seen x.1, preparedOut k i.seen x.1) → ¬ Closes nm k x.1 i := by
    intro hr
    refine not_closes_of_open (y := ⟨prepared k i.seen x.1, 0, preparedOut k i.seen x.1⟩)
      (hgen.trans hr) ⟨?_, (liftFlap_keeps k i.seen x.1).2.2, List.not_mem_nil, List.not_mem_nil⟩
    rw [hplevel]
    exact hpos
  cases hend with
  | skip =>
    refine absurd hc (not_closes_of_open (y := ⟨x.1, 0, {}⟩) hgen ?_)
    exact ⟨hpos, rfl, List.not_mem_nil, List.not_mem_nil⟩
  | unseenQuiet => exact absurd hc (hopen0 rfl)
  | unseen => exact absurd hc (hopen0 (hlift _ _))
  | quiet hskip c hcond hq =>
    rw [condNow_eq hfix] at hcond
    have hblevel : (bookkeep k i.seen c (prepared k i.seen x.1)).level = x.1.level :=
      (bookkeep_keeps ..).1.trans hplevel
    have hoff : k ≠ .offline := by
      rintro rfl
      exact hk (by decide)
    -- what closes in the snooze branch is sure, and has been calm
    have hsure : (k = .offline ∨ i.seen.talking = true ∧ i.seen.fresh = true ∧
        i.seen.epoch = false ∧ c.ctx.complete = true) → c.level = 0 →
        wellSeen i.seen = true ∧ ∃ t, x.1.calm = some t ∧ settleS ≤ i.seen.now - t := by
      intro h h0
      obtain ⟨h1, h2, h3, h4⟩ := h.resolve_left hoff
      have hconf : confirmed i.seen = true := by simp [confirmed, h1, h2, h3, hcond, h4]
      refine ⟨wellSeen_of_confirmed hskip hconf fun d hd' => ?_,
        hs.snooze hq hconf hfix c hcond h0 hpos⟩
      rw [hcond] at hd'
      cases hd'
      exact h0
    have hquiet := quietTick_end (k := k) (s := i.seen) (c := c)
      (bookkeep k i.seen c (prepared k i.seen x.1)) (preparedOut k i.seen x.1)
    generalize hq' : quietTick k i.seen c (bookkeep k i.seen c (prepared k i.seen x.1))
      (preparedOut k i.seen x.1) = q at hquiet hgen
    cases hquiet with
    | still =>
      refine absurd hc (not_closes_of_open
        (y := ⟨bookkeep k i.seen c (prepared k i.seen x.1), 0, preparedOut k i.seen x.1⟩) hgen
        ⟨?_, (liftFlap_keeps k i.seen x.1).2.2, List.not_mem_nil, List.not_mem_nil⟩)
      rw [hblevel]
      exact hpos
    | lower hlt h1 h2 =>
      by_cases h0 : c.level = 0
      · exact hsure h1 h0
      · refine absurd hc (not_closes_of_open
          (y := ⟨{ bookkeep k i.seen c (prepared k i.seen x.1) with level := c.level }, 0,
            preparedOut k i.seen x.1⟩) hgen
          ⟨Nat.pos_of_ne_zero h0, (liftFlap_keeps k i.seen x.1).2.2, List.not_mem_nil,
            List.not_mem_nil⟩)
    | back hlt h1 h0 => exact hsure h1 h0
  | body hskip c hcond hq =>
    obtain ⟨-, hb⟩ := bodyStart_open (c := c) hret hs.lift hpos
    have hend := loopBody_end nm k i.seen c (bodyStart k i.seen c x.1)
    rcases hend.closing hk ho hb with h | h | ⟨-, h0, t, ht, hle⟩
    · exact absurd hc (not_closes_of_open hgen h)
    · rw [hfix] at h
      cases h
    · obtain ⟨hold, hconf⟩ := bodyStart_calm ht
      rw [condNow_eq hfix] at hcond
      refine ⟨wellSeen_of_confirmed hskip hconf fun d hd' => ?_, t, hold, hle⟩
      rw [hcond] at hd'
      cases hd'
      exact h0

/-- A recovery needs real calm, over every run. -/
theorem recovery_needs_calm (nm : Norms) (k : Kind) (hk : k ∉ noSettle) (ho : k ∉ ownSettle)
    (is : List KindIn)
    (hall : Along (calmStep nm k) (fun x i => InOrder x i ∧ CalmSound nm k x i) ({}, {}) is) :
    Along (calmStep nm k) (CalmClosing nm k) ({}, {}) is := by
  refine step_of_run calmSane_start (fun x i h hc => calmSane_step hk h hc.1 hc.2)
    (fun x i h hc hclose hd => ?_) hall
  obtain ⟨hwell, t, ht, hle⟩ := closes_calm hk ho hc.2 hclose hd
  obtain ⟨t₀, hw, hle₀⟩ := h.well t ht
  exact ⟨hwell, t₀, hw, by linarith⟩

/-- A tick that finds the memory at `level`. -/
def memTick (n : Int) (level : Nat) : KindIn := ⟨{ now := sec n, cond := some ⟨level, {}⟩ }, true, true⟩

theorem memTick_sound {x : KindSt × CalmLog} {n : Int} {level : Nat}
    (h : x.1.calm = none ∨ level = 0) : CalmSound plainNorms .mem x (memTick n level) where
  skip := by simp [memTick]
  trouble := by
    intro _ hne c hc hl
    cases hc
    rcases h with h | h
    · exact absurd h hne
    · exact absurd hl (by simp [h])
  snooze := by simp [memTick]
  policy := by
    intro c hc _
    cases hc
    exact ⟨rfl, rfl⟩
  lift := by simp

/-- Told, calm for a quarter of an hour, and closed. -/
theorem recovery_needs_calm_mem :
    Along (calmStep plainNorms .mem) (CalmClosing plainNorms .mem) ({}, {})
      [memTick 0 2, memTick 100 0, memTick 1000 0] := by
  refine recovery_needs_calm plainNorms .mem (by decide) (by decide) _
    ⟨⟨?_, memTick_sound (.inl rfl)⟩, ⟨?_, memTick_sound (.inr rfl)⟩,
      ⟨?_, memTick_sound (.inr rfl)⟩, trivial⟩
  · intro t ht
    cases ht
  · intro t ht
    cases ht
    decide
  · intro t ht
    cases ht
    decide

/-- A snooze that begins a minute after the alert: the first good report closes
it at once. -/
theorem a_snooze_closes_at_once :
    ¬ ∀ k, k ∉ noSettle → k ∉ ownSettle → ∀ is : List KindIn,
      Along (calmStep plainNorms k) InOrder ({}, {}) is →
        Along (calmStep plainNorms k) (CalmClosing plainNorms k) ({}, {}) is := by
  intro h
  have hrun := h .mem (by decide) (by decide)
    [memTick 0 2, ⟨{ (memTick 60 0).seen with quietBefore := true, quietSrv := true }, true, true⟩]
    ⟨fun t ht => (by cases ht), fun t ht => (by cases ht; decide), trivial⟩
  obtain ⟨-, t₀, ht, -⟩ := hrun.2.1 ⟨by decide, .inl (by decide)⟩
    (fun hd => hd.elim (by decide) (by decide))
  exact absurd ht (by simp [calmStep, CalmLog.after, memTick, wellSeen])

end Kervax
