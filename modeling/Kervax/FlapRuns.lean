-- Runs of a metric that moves around its threshold: an entry goes unsaid only
-- within a series whose message was delivered. With the link, this is what the
-- two flap guards come to.
import Kervax.LinkRuns
import Kervax.KindEnds

namespace Kervax

open Runs

/-! ## What leaves the guard and the queue of messages alone -/

/-- The body up to the report: what is compared and held back before any
change of the level is told. -/
def beforeReport (nm : Norms) (k : Kind) (s : Seen) (c : Cond) (x : Carry) : BodyFlow Carry :=
  (((((gates k s c x).bind (startPrev k s c)).bind (fixedBlock k s)).bind
    (settleBlock k s c)).bind (nightBlock k s c)).bind fun x =>
      (((membersBlock nm k s c x).bind (thrashBlock k c)).bind (routineBlock k s c)).bind
        (sameBlock k c (toldTop x))

/-- The rest of the body is the report of the change. -/
theorem loopBody_report (nm : Norms) {k : Kind} (hk : k ≠ .offline) (s : Seen) (c : Cond)
    (x : Carry) :
    (∃ y, beforeReport nm k s c x = .done y ∧ (loopBody nm k s c x).out = y) ∨
      ∃ y top, beforeReport nm k s c x = .next y ∧
        (loopBody nm k s c x).out = (reportBlock k s c top y).out := by
  unfold beforeReport loopBody
  cases ((((gates k s c x).bind (startPrev k s c)).bind (fixedBlock k s)).bind
    (settleBlock k s c)).bind (nightBlock k s c) with
  | done y => exact .inl ⟨y, rfl, rfl⟩
  | next x =>
    simp only [BodyFlow.bind_next, loopTail]
    cases (((membersBlock nm k s c x).bind (thrashBlock k c)).bind (routineBlock k s c)).bind
      (sameBlock k c (toldTop x)) with
    | done y => exact .inl ⟨y, rfl, rfl⟩
    | next y => exact .inr ⟨y, toldTop x, rfl, by simp [linkBlock, hk]⟩

/-- The marks of the guard and the messages are those of `x`. -/
structure SameQueue (x y : Carry) : Prop where
  flap : y.st.flap = x.st.flap
  fires : y.out.fires = x.out.fires
  fireApply : y.out.fireApply = x.out.fireApply

theorem SameQueue.refl (x : Carry) : SameQueue x x := ⟨rfl, rfl, rfl⟩

theorem SameQueue.trans {x y z : Carry} (h : SameQueue x y) (h' : SameQueue y z) :
    SameQueue x z :=
  ⟨h'.flap.trans h.flap, h'.fires.trans h.fires, h'.fireApply.trans h.fireApply⟩

/-- The block leaves the guard and the messages alone. -/
def KeepsQueue (f : Carry → BodyFlow Carry) : Prop :=
  ∀ x, (f x).Ends (SameQueue x) (SameQueue x)

theorem KeepsQueue.bind {f g : Carry → BodyFlow Carry} (hf : KeepsQueue f) (hg : KeepsQueue g) :
    KeepsQueue fun x => (f x).bind g := fun x =>
  (hf x).bind fun y hy => (hg y).mono (fun _ h => hy.trans h) fun _ h => hy.trans h

section Blocks

variable (nm : Norms) (k : Kind) (s : Seen) (c : Cond)

theorem applyAll_flap (ws : List KWrite) (st : KindSt) : (applyAll ws st).flap = st.flap := by
  induction ws generalizing st with
  | nil => rfl
  | cons w ws ih => rw [applyAll_cons, ih, KWrite.set_flap]

theorem swallow_flap (w : Was) (st : KindSt) : (swallow s c w st).flap = st.flap := by
  unfold swallow
  dsimp only
  split
  · rfl
  · split <;> rfl

theorem closedSt_flap (st : KindSt) : (closedSt k st).flap = st.flap := by
  unfold closedSt
  dsimp only
  split <;> rfl

theorem gates_queue : KeepsQueue (gates k s c) := by
  refine fun x => BodyFlow.ends_of gates_end fun r hr => ?_
  cases hr <;> exact SameQueue.mk rfl rfl rfl

theorem startPrev_queue : KeepsQueue (startPrev k s c) := by
  intro x
  obtain ⟨p, h, -⟩ := startPrev_end (k := k) (s := s) (c := c) (x := x)
  rw [h]
  exact SameQueue.mk rfl rfl rfl

theorem fixedBlock_queue : KeepsQueue (fixedBlock k s) := by
  refine fun x => BodyFlow.ends_of fixedBlock_end fun r hr => ?_
  cases hr with
  | silent => exact SameQueue.mk (applyAll_flap _ _) rfl rfl
  | _ => exact SameQueue.mk rfl rfl rfl

theorem settleBlock_queue : KeepsQueue (settleBlock k s c) := by
  refine fun x => BodyFlow.ends_of settleBlock_end fun r hr => ?_
  cases hr with
  | again => exact SameQueue.mk (swallow_flap ..) rfl rfl
  | hushed => exact SameQueue.mk (closedSt_flap ..) rfl rfl
  | _ => exact SameQueue.mk rfl rfl rfl

theorem nightBlock_queue : KeepsQueue (nightBlock k s c) := by
  intro x
  rcases nightBlock_end (k := k) (s := s) (c := c) (x := x) with ⟨h, -⟩ | h
  all_goals
    rw [h]
    exact SameQueue.refl x

theorem membersBlock_queue (hk : k ∉ tracksMembers) : KeepsQueue (membersBlock nm k s c) := by
  refine fun x => BodyFlow.ends_of membersBlock_end fun r hr => ?_
  cases hr with
  | untracked => exact SameQueue.refl x
  | _ => contradiction

theorem thrashBlock_queue : KeepsQueue (thrashBlock k c) := by
  intro x
  rcases thrashBlock_end (k := k) (c := c) (x := x) with ⟨h, -⟩ | ⟨h, -⟩
  all_goals
    rw [h]
    exact SameQueue.mk rfl rfl rfl

theorem routineBlock_queue : KeepsQueue (routineBlock k s c) := by
  refine fun x => BodyFlow.ends_of routineBlock_end fun r hr => ?_
  cases hr <;> exact SameQueue.mk rfl rfl rfl

theorem sameBlock_queue (top : Nat) : KeepsQueue (sameBlock k c top) := by
  refine fun x => BodyFlow.ends_of (sameBlock_end top) fun r hr => ?_
  cases hr <;> exact SameQueue.mk rfl rfl rfl

/-- Until the report, a kind without members moves neither the guard nor the
messages. -/
theorem beforeReport_queue (hk : k ∉ tracksMembers) : KeepsQueue (beforeReport nm k s c) := by
  have hfirst := ((((gates_queue k s c).bind (startPrev_queue k s c)).bind
    (fixedBlock_queue k s)).bind (settleBlock_queue k s c)).bind (nightBlock_queue k s c)
  refine hfirst.bind fun x => ?_
  exact (((membersBlock_queue nm k s c hk).bind (thrashBlock_queue k c)).bind
    (routineBlock_queue k s c)).bind (sameBlock_queue k c (toldTop x)) x

end Blocks

/-! ## What comes before the body -/

/-- What waits for a delivery once the tick has begun, and the guard. -/
structure QuietBefore (st : KindSt) (r : KindSt × Out) : Prop where
  muted : r.1.flap.muted = true → st.flap.muted = true
  fires : r.2.fires = []
  fireApply : r.2.fireApply = []

theorem liftFlap_muted {k : Kind} {s : Seen} {st : KindSt}
    (h : (liftFlap k s st).1.flap.muted = true) : st.flap.muted = true := by
  unfold liftFlap at h
  split_ifs at h <;> exact h

theorem retire_flap (k : Kind) (s : Seen) (st : KindSt) : (retire k s st).1.flap = st.flap := by
  unfold retire
  split
  · exact closedSt_flap k st
  · rfl

theorem calmReset_flap (s : Seen) (st : KindSt) : (calmReset s st).flap = st.flap := by
  unfold calmReset
  split <;> rfl

theorem bookkeep_flap (k : Kind) (s : Seen) (c : Cond) (st : KindSt) :
    (bookkeep k s c st).flap = st.flap := by
  unfold bookkeep
  split_ifs
  · rfl
  · rfl
  all_goals
    dsimp only
    split <;> rfl

theorem prepared_quiet (k : Kind) (s : Seen) (st : KindSt) :
    QuietBefore st (prepared k s st, preparedOut k s st) where
  muted := by
    simp only [prepared, calmReset_flap, retire_flap]
    exact liftFlap_muted
  fires := rfl
  fireApply := rfl

theorem bookkept_quiet (k : Kind) (s : Seen) (c : Cond) (st : KindSt) :
    QuietBefore st (bookkeep k s c (prepared k s st), preparedOut k s st) where
  muted := by
    simp only [bookkeep_flap]
    exact (prepared_quiet k s st).muted
  fires := rfl
  fireApply := rfl

theorem QuietBefore.liftDiskMute {st : KindSt} {r : KindSt × Out} (h : QuietBefore st r) (k : Kind)
    (s : Seen) : QuietBefore st (liftDiskMute k s r.1 r.2) := by
  rcases liftDiskMute_end (k := k) (s := s) r.1 r.2 with heq | ⟨-, -, heq⟩
  all_goals
    rw [heq]
    exact ⟨h.muted, h.fires, h.fireApply⟩

theorem QuietBefore.quietTick {st : KindSt} {r : KindSt × Out} (h : QuietBefore st r) (k : Kind)
    (s : Seen) (c : Cond) : QuietBefore st (quietTick k s c r.1 r.2) := by
  have hend := quietTick_end (k := k) (s := s) (c := c) r.1 r.2
  generalize Kervax.quietTick k s c r.1 r.2 = q at hend ⊢
  cases hend <;> exact ⟨h.muted, h.fires, h.fireApply⟩

/-! ## One tick of a metric -/

/-- The tick takes the branch of the guard that fills a series. -/
def fillsMetric (nm : Norms) (k : Kind) (s : Seen) (st : KindSt) : Prop :=
  s.skip = false ∧ s.quietSrv = false ∧ ∃ c y, condNow k s = some c ∧
    beforeReport nm k s c (bodyStart k s c st) = .next y ∧ y.prev < c.level ∧ guarded k c y ∧
      y.st.flap.muted = false ∧ y.st.flap.metricFull k s.now

/-- What a tick can do with the guard of a metric. -/
inductive MetricEnd (nm : Norms) (k : Kind) (s : Seen) (st : KindSt) (r : KindSt × Out) : Prop
  | quiet (h : QuietBefore st r)
  | swallowed (hm : st.flap.muted = true) (hno : offers .flapping r.2.fires = false)
  | alert (hm : r.1.flap.muted = true → st.flap.muted = true) (hf : r.2.fires ≠ [])
      (hno : offers .flapping r.2.fires = false)
  | series (h : fillsMetric nm k s st) (hf : offers .flapping r.2.fires = true)

theorem kindTick_metric (nm : Norms) {k : Kind} (hk : k ∈ flapMetricKinds) (s : Seen)
    (st : KindSt) : MetricEnd nm k s st (kindTick nm k s st) := by
  have hoff : k ≠ .offline := by
    rintro rfl
    exact absurd hk (by decide)
  have htr : k ∉ tracksMembers := fun h => tracks_flapMetric h hk
  have hend := kindTick_end nm k s st
  generalize hr : kindTick nm k s st = r at hend ⊢
  cases hend with
  | skip => exact .quiet ⟨id, rfl, rfl⟩
  | unseenQuiet => exact .quiet (prepared_quiet k s st)
  | unseen => exact .quiet ((prepared_quiet k s st).liftDiskMute k s)
  | quiet _ c => exact .quiet ((bookkept_quiet k s c st).quietTick k s c)
  | body hskip c hc hq =>
    have hstart : QuietBefore st ((bodyStart k s c st).st, (bodyStart k s c st).out) :=
      (bookkept_quiet k s c st).liftDiskMute k s
    have hbefore := beforeReport_queue nm k s c htr (bodyStart k s c st)
    rcases loopBody_report nm hoff s c (bodyStart k s c st) with ⟨y, hb, hy⟩ | ⟨y, top, hb, hy⟩
    · rw [hb] at hbefore
      have hbefore : SameQueue _ y := hbefore
      rw [hy]
      exact .quiet ⟨fun hm => hstart.muted (hbefore.flap ▸ hm), hbefore.fires.trans hstart.fires,
        hbefore.fireApply.trans hstart.fireApply⟩
    · rw [hb] at hbefore
      have hbefore : SameQueue _ y := hbefore
      have hfires : y.out.fires = [] := hbefore.fires.trans hstart.fires
      have hmuted : y.st.flap.muted = true → st.flap.muted = true := fun hm =>
        hstart.muted (hbefore.flap ▸ hm)
      have hquiet : QuietBefore st (y.st, y.out) :=
        ⟨hmuted, hfires, hbefore.fireApply.trans hstart.fireApply⟩
      obtain ⟨z, hz, hrep⟩ := reportBlock_end (k := k) (s := s) (c := c) (x := y) top
      rw [hy, hz]
      simp only [BodyFlow.out_done]
      cases hrep with
      | swallowed hlt hg hm => exact .swallowed (hmuted hm) (by simp [hfires, offers])
      | series hlt hg hm hfull =>
        exact .series ⟨hskip, hq, c, y, hc, hb, hlt, hg, hm, hfull⟩ (by simp [hfires, offers])
      | alert hlt st' hst =>
        refine .alert ?_ (by simp) (by simp [hfires, offers])
        rcases hst with ⟨-, rfl⟩ | ⟨hm, rfl⟩
        · exact hmuted
        · intro h
          exact absurd h (by simp [Flap.metricCounted, hm])
      | backMuted => exact .quiet ⟨hquiet.muted, hquiet.fires, hquiet.fireApply⟩
      | backSilent => exact .quiet ⟨hquiet.muted, hquiet.fires, hquiet.fireApply⟩
      | backWaits => exact .quiet ⟨hquiet.muted, hquiet.fires, hquiet.fireApply⟩
      | back => exact .quiet ⟨hquiet.muted, hquiet.fires, hquiet.fireApply⟩
      | lower => exact .quiet ⟨hquiet.muted, hquiet.fires, hquiet.fireApply⟩
      | keeps => exact .quiet hquiet

/-! ## Runs -/

/-- The state of a metric, and whether the message of its series was
delivered. -/
def metricStep (nm : Norms) (k : Kind) (x : KindSt × Bool) (i : KindIn) : KindSt × Bool :=
  let r := kindTick nm k i.seen x.1
  (afterTick k i r, if offers .flapping r.2.fires then i.fireAck else x.2 && r.1.flap.muted)

/-- The message of a series is delivered at the first attempt. -/
def MetricSound (nm : Norms) (k : Kind) (x : KindSt × Bool) (i : KindIn) : Prop :=
  fillsMetric nm k i.seen x.1 → i.fireAck = true

/-- An entry goes unsaid only in a series that was told. -/
def MetricTold (nm : Norms) (k : Kind) (x : KindSt × Bool) (i : KindIn) : Prop :=
  Swallowed (kindTick nm k i.seen x.1).2 → x.2 = true

theorem metricStep_noticed (nm : Norms) {k : Kind} (hk : k ∈ flapMetricKinds) {x : KindSt × Bool}
    {i : KindIn} (h : x.1.flap.muted = true → x.2 = true) (hs : MetricSound nm k x i) :
    (metricStep nm k x i).1.flap.muted = true → (metricStep nm k x i).2 = true := by
  simp only [metricStep, afterTick, commit_flap]
  intro hm
  cases kindTick_metric nm hk i.seen x.1 with
  | quiet hq =>
    have hno : offers .flapping (kindTick nm k i.seen x.1).2.fires = false := by
      simp [hq.fires, offers]
    simp [hno, hm, h (hq.muted hm)]
  | swallowed hmx hno => simp [hno, hm, h hmx]
  | alert hmx _ hno => simp [hno, hm, h (hmx hm)]
  | series hf ho => simp [ho, hs hf]

theorem metricStep_told (nm : Norms) {k : Kind} (hk : k ∈ flapMetricKinds) {x : KindSt × Bool}
    {i : KindIn} (h : x.1.flap.muted = true → x.2 = true) : MetricTold nm k x i := by
  rintro ⟨hfires, happly⟩
  cases kindTick_metric nm hk i.seen x.1 with
  | quiet hq => exact absurd hq.fireApply happly
  | swallowed hm => exact h hm
  | alert _ hf => exact absurd hfires hf
  | series _ ho => simp [hfires, offers] at ho

/-- The two guards, over every run: what they keep back has been told, the
link is stable when they say so, and a long silence is told. -/
theorem flap_guards_tell (nm : Norms) (thr : Time) :
    (∀ is, Along (linkStep nm) (fun x i => LinkDomain thr x i ∧ LinkSound x i) linkStart is →
      Along (linkStep nm) (LinkTold nm) linkStart is) ∧
    ∀ k ∈ flapMetricKinds, ∀ is, Along (metricStep nm k) (MetricSound nm k) ({}, false) is →
      Along (metricStep nm k) (MetricTold nm k) ({}, false) is := by
  constructor
  · intro is hall
    refine step_of_run (linkSane_start thr) (fun x i h hc => ?_) (fun x i h hc => ?_) hall
    · exact linkSane_step nm h hc.1 hc.2
    · exact ⟨linkTold_swallowed nm h hc.1, linkTold_stable nm h hc.1 hc.2,
        linkTold_long nm h hc.1 hc.2⟩
  · intro k hk is hall
    have h0 : ({} : KindSt).flap.muted = true → false = true := by simp
    exact step_of_run (I := fun x => x.1.flap.muted = true → x.2 = true) h0
      (fun x i h hc => metricStep_noticed nm hk h hc) (fun x i h _ => metricStep_told nm hk h) hall

/-- Names that were never changed. -/
def plainNorms : Norms := ⟨id, id, id⟩

/-- A tick of a server that was last seen at zero and is silent since. -/
def silentTick (n : Int) (ack : Bool) : LinkIn where
  base := { now := sec n }
  lastSeen := some 0
  offlineAfter := sec 120
  extra := sec 180
  fireAck := ack

/-- A tick of a server that was last seen at `seen`; every message arrives. -/
def linkTick (now seen : Int) : LinkIn where
  base := { now := sec now }
  lastSeen := some (sec seen)
  offlineAfter := sec 60
  extra := 0

/-- A tick that finds the disk at `level`. -/
def diskTick (n : Int) (level : Nat) : KindIn := ⟨{ now := sec n, cond := some ⟨level, {}⟩ }, true, true⟩

theorem silentTick_unsilenced (n : Int) (ack : Bool) : Unsilenced (silentTick n ack).base :=
  ⟨rfl, rfl, rfl, rfl, rfl, rfl, rfl, rfl, rfl, rfl⟩

/-- A link that is lost four times within the window: the fourth loss is told
as a series, the return is swallowed, and the end of the series is told. And a
disk whose second entry is a series, which swallows the third. -/
theorem flap_guards_tell_series :
    Along (linkStep plainNorms) (LinkTold plainNorms) linkStart
        [linkTick 70 0, linkTick 80 80, linkTick 150 80, linkTick 160 160, linkTick 230 160,
          linkTick 240 240, linkTick 310 240, linkTick 320 320, linkTick 4000 4000] ∧
      Along (metricStep plainNorms .disk) (MetricTold plainNorms .disk) ({}, false)
        [diskTick 0 1, diskTick 100 0, diskTick 1000 0, diskTick 3000 2, diskTick 3100 0,
          diskTick 4000 0, diskTick 6000 1] := by
  constructor
  · exact (flap_guards_tell plainNorms (sec 60)).1 _ (by decide)
  · have delivered {x : KindSt × Bool} {n : Int} {level : Nat} :
        MetricSound plainNorms .disk x (diskTick n level) := fun _ => rfl
    exact (flap_guards_tell plainNorms (sec 60)).2 .disk (by decide) _
      ⟨delivered, delivered, delivered, delivered, delivered, delivered, delivered, trivial⟩

/-- The channel is down while a server goes silent. Its undelivered alerts fill
the series, the message of the series is lost, and the outage goes unsaid. -/
theorem an_outage_goes_unsaid :
    ¬ ∀ is, Along (linkStep plainNorms) (LinkDomain (sec 300)) linkStart is →
      Along (linkStep plainNorms) (LinkTold plainNorms) linkStart is := by
  intro h
  have hdom : ∀ x n, x.2.seen = none ∨ x.2.seen = some 0 →
      LinkDomain (sec 300) x (silentTick n false) := by
    intro x n hx
    have hext : (0 : Time) ≤ sec 180 := by decide
    refine ⟨silentTick_unsilenced _ _, rfl, hext, fun t ht => ?_⟩
    rcases hx with hx | hx
    · rw [hx] at ht
      cases ht
    · rw [hx] at ht
      cases ht
      exact ⟨0, rfl, le_refl _⟩
  have hrun := h [silentTick 400 false, silentTick 415 false, silentTick 430 false,
    silentTick 445 false, silentTick 460 false]
    ⟨hdom _ _ (.inl rfl), hdom _ _ (.inr rfl), hdom _ _ (.inr rfl), hdom _ _ (.inr rfl),
      hdom _ _ (.inr rfl), trivial⟩
  exact absurd (hrun.2.2.2.2.1.swallowed ⟨by decide, by decide⟩) (by decide)

end Kervax
