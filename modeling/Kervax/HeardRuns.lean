-- Recoveries and the alerts that they belong to, over runs: a recovery goes out
-- only for an episode that somebody heard of, and an episode that was told is
-- closed with a message. The states are written as if each message had arrived,
-- so the rules are first read of what is written; on a server of development
-- that is more than what is sent.
import Kervax.Moves
import Kervax.CalmRuns

namespace Kervax

open Runs

/-! ## What a run has told -/

/-- What is known of the open episode, by those who are told or by the states. -/
structure HeardLog where
  /-- An alert of the kind. -/
  heard : Bool := false
  /-- Any message, also the notice of a series. -/
  fired : Bool := false
  /-- The notice of the series that is muted. -/
  noticed : Bool := false
deriving DecidableEq

/-- A kind that retires is closed before anything else. -/
def HeardLog.retired (g : HeardLog) (r : Bool) : HeardLog :=
  if r then { g with heard := false, fired := false } else g

/-- The log behind a tick that ends at this level and has offered `fires`. -/
def HeardLog.after (g : HeardLog) (level : Nat) (muted : Bool) (fires : List Notice) (ack : Bool) :
    HeardLog where
  heard := level ≠ 0 && (g.heard || (ack && (offers .alert fires || offers .news fires)))
  fired := level ≠ 0 && (g.fired || (ack && fires ≠ []))
  noticed := if offers .flapping fires then ack else g.noticed && muted

/-- The tick retires the kind. -/
def retiresNow (k : Kind) (s : Seen) (st : KindSt) : Bool :=
  !s.skip && retires k s (liftFlap k s st).1

/-- A step of the states, with what they have on record as delivered. -/
def writtenStep (nm : Norms) (k : Kind) (x : KindSt × HeardLog) (i : KindIn) : KindSt × HeardLog :=
  let r := kindTick nm k i.seen x.1
  let st := afterTick k i r
  (st, (x.2.retired (retiresNow k i.seen x.1)).after st.level st.flap.muted r.2.fires i.fireAck)

/-! ## What is asked of a tick -/

/-- The messages of this tick that close the kind. -/
def Recovers (r : KindSt × Out) : Prop :=
  offers .recovery r.2.recs = true ∨ offers .fixed r.2.recs = true

/-- What is right for the record: a recovery is offered for what was heard of,
the end of a series for what was noticed, and what was told is closed by a
delivered recovery, by `quiet_closed`, or within a series whose end is told. -/
structure WrittenRight (nm : Norms) (k : Kind) (x : KindSt × HeardLog) (i : KindIn) : Prop where
  recovery : Recovers (kindTick nm k i.seen x.1) → x.2.heard = true
  series : offers .seriesEnd (kindTick nm k i.seen x.1).2.recs = true → x.2.noticed = true
  closing : x.2.heard = true ∨ x.2.fired = true → (kindStep nm k x.1 i).level = 0 →
    Recovers (kindTick nm k i.seen x.1) ∧ i.recAck = true ∨
      (kindTick nm k i.seen x.1).2.closed = true ∨ (kindStep nm k x.1 i).flap.muted = true

/-- What the body is asked for, from the state that it begins with. -/
structure BodySound (nm : Norms) (k : Kind) (s : Seen) (c : Cond) (st : KindSt) (heard ack : Bool) :
    Prop where
  /-- A silence that is over is over with a message. -/
  overrun : ∀ t, st.quiet = some t → 0 < c.level →
    isThrash k c = true ∨ t ≤ s.now ∧ heldOnly c.ctx = false → ack = true
  /-- A lack of memory has a level. -/
  thrash : st.quiet ≠ none → isThrash k c = true → 0 < c.level
  /-- Nobody new is named within a silence. -/
  news : st.quiet ≠ none → k ∈ tracksMembers → 0 < c.level → c.level = st.level →
    (membersOf nm k c ⟨st, st.level, {}⟩).news = ∅
  /-- And nobody is muted within it. -/
  policy : st.quiet ≠ none → k ∈ tracksMembers → c.level = 0 →
    s.sigQuiet (membersOf nm k c ⟨st, st.level, {}⟩).old = false
  /-- A silent repeat that lasts is not taken over by the routine. -/
  overdue : ∀ t, st.hush = some t → againTell ≤ s.now - t → heldOnly c.ctx = false →
    k ∈ routineKinds → routineOf (routineStart st.hist s.now).dropLast s.now = none
  /-- The return from an outage that went unsaid is one change more of a series. -/
  unsaid : k = .offline → 0 < st.level → c.level = 0 → st.offSaid = false → st.flap.full s.now
  /-- The notice of a series is delivered at the first attempt. -/
  fills : FillsSeries k s c st → ack = true
  /-- The mark "fixed" is not put on what went unsaid. -/
  fixed : fixNow k s = true → 0 < st.level → (k = .offline → st.offSaid = true) ∧
    (k ∈ flapMetricKinds → st.flap.muted = true → heard = true)

/-- A silence is not lost without a message. -/
theorem BodySound.lost {nm : Norms} {k : Kind} {s : Seen} {c : Cond} {st : KindSt}
    {heard ack : Bool} (h : BodySound nm k s c st heard ack) (hl : 0 < c.level)
    (hlost : isThrash k c = true ∧ st.marks.quiet ≠ none ∨ k ∈ routineKinds ∧ 0 < c.level ∧
      ∃ t, st.marks.quiet = some t ∧ t ≤ s.now ∧ heldOnly c.ctx = false) : ack = true := by
  rcases hlost with ⟨hi, hq⟩ | ⟨-, -, t, hq, ht⟩
  · obtain ⟨t, ht⟩ := Option.ne_none_iff_exists'.1 hq
    exact h.overrun t ht hl (.inl hi)
  · exact h.overrun t hq hl (.inr ht)

/-- What keeps recoveries and alerts together. -/
structure WrittenSound (nm : Norms) (k : Kind) (x : KindSt × HeardLog) (i : KindIn) : Prop where
  /-- What an onboarding withholds is not lost. -/
  onboarding : i.seen.onb = true → i.fireAck = true ∧ i.recAck = true
  /-- A snooze closes only what was told. -/
  snooze : i.seen.quietSrv = true → ∀ c, condNow k i.seen = some c → c.level = 0 →
    confirmed i.seen = true ∨ k = .offline → 0 < x.1.level →
      x.1.hush = none ∧ x.1.quiet = none ∧ (k = .offline → x.1.offSaid = true)
  /-- A series of a metric ends once the metric is well, or its alert was told. -/
  lift : k ∈ flapMetricKinds → i.seen.quietBefore = false → metricCalm x.1.flap i.seen.now = true →
    0 < x.1.level → x.2.heard = true
  /-- The mute of a disk is not lifted from an open alert. -/
  disk : k = .diskHealth → i.seen.diskLift = true → x.1.level = 0
  body : i.seen.skip = false → i.seen.quietSrv = false → ∀ c, condNow k i.seen = some c →
    Passes k i.seen c x.1 →
      BodySound nm k i.seen c (bodyStart k i.seen c x.1).st
        (x.2.retired (retiresNow k i.seen x.1)).heard i.fireAck

/-- The marks of an episode say whether it was told. -/
structure HeardSane (k : Kind) (m : Marks) (muted : Bool) (g : HeardLog) : Prop where
  told : 0 < m.level → g.heard = true ∨ m.hush ≠ none ∨ m.quiet ≠ none ∨
    k ∈ flapMetricKinds ∧ muted = true ∨ k = .offline ∧ m.offSaid = false
  heard : g.heard = true → 0 < m.level
  fired : g.fired = true → 0 < m.level ∧
    (g.heard = true ∨ k = .offline ∨ k ∈ flapMetricKinds ∧ muted = true)
  hush : m.hush ≠ none → g.heard = false ∧ 0 < m.level ∧ m.quiet = none ∧ k ∉ noSettle
  quiet : m.quiet ≠ none → g.heard = false ∧ 0 < m.level ∧ k ∈ routineKinds
  said : k = .offline → m.offSaid = true → g.heard = true

variable {nm : Norms} {k : Kind} {s : Seen} {c : Cond} {b y : Carry} {g : HeardLog}

theorem heardSane_nothing (k : Kind) : HeardSane k (KindSt.marks {}) false {} := by
  constructor <;> simp [KindSt.marks]

theorem not_offline_of_routine {k : Kind} (h : k ∈ routineKinds) : k ≠ .offline := by
  rintro rfl
  exact absurd h (by decide)

theorem not_offline_of_flapMetric {k : Kind} (h : k ∈ flapMetricKinds) : k ≠ .offline := by
  rintro rfl
  exact absurd h (by decide)

/-! ## What the marks say after a tick -/

variable {m m' : Marks} {g' : HeardLog} {muted muted' : Bool}

theorem after_zero (g : HeardLog) (muted : Bool) (fires : List Notice) (ack : Bool) :
    (g.after 0 muted fires ack).heard = false ∧ (g.after 0 muted fires ack).fired = false :=
  ⟨rfl, rfl⟩

/-- Nothing was delivered, and the episode is open as before. -/
theorem HeardSane.after_silent (h : HeardSane k m muted g) {n : Nat} (hl : 0 < n ↔ 0 < m.level)
    {fires : List Notice} {ack : Bool} (hf : fires = [] ∨ ack = false) (muted' : Bool) :
    (g.after n muted' fires ack).heard = g.heard ∧ (g.after n muted' fires ack).fired = g.fired := by
  have hheard : g.heard = true → n ≠ 0 := fun hg => Nat.ne_of_gt (hl.2 (h.heard hg))
  have hfired : g.fired = true → n ≠ 0 := fun hg => Nat.ne_of_gt (hl.2 (h.fired hg).1)
  constructor
  · have hno : (ack && (offers .alert fires || offers .news fires)) = false := by
      rcases hf with rfl | rfl
      · simp [offers]
      · rfl
    simp only [HeardLog.after, hno, Bool.or_false]
    cases hg : g.heard with
    | true => simp [hheard hg]
    | false => exact Bool.and_false _
  · have hno : (ack && decide (fires ≠ [])) = false := by
      rcases hf with rfl | rfl
      · simp
      · rfl
    simp only [HeardLog.after, hno, Bool.or_false]
    cases hg : g.fired with
    | true => simp [hfired hg]
    | false => exact Bool.and_false _

/-- The episode is open as before, or there is none as before. -/
theorem HeardSane.same (h : HeardSane k m muted g) (hl : 0 < m'.level ↔ 0 < m.level)
    (hh : m'.hush = m.hush) (hq : m'.quiet = m.quiet) (ho : m'.offSaid = m.offSaid)
    (hmuted : muted = true → muted' = true) (hg : g'.heard = g.heard ∧ g'.fired = g.fired) :
    HeardSane k m' muted' g' := by
  obtain ⟨hheard, hfired⟩ := hg
  constructor
  · rw [hl, hheard, hh, hq, ho]
    intro hpos
    rcases h.told hpos with h1 | h1 | h1 | ⟨h1, h2⟩ | h1
    · exact .inl h1
    · exact .inr (.inl h1)
    · exact .inr (.inr (.inl h1))
    · exact .inr (.inr (.inr (.inl ⟨h1, hmuted h2⟩)))
    · exact .inr (.inr (.inr (.inr h1)))
  · rw [hheard, hl]
    exact h.heard
  · rw [hfired, hl, hheard]
    intro hf
    obtain ⟨hpos, h1 | h1 | ⟨h1, h2⟩⟩ := h.fired hf
    · exact ⟨hpos, .inl h1⟩
    · exact ⟨hpos, .inr (.inl h1)⟩
    · exact ⟨hpos, .inr (.inr ⟨h1, hmuted h2⟩)⟩
  · rw [hh, hheard, hl, hq]
    exact h.hush
  · rw [hq, hheard, hl]
    exact h.quiet
  · rw [ho, hheard]
    exact h.said

/-- The kind is closed, and no mark is left of the episode. -/
theorem HeardSane.of_closed (hl : m.level = 0) (hh : m.hush = none) (hq : m.quiet = none)
    (ho : k = .offline → m.offSaid = false) (hg : g.heard = false ∧ g.fired = false) :
    HeardSane k m muted g := by
  obtain ⟨hheard, hfired⟩ := hg
  constructor
  · intro hpos
    omega
  · simp [hheard]
  · simp [hfired]
  · simp [hh]
  · simp [hq]
  · intro hk hsaid
    rw [ho hk] at hsaid
    cases hsaid

/-- The alert was delivered. -/
theorem HeardSane.of_told (hl : 0 < m.level) (hh : m.hush = none) (hq : m.quiet = none)
    (hg : g.heard = true) : HeardSane k m muted g where
  told _ := .inl hg
  heard _ := hl
  fired _ := ⟨hl, .inl hg⟩
  hush hne := absurd hh hne
  quiet hne := absurd hq hne
  said _ _ := hg

/-- An episode that nobody heard of is silent from now on. -/
theorem HeardSane.silenced (h : HeardSane k m muted g) (hno : g.heard = false)
    (hoff : k ≠ .offline) (hl : 0 < m'.level)
    (hsilent : m'.hush ≠ none ∧ m'.quiet = none ∧ k ∉ noSettle ∨
      m'.hush = none ∧ m'.quiet ≠ none ∧ k ∈ routineKinds)
    (hmuted : muted = true → muted' = true) (n : Nat) (ack : Bool) :
    HeardSane k m' muted' (g.after n muted' [] ack) := by
  have hheard : (g.after n muted' [] ack).heard = false := by
    simp [HeardLog.after, offers, hno]
  constructor
  · rcases hsilent with ⟨hh, -⟩ | ⟨-, hq, -⟩
    · exact fun _ => .inr (.inl hh)
    · exact fun _ => .inr (.inr (.inl hq))
  · exact fun _ => hl
  · intro hf
    have hfired : g.fired = true := by
      simp only [HeardLog.after, ne_eq, not_true_eq_false, decide_false, Bool.and_false,
        Bool.or_false, Bool.and_eq_true] at hf
      exact hf.2
    obtain ⟨-, h1 | h1 | ⟨h1, h2⟩⟩ := h.fired hfired
    · rw [hno] at h1
      cases h1
    · exact absurd h1 hoff
    · exact ⟨hl, .inr (.inr ⟨h1, hmuted h2⟩)⟩
  · rcases hsilent with ⟨-, hq, hk⟩ | ⟨hh, -⟩
    · exact fun _ => ⟨hheard, hl, hq, hk⟩
    · exact fun hne => absurd hh hne
  · rcases hsilent with ⟨-, hq, -⟩ | ⟨-, -, hk⟩
    · exact fun hne => absurd hq hne
    · exact fun _ => ⟨hheard, hl, hk⟩
  · exact fun hk => absurd hk hoff

/-- A guard has kept the change back, and the episode is open. -/
theorem HeardSane.kept (h : HeardSane k m muted g)
    (hk : k = .offline ∨ k ∈ flapMetricKinds ∧ muted' = true) (hl : 0 < m'.level)
    (hh : m'.hush = m.hush) (hq : m'.quiet = m.quiet ∨ m'.quiet = none) (ho : m'.offSaid = m.offSaid)
    (hg : g'.heard = g.heard) : HeardSane k m' muted' g' where
  told _ := by
    rcases hk with hk | hk
    · cases hsaid : m'.offSaid with
      | true => exact .inl (hg ▸ h.said hk (ho ▸ hsaid))
      | false => exact .inr (.inr (.inr (.inr ⟨hk, rfl⟩)))
    · exact .inr (.inr (.inr (.inl hk)))
  heard _ := hl
  fired _ := ⟨hl, .inr hk⟩
  hush hne := by
    rw [hh] at hne
    obtain ⟨h1, -, h2, h3⟩ := h.hush hne
    refine ⟨hg.trans h1, hl, ?_, h3⟩
    rcases hq with hq | hq
    · exact hq.trans h2
    · exact hq
  quiet hne := by
    rcases hq with hq | hq
    · rw [hq] at hne
      obtain ⟨h1, -, h2⟩ := h.quiet hne
      exact ⟨hg.trans h1, hl, h2⟩
    · exact absurd hq hne
  said hk' hsaid := hg.trans (h.said hk' (ho ▸ hsaid))

/-- A guard keeps the change back, whether a notice goes out or not. -/
theorem heardSane_guarded {st : KindSt} {heard fa : Bool} {q : Option Time} {fires : List Notice}
    (h : HeardSane k st.marks muted g) (hs : BodySound nm k s c st heard fa)
    (hk : k = .offline ∧ (c.level = 0 → st.offSaid = false) ∨ k ∈ flapMetricKinds ∧ 0 < c.level)
    (hq : QuietLeft k s c st.marks q) (hmuted : muted' = true)
    (hno : offers .alert fires = false ∧ offers .news fires = false)
    (hm : m = if fa then { st.marks with level := c.level, quiet := q }
      else { st.marks with quiet := q }) :
    HeardSane k m muted' (g.after m.level muted' fires fa) := by
  have hlink : k = .offline → st.hush = none ∧ st.quiet = none := by
    rintro rfl
    constructor
    · by_contra hne
      exact absurd (h.hush hne).2.2.2 (by decide)
    · by_contra hne
      exact absurd (h.quiet hne).2.2 (by decide)
  have hkept : q = st.quiet ∨ q = none := by
    rcases hq with hq | ⟨hq, -⟩
    · exact .inl hq
    · exact .inr hq
  rw [hm]
  cases fa with
  | false =>
    have hsame : q = st.quiet := by
      rcases hk with ⟨hk, -⟩ | ⟨-, hl⟩
      · rcases hkept with hq | hq
        · exact hq
        · exact hq.trans (hlink hk).2.symm
      · rcases hq with hq | ⟨-, hlost⟩
        · exact hq
        · exact absurd (hs.lost hl hlost) (by simp)
    exact h.same Iff.rfl rfl hsame rfl (fun _ => hmuted) (h.after_silent Iff.rfl (.inr rfl) _)
  | true =>
    by_cases hl : 0 < c.level
    · have hheard : (g.after c.level muted' fires true).heard = g.heard := by
        simp [HeardLog.after, hno, Nat.ne_of_gt hl]
      refine h.kept ?_ hl rfl hkept rfl hheard
      rcases hk with ⟨hk, -⟩ | ⟨hk, -⟩
      · exact .inl hk
      · exact .inr ⟨hk, hmuted⟩
    · have h0 : c.level = 0 := by omega
      rcases hk with ⟨hk, hsaid⟩ | ⟨-, hl'⟩
      · rw [h0]
        refine .of_closed rfl (hlink hk).1 ?_ (fun _ => hsaid h0) (after_zero ..)
        rcases hkept with hq | hq
        · exact hq.trans (hlink hk).2
        · exact hq
      · omega

/-- Where nothing is open, nobody has heard of anything, and no mark is left. -/
theorem HeardSane.closed (h : HeardSane k m muted g) (h0 : m.level = 0) :
    g.heard = false ∧ m.hush = none ∧ m.quiet = none := by
  have hpos : ¬ 0 < m.level := by omega
  refine ⟨Bool.eq_false_iff.2 fun hg => hpos (h.heard hg), ?_, ?_⟩
  · by_contra hne
    exact hpos (h.hush hne).2.1
  · by_contra hne
    exact hpos (h.quiet hne).2.1

/-- A kind without settling has no silent repeats. -/
theorem HeardSane.settled (h : HeardSane k m muted g) (hset : k ∈ noSettle ∨ m.hush = none) :
    m.hush = none := by
  rcases hset with hno | hh
  · by_contra hne
    exact (h.hush hne).2.2.2 hno
  · exact hh

/-- A return leaves no held episode behind. -/
theorem HeardSane.unheld {st : KindSt} {heard fa : Bool} (h : HeardSane k st.marks muted g)
    (hs : BodySound nm k s c st heard fa)
    (hq : st.quiet = none ∨ k ∉ routineKinds ∨ isThrash k c = true) (h0 : c.level = 0) :
    st.quiet = none := by
  by_contra hne
  rcases hq with hq | hq | hi
  · exact hne hq
  · exact hq (h.quiet hne).2.2
  · have := hs.thrash hne hi
    omega

/-- Nobody has heard of an episode that the routine holds, and it is no silent repeat. -/
theorem HeardSane.of_anew {st : KindSt} {heard fa : Bool} (h : HeardSane k st.marks muted g)
    (hs : BodySound nm k s c st heard fa) (hgrowth : k ≠ .backupGrowth) (hk : k ∈ routineKinds)
    (ha : Anew k s c st.marks)
    (hr : routineOf (routineStart st.hist s.now).dropLast s.now ≠ none) :
    g.heard = false ∧ st.hush = none := by
  cases ha with
  | zero hz => exact ⟨(h.closed hz).1, (h.closed hz).2.1⟩
  | growth hg => exact absurd hg hgrowth
  | overdue _ t' ht' hlong hheld => exact absurd (hs.overdue t' ht' hlong hheld hk) hr
  | thrash _ hq => exact ⟨(h.quiet hq).1, by_contra fun hne => hq (h.hush hne).2.2.1⟩
  | overrun _ t' hq =>
    have hq : st.quiet ≠ none := fun hno => nomatch hq.symm.trans hno
    exact ⟨(h.quiet hq).1, by_contra fun hne => hq (h.hush hne).2.2.1⟩

/-- An alert that is delivered leaves no held episode. -/
theorem HeardSane.alerted_quiet (h : HeardSane k m muted g) (hgrowth : k ≠ .backupGrowth)
    {q : Option Time} (hq : QuietLeft k s c m q)
    (hkeep : q = none ∨ k ∉ routineKinds ∨ Reopened k m) : q = none := by
  by_contra hne
  have hheld : m.quiet ≠ none := by
    rcases hq with hq | ⟨hq, -⟩
    · exact fun hno => hne (hq.trans hno)
    · exact absurd hq hne
  obtain ⟨-, hpos, hroutine⟩ := h.quiet hheld
  rcases hkeep with hq | hq | h0 | hg | ⟨-, hh⟩
  · exact hne hq
  · exact hq hroutine
  · omega
  · exact hgrowth hg
  · exact hheld (h.hush hh).2.2.1

/-- One pass through the body keeps the marks true. -/
theorem heardSane_body (hk : k ∉ silentRecovery) (h : HeardSane k b.st.marks b.st.flap.muted g)
    {fa ra : Bool} (hs : BodySound nm k s c b.st g.heard fa) (hb : b.out.fires = [])
    (hm : BodyMove nm k s c b y)
    (hmuted : b.st.flap.muted = true → y.st.flap.muted = true) :
    HeardSane k (y.after fa ra).marks y.st.flap.muted
      (g.after (y.after fa ra).level y.st.flap.muted y.out.fires fa) := by
  have hlevel : (y.after fa ra).level = (y.after fa ra).marks.level := rfl
  have hgrowth : k ≠ .backupGrowth := by
    rintro rfl
    exact hk (by decide)
  rw [hlevel]
  cases hm with
  | still hm hf hr =>
    rw [hm, hf, hb]
    exact h.same Iff.rfl rfl rfl rfl hmuted (h.after_silent Iff.rfl (.inl rfl) _)
  | shift hl hp hm hf hr =>
    rw [hm, hf, hb]
    have hopen : 0 < c.level ↔ 0 < b.st.marks.level := by
      have hp : 0 < b.st.marks.level := hp
      omega
    exact h.same hopen rfl rfl rfl hmuted (h.after_silent hopen (.inl rfl) _)
  | again hk' hl hp hm hf hr =>
    rw [hm, hf, hb]
    have hoff : k ≠ .offline := fun h => hk' (by rw [h]; decide)
    have hno : g.heard = false := (h.closed hp).1
    have hquiet : b.st.quiet = none := (h.closed hp).2.2
    exact h.silenced hno hoff hl (.inl ⟨Option.some_ne_none _, hquiet, hk'⟩) hmuted _ _
  | hushed hk' hl hh hm hf hr =>
    rw [hm, hf, hb]
    have hoff : k ≠ .offline := fun h => hk' (by rw [h]; decide)
    exact .of_closed rfl rfl (h.hush hh).2.2.1 (absurd · hoff) (after_zero ..)
  | held hk' hl ha t hr hm hf hrec =>
    rw [hm, hf, hb]
    have hno := h.of_anew hs hgrowth hk' ha hr
    exact h.silenced hno.1 (not_offline_of_routine hk') hl
      (.inr ⟨hno.2, Option.some_ne_none _, hk'⟩) hmuted _ _
  | quietEnd hk' hl hq hh hm hf hr =>
    rw [hm, hf, hb]
    exact .of_closed rfl hh rfl (absurd · (not_offline_of_routine hk')) (after_zero ..)
  | oddThrash hi hl hq => 
    have := hs.thrash hq hi
    omega
  | alert hl ha q hq hkeep hm hf hr =>
    rw [hm, hf, hb]
    cases fa with
    | true =>
      have hqnone := h.alerted_quiet hgrowth hq hkeep
      exact .of_told hl rfl hqnone (by simp [HeardLog.after, offers, Nat.ne_of_gt hl])
    | false =>
      have hkept : q = b.st.quiet := by
        rcases hq with hq | ⟨-, hlost⟩
        · exact hq
        · exact absurd (hs.lost hl hlost) (by simp)
      exact h.same Iff.rfl rfl hkept rfl hmuted (h.after_silent Iff.rfl (.inr rfl) _)
  | news hk' hl hp hnews objs hm hf hr =>
    rw [hm, hf, hb]
    cases fa with
    | true =>
      have hlb : 0 < b.st.level := hp ▸ hl
      refine .of_told hlb rfl ?_ (by simp [HeardLog.after, offers, Nat.ne_of_gt hlb, KindSt.marks])
      by_contra hne
      exact hnews (hs.news hne hk' hl hp)
    | false => exact h.same Iff.rfl rfl rfl rfl hmuted (h.after_silent Iff.rfl (.inr rfl) _)
  | swallowed hk' hmu q hq hm hf hr =>
    rw [hf, hb]
    exact heardSane_guarded h hs hk' hq (hmuted hmu) (by simp [offers]) (hm fa ra)
  | series hk' hmu n q hq hm hf hr =>
    rw [hf, hb]
    refine heardSane_guarded h hs ?_ hq hmu (by simp [offers]) (hm fa ra)
    obtain ⟨-, ⟨ho, -, hsaid, -⟩ | ⟨hmetric, hl, -⟩⟩ := hk'
    · exact .inl ⟨ho, hsaid⟩
    · exact .inr ⟨hmetric, hl⟩
  | backSilent hl hk' hset' hq hm hf hr =>
    rw [hm, hf, hb]
    refine .of_closed rfl (h.settled hset') (h.unheld hs hq hl) (fun ho => ?_) (after_zero ..)
    rcases hk' with hk' | hk'
    · exact absurd ho (not_offline_of_flapMetric hk'.1)
    · exact absurd hk' hk
  | recovery hl hp hmu hk' hset' hq hoff hm hf hr =>
    rw [hm, hf, hb]
    cases ra with
    | true =>
      exact .of_closed rfl (h.settled hset') (h.unheld hs hq hl) (fun ho => by simp [ho]) (after_zero ..)
    | false => exact h.same Iff.rfl rfl rfl rfl hmuted (h.after_silent Iff.rfl (.inl rfl) _)
  | fixedTold hfix hp hq hh hm hf hr =>
    rw [hm, hf, hb]
    cases ra with
    | true => exact .of_closed rfl rfl rfl (fun ho => by simp [ho]) (after_zero ..)
    | false => exact h.same Iff.rfl rfl rfl rfl hmuted (h.after_silent Iff.rfl (.inl rfl) _)
  | fixedSilent hfix hq hm hf hr =>
    rw [hm, hf, hb]
    exact .of_closed rfl rfl rfl (fun ho => by simp [ho]) (after_zero ..)
  | policy hk' hl hp hold hh hc hm hf hr =>
    rw [hm, hf, hb]
    cases ra with
    | true =>
      refine .of_closed rfl rfl ?_ (absurd · (tracks_ne_offline hk')) (after_zero ..)
      by_contra hne
      rw [hs.policy hne hk' hl] at hold
      cases hold
    | false => exact h.same Iff.rfl rfl rfl rfl hmuted (h.after_silent Iff.rfl (.inl rfl) _)

/-! ## What goes out of the body -/

theorem HeardSane.open' (h : HeardSane k m muted g) (hg : g.heard = true ∨ g.fired = true) :
    0 < m.level := by
  rcases hg with hg | hg
  · exact h.heard hg
  · exact (h.fired hg).1

/-- Of a silent episode no more than the notice of a series was delivered. -/
theorem HeardSane.muted_of_silent (h : HeardSane k m muted g)
    (hg : g.heard = true ∨ g.fired = true) (hs : m.hush ≠ none ∨ m.quiet ≠ none) :
    muted = true := by
  have hno : g.heard = false ∧ k ≠ .offline := by
    rcases hs with hs | hs
    · obtain ⟨h1, -, -, h2⟩ := h.hush hs
      exact ⟨h1, fun hk => h2 (by rw [hk]; decide)⟩
    · obtain ⟨h1, -, h2⟩ := h.quiet hs
      exact ⟨h1, not_offline_of_routine h2⟩
  rcases hg with hg | hg
  · rw [hno.1] at hg
    cases hg
  · obtain ⟨-, h1 | h1 | ⟨-, h1⟩⟩ := h.fired hg
    · rw [hno.1] at h1
      cases h1
    · exact absurd h1 hno.2
    · exact h1

/-- A recovery is for what was heard of. -/
theorem body_recovers (h : HeardSane k b.st.marks b.st.flap.muted g) {fa : Bool}
    (hs : BodySound nm k s c b.st g.heard fa)
    (hb : offers .recovery b.out.recs = false ∧ offers .fixed b.out.recs = false)
    (hm : BodyMove nm k s c b y)
    (hr : offers .recovery y.out.recs = true ∨ offers .fixed y.out.recs = true) :
    g.heard = true := by
  -- a message that is new on this tick
  have hnew : y.out.recs = b.out.recs → g.heard = true := by
    intro heq
    rw [heq] at hr
    rcases hr with hr | hr
    · rw [hb.1] at hr
      cases hr
    · rw [hb.2] at hr
      cases hr
  cases hm with
  | recovery hl hp hmuted _ hset hq hoff =>
    rcases h.told hp with ho | ho | ho | ho | ⟨ho, hsaid⟩
    · exact ho
    · rcases hset with hset | hset
      · exact absurd hset (h.hush ho).2.2.2
      · exact absurd hset ho
    · rcases hq with hq | hq | hi
      · exact absurd hq ho
      · exact absurd (h.quiet ho).2.2 hq
      · have := hs.thrash ho hi
        omega
    · exact absurd ho hmuted
    · rcases hoff ho with hoff | hoff
      · exact absurd (hsaid.symm.trans hoff) (by simp)
      · exact absurd (hs.unsaid ho hp hl hsaid) hoff
  | fixedTold hfix hp hq hh =>
    obtain ⟨hlink, hmetric⟩ := hs.fixed hfix hp
    rcases h.told hp with ho | ho | ho | ⟨ho, hmuted⟩ | ⟨ho, hsaid⟩
    · exact ho
    · exact absurd hh ho
    · exact absurd hq ho
    · exact hmetric ho hmuted
    · exact absurd (hsaid.symm.trans (hlink ho)) (by simp)
  | still _ _ heq => exact hnew heq
  | shift _ _ _ _ heq => exact hnew heq
  | again _ _ _ _ _ heq => exact hnew heq
  | hushed _ _ _ _ _ heq => exact hnew heq
  | held _ _ _ _ _ _ _ heq => exact hnew heq
  | quietEnd _ _ _ _ _ _ heq => exact hnew heq
  | oddThrash _ _ _ _ _ heq => exact hnew heq
  | alert _ _ _ _ _ _ _ heq => exact hnew heq
  | news _ _ _ _ _ _ _ heq => exact hnew heq
  | swallowed _ _ _ _ _ _ heq => exact hnew heq
  | series _ _ _ _ _ _ _ heq => exact hnew heq
  | backSilent _ _ _ _ _ _ heq => exact hnew heq
  | fixedSilent _ _ _ _ heq => exact hnew heq
  | policy _ _ _ _ _ _ _ _ heq => exact hnew heq

/-- A notice goes out only with the change that fills a series. -/
theorem BodyMove.fills (hm : BodyMove nm k s c b y) (hb : b.out.fires = [])
    (ho : offers .flapping y.out.fires = true) : FillsSeries k s c b.st := by
  have hno : y.out.fires = b.out.fires → FillsSeries k s c b.st := by
    intro heq
    rw [heq, hb] at ho
    cases ho
  cases hm with
  | series h => exact h
  | alert _ _ _ _ _ _ heq => simp [heq, hb, offers] at ho
  | news _ _ _ _ _ _ heq => simp [heq, hb, offers] at ho
  | still _ heq => exact hno heq
  | shift _ _ _ heq => exact hno heq
  | again _ _ _ _ heq => exact hno heq
  | hushed _ _ _ _ heq => exact hno heq
  | held _ _ _ _ _ _ heq => exact hno heq
  | quietEnd _ _ _ _ _ heq => exact hno heq
  | oddThrash _ _ _ _ heq => exact hno heq
  | swallowed _ _ _ _ _ heq => exact hno heq
  | backSilent _ _ _ _ _ heq => exact hno heq
  | recovery _ _ _ _ _ _ _ _ heq => exact hno heq
  | fixedTold _ _ _ _ _ heq => exact hno heq
  | fixedSilent _ _ _ heq => exact hno heq
  | policy _ _ _ _ _ _ _ heq => exact hno heq

/-- The body adds a recovery or a "fixed", or leaves the closing messages. -/
theorem BodyMove.recs (hm : BodyMove nm k s c b y) : y.out.recs = b.out.recs ∨
    ∃ w, (w = What.recovery ∨ w = .fixed) ∧ y.out.recs = b.out.recs ++ [⟨w, 0, ∅⟩] := by
  cases hm with
  | recovery _ _ _ _ _ _ _ _ _ heq => exact .inr ⟨_, .inl rfl, heq⟩
  | fixedTold _ _ _ _ _ _ heq => exact .inr ⟨_, .inr rfl, heq⟩
  | still _ _ heq => exact .inl heq
  | shift _ _ _ _ heq => exact .inl heq
  | again _ _ _ _ _ heq => exact .inl heq
  | hushed _ _ _ _ _ heq => exact .inl heq
  | held _ _ _ _ _ _ _ heq => exact .inl heq
  | quietEnd _ _ _ _ _ _ heq => exact .inl heq
  | oddThrash _ _ _ _ _ heq => exact .inl heq
  | alert _ _ _ _ _ _ _ heq => exact .inl heq
  | news _ _ _ _ _ _ _ heq => exact .inl heq
  | swallowed _ _ _ _ _ _ heq => exact .inl heq
  | series _ _ _ _ _ _ _ heq => exact .inl heq
  | backSilent _ _ _ _ _ _ heq => exact .inl heq
  | fixedSilent _ _ _ _ heq => exact .inl heq
  | policy _ _ _ _ _ _ _ _ heq => exact .inl heq

/-- What was told is not closed without a word. -/
theorem body_closes (hk : k ∉ silentRecovery) (h : HeardSane k b.st.marks b.st.flap.muted g)
    {fa ra : Bool} (hs : BodySound nm k s c b.st g.heard fa) (hm : BodyMove nm k s c b y)
    (hmuted : b.st.flap.muted = true → y.st.flap.muted = true)
    (hg : g.heard = true ∨ g.fired = true) (hzero : (y.after fa ra).level = 0) :
    (offers .recovery y.out.recs = true ∨ offers .fixed y.out.recs = true) ∧ ra = true ∨
      y.out.closed = true ∨ y.st.flap.muted = true := by
  have hopen : 0 < b.st.level := h.open' hg
  have hzero : (y.after fa ra).marks.level = 0 := hzero
  have hsilent : b.st.marks.hush ≠ none ∨ b.st.marks.quiet ≠ none → y.st.flap.muted = true :=
    fun hne => hmuted (h.muted_of_silent hg hne)
  -- the level is not zero after all
  have hno : (y.after fa ra).marks.level = b.st.level ∨ (y.after fa ra).marks.level = c.level ∧
      0 < c.level → False := by
    omega
  cases hm with
  | still hm => exact (hno (.inl (by rw [hm]; rfl))).elim
  | shift hl _ hm => exact (hno (.inr ⟨by rw [hm], hl⟩)).elim
  | again _ hl _ hm => exact (hno (.inr ⟨by rw [hm], hl⟩)).elim
  | hushed _ _ hh => exact .inr (.inr (hsilent (.inl hh)))
  | held _ hl _ t _ hm => exact (hno (.inr ⟨by rw [hm], hl⟩)).elim
  | quietEnd _ _ hq => exact .inr (.inr (hsilent (.inr hq)))
  | oddThrash _ _ _ hm => exact (hno (.inl (by rw [hm]; rfl))).elim
  | alert hl _ _ _ _ hm =>
    rw [hm] at hno
    cases fa with
    | true => exact (hno (.inr ⟨rfl, hl⟩)).elim
    | false => exact (hno (.inl rfl)).elim
  | news _ _ _ _ _ hm =>
    rw [hm] at hno
    cases fa <;> exact (hno (.inl rfl)).elim
  | swallowed _ hmu => exact .inr (.inr (hmuted hmu))
  | series _ hmu => exact .inr (.inr hmu)
  | backSilent _ hk' =>
    rcases hk' with ⟨-, hmu⟩ | hk'
    · exact .inr (.inr (hmuted hmu))
    · exact absurd hk' hk
  | recovery _ _ _ _ _ _ _ hm _ hr =>
    rw [hm] at hno
    cases ra with
    | true => exact .inl ⟨.inl (by simp [hr, offers]), rfl⟩
    | false => exact (hno (.inl rfl)).elim
  | fixedTold _ _ _ _ hm _ hr =>
    rw [hm] at hno
    cases ra with
    | true => exact .inl ⟨.inr (by simp [hr, offers]), rfl⟩
    | false => exact (hno (.inl rfl)).elim
  | fixedSilent _ hq =>
    rcases hq hopen with hq | hh | hgrowth
    · exact .inr (.inr (hsilent (.inr hq)))
    · exact .inr (.inr (hsilent (.inl hh)))
    · exact absurd (by rw [hgrowth]; decide) hk
  | policy _ _ _ _ _ hc => exact .inr (.inl hc)

/-! ## Before the body -/

variable {st : KindSt}

theorem liftFlap_marks (k : Kind) (s : Seen) (st : KindSt) : (liftFlap k s st).1.marks = st.marks := by
  unfold liftFlap
  split_ifs <;> rfl

theorem calmReset_marks (s : Seen) (st : KindSt) : (calmReset s st).marks = st.marks := by
  unfold calmReset
  split <;> rfl

theorem bookkeep_marks (k : Kind) (s : Seen) (c : Cond) (st : KindSt) :
    (bookkeep k s c st).marks = st.marks := by
  unfold bookkeep
  split_ifs
  · rfl
  · rfl
  all_goals
    dsimp only
    split <;> rfl

/-- The kinds that can retire have no guard. -/
theorem retires_kind (h : retires k s st = true) : k ≠ .offline ∧ k ∉ flapMetricKinds := by
  unfold retires at h
  cases k <;> simp at h <;> decide

theorem retire_marks (hr : retires k s st = true) :
    (retire k s st).1.marks = ⟨0, none, none, st.offSaid⟩ := by
  unfold retire
  rw [if_pos hr]
  have h := closedSt_marks k st
  rw [if_neg (retires_kind hr).1] at h
  simp only [KindSt.marks, Marks.mk.injEq] at h ⊢
  exact ⟨h.1, h.2.1, trivial, h.2.2.2⟩

/-- The end of a series leaves no episode that nobody heard of. -/
theorem heardSane_lift (h : HeardSane k st.marks st.flap.muted g)
    (hl : k ∈ flapMetricKinds → s.quietBefore = false → metricCalm st.flap s.now = true →
      0 < st.level → g.heard = true) :
    HeardSane k (liftFlap k s st).1.marks (liftFlap k s st).1.flap.muted g := by
  rw [liftFlap_marks]
  unfold liftFlap
  split
  · exact h
  rename_i hq
  split
  · rename_i hk
    have hno : k ∉ flapMetricKinds := fun hm => not_offline_of_flapMetric hm hk
    split
    · -- nothing that is said of the link depends on its guard
      constructor
      · intro hpos
        rcases h.told hpos with h1 | h1 | h1 | h1 | h1
        · exact .inl h1
        · exact .inr (.inl h1)
        · exact .inr (.inr (.inl h1))
        · exact absurd h1.1 hno
        · exact .inr (.inr (.inr (.inr h1)))
      · exact h.heard
      · exact fun hf => ⟨(h.fired hf).1, .inr (.inl hk)⟩
      · exact h.hush
      · exact h.quiet
      · exact h.said
    · exact h
  split
  · rename_i hk
    have hheard : 0 < st.level → g.heard = true := hl hk.1 (by simpa using hq) hk.2
    constructor
    · exact fun hpos => .inl (hheard hpos)
    · exact h.heard
    · exact fun hf => ⟨(h.fired hf).1, .inl (hheard (h.fired hf).1)⟩
    · exact h.hush
    · exact h.quiet
    · exact h.said
  · exact h

theorem heardSane_prepared (h : HeardSane k st.marks st.flap.muted g)
    (hl : k ∈ flapMetricKinds → s.quietBefore = false → metricCalm st.flap s.now = true →
      0 < st.level → g.heard = true) :
    HeardSane k (prepared k s st).marks (prepared k s st).flap.muted
      (g.retired (retires k s (liftFlap k s st).1)) := by
  have hlift := heardSane_lift h hl
  unfold prepared
  rw [calmReset_marks, calmReset_flap, retire_flap]
  cases hr : retires k s (liftFlap k s st).1 with
  | true =>
    rw [retire_marks hr]
    exact .of_closed rfl rfl rfl (absurd · (retires_kind hr).1) ⟨rfl, rfl⟩
  | false =>
    unfold retire
    rw [hr]
    exact hlift

/-- A kind that retires goes to `quiet_closed`, if it was told. -/
theorem retired_closed (h : HeardSane k st.marks st.flap.muted g)
    (hr : retires k s (liftFlap k s st).1 = true) (hg : g.heard = true ∨ g.fired = true) :
    (preparedOut k s st).closed = true := by
  obtain ⟨hoff, hmetric⟩ := retires_kind hr
  have hheard : g.heard = true := by
    rcases hg with hg | hg
    · exact hg
    · obtain ⟨-, h1 | h1 | h1⟩ := h.fired hg
      · exact h1
      · exact absurd h1 hoff
      · exact absurd h1.1 hmetric
  have hpos : 0 < st.level := h.heard hheard
  have hhush : st.hush = none := by
    by_contra hne
    exact absurd (hheard.symm.trans (h.hush hne).1) (by simp)
  have hquiet : st.quiet = none := by
    by_contra hne
    exact absurd (hheard.symm.trans (h.quiet hne).1) (by simp)
  have hm := liftFlap_marks k s st
  simp only [KindSt.marks, Marks.mk.injEq] at hm
  unfold preparedOut retire
  rw [if_pos hr]
  simp [hm.1, hm.2.1, hm.2.2.1, hhush, hquiet, Nat.ne_of_gt hpos]

/-- Only the end of a series goes out before the body, and the lift of a mute. -/
theorem preparedOut_recs (k : Kind) (s : Seen) (st : KindSt) :
    offers .recovery (preparedOut k s st).recs = false ∧
      offers .fixed (preparedOut k s st).recs = false := by
  unfold preparedOut liftFlap
  split_ifs <;> simp [offers]

/-! ## One tick -/

/-- The end of a tick, from the log and the guard as they were when the tick
compared. -/
structure TickRight (k : Kind) (g : HeardLog) (m₀ : Bool) (i : KindIn) (r : KindSt × Out) :
    Prop where
  sane : HeardSane k (afterTick k i r).marks r.1.flap.muted
    (g.after (afterTick k i r).level r.1.flap.muted r.2.fires i.fireAck)
  recovers : Recovers r → g.heard = true
  closes : g.heard = true ∨ g.fired = true → (afterTick k i r).level = 0 →
    Recovers r ∧ i.recAck = true ∨ r.2.closed = true ∨ r.1.flap.muted = true
  notice : offers .flapping r.2.fires = true → i.fireAck = true
  guard : r.1.flap.muted = true → m₀ = true ∨ offers .flapping r.2.fires = true

theorem afterTick_flap (k : Kind) (i : KindIn) (r : KindSt × Out) :
    (afterTick k i r).flap = r.1.flap := by
  simp [afterTick]

/-- What waits is done as a whole, or not at all. -/
theorem afterTick_carry {i : KindIn} (h : i.seen.onb = true → i.fireAck = true ∧ i.recAck = true)
    (y : Carry) : afterTick k i (y.st, y.out) = y.after i.fireAck i.recAck := by
  unfold afterTick Carry.after
  rw [commit_whole fun ho => (h ho).1, commit_whole fun ho => (h ho).2]

/-- A tick that compares nothing. -/
theorem TickRight.idle {i : KindIn} {r : KindSt × Out} {m₀ : Bool}
    (h : HeardSane k r.1.marks r.1.flap.muted g) (hf : r.2.fires = []) (hfa : r.2.fireApply = [])
    (hra : r.2.recApply = [])
    (hr : offers .recovery r.2.recs = false ∧ offers .fixed r.2.recs = false)
    (hm : r.1.flap.muted = true → m₀ = true) : TickRight k g m₀ i r := by
  have hsame : afterTick k i r = r.1 := by
    rw [afterTick, hfa, hra, commit_nil, commit_nil]
  have hno : ¬ Recovers r := by
    rintro (hre | hre)
    · rw [hr.1] at hre
      cases hre
    · rw [hr.2] at hre
      cases hre
  refine ⟨?_, fun hre => absurd hre hno, fun hg h0 => ?_, by simp [hf, offers],
    fun hmuted => .inl (hm hmuted)⟩
  · rw [hsame, hf]
    exact h.same Iff.rfl rfl rfl rfl id (h.after_silent Iff.rfl (.inl rfl) _)
  · rw [hsame] at h0
    have hpos : 0 < r.1.level := h.open' hg
    omega

theorem condNow_complete (h : condNow k s = some c) :
    ∃ d, s.cond = some d ∧ d.ctx.complete = c.ctx.complete := by
  unfold condNow at h
  split at h
  · obtain ⟨d, hd, rfl⟩ := Option.map_eq_some_iff.1 h
    exact ⟨d, hd, rfl⟩
  · exact ⟨c, h, rfl⟩

/-- A snoozed tick. -/
theorem TickRight.quiet (hk : k ∉ silentRecovery) {i : KindIn} {out : Out}
    (h : HeardSane k st.marks st.flap.muted g) (hf : out.fires = []) (hfa : out.fireApply = [])
    (hra : out.recApply = [])
    (hr : offers .recovery out.recs = false ∧ offers .fixed out.recs = false)
    (hc : condNow k i.seen = some c)
    (honb : i.seen.onb = true → i.fireAck = true ∧ i.recAck = true)
    (hs : c.level = 0 → confirmed i.seen = true ∨ k = .offline → 0 < st.level →
      st.hush = none ∧ st.quiet = none ∧ (k = .offline → st.offSaid = true)) :
    TickRight k g st.flap.muted i (quietTick k i.seen c st out) := by
  have hsure : k = .offline ∨ i.seen.talking = true ∧ i.seen.fresh = true ∧ i.seen.epoch = false ∧
      c.ctx.complete = true → confirmed i.seen = true ∨ k = .offline := by
    rintro (ho | ⟨ht, hfr, he, hcomp⟩)
    · exact .inr ho
    · obtain ⟨d, hd, hdc⟩ := condNow_complete hc
      exact .inl (by simp [confirmed, ht, hfr, he, hd, hdc, hcomp])
  have hend := quietTick_end (k := k) (s := i.seen) (c := c) st out
  generalize quietTick k i.seen c st out = r at hend ⊢
  cases hend with
  | still => exact .idle h hf hfa hra hr id
  | lower hlt hconf hwhy =>
    by_cases hl : 0 < c.level
    · have hopen : 0 < c.level ↔ 0 < st.marks.level := by
        have hpos : 0 < st.marks.level := lt_of_le_of_lt (Nat.zero_le _) hlt
        omega
      have hsame : HeardSane k { st with level := c.level }.marks st.flap.muted g :=
        h.same hopen rfl rfl rfl id ⟨rfl, rfl⟩
      exact .idle hsame hf hfa hra hr id
    · -- the level is zero, and the series is muted
      have h0 : c.level = 0 := by omega
      have hmuted : k ∈ flapMetricKinds ∧ st.flap.muted = true := by
        rcases hwhy with hne | hsil | hm
        · exact absurd h0 hne
        · exact absurd hsil hk
        · exact hm
      obtain ⟨hh, hq, -⟩ := hs h0 (hsure hconf) (by omega)
      refine ⟨?_, ?_, fun _ _ => .inr (.inr hmuted.2), by simp [hf, offers], .inl⟩
      · rw [afterTick, hfa, hra, commit_nil, commit_nil, h0]
        exact .of_closed rfl hh hq (absurd · (not_offline_of_flapMetric hmuted.1)) (after_zero ..)
      · rintro (hre | hre)
        · rw [hr.1] at hre
          cases hre
        · rw [hr.2] at hre
          cases hre
  | back hlt hconf h0 _ hm =>
    obtain ⟨hh, hq, ho⟩ := hs h0 (hsure hconf) (by omega)
    have hheard : g.heard = true := by
      have hpos : 0 < st.marks.level := lt_of_le_of_lt (Nat.zero_le _) hlt
      rcases h.told hpos with h1 | h1 | h1 | h1 | ⟨h1, h2⟩
      · exact h1
      · exact absurd hh h1
      · exact absurd hq h1
      · exact absurd h1 hm
      · exact absurd (h2.symm.trans (ho h1)) (by simp)
    have hafter : afterTick k i (st, { out with
          recs := out.recs ++ [⟨.recovery, 0, ∅⟩]
          recApply := out.recApply ++ closedTail k st }) =
        if i.recAck then closedSt k st else st := by
      rw [afterTick]
      dsimp only
      rw [hfa, hra, commit_nil, List.nil_append, commit_whole fun hb => (honb hb).2,
        applyAll_closedTail]
    refine ⟨?_, fun _ => hheard, fun _ hz => ?_, by simp [hf, offers], .inl⟩
    · rw [hafter, hf]
      cases i.recAck with
      | true =>
        have hmarks := closedSt_marks k st
        simp only [if_true]
        rw [hmarks]
        have hlevel : (closedSt k st).level = 0 := closedSt_level k st
        rw [hlevel]
        exact .of_closed rfl rfl hq (fun hk => by simp [hk]) (after_zero ..)
      | false =>
        exact h.same Iff.rfl rfl rfl rfl id (h.after_silent Iff.rfl (.inl rfl) _)
    · rw [hafter] at hz
      cases hra' : i.recAck with
      | true => exact .inl ⟨.inl (by simp [offers]), rfl⟩
      | false =>
        rw [hra'] at hz
        have hz : st.level = 0 := hz
        omega

/-- A tick that the gates stop. -/
theorem loopBody_stopped (nm : Norms) (hg : gates k s c b = .done y) :
    (loopBody nm k s c b).out = y := by
  unfold loopBody
  rw [hg]
  rfl

theorem TickRight.body (hk : k ∉ silentRecovery) {i : KindIn}
    (h : HeardSane k b.st.marks b.st.flap.muted g) (hf : b.out.fires = [])
    (hfa : b.out.fireApply = []) (hra : b.out.recApply = [])
    (hr : offers .recovery b.out.recs = false ∧ offers .fixed b.out.recs = false)
    (honb : i.seen.onb = true → i.fireAck = true ∧ i.recAck = true)
    (hs : gates k i.seen c b = .next b → BodySound nm k i.seen c b.st g.heard i.fireAck) :
    TickRight k g b.st.flap.muted i
      ((loopBody nm k i.seen c b).out.st, (loopBody nm k i.seen c b).out.out) := by
  have hend := gates_end (k := k) (s := i.seen) (c := c) (x := b)
  cases hg : gates k i.seen c b with
  | done y =>
    rw [hg] at hend
    rw [loopBody_stopped nm hg]
    cases hend with
    | left => exact .idle h hf hfa hra hr id
    | muted _ h0 hlt =>
      have hopen : 0 < c.level ↔ 0 < b.st.marks.level := by
        have hpos : 0 < b.st.marks.level := lt_of_le_of_lt (Nat.zero_le _) hlt
        omega
      have hsame : HeardSane k { b.st with level := c.level }.marks b.st.flap.muted g :=
        h.same hopen rfl rfl rfl id ⟨rfl, rfl⟩
      exact .idle hsame hf hfa hra hr id
  | next y =>
    have hyb : y = b := by
      rw [hg] at hend
      cases hend
      rfl
    have hsound := hs (hyb ▸ hg)
    have hbody := loopBody_end nm k i.seen c b
    generalize (loopBody nm k i.seen c b).out = z at hbody ⊢
    have hmove := hbody.move hfa hra
    have hmuted : b.st.flap.muted = true → z.st.flap.muted = true := by
      intro hm
      rcases hbody.guard with heq | ⟨heq, -⟩
      · rw [heq, hm]
      · exact heq
    refine ⟨?_, ?_, ?_, fun ho => hsound.fills (hmove.fills hf ho), fun hm => ?_⟩
    · rw [afterTick_carry honb]
      exact heardSane_body hk h hsound hf hmove hmuted
    · exact body_recovers h hsound hr hmove
    · rw [afterTick_carry honb]
      exact body_closes hk h hsound hmove hmuted
    · rcases hbody.guard with heq | ⟨-, ho⟩
      · exact .inl (heq ▸ hm)
      · exact .inr ho

theorem lifted_marks (st : KindSt) (out : Out) (hd : k = .diskHealth → s.diskLift = true →
    st.level = 0) : (liftDiskMute k s st out).1.marks = st.marks ∧
      (liftDiskMute k s st out).1.flap = st.flap := by
  rcases liftDiskMute_end (k := k) (s := s) st out with heq | ⟨hk, hl, heq⟩
  · rw [heq]
    exact ⟨rfl, rfl⟩
  · rw [heq]
    refine ⟨?_, rfl⟩
    simp [KindSt.marks, hd hk hl]

/-- The lift of a mute adds its own message, and nothing else. -/
theorem lifted_out (st : KindSt) (out : Out) :
    (liftDiskMute k s st out).2.fires = out.fires ∧
      (liftDiskMute k s st out).2.fireApply = out.fireApply ∧
      (liftDiskMute k s st out).2.recApply = out.recApply ∧
      (liftDiskMute k s st out).2.closed = out.closed ∧
      ∀ w, w ≠ What.muteLift → offers w (liftDiskMute k s st out).2.recs = offers w out.recs := by
  rcases liftDiskMute_end (k := k) (s := s) st out with heq | ⟨-, -, heq⟩
  all_goals
    rw [heq]
    refine ⟨rfl, rfl, rfl, rfl, fun w hw => ?_⟩
  · rfl
  · simp [offers, hw.symm]

/-- A kind that retires is closed before anything is compared. -/
theorem prepared_retired (hr : retires k s (liftFlap k s st).1 = true) :
    (prepared k s st).marks = ⟨0, none, none, st.offSaid⟩ := by
  unfold prepared
  rw [calmReset_marks, retire_marks hr, Marks.mk.injEq]
  exact ⟨rfl, rfl, rfl, congrArg Marks.offSaid (liftFlap_marks k s st)⟩

/-- And the marks of one that does not are as they were. -/
theorem prepared_kept (hr : retires k s (liftFlap k s st).1 = false) :
    (prepared k s st).marks = st.marks := by
  unfold prepared
  rw [calmReset_marks]
  unfold retire
  rw [hr]
  exact liftFlap_marks k s st

theorem prepared_cases (k : Kind) (s : Seen) (st : KindSt) :
    (prepared k s st).marks = ⟨0, none, none, st.offSaid⟩ ∨ (prepared k s st).marks = st.marks := by
  cases hr : retires k s (liftFlap k s st).1 with
  | true => exact .inl (prepared_retired hr)
  | false => exact .inr (prepared_kept hr)

theorem prepared_zero (h : st.level = 0) : (prepared k s st).level = 0 := by
  change (prepared k s st).marks.level = 0
  rcases prepared_cases k s st with heq | heq
  · rw [heq]
  · rw [heq]
    exact h

theorem prepared_marks (h : 0 < (prepared k s st).level) : (prepared k s st).marks = st.marks := by
  rcases prepared_cases k s st with heq | heq
  · have h0 : (prepared k s st).level = 0 := congrArg Marks.level heq
    omega
  · exact heq

/-- Each tick of a run that is sound is right. -/
theorem tickRight (nm : Norms) (hk : k ∉ silentRecovery) {x : KindSt × HeardLog} {i : KindIn}
    (h : HeardSane k x.1.marks x.1.flap.muted x.2) (hs : WrittenSound nm k x i) :
    ∃ m₀, (m₀ = true → x.1.flap.muted = true) ∧
      TickRight k (x.2.retired (retiresNow k i.seen x.1)) m₀ i (kindTick nm k i.seen x.1) := by
  have hend := kindTick_end nm k i.seen x.1
  generalize kindTick nm k i.seen x.1 = r at hend ⊢
  -- the state that the tick compares, and its log
  have hprep : i.seen.skip = false → HeardSane k (prepared k i.seen x.1).marks
      (prepared k i.seen x.1).flap.muted (x.2.retired (retiresNow k i.seen x.1)) := by
    intro hskip
    have := heardSane_prepared h hs.lift
    simpa [retiresNow, hskip] using this
  have hmuted : (prepared k i.seen x.1).flap.muted = true → x.1.flap.muted = true :=
    (prepared_quiet k i.seen x.1).muted
  have hdisk : k = .diskHealth → i.seen.diskLift = true → (prepared k i.seen x.1).level = 0 :=
    fun hk hl => prepared_zero (hs.disk hk hl)
  have hrecs := preparedOut_recs k i.seen x.1
  have hbook : ∀ c, (bookkeep k i.seen c (prepared k i.seen x.1)).marks =
      (prepared k i.seen x.1).marks := fun c => bookkeep_marks ..
  cases hend with
  | skip hskip =>
    refine ⟨_, id, TickRight.idle ?_ rfl rfl rfl ⟨rfl, rfl⟩ id⟩
    simpa [retiresNow, hskip, HeardLog.retired] using h
  | unseenQuiet hskip => exact ⟨_, hmuted, .idle (hprep hskip) rfl rfl rfl hrecs id⟩
  | unseen hskip =>
    obtain ⟨hm, hf⟩ := lifted_marks (prepared k i.seen x.1) (preparedOut k i.seen x.1) hdisk
    obtain ⟨h1, h2, h3, -, h4⟩ := lifted_out (k := k) (s := i.seen) (prepared k i.seen x.1)
      (preparedOut k i.seen x.1)
    refine ⟨_, ?_, TickRight.idle ?_ h1 h2 h3 ⟨?_, ?_⟩ id⟩
    · rw [hf]
      exact hmuted
    · rw [hm, hf]
      exact hprep hskip
    · rw [h4 _ (by simp)]
      exact hrecs.1
    · rw [h4 _ (by simp)]
      exact hrecs.2
  | quiet hskip c hc hq =>
    refine ⟨_, ?_, TickRight.quiet hk ?_ rfl rfl rfl hrecs hc hs.onboarding fun h0 hconf hpos => ?_⟩
    · rw [bookkeep_flap]
      exact hmuted
    · rw [hbook, bookkeep_flap]
      exact hprep hskip
    · have hlevel : (bookkeep k i.seen c (prepared k i.seen x.1)).level =
          (prepared k i.seen x.1).level := congrArg Marks.level (hbook c)
      have hm : (bookkeep k i.seen c (prepared k i.seen x.1)).marks = x.1.marks :=
        (hbook c).trans (prepared_marks (hlevel ▸ hpos))
      simp only [KindSt.marks, Marks.mk.injEq] at hm
      obtain ⟨hm1, hm2, hm3, hm4⟩ := hm
      rw [hm2, hm3, hm4]
      exact hs.snooze hq c hc h0 hconf (hm1 ▸ hpos)
  | body hskip c hc hq =>
    obtain ⟨hm, hf⟩ := lifted_marks (bookkeep k i.seen c (prepared k i.seen x.1))
      (preparedOut k i.seen x.1) fun hk hl => (congrArg Marks.level (hbook c)).trans (hdisk hk hl)
    obtain ⟨-, -, -, -, h4⟩ := lifted_out (k := k) (s := i.seen)
      (bookkeep k i.seen c (prepared k i.seen x.1)) (preparedOut k i.seen x.1)
    obtain ⟨h1, h2, h3⟩ := bodyStart_queue k i.seen c x.1
    refine ⟨_, ?_, TickRight.body hk ?_ h1 h2 h3 ⟨?_, ?_⟩ hs.onboarding fun hpass => ?_⟩
    · unfold bodyStart
      rw [hf, bookkeep_flap]
      exact hmuted
    · unfold bodyStart
      rw [hm, hf, hbook, bookkeep_flap]
      exact hprep hskip
    · unfold bodyStart
      rw [h4 _ (by simp)]
      exact hrecs.1
    · unfold bodyStart
      rw [h4 _ (by simp)]
      exact hrecs.2
    · exact hs.body hskip hq c hc hpass

/-! ## Runs -/

/-- The end of a series is told only of a muted one. -/
theorem liftFlap_series (h : offers .seriesEnd (liftFlap k s st).2 = true) :
    st.flap.muted = true := by
  unfold liftFlap at h
  split at h
  · cases h
  split at h
  · split at h
    · rename_i hcalm
      exact (Bool.and_eq_true_iff.1 hcalm).1
    · cases h
  split at h
  · rename_i hcalm
    exact (Bool.and_eq_true_iff.1 hcalm.2).1
  · cases h

theorem kindTick_series (nm : Norms) (h : offers .seriesEnd (kindTick nm k s st).2.recs = true) :
    st.flap.muted = true := by
  have hend := kindTick_end nm k s st
  generalize kindTick nm k s st = r at hend h
  refine liftFlap_series (k := k) (s := s) ?_
  cases hend with
  | skip => cases h
  | unseenQuiet => exact h
  | unseen =>
    obtain ⟨-, -, -, -, h4⟩ := lifted_out (k := k) (s := s) (prepared k s st) (preparedOut k s st)
    rw [h4 _ (by simp)] at h
    exact h
  | quiet _ c =>
    have hq := quietTick_end (k := k) (s := s) (c := c) (bookkeep k s c (prepared k s st))
      (preparedOut k s st)
    generalize quietTick k s c (bookkeep k s c (prepared k s st)) (preparedOut k s st) = q at hq h
    cases hq with
    | back => simpa [offers, preparedOut] using h
    | _ => exact h
  | body _ c =>
    obtain ⟨-, -, -, -, h4⟩ := lifted_out (k := k) (s := s) (bookkeep k s c (prepared k s st))
      (preparedOut k s st)
    obtain ⟨-, h2, h3⟩ := bodyStart_queue k s c st
    have hstart : offers .seriesEnd (bodyStart k s c st).out.recs =
        offers .seriesEnd (liftFlap k s st).2 := h4 _ (by simp)
    rw [← hstart]
    rcases ((loopBody_end nm k s c (bodyStart k s c st)).move h2 h3).recs with heq | ⟨w, hw, heq⟩
    · rwa [heq] at h
    · rw [heq] at h
      rcases hw with rfl | rfl <;> simpa [offers] using h

/-- What goes to `quiet_closed` before the body goes out with the tick. -/
theorem kindTick_closed (nm : Norms) (hskip : s.skip = false)
    (h : (preparedOut k s st).closed = true) : (kindTick nm k s st).2.closed = true := by
  have hend := kindTick_end nm k s st
  generalize kindTick nm k s st = r at hend ⊢
  cases hend with
  | skip hno =>
    rw [hskip] at hno
    cases hno
  | unseenQuiet => exact h
  | unseen =>
    obtain ⟨-, -, -, hc, -⟩ := lifted_out (k := k) (s := s) (prepared k s st) (preparedOut k s st)
    exact hc.trans h
  | quiet _ c =>
    have hq := quietTick_end (k := k) (s := s) (c := c) (bookkeep k s c (prepared k s st))
      (preparedOut k s st)
    generalize quietTick k s c (bookkeep k s c (prepared k s st)) (preparedOut k s st) = q at hq ⊢
    cases hq <;> exact h
  | body _ c =>
    obtain ⟨-, -, -, hc, -⟩ := lifted_out (k := k) (s := s) (bookkeep k s c (prepared k s st))
      (preparedOut k s st)
    exact (loopBody_end nm k s c (bodyStart k s c st)).closed (hc.trans h)

/-- The state and the log of a run. -/
def WrittenInv (k : Kind) (x : KindSt × HeardLog) : Prop :=
  HeardSane k x.1.marks x.1.flap.muted x.2 ∧ (x.1.flap.muted = true → x.2.noticed = true)

theorem retired_noticed (g : HeardLog) (r : Bool) : (g.retired r).noticed = g.noticed := by
  cases r <;> rfl

theorem writtenInv_step (nm : Norms) (hk : k ∉ silentRecovery) {x : KindSt × HeardLog} {i : KindIn}
    (h : WrittenInv k x) (hs : WrittenSound nm k x i) : WrittenInv k (writtenStep nm k x i) := by
  obtain ⟨m₀, hm₀, hr⟩ := tickRight nm hk h.1 hs
  unfold WrittenInv writtenStep
  dsimp only
  rw [afterTick_flap]
  refine ⟨hr.sane, fun hmuted => ?_⟩
  simp only [HeardLog.after, retired_noticed]
  split
  · exact hr.notice ‹_›
  · rename_i hno
    rcases hr.guard hmuted with hm | hm
    · simp [h.2 (hm₀ hm), hmuted]
    · exact absurd hm hno

theorem writtenRight_step (nm : Norms) (hk : k ∉ silentRecovery) {x : KindSt × HeardLog} {i : KindIn}
    (h : WrittenInv k x) (hs : WrittenSound nm k x i) : WrittenRight nm k x i := by
  obtain ⟨m₀, hm₀, hr⟩ := tickRight nm hk h.1 hs
  refine ⟨fun hre => ?_, fun hse => h.2 (kindTick_series nm hse), fun hg h0 => ?_⟩
  · have hheard := hr.recovers hre
    unfold HeardLog.retired at hheard
    split at hheard
    · cases hheard
    · exact hheard
  · cases hret : retiresNow k i.seen x.1 with
    | true =>
      obtain ⟨hskip, hret⟩ := Bool.and_eq_true_iff.1 hret
      have hclosed := kindTick_closed nm (by simpa using hskip) (retired_closed h.1 hret hg)
      exact .inr (.inl hclosed)
    | false =>
      rw [hret] at hr
      rw [kindStep, afterTick_flap]
      exact hr.closes hg h0

/-! ## What is sent -/

/-- What was sent of the open episode, what the states have on record of it, and
the mark of the last tick. -/
structure TellLog where
  sent : HeardLog := {}
  written : HeardLog := {}
  dev : Bool := false

/-- The messages of the kind were kept back at the last tick. -/
def TellLog.held (k : Kind) (g : TellLog) : Bool := g.dev && k ∈ devApp

/-- A step of a server that may be marked. What the mark keeps back is on record
as delivered, and is not sent. -/
def heardStep (nm : Norms) (k : Kind) (x : KindSt × TellLog) (i : MarkedIn) : KindSt × TellLog :=
  let r := kindTick nm k i.seen x.1
  let st := afterTick k (i.tick k) r
  let log (g : HeardLog) (ack : Bool) : HeardLog :=
    (g.retired (retiresNow k i.seen x.1)).after st.level st.flap.muted r.2.fires ack
  (st, ⟨log x.2.sent (!i.holds k && i.fireAck), log x.2.written (i.tick k).fireAck, i.dev⟩)

/-- A recovery is sent for what was sent, the end of a series for what was
noticed, and what was sent is closed by a recovery that is sent and delivered,
by `quiet_closed`, or within a series whose end is told. -/
structure HeardRight (nm : Norms) (k : Kind) (x : KindSt × TellLog) (i : MarkedIn) : Prop where
  recovery : i.holds k = false → Recovers (kindTick nm k i.seen x.1) → x.2.sent.heard = true
  series : i.holds k = false → offers .seriesEnd (kindTick nm k i.seen x.1).2.recs = true →
    x.2.sent.noticed = true
  closing : x.2.sent.heard = true ∨ x.2.sent.fired = true →
    (kindStep nm k x.1 (i.tick k)).level = 0 →
      i.holds k = false ∧ Recovers (kindTick nm k i.seen x.1) ∧ i.recAck = true ∨
        (kindTick nm k i.seen x.1).2.closed = true ∨
        (kindStep nm k x.1 (i.tick k)).flap.muted = true

/-- What keeps recoveries and alerts together: what keeps the record right, and
that the mark comes and goes between two episodes. -/
structure HeardSound (nm : Norms) (k : Kind) (x : KindSt × TellLog) (i : MarkedIn) : Prop where
  written : WrittenSound nm k (x.1, x.2.written) (i.tick k)
  mark : k ∈ devApp → i.dev ≠ x.2.dev → x.1.level = 0 ∧ x.1.flap.muted = false

/-- What was sent of a kind: nothing while its messages are kept back, else what
is on record. -/
structure Agrees (held muted : Bool) (g : TellLog) : Prop where
  silent : held = true → g.sent.heard = false ∧ g.sent.fired = false
  same : held = false → g.sent.heard = g.written.heard ∧ g.sent.fired = g.written.fired
  noticed : held = false → muted = true → g.sent.noticed = true

theorem HeardSane.congr (h : HeardSane k m muted g) (hg : g'.heard = g.heard ∧ g'.fired = g.fired) :
    HeardSane k m muted g' :=
  h.same Iff.rfl rfl rfl rfl id hg

/-- The mark comes and goes where nothing is open, and then nothing was sent and
nothing is on record. -/
theorem Agrees.marked {x : KindSt × TellLog} {i : MarkedIn} (hw : WrittenInv k (x.1, x.2.written))
    (ha : Agrees (x.2.held k) x.1.flap.muted x.2) (hs : HeardSound nm k x i) :
    Agrees (i.holds k) x.1.flap.muted x.2 := by
  by_cases hsame : i.holds k = x.2.held k
  · rw [hsame]
    exact ha
  have hk : k ∈ devApp := by
    by_contra hk
    simp [MarkedIn.holds, TellLog.held, hk] at hsame
  have hdev : i.dev ≠ x.2.dev := by
    intro heq
    simp [MarkedIn.holds, TellLog.held, heq] at hsame
  obtain ⟨h0, hmuted⟩ := hs.mark hk hdev
  have hnot : ¬ 0 < x.1.marks.level := Nat.not_lt.2 (Nat.le_of_eq h0)
  have hheard : x.2.written.heard = false := Bool.eq_false_iff.2 fun h => hnot (hw.1.heard h)
  have hfired : x.2.written.fired = false := Bool.eq_false_iff.2 fun h => hnot (hw.1.fired h).1
  have hsent : x.2.sent.heard = false ∧ x.2.sent.fired = false := by
    cases hheld : x.2.held k with
    | true => exact ha.silent hheld
    | false =>
      obtain ⟨h1, h2⟩ := ha.same hheld
      exact ⟨h1.trans hheard, h2.trans hfired⟩
  exact ⟨fun _ => hsent, fun _ => ⟨hsent.1.trans hheard.symm, hsent.2.trans hfired.symm⟩,
    fun _ hm => absurd hm (by simp [hmuted])⟩

theorem MarkedIn.tick_of_sent {i : MarkedIn} (h : i.holds k = false) :
    i.tick k = ⟨i.seen, i.fireAck, i.recAck⟩ := by
  simp [MarkedIn.tick, h]

/-- What is sent, where the kind is not kept back, is sound as the record is. -/
theorem WrittenSound.of_sent {st : KindSt} {i : KindIn} (h : WrittenSound nm k (st, g) i)
    (hg : g'.heard = g.heard) : WrittenSound nm k (st, g') i where
  onboarding := h.onboarding
  snooze := h.snooze
  lift := fun h1 h2 h3 h4 => hg.trans (h.lift h1 h2 h3 h4)
  disk := h.disk
  body h1 h2 c h3 h4 := by
    have hret : (g'.retired (retiresNow k i.seen st)).heard =
        (g.retired (retiresNow k i.seen st)).heard := by
      unfold HeardLog.retired
      split
      · rfl
      · exact hg
    rw [hret]
    exact h.body h1 h2 c h3 h4

/-- The states of a run, their record, and what was sent. -/
def HeardInv (k : Kind) (x : KindSt × TellLog) : Prop :=
  WrittenInv k (x.1, x.2.written) ∧ Agrees (x.2.held k) x.1.flap.muted x.2

/-- Where the kind is not kept back, what was sent is as good as the record. -/
theorem HeardInv.sent {x : KindSt × TellLog} {i : MarkedIn} (h : HeardInv k x)
    (hs : HeardSound nm k x i) (hi : i.holds k = false) :
    WrittenInv k (x.1, x.2.sent) ∧ WrittenSound nm k (x.1, x.2.sent) (i.tick k) := by
  have ha := Agrees.marked h.1 h.2 hs
  have hsame := ha.same hi
  exact ⟨⟨h.1.1.congr hsame, ha.noticed hi⟩, hs.written.of_sent hsame.1⟩

/-- What a step makes of two logs that agree. -/
theorem HeardLog.after_congr (h : g'.heard = g.heard ∧ g'.fired = g.fired) (r : Bool) (n : Nat)
    (muted : Bool) (fires : List Notice) (ack : Bool) :
    ((g'.retired r).after n muted fires ack).heard = ((g.retired r).after n muted fires ack).heard ∧
      ((g'.retired r).after n muted fires ack).fired =
        ((g.retired r).after n muted fires ack).fired := by
  cases r <;> simp [HeardLog.retired, HeardLog.after, h]

/-- What nobody was told stays untold. -/
theorem HeardLog.after_unsent (h : g.heard = false ∧ g.fired = false) (r : Bool) (n : Nat)
    (muted : Bool) (fires : List Notice) :
    ((g.retired r).after n muted fires false).heard = false ∧
      ((g.retired r).after n muted fires false).fired = false := by
  cases r <;> simp [HeardLog.retired, HeardLog.after, h]

/-- The record takes the step of the states. -/
theorem heardStep_written (nm : Norms) (k : Kind) (x : KindSt × TellLog) (i : MarkedIn) :
    ((heardStep nm k x i).1, (heardStep nm k x i).2.written) =
      writtenStep nm k (x.1, x.2.written) (i.tick k) := by
  simp only [heardStep, writtenStep]
  rfl

/-- And so does what is sent, where the kind is not kept back. -/
theorem heardStep_sent (nm : Norms) {x : KindSt × TellLog} {i : MarkedIn}
    (hi : i.holds k = false) : ((heardStep nm k x i).1, (heardStep nm k x i).2.sent) =
      writtenStep nm k (x.1, x.2.sent) (i.tick k) := by
  simp only [heardStep, writtenStep, hi, MarkedIn.tick_of_sent hi, Bool.not_false, Bool.true_and]

theorem heardInv_step (nm : Norms) (hk : k ∉ silentRecovery) {x : KindSt × TellLog} {i : MarkedIn}
    (h : HeardInv k x) (hs : HeardSound nm k x i) : HeardInv k (heardStep nm k x i) := by
  have hwritten : WrittenInv k ((heardStep nm k x i).1, (heardStep nm k x i).2.written) := by
    rw [heardStep_written]
    exact writtenInv_step nm hk h.1 hs.written
  refine ⟨hwritten, ?_⟩
  have ha := Agrees.marked h.1 h.2 hs
  have hheld : (heardStep nm k x i).2.held k = i.holds k := rfl
  rw [hheld]
  constructor
  · intro hi
    simp only [heardStep, hi, Bool.not_true, Bool.false_and]
    exact HeardLog.after_unsent (ha.silent hi) ..
  · intro hi
    simp only [heardStep, hi, Bool.not_false, Bool.true_and, MarkedIn.tick_of_sent hi]
    exact HeardLog.after_congr (ha.same hi) ..
  · intro hi
    obtain ⟨hw, hsound⟩ := h.sent hs hi
    have hnext := writtenInv_step nm hk hw hsound
    rw [← heardStep_sent nm hi] at hnext
    exact hnext.2

theorem heardRight_step (nm : Norms) (hk : k ∉ silentRecovery) {x : KindSt × TellLog}
    {i : MarkedIn} (h : HeardInv k x) (hs : HeardSound nm k x i) : HeardRight nm k x i := by
  have ha := Agrees.marked h.1 h.2 hs
  cases hi : i.holds k with
  | true =>
    -- nothing was sent, so there is nothing to close
    obtain ⟨h1, h2⟩ := ha.silent hi
    refine ⟨fun hno => ?_, fun hno => ?_, fun hg => ?_⟩
    · rw [hi] at hno
      cases hno
    · rw [hi] at hno
      cases hno
    · simp [h1, h2] at hg
  | false =>
    obtain ⟨hw, hsound⟩ := h.sent hs hi
    have hright := writtenRight_step nm hk hw hsound
    refine ⟨fun _ => hright.recovery, fun _ => hright.series, fun hg h0 => ?_⟩
    rcases hright.closing hg h0 with ⟨hre, hack⟩ | hcl
    · rw [MarkedIn.tick_of_sent hi] at hack
      exact .inl ⟨hi, hre, hack⟩
    · exact .inr hcl

/-- Recoveries and alerts belong together, over every run of a kind that has
recoveries, on a server that may be marked as one of development. -/
theorem recoveries_match_alerts (nm : Norms) (k : Kind) (hk : k ∉ silentRecovery)
    (is : List MarkedIn) (hall : Along (heardStep nm k) (HeardSound nm k) ({}, {}) is) :
    Along (heardStep nm k) (HeardRight nm k) ({}, {}) is := by
  have h0 : HeardInv k ({}, {}) := by
    refine ⟨⟨heardSane_nothing k, fun h => nomatch h⟩, ?_⟩
    constructor <;> simp
  exact step_of_run h0 (fun x i h hs => heardInv_step nm hk h hs)
    (fun x i h hs => heardRight_step nm hk h hs) hall

theorem thrash_routine (h : isThrash k c = true) : k ∈ routineKinds := by
  simp only [isThrash, Bool.and_eq_true, decide_eq_true_eq] at h
  rw [h.1]
  decide

/-- A tick that finds the kind at `level`, on a server with this mark. -/
def plainTick (dev : Bool) (n : Int) (level : Nat) : MarkedIn where
  seen := { now := sec n, cond := some ⟨level, {}⟩ }
  dev := dev
  fireAlone := true
  recAlone := true
  fireAck := true
  recAck := true

theorem plainTick_sound {x : KindSt × TellLog} {dev : Bool} {n : Int} {level : Nat}
    (hk : k ∉ tracksMembers ∧ k ∉ routineKinds ∧ k ∉ flapMetricKinds)
    (hother : k ≠ .offline ∧ k ≠ .diskHealth)
    (hmark : dev ≠ x.2.dev → x.1.level = 0 ∧ x.1.flap.muted = false) :
    HeardSound plainNorms k x (plainTick dev n level) where
  mark _ := hmark
  written :=
    { onboarding := fun h => nomatch h
      snooze := fun hq => nomatch hq
      lift := fun h => absurd h hk.2.2
      disk := fun h => absurd h hother.2
      body := fun _ _ c _ _ =>
        { overrun := fun _ _ _ _ => by simp [MarkedIn.tick, plainTick]
          thrash := fun _ hi => absurd (thrash_routine hi) hk.2.1
          news := fun _ h => absurd h hk.1
          policy := fun _ h => absurd h hk.1
          overdue := fun _ _ _ _ h => absurd h hk.2.1
          unsaid := fun h => absurd h hother.1
          fills := fun _ => by simp [MarkedIn.tick, plainTick]
          fixed := fun hfix => nomatch hfix } }

/-- Told and closed, and a wave that comes back within the hour is silent from
its begin to its end; and a mark that is taken away between two episodes, of
which the first is kept back whole and the second is told whole. -/
theorem recoveries_match_alerts_plain :
    Along (heardStep plainNorms .throttle) (HeardRight plainNorms .throttle) ({}, {})
        [plainTick false 0 2, plainTick false 100 0, plainTick false 1000 0,
          plainTick false 2000 2, plainTick false 2100 0, plainTick false 3000 0] ∧
      Along (heardStep plainNorms .llm) (HeardRight plainNorms .llm) ({}, {})
        [plainTick true 0 2, plainTick true 100 0, plainTick true 1000 0,
          plainTick false 100000 2, plainTick false 100100 0, plainTick false 101000 0] := by
  have sound {k : Kind} {x : KindSt × TellLog} (n : Int) (level : Nat) (dev : Bool)
      (hk : k = .throttle ∨ k = .llm)
      (hmark : dev ≠ x.2.dev → x.1.level = 0 ∧ x.1.flap.muted = false) :
      HeardSound plainNorms k x (plainTick dev n level) := by
    rcases hk with rfl | rfl <;> exact plainTick_sound (by decide) (by decide) hmark
  constructor
  · exact recoveries_match_alerts plainNorms .throttle (by decide) _
      ⟨sound _ _ _ (.inl rfl) (fun h => absurd rfl h), sound _ _ _ (.inl rfl) (fun h => absurd rfl h),
        sound _ _ _ (.inl rfl) (fun h => absurd rfl h), sound _ _ _ (.inl rfl) (fun h => absurd rfl h),
        sound _ _ _ (.inl rfl) (fun h => absurd rfl h), sound _ _ _ (.inl rfl) (fun h => absurd rfl h),
        trivial⟩
  · exact recoveries_match_alerts plainNorms .llm (by decide) _
      ⟨sound _ _ _ (.inr rfl) (fun _ => by decide), sound _ _ _ (.inr rfl) (fun h => absurd rfl h),
        sound _ _ _ (.inr rfl) (fun h => absurd rfl h), sound _ _ _ (.inr rfl) (fun _ => by decide),
        sound _ _ _ (.inr rfl) (fun h => absurd rfl h), sound _ _ _ (.inr rfl) (fun h => absurd rfl h),
        trivial⟩

/-- The silent wave, with a snooze that begins while it lasts: its end is told,
though nobody heard of its begin. So is the end of an episode that a mark has
kept back, once the mark is taken away. -/
theorem a_snooze_tells_a_silent_wave :
    (¬ ∀ k, k ∉ silentRecovery → ∀ is : List MarkedIn, (∀ i ∈ is, i.dev = false) →
        Along (heardStep plainNorms k) (HeardRight plainNorms k) ({}, {}) is) ∧
      ¬ Along (heardStep plainNorms .llm) (HeardRight plainNorms .llm) ({}, {})
        [plainTick true 0 2, plainTick false 100 0, plainTick false 1000 0] := by
  constructor
  · intro h
    have hrun := h .throttle (by decide) [plainTick false 0 2, plainTick false 100 0,
      plainTick false 1000 0, plainTick false 2000 2,
      { plainTick false 2100 0 with
        seen := { (plainTick false 2100 0).seen with quietBefore := true, quietSrv := true } }]
      (by simp [plainTick])
    exact absurd (hrun.2.2.2.2.1.recovery rfl (.inl (by decide))) (by decide)
  · intro hrun
    exact absurd (hrun.2.2.1.recovery rfl (.inl (by decide))) (by decide)

end Kervax
