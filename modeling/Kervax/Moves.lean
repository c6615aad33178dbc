-- What one pass through the body of the loop does with an episode: one case for
-- every move of its marks, with the messages and the writes that go with it.
import Kervax.Marks
import Kervax.FlapRuns

namespace Kervax

variable {k : Kind} {s : Seen} {c : Cond} {st : KindSt} {x : Carry}

/-! ## What the body does with an episode -/

/-- The state once the acknowledged batches are done. -/
def Carry.after (y : Carry) (fireAck recAck : Bool) : KindSt :=
  let st := if fireAck then applyAll y.out.fireApply y.st else y.st
  if recAck then applyAll y.out.recApply st else st

/-- Why a level above zero is looked at as a new one. -/
inductive Anew (k : Kind) (s : Seen) (c : Cond) (m : Marks) : Prop
  | zero (h : m.level = 0)
  | growth (h : k = .backupGrowth)
  | overdue (h : k ∉ noSettle) (t : Time) (ht : m.hush = some t) (hlong : againTell ≤ s.now - t)
      (hheld : heldOnly c.ctx = false)
  | thrash (h : isThrash k c = true) (hq : m.quiet ≠ none)
  | overrun (hk : k ∈ routineKinds) (t : Time) (hq : m.quiet = some t) (ht : t ≤ s.now)
      (hheld : heldOnly c.ctx = false)

/-- The silence of the routine after a change of the level: it is over where a
held episode has become news. -/
def QuietLeft (k : Kind) (s : Seen) (c : Cond) (m : Marks) (q : Option Time) : Prop :=
  q = m.quiet ∨ q = none ∧ (isThrash k c = true ∧ m.quiet ≠ none ∨
    k ∈ routineKinds ∧ 0 < c.level ∧ ∃ t, m.quiet = some t ∧ t ≤ s.now ∧ heldOnly c.ctx = false)

/-- An open level is compared as if there was none, or there is none. -/
def Reopened (k : Kind) (m : Marks) : Prop :=
  m.level = 0 ∨ k = .backupGrowth ∨ k ∉ noSettle ∧ m.hush ≠ none

/-- The change fills a series that was not told yet. -/
def FillsSeries (k : Kind) (s : Seen) (c : Cond) (st : KindSt) : Prop :=
  st.flap.muted = false ∧
    (k = .offline ∧ c.level ≠ st.level ∧ (c.level = 0 → st.offSaid = false) ∧ st.flap.full s.now ∨
      k ∈ flapMetricKinds ∧ 0 < c.level ∧ Anew k s c st.marks ∧ st.flap.metricFull k s.now)

/-- What a body that starts with the marks of `b` and ends with `y` has done
with the episode. -/
inductive BodyMove (nm : Norms) (k : Kind) (s : Seen) (c : Cond) (b y : Carry) : Prop
  | still (hm : ∀ fa ra, (y.after fa ra).marks = b.st.marks) (hf : y.out.fires = b.out.fires)
      (hr : y.out.recs = b.out.recs)
  /-- Up or down without a word, above zero. -/
  | shift (hl : 0 < c.level) (hp : 0 < b.st.level)
      (hm : ∀ fa ra, (y.after fa ra).marks = { b.st.marks with level := c.level })
      (hf : y.out.fires = b.out.fires) (hr : y.out.recs = b.out.recs)
  /-- A silent repeat begins. -/
  | again (hk : k ∉ noSettle) (hl : 0 < c.level) (hp : b.st.level = 0)
      (hm : ∀ fa ra, (y.after fa ra).marks =
        { b.st.marks with level := c.level, hush := some s.now })
      (hf : y.out.fires = b.out.fires) (hr : y.out.recs = b.out.recs)
  /-- A silent repeat ends. -/
  | hushed (hk : k ∉ noSettle) (hl : c.level = 0) (hh : b.st.hush ≠ none)
      (hm : ∀ fa ra, (y.after fa ra).marks = { b.st.marks with level := 0, hush := none })
      (hf : y.out.fires = b.out.fires) (hr : y.out.recs = b.out.recs)
  /-- The routine holds an episode. -/
  | held (hk : k ∈ routineKinds) (hl : 0 < c.level) (ha : Anew k s c b.st.marks) (t : Time)
      (hr : routineOf (routineStart b.st.hist s.now).dropLast s.now ≠ none)
      (hm : ∀ fa ra, (y.after fa ra).marks =
        { b.st.marks with level := c.level, quiet := some t })
      (hf : y.out.fires = b.out.fires) (hrec : y.out.recs = b.out.recs)
  /-- A held episode ends. -/
  | quietEnd (hk : k ∈ routineKinds) (hl : c.level = 0) (hq : b.st.quiet ≠ none)
      (hh : b.st.hush = none)
      (hm : ∀ fa ra, (y.after fa ra).marks = { b.st.marks with level := 0, quiet := none })
      (hf : y.out.fires = b.out.fires) (hr : y.out.recs = b.out.recs)
  /-- A lack of memory at level zero: no routine, and nothing else. -/
  | oddThrash (h : isThrash k c = true) (hl : c.level = 0) (hq : b.st.quiet ≠ none)
      (hm : ∀ fa ra, (y.after fa ra).marks = { b.st.marks with quiet := none })
      (hf : y.out.fires = b.out.fires) (hr : y.out.recs = b.out.recs)
  | alert (hl : 0 < c.level) (ha : Anew k s c b.st.marks ∨ 0 < b.st.level ∧ b.st.level < c.level)
      (q : Option Time) (hq : QuietLeft k s c b.st.marks q)
      (hkeep : q = none ∨ k ∉ routineKinds ∨ Reopened k b.st.marks)
      (hm : ∀ fa ra, (y.after fa ra).marks = if fa then
          ⟨c.level, none, q, if k = .offline then true else b.st.offSaid⟩
        else { b.st.marks with quiet := q })
      (hf : y.out.fires = b.out.fires ++ [⟨.alert, c.level, whoOf c.ctx⟩])
      (hr : y.out.recs = b.out.recs)
  | news (hk : k ∈ tracksMembers) (hl : 0 < c.level) (hp : c.level = b.st.level)
      (hnews : (membersOf nm k c ⟨b.st, b.st.level, {}⟩).news ≠ ∅) (objs : Finset String)
      (hm : ∀ fa ra, (y.after fa ra).marks = if fa then { b.st.marks with hush := none }
        else b.st.marks)
      (hf : y.out.fires = b.out.fires ++ [⟨.news, c.level, objs⟩]) (hr : y.out.recs = b.out.recs)
  /-- A flap guard keeps the change back. -/
  | swallowed (hk : k = .offline ∧ (c.level = 0 → b.st.offSaid = false) ∨
        k ∈ flapMetricKinds ∧ 0 < c.level) (hmuted : b.st.flap.muted = true)
      (q : Option Time) (hq : QuietLeft k s c b.st.marks q)
      (hm : ∀ fa ra, (y.after fa ra).marks = if fa then
          { b.st.marks with level := c.level, quiet := q }
        else { b.st.marks with quiet := q })
      (hf : y.out.fires = b.out.fires) (hr : y.out.recs = b.out.recs)
  | series (hk : FillsSeries k s c b.st) (hmuted : y.st.flap.muted = true) (n : Nat)
      (q : Option Time)
      (hq : QuietLeft k s c b.st.marks q)
      (hm : ∀ fa ra, (y.after fa ra).marks = if fa then
          { b.st.marks with level := c.level, quiet := q }
        else { b.st.marks with quiet := q })
      (hf : y.out.fires = b.out.fires ++ [⟨.flapping, n, ∅⟩]) (hr : y.out.recs = b.out.recs)
  /-- Back within a muted series, or a kind without recoveries. -/
  | backSilent (hl : c.level = 0)
      (hk : k ∈ flapMetricKinds ∧ b.st.flap.muted = true ∨ k ∈ silentRecovery)
      (hset : k ∈ noSettle ∨ b.st.hush = none)
      (hq : b.st.quiet = none ∨ k ∉ routineKinds ∨ isThrash k c = true)
      (hm : ∀ fa ra, (y.after fa ra).marks = { b.st.marks with level := 0 })
      (hf : y.out.fires = b.out.fires) (hr : y.out.recs = b.out.recs)
  | recovery (hl : c.level = 0) (hp : 0 < b.st.level)
      (hmuted : ¬ (k ∈ flapMetricKinds ∧ b.st.flap.muted = true)) (hk : k ∉ silentRecovery)
      (hset : k ∈ noSettle ∨ b.st.hush = none)
      (hq : b.st.quiet = none ∨ k ∉ routineKinds ∨ isThrash k c = true)
      (hoff : k = .offline → b.st.offSaid = true ∨ ¬ b.st.flap.full s.now)
      (hm : ∀ fa ra, (y.after fa ra).marks = if ra then
          ⟨0, b.st.hush, b.st.quiet, if k = .offline then false else b.st.offSaid⟩
        else b.st.marks)
      (hf : y.out.fires = b.out.fires) (hr : y.out.recs = b.out.recs ++ [⟨.recovery, 0, ∅⟩])
  | fixedTold (h : fixNow k s = true) (hp : 0 < b.st.level) (hq : b.st.quiet = none)
      (hh : b.st.hush = none)
      (hm : ∀ fa ra, (y.after fa ra).marks = if ra then
          ⟨0, none, none, if k = .offline then false else b.st.offSaid⟩
        else b.st.marks)
      (hf : y.out.fires = b.out.fires) (hr : y.out.recs = b.out.recs ++ [⟨.fixed, 0, ∅⟩])
  | fixedSilent (h : fixNow k s = true)
      (hq : 0 < b.st.level → b.st.quiet ≠ none ∨ b.st.hush ≠ none ∨ k = .backupGrowth)
      (hm : ∀ fa ra, (y.after fa ra).marks =
        ⟨0, none, none, if k = .offline then false else b.st.offSaid⟩)
      (hf : y.out.fires = b.out.fires) (hr : y.out.recs = b.out.recs)
  /-- All members are muted now: the closing goes to `quiet_closed`. -/
  | policy (hk : k ∈ tracksMembers) (hl : c.level = 0) (hp : 0 < b.st.level)
      (hold : s.sigQuiet (membersOf nm k c ⟨b.st, b.st.level, {}⟩).old = true)
      (hset : b.st.hush = none) (hc : y.out.closed = true)
      (hm : ∀ fa ra, (y.after fa ra).marks = if ra then
          { b.st.marks with level := 0, hush := none }
        else b.st.marks)
      (hf : y.out.fires = b.out.fires) (hr : y.out.recs = b.out.recs)

/-- Writes that leave the marks alone. -/
def Harmless (ws : List KWrite) : Prop := ∀ st : KindSt, (applyAll ws st).marks = st.marks

theorem harmless_nil : Harmless [] := fun _ => rfl

theorem harmless_append {ws vs : List KWrite} (hw : Harmless ws) (hv : Harmless vs) :
    Harmless (ws ++ vs) := fun st => by rw [applyAll_append, hv, hw]

/-- From `b` to `y` no message was added, and no write that touches a mark. -/
structure Quietly (b y : Carry) : Prop where
  fires : y.out.fires = b.out.fires
  recs : y.out.recs = b.out.recs
  fire : Harmless y.out.fireApply
  rec' : Harmless y.out.recApply

theorem Quietly.after {b y : Carry} (h : Quietly b y) (fa ra : Bool) :
    (y.after fa ra).marks = y.st.marks := by
  unfold Carry.after
  cases fa <;> cases ra <;> simp [h.fire _, h.rec' _]

theorem Quietly.with {b : Carry} (h : Quietly b b) (st : KindSt) (p : Nat) :
    Quietly b ⟨st, p, b.out⟩ := ⟨rfl, rfl, h.fire, h.rec'⟩

variable {nm : Norms} {b y z : Carry}

/-- What the members make of the carry, apart from messages. -/
theorem MembersEnd.quietly (h : MembersEnd nm k s c x (.next y)) (hx : Quietly b x) :
    Quietly b y ∧ y.st.marks = x.st.marks ∧ y.prev = x.prev ∧ y.st.flap = x.st.flap := by
  cases h with
  | untracked => exact ⟨hx, rfl, rfl, rfl⟩
  | rise =>
    exact ⟨⟨hx.fires, hx.recs, harmless_append hx.fire fun _ => rfl, hx.rec'⟩, rfl, rfl, rfl⟩
  | lower => exact ⟨⟨hx.fires, hx.recs, hx.fire, hx.rec'⟩, rfl, rfl, rfl⟩
  | zero =>
    exact ⟨⟨hx.fires, hx.recs, hx.fire, harmless_append hx.rec' fun _ => rfl⟩, rfl, rfl, rfl⟩

theorem ThrashPass.quietly (h : ThrashPass k c x y) (hx : Quietly b x) : Quietly b y := by
  cases h with
  | none => exact hx
  | lifts => exact ⟨hx.fires, hx.recs, hx.fire, hx.rec'⟩

theorem RoutineEnd.quietly {r : BodyFlow Carry} (h : RoutineEnd k s c x r) (hx : Quietly b x) :
    Quietly b r.out := by
  cases h <;> exact ⟨hx.fires, hx.recs, hx.fire, hx.rec'⟩

theorem SameEnd.quietly {r : BodyFlow Carry} {top : Nat} (h : SameEnd k c top x r)
    (hx : Quietly b x) : Quietly b r.out := by
  cases h <;> exact ⟨hx.fires, hx.recs, hx.fire, hx.rec'⟩

/-- What the body has come to when it reaches the members. -/
theorem AtMembers.facts (h : AtMembers k s c b x) :
    x.out = b.out ∧ (x.st = b.st ∨ x.st = b.st.stirred) ∧
      (x.prev = b.st.level ∨ x.prev = 0 ∧ 0 < c.level ∧ Anew k s c b.st.marks) ∧
      (x.prev = 0 → Reopened k b.st.marks) ∧
      (c.level = 0 → x.prev = b.st.level ∧ (0 < x.prev → k ∈ noSettle ∨ b.st.hush = none)) := by
  obtain ⟨p, hp, hs⟩ := h.settle
  have hprev : p = b.st.level ∨ p = 0 ∧ 0 < c.level ∧ Anew k s c b.st.marks := by
    rcases hp with hp | ⟨h0, hk, hl, -⟩
    · exact .inl hp
    · exact .inr ⟨h0, hl, .growth hk⟩
  have hreopen : p = 0 → Reopened k b.st.marks := by
    intro h0
    rcases hp with hp | ⟨-, hk, -⟩
    · exact .inl (hp.symm.trans h0)
    · exact .inr (.inl hk)
  have hzero : c.level = 0 → p = b.st.level := by
    intro h0
    rcases hprev with hp | ⟨-, hl, -⟩
    · exact hp
    · omega
  cases hs with
  | own hk => exact ⟨rfl, .inl rfl, hprev, hreopen, fun h0 => ⟨hzero h0, fun _ => .inl hk⟩⟩
  | overdue hk hl _ t ht hlong hheld =>
    refine ⟨rfl, .inr rfl, .inr ⟨rfl, hl, .overdue hk t ht hlong hheld⟩, fun _ => ?_,
      fun h0 => ?_⟩
    · exact .inr (.inr ⟨hk, fun hno => nomatch ht.symm.trans hno⟩)
    · omega
  | trouble _ hl =>
    refine ⟨rfl, .inr rfl, hprev, hreopen, fun h0 => ?_⟩
    omega
  | settled _ hl hh =>
    exact ⟨rfl, .inl rfl, hprev, hreopen, fun h0 => ⟨hzero h0, fun h => .inr (hh h).1⟩⟩

/-- The carry `y` between the settle rules and the level, whatever was queued
quietly: what is left of the marks of `b`, and why `prev` is what it is. -/
structure OnTheWay (k : Kind) (s : Seen) (c : Cond) (b y : Carry) : Prop where
  quietly : Quietly b y
  level : y.st.level = b.st.level
  hush : y.st.hush = b.st.hush
  said : y.st.offSaid = b.st.offSaid
  muted : y.st.flap.muted = b.st.flap.muted
  quiet : QuietLeft k s c b.st.marks y.st.quiet
  prev : y.prev = b.st.level ∨ y.prev = 0 ∧ (0 < c.level ∧ Anew k s c b.st.marks ∨
    isThrash k c = true ∧ b.st.quiet ≠ none ∧ y.st.quiet = none)
  kept : 0 < y.prev → y.st.quiet = b.st.quiet
  anewQuiet : y.prev = 0 → y.st.quiet = none ∨ Reopened k b.st.marks
  calm : c.level = 0 → 0 < y.prev → k ∈ noSettle ∨ b.st.hush = none

theorem OnTheWay.of_atMembers (h : AtMembers k s c b x) (hq : Quietly b b) :
    OnTheWay k s c b x := by
  obtain ⟨hout, hst, hprev, hreopen, hcalm⟩ := h.facts
  have hquiet : Quietly b x := by
    refine ⟨?_, ?_, ?_, ?_⟩ <;> rw [hout]
    · exact hq.fire
    · exact hq.rec'
  have hp : x.prev = b.st.level ∨ x.prev = 0 ∧ (0 < c.level ∧ Anew k s c b.st.marks ∨
      isThrash k c = true ∧ b.st.quiet ≠ none ∧ x.st.quiet = none) := by
    rcases hprev with hp | ⟨h0, hl, ha⟩
    · exact .inl hp
    · exact .inr ⟨h0, .inl ⟨hl, ha⟩⟩
  have hfield : x.st.level = b.st.level ∧ x.st.hush = b.st.hush ∧ x.st.offSaid = b.st.offSaid ∧
      x.st.flap.muted = b.st.flap.muted ∧ x.st.quiet = b.st.quiet := by
    rcases hst with hst | hst <;> rw [hst] <;> exact ⟨rfl, rfl, rfl, rfl, rfl⟩
  obtain ⟨h1, h2, h3, h4, h5⟩ := hfield
  exact ⟨hquiet, h1, h2, h3, h4, .inl h5, hp, fun _ => h5, fun h0 => .inr (hreopen h0),
    fun h0 => (hcalm h0).2⟩

theorem OnTheWay.members (h : OnTheWay k s c b x) (hm : MembersEnd nm k s c x (.next y)) :
    OnTheWay k s c b y := by
  obtain ⟨hq, hmarks, hprev, hflap⟩ := hm.quietly h.quietly
  simp only [KindSt.marks, Marks.mk.injEq] at hmarks
  obtain ⟨h1, h2, h3, h4⟩ := hmarks
  refine ⟨hq, h1.trans h.level, h2.trans h.hush, h4.trans h.said,
    (congrArg Flap.muted hflap).trans h.muted,
    ?_, ?_, ?_, ?_, ?_⟩
  · rw [h3]
    exact h.quiet
  · rw [hprev, h3]
    exact h.prev
  · rw [hprev, h3]
    exact h.kept
  · rw [hprev, h3]
    exact h.anewQuiet
  · rw [hprev]
    exact h.calm

theorem OnTheWay.thrash (h : OnTheWay k s c b x) (hb : x.st.quiet = b.st.quiet)
    (ht : ThrashPass k c x y) : OnTheWay k s c b y := by
  cases ht with
  | none => exact h
  | lifts hi hq =>
    have hne : b.st.quiet ≠ none := by
      rw [← hb]
      exact Option.isSome_iff_ne_none.1 hq
    refine ⟨⟨h.quietly.fires, h.quietly.recs, h.quietly.fire, h.quietly.rec'⟩, h.level, h.hush,
      h.said, h.muted, .inr ⟨rfl, .inl ⟨hi, hne⟩⟩, .inr ⟨rfl, .inr ⟨hi, hne, rfl⟩⟩,
      fun hp => ?_, fun _ => .inl rfl, fun _ hp => ?_⟩
    · exact absurd hp (lt_irrefl 0)
    · exact absurd hp (lt_irrefl 0)

/-- A silence that is still there was there at the start. -/
theorem OnTheWay.quiet_some {t : Time} (h : OnTheWay k s c b y) (hq : y.st.quiet = some t) :
    b.st.quiet = some t := by
  rcases h.quiet with heq | ⟨hnone, -⟩
  · rw [← hq, heq]
    rfl
  · rw [hq] at hnone
    cases hnone

theorem OnTheWay.anew (h : OnTheWay k s c b y) (hp : y.prev = 0) : Anew k s c b.st.marks := by
  rcases h.prev with heq | ⟨-, ⟨-, ha⟩ | ⟨hi, hq, -⟩⟩
  · exact .zero (heq.symm.trans hp)
  · exact ha
  · exact .thrash hi hq

theorem OnTheWay.prev_pos (h : OnTheWay k s c b y) (hp : 0 < y.prev) : y.prev = b.st.level := by
  rcases h.prev with heq | ⟨h0, -⟩
  · exact heq
  · omega

/-- What the routine has let pass: a silence that it does not know of. -/
structure PastRoutine (k : Kind) (c : Cond) (b z : Carry) : Prop where
  zero : c.level = 0 → 0 < z.prev → b.st.quiet = none ∨ k ∉ routineKinds ∨ isThrash k c = true
  up : 0 < c.level → z.st.quiet = none ∨ k ∉ routineKinds ∨ Reopened k b.st.marks

/-- The history is not among the marks. -/
theorem OnTheWay.with_hist (h : OnTheWay k s c b y) (l : List Episode) :
    OnTheWay k s c b { y with st := { y.st with hist := l } } :=
  ⟨⟨h.quietly.fires, h.quietly.recs, h.quietly.fire, h.quietly.rec'⟩, h.level, h.hush, h.said,
    h.muted, h.quiet, h.prev, h.kept, h.anewQuiet, h.calm⟩

theorem OnTheWay.routine (h : OnTheWay k s c b y)
    (hthrash : isThrash k c = true → y.st.quiet = none)
    (hr : RoutineEnd k s c y (.next z)) : OnTheWay k s c b z ∧ PastRoutine k c b z := by
  cases hr with
  | off hoff =>
    refine ⟨h, fun _ _ => .inr (by tauto), fun _ => ?_⟩
    rcases hoff with hno | hi
    · exact .inr (.inl hno)
    · exact .inl (hthrash hi)
  | cools _ hl _ _ hq => exact ⟨h.with_hist _, fun h0 => by omega, fun _ => .inl hq⟩
  | begins _ hl hp =>
    refine ⟨h.with_hist _, fun h0 => by omega, fun _ => ?_⟩
    rcases h.anewQuiet hp with hq | hre
    · exact .inl hq
    · exact .inr (.inr hre)
  | overrun hk hl hp hheld t hq ht =>
    have hb := h.quiet_some hq
    have hquiet := h.quietly
    refine ⟨⟨⟨hquiet.fires, hquiet.recs, hquiet.fire, hquiet.rec'⟩, h.level, h.hush, h.said,
      h.muted, ?_, ?_, ?_, fun _ => .inl rfl, ?_⟩, fun h0 => by omega, fun _ => .inl rfl⟩
    · exact .inr ⟨rfl, .inr ⟨hk, hl, t, hb, ht, hheld⟩⟩
    · exact .inr ⟨rfl, .inl ⟨hl, .overrun hk t hb ht hheld⟩⟩
    · intro hpos
      exact absurd hpos (lt_irrefl 0)
    · intro h0
      omega
  | goesOn _ hl _ _ hq => exact ⟨h.with_hist _, fun h0 => by omega, fun _ => .inl hq⟩
  | ends _ hl hp hq =>
    refine ⟨h.with_hist _, fun _ _ => .inl ?_, fun h0 => by omega⟩
    rw [← h.kept hp, hq]
  | none _ hl hp =>
    refine ⟨h, fun _ hpos => ?_, fun h0 => by omega⟩
    omega

/-- The silence is still that of the start behind the members. -/
theorem AtMembers.quiet_members (hx : AtMembers k s c b x) (hm : MembersEnd nm k s c x (.next y)) :
    y.st.quiet = b.st.quiet := by
  have hquiet : y.st.quiet = x.st.quiet := by
    cases hm <;> rfl
  rw [hquiet]
  rcases hx.facts.2.1 with hst | hst
  all_goals
    rw [hst]
    try rfl

/-- And so is the guard of the link, up to the level. -/
theorem AtLevel.flap (h : AtLevel nm k s c x z) (hx : AtMembers k s c b x) :
    z.st.flap = b.st.flap := by
  obtain ⟨y, y', hm, ht, hr⟩ := h.path
  have h1 : z.st.flap = y'.st.flap := by
    cases hr <;> rfl
  have h2 : y'.st.flap = y.st.flap := by
    cases ht <;> rfl
  have h3 : y.st.flap = x.st.flap := by
    cases hm <;> rfl
  rw [h1, h2, h3]
  rcases hx.facts.2.1 with hst | hst
  all_goals
    rw [hst]
    try rfl

theorem AtLevel.onTheWay (h : AtLevel nm k s c x z) (hx : AtMembers k s c b x) (hb : Quietly b b) :
    OnTheWay k s c b z ∧ PastRoutine k c b z := by
  obtain ⟨y, y', hm, ht, hr⟩ := h.path
  have hway := OnTheWay.of_atMembers hx hb
  refine ((hway.members hm).thrash (hx.quiet_members hm) ht).routine (fun hi => ?_) hr
  cases ht with
  | none hno => exact not_not.1 fun hne => hno ⟨hi, Option.isSome_iff_ne_none.2 hne⟩
  | lifts => rfl

/-- The history is that of the start, up to the routine. -/
theorem AtMembers.hist (hx : AtMembers k s c b x) (hm : MembersEnd nm k s c x (.next y))
    (ht : ThrashPass k c y z) : z.st.hist = b.st.hist := by
  have h1 : z.st.hist = y.st.hist := by
    cases ht <;> rfl
  have h2 : y.st.hist = x.st.hist := by
    cases hm <;> rfl
  rw [h1, h2]
  rcases hx.facts.2.1 with hst | hst
  all_goals
    rw [hst]
    try rfl

/-! ## The cases of the body -/

theorem noMarks_queued {b : Carry} (hf : b.out.fireApply = []) (hr : b.out.recApply = []) :
    Quietly b b := by
  refine ⟨rfl, rfl, ?_, ?_⟩
  · rw [hf]
    exact harmless_nil
  · rw [hr]
    exact harmless_nil

/-- The members are counted from the stored ones and from whether there was a
level to compare with. -/
theorem membersOf_congr {x y : Carry} (hsig : x.st.sig = y.st.sig) (htold : x.st.told = y.st.told)
    (hp : 0 < x.prev ↔ 0 < y.prev) : membersOf nm k c x = membersOf nm k c y := by
  simp only [membersOf, hsig, htold, hp]

theorem AtMembers.membersOf_eq (h : AtMembers k s c b x) (hp : x.prev = b.st.level) :
    membersOf nm k c x = membersOf nm k c ⟨b.st, b.st.level, {}⟩ := by
  obtain ⟨-, hst, -⟩ := h.facts
  refine membersOf_congr ?_ ?_ (by rw [hp])
  all_goals
    rcases hst with hst | hst
    all_goals
      rw [hst]
      try rfl

theorem PrevOf.pos {p : Nat} (h : PrevOf k c b p) (hp : 0 < p) : p = b.st.level := by
  rcases h with heq | ⟨h0, -⟩
  · exact heq
  · omega

theorem swallow_marks (w : Was) (st : KindSt) : (swallow s c w st).marks =
    { st.marks with level := c.level, hush := some s.now } := by
  unfold swallow
  dsimp only
  split
  · rfl
  · split <;> rfl

theorem closeHushed_marks (hk : k ≠ .offline) : (closeHushed k s x).marks =
    { x.st.marks with level := 0, hush := none } := by
  have h := closedSt_marks k x.st
  rw [if_neg hk] at h
  exact h

theorem SettleEnd.move {p : Nat} (hp : PrevOf k c b p) (hq : Quietly b b)
    (h : SettleEnd k s c { b with prev := p } (.done y)) : BodyMove nm k s c b y := by
  cases h with
  | again hk hl h0 w _ =>
    have hlevel : b.st.level = 0 := by
      rcases hp with heq | ⟨-, hgrowth, -⟩
      · exact heq.symm.trans h0
      · exact absurd (by rw [hgrowth]; decide) hk
    refine .again hk hl hlevel (fun fa ra => ?_) rfl rfl
    rw [(hq.with _ _).after]
    exact swallow_marks w _
  | calms => exact .still (hq.with _ _).after rfl rfl
  | waits => exact .still (hq.with _ _).after rfl rfl
  | hushed hk hl _ hh =>
    have hoff : k ≠ .offline := fun h => hk (by rw [h]; decide)
    refine .hushed hk hl hh (fun fa ra => ?_) rfl rfl
    rw [(hq.with _ _).after]
    exact closeHushed_marks hoff

theorem FixedEnd.move {p : Nat} (hp : PrevOf k c b p) (hf : b.out.fireApply = [])
    (hr : b.out.recApply = []) (h : FixedEnd k s { b with prev := p } (.done y)) :
    BodyMove nm k s c b y := by
  cases h with
  | told hfix hpos hq hh =>
    refine .fixedTold hfix ?_ hq hh (fun fa ra => ?_) rfl rfl
    · rw [← hp.pos hpos]
      exact hpos
    · unfold Carry.after
      cases fa <;> cases ra <;> simp [hf, hr, fixedTail_marks]
  | silent hfix hq =>
    refine .fixedSilent hfix (fun hl => ?_) (fun fa ra => ?_) rfl rfl
    · rcases hp with heq | ⟨-, hgrowth, -⟩
      · rcases hq (heq ▸ hl) with h | h
        · exact .inl h
        · exact .inr (.inl h)
      · exact .inr (.inr hgrowth)
    · rw [((noMarks_queued hf hr).with _ _).after]
      exact fixedTail_marks
  | nothing => exact .still ((noMarks_queued hf hr).with _ _).after rfl rfl

theorem MembersEnd.move (hx : AtMembers k s c b x) (hf : b.out.fireApply = [])
    (hr : b.out.recApply = []) (h : MembersEnd nm k s c x (.done y)) : BodyMove nm k s c b y := by
  obtain ⟨hout, hst, hprev, -, hcalm⟩ := hx.facts
  have hmarks : x.st.marks = b.st.marks := by
    rcases hst with hst | hst <;> (rw [hst]; try rfl)
  have hlevel : 0 < x.prev → x.prev = b.st.level := by
    intro hpos
    rcases hprev with heq | ⟨h0, -⟩
    · exact heq
    · omega
  -- nothing but the stored members changes
  have hstill : y.out = x.out → y.st.marks = x.st.marks → BodyMove nm k s c b y := by
    intro ho hm
    have hquiet : Quietly b y := by
      have h := (noMarks_queued hf hr).with y.st y.prev
      rwa [← hout, ← ho] at h
    exact .still (fun fa ra => by rw [hquiet.after, hm, hmarks]) hquiet.fires hquiet.recs
  cases h with
  | policy hk hp hl hold hq =>
    have hpl := hlevel hp
    refine .policy hk hl (hpl ▸ hp) ?_ ?_ rfl (fun fa ra => ?_) (by rw [hout]) (by rw [hout])
    · rw [← hx.membersOf_eq hpl]
      exact hq
    · rcases (hcalm hl).2 hp with hno | hh
      · exact absurd hno (tracks_noSettle hk)
      · exact hh
    · rw [← hmarks]
      unfold Carry.after
      cases fa <;> cases ra <;> simp [hout, hf, hr, KWrite.set, KindSt.marks]
  | story => exact hstill rfl rfl
  | news hk hl h0 hnews =>
    have hpl : x.prev = b.st.level := hlevel (hl ▸ h0)
    refine .news hk h0 (hl.trans hpl) ?_ (membersOf nm k c x).new (fun fa ra => ?_) (by rw [hout])
      (by rw [hout])
    · rw [← hx.membersOf_eq hpl]
      exact hnews
    · rw [← hmarks]
      unfold Carry.after
      cases fa <;> cases ra <;>
        simp only [hout, hf, hr, List.nil_append, applyAll_append, applyAll_nil, tellMembers_marks,
          applyAll_onlyIf, if_true, Bool.false_eq_true, if_false]
      all_goals
        split
        · rfl
        · rename_i hh
          simp only [KindSt.marks, not_not.1 hh]
  | resig => exact hstill rfl rfl
  | still => exact hstill rfl rfl
  | climb hk hlt hp _ _ =>
    refine .shift (by omega) (hlevel hp ▸ hp) (fun fa ra => ?_) (by rw [hout]) (by rw [hout])
    rw [← hmarks]
    unfold Carry.after
    cases fa <;> cases ra <;> simp [hout, hf, hr, KindSt.marks]

/-- The marks on the way, as far as the level is concerned. -/
theorem OnTheWay.marks (h : OnTheWay k s c b y) :
    y.st.marks = { b.st.marks with quiet := y.st.quiet } := by
  simp only [KindSt.marks, h.level, h.hush, h.said]

theorem OnTheWay.marks_kept (h : OnTheWay k s c b y) (hp : 0 < y.prev) :
    y.st.marks = b.st.marks := by
  rw [h.marks, h.kept hp]
  rfl

theorem RoutineEnd.move (h : OnTheWay k s c b y) (hh : y.st.hist = b.st.hist)
    (hr : RoutineEnd k s c y (.done z)) :
    BodyMove nm k s c b z := by
  have hquiet : Quietly b z := hr.quietly h.quietly
  cases hr with
  | coolsQuiet _ _ hp =>
    refine .still (fun fa ra => ?_) hquiet.fires hquiet.recs
    rw [hquiet.after]
    exact h.marks_kept hp
  | held hk hl hp r hr =>
    refine .held hk hl (h.anew hp) (r.2 + routineOver) ?_ (fun fa ra => ?_) hquiet.fires hquiet.recs
    · rw [← hh, hr]
      exact Option.some_ne_none r
    rw [hquiet.after]
    simp only [KindSt.marks, h.hush, h.said]
  | usual _ hl hp =>
    refine .shift hl ?_ (fun fa ra => ?_) hquiet.fires hquiet.recs
    · rw [← h.prev_pos hp]
      exact hp
    · rw [hquiet.after]
      simp only [KindSt.marks, h.hush, h.said, h.kept hp]
  | quietEnd hk hl hp t hq =>
    have hb := h.quiet_some hq
    refine .quietEnd hk hl (by simp [hb]) ?_ (fun fa ra => ?_) hquiet.fires hquiet.recs
    · rcases h.calm hl hp with hno | hh
      · exact absurd hk (noSettle_routine hno)
      · exact hh
    · rw [hquiet.after]
      simp only [KindSt.marks, h.hush, h.said]

theorem SameEnd.move {top : Nat} (h : OnTheWay k s c b z) (hs : SameEnd k c top z (.done y)) :
    BodyMove nm k s c b y := by
  have hquiet : Quietly b y := hs.quietly h.quietly
  cases hs with
  | same heq =>
    by_cases hp : 0 < y.prev
    · refine .still (fun fa ra => ?_) hquiet.fires hquiet.recs
      rw [hquiet.after]
      exact h.marks_kept hp
    have hl : c.level = 0 := by omega
    rcases h.quiet with hq | ⟨hnone, ⟨hi, hne⟩ | ⟨-, hpos, -⟩⟩
    · refine .still (fun fa ra => ?_) hquiet.fires hquiet.recs
      rw [hquiet.after, h.marks, hq]
    · refine .oddThrash hi hl hne (fun fa ra => ?_) hquiet.fires hquiet.recs
      rw [hquiet.after, h.marks, hnone]
    · omega
  | climb _ hlt hp =>
    refine .shift (by omega) (h.prev_pos hp ▸ hp) (fun fa ra => ?_) hquiet.fires hquiet.recs
    rw [hquiet.after]
    simp only [KindSt.marks, h.hush, h.said, h.kept hp]

theorem OnTheWay.after_still (h : OnTheWay k s c b z) (st : KindSt) (p : Nat) (fa ra : Bool) :
    (Carry.after ⟨st, p, z.out⟩ fa ra).marks = st.marks :=
  Quietly.after (b := b) (y := ⟨st, p, z.out⟩)
    ⟨h.quietly.fires, h.quietly.recs, h.quietly.fire, h.quietly.rec'⟩ fa ra

/-- The last batch of the body, on top of what was queued quietly. -/
theorem OnTheWay.fireBatch (h : OnTheWay k s c b z) {A : List KWrite} {f : Marks → Marks}
    (hf : ∀ st, (applyAll A st).marks = f st.marks) (st : KindSt) (p : Nat) (ns ms : List Notice)
    (cl fa ra : Bool) :
    (Carry.after ⟨st, p, ⟨ns, z.out.fireApply ++ A, ms, z.out.recApply, cl⟩⟩ fa ra).marks =
      if fa then f st.marks else st.marks := by
  unfold Carry.after
  cases fa <;> cases ra <;> simp [hf, h.quietly.fire _, h.quietly.rec' _]

theorem OnTheWay.recBatch (h : OnTheWay k s c b z) {A : List KWrite} {f : Marks → Marks}
    (hf : ∀ st, (applyAll A st).marks = f st.marks) (st : KindSt) (p : Nat) (ns ms : List Notice)
    (cl fa ra : Bool) :
    (Carry.after ⟨st, p, ⟨ns, z.out.fireApply, ms, z.out.recApply ++ A, cl⟩⟩ fa ra).marks =
      if ra then f st.marks else st.marks := by
  unfold Carry.after
  cases fa <;> cases ra <;> simp [hf, h.quietly.fire _, h.quietly.rec' _]

/-- A change that a guard keeps back takes its level only. -/
theorem OnTheWay.levelBatch (h : OnTheWay k s c b z) (f : Flap) (p : Nat) (ns ms : List Notice)
    (cl fa ra : Bool) :
    (Carry.after
      ⟨{ z.st with flap := f }, p, ⟨ns, z.out.fireApply ++ [.level c.level], ms, z.out.recApply, cl⟩⟩
      fa ra).marks =
      if fa then { b.st.marks with level := c.level, quiet := z.st.quiet }
      else { b.st.marks with quiet := z.st.quiet } := by
  refine (h.fireBatch (f := fun m => { m with level := c.level }) (fun _ => rfl) ..).trans ?_
  change (if fa then { z.st.marks with level := c.level } else z.st.marks) = _
  rw [h.marks]

/-- The link is compared with its stored level. -/
theorem OnTheWay.link (h : OnTheWay k s c b z) (hk : k = .offline) (hne : c.level ≠ z.prev) :
    c.level ≠ b.st.level := by
  have hset : k ∈ noSettle := by
    rw [hk]
    decide
  rcases h.prev with heq | ⟨h0, ⟨-, ha⟩ | ⟨hi, -⟩⟩
  · rwa [← heq]
  · cases ha with
    | zero hz =>
      have hz : b.st.level = 0 := hz
      omega
    | growth hg => exact absurd (hk.symm.trans hg) (by decide)
    | overdue hno => exact absurd hset hno
    | thrash hi => exact absurd hi (by simp [isThrash, hk])
    | overrun hr => exact absurd hr (noSettle_routine hset)
  · exact absurd hi (by simp [isThrash, hk])

theorem LinkPass.move (h : OnTheWay k s c b z) (hflap : z.st.flap = b.st.flap)
    (hne : c.level ≠ z.prev) (hl : LinkPass k s c z (.done y)) : BodyMove nm k s c b y := by
  have hunsaid : ¬ (c.level = 0 ∧ z.st.offSaid = true) → c.level = 0 → b.st.offSaid = false := by
    intro hno h0
    rw [← h.said]
    exact Bool.eq_false_iff.2 fun hsaid => hno ⟨h0, hsaid⟩
  cases hl with
  | swallowed hk hsaid _ hm =>
    refine .swallowed (.inl ⟨hk, hunsaid hsaid⟩) (h.muted ▸ hm) z.st.quiet h.quiet (fun fa ra => ?_)
      h.quietly.fires h.quietly.recs
    exact h.levelBatch _ _ _ _ _ _ _
  | series hk hsaid hfull hm =>
    rw [hflap] at hfull
    refine .series ⟨h.muted ▸ hm, .inl ⟨hk, h.link hk hne, hunsaid hsaid, hfull⟩⟩ rfl 2 z.st.quiet
      h.quiet (fun fa ra => ?_) (by rw [← h.quietly.fires]) h.quietly.recs
    exact h.levelBatch _ _ _ _ _ _ _

/-- One change of the link more is counted on the way. -/
theorem OnTheWay.counted (h : OnTheWay k s c b z) (f : Flap) (hf : f.muted = z.st.flap.muted) :
    OnTheWay k s c b { z with st := { z.st with flap := f } } :=
  ⟨⟨h.quietly.fires, h.quietly.recs, h.quietly.fire, h.quietly.rec'⟩, h.level, h.hush, h.said,
    hf.trans h.muted, h.quiet, h.prev, h.kept, h.anewQuiet, h.calm⟩

theorem ReportEnd.move {top : Nat} (h : OnTheWay k s c b z) (hne : c.level ≠ z.prev)
    (hflap : k ≠ .offline → z.st.flap = b.st.flap)
    (hq : PastRoutine k c b z)
    (hoff : k = .offline → c.level = 0 → b.st.offSaid = true ∨ ¬ b.st.flap.full s.now)
    (hr : ReportEnd k s c top z y) : BodyMove nm k s c b y := by
  have hmarks := h.marks
  have hpos : c.level = 0 → 0 < z.prev := by omega
  cases hr with
  | swallowed hlt hg hm =>
    refine .swallowed (.inr ⟨hg.2.1, by omega⟩) (h.muted ▸ hm) z.st.quiet h.quiet (fun fa ra => ?_)
      h.quietly.fires h.quietly.recs
    exact h.levelBatch _ _ _ _ _ _ _
  | series hlt hg hm hfull =>
    have hoff : k ≠ .offline := by
      rintro rfl
      exact absurd hg.2.1 (by decide)
    rw [hflap hoff] at hfull
    refine .series ⟨h.muted ▸ hm, .inr ⟨hg.2.1, by omega, h.anew hg.1, hfull⟩⟩ rfl 1 z.st.quiet
      h.quiet (fun fa ra => ?_) (by rw [← h.quietly.fires]) h.quietly.recs
    exact h.levelBatch _ _ _ _ _ _ _
  | alert hlt st' hst =>
    have hst' : st'.marks = z.st.marks := by
      rcases hst with ⟨-, rfl⟩ | ⟨-, rfl⟩ <;> rfl
    have ha : Anew k s c b.st.marks ∨ 0 < b.st.level ∧ b.st.level < c.level := by
      by_cases hp : 0 < z.prev
      · have := h.prev_pos hp
        exact .inr ⟨by omega, by omega⟩
      · exact .inl (h.anew (by omega))
    have hkeep : z.st.quiet = none ∨ k ∉ routineKinds ∨ Reopened k b.st.marks := hq.up (by omega)
    refine .alert (by omega) ha z.st.quiet h.quiet hkeep (fun fa ra => ?_) (by rw [← h.quietly.fires])
      h.quietly.recs
    refine (h.fireBatch (f := fun m => ⟨c.level, if st'.hush ≠ none then none else m.hush, m.quiet,
      if k = .offline then true else m.offSaid⟩) (fun st => alertWrites_marks top) _ _ _ _ _
      fa ra).trans ?_
    have hhush : (if st'.hush ≠ none then none else b.st.hush) = none := by
      simp only [KindSt.marks, Marks.mk.injEq] at hst'
      rw [hst'.2.1, h.hush]
      split
      · rfl
      · exact not_not.1 ‹_›
    rw [hst', hmarks]
    simp only [KindSt.marks, hhush]
  | backMuted hl hk hm =>
    refine .backSilent hl (.inl ⟨hk, h.muted ▸ hm⟩) (h.calm hl (hpos hl)) (hq.zero hl (hpos hl))
      (fun fa ra => ?_) h.quietly.fires h.quietly.recs
    rw [h.after_still]
    simp only [KindSt.marks, h.hush, h.said, h.kept (hpos hl)]
  | backSilent hl hk =>
    refine .backSilent hl (.inr hk) (h.calm hl (hpos hl)) (hq.zero hl (hpos hl))
      (fun fa ra => ?_) h.quietly.fires h.quietly.recs
    rw [h.after_still]
    simp only [KindSt.marks, h.hush, h.said, h.kept (hpos hl)]
  | backWaits hl =>
    refine .still (fun fa ra => ?_) h.quietly.fires h.quietly.recs
    rw [h.after_still]
    exact h.marks_kept (hpos hl)
  | back hl hm hk =>
    refine .recovery hl ?_ (h.muted ▸ hm) hk (h.calm hl (hpos hl)) (hq.zero hl (hpos hl))
      (fun ho => hoff ho hl) (fun fa ra => ?_) h.quietly.fires (by rw [← h.quietly.recs])
    · rw [← h.prev_pos (hpos hl)]
      exact hpos hl
    refine (h.recBatch (f := fun m => ⟨0, m.hush, m.quiet, if k = .offline then false else m.offSaid⟩)
      (fun st => recoveryWrites_marks) _ _ _ _ _ fa ra).trans ?_
    rw [h.marks_kept (hpos hl)]
    rfl
  | lower hl hle _ =>
    have hp : 0 < z.prev := by omega
    refine .shift hl (h.prev_pos hp ▸ hp) (fun fa ra => ?_) h.quietly.fires h.quietly.recs
    rw [h.after_still]
    simp only [KindSt.marks, h.hush, h.said, h.kept hp]
  | keeps hl hle _ =>
    refine .still (fun fa ra => ?_) h.quietly.fires h.quietly.recs
    rw [h.quietly.after]
    exact h.marks_kept (by omega)

/-- Every way through the body is one of the moves. -/
theorem BodyEnd.move (h : BodyEnd nm k s c b y) (hf : b.out.fireApply = [])
    (hr : b.out.recApply = []) : BodyMove nm k s c b y := by
  have hb := noMarks_queued hf hr
  cases h with
  | gates _ _ hg =>
    cases hg with
    | left => exact .still hb.after rfl rfl
    | muted _ h0 hlt =>
      refine .shift h0 (by omega) (fun fa ra => ?_) rfl rfl
      rw [(hb.with _ _).after]
      rfl
  | fixed _ p hp _ hfix => exact hfix.move hp hf hr
  | settle _ _ p hp _ hs => exact hs.move hp hb
  | night _ hx =>
    have hway := OnTheWay.of_atMembers hx hb
    obtain ⟨-, hst, -⟩ := hx.facts
    refine .still (fun fa ra => ?_) hway.quietly.fires hway.quietly.recs
    rw [hway.quietly.after]
    rcases hst with hst | hst
    all_goals
      rw [hst]
      try rfl
  | members _ hx _ hm => exact hm.move hx hf hr
  | routine x hx w w' hm ht _ hroutine =>
    have hway := OnTheWay.of_atMembers hx hb
    exact hroutine.move ((hway.members hm).thrash (hx.quiet_members hm) ht) (hx.hist hm ht)
  | same _ hx _ hz _ hs => exact hs.move (hz.onTheWay hx hb).1
  | link _ hx _ hz hs _ hl =>
    cases hs with
    | pass hne => exact hl.move (hz.onTheWay hx hb).1 (hz.flap hx) hne
  | report _ hx z hz hs w hw _ hrep =>
    obtain ⟨hway, hquiet⟩ := hz.onTheWay hx hb
    have hne : c.level ≠ z.prev := by
      cases hs
      assumption
    cases hw with
    | other hno =>
      refine hrep.move hway hne (fun _ => hz.flap hx) hquiet fun hk h0 => .inl ?_
      rcases hno with hno | ⟨-, hsaid⟩
      · exact absurd hk hno
      · rw [← hway.said]
        exact hsaid
    | rare hk hsaid hfull =>
      rw [hz.flap hx] at hfull
      exact hrep.move (hway.counted (z.st.flap.counted s.now) rfl) hne (absurd hk)
        ⟨hquiet.zero, hquiet.up⟩ fun _ _ => .inr hfull

/-- The guards are closed only with the message of a series. -/
theorem BodyEnd.guard (h : BodyEnd nm k s c b y) : y.st.flap.muted = b.st.flap.muted ∨
    y.st.flap.muted = true ∧ offers .flapping y.out.fires = true := by
  have hstart : ∀ x : Carry, AtMembers k s c b x → x.st.flap = b.st.flap := by
    intro x hx
    rcases hx.facts.2.1 with hst | hst
    all_goals
      rw [hst]
      try rfl
  cases h with
  | gates _ _ hg =>
    left
    cases hg <;> rfl
  | fixed _ p _ _ hfix =>
    left
    cases hfix with
    | silent =>
      dsimp only
      rw [applyAll_flap]
    | _ => rfl
  | settle _ _ p _ _ hs =>
    left
    cases hs with
    | again =>
      dsimp only
      rw [swallow_flap]
      rfl
    | hushed =>
      dsimp only [closeHushed]
      rw [closedSt_flap]
    | _ => rfl
  | night _ hx => exact .inl (by rw [hstart _ hx])
  | members x hx _ hm =>
    left
    rw [← hstart x hx]
    cases hm <;> rfl
  | routine x hx _ _ hm ht _ hr =>
    left
    rw [← hstart x hx]
    cases hm <;> cases ht <;> cases hr <;> rfl
  | same x hx z hz _ hs =>
    left
    rw [← hz.flap hx]
    cases hs <;> rfl
  | link x hx z hz _ _ hl =>
    rw [← hz.flap hx]
    cases hl with
    | swallowed => exact .inl rfl
    | series => exact .inr ⟨rfl, by simp [offers]⟩
  | report x hx z hz _ w hw _ hrep =>
    have hwm : w.st.flap.muted = b.st.flap.muted := by
      rw [← hz.flap hx]
      cases hw <;> rfl
    rw [← hwm]
    cases hrep with
    | series => exact .inr ⟨rfl, by simp [offers]⟩
    | alert _ st' hst => rcases hst with ⟨-, rfl⟩ | ⟨-, rfl⟩ <;> exact .inl rfl
    | _ => exact .inl rfl

/-- An entry of `quiet_closed` stays. -/
theorem BodyEnd.closed (h : BodyEnd nm k s c b y) (hb : b.out.closed = true) :
    y.out.closed = true := by
  have hstart : ∀ x : Carry, AtMembers k s c b x → x.out.closed = true := by
    intro x hx
    rw [hx.facts.1]
    exact hb
  have hlevel : ∀ x z : Carry, AtMembers k s c b x → AtLevel nm k s c x z → z.out.closed = true := by
    intro x z hx hz
    obtain ⟨v, w, hm, ht, hr⟩ := hz.path
    have h1 : v.out.closed = true := by
      cases hm <;> exact hstart x hx
    have h2 : w.out.closed = true := by
      cases ht <;> exact h1
    cases hr <;> exact h2
  cases h with
  | gates _ _ hg => cases hg <;> exact hb
  | fixed _ _ _ _ hfix => cases hfix <;> exact hb
  | settle _ _ _ _ _ hs => cases hs <;> exact hb
  | night _ hx => exact hstart _ hx
  | members _ hx _ hm =>
    have h1 := hstart _ hx
    cases hm with
    | policy => rfl
    | _ => exact h1
  | routine x hx v w hm ht _ hr =>
    have h1 : v.out.closed = true := by
      cases hm <;> exact hstart x hx
    have h2 : w.out.closed = true := by
      cases ht <;> exact h1
    cases hr <;> exact h2
  | same _ hx _ hz _ hs =>
    have h1 := hlevel _ _ hx hz
    cases hs <;> exact h1
  | link _ hx _ hz _ _ hl =>
    have h1 := hlevel _ _ hx hz
    cases hl <;> exact h1
  | report x hx z hz _ w hw _ hrep =>
    have h1 : w.out.closed = true := by
      cases hw <;> exact hlevel x z hx hz
    cases hrep <;> exact h1

end Kervax
