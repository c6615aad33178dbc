-- What a run has seen of the troubles of a kind, beside the history that the
-- routine keeps of them, and what is asked of a run so that the two agree.
import Kervax.HeardRuns

namespace Kervax

/-! ## What a run has seen -/

/-- The condition that the body compares, on a tick that gets past the gates. -/
def lookedAt (k : Kind) (s : Seen) (st : KindSt) : Option Cond :=
  if s.skip || s.quietSrv then none
  else (condNow k s).filter fun c =>
    match gates k s c (bodyStart k s c st) with
    | .next _ => true
    | .done _ => false

/-- The trouble is there, and not only the hold of its recovery. -/
def Cond.trouble (c : Cond) : Bool := 0 < c.level && !heldOnly c.ctx

/-- When the trouble went that is gone now. -/
def Cond.overAt (c : Cond) (now : Time) : Time :=
  if c.level = 0 then now else c.ctx.cool.getD now

/-- What a tick shows of the trouble. In a snooze it only shows that it is gone. -/
def shown (k : Kind) (s : Seen) (st : KindSt) : Option Cond :=
  if s.quietSrv && !s.skip then
    (condNow k s).filter fun c =>
      s.talking && s.fresh && !s.epoch && c.ctx.complete && !c.trouble
  else lookedAt k s st

structure RoutineLog where
  /-- An alert of the open episode was delivered. -/
  heard : Bool := false
  /-- The begin and the limit of the episode that is held. -/
  held : Option (Time × Time) := none
  /-- When the last trouble was first seen, and whether it is still there. -/
  last : Option Time := none
  going : Bool := false
  /-- The troubles that went by themselves: when they were first seen, and a time at
  which they were gone. -/
  passed : List (Time × Time) := []
  clock : Option Time := none

/-- What the tick has seen of the trouble. One that a person says is fixed did not
go by itself. -/
def RoutineLog.sees (g : RoutineLog) (k : Kind) (s : Seen) : Option Cond → RoutineLog
  | none => { g with clock := some s.now }
  | some c =>
    if c.trouble then
      { g with
        last := if g.going then g.last else some s.now
        going := true
        clock := some s.now }
    else if fixNow k s then { g with last := none, going := false, clock := some s.now }
    else
      { g with
        going := false
        passed := g.passed ++ g.last.toList.map fun a => (a, c.overAt s.now)
        clock := some s.now }

/-- A message about the trouble is offered. -/
def Out.tells (o : Out) : Bool := offers .alert o.fires || offers .news o.fires

/-- The log behind a tick that ends with `st`. -/
def RoutineLog.after (g : RoutineLog) (st : KindSt) (told : Bool) (now : Time) : RoutineLog :=
  let heard := st.level ≠ 0 && (g.heard || told)
  { g with
    heard := heard
    held :=
      if st.level = 0 ∨ heard then none
      else match st.quiet with
        | some t => some ((g.held.map Prod.fst).getD now, t)
        | none => g.held }

/-- A kind that retires is closed before anything else. -/
def RoutineLog.retired (g : RoutineLog) (r : Bool) : RoutineLog :=
  if r then { g with heard := false, held := none } else g

/-- The log once the tick has been seen, before anything is done about it. -/
def RoutineLog.now (g : RoutineLog) (k : Kind) (s : Seen) (st : KindSt) : RoutineLog :=
  (g.retired (retiresNow k s st)).sees k s (shown k s st)

def routineNext (nm : Norms) (k : Kind) (x : KindSt × RoutineLog) (i : KindIn) :
    KindSt × RoutineLog :=
  let r := kindTick nm k i.seen x.1
  let st := afterTick k i r
  (st, (x.2.now k i.seen x.1).after st (i.fireAck && r.2.tells) i.seen.now)

/-! ## What is asked of a tick -/

/-- On each of the days before, a trouble that was first seen around this time went
by itself. -/
def Usual (passed : List (Time × Time)) (now : Time) : Prop :=
  ∀ d : Nat, 1 ≤ d → d ≤ routineDays → ∃ e ∈ passed,
    apart e.1 (now - d * day) ≤ routineSlack ∧ e.1 ≤ e.2 ∧ e.2 - e.1 ≤ routineMax

/-- An episode is held only where it is usual, and what is there after its limit is
told. -/
structure RoutineRight (nm : Norms) (k : Kind) (x : KindSt × RoutineLog) (i : KindIn) : Prop where
  usual : ∀ h ∈ (routineNext nm k x i).2.held, Usual (routineNext nm k x i).2.passed h.1
  limit : ∀ h ∈ x.2.held, retiresNow k i.seen x.1 = false → ∀ c ∈ lookedAt k i.seen x.1,
    c.trouble = true → h.2 ≤ i.seen.now → (kindTick nm k i.seen x.1).2.tells = true

/-- Ticks come one after the other, and the hold of a recovery begins after the
trouble was seen. -/
structure RoutineTimely (k : Kind) (x : KindSt × RoutineLog) (i : KindIn) : Prop where
  order : ∀ t ∈ x.2.clock, t ≤ i.seen.now
  cool : ∀ c ∈ shown k i.seen x.1, ∀ t ∈ c.ctx.cool, t ≤ i.seen.now ∧ ∀ a ∈ x.2.last, a ≤ t

/-- The open entry of the history is the last trouble, or one that had gone by itself
before it. -/
def RoutineLog.Dates (g : RoutineLog) (hist : List Episode) : Prop :=
  ∀ a, hist.getLast? = some (a, none) → ∃ l ∈ g.last, a = l ∨ ∃ e, (a, e) ∈ g.passed ∧ e ≤ l

/-- A silent repeat lasts too long. -/
def overdueNow (s : Seen) (c : Cond) (st : KindSt) : Bool :=
  (st.hush.any fun t => againTell ≤ s.now - t) && !heldOnly c.ctx

/-- What the body is asked for, from the state that it begins with and the log of
what was seen up to now. -/
structure RoutineBody (nm : Norms) (k : Kind) (s : Seen) (c : Cond) (st : KindSt) (g : RoutineLog)
    (ack : Bool) : Prop where
  /-- Nobody is muted within a held episode. -/
  policy : st.quiet ≠ none → k ∈ tracksMembers → c.level = 0 →
    s.sigQuiet (membersOf nm k c ⟨st, st.level, {}⟩).old = false
  /-- A lack of memory has a level. -/
  thrash : st.quiet ≠ none → isThrash k c = true → 0 < c.level
  /-- A held episode that becomes news is told at the first attempt. -/
  told : ∀ t ∈ st.quiet, 0 < c.level → isThrash k c = true ∨ t ≤ s.now ∧ heldOnly c.ctx = false →
    ack = true
  /-- No silent repeat lasts so long that it is told after all. -/
  overdue : 0 < c.level → overdueNow s c st = false
  /-- What goes into the history as a begin is the begin of the trouble. -/
  begins : 0 < c.level → st.level = 0 → isThrash k c = false →
    againOf st c.level (whoOf c.ctx) s.now = none → g.last = some s.now
  /-- What opens without an entry of its own does not take over one that a person
  has closed. -/
  dated : 0 < c.level → st.level = 0 →
    isThrash k c = true ∨ againOf st c.level (whoOf c.ctx) s.now ≠ none → g.Dates st.hist
  /-- After the limit, the members of a held episode do not leave the body: its level
  has changed and is told, or somebody new is told. -/
  members : ∀ t ∈ st.quiet, t ≤ s.now → c.trouble = true → k ∈ tracksMembers →
    ((membersOf nm k c ⟨st, st.level, {}⟩).news = ∅ →
      c.level ≠ st.level ∧ (st.level < c.level → toldTop ⟨st, st.level, {}⟩ < c.level)) ∧
    (c.level = st.level → k ∈ sigStory → (st.said.any fun t => s.now - t < sigStoryS) = false)
  /-- And the guard of the metric does not keep it back. -/
  guard : ∀ t ∈ st.quiet, t ≤ s.now → c.trouble = true → k ∈ flapMetricKinds →
    st.flap.muted = false ∧ ¬ st.flap.metricFull k s.now

/-- What keeps the routine true. -/
structure RoutineSound (nm : Norms) (k : Kind) (x : KindSt × RoutineLog) (i : KindIn) : Prop where
  /-- What an onboarding withholds counts as delivered. -/
  onboarding : i.seen.onb = true → i.fireAck = true ∧ i.recAck = true
  /-- A snooze closes no held episode. -/
  snooze : i.seen.quietSrv = true → ∀ c ∈ condNow k i.seen, c.level = 0 → x.1.quiet = none ∧
    (k ∈ flapMetricKinds → x.1.flap.muted = true → x.1.hush = none)
  /-- A person's "fixed" is delivered at the first attempt. -/
  fixed : fixNow k i.seen = true → 0 < x.1.level → i.recAck = true
  body : ∀ c ∈ lookedAt k i.seen x.1,
    RoutineBody nm k i.seen c (bodyStart k i.seen c x.1).st (x.2.now k i.seen x.1) i.fireAck

variable {nm : Norms} {k : Kind} {s : Seen} {c : Cond} {st : KindSt} {g : RoutineLog}

/-! ## The history of episodes -/

variable {hist : List Episode} {now t a b : Time}

theorem mem_routineEnd {e : Episode} (h : e ∈ routineEnd hist t) :
    e ∈ hist ∨ ∃ a, hist.getLast? = some (a, none) ∧ e = (a, some t) := by
  unfold routineEnd at h
  split at h
  · rename_i a hlast
    rcases List.mem_append.1 h with h | h
    · exact .inl (List.mem_of_mem_dropLast h)
    · exact .inr ⟨a, hlast, List.mem_singleton.1 h⟩
  · exact .inl h

theorem getLast_routineEnd : (routineEnd hist t).getLast? ≠ some (a, none) := by
  unfold routineEnd
  split
  · simp
  · rename_i hno
    exact hno a

theorem mem_routineOpen {begun : Option Time} (h : (a, some b) ∈ routineOpen hist begun) :
    (a, some b) ∈ hist := by
  unfold routineOpen at h
  split at h
  · split at h
    · rcases List.mem_append.1 h with h | h
      · exact List.mem_of_mem_dropLast h
      · simp at h
    · exact h
  · exact h

/-- What is open now was open, or it is the last one that has ended. -/
theorem getLast_routineOpen {begun : Option Time}
    (h : (routineOpen hist begun).getLast? = some (a, none)) :
    hist.getLast? = some (a, none) ∨ ∃ b, hist.getLast? = some (a, some b) := by
  unfold routineOpen at h
  split at h
  · rename_i t a' b' hlast
    split at h
    · simp only [List.getLast?_append, List.getLast?_singleton, Option.some_or, Option.some.injEq,
        Prod.mk.injEq, and_true] at h
      exact .inr ⟨b', h ▸ hlast⟩
    · exact .inl h
  · exact .inl h

theorem mem_routineStart (h : (a, some b) ∈ routineStart hist now) : (a, some b) ∈ hist := by
  unfold routineStart at h
  rcases List.mem_append.1 (List.mem_of_mem_drop h) with h | h
  · exact (List.mem_filter.1 h).1
  · simp at h

theorem getLast_routineStart : (routineStart hist now).getLast? = some (now, none) := by
  unfold routineStart
  dsimp only
  rw [List.getLast?_drop, if_neg (by simp only [List.length_append, List.length_singleton]; omega)]
  simp

theorem nearest_mem {t : Time} {e : Episode} {es : List Episode} (h : nearest t es = some e) :
    e ∈ es := by
  induction es generalizing e with
  | nil => cases h
  | cons x es ih =>
    unfold nearest at h
    split at h
    · cases h
      exact List.mem_cons_self
    · rename_i e' he'
      split at h
      · cases h
        exact List.mem_cons_of_mem _ (ih he')
      · cases h
        exact List.mem_cons_self

theorem routineSpan_some {d : Nat} (h : routineSpan hist now d ≠ none) :
    ∃ a b, (a, some b) ∈ hist ∧ apart a (now - d * day) ≤ routineSlack ∧ b - a ≤ routineMax := by
  unfold routineSpan at h
  dsimp only at h
  split at h
  · rename_i a b hn
    obtain ⟨hmem, hhit⟩ := List.mem_filter.1 (nearest_mem hn)
    simp only [routineHit, Bool.decide_and, Bool.and_eq_true, decide_eq_true_eq] at hhit
    exact ⟨a, b, hmem, hhit.1, hhit.2.2⟩
  · exact absurd rfl h

/-- What the routine goes by: an episode of each of the days before. -/
theorem routineOf_some (h : routineOf hist now ≠ none) (d : Nat) (h1 : 1 ≤ d) (h2 : d ≤ routineDays) :
    ∃ a b, (a, some b) ∈ hist ∧ apart a (now - d * day) ≤ routineSlack ∧ b - a ≤ routineMax := by
  have hspan : routineSpan hist now d ≠ none := by
    intro hno
    have hd : d = 1 ∨ d = 2 := by
      unfold routineDays at h2
      omega
    refine h ?_
    unfold routineOf
    rcases hd with rfl | rfl
    · rw [hno]
    · rw [hno]
      cases routineSpan hist now 1 <;> rfl
  exact routineSpan_some hspan

/-! ## The log -/

/-- The times of the log are in order, and a trouble that is gone went by itself,
unless nothing is known of it any more. -/
structure RoutineLog.Sane (g : RoutineLog) : Prop where
  ended : ∀ e ∈ g.passed, e.1 ≤ e.2 ∧ ∃ t ∈ g.clock, e.2 ≤ t
  last : ∀ l ∈ g.last, (∃ t ∈ g.clock, l ≤ t) ∧ ∀ e ∈ g.passed, e.1 ≠ l → e.2 ≤ l
  gone : g.going = false → ∀ l ∈ g.last, ∃ e ∈ g.passed, e.1 = l
  since : g.going = true → g.last ≠ none

theorem RoutineLog.sane_nothing : RoutineLog.Sane {} := ⟨by simp, by simp, by simp, by simp⟩

theorem sees_passed (g : RoutineLog) (o : Option Cond) {e : Time × Time} (h : e ∈ g.passed) :
    e ∈ (g.sees k s o).passed := by
  unfold RoutineLog.sees
  split
  · exact h
  split_ifs
  · exact h
  · exact h
  · exact h
  · exact List.mem_append_left _ h

theorem sees_held (g : RoutineLog) (o : Option Cond) :
    (g.sees k s o).held = g.held ∧ (g.sees k s o).heard = g.heard := by
  unfold RoutineLog.sees
  split
  · exact ⟨rfl, rfl⟩
  · split_ifs <;> exact ⟨rfl, rfl⟩

/-- A trouble that is gone now is over, at a time that is between. -/
theorem overAt_le (hc : ∀ t ∈ c.ctx.cool, t ≤ s.now ∧ ∀ l ∈ g.last, l ≤ t)
    (hn : ∀ l ∈ g.last, l ≤ s.now) :
    c.overAt s.now ≤ s.now ∧ ∀ l ∈ g.last, l ≤ c.overAt s.now := by
  unfold Cond.overAt
  split
  · exact ⟨le_refl _, hn⟩
  cases hcool : c.ctx.cool with
  | none => exact ⟨le_refl _, hn⟩
  | some t => exact hc t hcool

theorem RoutineLog.Sane.past (h : g.Sane) (ho : ∀ t ∈ g.clock, t ≤ s.now) :
    (∀ l ∈ g.last, l ≤ s.now) ∧ ∀ e ∈ g.passed, e.2 ≤ s.now := by
  constructor
  · intro l hl
    obtain ⟨⟨t, ht, hle⟩, -⟩ := h.last l hl
    exact le_trans hle (ho t ht)
  · intro e he
    obtain ⟨-, t, ht, hle⟩ := h.ended e he
    exact le_trans hle (ho t ht)

theorem RoutineLog.Sane.sees (h : g.Sane) {o : Option Cond} (ho : ∀ t ∈ g.clock, t ≤ s.now)
    (hc : ∀ c ∈ o, ∀ t ∈ c.ctx.cool, t ≤ s.now ∧ ∀ l ∈ g.last, l ≤ t) : (g.sees k s o).Sane := by
  obtain ⟨hlast, hover⟩ := h.past ho
  have hlater : ∀ l ∈ g.last, ∀ e ∈ g.passed, e.1 ≠ l → e.2 ≤ l := fun l hl => (h.last l hl).2
  unfold RoutineLog.sees
  split
  · exact ⟨fun e he => ⟨(h.ended e he).1, _, rfl, hover e he⟩,
      fun l hl => ⟨⟨_, rfl, hlast l hl⟩, hlater l hl⟩, h.gone, h.since⟩
  rename_i c
  split_ifs with h1 h2 h3
  · -- the trouble goes on
    exact ⟨fun e he => ⟨(h.ended e he).1, _, rfl, hover e he⟩,
      fun l hl => ⟨⟨_, rfl, hlast l hl⟩, hlater l hl⟩, fun hg => (nomatch hg), fun _ => h.since h2⟩
  · -- it begins now
    refine ⟨fun e he => ⟨(h.ended e he).1, _, rfl, hover e he⟩, fun l hl => ?_,
      fun hg => (nomatch hg), fun _ => Option.some_ne_none _⟩
    cases hl
    exact ⟨⟨_, rfl, le_refl _⟩, fun e he _ => hover e he⟩
  · exact ⟨fun e he => ⟨(h.ended e he).1, _, rfl, hover e he⟩, fun l hl => (nomatch hl),
      fun _ l hl => (nomatch hl), fun hg => (nomatch hg)⟩
  · -- it is gone
    obtain ⟨hat, hsince⟩ := overAt_le (hc c rfl) hlast
    refine ⟨fun e he => ?_, fun l hl => ⟨⟨_, rfl, hlast l hl⟩, fun e he hne => ?_⟩,
      fun _ l hl => ?_, fun hg => (nomatch hg)⟩
    · rcases List.mem_append.1 he with he | he
      · exact ⟨(h.ended e he).1, _, rfl, hover e he⟩
      · obtain ⟨l, hl, rfl⟩ := List.mem_map.1 he
        exact ⟨hsince l (Option.mem_toList.1 hl), _, rfl, hat⟩
    · rcases List.mem_append.1 he with he | he
      · exact hlater l hl e he hne
      · obtain ⟨l', hl', rfl⟩ := List.mem_map.1 he
        exact absurd (Option.mem_unique (Option.mem_toList.1 hl') hl) hne
    · exact ⟨_, List.mem_append_right _ (List.mem_map.2 ⟨l, Option.mem_toList.2 hl, rfl⟩), rfl⟩

/-- The open entry stays the entry of a trouble that the log knows. -/
theorem RoutineLog.Dates.sees (hd : g.Dates hist) (h : g.Sane) {o : Option Cond}
    (ho : ∀ t ∈ g.clock, t ≤ s.now) (hf : ∀ c ∈ o, fixNow k s = true → c.trouble = true) :
    (g.sees k s o).Dates hist := by
  obtain ⟨hlast, hover⟩ := h.past ho
  intro a ha
  obtain ⟨l, hl, hal⟩ := hd a ha
  cases o with
  | none => exact ⟨l, hl, hal⟩
  | some c =>
    unfold RoutineLog.sees
    dsimp only
    split_ifs with h1 h2 h3
    · exact ⟨l, hl, hal⟩
    · -- what was there before has gone
      refine ⟨s.now, rfl, .inr ?_⟩
      rcases hal with rfl | ⟨e, he, hle⟩
      · obtain ⟨e, he, rfl⟩ := h.gone (by simpa using h2) a hl
        exact ⟨e.2, he, hover e he⟩
      · exact ⟨e, he, le_trans hle (hlast l hl)⟩
    · exact absurd (hf c rfl h3) h1
    · refine ⟨l, hl, ?_⟩
      rcases hal with heq | ⟨e, he, hle⟩
      · exact .inl heq
      · exact .inr ⟨e, List.mem_append_left _ he, hle⟩

/-! ## The history and the log -/

/-- What has ended in the history went by itself, no later than it says. -/
def RoutineLog.Closed (g : RoutineLog) (hist : List Episode) : Prop :=
  ∀ a b, (a, some b) ∈ hist → ∃ e, (a, e) ∈ g.passed ∧ e ≤ b

theorem RoutineLog.Closed.sees (h : g.Closed hist) (o : Option Cond) : (g.sees k s o).Closed hist := by
  intro a b hab
  obtain ⟨e, he, hle⟩ := h a b hab
  exact ⟨e, sees_passed g o he, hle⟩

/-- Where the routine holds an episode, such episodes are usual. -/
theorem RoutineLog.Closed.usual (h : g.Closed hist) (hs : g.Sane)
    (hr : routineOf (routineStart hist now).dropLast now ≠ none) : Usual g.passed now := by
  intro d h1 h2
  obtain ⟨a, b, hmem, hat, hmax⟩ := routineOf_some hr d h1 h2
  obtain ⟨e, he, hle⟩ := h a b (mem_routineStart (List.mem_of_mem_dropLast hmem))
  refine ⟨(a, e), he, hat, (hs.ended _ he).1, ?_⟩
  have : e - a ≤ b - a := by linarith
  exact le_trans this hmax

theorem Usual.sees (h : Usual g.passed now) (o : Option Cond) : Usual (g.sees k s o).passed now := by
  intro d h1 h2
  obtain ⟨e, he, hd⟩ := h d h1 h2
  exact ⟨e, sees_passed g o he, hd⟩

/-- The last trouble is over now. -/
theorem sees_last (g : RoutineLog) (ht : c.trouble = false) (hf : fixNow k s = false) {l : Time}
    (hl : l ∈ g.last) : (l, c.overAt s.now) ∈ (g.sees k s (some c)).passed := by
  unfold RoutineLog.sees
  dsimp only
  rw [if_neg (by simp [ht]), if_neg (by simp [hf])]
  exact List.mem_append_right _ (List.mem_map.2 ⟨l, Option.mem_toList.2 hl, rfl⟩)

/-- An episode that ends now ends in the history. -/
theorem RoutineLog.Closed.ends (h : g.Closed hist) (hd : g.Dates hist) (hs : g.Sane)
    (ht : c.trouble = false) (hf : fixNow k s = false) (ho : ∀ t ∈ g.clock, t ≤ s.now)
    (hc : ∀ t ∈ c.ctx.cool, t ≤ s.now ∧ ∀ l ∈ g.last, l ≤ t) :
    (g.sees k s (some c)).Closed (routineEnd hist (c.overAt s.now)) := by
  intro a b hab
  rcases mem_routineEnd hab with hab | ⟨a', ha', heq⟩
  · exact h.sees _ a b hab
  · cases heq
    obtain ⟨l, hl, hal⟩ := hd a ha'
    rcases hal with rfl | ⟨e, he, hle⟩
    · exact ⟨_, sees_last g ht hf hl, le_refl _⟩
    · have hsince := (overAt_le hc (hs.past ho).1).2 l hl
      exact ⟨e, sees_passed g _ he, le_trans hle hsince⟩

/-- What is open again is the last trouble, or one before it. -/
theorem RoutineLog.Closed.opens {begun : Option Time} (h : g.Closed hist) (hd : g.Dates hist)
    (hs : g.Sane) (hl : g.last ≠ none) : g.Dates (routineOpen hist begun) := by
  intro a ha
  rcases getLast_routineOpen ha with ha | ⟨b, hb⟩
  · exact hd a ha
  obtain ⟨l, hl⟩ := Option.ne_none_iff_exists'.1 hl
  obtain ⟨e, he, -⟩ := h a b (List.mem_of_getLast? hb)
  refine ⟨l, hl, ?_⟩
  by_cases hal : a = l
  · exact .inl hal
  · exact .inr ⟨e, he, (hs.last l hl).2 _ he hal⟩

end Kervax
