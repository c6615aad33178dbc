-- What one pass through the body does with a held episode and with the history of
-- a kind, and that an episode past its limit comes out of it with a message.
import Kervax.RoutineLog

namespace Kervax

variable {nm : Norms} {k : Kind} {s : Seen} {c : Cond} {st : KindSt} {b y : Carry} {g : RoutineLog}

/-! ## The marks of a held episode -/

/-- A held episode is open, and so is a silent repeat, which is not held. -/
structure QuietSane (m : Marks) : Prop where
  opened : m.quiet ≠ none → 0 < m.level
  hushed : m.hush ≠ none → 0 < m.level
  apart : m.hush ≠ none → m.quiet = none

/-- What a tick has done with the silence of the routine. -/
structure QuietMove (s : Seen) (hist : List Episode) (m m' : Marks) (told : Bool) : Prop where
  sane : QuietSane m'
  /-- A silence is over with the episode, or with a message. -/
  lost : m.quiet ≠ none → m'.quiet = none → m'.level = 0 ∨ told = true
  new : m.quiet = none → m'.quiet ≠ none →
    routineOf (routineStart hist s.now).dropLast s.now ≠ none

theorem QuietSane.zero (h : QuietSane st.marks) (h0 : st.level = 0) :
    st.quiet = none ∧ st.hush = none := by
  constructor
  · by_contra hq
    have : 0 < st.level := h.opened hq
    omega
  · by_contra hh
    have : 0 < st.level := h.hushed hh
    omega

/-- No mark is left. -/
theorem QuietSane.of_none {m : Marks} (hh : m.hush = none) (hq : m.quiet = none) : QuietSane m :=
  ⟨absurd hq, absurd hh, fun _ => hq⟩

theorem QuietSane.with_level {m : Marks} (h : QuietSane m) {n : Nat} (hl : 0 < n) :
    QuietSane { m with level := n } :=
  ⟨fun _ => hl, fun _ => hl, h.apart⟩

variable {m m' : Marks} {hist : List Episode}

/-- Nothing happens to the silence. -/
theorem QuietMove.same (h : QuietSane m') (hq : m'.quiet = m.quiet) (told : Bool) :
    QuietMove s hist m m' told where
  sane := h
  lost hne hnone := absurd (hq.symm.trans hnone) hne
  new hnone hne := absurd (hq.trans hnone) hne

/-- The episode is closed, and no silence is left. -/
theorem QuietMove.closed (h : QuietSane m') (h0 : m'.level = 0) (told : Bool) :
    QuietMove s hist m m' told where
  sane := h
  lost _ _ := .inl h0
  new _ hne := absurd (h.opened hne) (by omega)

/-- The episode is open, and its silence is over. -/
theorem QuietMove.ended {told : Bool} (h : QuietSane m') (hq : m'.quiet = none)
    (ht : m.quiet ≠ none → told = true) : QuietMove s hist m m' told where
  sane := h
  lost hne _ := .inr (ht hne)
  new _ hne := absurd hq hne

/-- A silence that is lost for news is lost with a message, and the guard of the
metric lets it through. -/
theorem RoutineBody.lost {ack : Bool} {q : Option Time} (h : RoutineBody nm k s c st g ack)
    (hl : 0 < c.level) (hq : QuietLeft k s c st.marks q) :
    q = st.quiet ∨ q = none ∧ ack = true ∧
      (k ∈ flapMetricKinds → st.flap.muted = false ∧ ¬ st.flap.metricFull k s.now) := by
  rcases hq with hq | ⟨hq, ⟨hi, hne⟩ | ⟨-, -, t, ht, hle, hheld⟩⟩
  · exact .inl hq
  · obtain ⟨t, ht⟩ := Option.ne_none_iff_exists'.1 hne
    refine .inr ⟨hq, h.told t ht hl (.inl hi), fun hk => ?_⟩
    simp only [isThrash, Bool.and_eq_true, decide_eq_true_eq] at hi
    rw [hi.1] at hk
    exact absurd hk (by decide)
  · exact .inr ⟨hq, h.told t ht hl (.inr ⟨hle, hheld⟩),
      fun hk => h.guard t ht hle (by simp [Cond.trouble, hl, hheld]) hk⟩

variable {fa : Bool}

/-- A closing that the routine lets through is of an episode that is not held. -/
theorem RoutineBody.unheld (hs : RoutineBody nm k s c st g fa) (hk : k ∈ routineKinds)
    (hq : st.quiet = none ∨ k ∉ routineKinds ∨ isThrash k c = true) (h0 : c.level = 0) :
    st.quiet = none := by
  rcases hq with hq | hq | hi
  · exact hq
  · exact absurd hk hq
  · by_contra hne
    have := hs.thrash hne hi
    omega

/-- An episode that begins anew is no silent repeat. -/
theorem QuietSane.unhushed (h : QuietSane st.marks) (hs : RoutineBody nm k s c st g fa)
    (hgrowth : k ≠ .backupGrowth) (hl : 0 < c.level) (ha : Anew k s c st.marks) :
    st.hush = none := by
  by_contra hne
  have hquiet := h.apart hne
  cases ha with
  | zero hz => exact hne (h.zero hz).2
  | growth hg => exact hgrowth hg
  | overdue _ t ht hlong hheld =>
    have ht : st.hush = some t := ht
    have hover := hs.overdue hl
    simp [overdueNow, ht, hlong, hheld] at hover
  | thrash _ hq => exact hq hquiet
  | overrun _ t hq => exact nomatch hq.symm.trans hquiet

/-- The guard of a metric keeps back no silence that is over. -/
theorem QuietMove.guarded (h : QuietSane st.marks) (hs : RoutineBody nm k s c st g fa)
    (hmetric : k ∈ flapMetricKinds) (hl : 0 < c.level) {q : Option Time}
    (hq : QuietLeft k s c st.marks q) (hkept : st.flap.muted = true ∨ st.flap.metricFull k s.now)
    (told : Bool) :
    QuietMove s st.hist st.marks (if fa then { st.marks with level := c.level, quiet := q }
      else { st.marks with quiet := q }) told := by
  have hsame : q = st.quiet := by
    rcases hs.lost hl hq with hq | ⟨-, -, hpass⟩
    · exact hq
    · obtain ⟨hmuted, hfull⟩ := hpass hmetric
      rcases hkept with hk | hk
      · rw [hmuted] at hk
        cases hk
      · exact absurd hk hfull
  rw [hsame]
  split
  · refine .same ?_ ?_ _
    · exact h.with_level hl
    · rfl
  · exact .same h rfl _

/-- An alert ends a silence, or leaves it as it was where nobody took the alert. -/
theorem QuietMove.alerted (h : QuietSane st.marks) (hs : RoutineBody nm k s c st g fa)
    (hgrowth : k ≠ .backupGrowth) (hk : k ∈ routineKinds) (hl : 0 < c.level) {q : Option Time}
    (hq : QuietLeft k s c st.marks q)
    (hkeep : q = none ∨ k ∉ routineKinds ∨ Reopened k st.marks) {said : Bool} :
    QuietMove s st.hist st.marks
      (if fa then ⟨c.level, none, q, said⟩ else { st.marks with quiet := q }) fa := by
  have hlost := hs.lost hl hq
  split
  · rename_i hack
    have hnone : q = none := by
      rcases hkeep with hq | hno | hre
      · exact hq
      · exact absurd hk hno
      · have hquiet : st.quiet = none := by
          rcases hre with h0 | hg | ⟨-, hh⟩
          · exact (h.zero h0).1
          · exact absurd hg hgrowth
          · exact h.apart hh
        rcases hlost with heq | ⟨hq, -⟩
        · exact heq.trans hquiet
        · exact hq
    exact .ended (.of_none rfl hnone) hnone fun _ => hack
  · rcases hlost with heq | ⟨-, hack, -⟩
    · rw [heq]
      exact .same h rfl _
    · exact absurd hack ‹_›

/-- The silence of the routine goes through the body as it should. -/
theorem BodyMove.quietMove (hk : k ∈ routineKinds) (hm : BodyMove nm k s c b y)
    (h : QuietSane b.st.marks) {fa : Bool} (hs : RoutineBody nm k s c b.st g fa) (ra : Bool) :
    QuietMove s b.st.hist b.st.marks (y.after fa ra).marks (fa && y.out.tells) := by
  have hset : k ∉ noSettle := fun hn => noSettle_routine hn hk
  have hgrowth : k ≠ .backupGrowth := by
    rintro rfl
    exact hset (by decide)
  cases hm with
  | still hm =>
    rw [hm]
    exact .same h rfl _
  | shift hl hp hm =>
    rw [hm]
    refine .same ?_ ?_ _
    · exact h.with_level hl
    · rfl
  | again _ hl hp hm =>
    rw [hm]
    refine .same ?_ ?_ _
    · exact ⟨fun _ => hl, fun _ => hl, fun _ => (h.zero hp).1⟩
    · rfl
  | hushed _ _ hh hm =>
    rw [hm]
    refine .closed ?_ ?_ _
    · exact .of_none rfl (h.apart hh)
    · rfl
  | held _ hl ha t hr hm =>
    rw [hm]
    have hhush : b.st.hush = none := h.unhushed hs hgrowth hl ha
    exact ⟨⟨fun _ => hl, fun _ => hl, absurd hhush⟩, fun _ hnone => (nomatch hnone), fun _ _ => hr⟩
  | quietEnd _ _ _ hh hm =>
    rw [hm]
    exact .closed (.of_none hh rfl) rfl _
  | oddThrash hi hl hq =>
    have := hs.thrash hq hi
    omega
  | alert hl ha q hq hkeep hm hf =>
    rw [hm]
    have htells : y.out.tells = true := by simp [Out.tells, hf, offers]
    rw [htells, Bool.and_true]
    exact .alerted h hs hgrowth hk hl hq hkeep
  | news _ hl hp _ _ hm =>
    rw [hm]
    split
    · refine .same ?_ ?_ _
      · exact ⟨h.opened, absurd rfl, absurd rfl⟩
      · rfl
    · exact .same h rfl _
  | swallowed hk' hmuted q hq hm =>
    rw [hm]
    rcases hk' with ⟨ho, -⟩ | ⟨hmetric, hl⟩
    · exact absurd ho (not_offline_of_routine hk)
    · exact .guarded h hs hmetric hl hq (.inl hmuted) _
  | series hk' hmuted n q hq hm =>
    rw [hm]
    obtain ⟨-, ⟨ho, -⟩ | ⟨hmetric, hl, -, hfull⟩⟩ := hk'
    · exact absurd ho (not_offline_of_routine hk)
    · exact .guarded h hs hmetric hl hq (.inr hfull) _
  | backSilent hl _ hh hq hm =>
    rw [hm]
    exact .closed (.of_none (hh.resolve_left hset) (hs.unheld hk hq hl)) rfl _
  | recovery hl _ _ _ hh hq _ hm =>
    rw [hm]
    split
    · exact .closed (.of_none (hh.resolve_left hset) (hs.unheld hk hq hl)) rfl _
    · exact .same h rfl _
  | fixedTold _ _ hq _ hm =>
    rw [hm]
    split
    · exact .closed (.of_none rfl rfl) rfl _
    · exact .same h rfl _
  | fixedSilent _ _ hm =>
    rw [hm]
    exact .closed (.of_none rfl rfl) rfl _
  | policy hk' hl _ hold _ _ hm =>
    rw [hm]
    have hnone : b.st.quiet = none := by
      by_contra hne
      rw [hs.policy hne hk' hl] at hold
      cases hold
    split
    · exact .closed (.of_none rfl hnone) rfl _
    · exact .same h rfl _

/-! ## The history through the body -/

/-- What the body has done with the history, where it leaves this level. -/
inductive HistMove (k : Kind) (s : Seen) (c : Cond) (st : KindSt) (level : Nat) :
    List Episode → Prop
  /-- Nothing: an alert that opens is a repeat, or a lack of memory. -/
  | same (h : st.level = 0 → 0 < c.level → 0 < level →
      isThrash k c = true ∨ againOf st c.level (whoOf c.ctx) s.now ≠ none) :
      HistMove k s c st level st.hist
  | ends (ht : c.trouble = false) (hf : fixNow k s = false) (hp : 0 < st.level) :
      HistMove k s c st level (routineEnd st.hist (c.overAt s.now))
  | opens (ht : c.trouble = true) (hp : 0 < st.level) (begun : Option Time) :
      HistMove k s c st level (routineOpen st.hist begun)
  | starts (hl : 0 < c.level) (h0 : st.level = 0) (hno : isThrash k c = false)
      (hw : againOf st c.level (whoOf c.ctx) s.now = none) :
      HistMove k s c st level (routineStart st.hist s.now)

/-- The level after the body is the old one, the new one, or none. -/
theorem BodyMove.level (hm : BodyMove nm k s c b y) (fa ra : Bool) :
    (y.after fa ra).level = b.st.level ∨ (y.after fa ra).level = c.level ∨
      (y.after fa ra).level = 0 := by
  change (y.after fa ra).marks.level = b.st.marks.level ∨ (y.after fa ra).marks.level = c.level ∨
    (y.after fa ra).marks.level = 0
  cases hm with
  | still hm => exact .inl (by rw [hm])
  | shift _ _ hm => exact .inr (.inl (by rw [hm]))
  | again _ _ _ hm => exact .inr (.inl (by rw [hm]))
  | hushed _ _ _ hm => exact .inr (.inr (by rw [hm]))
  | held _ _ _ _ _ hm => exact .inr (.inl (by rw [hm]))
  | quietEnd _ _ _ _ hm => exact .inr (.inr (by rw [hm]))
  | oddThrash _ _ _ hm => exact .inl (by rw [hm])
  | alert _ _ _ _ _ hm =>
    rw [hm]
    cases fa
    · exact .inl rfl
    · exact .inr (.inl rfl)
  | news _ _ _ _ _ hm =>
    rw [hm]
    cases fa <;> exact .inl rfl
  | swallowed _ _ _ _ hm =>
    rw [hm]
    cases fa
    · exact .inl rfl
    · exact .inr (.inl rfl)
  | series _ _ _ _ _ hm =>
    rw [hm]
    cases fa
    · exact .inl rfl
    · exact .inr (.inl rfl)
  | backSilent _ _ _ _ hm => exact .inr (.inr (by rw [hm]))
  | recovery _ _ _ _ _ _ _ hm =>
    rw [hm]
    cases ra
    · exact .inl rfl
    · exact .inr (.inr rfl)
  | fixedTold _ _ _ _ hm =>
    rw [hm]
    cases ra
    · exact .inl rfl
    · exact .inr (.inr rfl)
  | fixedSilent _ _ hm => exact .inr (.inr (by rw [hm]))
  | policy _ _ _ _ _ _ hm =>
    rw [hm]
    cases ra
    · exact .inl rfl
    · exact .inr (.inr rfl)

/-- The body has come to the members with a level to compare with, unless the alert
is new. -/
theorem AtMembers.anew {x : Carry} (hx : AtMembers k s c b x) (hk : k ∈ routineKinds)
    (ho : 0 < c.level → overdueNow s c b.st = false) :
    x.prev = b.st.level ∧
      (b.st.level = 0 → 0 < c.level → againOf b.st c.level (whoOf c.ctx) s.now = none) := by
  obtain ⟨p, hp, hs⟩ := hx.settle
  have hset : k ∉ noSettle := fun hn => noSettle_routine hn hk
  have hprev : p = b.st.level := by
    rcases hp with heq | ⟨-, hg, -⟩
    · exact heq
    · exact absurd (by rw [hg]; decide) hset
  cases hs with
  | own hn => exact absurd hn hset
  | overdue _ hl _ t ht hlong hheld =>
    have ht : b.st.hush = some t := ht
    have hover := ho hl
    simp [overdueNow, ht, hlong, hheld] at hover
  | trouble _ _ hnew => exact ⟨hprev, fun h0 _ => hnew (hprev.trans h0)⟩
  | settled _ hl => exact ⟨hprev, fun _ hpos => by omega⟩

/-- The routine is passed with the history as it has become, and an alert that opens
then has no entry of its own only for a lack of memory. -/
theorem RoutineEnd.histMove {x : Carry} {r : BodyFlow Carry} {level : Nat}
    (hr : RoutineEnd k s c x r) (hk : k ∈ routineKinds) (hf : fixNow k s = false)
    (hh : x.st.hist = st.hist) (hp : x.prev = st.level ∨ x.prev = 0 ∧ isThrash k c = true)
    (hw : st.level = 0 → 0 < c.level → againOf st c.level (whoOf c.ctx) s.now = Option.none) :
    HistMove k s c st level r.out.st.hist := by
  have hopen : 0 < x.prev → 0 < st.level := by omega
  have hzero : isThrash k c = false → x.prev = 0 → st.level = 0 := by
    intro hno h0
    rcases hp with heq | ⟨-, hi⟩
    · exact heq.symm.trans h0
    · rw [hno] at hi
      cases hi
  have hgone : heldOnly c.ctx = true → c.trouble = false := fun hheld => by simp [Cond.trouble, hheld]
  have hcools : 0 < c.level → c.overAt s.now = c.ctx.cool.getD s.now := fun hl => by
    simp [Cond.overAt, Nat.ne_of_gt hl]
  have hnow : c.level = 0 → c.overAt s.now = s.now ∧ c.trouble = false := fun h0 => by
    simp [Cond.overAt, Cond.trouble, h0]
  cases hr with
  | off hoff =>
    rw [BodyFlow.out_next, hh]
    refine .same fun _ _ _ => .inl ?_
    rcases hoff with hno | hi
    · exact absurd hk hno
    · exact hi
  | cools _ hl hpos hheld _ =>
    rw [BodyFlow.out_next, hh, ← hcools hl]
    exact .ends (hgone hheld) hf (hopen hpos)
  | coolsQuiet _ hl hpos hheld t _ =>
    rw [BodyFlow.out_done, hh, ← hcools hl]
    exact .ends (hgone hheld) hf (hopen hpos)
  | held _ hl h0 r _ hno =>
    rw [BodyFlow.out_done, hh]
    exact .starts hl (hzero hno h0) hno (hw (hzero hno h0) hl)
  | begins _ hl h0 _ hno =>
    rw [BodyFlow.out_next, hh]
    exact .starts hl (hzero hno h0) hno (hw (hzero hno h0) hl)
  | usual _ hl hpos hheld t _ _ =>
    rw [BodyFlow.out_done, hh]
    exact .opens (by simp [Cond.trouble, hl, hheld]) (hopen hpos) _
  | overrun _ hl hpos hheld t _ _ =>
    rw [BodyFlow.out_next, hh]
    exact .opens (by simp [Cond.trouble, hl, hheld]) (hopen hpos) _
  | goesOn _ hl hpos hheld _ =>
    rw [BodyFlow.out_next, hh]
    exact .opens (by simp [Cond.trouble, hl, hheld]) (hopen hpos) _
  | quietEnd _ h0 hpos t _ =>
    rw [BodyFlow.out_done, hh, ← (hnow h0).1]
    exact .ends (hnow h0).2 hf (hopen hpos)
  | ends _ h0 hpos _ =>
    rw [BodyFlow.out_next, hh, ← (hnow h0).1]
    exact .ends (hnow h0).2 hf (hopen hpos)
  | none _ h0 _ =>
    rw [BodyFlow.out_next, hh]
    exact .same fun _ hpos => by omega

@[simp] theorem applyAll_hist (ws : List KWrite) (st : KindSt) : (applyAll ws st).hist = st.hist :=
  applyAll_field KindSt.hist (fun w _ st => by cases w <;> rfl) st

theorem swallow_hist (w : Was) (st : KindSt) : (swallow s c w st).hist = st.hist := by
  unfold swallow
  dsimp only
  split
  · rfl
  · split <;> rfl

theorem closedSt_hist (k : Kind) (st : KindSt) : (closedSt k st).hist = st.hist := by
  unfold closedSt
  dsimp only
  split <;> rfl

theorem Carry.after_hist (y : Carry) (fa ra : Bool) : (y.after fa ra).hist = y.st.hist := by
  unfold Carry.after
  cases fa <;> cases ra <;> simp

/-- What is left of the body behind the routine does not touch the history. -/
theorem AtLevel.histMove {x z : Carry} {level : Nat} (hz : AtLevel nm k s c x z)
    (hx : AtMembers k s c b x) (hk : k ∈ routineKinds)
    (ho : 0 < c.level → overdueNow s c b.st = false) : HistMove k s c b.st level z.st.hist := by
  obtain ⟨w, w', hm, ht, hr⟩ := hz.path
  obtain ⟨hprev, hnew⟩ := hx.anew hk ho
  refine RoutineEnd.histMove (r := .next z) hr hk hx.fix (hx.hist hm ht) ?_ hnew
  have hw : w.prev = x.prev := by
    cases hm <;> rfl
  cases ht with
  | none => exact .inl (hw.trans hprev)
  | lifts hi => exact .inr ⟨rfl, hi⟩

theorem BodyEnd.histMove (h : BodyEnd nm k s c b y) (hk : k ∈ routineKinds)
    (hf : b.out.fireApply = []) (hr : b.out.recApply = []) (hfix : fixNow k s = true → c.level = 0)
    (ho : 0 < c.level → overdueNow s c b.st = false) (fa ra : Bool) :
    HistMove k s c b.st (y.after fa ra).level y.st.hist := by
  have hset : k ∉ noSettle := fun hn => noSettle_routine hn hk
  cases h with
  | gates _ _ hg =>
    cases hg with
    | left =>
      refine .same fun h0 _ hl => ?_
      have hm := congrArg Marks.level ((noMarks_queued hf hr).after fa ra)
      change (b.after fa ra).level = b.st.level at hm
      omega
    | muted _ _ hlt => exact .same fun h0 => by omega
  | fixed _ p _ _ hfx =>
    have hno : fixNow k s = true → y.st.hist = b.st.hist →
        HistMove k s c b.st (y.after fa ra).level y.st.hist := by
      intro hfx heq
      rw [heq]
      refine .same fun _ hl => ?_
      have := hfix hfx
      omega
    cases hfx with
    | told hfx => exact hno hfx rfl
    | silent hfx => exact hno hfx (applyAll_hist _ _)
    | nothing hfx => exact hno hfx rfl
  | settle _ _ p _ _ hs =>
    cases hs with
    | again _ _ _ w hw =>
      have heq : (swallow s c w b.st.stirred).hist = b.st.hist := swallow_hist w _
      rw [heq]
      refine .same fun _ _ _ => .inr ?_
      have hw : againOf b.st c.level (whoOf c.ctx) s.now = some w := hw
      rw [hw]
      exact Option.some_ne_none w
    | calms _ h0 => exact .same fun _ hl => by omega
    | waits _ h0 => exact .same fun _ hl => by omega
    | hushed _ h0 =>
      have heq : (closeHushed k s { b with prev := p }).hist = b.st.hist := closedSt_hist k b.st
      rw [heq]
      exact .same fun _ hl => by omega
  | night _ _ _ hn => exact absurd hk (by revert hn; cases k <;> decide)
  | members x hx _ hm =>
    obtain ⟨hprev, -⟩ := hx.anew hk ho
    have hhist : x.st.hist = b.st.hist := by
      rcases hx.facts.2.1 with hst | hst
      all_goals
        rw [hst]
        try rfl
    have hsame : y.st.hist = x.st.hist → (b.st.level = 0 → 0 < c.level → False) →
        HistMove k s c b.st (y.after fa ra).level y.st.hist := by
      intro heq hno
      rw [heq, hhist]
      exact .same fun h0 hl => (hno h0 hl).elim
    cases hm with
    | policy _ hp => exact hsame rfl fun h0 _ => by omega
    | story _ hl => exact hsame rfl fun h0 hpos => by omega
    | news _ hl => exact hsame rfl fun h0 hpos => by omega
    | resig _ hl => exact hsame rfl fun h0 hpos => by omega
    | still _ hl => exact hsame rfl fun h0 hpos => by omega
    | climb _ _ hp => exact hsame rfl fun h0 _ => by omega
  | routine x hx w w' hm ht _ hroutine =>
    obtain ⟨hprev, hnew⟩ := hx.anew hk ho
    refine RoutineEnd.histMove (r := .done y) hroutine hk hx.fix (hx.hist hm ht) ?_ hnew
    have hw : w.prev = x.prev := by
      cases hm <;> rfl
    cases ht with
    | none => exact .inl (hw.trans hprev)
    | lifts hi => exact .inr ⟨rfl, hi⟩
  | same x hx z hz _ hs =>
    have heq : y.st.hist = z.st.hist := by
      cases hs <;> rfl
    rw [heq]
    exact hz.histMove hx hk ho
  | link x hx z hz _ _ hl =>
    have heq : y.st.hist = z.st.hist := by
      cases hl <;> rfl
    rw [heq]
    exact hz.histMove hx hk ho
  | report x hx z hz _ w hw _ hrep =>
    have hwz : w.st.hist = z.st.hist := by
      cases hw <;> rfl
    have heq : y.st.hist = w.st.hist := by
      cases hrep with
      | alert _ st' hst => rcases hst with ⟨-, rfl⟩ | ⟨-, rfl⟩ <;> rfl
      | _ => rfl
    rw [heq, hwz]
    exact hz.histMove hx hk ho

/-! ## After the limit -/

theorem Cond.trouble_iff : c.trouble = true ↔ 0 < c.level ∧ heldOnly c.ctx = false := by
  simp [Cond.trouble]

/-- The members leave the body only with a message. -/
theorem MembersEnd.overrun {x : Carry} (hx : AtMembers k s c b x) {t : Time} {ack : Bool}
    (hprev : x.prev = b.st.level) (hs : RoutineBody nm k s c b.st g ack) (hq : b.st.quiet = some t)
    (hle : t ≤ s.now) (ht : c.trouble = true) (hm : MembersEnd nm k s c x (.done y)) :
    y.out.tells = true := by
  obtain ⟨hl, -⟩ := Cond.trouble_iff.1 ht
  obtain ⟨-, hst, -⟩ := hx.facts
  have hnew : membersOf nm k c x = membersOf nm k c ⟨b.st, b.st.level, {}⟩ :=
    hx.membersOf_eq hprev
  have hsaid : x.st.said = b.st.said := by
    rcases hst with hst | hst
    all_goals
      rw [hst]
      try rfl
  have htop : toldTop x = toldTop ⟨b.st, b.st.level, {}⟩ := by
    unfold toldTop
    rw [hprev]
    rcases hst with hst | hst
    all_goals
      rw [hst]
      try rfl
  cases hm with
  | policy _ _ h0 => omega
  | story hk heq _ _ hstory t' ht' hshort =>
    have hlong := (hs.members t hq hle ht hk).2 (heq.trans hprev) hstory
    rw [← hsaid, ht'] at hlong
    simp [hshort] at hlong
  | news => simp [Out.tells, offers]
  | resig hk heq hno =>
    rw [hnew] at hno
    exact absurd (heq.trans hprev) ((hs.members t hq hle ht hk).1 (hno hl)).1
  | still hk heq hno =>
    rw [hnew] at hno
    exact absurd (heq.trans hprev) ((hs.members t hq hle ht hk).1 (hno hl)).1
  | climb hk hlt _ hle' hno =>
    rw [hnew] at hno
    have := ((hs.members t hq hle ht hk).1 hno).2 (hprev ▸ hlt)
    omega

/-- A held episode that is past its limit comes through the routine as a new one. -/
theorem RoutineEnd.afresh {x : Carry} {r : BodyFlow Carry} {t : Time}
    (hr : RoutineEnd k s c x r) (hk : k ∈ routineKinds) (hpos : 0 < x.prev)
    (hno : isThrash k c = false) (hq : x.st.quiet = some t) (hle : t ≤ s.now)
    (ht : c.trouble = true) : ∃ z, r = .next z ∧ z.prev = 0 := by
  obtain ⟨hl, hheld⟩ := Cond.trouble_iff.1 ht
  have hnone : x.st.quiet ≠ Option.none := by
    rw [hq]
    exact Option.some_ne_none t
  cases hr with
  | off hoff =>
    rcases hoff with hoff | hi
    · exact absurd hk hoff
    · rw [hno] at hi
      cases hi
  | cools _ _ _ hh => exact absurd (hheld.symm.trans hh) (by simp)
  | coolsQuiet _ _ _ hh => exact absurd (hheld.symm.trans hh) (by simp)
  | held _ _ h0 => omega
  | begins _ _ h0 => omega
  | usual _ _ _ _ t' hq' hlt =>
    rw [hq] at hq'
    cases hq'
    exact absurd hlt (not_lt.2 hle)
  | overrun => exact ⟨_, rfl, rfl⟩
  | goesOn _ _ _ _ h => exact absurd h hnone
  | quietEnd _ h0 => omega
  | ends _ h0 => omega
  | none _ h0 => omega

/-- The routine looks at an overdue episode as at a new one, unless a lack of memory did
before. -/
theorem RoutineEnd.overdue {x w w' : Carry} {r : BodyFlow Carry} (hr : RoutineEnd k s c w' r)
    (hk : k ∈ routineKinds) {t : Time} {ack : Bool} (hs : RoutineBody nm k s c b.st g ack)
    (hx : AtMembers k s c b x) (hm : MembersEnd nm k s c x (.next w)) (hth : ThrashPass k c w w')
    (hpos : 0 < b.st.level) (hq : b.st.quiet = some t) (hle : t ≤ s.now)
    (ht : c.trouble = true) : ∃ z, r = .next z ∧ z.prev = 0 := by
  obtain ⟨hl, -⟩ := Cond.trouble_iff.1 ht
  obtain ⟨hprev, -⟩ := hx.anew hk hs.overdue
  have hw : w.prev = x.prev := by
    cases hm <;> rfl
  have hwq : w.st.quiet = some t := (hx.quiet_members hm).trans hq
  cases hth with
  | none hno =>
    refine hr.afresh hk (by omega) ?_ hwq hle ht
    by_contra hi
    exact hno ⟨by simpa using hi, by simp [hwq]⟩
  | lifts hi =>
    cases hr with
    | off => exact ⟨_, rfl, rfl⟩
    | cools _ _ hp => exact absurd hp (lt_irrefl 0)
    | coolsQuiet _ _ hp => exact absurd hp (lt_irrefl 0)
    | held _ _ _ _ _ hno => exact absurd (hi.symm.trans hno) (by simp)
    | begins _ _ _ _ hno => exact absurd (hi.symm.trans hno) (by simp)
    | usual _ _ hp => exact absurd hp (lt_irrefl 0)
    | overrun _ _ hp => exact absurd hp (lt_irrefl 0)
    | goesOn _ _ hp => exact absurd hp (lt_irrefl 0)
    | quietEnd _ h0 => omega
    | ends _ h0 => omega
    | none _ h0 => omega

theorem AtLevel.overdue {x z : Carry} (hz : AtLevel nm k s c x z) (hk : k ∈ routineKinds)
    {t : Time} {ack : Bool} (hs : RoutineBody nm k s c b.st g ack) (hx : AtMembers k s c b x)
    (hpos : 0 < b.st.level) (hq : b.st.quiet = some t) (hle : t ≤ s.now)
    (ht : c.trouble = true) : z.prev = 0 := by
  obtain ⟨w, w', hm, hth, hr⟩ := hz.path
  obtain ⟨z', heq, h0⟩ := hr.overdue hk hs hx hm hth hpos hq hle ht
  cases heq
  exact h0

/-- What is there after the limit of a held episode is told. -/
theorem BodyEnd.overrun (h : BodyEnd nm k s c b y) (hk : k ∈ routineKinds) {t : Time} {ack : Bool}
    (hs : RoutineBody nm k s c b.st g ack) (hsane : QuietSane b.st.marks)
    (hq : b.st.quiet = some t) (hle : t ≤ s.now) (ht : c.trouble = true)
    (hfix : fixNow k s = true → c.level = 0) (hpass : Kervax.gates k s c b = .next b) :
    y.out.tells = true := by
  obtain ⟨hl, hheld⟩ := Cond.trouble_iff.1 ht
  have hpos : 0 < b.st.level := hsane.opened fun hno => nomatch hq.symm.trans hno
  have hgrowth : k ≠ .backupGrowth := by
    rintro rfl
    exact absurd hk (by decide)
  cases h with
  | gates _ hg => cases hg.symm.trans hpass
  | fixed _ p _ _ hfx =>
    have h0 : fixNow k s = true → c.level = 0 := hfix
    cases hfx with
    | told hfx =>
      have := h0 hfx
      omega
    | silent hfx =>
      have := h0 hfx
      omega
    | nothing hfx =>
      have := h0 hfx
      omega
  | settle _ _ p hp _ hsettle =>
    cases hsettle with
    | again _ _ h0 =>
      rcases hp with heq | ⟨-, hg, -⟩
      · have h0 : p = 0 := h0
        omega
      · exact absurd hg hgrowth
    | calms _ h0 => omega
    | waits _ h0 => omega
    | hushed _ h0 => omega
  | night _ _ _ hn => exact absurd hk (by revert hn; cases k <;> decide)
  | members x hx _ hm => exact hm.overrun hx (hx.anew hk hs.overdue).1 hs hq hle ht
  | routine x hx w w' hm hth _ hr =>
    obtain ⟨z, heq, -⟩ := hr.overdue hk hs hx hm hth hpos hq hle ht
    cases heq
  | same x hx z hz _ hsame =>
    have h0 := hz.overdue hk hs hx hpos hq hle ht
    cases hsame <;> omega
  | link x hx z hz _ _ hlink =>
    have hoff := not_offline_of_routine hk
    cases hlink <;> contradiction
  | report x hx z hz _ w hw _ hrep =>
    have h0 : w.prev = 0 := by
      rw [← hz.overdue hk hs hx hpos hq hle ht]
      cases hw <;> rfl
    have hflap : w.st.flap = b.st.flap := by
      rw [← hz.flap hx]
      cases hw with
      | other => rfl
      | rare hoff => exact absurd hoff (not_offline_of_routine hk)
    cases hrep with
    | alert => simp [Out.tells, offers]
    | swallowed _ hg hm =>
      have hno := (hs.guard t hq hle ht hg.2.1).1
      rw [hflap, hno] at hm
      cases hm
    | series _ hg _ hfull =>
      rw [hflap] at hfull
      exact absurd hfull (hs.guard t hq hle ht hg.2.1).2
    | backMuted hl' => omega
    | backSilent hl' => omega
    | backWaits hl' => omega
    | back hl' => omega
    | lower _ hle' => omega
    | keeps _ hle' => omega

end Kervax
