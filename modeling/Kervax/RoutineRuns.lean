-- The routine of a kind, over runs: an episode is held only where the troubles of
-- the days before say so, and only until its usual end.
import Kervax.RoutineMoves

namespace Kervax

open Runs

variable {nm : Norms} {k : Kind} {s : Seen} {c : Cond} {st : KindSt} {b y : Carry} {g : RoutineLog}

/-! ## One tick -/

/-- What holds of the state and the log between the ticks. -/
structure RoutineSane (x : KindSt × RoutineLog) : Prop where
  quiet : QuietSane x.1.marks
  held : ∀ h ∈ x.2.held, x.1.quiet = some h.2 ∧ Usual x.2.passed h.1
  known : x.1.quiet ≠ none → x.2.heard = true ∨ x.2.held ≠ none
  log : x.2.Sane
  closed : x.2.Closed x.1.hist
  dated : 0 < x.1.level → x.2.Dates x.1.hist

theorem routineSane_nothing : RoutineSane ({}, {}) where
  quiet := .of_none rfl rfl
  held _ hh := nomatch hh
  known hne := absurd rfl hne
  log := RoutineLog.sane_nothing
  closed _ _ hab := nomatch hab
  dated h := absurd h (lt_irrefl 0)

/-- A tick that moves the silence as it should, and leaves a history that the log
knows, keeps all of it. -/
theorem RoutineSane.step (h : RoutineSane (st, g)) {st' : KindSt} {o : Option Cond} {told : Bool}
    (ho : ∀ t ∈ g.clock, t ≤ s.now)
    (hc : ∀ c ∈ o, ∀ t ∈ c.ctx.cool, t ≤ s.now ∧ ∀ l ∈ g.last, l ≤ t)
    (hq : QuietMove s st.hist st.marks st'.marks told) (hclosed : (g.sees k s o).Closed st'.hist)
    (hdated : 0 < st'.level → (g.sees k s o).Dates st'.hist) :
    RoutineSane (st', (g.sees k s o).after st' told s.now) := by
  obtain ⟨hheld, hheard⟩ := sees_held (k := k) (s := s) g o
  have hlog := h.log.sees (k := k) ho hc
  refine ⟨hq.sane, fun r hr => ?_, fun hne => ?_, ⟨hlog.ended, hlog.last, hlog.gone, hlog.since⟩,
    hclosed, hdated⟩
  · simp only [RoutineLog.after, hheld, hheard, Option.mem_def] at hr
    split at hr
    · cases hr
    rename_i hno
    simp only [not_or, Bool.and_eq_true, decide_eq_true_eq, Bool.or_eq_true, not_and] at hno
    obtain ⟨hl, hno⟩ := hno
    have hno := hno hl
    split at hr
    · -- the episode is held
      rename_i t ht
      cases hr
      refine ⟨ht, ?_⟩
      cases hg : g.held with
      | some r => exact (h.held r hg).2.sees o
      | none =>
        have hb : st.marks.quiet = none := by
          by_contra hne
          rcases h.known hne with h1 | h1
          · exact hno.1 h1
          · exact h1 hg
        have hnew : st'.marks.quiet ≠ none := fun hnone => nomatch ht.symm.trans hnone
        exact (h.closed.usual h.log (hq.new hb hnew)).sees o
    · -- it was, and nothing was said of it
      rename_i hnone
      have hb : st.marks.quiet ≠ none := fun hb => nomatch (h.held r hr).1.symm.trans hb
      rcases hq.lost hb hnone with h0 | htold
      · exact absurd h0 hl
      · exact absurd htold hno.2
  · have hpos : 0 < st'.level := hq.sane.opened hne
    obtain ⟨t, ht⟩ := Option.ne_none_iff_exists'.1 hne
    have ht : st'.quiet = some t := ht
    simp only [RoutineLog.after, ht]
    split
    · rename_i h0
      rcases h0 with h0 | h0
      · omega
      · exact .inl h0
    · exact .inr (Option.some_ne_none _)

theorem RoutineSane.congr (h : RoutineSane (st, g)) {st' : KindSt} (hm : st'.marks = st.marks)
    (hh : st'.hist = st.hist) : RoutineSane (st', g) := by
  have hm' := hm
  simp only [KindSt.marks, Marks.mk.injEq] at hm'
  obtain ⟨hl, -, hq, -⟩ := hm'
  refine ⟨hm ▸ h.quiet, fun r hr => ?_, fun hne => h.known (hq ▸ hne), h.log, ?_, fun hpos => ?_⟩
  · rw [hq]
    exact h.held r hr
  · rw [hh]
    exact h.closed
  · rw [hh]
    exact h.dated (hl ▸ hpos)

theorem retired_log (g : RoutineLog) (r : Bool) : (g.retired r).clock = g.clock ∧
    (g.retired r).last = g.last := by
  cases r <;> exact ⟨rfl, rfl⟩

theorem prepared_hist (k : Kind) (s : Seen) (st : KindSt) : (prepared k s st).hist = st.hist := by
  have hlift : (liftFlap k s st).1.hist = st.hist := by
    unfold liftFlap
    split_ifs <;> rfl
  have hretire : ∀ st, (retire k s st).1.hist = st.hist := by
    intro st
    unfold retire
    split
    · exact closedSt_hist k st
    · rfl
  unfold prepared calmReset
  split <;> exact (hretire _).trans hlift

theorem bookkeep_hist (k : Kind) (s : Seen) (c : Cond) (st : KindSt) :
    (bookkeep k s c st).hist = st.hist := by
  unfold bookkeep
  split_ifs
  · rfl
  · rfl
  all_goals
    dsimp only
    split <;> rfl

/-- What is done before the comparison keeps the log true. -/
theorem RoutineSane.prepared (h : RoutineSane (st, g)) (hskip : s.skip = false) :
    RoutineSane (prepared k s st, g.retired (retiresNow k s st)) := by
  have hret : retiresNow k s st = retires k s (liftFlap k s st).1 := by simp [retiresNow, hskip]
  rw [hret]
  cases hr : retires k s (liftFlap k s st).1 with
  | false => exact h.congr (prepared_kept hr) (prepared_hist k s st)
  | true =>
    have hm := prepared_retired hr
    simp only [KindSt.marks, Marks.mk.injEq] at hm
    obtain ⟨hl, hh, hq, -⟩ := hm
    refine ⟨.of_none hh hq, fun r hr => ?_, fun hne => absurd hq hne, ⟨h.log.ended,
      h.log.last, h.log.gone, h.log.since⟩, ?_, fun hpos => ?_⟩
    · cases hr
    · rw [prepared_hist]
      exact h.closed
    · have hl : (Kervax.prepared k s st).level = 0 := hl
      have hpos : 0 < (Kervax.prepared k s st).level := hpos
      omega

/-- A tick that changes no level and shows no mark. -/
theorem RoutineSane.idle (h : RoutineSane (st, g)) (ho : ∀ t ∈ g.clock, t ≤ s.now) (told : Bool) :
    RoutineSane (st, (g.sees k s none).after st told s.now) :=
  h.step ho (fun _ hc => (nomatch hc)) (.same h.quiet rfl _) (h.closed.sees none)
    fun hpos => (h.dated hpos).sees h.log ho fun _ hc => (nomatch hc)

theorem condNow_fixed (h : condNow k s = some c) (hf : fixNow k s = true) : c.level = 0 := by
  unfold condNow at h
  rw [if_pos hf] at h
  obtain ⟨d, -, rfl⟩ := Option.map_eq_some_iff.1 h
  rfl

/-- A snooze that sees the trouble gone closes the alert once its recovery is
delivered. -/
theorem quietTick_gone {i : KindIn} {out : Out} (hfa : out.fireApply = []) (hra : out.recApply = [])
    (ht : i.seen.talking = true) (hf : i.seen.fresh = true) (he : i.seen.epoch = false)
    (hc : c.ctx.complete = true) (h0 : c.level = 0) (hack : 0 < st.level → i.recAck = true) :
    (afterTick k i (quietTick k i.seen c st out)).level = 0 := by
  unfold quietTick
  by_cases hl : 0 < st.level
  · have hdown : ¬ (¬ i.seen.talking = true ∧ k ≠ .offline ∨ st.level ≤ c.level) := by
      rintro (hno | hle)
      · exact hno.1 ht
      · omega
    rw [if_neg hdown, if_neg (by simp [hf, he, hc])]
    split
    · rw [afterTick, hfa, hra, commit_nil, commit_nil]
      exact h0
    · rw [afterTick, hack hl, hfa, hra, commit_nil, commit_ack, List.nil_append, applyAll_closedTail]
      exact closedSt_level k st
  · rw [if_pos (.inr (by omega)), afterTick, hfa, hra, commit_nil, commit_nil]
    change st.level = 0
    omega

theorem RoutineSane.snoozed {i : KindIn} {out : Out} {o : Option Cond} (h : RoutineSane (st, g))
    (hk : k ∈ routineKinds) (hfa : out.fireApply = []) (hra : out.recApply = [])
    (honb : i.seen.onb = true → i.fireAck = true ∧ i.recAck = true)
    (hs : c.level = 0 → st.quiet = none ∧ (k ∈ flapMetricKinds → st.flap.muted = true → st.hush = none))
    (hfix : fixNow k i.seen = true → c.level = 0 ∧ (0 < st.level → i.recAck = true))
    (hshown : ∀ d ∈ o, d = c ∧ i.seen.talking = true ∧ i.seen.fresh = true ∧ i.seen.epoch = false ∧
      c.ctx.complete = true)
    (ho : ∀ t ∈ g.clock, t ≤ i.seen.now)
    (hc : ∀ d ∈ o, ∀ t ∈ d.ctx.cool, t ≤ i.seen.now ∧ ∀ l ∈ g.last, l ≤ t) (told : Bool) :
    RoutineSane (afterTick k i (quietTick k i.seen c st out),
      (g.sees k i.seen o).after (afterTick k i (quietTick k i.seen c st out)) told i.seen.now) := by
  have hsilent : k ∉ silentRecovery := fun hn => by
    revert hk hn
    cases k <;> decide
  have hgone : ∀ d ∈ o, fixNow k i.seen = true →
      (afterTick k i (quietTick k i.seen c st out)).level = 0 := by
    intro d hd hf
    obtain ⟨-, h1, h2, h3, h4⟩ := hshown d hd
    exact quietTick_gone hfa hra h1 h2 h3 h4 (hfix hf).1 (hfix hf).2
  have hend := quietTick_end (k := k) (s := i.seen) (c := c) st out
  generalize quietTick k i.seen c st out = r at hend hgone ⊢
  -- the level goes down, or everything is closed
  have hstep : ∀ st', afterTick k i r = st' → st'.hist = st.hist →
      QuietMove i.seen st.hist st.marks st'.marks told → (0 < st'.level → 0 < st.level) →
      RoutineSane (afterTick k i r, (g.sees k i.seen o).after (afterTick k i r) told i.seen.now) := by
    rintro st' rfl hh hq hl
    refine h.step ho hc hq ?_ fun hpos => ?_
    · rw [hh]
      exact h.closed.sees o
    · rw [hh]
      refine (h.dated (hl hpos)).sees h.log ho fun d hd hf => ?_
      have := hgone d hd hf
      omega
  cases hend with
  | still =>
    have heq : afterTick k i (st, out) = st := by
      rw [afterTick, hfa, hra, commit_nil, commit_nil]
    exact hstep st heq rfl (.same h.quiet rfl _) id
  | lower hlt _ hwhy =>
    have heq : afterTick k i ({ st with level := c.level }, out) = { st with level := c.level } := by
      rw [afterTick, hfa, hra, commit_nil, commit_nil]
    refine hstep _ heq rfl ?_ fun _ => by omega
    by_cases hl : 0 < c.level
    · refine .same ?_ ?_ _
      · exact h.quiet.with_level hl
      · rfl
    · have h0 : c.level = 0 := by omega
      obtain ⟨hq, hh⟩ := hs h0
      refine .closed ?_ ?_ _
      · refine .of_none ?_ hq
        rcases hwhy with hne | hsil | ⟨hmetric, hm⟩
        · exact absurd h0 hne
        · exact absurd hsil hsilent
        · exact hh hmetric hm
      · exact h0
  | back hlt _ h0 =>
    have heq : afterTick k i (st, { out with
          recs := out.recs ++ [⟨.recovery, 0, ∅⟩]
          recApply := out.recApply ++ closedTail k st }) =
        if i.recAck then closedSt k st else st := by
      rw [afterTick]
      dsimp only
      rw [hfa, hra, commit_nil, List.nil_append, commit_whole fun hb => (honb hb).2,
        applyAll_closedTail]
    cases hack : i.recAck with
    | false =>
      rw [hack] at heq
      exact hstep st heq rfl (.same h.quiet rfl _) id
    | true =>
      rw [hack] at heq
      have hm := closedSt_marks k st
      refine hstep _ heq (closedSt_hist k st) ?_ fun _ => by omega
      simp only [if_true]
      rw [hm]
      refine .closed ?_ ?_ _
      · exact .of_none rfl (hs h0).1
      · rfl

/-- A mark "fixed" that gets past the gates closes the alert, once its message is
delivered. -/
theorem BodyEnd.fixed_level (h : BodyEnd nm k s c b y) (hk : k ∈ routineKinds)
    (hpass : Kervax.gates k s c b = .next b) (hfix : fixNow k s = true)
    (hf : b.out.fireApply = []) (hr : b.out.recApply = []) (fa : Bool) {ra : Bool}
    (hack : 0 < b.st.level → ra = true) : (y.after fa ra).level = 0 := by
  have hno : ∀ x, AtMembers k s c b x → (y.after fa ra).level = 0 := by
    intro x hx
    cases hfix.symm.trans hx.fix
  cases h with
  | gates _ hg => cases hg.symm.trans hpass
  | fixed _ p hp _ hfx =>
    have hprev : p = b.st.level := by
      rcases hp with heq | ⟨-, hg, -⟩
      · exact heq
      · rw [hg] at hk
        exact absurd hk (by decide)
    change (y.after fa ra).marks.level = 0
    cases hfx with
    | told _ hpos =>
      have hl : 0 < b.st.level := hprev ▸ hpos
      unfold Carry.after
      rw [hack hl, hf, hr]
      cases fa <;> simp [fixedTail_marks]
    | silent =>
      rw [((noMarks_queued hf hr).with _ _).after, fixedTail_marks]
    | nothing _ h0 =>
      rw [((noMarks_queued hf hr).with _ _).after]
      exact hprev.symm.trans h0
  | settle _ hno => cases hfix.symm.trans hno
  | night _ hx => exact hno _ hx
  | members x hx => exact hno x hx
  | routine x hx => exact hno x hx
  | same x hx => exact hno x hx
  | link x hx => exact hno x hx
  | report x hx => exact hno x hx

/-- A tick that the gates stop, which may let the level down. -/
theorem RoutineSane.stopped {i : KindIn} (h : RoutineSane (b.st, g))
    (hfa : b.out.fireApply = []) (hra : b.out.recApply = []) (hg : gates k i.seen c b = .done y)
    (ho : ∀ t ∈ g.clock, t ≤ i.seen.now) (told : Bool) :
    RoutineSane (afterTick k i (y.st, y.out),
      (g.sees k i.seen none).after (afterTick k i (y.st, y.out)) told i.seen.now) := by
  have hend := gates_end (k := k) (s := i.seen) (c := c) (x := b)
  rw [hg] at hend
  have hsame : y.out = b.out → afterTick k i (y.st, y.out) = y.st := by
    intro heq
    rw [afterTick, heq, hfa, hra, commit_nil, commit_nil]
  cases hend with
  | left =>
    rw [hsame rfl]
    exact h.idle ho told
  | muted _ h0 hlt =>
    rw [hsame rfl]
    refine h.step ho (fun _ hc => absurd hc (Option.not_mem_none _)) (.same ?_ ?_ _) (h.closed.sees none) fun hpos => ?_
    · exact h.quiet.with_level h0
    · rfl
    · exact (h.dated (lt_of_le_of_lt (Nat.zero_le _) hlt)).sees h.log ho
        fun _ hc => absurd hc (Option.not_mem_none _)

/-- What the body has done with the history is in the log. -/
theorem HistMove.known {level : Nat} {hist : List Episode} {ack : Bool}
    (hm : HistMove k s c st level hist) (h : RoutineSane (st, g)) (hs : RoutineBody nm k s c st (g.sees k s (some c)) ack)
    (ho : ∀ t ∈ g.clock, t ≤ s.now) (hc : ∀ t ∈ c.ctx.cool, t ≤ s.now ∧ ∀ l ∈ g.last, l ≤ t)
    (hlevel : level = st.level ∨ level = c.level ∨ level = 0) (hfix : fixNow k s = true → level = 0) :
    (g.sees k s (some c)).Closed hist ∧ (0 < level → (g.sees k s (some c)).Dates hist) := by
  have hsane := h.log.sees (k := k) (o := some c) ho fun d hd => by
    cases hd
    exact hc
  have hkeeps : 0 < level → 0 < st.level → (g.sees k s (some c)).Dates st.hist := by
    intro hpos hl
    refine (h.dated hl).sees h.log ho fun d hd hf => ?_
    have := hfix hf
    omega
  cases hm with
  | same hno =>
    refine ⟨h.closed.sees _, fun hpos => ?_⟩
    by_cases hl : 0 < st.level
    · exact hkeeps hpos hl
    · have hcl : 0 < c.level := by omega
      exact hs.dated hcl (by omega) (hno (by omega) hcl hpos)
  | ends ht hf hp =>
    exact ⟨h.closed.ends (h.dated hp) h.log ht hf ho hc, fun _ a ha => absurd ha getLast_routineEnd⟩
  | opens ht hp begun =>
    have hclosed := h.closed.sees (k := k) (s := s) (some c)
    refine ⟨fun a b hab => hclosed a b (mem_routineOpen hab), fun hpos => ?_⟩
    refine hclosed.opens (hkeeps hpos hp) hsane (hsane.since ?_)
    simp [RoutineLog.sees, ht]
  | starts hl h0 hno hw =>
    have hclosed := h.closed.sees (k := k) (s := s) (some c)
    refine ⟨fun a b hab => hclosed a b (mem_routineStart hab), fun _ a ha => ?_⟩
    rw [getLast_routineStart] at ha
    cases ha
    exact ⟨s.now, hs.begins hl h0 hno hw, .inl rfl⟩

theorem RoutineSane.compared {i : KindIn} (h : RoutineSane (b.st, g)) (hk : k ∈ routineKinds)
    (hfa : b.out.fireApply = []) (hra : b.out.recApply = [])
    (honb : i.seen.onb = true → i.fireAck = true ∧ i.recAck = true)
    (hfix : fixNow k i.seen = true → c.level = 0 ∧ (0 < b.st.level → i.recAck = true))
    (hpass : gates k i.seen c b = .next b)
    (hs : RoutineBody nm k i.seen c b.st (g.sees k i.seen (some c)) i.fireAck)
    (ho : ∀ t ∈ g.clock, t ≤ i.seen.now)
    (hc : ∀ t ∈ c.ctx.cool, t ≤ i.seen.now ∧ ∀ l ∈ g.last, l ≤ t)
    (hend : BodyEnd nm k i.seen c b y) :
    RoutineSane (afterTick k i (y.st, y.out), (g.sees k i.seen (some c)).after
      (afterTick k i (y.st, y.out)) (i.fireAck && y.out.tells) i.seen.now) := by
  rw [afterTick_carry honb]
  have hmove := hend.move hfa hra
  have hhist := hend.histMove hk hfa hra (fun hf => (hfix hf).1) hs.overdue i.fireAck i.recAck
  have hknown := hhist.known h hs ho hc (hmove.level _ _) fun hf =>
    hend.fixed_level hk hpass hf hfa hra _ (hfix hf).2
  refine h.step ho (fun d hd => ?_) (hmove.quietMove hk h.quiet hs _) ?_ ?_
  · cases hd
    exact hc
  · rw [Carry.after_hist]
    exact hknown.1
  · rw [Carry.after_hist]
    exact hknown.2

theorem bodyStart_routine (hk : k ∈ routineKinds) (s : Seen) (c : Cond) (st : KindSt) :
    (bodyStart k s c st).st = bookkeep k s c (prepared k s st) := by
  unfold bodyStart
  rcases liftDiskMute_end (k := k) (s := s) (bookkeep k s c (prepared k s st))
    (preparedOut k s st) with heq | ⟨hd, -, -⟩
  · rw [heq]
  · rw [hd] at hk
    exact absurd hk (by decide)

theorem lookedAt_next (hskip : s.skip = false) (hq : s.quietSrv = false) (hc : condNow k s = some c)
    (hg : gates k s c (bodyStart k s c st) = .next y) : lookedAt k s st = some c := by
  simp [lookedAt, hskip, hq, hc, Option.filter, hg]

theorem lookedAt_done (hskip : s.skip = false) (hq : s.quietSrv = false) (hc : condNow k s = some c)
    (hg : gates k s c (bodyStart k s c st) = .done y) : lookedAt k s st = none := by
  simp [lookedAt, hskip, hq, hc, Option.filter, hg]

theorem shown_compared (hq : s.quietSrv = false) : shown k s st = lookedAt k s st := by
  simp [shown, hq]

/-- Where the gates let the tick pass, they leave what they were given. -/
theorem gates_next (hg : gates k s c b = .next y) : y = b := by
  have hend := gates_end (k := k) (s := s) (c := c) (x := b)
  rw [hg] at hend
  cases hend
  rfl

theorem shown_quiet {d : Cond} (hq : s.quietSrv = true) (hskip : s.skip = false)
    (hc : condNow k s = some c) (hd : d ∈ shown k s st) :
    d = c ∧ s.talking = true ∧ s.fresh = true ∧ s.epoch = false ∧ c.ctx.complete = true := by
  simp only [shown, hq, hskip, hc, Bool.not_false, Bool.and_self, if_true, Option.mem_def,
    Option.filter_eq_some_iff, Option.some.injEq, Bool.and_eq_true, Bool.not_eq_true'] at hd
  obtain ⟨rfl, ⟨⟨⟨h1, h2⟩, h3⟩, h4⟩, -⟩ := hd
  exact ⟨rfl, h1, h2, h3, h4⟩

/-- A tick that is sound keeps the state and the log together. -/
theorem routineSane_next (hk : k ∈ routineKinds) {x : KindSt × RoutineLog} {i : KindIn}
    (h : RoutineSane x) (ht : RoutineTimely k x i) (hs : RoutineSound nm k x i) :
    RoutineSane (routineNext nm k x i) := by
  obtain ⟨st, g⟩ := x
  obtain ⟨hclock, hlast⟩ := retired_log g (retiresNow k i.seen st)
  have ho : ∀ t ∈ (g.retired (retiresNow k i.seen st)).clock, t ≤ i.seen.now := by
    rw [hclock]
    exact ht.order
  have hcool : ∀ c ∈ shown k i.seen st, ∀ t ∈ c.ctx.cool, t ≤ i.seen.now ∧
      ∀ l ∈ (g.retired (retiresNow k i.seen st)).last, l ≤ t := by
    rw [hlast]
    exact ht.cool
  have hoff : k ≠ .diskHealth := by
    rintro rfl
    exact absurd hk (by decide)
  unfold routineNext RoutineLog.now
  dsimp only
  have hend := kindTick_end nm k i.seen st
  generalize kindTick nm k i.seen st = r at hend ⊢
  cases hend with
  | skip hskip =>
    have hret : retiresNow k i.seen st = false := by simp [retiresNow, hskip]
    have hnone : shown k i.seen st = none := by simp [shown, lookedAt, hskip]
    rw [hret, hnone]
    exact h.idle ht.order _
  | unseenQuiet hskip hc =>
    have hnone : shown k i.seen st = none := by simp [shown, lookedAt, hc]
    rw [hnone]
    exact (h.prepared hskip).idle ho _
  | unseen hskip hc =>
    have hnone : shown k i.seen st = none := by simp [shown, lookedAt, hc]
    have heq : liftDiskMute k i.seen (prepared k i.seen st) (preparedOut k i.seen st) =
        (prepared k i.seen st, preparedOut k i.seen st) := by
      rcases liftDiskMute_end (k := k) (s := i.seen) (prepared k i.seen st)
        (preparedOut k i.seen st) with heq | ⟨hd, -⟩
      · exact heq
      · exact absurd hd hoff
    rw [hnone, heq]
    exact (h.prepared hskip).idle ho _
  | quiet hskip c hc hq =>
    have hprep := (h.prepared (k := k) hskip).congr (bookkeep_marks k i.seen c _)
      (bookkeep_hist k i.seen c _)
    have hm := prepared_cases k i.seen st
    have hb := bookkeep_marks k i.seen c (prepared k i.seen st)
    simp only [KindSt.marks, Marks.mk.injEq] at hm hb
    obtain ⟨hb1, hb2, hb3, -⟩ := hb
    have hmuted := (prepared_quiet k i.seen st).muted
    refine hprep.snoozed hk rfl rfl hs.onboarding (fun h0 => ?_) (fun hf => ⟨condNow_fixed hc hf, ?_⟩)
      (fun d hd => shown_quiet hq hskip hc hd) ho hcool _
    · obtain ⟨h1, h2⟩ := hs.snooze hq c hc h0
      rw [hb2, hb3, bookkeep_flap]
      rcases hm with ⟨-, hh, hqn, -⟩ | ⟨-, hh, hqn, -⟩
      · exact ⟨hqn, fun _ _ => hh⟩
      · rw [hh, hqn]
        exact ⟨h1, fun hmetric hmu => h2 hmetric (hmuted hmu)⟩
    · rw [hb1]
      intro hpos
      rcases hm with ⟨h0, -⟩ | ⟨hl, -⟩
      · omega
      · exact hs.fixed hf (hl ▸ hpos)
  | body hskip c hc hq =>
    have hstart := bodyStart_routine hk i.seen c st
    have hb := bookkeep_marks k i.seen c (prepared k i.seen st)
    have hprep : RoutineSane ((bodyStart k i.seen c st).st, g.retired (retiresNow k i.seen st)) := by
      rw [hstart]
      exact (h.prepared hskip).congr hb (bookkeep_hist k i.seen c _)
    obtain ⟨-, hfa, hra⟩ := bodyStart_queue k i.seen c st
    cases hg : gates k i.seen c (bodyStart k i.seen c st) with
    | done y =>
      rw [loopBody_stopped nm hg, shown_compared hq, lookedAt_done hskip hq hc hg]
      exact hprep.stopped hfa hra hg ho _
    | next y =>
      have hlook := lookedAt_next hskip hq hc hg
      have hshown : shown k i.seen st = some c := (shown_compared hq).trans hlook
      have hbody := hs.body c hlook
      unfold RoutineLog.now at hbody
      dsimp only at hbody
      rw [hshown] at hbody hcool ⊢
      rw [gates_next hg] at hg
      refine hprep.compared hk hfa hra hs.onboarding (fun hf => ⟨condNow_fixed hc hf, fun hpos => ?_⟩)
        hg hbody ho (hcool c rfl) (loopBody_end nm k i.seen c _)
      have hm := prepared_cases k i.seen st
      rw [hstart] at hpos
      simp only [KindSt.marks, Marks.mk.injEq] at hm hb
      rw [hb.1] at hpos
      rcases hm with ⟨h0, -⟩ | ⟨hl, -⟩
      · omega
      · exact hs.fixed hf (hl ▸ hpos)

/-- And what is there after the limit of a held episode is offered. -/
theorem routine_limit (hk : k ∈ routineKinds) {x : KindSt × RoutineLog} {i : KindIn}
    (h : RoutineSane x) (hs : RoutineSound nm k x i) {r : Time × Time} (hr : r ∈ x.2.held)
    (hret : retiresNow k i.seen x.1 = false) (hc : c ∈ lookedAt k i.seen x.1)
    (ht : c.trouble = true) (hle : r.2 ≤ i.seen.now) :
    (kindTick nm k i.seen x.1).2.tells = true := by
  have hbody := hs.body c hc
  simp only [lookedAt, Option.mem_def] at hc
  split at hc
  · cases hc
  rename_i hno
  simp only [Bool.or_eq_true, not_or, Bool.not_eq_true] at hno
  obtain ⟨hskip, hq⟩ := hno
  obtain ⟨hc, hg⟩ := Option.filter_eq_some_iff.1 hc
  have hret : retires k i.seen (liftFlap k i.seen x.1).1 = false := by
    simpa [retiresNow, hskip] using hret
  have hmarks : (bodyStart k i.seen c x.1).st.marks = x.1.marks := by
    rw [bodyStart_routine hk, bookkeep_marks, prepared_kept hret]
  have hquiet : (bodyStart k i.seen c x.1).st.quiet = some r.2 :=
    (congrArg Marks.quiet hmarks).trans (h.held r hr).1
  have hpass : gates k i.seen c (bodyStart k i.seen c x.1) = .next (bodyStart k i.seen c x.1) := by
    split at hg
    · rename_i y hgy
      rw [gates_next hgy] at hgy
      exact hgy
    · cases hg
  have hend := kindTick_end nm k i.seen x.1
  generalize kindTick nm k i.seen x.1 = res at hend ⊢
  cases hend with
  | skip hno => exact absurd (hskip.symm.trans hno) (by simp)
  | unseenQuiet _ hno => cases hno.symm.trans hc
  | unseen _ hno => cases hno.symm.trans hc
  | quiet _ _ _ hno => exact absurd (hq.symm.trans hno) (by simp)
  | body _ c' hc' =>
    obtain rfl : c = c' := Option.some.inj (hc.symm.trans hc')
    exact (loopBody_end nm k i.seen c _).overrun hk hbody (hmarks ▸ h.quiet) hquiet hle ht
      (condNow_fixed hc) hpass

/-! ## Runs -/

theorem routineRight_next (hk : k ∈ routineKinds) {x : KindSt × RoutineLog} {i : KindIn}
    (h : RoutineSane x) (ht : RoutineTimely k x i) (hs : RoutineSound nm k x i) :
    RoutineRight nm k x i where
  usual r hr := ((routineSane_next hk h ht hs).held r hr).2
  limit _ hr hret _ hc htrouble hle := routine_limit hk h hs hr hret hc htrouble hle

/-- A held episode is a usual one, and it is told after its limit, over every run of
a routine kind. -/
theorem routine_keeps_its_limit (nm : Norms) (k : Kind) (hk : k ∈ routineKinds) (is : List KindIn)
    (hall : Along (routineNext nm k) (fun x i => RoutineTimely k x i ∧ RoutineSound nm k x i)
      ({}, {}) is) :
    Along (routineNext nm k) (RoutineRight nm k) ({}, {}) is :=
  step_of_run routineSane_nothing (fun _ _ h hs => routineSane_next hk h hs.1 hs.2)
    (fun _ _ h hs => routineRight_next hk h hs.1 hs.2) hall

/-- A tick that finds the disks slow at `level`. -/
def slowTick (n : Int) (level : Nat) : KindIn :=
  ⟨{ now := sec n, cond := some ⟨level, {}⟩ }, true, true⟩

/-- What such a tick asks of the state and of the log. -/
def SlowSound (n : Int) (level : Nat) (x : KindSt × RoutineLog) : Prop :=
  let s := (slowTick n level).seen
  let st := (bodyStart .diskSlow s ⟨level, {}⟩ x.1).st
  (∀ t ∈ x.2.clock, t ≤ sec n) ∧
    (0 < level → overdueNow s ⟨level, {}⟩ st = false) ∧
    (0 < level → st.level = 0 → againOf st level ∅ s.now = none ∧
      (x.2.now .diskSlow s x.1).last = some s.now)

instance (n : Int) (level : Nat) (x : KindSt × RoutineLog) : Decidable (SlowSound n level x) := by
  unfold SlowSound
  infer_instance

/-- What is looked at is the condition of the tick. -/
theorem lookedAt_cond (h : c ∈ lookedAt k s st) : condNow k s = some c := by
  simp only [lookedAt, Option.mem_def] at h
  split at h
  · cases h
  · exact (Option.filter_eq_some_iff.1 h).1

theorem shown_cond (h : c ∈ shown k s st) : condNow k s = some c := by
  unfold shown at h
  split at h
  · exact (Option.filter_eq_some_iff.1 h).1
  · exact lookedAt_cond h

theorem slowTick_sound {n : Int} {level : Nat} {x : KindSt × RoutineLog} (h : SlowSound n level x) :
    RoutineTimely .diskSlow x (slowTick n level) ∧
      RoutineSound plainNorms .diskSlow x (slowTick n level) := by
  obtain ⟨ho, hover, hopens⟩ := h
  refine ⟨⟨ho, fun c hc t ht => ?_⟩, fun _ => ⟨rfl, rfl⟩, fun hq => (nomatch hq),
    fun hf => (nomatch hf), fun c hc => ?_⟩
  · obtain rfl := Option.some.inj (shown_cond hc)
    cases ht
  · obtain rfl := Option.some.inj (lookedAt_cond hc)
    exact
      { policy := fun _ hk => absurd hk (by decide)
        thrash := fun _ hi => nomatch hi
        told := fun _ _ _ _ => rfl
        overdue := hover
        begins := fun hl h0 _ _ => (hopens hl h0).2
        dated := fun hl h0 hno => by
          rcases hno with hi | hw
          · cases hi
          · exact absurd (hopens hl h0).1 hw
        members := fun _ _ _ _ hk => absurd hk (by decide)
        guard := fun _ _ _ _ hk => absurd hk (by decide) }

/-- Slow disks at ten on two days, and on the third day they are held, and told once
they last for an hour longer than usual. -/
def slowDays : List KindIn :=
  [slowTick 36000 1, slowTick 37800 0, slowTick 38700 0, slowTick 122400 1, slowTick 124200 0,
    slowTick 125100 0, slowTick 208800 1, slowTick 215100 1]

theorem routine_keeps_its_limit_slow :
    Along (routineNext plainNorms .diskSlow) (RoutineRight plainNorms .diskSlow) ({}, {}) slowDays :=
  routine_keeps_its_limit plainNorms .diskSlow (by decide) slowDays
    ⟨slowTick_sound (by decide +kernel), slowTick_sound (by decide +kernel),
      slowTick_sound (by decide +kernel), slowTick_sound (by decide +kernel),
      slowTick_sound (by decide +kernel), slowTick_sound (by decide +kernel),
      slowTick_sound (by decide +kernel), slowTick_sound (by decide +kernel), trivial⟩

/-- A tick that finds the container restarting, or not. -/
def restartTick (n : Int) (level : Nat) : KindIn :=
  ⟨{ now := sec n, cond := some ⟨level, { sig := some (if 0 < level then {"web"} else ∅) }⟩ },
    true, true⟩

theorem restartTick_timely {n : Int} {level : Nat} {x : KindSt × RoutineLog}
    (ho : ∀ t ∈ x.2.clock, t ≤ sec n) : RoutineTimely .dockerRestarts x (restartTick n level) where
  order := ho
  cool c hc t ht := by
    obtain rfl := Option.some.inj (shown_cond hc)
    cases ht

/-- The same days of a container: its members leave the body before the limit is
looked at, and nothing is ever told. -/
theorem a_held_member_outlasts_its_limit :
    ¬ ∀ k ∈ routineKinds, ∀ is : List KindIn,
      Along (routineNext plainNorms k) (RoutineTimely k) ({}, {}) is →
        Along (routineNext plainNorms k) (RoutineRight plainNorms k) ({}, {}) is := by
  intro h
  have hrun := h .dockerRestarts (by decide) [restartTick 36000 1, restartTick 37800 0,
    restartTick 122400 1, restartTick 124200 0, restartTick 208800 1, restartTick 216000 1]
    ⟨restartTick_timely (by decide +kernel), restartTick_timely (by decide +kernel),
      restartTick_timely (by decide +kernel), restartTick_timely (by decide +kernel),
      restartTick_timely (by decide +kernel), restartTick_timely (by decide +kernel), trivial⟩
  have htold := hrun.2.2.2.2.2.1.limit (sec 208800, sec 214200) (show _ = _ by decide +kernel)
    (by decide +kernel) ⟨1, { sig := some {"web"} }⟩ (show _ = _ by decide +kernel) (by decide)
    (by decide)
  exact absurd htold (by decide +kernel)

end Kervax
