-- One check of a monitor, and what the panel has on record of its alerts: a
-- failure is queued when the chat may hear one, and a recovery when one is due.
import Kervax.SiteFlap

namespace Kervax

/-! ## What the chat has heard -/

/-- Where the chat stands: nothing is open, the last alert said "flaky", or it
said "down". -/
inductive Chat
  | quiet | flaky | bad
deriving DecidableEq, Repr

/-- The alerts that end an episode. -/
def episodeRecoveries : List SiteKind := [.recovery, .recstable, .flakyrec]

/-- The alerts that tell of a failure. -/
def episodeFailures : List SiteKind := [.bad, .flaky]

/-- The next alert, when it may come: "down" can follow "flaky", and each other
pair of failures has a recovery between. -/
def Chat.next : Chat → SiteKind → Option Chat
  | .bad, .bad | .bad, .flaky | .flaky, .flaky => none
  | _, .bad => some .bad
  | _, .flaky => some .flaky
  | .quiet, _ => none
  | _, k => if k ∈ episodeRecoveries then some .quiet else none

/-- Where the chat stands after the alerts, when they alternate. -/
def chatAfter (alerts : List SiteKind) : Option Chat := alerts.foldlM Chat.next .quiet

/-- The alert that an event brings to the chat. -/
def SiteEvent.heard : SiteEvent → Option SiteKind
  | .queued _ => none
  | .out k => some k
  | .partly k => some k

/-! ## What the panel has on record -/

/-- The same for what the panel takes as told. The recovery of a "down" counts
from when it is queued, each other alert from when its batch went through; a
failure that goes out with a batch that fails may only come where one is due. -/
def Chat.hear (c : Chat) : SiteEvent → Option Chat
  | .queued k => if k ∈ recoveryKinds then c.next k else some c
  | .out k => if k ∈ recoveryKinds then some c else c.next k
  | .partly k => if k ∈ episodeFailures then (c.next k).map fun _ => c else some c

/-- Where the panel stands after the events, when they alternate. -/
def standing (log : List SiteEvent) : Option Chat := log.foldlM Chat.hear .quiet

theorem standing_append (log more : List SiteEvent) :
    standing (log ++ more) = (standing log).bind fun c => more.foldlM Chat.hear c := by
  unfold standing
  rw [List.foldlM_append]
  rfl

/-! ## How the row stands to the record -/

def SiteRow.announced (row : SiteRow) : Bool := row.inc.any (·.notified)

/-- The row agrees with the record. -/
inductive Stands (row : SiteRow) : Chat → Prop
  | quiet (hl : row.flap.level = none) (hn : row.announced = false)
      (hf : row.flakyNotified = false) : Stands row .quiet
  | flaky (hl : row.flap.level ≠ some .down) (hn : row.announced = false)
      (hf : row.flakyNotified = true) : Stands row .flaky
  | bad (hl : row.flap.level = some .down)
      (hf : row.flakyNotified = true → row.flakySince.isSome) : Stands row .bad

theorem Stands.congr {row row' : SiteRow} {c : Chat} (h : Stands row c)
    (hl : row'.flap = row.flap) (hn : row'.announced = row.announced)
    (hs : row'.flakySince = row.flakySince) (hf : row'.flakyNotified = row.flakyNotified) :
    Stands row' c := by
  cases h with
  | quiet h1 h2 h3 => exact .quiet (hl ▸ h1) (hn ▸ h2) (hf ▸ h3)
  | flaky h1 h2 h3 => exact .flaky (hl ▸ h1) (hn ▸ h2) (hf ▸ h3)
  | bad h1 h2 => exact .bad (hl ▸ h1) (by rw [hs, hf]; exact h2)

/-! ## The halves of a check -/

variable (m : SiteMon)

/-- The alert "down" is due: a scheduled check fails, and nothing keeps the alert
back. -/
structure BadDue (row : SiteRow) (status : CheckStatus) (now : Time) : Prop where
  failed : status ≠ .up
  counted : max (if status = .degraded then m.degradedAfter else m.alertAfter) 1 ≤ row.consecutiveFails
  unsaid : row.announced = false
  level : row.flap.level ≠ some .down
  worse : row.flap.level = some .flaky → worseAfter ≤ now - (row.inc.getD ⟨now, false⟩).startedAt

/-- The failure half: nothing is queued, or a "down" that is due. -/
theorem failStep_cases {row : SiteRow} {c : Chat} (h : Stands row c) {status : CheckStatus}
    (hfail : status ≠ .up) (now : Time) (manual : Bool) :
    Stands (failStep m row status now manual).1 c ∧
      ((failStep m row status now manual).2 = [] ∨
        manual = false ∧ BadDue m row status now ∧
        (failStep m row status now manual).2 = [⟨.bad, [.flap (.opened .down now)]⟩]) := by
  have hinc : (row.inc.getD ⟨now, false⟩).notified = row.announced := by
    unfold SiteRow.announced
    cases row.inc <;> rfl
  have hkeep : Stands { row with inc := some (row.inc.getD ⟨now, false⟩) } c :=
    h.congr rfl (by simpa [SiteRow.announced] using hinc) rfl rfl
  unfold failStep
  dsimp only
  generalize hth : max (if status = .degraded then m.degradedAfter else m.alertAfter) 1 = threshold
  split
  · rename_i hdue
    split
    · rename_i hdown
      refine ⟨?_, .inl rfl⟩
      cases h with
      | quiet hl => exact absurd hdown (by simp [hl])
      | flaky hl => exact absurd hdown hl
      | bad hl hf => exact .bad hl hf
    · rename_i hdown
      split
      · exact ⟨hkeep, .inl rfl⟩
      · rename_i hworse
        have hunsaid : row.announced = false := by
          rw [← hinc]
          simpa using hdue.2.1
        refine ⟨hkeep, .inr ⟨by simpa using hdue.1, ⟨hfail, hth ▸ hdue.2.2, hunsaid, hdown, ?_⟩, rfl⟩⟩
        intro hflaky
        by_contra hlt
        exact hworse ⟨hflaky, not_le.1 hlt⟩
  · exact ⟨hkeep, .inl rfl⟩

/-- The success half: nothing is queued, or the recovery of a "down", and then
the row is as new. -/
theorem upStep_cases {row : SiteRow} {c : Chat} (h : Stands row c) (now : Time) :
    (upStep m row now).2 = [] ∧ Stands (upStep m row now).1 c ∨
      ∃ k ∈ recoveryKinds, (upStep m row now).2 = [⟨k, []⟩] ∧ c = .bad ∧
        Stands (upStep m row now).1 .quiet ∧ (upStep m row now).1.flap = .closed now ∧
        (upStep m row now).1.flakySince = none := by
  unfold upStep
  split
  · rename_i inc hinc
    dsimp only
    by_cases hnot : inc.notified = true
    · have hann : row.announced = true := by simp [SiteRow.announced, hinc, hnot]
      rw [if_pos hnot]
      cases h with
      | quiet hl hn hf => simp [hann] at hn
      | flaky hl hn hf => simp [hann] at hn
      | bad hl hf =>
        split
        · exact .inl ⟨rfl, .bad hl hf⟩
        · rename_i hnoflap
          simp only [Bool.or_eq_true, not_or] at hnoflap
          have hsince : row.flakySince = none := by simpa using hnoflap.1
          refine .inr ⟨.recovery, by simp [recoveryKinds], rfl, rfl, .quiet rfl rfl ?_, rfl, hsince⟩
          by_contra hfn
          exact hnoflap.1 (hf (by simpa using hfn))
    · rw [if_neg hnot]
      refine .inl ⟨rfl, ?_⟩
      cases h with
      | quiet hl hn hf => exact .quiet hl rfl hf
      | flaky hl hn hf => exact .flaky hl rfl hf
      | bad hl hf => exact .bad hl hf
  · rename_i hinc
    split
    · rename_i hst
      refine .inr ⟨.recstable, by simp [recoveryKinds], rfl, ?_⟩
      cases h with
      | quiet hl => simp [hl] at hst
      | flaky hl => exact absurd hst.1 hl
      | bad hl hf =>
        exact ⟨rfl, .quiet rfl (by simp [SiteRow.announced, hinc]) rfl, rfl, rfl⟩
    · exact .inl ⟨rfl, h⟩

theorem withFlaky_isSome (row : SiteRow) (b : Bool) (now : Time) :
    (row.withFlaky b now).flakySince.isSome = b := by
  unfold SiteRow.withFlaky
  rcases hs : row.flakySince with _ | t <;> cases b <;> simp [hs]

@[simp] theorem withFlaky_flap (row : SiteRow) (b : Bool) (now : Time) :
    (row.withFlaky b now).flap = row.flap := by
  unfold SiteRow.withFlaky
  split_ifs <;> rfl

@[simp] theorem withFlaky_announced (row : SiteRow) (b : Bool) (now : Time) :
    (row.withFlaky b now).announced = row.announced := by
  unfold SiteRow.withFlaky
  split_ifs <;> rfl

@[simp] theorem withFlaky_notified (row : SiteRow) (b : Bool) (now : Time) :
    (row.withFlaky b now).flakyNotified = row.flakyNotified := by
  unfold SiteRow.withFlaky
  split_ifs <;> rfl

/-- The window of the flaky half is that of a flaky site. -/
def windowFlaky (row : SiteRow) (status : CheckStatus) (now : Time) : Bool :=
  isFlaky (flakyHist m row now status) (max m.alertAfter 1) row.flakySince.isSome

/-- The flaky half: nothing is queued, or a "flaky" while nothing is announced,
or the recovery of a "flaky". -/
theorem flakyStep_cases {row : SiteRow} {c : Chat} (h : Stands row c) (status : CheckStatus)
    (now : Time) :
    (flakyStep m row status now).2 = [] ∧ Stands (flakyStep m row status now).1 c ∧
        ((flakyStep m row status now).1.flakyNotified = true →
          (flakyStep m row status now).1.flakySince.isSome) ∨
      (flakyStep m row status now).2 = [⟨.flaky, [.flakyNotified true, .flap (.opened .flaky now)]⟩] ∧
        Stands (flakyStep m row status now).1 c ∧ c = .quiet ∧
        windowFlaky m row status now = true ∧ row.flakyNotified = false ∧ row.flap.level = none ∨
      (flakyStep m row status now).2 = [⟨.flakyrec, [.flakyNotified false]⟩] ∧
        c = .flaky ∧ Stands (flakyStep m row status now).1 .flaky ∧
        (flakyStep m row status now).1.flap.level = none ∧
        windowFlaky m row status now = false ∧ row.flakyNotified = true := by
  unfold flakyStep windowFlaky
  dsimp only
  generalize isFlaky (flakyHist m row now status) (max m.alertAfter 1) row.flakySince.isSome = b
  have hsome := withFlaky_isSome row b now
  have hflap := withFlaky_flap row b now
  have hann := withFlaky_announced row b now
  have hfn := withFlaky_notified row b now
  generalize row.withFlaky b now = row' at hsome hflap hann hfn ⊢
  cases h with
  | quiet hl hn hf =>
    have hrow : Stands row' .quiet := .quiet (hflap ▸ hl) (hann ▸ hn) (hfn ▸ hf)
    rw [hflap, hfn, hl, hf]
    cases b
    · exact .inl ⟨by simp, by simpa using hrow, by simp [hfn, hf]⟩
    · exact .inr (.inl ⟨by simp, by simpa using hrow, rfl, rfl, rfl, rfl⟩)
  | bad hl hf =>
    rw [hflap, hfn, hl]
    cases b <;> rcases hb : row.flakyNotified with _ | _
    · exact .inl ⟨by simp, by simpa using .bad (hflap ▸ hl) (by simp [hfn, hb]), by simp [hfn, hb]⟩
    · exact .inl ⟨by simp, by simpa using .bad (hflap ▸ hl) (by simp), by simp⟩
    · exact .inl ⟨by simp, by simpa using .bad (hflap ▸ hl) (by simp [hsome]), by simp [hsome]⟩
    · exact .inl ⟨by simp, by simpa using .bad (hflap ▸ hl) (by simp [hsome]), by simp [hsome]⟩
  | flaky hl hn hf =>
    rw [hflap, hfn, hf]
    cases b
    · rcases hlv : row.flap.level with _ | _ | _
      · refine .inr (.inr ⟨by simp, rfl, ?_, by simpa [hflap] using hlv, rfl, rfl⟩)
        simpa using Stands.flaky (by simp [hflap, hlv]) (hann ▸ hn) (hfn ▸ hf)
      · exact absurd hlv hl
      · refine .inr (.inr ⟨by simp, rfl, ?_, by simp [FlapState.level], rfl, rfl⟩)
        simpa using .flaky (by simp [FlapState.level]) (hann ▸ hn) (by simp)
    · have hrow : Stands row' .flaky := .flaky (hflap ▸ hl) (hann ▸ hn) (hfn ▸ hf)
      exact .inl ⟨by simp, by simpa using hrow, by simp [hsome]⟩

/-- The episode that this check closes leaves one answer in the window. -/
theorem windowFlaky_closed {row : SiteRow} {now : Time} (hl : row.flap = .closed now)
    (hs : row.flakySince = none) : windowFlaky m row .up now = false := by
  have hprev : (row.samples.filter fun e => e.1 < now && decide (now < e.1)) = [] := by
    refine List.filter_eq_nil_iff.2 fun e _ => ?_
    simp only [Bool.and_eq_true, decide_eq_true_eq, not_and, not_lt]
    exact fun h => h.le
  unfold windowFlaky flakyHist
  rw [hl, hs]
  simp only [FlapState.cutoff, hprev]
  simp [isFlaky, inOutage, shortFailures, failRuns, lastN, flakyFails]

/-! ## A whole check -/

/-- The check comes in time: the episode is not forgotten. -/
theorem forgetEpisode_paced {row : SiteRow} {now : Time}
    (h : ∀ t, row.lastCheckedAt = some t → now - t ≤ stableFor) : forgetEpisode row now = row := by
  unfold forgetEpisode
  split
  · rename_i t ht
    rw [if_neg fun hc => absurd hc.2 (not_lt.2 (h t ht))]
  · rfl

/-- A scheduled check for which both halves have an alert: "down" is due, and
the window turns flaky while nothing is announced, or is clear after a "flaky". -/
def Doubled (row : SiteRow) (status : CheckStatus) (now : Time) : Prop :=
  BadDue m (countFails row status false) status now ∧
    if windowFlaky m row status now then row.flakyNotified = false ∧ row.flap.level = none
    else row.flakyNotified = true

/-- What a check does that queues one alert at most. -/
inductive Checked (row : SiteRow) (c : Chat) : List SiteAlert → Prop
  | none (h : Stands row c) : Checked row c []
  /-- A failure, when one is due. -/
  | failure (a : SiteAlert) (h : Stands row c) (hk : a.kind ∈ episodeFailures)
      (hnext : ∃ c', c.next a.kind = some c' ∧ Stands (commitAlert row a) c') : Checked row c [a]
  /-- The recovery of a "down". -/
  | recovery (k : SiteKind) (hk : k ∈ recoveryKinds) (hc : c = .bad) (h : Stands row .quiet) :
      Checked row c [⟨k, []⟩]
  /-- The recovery of a "flaky". -/
  | flakyrec (hc : c = .flaky) (h : Stands row .flaky) (hl : row.flap.level = Option.none) :
      Checked row c [⟨.flakyrec, [.flakyNotified false]⟩]

theorem commitAlert_flaky (row : SiteRow) (s : FlapState) :
    commitAlert row ⟨.flaky, [.flakyNotified true, .flap s]⟩ =
      { row with flakyNotified := true, flap := s } := by
  simp [commitAlert, setMark]

/-- What the end of a check writes. -/
theorem Stands.checked {row : SiteRow} {c : Chat} (h : Stands row c) (status : CheckStatus)
    (now : Time) :
    Stands { row with
      lastStatus := some status
      lastCheckedAt := some now
      samples := row.samples ++ [(now, status)] } c :=
  h.congr rfl rfl rfl rfl

theorem Stands.counted {row : SiteRow} {c : Chat} (h : Stands row c) (status : CheckStatus)
    (manual : Bool) : Stands (countFails row status manual) c := by
  unfold countFails
  split_ifs <;> exact h.congr rfl rfl rfl rfl

/-- The first half of a check, by the status. -/
def firstHalf (row : SiteRow) (status : CheckStatus) (now : Time) (manual : Bool) :
    SiteRow × List SiteAlert :=
  if status = .up then upStep m row now else failStep m row status now manual

/-- The second half, which a manual check skips. -/
def secondHalf (row : SiteRow) (status : CheckStatus) (now : Time) (manual : Bool) :
    SiteRow × List SiteAlert :=
  if manual then (row, []) else flakyStep m row status now

theorem recordOutcome_eq (row : SiteRow) (status : CheckStatus) (now : Time) (manual : Bool) :
    recordOutcome m row status now manual =
      let r := firstHalf m (forgetEpisode (countFails row status manual) now) status now manual
      let r' := secondHalf m r.1 status now manual
      ({ r'.1 with
          lastStatus := some status
          lastCheckedAt := some now
          samples := r'.1.samples ++ [(now, status)] }, r.2 ++ r'.2) := rfl

theorem countFails_frame (row : SiteRow) (status : CheckStatus) (manual : Bool) :
    (countFails row status manual).samples = row.samples ∧
      (countFails row status manual).lastCheckedAt = row.lastCheckedAt ∧
      (countFails row status manual).flap = row.flap ∧
      (countFails row status manual).flakySince = row.flakySince ∧
      (countFails row status manual).flakyNotified = row.flakyNotified ∧
      (countFails row status manual).inc = row.inc := by
  unfold countFails
  split_ifs <;> exact ⟨rfl, rfl, rfl, rfl, rfl, rfl⟩

theorem failStep_frame (row : SiteRow) (status : CheckStatus) (now : Time) (manual : Bool) :
    (failStep m row status now manual).1.samples = row.samples ∧
      (failStep m row status now manual).1.flap = row.flap ∧
      (failStep m row status now manual).1.flakySince = row.flakySince ∧
      (failStep m row status now manual).1.flakyNotified = row.flakyNotified := by
  unfold failStep
  dsimp only
  generalize max (if status = .degraded then m.degradedAfter else m.alertAfter) 1 = threshold
  split_ifs <;> exact ⟨rfl, rfl, rfl, rfl⟩

theorem firstHalf_cases {row : SiteRow} {c : Chat} (h : Stands row c) (status : CheckStatus)
    (now : Time) (manual : Bool) :
    (firstHalf m row status now manual).2 = [] ∧ Stands (firstHalf m row status now manual).1 c ∨
      (firstHalf m row status now manual).2 = [⟨.bad, [.flap (.opened .down now)]⟩] ∧
        manual = false ∧ BadDue m row status now ∧ Stands (firstHalf m row status now manual).1 c ∨
      ∃ k ∈ recoveryKinds, (firstHalf m row status now manual).2 = [⟨k, []⟩] ∧ c = .bad ∧
        status = .up ∧ Stands (firstHalf m row status now manual).1 .quiet ∧
        (firstHalf m row status now manual).1.flap = .closed now ∧
        (firstHalf m row status now manual).1.flakySince = none := by
  unfold firstHalf
  split
  · rename_i hup
    rcases upStep_cases m h now with ⟨hq, hs⟩ | ⟨k, hk, hq, hc, hs, hrow⟩
    · exact .inl ⟨hq, hs⟩
    · exact .inr (.inr ⟨k, hk, hq, hc, hup, hs, hrow⟩)
  · rename_i hfail
    obtain ⟨hs, hq | ⟨hman, hdue, hq⟩⟩ := failStep_cases m h hfail now manual
    · exact .inl ⟨hq, hs⟩
    · exact .inr (.inl ⟨hq, hman, hdue, hs⟩)

/-- "Down" and an alert of the flaky half at one check: the check is doubled. -/
theorem doubled_of_both {row : SiteRow} {c : Chat} {status : CheckStatus} {now : Time}
    (hdue : BadDue m (countFails row status false) status now)
    (hs : Stands (failStep m (countFails row status false) status now false).1 c)
    (hq : (flakyStep m (failStep m (countFails row status false) status now false).1 status now).2 ≠
      []) : Doubled m row status now := by
  obtain ⟨hsm, -, hflap, hfs, hfn, -⟩ := countFails_frame row status false
  obtain ⟨hsm', hflap', hfs', hfn'⟩ := failStep_frame m (countFails row status false) status now false
  have hwindow : windowFlaky m (failStep m (countFails row status false) status now false).1 status
      now = windowFlaky m row status now := by
    unfold windowFlaky flakyHist
    rw [hsm', hflap', hfs', hsm, hflap, hfs]
  refine ⟨hdue, ?_⟩
  rcases flakyStep_cases m hs status now with ⟨hnil, -⟩ | ⟨-, -, -, hb, hn, hl⟩ | ⟨-, -, -, -, hb, hn⟩
  · exact absurd hnil hq
  · rw [if_pos (hwindow ▸ hb)]
    exact ⟨(hfn'.trans hfn) ▸ hn, (hflap'.trans hflap) ▸ hl⟩
  · rw [if_neg (by simp [← hwindow, hb])]
    exact (hfn'.trans hfn) ▸ hn

/-- A check that comes in time and is not doubled keeps the row in step with the
record. -/
theorem recordOutcome_checked {row : SiteRow} {c : Chat} (h : Stands row c) {status : CheckStatus}
    {now : Time} {manual : Bool} (hpaced : ∀ t, row.lastCheckedAt = some t → now - t ≤ stableFor)
    (hone : manual = false → ¬ Doubled m row status now) :
    Checked (recordOutcome m row status now manual).1 c
      (recordOutcome m row status now manual).2 := by
  have hlast := (countFails_frame row status manual).2.1
  rw [recordOutcome_eq, forgetEpisode_paced (hlast ▸ hpaced)]
  dsimp only
  rcases firstHalf_cases m (h.counted status manual) status now manual with
    ⟨hq, hs⟩ | ⟨hq, rfl, hdue, hs⟩ | ⟨k, hk, hq, rfl, rfl, hs, hl, hsince⟩
  · generalize firstHalf m (countFails row status manual) status now manual = r at hq hs ⊢
    rw [hq, List.nil_append]
    unfold secondHalf
    cases manual
    · simp only [Bool.false_eq_true, if_false]
      rcases flakyStep_cases m hs status now with
        ⟨hq', hs', -⟩ | ⟨hq', hs', rfl, -⟩ | ⟨hq', hc, hs', hl, -⟩
      · rw [hq']
        exact .none (hs'.checked status now)
      · rw [hq']
        refine .failure _ (hs'.checked status now) (by simp [episodeFailures]) ⟨.flaky, rfl, ?_⟩
        rw [commitAlert_flaky]
        cases hs' with
        | quiet _ hn _ => exact .flaky (by simp [FlapState.level]) hn rfl
      · rw [hq']
        exact .flakyrec hc (hs'.checked status now) hl
    · simp only [if_true]
      exact .none (hs.checked status now)
  · -- "down" is due, so the flaky half queues nothing
    have hfirst : firstHalf m (countFails row status false) status now false =
        failStep m (countFails row status false) status now false := by
      unfold firstHalf
      rw [if_neg hdue.failed]
    have hnil : (flakyStep m (firstHalf m (countFails row status false) status now false).1 status
        now).2 = [] := by
      by_contra hne
      rw [hfirst] at hs hne
      exact hone rfl (doubled_of_both m hdue hs hne)
    generalize firstHalf m (countFails row status false) status now false = r at hq hs hnil ⊢
    have hsecond : secondHalf m r.1 status now false = flakyStep m r.1 status now := by
      simp [secondHalf]
    rw [hsecond, hnil, hq, List.append_nil]
    rcases flakyStep_cases m hs status now with ⟨-, hs', hfs⟩ | ⟨hq', -⟩ | ⟨hq', -⟩
    · refine .failure _ (hs'.checked status now) (by simp [episodeFailures]) ⟨.bad, ?_, .bad rfl hfs⟩
      have hc : c ≠ .bad := by
        rintro rfl
        cases h with
        | bad hdown => exact hdue.level ((countFails_frame row status false).2.2.1 ▸ hdown)
      cases c with
      | quiet => rfl
      | flaky => rfl
      | bad => exact absurd rfl hc
    · rw [hnil] at hq'
      cases hq'
    · rw [hnil] at hq'
      cases hq'
  · -- the episode is closed, so the flaky half sees this check only
    generalize firstHalf m (countFails row .up manual) .up now manual = r at hq hs hl hsince ⊢
    have hwindow := windowFlaky_closed m hl hsince
    have hnil : (secondHalf m r.1 .up now manual).2 = [] ∧
        Stands (secondHalf m r.1 .up now manual).1 .quiet := by
      unfold secondHalf
      cases manual
      · simp only [Bool.false_eq_true, if_false]
        rcases flakyStep_cases m hs .up now with ⟨hq', hs', -⟩ | ⟨-, -, -, hb, -⟩ | ⟨-, hc, -⟩
        · exact ⟨hq', hs'⟩
        · rw [hwindow] at hb
          cases hb
        · cases hc
      · exact ⟨rfl, hs⟩
    rw [hnil.1, hq, List.append_nil]
    exact .recovery k hk rfl (hnil.2.checked .up now)

/-- A doubled check queues an alert of each half. -/
theorem recordOutcome_doubled {row : SiteRow} {status : CheckStatus} {now : Time}
    (hpaced : ∀ t, row.lastCheckedAt = some t → now - t ≤ stableFor) (h : Doubled m row status now) :
    ∃ a, (recordOutcome m row status now false).2 = [⟨.bad, [.flap (.opened .down now)]⟩, a] := by
  obtain ⟨hsm, hlast, hflap, hfs, hfn, -⟩ := countFails_frame row status false
  obtain ⟨hdue, hhalf⟩ := h
  rw [recordOutcome_eq, forgetEpisode_paced (hlast ▸ hpaced)]
  have hbad : (failStep m (countFails row status false) status now false).2 =
      [⟨.bad, [.flap (.opened .down now)]⟩] := by
    have hunsaid : ((countFails row status false).inc.getD ⟨now, false⟩).notified = false := by
      have := hdue.unsaid
      unfold SiteRow.announced at this
      cases hinc : (countFails row status false).inc <;> simp_all
    unfold failStep
    dsimp only
    rw [if_pos ⟨rfl, by simp [hunsaid], hdue.counted⟩, if_neg hdue.level,
      if_neg fun hw => absurd hw.2 (not_lt.2 (hdue.worse hw.1))]
  obtain ⟨hsm', hflap', hfs', hfn'⟩ := failStep_frame m (countFails row status false) status now false
  have hfirst : firstHalf m (countFails row status false) status now false =
      failStep m (countFails row status false) status now false := by
    unfold firstHalf
    rw [if_neg hdue.failed]
  have hlevel := hdue.level
  dsimp only
  rw [hfirst]
  generalize failStep m (countFails row status false) status now false = r at *
  have hwindow : isFlaky (flakyHist m r.1 now status) (max m.alertAfter 1) r.1.flakySince.isSome =
      windowFlaky m row status now := by
    unfold windowFlaky flakyHist
    rw [hsm', hflap', hfs', hsm, hflap, hfs]
  have hflaky : ∃ a, (flakyStep m r.1 status now).2 = [a] := by
    unfold flakyStep
    dsimp only
    rw [hwindow, withFlaky_flap, withFlaky_notified, hflap', hfn', hfn]
    rw [hflap] at hlevel ⊢
    cases hw : windowFlaky m row status now with
    | true =>
      rw [hw, if_pos rfl] at hhalf
      exact ⟨⟨.flaky, [.flakyNotified true, .flap (.opened .flaky now)]⟩, by simp [hhalf.1, hhalf.2]⟩
    | false =>
      rw [hw, if_neg (by simp)] at hhalf
      exact ⟨⟨.flakyrec, [.flakyNotified false]⟩, by simp [hhalf, hlevel]⟩
  obtain ⟨a, ha⟩ := hflaky
  exact ⟨a, by simp [secondHalf, hbad, ha]⟩

end Kervax
