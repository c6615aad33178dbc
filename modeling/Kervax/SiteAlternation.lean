-- The alerts of one monitor over all its checks, with any outcome of each batch:
-- what the panel takes as told alternates, each failure among it gets its
-- recovery, and a recovery is lost for one of four reasons only.
import Kervax.SiteEpisodes
import Kervax.Runs

namespace Kervax

open Runs

variable (m : SiteMon)

/-! ## The batch -/

theorem joinRetry_cases (entry : Option (SiteKind × Time)) (queue : List SiteAlert) (now : Time)
    (readable : Bool) (last : Option CheckStatus) :
    ((joinRetry entry queue now readable last).1 = [] ∧
        ∀ x, (joinRetry entry queue now readable last).2 = some x → entry = some x) ∨
      ∃ k t, entry = some (k, t) ∧
        joinRetry entry queue now readable last = ([⟨k, []⟩], some (k, t)) := by
  unfold joinRetry
  rcases entry with _ | ⟨k, t⟩
  · exact .inl ⟨rfl, nofun⟩
  · dsimp only
    split_ifs
    · exact .inl ⟨rfl, nofun⟩
    · exact .inl ⟨rfl, fun _ h => h⟩
    · exact .inl ⟨rfl, fun _ h => h⟩
    · exact .inr ⟨k, t, rfl, rfl⟩
    · exact .inl ⟨rfl, nofun⟩

theorem told_sublist (o : Sending) (batch : List SiteAlert) : (o.told batch).Sublist batch := by
  cases o with
  | off => exact List.nil_sublist _
  | failed reached => exact List.filter_sublist
  | done kept => exact List.filter_sublist

theorem not_mem_recoveryKinds {k : SiteKind} (h : k ∈ episodeFailures) : k ∉ recoveryKinds := by
  simp only [episodeFailures, List.mem_cons, List.not_mem_nil, or_false] at h
  rcases h with rfl | rfl <;> decide

theorem next_recovery {c : Chat} {k : SiteKind} (hc : c ≠ .quiet) (hk : k ∈ episodeRecoveries) :
    c.next k = some .quiet := by
  simp only [episodeRecoveries, List.mem_cons, List.not_mem_nil, or_false] at hk
  rcases hk with rfl | rfl | rfl <;> cases c <;> first | rfl | exact absurd rfl hc

theorem mem_episodeRecoveries {k : SiteKind} (h : k ∈ recoveryKinds) : k ∈ episodeRecoveries := by
  simp only [recoveryKinds, List.mem_cons, List.not_mem_nil, or_false] at h
  rcases h with rfl | rfl <;> decide

/-- A recovery of a "down" sets no mark. -/
def SiteAlert.Bare (a : SiteAlert) : Prop := a.kind ∈ recoveryKinds ∧ a.marks = []

theorem commitAlert_bare {a : SiteAlert} (ha : a.Bare) (row : SiteRow) : commitAlert row a = row := by
  have : a.kind ≠ .bad := by
    intro h
    have := ha.1
    rw [h] at this
    revert this
    decide
  simp [commitAlert, this, ha.2]

theorem foldl_commit_bare {as : List SiteAlert} (has : ∀ a ∈ as, a.Bare) (row : SiteRow) :
    as.foldl commitAlert row = row := by
  induction as with
  | nil => rfl
  | cons a as ih =>
    rw [List.foldl_cons, commitAlert_bare (has a List.mem_cons_self)]
    exact ih fun b hb => has b (List.mem_cons_of_mem _ hb)

@[simp] theorem told_none (o : Sending) : o.told [] = [] := by cases o <;> rfl

theorem told_append (o : Sending) (as bs : List SiteAlert) :
    o.told (as ++ bs) = o.told as ++ o.told bs := by
  cases o with
  | off => rfl
  | failed reached => exact List.filter_append ..
  | done kept => exact List.filter_append ..

theorem told_single (o : Sending) (a : SiteAlert) : o.told [a] = [] ∨ o.told [a] = [a] := by
  have h := (told_sublist o [a])
  rcases List.sublist_singleton.1 h with h | h
  · exact .inl h
  · exact .inr h

/-- A recovery of a "down" that goes out was on record when it was queued. -/
theorem hear_bare (o : Sending) {k : SiteKind} (hk : k ∈ recoveryKinds) (c : Chat) :
    c.hear (o.event k) = some c := by
  have hno : k ∉ episodeFailures := fun h => not_mem_recoveryKinds h hk
  cases o <;> simp [Sending.event, Chat.hear, hk, hno]

theorem hear_bares (o : Sending) {as : List SiteAlert} (has : ∀ a ∈ as, a.Bare) (c : Chat) :
    (as.map (o.event ·.kind)).foldlM Chat.hear c = some c := by
  induction as with
  | nil => rfl
  | cons a as ih =>
    rw [List.map_cons, List.foldlM_cons, hear_bare o (has a List.mem_cons_self).1]
    exact ih fun b hb => has b (List.mem_cons_of_mem _ hb)

/-- Only a whole batch is marked, and it is marked alert by alert. -/
theorem commit_append (o : Sending) (as : List SiteAlert) {bs : List SiteAlert}
    (hbs : ∀ b ∈ bs, b.Bare) (row : SiteRow) : o.commit (as ++ bs) row = o.commit as row := by
  cases o with
  | off => rfl
  | failed _ => rfl
  | done _ =>
    unfold Sending.commit
    dsimp only
    rw [List.foldl_append, foldl_commit_bare hbs]

/-! ## The steps -/

def EpisodeIn.send : EpisodeIn → SendIn
  | .check _ _ _ d => d
  | .resend _ _ d => d

/-- The checks go on: the next one is later, and not by more than `STABLE`. -/
def EpisodeIn.Paced (row : SiteRow) : EpisodeIn → Prop
  | .check _ now _ _ => ∀ t ∈ row.lastCheckedAt, t < now ∧ now - t ≤ stableFor
  | .resend .. => True

instance (row : SiteRow) : (i : EpisodeIn) → Decidable (i.Paced row)
  | .check _ now _ _ =>
    inferInstanceAs (Decidable (∀ t ∈ row.lastCheckedAt, t < now ∧ now - t ≤ stableFor))
  | .resend .. => inferInstanceAs (Decidable True)

def EpisodeIn.manual : EpisodeIn → Bool
  | .check _ _ manual _ => manual
  | .resend manual _ _ => manual

def EpisodeIn.now : EpisodeIn → Time
  | .check _ now _ _ => now
  | .resend _ now _ => now

/-- The last status when the batch goes out. -/
def EpisodeIn.lastStatus (row : SiteRow) : EpisodeIn → Option CheckStatus
  | .check status .. => some status
  | .resend .. => row.lastStatus

instance (row : SiteRow) (status : CheckStatus) (now : Time) : Decidable (BadDue m row status now) :=
  decidable_of_iff (status ≠ .up ∧
      max (if status = .degraded then m.degradedAfter else m.alertAfter) 1 ≤ row.consecutiveFails ∧
      row.announced = false ∧ row.flap.level ≠ some .down ∧
      (row.flap.level = some .flaky → worseAfter ≤ now - (row.inc.getD ⟨now, false⟩).startedAt))
    ⟨fun ⟨h1, h2, h3, h4, h5⟩ => ⟨h1, h2, h3, h4, h5⟩,
      fun ⟨h1, h2, h3, h4, h5⟩ => ⟨h1, h2, h3, h4, h5⟩⟩

instance (row : SiteRow) (status : CheckStatus) (now : Time) : Decidable (Doubled m row status now) :=
  inferInstanceAs (Decidable (BadDue m (countFails row status false) status now ∧
    if windowFlaky m row status now then row.flakyNotified = false ∧ row.flap.level = none
    else row.flakyNotified = true))

/-- The checks go on, and none has an alert of both halves. -/
def Timely (e : SiteEpisode) (i : EpisodeIn) : Prop :=
  i.Paced e.row ∧
    match i with
    | .check status now manual _ => manual = false → ¬ Doubled m e.row status now
    | .resend .. => True

instance (e : SiteEpisode) : (i : EpisodeIn) → Decidable (Timely m e i)
  | .check status now manual _ =>
    inferInstanceAs (Decidable (_ ∧ (manual = false → ¬ Doubled m e.row status now)))
  | .resend .. => inferInstanceAs (Decidable (_ ∧ True))

/-! ## In step -/

/-- The tables of the two processes hold recoveries of a "down". -/
def Tabled (waits : Bool → Option (SiteKind × Time)) : Prop :=
  ∀ p k t, waits p = some (k, t) → k ∈ recoveryKinds

theorem Tabled.joins {e : SiteEpisode} (h : Tabled e.waits) (manual : Bool) (queue : List SiteAlert)
    (now : Time) (readable : Bool) :
    ∀ a ∈ (joinRetry (e.waits manual) queue now readable e.row.lastStatus).1, a.Bare := by
  rcases joinRetry_cases (e.waits manual) queue now readable e.row.lastStatus with
    ⟨hj, -⟩ | ⟨k, t, he, hj⟩
  · rw [hj]
    exact fun a ha => nomatch ha
  · rw [hj]
    intro a ha
    rw [List.mem_singleton.1 ha]
    exact ⟨h manual k t he, rfl⟩

/-- The row is in step with what the panel has on record. -/
def SiteEpisode.InStep (e : SiteEpisode) : Prop := ∃ c, standing e.log = some c ∧ Stands e.row c

variable {e : SiteEpisode} {c : Chat} {queue : List SiteAlert} {manual : Bool} {now : Time} {d : SendIn}

/-- What a batch of the check's alerts adds to the record, and marks. -/
theorem Checked.sent (hq : Checked e.row c queue) (o : Sending) :
    ∃ c', ((queue.map fun a => SiteEvent.queued a.kind) ++ (o.told queue).map (o.event ·.kind)).foldlM Chat.hear c =
      some c' ∧ Stands (o.commit (o.told queue) e.row) c' := by
  have hcommit : ∀ row, o.commit [] row = row := fun row => by cases o <;> rfl
  cases hq with
  | none h =>
    refine ⟨c, by simp, ?_⟩
    rw [told_none, hcommit]
    exact h
  | failure a h hk hnext =>
    obtain ⟨c', hn, hs⟩ := hnext
    have hrec := not_mem_recoveryKinds hk
    rcases told_single o a with htold | htold
    · refine ⟨c, by simp [htold, Chat.hear, hrec], ?_⟩
      rw [htold, hcommit]
      exact h
    · rw [htold]
      cases o with
      | off => cases htold
      | failed reached =>
        -- the batch failed: the alert went out where one was due, and is not on record
        exact ⟨c, by simp [Sending.event, Chat.hear, hrec, hk, hn], h⟩
      | done kept => exact ⟨c', by simp [Sending.event, Chat.hear, hrec, hn], hs⟩
  | recovery k hk hc h =>
    subst hc
    have hn : Chat.next .bad k = some .quiet :=
      next_recovery (by decide) (mem_episodeRecoveries hk)
    have hbare : ∀ a ∈ o.told [⟨k, []⟩], a.Bare := by
      intro a ha
      rw [List.mem_singleton.1 ((told_sublist o _).subset ha)]
      exact ⟨hk, rfl⟩
    refine ⟨.quiet, ?_, ?_⟩
    · rw [List.map_singleton, List.singleton_append, List.foldlM_cons]
      simp only [Chat.hear, hk, if_true, hn]
      exact hear_bares o hbare .quiet
    · have hrow := commit_append o [] hbare e.row
      rw [List.nil_append, hcommit] at hrow
      rw [hrow]
      exact h
  | flakyrec hc h hl =>
    subst hc
    rcases told_single o ⟨.flakyrec, [.flakyNotified false]⟩ with htold | htold
    · refine ⟨.flaky, ?_, ?_⟩
      · rw [htold]
        rfl
      · rw [htold, hcommit]
        exact h
    · rw [htold]
      cases o with
      | off => cases htold
      | failed reached => exact ⟨.flaky, rfl, h⟩
      | done kept =>
        refine ⟨.quiet, rfl, ?_⟩
        cases h with
        | flaky _ hn _ => exact .quiet hl hn rfl

theorem send_log (e : SiteEpisode) (manual : Bool) (queue : List SiteAlert) (now : Time) (d : SendIn) :
    (e.send manual queue now d).log =
      e.log ++ ((queue.map fun a => SiteEvent.queued a.kind) ++ (d.outcome.told queue).map (d.outcome.event ·.kind)) ++
        (d.outcome.told (joinRetry (e.waits manual) queue now d.readable e.row.lastStatus).1).map
          (d.outcome.event ·.kind) := by
  simp [SiteEpisode.send, batchOf, told_append]

theorem send_row (ht : Tabled e.waits) (manual : Bool) (queue : List SiteAlert) (now : Time)
    (d : SendIn) :
    (e.send manual queue now d).row = d.outcome.commit (d.outcome.told queue) e.row := by
  have hbare := ht.joins manual queue now d.readable
  unfold SiteEpisode.send batchOf
  dsimp only
  rw [told_append]
  exact commit_append _ _ (fun a ha => hbare a ((told_sublist _ _).subset ha)) _

theorem send_inStep (hc : standing e.log = some c) (hq : Checked e.row c queue)
    (ht : Tabled e.waits) : (e.send manual queue now d).InStep := by
  obtain ⟨c', hadd, hs⟩ := hq.sent d.outcome
  refine ⟨c', ?_, ?_⟩
  · have hbare := ht.joins manual queue now d.readable
    rw [send_log, standing_append, standing_append, hc]
    simp only [Option.bind_some, hadd]
    exact hear_bares _ (fun a ha => hbare a ((told_sublist _ _).subset ha)) c'
  · rw [send_row ht]
    exact hs

/-! ## The runs -/

/-- A check sends what it has queued, if it has queued anything. -/
theorem next_check (e : SiteEpisode) (status : CheckStatus) (now : Time) (manual : Bool) (d : SendIn) :
    e.next m (.check status now manual d) =
      let e' := { e with row := (recordOutcome m e.row status now manual).1 }
      if (recordOutcome m e.row status now manual).2 = [] then e'
      else e'.send manual (recordOutcome m e.row status now manual).2 now d := rfl

theorem next_inStep {i : EpisodeIn} (h : e.InStep) (ht : Tabled e.waits) (hi : Timely m e i) :
    (e.next m i).InStep := by
  obtain ⟨c, hc, hs⟩ := h
  cases i with
  | check status now manual d =>
    have hchk := recordOutcome_checked m hs (fun t ht => (hi.1 t ht).2) hi.2
    rw [next_check]
    dsimp only
    split
    · rename_i hnil
      rw [hnil] at hchk
      cases hchk with
      | none hs' => exact ⟨c, hc, hs'⟩
    · exact send_inStep (e := { e with row := (recordOutcome m e.row status now manual).1 }) hc hchk ht
  | resend manual now d => exact send_inStep hc (.none hs) ht

/-! ## Once the monitor has held out -/

/-- The checks are in the past, and an incident is open only after one that
failed. -/
structure SiteRow.Timed (row : SiteRow) : Prop where
  past : ∀ s ∈ row.samples, ∃ t, row.lastCheckedAt = some t ∧ s.1 ≤ t
  failing : row.inc ≠ none → ∃ s, row.samples.getLast? = some s ∧ s.2 ≠ .up

theorem upStep_frame (row : SiteRow) (now : Time) :
    (upStep m row now).1.samples = row.samples ∧ (upStep m row now).1.inc = none := by
  unfold upStep
  split
  · dsimp only
    split_ifs <;> exact ⟨rfl, rfl⟩
  · rename_i hinc
    split_ifs
    · exact ⟨rfl, hinc⟩
    · exact ⟨rfl, hinc⟩

theorem withFlaky_frame (row : SiteRow) (b : Bool) (now : Time) :
    (row.withFlaky b now).samples = row.samples ∧ (row.withFlaky b now).inc = row.inc := by
  unfold SiteRow.withFlaky
  split_ifs <;> exact ⟨rfl, rfl⟩

theorem flakyStep_frame (row : SiteRow) (status : CheckStatus) (now : Time) :
    (flakyStep m row status now).1.samples = row.samples ∧
      (flakyStep m row status now).1.inc = row.inc := by
  unfold flakyStep
  dsimp only
  have h := withFlaky_frame row
    (isFlaky (flakyHist m row now status) (max m.alertAfter 1) row.flakySince.isSome) now
  split_ifs <;> exact h

theorem forgetEpisode_samples (row : SiteRow) (now : Time) :
    (forgetEpisode row now).samples = row.samples := by
  unfold forgetEpisode
  split
  · split <;> rfl
  · rfl

theorem recordOutcome_timed {row : SiteRow} (h : row.Timed) {status : CheckStatus} {now : Time}
    {manual : Bool} (hpaced : ∀ t, row.lastCheckedAt = some t → t < now) :
    (recordOutcome m row status now manual).1.Timed := by
  rw [recordOutcome_eq]
  have hsamples : ∀ row' : SiteRow, row'.samples = row.samples →
      (secondHalf m (firstHalf m row' status now manual).1 status now manual).1.samples =
        row.samples := by
    intro row' hr
    rw [← hr]
    unfold secondHalf firstHalf
    split_ifs
    · exact (upStep_frame m _ _).1
    · exact (failStep_frame m _ _ _ _).1
    · exact (flakyStep_frame m _ _ _).1.trans (upStep_frame m _ _).1
    · exact (flakyStep_frame m _ _ _).1.trans (failStep_frame m _ _ _ _).1
  have hs := hsamples (forgetEpisode (countFails row status manual) now)
    ((forgetEpisode_samples _ _).trans (countFails_frame row status manual).1)
  constructor
  · intro s hmem
    dsimp only at hmem ⊢
    rw [hs] at hmem
    refine ⟨now, rfl, ?_⟩
    rcases List.mem_append.1 hmem with hmem | hmem
    · obtain ⟨t, ht, hle⟩ := h.past s hmem
      exact hle.trans (hpaced t ht).le
    · rw [List.mem_singleton.1 hmem]
  · intro hinc
    refine ⟨(now, status), by simp, fun hup => hinc ?_⟩
    dsimp only at hup ⊢
    subst hup
    unfold secondHalf firstHalf
    split
    · exact (upStep_frame m _ _).2
    · exact (flakyStep_frame m _ _ _).2.trans (upStep_frame m _ _).2

/-- The last two checks went well, and nothing was down for `STABLE`. -/
def SiteRow.HeldOut (row : SiteRow) (now : Time) : Prop :=
  (∃ old s₁ s₂, row.samples = old ++ [s₁, s₂] ∧ s₁.2 = .up ∧ s₂.2 = .up) ∧
    ∀ s ∈ row.samples, s.2 = .down → stableFor ≤ now - s.1

theorem lastN_pair {α : Type} {n : Nat} (hn : 2 ≤ n) (old : List α) (a b : α) :
    ∃ old', lastN n (old ++ [a, b]) = old' ++ [a, b] ∧ ∀ x ∈ old', x ∈ old := by
  refine ⟨old.drop (old.length + 2 - n), ?_, fun x hx => List.mem_of_mem_drop hx⟩
  unfold lastN
  rw [List.drop_append_of_le_length (by simp; omega)]
  simp

/-- A monitor that has held out is stable at a check that goes well. -/
theorem isStable_of_heldOut {row : SiteRow} {now : Time} (hrow : row.Timed)
    (hpaced : ∀ t, row.lastCheckedAt = some t → t < now) (h : row.HeldOut now) :
    isStable (flapHist m row now .up) now = true := by
  obtain ⟨⟨old, s₁, s₂, hs, h1, h2⟩, hdown⟩ := h
  have hfilter : row.samples.filter (·.1 < now) = row.samples := by
    refine List.filter_eq_self.2 fun s hmem => ?_
    obtain ⟨t, ht, hle⟩ := hrow.past s hmem
    simpa using hle.trans_lt (hpaced t ht)
  obtain ⟨old', hl, hsub⟩ := lastN_pair (n := min (max stableN (3600 / max m.intervalSeconds 1 + 2)) 400)
    (by simp [stableN]) old s₁ s₂
  have hhist : flapHist m row now .up = old' ++ [s₁, s₂, (now, .up)] := by
    unfold flapHist
    rw [hfilter, hs]
    dsimp only
    rw [hl]
    simp
  have htail : lastN stableN (old' ++ [s₁, s₂, (now, .up)]) = [s₁, s₂, (now, .up)] := by
    unfold lastN stableN
    rw [List.drop_append]
    simp
  rw [hhist]
  unfold isStable
  rw [htail]
  simp only [List.map_cons, List.map_nil, h1, h2]
  split
  · rename_i hc
    simp [stableN] at hc
  · split
    · rfl
    · rename_i last hlast
      have hmem := List.max?_mem hlast
      obtain ⟨s, hsmem, rfl⟩ := List.mem_map.1 hmem
      obtain ⟨hin, hd⟩ := List.mem_filter.1 hsmem
      have hd : s.2 = .down := by simpa using hd
      have : s ∈ row.samples := by
        rw [hs]
        rcases List.mem_append.1 hin with hin | hin
        · exact List.mem_append_left _ (hsub s hin)
        · refine List.mem_append_right _ ?_
          simp only [List.mem_cons, List.not_mem_nil, or_false] at hin ⊢
          rcases hin with rfl | rfl | rfl
          · exact .inl rfl
          · exact .inr rfl
          · cases hd
      simpa using hdown s this hd

/-- A "down" that was told, and no recovery queued since: once the monitor has
held out, a check that goes well queues one. -/
theorem recstable_queued {row : SiteRow} (hs : Stands row .bad) (hrow : row.Timed)
    {now : Time} {manual : Bool}
    (hpaced : ∀ t, row.lastCheckedAt = some t → t < now ∧ now - t ≤ stableFor)
    (h : row.HeldOut now) :
    ∃ a ∈ (recordOutcome m row .up now manual).2, a.kind ∈ recoveryKinds := by
  obtain ⟨hsm, hlast, hflap, -, -, hinc⟩ := countFails_frame row .up manual
  rw [recordOutcome_eq, forgetEpisode_paced fun t ht => (hpaced t (hlast ▸ ht)).2]
  have hnone : (countFails row .up manual).inc = none := by
    rw [hinc]
    by_contra hne
    obtain ⟨s, hl, hup⟩ := hrow.failing hne
    obtain ⟨⟨old, s₁, s₂, heq, -, h2⟩, -⟩ := h
    rw [heq] at hl
    simp at hl
    exact hup (hl ▸ h2)
  have hstable : isStable (flapHist m (countFails row .up manual) now .up) now = true := by
    unfold flapHist
    rw [hsm]
    exact isStable_of_heldOut m hrow (fun t ht => (hpaced t ht).1) h
  have hdown : (countFails row .up manual).flap.level = some .down := by
    rw [hflap]
    cases hs with
    | bad hl _ => exact hl
  have hq : (firstHalf m (countFails row .up manual) .up now manual).2 = [⟨.recstable, []⟩] := by
    unfold firstHalf upStep
    rw [if_pos rfl, hnone]
    dsimp only
    rw [if_pos ⟨hdown, hstable⟩]
  exact ⟨⟨.recstable, []⟩, by simp [hq], by simp [recoveryKinds]⟩

/-- A "flaky" that was told: the first scheduled check whose window is clear
queues its recovery. -/
theorem flakyrec_queued {row : SiteRow} (hs : Stands row .flaky) {status : CheckStatus}
    {now : Time} (hpaced : ∀ t, row.lastCheckedAt = some t → t < now ∧ now - t ≤ stableFor)
    (hclear : windowFlaky m row status now = false) :
    ∃ a ∈ (recordOutcome m row status now false).2, a.kind = .flakyrec := by
  obtain ⟨hsm, hlast, hflap, hfs, -, -⟩ := countFails_frame row status false
  have hcount := hs.counted status false
  rw [recordOutcome_eq, forgetEpisode_paced fun t ht => (hpaced t (hlast ▸ ht)).2]
  generalize countFails row status false = row0 at hsm hflap hfs hcount ⊢
  have hframe : (firstHalf m row0 status now false).1.samples = row0.samples ∧
      (firstHalf m row0 status now false).1.flap = row0.flap ∧
      (firstHalf m row0 status now false).1.flakySince = row0.flakySince := by
    unfold firstHalf
    split
    · cases hcount with
      | flaky hl hn hf =>
        unfold upStep
        split
        · rename_i inc hinc
          have : inc.notified = false := by simpa [SiteRow.announced, hinc] using hn
          simp [this]
        · rw [if_neg fun hc => hl hc.1]
          exact ⟨rfl, rfl, rfl⟩
    · obtain ⟨h1, h2, h3, -⟩ := failStep_frame m row0 status now false
      exact ⟨h1, h2, h3⟩
  have hs1 : Stands (firstHalf m row0 status now false).1 .flaky := by
    rcases firstHalf_cases m hcount status now false with ⟨-, h⟩ | ⟨-, -, -, h⟩ | ⟨_, _, _, hc, _⟩
    · exact h
    · exact h
    · cases hc
  obtain ⟨h1, h2, h3⟩ := hframe
  generalize firstHalf m row0 status now false = r at h1 h2 h3 hs1 ⊢
  have hb : isFlaky (flakyHist m r.1 now status) (max m.alertAfter 1) r.1.flakySince.isSome =
      false := by
    rw [← hclear]
    unfold windowFlaky flakyHist
    rw [h3, hfs, h1, h2, hsm, hflap]
  have hq : (flakyStep m r.1 status now).2 = [⟨.flakyrec, [.flakyNotified false]⟩] := by
    unfold flakyStep
    cases hs1 with
    | flaky hl hn hf => simp [hb, hl, hf]
  exact ⟨⟨.flakyrec, [.flakyNotified false]⟩, by simp [secondHalf, hq], rfl⟩

/-! ## Nothing ends that was not announced -/

/-- The row says that something was announced. -/
def SiteRow.Marked (row : SiteRow) : Prop :=
  row.announced = true ∨ row.flap.level ≠ none ∨ row.flakyNotified = true

theorem firstHalf_marked (row : SiteRow) (status : CheckStatus) (now : Time) (manual : Bool) :
    ((firstHalf m row status now manual).1.Marked → row.Marked) ∧
      ((∃ a ∈ (firstHalf m row status now manual).2, a.kind ∈ episodeRecoveries) → row.Marked) := by
  unfold firstHalf
  split
  · unfold upStep
    split
    · rename_i inc hinc
      dsimp only
      by_cases hn : inc.notified = true
      · have : row.Marked := .inl (by simp [SiteRow.announced, hinc, hn])
        exact ⟨fun _ => this, fun _ => this⟩
      · rw [if_neg hn]
        refine ⟨fun h => ?_, by simp⟩
        rcases h with h | h | h
        · simp [SiteRow.announced] at h
        · exact .inr (.inl h)
        · exact .inr (.inr h)
    · split
      · rename_i hc
        have : row.Marked := .inr (.inl (by simp [hc.1]))
        exact ⟨fun _ => this, fun _ => this⟩
      · exact ⟨id, by simp⟩
  · unfold failStep
    dsimp only
    generalize max (if status = .degraded then m.degradedAfter else m.alertAfter) 1 = threshold
    have hkeep : SiteRow.Marked { row with inc := some (row.inc.getD ⟨now, false⟩) } →
        row.Marked := by
      rintro (h | h | h)
      · refine .inl ?_
        unfold SiteRow.announced at h ⊢
        rcases hi : row.inc with _ | inc
        · simp [hi] at h
        · simpa [hi] using h
      · exact .inr (.inl h)
      · exact .inr (.inr h)
    split_ifs with h1 h2 h3
    · exact ⟨fun _ => .inr (.inl (by simp [h2])), by simp⟩
    · exact ⟨hkeep, by simp⟩
    · exact ⟨hkeep, by simp [episodeRecoveries]⟩
    · exact ⟨hkeep, by simp⟩

theorem flakyStep_marked (row : SiteRow) (status : CheckStatus) (now : Time) :
    ((flakyStep m row status now).1.Marked → row.Marked) ∧
      ((∃ a ∈ (flakyStep m row status now).2, a.kind ∈ episodeRecoveries) → row.Marked) := by
  unfold flakyStep
  dsimp only
  generalize isFlaky (flakyHist m row now status) (max m.alertAfter 1) row.flakySince.isSome = b
  have hkeep : (row.withFlaky b now).Marked ↔ row.Marked := by simp [SiteRow.Marked]
  have hl := withFlaky_flap row b now
  have hf := withFlaky_notified row b now
  split_ifs with h1 h2 h3 h4 h5
  · exact ⟨fun _ => .inr (.inl (hl ▸ h1.2.2)), by simp⟩
  · exact ⟨fun _ => .inr (.inr (hf ▸ h2.2.1)), by simp⟩
  · exact ⟨hkeep.1, by simp [episodeRecoveries]⟩
  · exact ⟨fun _ => .inr (.inr (hf ▸ h4.2)), fun _ => .inr (.inr (hf ▸ h4.2))⟩
  · exact ⟨fun _ => .inr (.inr (hf ▸ h4.2)), fun _ => .inr (.inr (hf ▸ h4.2))⟩
  · exact ⟨hkeep.1, by simp⟩

theorem recordOutcome_marked (row : SiteRow) (status : CheckStatus) (now : Time) (manual : Bool) :
    ((recordOutcome m row status now manual).1.Marked → row.Marked) ∧
      ((∃ a ∈ (recordOutcome m row status now manual).2, a.kind ∈ episodeRecoveries) →
        row.Marked) := by
  rw [recordOutcome_eq]
  have hstart : (forgetEpisode (countFails row status manual) now).Marked → row.Marked := by
    obtain ⟨-, -, hflap, -, hfn, hinc⟩ := countFails_frame row status manual
    have hcount : (countFails row status manual).Marked → row.Marked := by
      simp only [SiteRow.Marked, SiteRow.announced, hflap, hinc, hfn]
      exact id
    intro h
    apply hcount
    unfold forgetEpisode at h
    split at h
    · split at h
      · rcases h with h | h | h
        · exact .inl h
        · exact absurd rfl h
        · exact .inr (.inr h)
      · exact h
    · exact h
  generalize forgetEpisode (countFails row status manual) now = row0 at hstart ⊢
  have h1 := firstHalf_marked m row0 status now manual
  generalize firstHalf m row0 status now manual = r at h1 ⊢
  have h2 : ((secondHalf m r.1 status now manual).1.Marked → r.1.Marked) ∧
      ((∃ a ∈ (secondHalf m r.1 status now manual).2, a.kind ∈ episodeRecoveries) →
        r.1.Marked) := by
    unfold secondHalf
    split
    · exact ⟨id, by simp⟩
    · exact flakyStep_marked m r.1 status now
  refine ⟨fun h => hstart (h1.1 (h2.1 h)), ?_⟩
  rintro ⟨a, ha, hk⟩
  rcases List.mem_append.1 ha with ha | ha
  · exact hstart (h1.2 ⟨a, ha, hk⟩)
  · exact hstart (h1.1 (h2.2 ⟨a, ha, hk⟩))

/-- What an alert can set: only a failure announces. -/
def SiteAlert.Plain (a : SiteAlert) : Prop :=
  a.kind ∈ episodeFailures ∨ a.marks = [] ∨ a.marks = [.flakyNotified false]

theorem recordOutcome_plain (row : SiteRow) (status : CheckStatus) (now : Time) (manual : Bool) :
    ∀ a ∈ (recordOutcome m row status now manual).2, a.Plain := by
  rw [recordOutcome_eq]
  have h1 : ∀ row0, ∀ a ∈ (firstHalf m row0 status now manual).2, a.Plain := by
    intro row0
    unfold firstHalf upStep failStep
    dsimp only
    generalize max (if status = .degraded then m.degradedAfter else m.alertAfter) 1 = threshold
    split
    · split
      · split_ifs <;> simp [SiteAlert.Plain]
      · split_ifs <;> simp [SiteAlert.Plain]
    · split_ifs <;> simp [SiteAlert.Plain, episodeFailures]
  have h2 : ∀ row0, ∀ a ∈ (secondHalf m row0 status now manual).2, a.Plain := by
    intro row0
    unfold secondHalf flakyStep
    dsimp only
    generalize isFlaky (flakyHist m row0 now status) (max m.alertAfter 1) row0.flakySince.isSome = b
    split_ifs <;> simp [SiteAlert.Plain, episodeFailures]
  intro a ha
  rcases List.mem_append.1 ha with ha | ha
  · exact h1 _ a ha
  · exact h2 _ a ha

theorem commitAlert_marked {a : SiteAlert} (ha : a.Plain) {row : SiteRow}
    (h : (commitAlert row a).Marked) : row.Marked ∨ a.kind ∈ episodeFailures := by
  by_cases hk : a.kind ∈ episodeFailures
  · exact .inr hk
  · have hbad : a.kind ≠ .bad := fun hb => hk (by simp [hb, episodeFailures])
    left
    unfold commitAlert at h
    rw [if_neg hbad] at h
    rcases ha with ha | ha | ha
    · exact absurd ha hk
    · rwa [ha] at h
    · rw [ha] at h
      rcases h with h | h | h
      · exact .inl h
      · exact .inr (.inl h)
      · cases h

theorem foldl_commit_marked {as : List SiteAlert} (has : ∀ a ∈ as, a.Plain) {row : SiteRow}
    (h : (as.foldl commitAlert row).Marked) : row.Marked ∨ ∃ a ∈ as, a.kind ∈ episodeFailures := by
  induction as generalizing row with
  | nil => exact .inl h
  | cons a as ih =>
    rcases ih (fun b hb => has b (List.mem_cons_of_mem _ hb)) h with h | ⟨b, hb, hk⟩
    · rcases commitAlert_marked (has a List.mem_cons_self) h with h | h
      · exact .inl h
      · exact .inr ⟨a, List.mem_cons_self, h⟩
    · exact .inr ⟨b, List.mem_cons_of_mem _ hb, hk⟩

/-- A row that says that something was announced is right. -/
def SiteEpisode.Truthful (e : SiteEpisode) : Prop :=
  e.row.Marked → ∃ k ∈ episodeFailures, .out k ∈ e.log

theorem send_truthful (h : e.Truthful) (hq : ∀ a ∈ queue, a.Plain) (ht : Tabled e.waits) :
    (e.send manual queue now d).Truthful := by
  intro hm
  rw [send_row ht] at hm
  rw [send_log]
  have hold : e.row.Marked → ∃ k ∈ episodeFailures, .out k ∈ e.log ++
      ((queue.map fun a => SiteEvent.queued a.kind) ++
        (d.outcome.told queue).map (d.outcome.event ·.kind)) ++
        (d.outcome.told (joinRetry (e.waits manual) queue now d.readable e.row.lastStatus).1).map
          (d.outcome.event ·.kind) := by
    intro hrow
    obtain ⟨k, hk, hlog⟩ := h hrow
    exact ⟨k, hk, by simp [hlog]⟩
  have hplain : ∀ a ∈ d.outcome.told queue, a.Plain := fun a ha =>
    hq a ((told_sublist _ _).subset ha)
  generalize d.outcome = o at hm hold hplain ⊢
  cases o with
  | off => exact hold hm
  | failed reached => exact hold hm
  | done kept =>
    rcases foldl_commit_marked hplain hm with hrow | ⟨a, ha, hk⟩
    · exact hold hrow
    · refine ⟨a.kind, hk, ?_⟩
      have hmem : SiteEvent.out a.kind ∈
          ((Sending.done kept).told queue).map ((Sending.done kept).event ·.kind) :=
        List.mem_map.2 ⟨a, ha, rfl⟩
      exact List.mem_append_left _ (List.mem_append_right _ (List.mem_append_right _ hmem))

theorem next_truthful (h : e.Truthful) (ht : Tabled e.waits) (i : EpisodeIn) :
    (e.next m i).Truthful := by
  cases i with
  | check status now manual d =>
    have hrow : SiteEpisode.Truthful { e with row := (recordOutcome m e.row status now manual).1 } :=
      fun hm => h ((recordOutcome_marked m e.row status now manual).1 hm)
    rw [next_check]
    dsimp only
    split
    · exact hrow
    · exact send_truthful hrow (recordOutcome_plain m e.row status now manual) ht
  | resend manual now d => exact send_truthful h (by simp) ht

/-! ## What becomes of a recovery -/

/-- The process has a recovery of a "down" in hand: the check has queued one, or
one waits in its table. -/
def SiteEpisode.Holds (e : SiteEpisode) (i : EpisodeIn) : Prop :=
  (∃ a ∈ e.queue m i, a.kind ∈ recoveryKinds) ∨ (e.waits i.manual).isSome

/-- Why a recovery may be lost: alerts are off, the settings keep it back, it
has waited too long, or the monitor is not up any more. -/
inductive Loses (e : SiteEpisode) (i : EpisodeIn) : Prop
  | off (h : i.send.outcome = .off)
  | kept (held : SiteKind → Bool) (h : i.send.outcome = .done held) (k : SiteKind)
      (hk : k ∈ recoveryKinds) (hheld : held k = true)
  | old (k : SiteKind) (t : Time) (h : e.waits i.manual = some (k, t))
      (hold : recRetryMax ≤ i.now - t)
  | down (h : i.lastStatus e.row ≠ some .up)

/-- The recovery in hand waits for the next batch, or goes out now, or is lost
for one of these reasons. -/
def KeepsRecovery (e : SiteEpisode) (i : EpisodeIn) : Prop :=
  e.Holds m i → ((e.next m i).waits i.manual).isSome ∨
    (∃ k ∈ recoveryKinds, .out k ∈ (e.next m i).log.drop e.log.length) ∨ Loses e i

/-- A recovery in hand is in the batch, or stays in the table, or is dropped. -/
theorem joinRetry_holds {entry : Option (SiteKind × Time)} {queue : List SiteAlert} (now : Time)
    (readable : Bool) (last : Option CheckStatus)
    (hkinds : ∀ k t, entry = some (k, t) → k ∈ recoveryKinds)
    (h : (∃ a ∈ queue, a.kind ∈ recoveryKinds) ∨ entry.isSome) :
    (∃ a ∈ queue ++ (joinRetry entry queue now readable last).1, a.kind ∈ recoveryKinds) ∨
      (joinRetry entry queue now readable last).2.isSome ∨
      (∃ k t, entry = some (k, t) ∧ recRetryMax ≤ now - t) ∨ last ≠ some .up := by
  by_cases hq : ∃ a ∈ queue, a.kind ∈ recoveryKinds
  · obtain ⟨a, ha, hk⟩ := hq
    exact .inl ⟨a, List.mem_append_left _ ha, hk⟩
  · obtain ⟨⟨k, t⟩, rfl⟩ := Option.isSome_iff_exists.1 (h.resolve_left hq)
    have hany : queue.any (·.kind ∈ recoveryKinds) = false := by
      simpa using fun a ha hk => hq ⟨a, ha, hk⟩
    unfold joinRetry
    dsimp only
    rw [hany, if_neg (c := false = true) (by simp)]
    split_ifs with hold hread hup
    · exact .inr (.inr (.inl ⟨k, t, rfl, hold⟩))
    · exact .inr (.inl rfl)
    · exact .inl ⟨⟨k, []⟩, by simp, hkinds k t rfl⟩
    · exact .inr (.inr (.inr hup))

/-- No recovery in the batch: the table is left alone. -/
theorem waits_of_no_recovery {batch : List SiteAlert} (h : ∀ a ∈ batch, a.kind ∉ recoveryKinds)
    (o : Sending) (v : Option (SiteKind × Time)) (now : Time) : o.waits batch v now = v := by
  have hnil : batch.filter (·.kind ∈ recoveryKinds) = [] :=
    List.filter_eq_nil_iff.2 fun a ha => by simpa using h a ha
  unfold Sending.waits
  rw [hnil]
  cases o <;> rfl

/-- A recovery in the batch: the table holds one after a failure, and none after
a batch that went through. -/
theorem waits_of_recovery {batch : List SiteAlert} {a : SiteAlert} (ha : a ∈ batch)
    (hk : a.kind ∈ recoveryKinds) (v : Option (SiteKind × Time)) (now : Time) :
    (∀ reached, ((Sending.failed reached).waits batch v now).isSome) ∧
      ∀ held, (Sending.done held).waits batch v now = none := by
  have hne : batch.filter (·.kind ∈ recoveryKinds) ≠ [] :=
    List.ne_nil_of_mem (List.mem_filter.2 ⟨ha, by simpa using hk⟩)
  have hlast := List.getLast?_eq_getLast_of_ne_nil hne
  constructor
  · intro reached
    unfold Sending.waits
    simp only [hlast, Option.isSome_some]
  · intro held
    unfold Sending.waits
    simp only [hlast]

theorem send_keeps (now : Time) (d : SendIn) (ht : Tabled e.waits)
    (h : (∃ a ∈ queue, a.kind ∈ recoveryKinds) ∨ (e.waits manual).isSome) :
    ((e.send manual queue now d).waits manual).isSome ∨
      (∃ k ∈ recoveryKinds, .out k ∈ (e.send manual queue now d).log.drop e.log.length) ∨
      d.outcome = .off ∨
      (∃ held, d.outcome = .done held ∧ ∃ k ∈ recoveryKinds, held k = true) ∨
      (∃ k t, e.waits manual = some (k, t) ∧ recRetryMax ≤ now - t) ∨ e.row.lastStatus ≠ some .up := by
  have hin := joinRetry_holds now d.readable e.row.lastStatus (ht manual) h
  unfold SiteEpisode.send batchOf
  dsimp only
  rw [Function.update_self, List.append_assoc, List.drop_left]
  generalize joinRetry (e.waits manual) queue now d.readable e.row.lastStatus = r at hin ⊢
  by_cases hrec : ∃ a ∈ queue ++ r.1, a.kind ∈ recoveryKinds
  · obtain ⟨a, ha, hk⟩ := hrec
    obtain ⟨hfailed, -⟩ := waits_of_recovery ha hk r.2 now
    cases ho : d.outcome with
    | off => exact .inr (.inr (.inl rfl))
    | failed reached => exact .inl (hfailed reached)
    | done held =>
      by_cases hheld : held a.kind = true
      · exact .inr (.inr (.inr (.inl ⟨held, rfl, a.kind, hk, hheld⟩)))
      · refine .inr (.inl ⟨a.kind, hk, List.mem_append_right _ (List.mem_map.2 ⟨a, ?_, rfl⟩)⟩)
        exact List.mem_filter.2 ⟨ha, by simpa using hheld⟩
  · rcases hin with hin | hin | hin | hin
    · exact absurd hin hrec
    · left
      rw [waits_of_no_recovery fun a ha hk => hrec ⟨a, ha, hk⟩]
      exact hin
    · exact .inr (.inr (.inr (.inr (.inl hin))))
    · exact .inr (.inr (.inr (.inr (.inr hin))))

theorem next_keeps (ht : Tabled e.waits) (i : EpisodeIn) : KeepsRecovery m e i := by
  intro hin
  have hloses : ∀ e' : SiteEpisode, e'.waits = e.waits → e'.log = e.log →
      e'.row.lastStatus = i.lastStatus e.row → e.next m i = e'.send i.manual (e.queue m i) i.now i.send →
      ((e.next m i).waits i.manual).isSome ∨
        (∃ k ∈ recoveryKinds, .out k ∈ (e.next m i).log.drop e.log.length) ∨ Loses e i := by
    intro e' hw hl hrow hnext
    have hheld : (∃ a ∈ e.queue m i, a.kind ∈ recoveryKinds) ∨ (e'.waits i.manual).isSome := by
      rw [hw]
      exact hin
    have hsend := send_keeps i.now i.send (hw.symm ▸ ht) hheld
    rw [← hnext, hw, hl, hrow] at hsend
    rcases hsend with h | h | h | ⟨held, h, k, hk, hheld⟩ | ⟨k, t, h, hold⟩ | h
    · exact .inl h
    · exact .inr (.inl h)
    · exact .inr (.inr (.off h))
    · exact .inr (.inr (.kept held h k hk hheld))
    · exact .inr (.inr (.old k t h hold))
    · exact .inr (.inr (.down h))
  cases i with
  | check status now manual d =>
    by_cases hnil : (recordOutcome m e.row status now manual).2 = []
    · left
      rw [next_check]
      dsimp only
      rw [if_pos hnil]
      have hqueue : e.queue m (.check status now manual d) = [] := hnil
      refine hin.resolve_left ?_
      rw [hqueue]
      simp
    · refine hloses { e with row := (recordOutcome m e.row status now manual).1 } rfl rfl rfl ?_
      rw [next_check]
      dsimp only
      rw [if_neg hnil]
      rfl
  | resend manual now d => exact hloses e rfl rfl rfl rfl

/-! ## Each recovery goes out once -/

/-- The recoveries of a "down" that were queued. -/
def recoveriesQueued (log : List SiteEvent) : Nat :=
  log.countP fun
    | .queued k => k ∈ recoveryKinds
    | _ => false

/-- And those that went out, with their batch. -/
def recoveriesOut (log : List SiteEvent) : Nat :=
  log.countP fun
    | .out k => k ∈ recoveryKinds
    | _ => false

/-- Those that wait. -/
def waiting (waits : Bool → Option (SiteKind × Time)) : Nat :=
  (waits true).toList.length + (waits false).toList.length

theorem waiting_update (waits : Bool → Option (SiteKind × Time)) (p : Bool)
    (v : Option (SiteKind × Time)) :
    waiting (Function.update waits p v) + (waits p).toList.length = waiting waits + v.toList.length := by
  cases p <;> simp [waiting] <;> omega

def recoveriesIn (as : List SiteAlert) : Nat := as.countP (·.kind ∈ recoveryKinds)

theorem recoveriesQueued_queue (queue : List SiteAlert) :
    recoveriesQueued (queue.map fun a => .queued a.kind) = recoveriesIn queue := by
  unfold recoveriesQueued recoveriesIn
  rw [List.countP_map]
  rfl

/-- What a batch brings out and leaves in the table was queued or waited there. -/
theorem batch_paid (queue : List SiteAlert) {js : List SiteAlert} {old v : Option (SiteKind × Time)}
    (hjs : recoveriesIn js ≤ old.toList.length) (hv : v.toList.length ≤ old.toList.length)
    (o : Sending) (now : Time) :
    recoveriesOut ((o.told (queue ++ js)).map (o.event ·.kind)) +
        (o.waits (queue ++ js) v now).toList.length ≤
      recoveriesIn queue + old.toList.length := by
  have hin : recoveriesIn (queue ++ js) = recoveriesIn queue + recoveriesIn js := List.countP_append
  have hout : recoveriesOut ((o.told (queue ++ js)).map (o.event ·.kind)) ≤
      recoveriesIn (queue ++ js) := by
    unfold recoveriesOut recoveriesIn
    rw [List.countP_map]
    refine le_trans (List.countP_mono_left fun a _ h => ?_)
      (List.Sublist.countP_le (told_sublist o (queue ++ js)))
    cases o with
    | off => exact h
    | failed reached => cases h
    | done held => exact h
  by_cases hrec : ∃ a ∈ queue ++ js, a.kind ∈ recoveryKinds
  · obtain ⟨a, ha, hk⟩ := hrec
    have hone : (o.waits (queue ++ js) v now).toList.length ≤ 1 := by
      cases o.waits (queue ++ js) v now <;> simp
    have hpos : 0 < recoveriesIn (queue ++ js) := List.countP_pos_iff.2 ⟨a, ha, by simpa using hk⟩
    obtain ⟨-, hdone⟩ := waits_of_recovery ha hk v now
    cases o with
    | off =>
      simp only [Sending.told, Sending.waits, List.map_nil, recoveriesOut, List.countP_nil]
      omega
    | failed reached =>
      have hnone : recoveriesOut (((Sending.failed reached).told (queue ++ js)).map
          ((Sending.failed reached).event ·.kind)) = 0 := by
        unfold recoveriesOut
        rw [List.countP_map, List.countP_eq_zero]
        simp [Sending.event]
      omega
    | done held =>
      rw [hdone held, Option.toList_none, List.length_nil]
      omega
  · have hzero : recoveriesIn (queue ++ js) = 0 :=
      List.countP_eq_zero.2 fun a ha hk => hrec ⟨a, ha, by simpa using hk⟩
    rw [waits_of_no_recovery fun a ha hk => hrec ⟨a, ha, hk⟩]
    omega

/-- What went out or waits was queued. -/
def SiteEpisode.Paid (e : SiteEpisode) : Prop :=
  recoveriesOut e.log + waiting e.waits ≤ recoveriesQueued e.log

theorem joinRetry_entry (entry : Option (SiteKind × Time)) (queue : List SiteAlert) (now : Time)
    (readable : Bool) (last : Option CheckStatus) :
    recoveriesIn (joinRetry entry queue now readable last).1 ≤ entry.toList.length ∧
      (joinRetry entry queue now readable last).2.toList.length ≤ entry.toList.length := by
  rcases joinRetry_cases entry queue now readable last with ⟨hj, hv⟩ | ⟨k, t, he, hj⟩
  · rw [hj]
    refine ⟨Nat.zero_le _, ?_⟩
    cases hr : (joinRetry entry queue now readable last).2 with
    | none => exact Nat.zero_le _
    | some x => rw [hv x hr]
  · rw [hj, he]
    exact ⟨List.countP_le_length, le_refl _⟩

theorem send_paid (h : e.Paid) : (e.send manual queue now d).Paid := by
  obtain ⟨hjs, hv⟩ := joinRetry_entry (e.waits manual) queue now d.readable e.row.lastStatus
  have hbatch := batch_paid queue hjs hv d.outcome now
  have hupdate := waiting_update e.waits manual (d.outcome.waits
    (queue ++ (joinRetry (e.waits manual) queue now d.readable e.row.lastStatus).1)
    (joinRetry (e.waits manual) queue now d.readable e.row.lastStatus).2 now)
  have hqueued := recoveriesQueued_queue queue
  have hsilent : recoveriesOut (queue.map fun a => .queued a.kind) = 0 := by
    unfold recoveriesOut
    rw [List.countP_map, List.countP_eq_zero]
    simp
  unfold SiteEpisode.Paid at h ⊢
  unfold SiteEpisode.send batchOf
  dsimp only
  have happ : ∀ as bs, recoveriesOut (as ++ bs) = recoveriesOut as + recoveriesOut bs ∧
      recoveriesQueued (as ++ bs) = recoveriesQueued as + recoveriesQueued bs := fun as bs =>
    ⟨List.countP_append, List.countP_append⟩
  rw [(happ _ _).1, (happ _ _).1, (happ _ _).2, (happ _ _).2, hsilent, hqueued]
  omega

theorem next_paid (h : e.Paid) (i : EpisodeIn) : (e.next m i).Paid := by
  cases i with
  | check status now manual d =>
    rw [next_check]
    dsimp only
    split
    · exact h
    · exact send_paid h
  | resend manual now d => exact send_paid h

theorem send_tabled (h : Tabled e.waits) : Tabled (e.send manual queue now d).waits := by
  have hbare := h.joins manual queue now d.readable
  intro p k t
  unfold SiteEpisode.send batchOf
  dsimp only
  by_cases hp : p = manual
  · subst hp
    rw [Function.update_self]
    have hentry : ∀ x, (joinRetry (e.waits p) queue now d.readable e.row.lastStatus).2 = some x →
        e.waits p = some x := by
      rcases joinRetry_cases (e.waits p) queue now d.readable e.row.lastStatus with
        ⟨-, hv⟩ | ⟨k, t, he, hj⟩
      · exact hv
      · rw [hj, he]
        exact fun x hx => hx
    generalize joinRetry (e.waits p) queue now d.readable e.row.lastStatus = r at hentry ⊢
    by_cases hrec : ∃ a ∈ queue ++ r.1, a.kind ∈ recoveryKinds
    · obtain ⟨a, ha, hk⟩ := hrec
      cases ho : d.outcome with
      | off => exact fun hx => h p k t (hentry _ hx)
      | done held =>
        rw [(waits_of_recovery ha hk r.2 now).2]
        exact fun hx => nomatch hx
      | failed reached =>
        cases hlast : ((queue ++ r.1).filter (·.kind ∈ recoveryKinds)).getLast? with
        | none =>
          simp only [Sending.waits, hlast]
          exact fun hx => h p k t (hentry _ hx)
        | some b =>
          have hb : b.kind ∈ recoveryKinds := by
            simpa using (List.mem_filter.1 (List.mem_of_getLast? hlast)).2
          simp only [Sending.waits, hlast, Option.some.injEq]
          intro hx
          cases hr : r.2 with
          | none =>
            rw [hr, Option.getD_none, Prod.mk.injEq] at hx
            exact hx.1 ▸ hb
          | some x =>
            rw [hr, Option.getD_some] at hx
            exact h p k t (hx ▸ hentry x hr)
    · rw [waits_of_no_recovery fun a ha hk => hrec ⟨a, ha, hk⟩]
      exact fun hx => h p k t (hentry _ hx)
  · rw [Function.update_of_ne hp]
    exact h p k t

theorem next_tabled (h : Tabled e.waits) (i : EpisodeIn) : Tabled (e.next m i).waits := by
  cases i with
  | check status now manual d =>
    rw [next_check]
    dsimp only
    split
    · exact h
    · exact send_tabled h
  | resend manual now d => exact send_tabled h

/-! ## The theorem -/

/-- A monitor nothing is announced about, with any checks behind it. -/
structure SiteRow.Fresh (row : SiteRow) : Prop where
  level : row.flap.level = none
  announced : row.announced = false
  flakyNotified : row.flakyNotified = false
  timed : row.Timed

/-- A failure that was told gets its recovery: at each good check of a monitor that
has held out, and at each scheduled check whose window is clear. -/
def Settles (e : SiteEpisode) : EpisodeIn → Prop
  | .check status now manual d =>
    (standing e.log = some .bad → status = .up → e.row.HeldOut now →
      ∃ a ∈ e.queue m (.check status now manual d), a.kind ∈ recoveryKinds) ∧
    (standing e.log = some .flaky → manual = false → windowFlaky m e.row status now = false →
      ∃ a ∈ e.queue m (.check status now manual d), a.kind = .flakyrec)
  | .resend .. => True

/-- No recovery is queued unless a failure went out before, with its batch. -/
def RecoversTheAnnounced (e : SiteEpisode) (i : EpisodeIn) : Prop :=
  (∃ a ∈ e.queue m i, a.kind ∈ episodeRecoveries) → ∃ k ∈ episodeFailures, .out k ∈ e.log

theorem next_timed {i : EpisodeIn} (h : e.row.Timed) (hpaced : i.Paced e.row) :
    (e.next m i).row.Timed := by
  have hcommit : ∀ (o : Sending) (told : List SiteAlert) (row : SiteRow), row.Timed →
      (o.commit told row).Timed := by
    intro o told row hrow
    cases o with
    | off => exact hrow
    | failed _ => exact hrow
    | done _ =>
      unfold Sending.commit
      dsimp only
      induction told generalizing row with
      | nil => exact hrow
      | cons a told ih =>
        apply ih
        have hmarks : ∀ (l : List RowMark) (row : SiteRow), row.Timed → (l.foldl setMark row).Timed := by
          intro l
          induction l with
          | nil => exact fun _ h => h
          | cons x l ihl =>
            intro row h
            apply ihl
            cases x <;> exact ⟨h.past, h.failing⟩
        unfold commitAlert
        apply hmarks
        split
        · exact ⟨hrow.past, fun hne => hrow.failing fun hn => hne (by simp [hn])⟩
        · exact hrow
  cases i with
  | check status now manual d =>
    have hrow : (recordOutcome m e.row status now manual).1.Timed :=
      recordOutcome_timed m h fun t ht => (hpaced t ht).1
    unfold SiteEpisode.next
    dsimp only
    split
    · exact hrow
    · exact hcommit _ _ _ hrow
  | resend manual now d => exact hcommit _ _ _ h

theorem settles_of_inStep {i : EpisodeIn} (h : e.InStep) (ht : e.row.Timed)
    (hpaced : i.Paced e.row) : Settles m e i := by
  obtain ⟨c, hc, hs⟩ := h
  cases i with
  | resend => trivial
  | check status now manual d =>
    constructor
    · rintro hbad rfl hout
      rw [hc, Option.some.injEq] at hbad
      subst hbad
      exact recstable_queued m hs ht hpaced hout
    · rintro hflaky rfl hclear
      rw [hc, Option.some.injEq] at hflaky
      subst hflaky
      exact flakyrec_queued m hs hpaced hclear

/-- The alerts of a monitor over all its checks, whatever becomes of its batches.
What the panel takes as told alternates, and each failure among it gets its
recovery. A recovery is queued only after a failure that went out, goes out
once at most, and is lost for one of four reasons only. -/
theorem site_alerts_alternate (m : SiteMon) (row : SiteRow) (hrow : row.Fresh)
    (is : List EpisodeIn) :
    (Along (SiteEpisode.next m) (Timely m) { row := row } is →
      (∃ c, standing (run (SiteEpisode.next m) { row := row } is).log = some c) ∧
        Along (SiteEpisode.next m) (Settles m) { row := row } is) ∧
      Along (SiteEpisode.next m) (RecoversTheAnnounced m) { row := row } is ∧
      Along (SiteEpisode.next m) (KeepsRecovery m) { row := row } is ∧
      recoveriesOut (run (SiteEpisode.next m) { row := row } is).log ≤
        recoveriesQueued (run (SiteEpisode.next m) { row := row } is).log := by
  have htabled : Tabled (SiteEpisode.waits { row := row }) := fun p k t h => nomatch h
  have hinStep : SiteEpisode.InStep { row := row } :=
    ⟨.quiet, rfl, .quiet hrow.level hrow.announced hrow.flakyNotified⟩
  have hstep : ∀ (e : SiteEpisode) (i : EpisodeIn), e.InStep ∧ e.row.Timed ∧ Tabled e.waits →
      Timely m e i → (e.next m i).InStep ∧ (e.next m i).row.Timed ∧ Tabled (e.next m i).waits :=
    fun e i h hi => ⟨next_inStep m h.1 h.2.2 hi, next_timed m h.2.1 hi.1, next_tabled m h.2.2 i⟩
  have hstart : SiteEpisode.InStep { row := row } ∧ row.Timed ∧
      Tabled (SiteEpisode.waits { row := row }) := ⟨hinStep, hrow.timed, htabled⟩
  have htruthful : SiteEpisode.Truthful { row := row } := by
    rintro (h | h | h)
    · rw [hrow.announced] at h
      cases h
    · exact absurd hrow.level h
    · rw [hrow.flakyNotified] at h
      cases h
  refine ⟨fun ha => ⟨?_, ?_⟩, ?_, ?_, ?_⟩
  · obtain ⟨⟨c, hc, -⟩, -⟩ := inv_run
      (I := fun e : SiteEpisode => e.InStep ∧ e.row.Timed ∧ Tabled e.waits) hstart hstep ha
    exact ⟨c, hc⟩
  · exact step_of_run (I := fun e : SiteEpisode => e.InStep ∧ e.row.Timed ∧ Tabled e.waits) hstart
      hstep (fun e i h hi => settles_of_inStep m h.1 h.2.1 hi.1) ha
  · refine along_of_inv (I := fun e : SiteEpisode => e.Truthful ∧ Tabled e.waits)
      ⟨htruthful, htabled⟩ (fun e i h => ⟨next_truthful m h.1 h.2 i, next_tabled m h.2 i⟩) ?_ is
    intro e i h hq
    cases i with
    | check status now manual d =>
      exact h.1 ((recordOutcome_marked m e.row status now manual).2 hq)
    | resend => simp [SiteEpisode.queue] at hq
  · exact along_of_inv (I := fun e : SiteEpisode => Tabled e.waits) htabled
      (fun e i h => next_tabled m h i) (fun e i h => next_keeps m h i) is
  · have hfirst : SiteEpisode.Paid { row := row } := Nat.le_refl 0
    have hpaid : (run (SiteEpisode.next m) { row := row } is).Paid :=
      run_of_inv hfirst (fun e i h => next_paid m h i) is
    exact le_trans (Nat.le_add_right _ _) hpaid

/-! ## Two runs -/

/-- Every alert goes out, or the batch fails. -/
def allSent : SendIn := ⟨true, .done fun _ => false⟩
def notSent : SendIn := ⟨true, .failed fun _ => false⟩

def quickMon : SiteMon := ⟨1, 1, 60⟩

theorem fresh_start : SiteRow.Fresh {} :=
  ⟨rfl, rfl, rfl, ⟨fun s hs => (by cases hs), fun h => absurd rfl h⟩⟩

/-- The site falls, rises, and falls again, and the recovery does not go out. -/
def lostRecovery : List EpisodeIn :=
  [.check .down 0 false allSent, .check .up (sec 60) false notSent,
    .check .down (sec 120) false allSent]

/-- The site falls, and the alert goes out with a batch that fails, so it comes
again; the recovery waits, and goes out with a batch of others. -/
def lateRecovery : List EpisodeIn :=
  [.check .down 0 false ⟨true, .failed fun _ => true⟩, .check .down (sec 60) false allSent,
    .check .up (sec 120) false notSent, .resend false (sec 150) allSent]

theorem site_alerts_alternate_lost :
    (((∃ c, standing (run (SiteEpisode.next quickMon) { row := {} } lostRecovery).log = some c) ∧
        Along (SiteEpisode.next quickMon) (Settles quickMon) { row := {} } lostRecovery) ∧
      Along (SiteEpisode.next quickMon) (RecoversTheAnnounced quickMon) { row := {} } lostRecovery ∧
      Along (SiteEpisode.next quickMon) (KeepsRecovery quickMon) { row := {} } lostRecovery) ∧
    (∃ c, standing (run (SiteEpisode.next quickMon) { row := {} } lateRecovery).log = some c) ∧
      recoveriesOut (run (SiteEpisode.next quickMon) { row := {} } lateRecovery).log ≤
        recoveriesQueued (run (SiteEpisode.next quickMon) { row := {} } lateRecovery).log := by
  obtain ⟨halt, hann, hkeep, -⟩ := site_alerts_alternate quickMon {} fresh_start lostRecovery
  obtain ⟨halt', -, -, hpaid⟩ := site_alerts_alternate quickMon {} fresh_start lateRecovery
  exact ⟨⟨halt (by decide +kernel), hann, hkeep⟩, (halt' (by decide +kernel)).1, hpaid⟩

/-- The recovery does not go out, and the site falls again: the table forgets the
recovery, and the chat hears of a second fall. -/
theorem a_lost_recovery_repeats_the_alert :
    ¬ ∀ (m : SiteMon) (row : SiteRow) (is : List EpisodeIn), row.Fresh →
      Along (SiteEpisode.next m) (fun e i => i.Paced e.row) { row := row } is →
      ∃ c, chatAfter ((run (SiteEpisode.next m) { row := row } is).log.filterMap SiteEvent.heard) =
        some c := by
  intro h
  obtain ⟨c, hc⟩ := h quickMon {} lostRecovery fresh_start
    (by decide +kernel)
  have hnone : chatAfter ((run (SiteEpisode.next quickMon) { row := {} }
      lostRecovery).log.filterMap SiteEvent.heard) = none := by decide +kernel
  rw [hnone] at hc
  cases hc

/-- Four short failures, the last of them after a slow answer. -/
def slowThenDown : List EpisodeIn :=
  [.check .down 0 false allSent, .check .up (sec 60) false allSent,
    .check .down (sec 120) false allSent, .check .up (sec 180) false allSent,
    .check .down (sec 240) false allSent, .check .up (sec 300) false allSent,
    .check .degraded (sec 360) false allSent, .check .down (sec 420) false allSent]

/-- One check can queue "down" and "flaky" at once: then the chat hears of both,
though everything went out. -/
theorem a_check_can_queue_both :
    ¬ ∀ (m : SiteMon) (row : SiteRow) (is : List EpisodeIn), row.Fresh →
      Along (SiteEpisode.next m) (fun e i => i.Paced e.row) { row := row } is →
      (∀ i ∈ is, i.send = allSent) →
      ∃ c, chatAfter ((run (SiteEpisode.next m) { row := row } is).log.filterMap SiteEvent.heard) =
        some c := by
  intro h
  obtain ⟨c, hc⟩ := h ⟨2, 5, 60⟩ {} slowThenDown fresh_start
    (by decide +kernel)
    (by simp [slowThenDown, EpisodeIn.send])
  have hnone : chatAfter ((run (SiteEpisode.next ⟨2, 5, 60⟩) { row := {} }
      slowThenDown).log.filterMap SiteEvent.heard) = none := by
    decide +kernel
  rw [hnone] at hc
  cases hc

end Kervax
