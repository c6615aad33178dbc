-- The timeline over any sequence of reports: the containers that are said to come and go are
-- the changes that two reports in a row agree on.
import Kervax.Runs
import Kervax.TimelineLaws

namespace Kervax.Timeline

open Debounce (Watch)

/-- The reports that are looked at: not one with the time of the last. -/
def news : Option Int → List Snap → List Snap
  | _, [] => []
  | last, r :: rs => if last = some r.ts then news last rs else r :: news (some r.ts) rs

/-! ## One report -/

theorem track_seen {t : Track} {cur : Snap} (h : t.snap.map Snap.ts = some cur.ts) :
    track t cur = t := if_pos h

theorem track_new {t : Track} {cur : Snap} (h : t.snap.map Snap.ts ≠ some cur.ts) :
    track t cur = { snap := some (diff t.snap cur t.pend).2.1, pend := (diff t.snap cur t.pend).2.2,
                    log := t.log ++ (diff t.snap cur t.pend).1 } := if_neg h

@[simp] theorem heldUpdates_c (prev cur : Snap) : (heldUpdates prev cur).c = cur.c := by
  unfold heldUpdates
  split <;> rfl

@[simp] theorem heldUpdates_p (prev cur : Snap) : (heldUpdates prev cur).p = cur.p := by
  unfold heldUpdates
  split <;> rfl

@[simp] theorem heldUpdates_ts (prev cur : Snap) : (heldUpdates prev cur).ts = cur.ts := by
  unfold heldUpdates
  split <;> rfl

@[simp] theorem heldUpdates_boot (prev cur : Snap) : (heldUpdates prev cur).boot = cur.boot := by
  unfold heldUpdates
  split <;> rfl

theorem diff_ts (prev : Option Snap) (cur : Snap) (pend : Pend) :
    (diff prev cur pend).2.1.ts = cur.ts := by
  cases prev <;> simp [diff]

theorem track_ts (t : Track) (cur : Snap) : (track t cur).snap.map Snap.ts = some cur.ts := by
  by_cases h : t.snap.map Snap.ts = some cur.ts
  · rw [track_seen h, h]
  · rw [track_new h]
    simp [diff_ts]

/-! ## Containers -/

/-- What the reports say of a container, where they say something of containers. -/
def contLooks (name : String) (reps : List Snap) : List (Int × Bool) :=
  reps.filterMap fun r => r.c.map fun b => (r.ts, decide (name ∈ b.keys))

/-- The changes of looks, the first of which is where the timeline starts. -/
def spoken : List (Int × Bool) → List (Int × Bool)
  | [] => []
  | x :: xs => Debounce.changes x.2 xs

def counts : List (Int × Bool) → Option Bool
  | [] => none
  | x :: xs => some (Debounce.settled x.2 xs)

def Track.conts (t : Track) : Option (Book Cont) := t.snap.bind Snap.c

def Track.contNow (t : Track) (name : String) : Option (Watch Int) :=
  t.conts.map fun b => seen b t.pend.c name

/-- Before the first containers nothing waits. -/
def Track.noConts (t : Track) : Prop := t.conts = none ∧ t.pend.c = ⟨[], []⟩

theorem diffC_none {prev cur : Snap} (pend : Pend) (h : cur.c = none) :
    diffC prev cur pend = ([], prev.c, pend) := by
  unfold diffC
  rw [h]
  cases prev.c <;> rfl

theorem diffC_some {prev cur : Snap} (pend : Pend) {pc cc : Book Cont} (hp : prev.c = some pc)
    (hc : cur.c = some cc) :
    diffC prev cur pend = ((diffConts pc cc pend cur.ts).1, some (diffConts pc cc pend cur.ts).2.1,
      (diffConts pc cc pend cur.ts).2.2) := by
  unfold diffC
  rw [hp, hc]

theorem diffP_c (prev cur : Snap) (pend : Pend) : (diffP prev cur pend).2.2.c = pend.c := by
  unfold diffP
  split <;> rfl

theorem only_diffP (prev cur : Snap) (pend : Pend) : Only portKinds (diffP prev cur pend).1 := by
  unfold diffP
  split
  · exact only_diffPorts _ _ _ _
  · exact .nil _
  · exact .nil _

theorem only_diffC (prev cur : Snap) (pend : Pend) :
    Only ([.new, .gone] ++ contKinds) (diffC prev cur pend).1 := by
  unfold diffC
  split
  · unfold diffConts
    refine (Only.append ?_ ?_).append ((only_contSteps _ _ _ _).mono (by simp))
    · intro e he
      obtain ⟨a, -, rfl⟩ := List.mem_map.mp he
      simp [ev]
    · intro e he
      obtain ⟨a, -, rfl⟩ := List.mem_map.mp he
      simp [ev]
  · exact .nil _
  · exact .nil _

/-- The containers of a report, the rest of it aside. -/
theorem diff_conts {prev cur : Snap} (pend : Pend) (name : String) :
    (diff (some prev) cur pend).1.filterMap (contChange name) =
        (diffC prev (heldUpdates prev cur) pend).1.filterMap (contChange name) ∧
      (diff (some prev) cur pend).2.1.c = (diffC prev (heldUpdates prev cur) pend).2.1 ∧
      (diff (some prev) cur pend).2.2.c = (diffC prev (heldUpdates prev cur) pend).2.2.c := by
  unfold diff
  dsimp only
  refine ⟨?_, rfl, diffP_c _ _ _⟩
  rw [List.append_assoc, List.append_assoc, ← List.append_assoc (rebootEvs _ _),
    List.filterMap_append, List.filterMap_append,
    (only_system _ _ _).filterMap fun e he => contChange_none (by simp [he]),
    (only_diffP _ _ _).filterMap fun e he => contChange_none (by simp [he])]
  simp

/-- A report without containers. -/
theorem track_noC {t : Track} {cur : Snap} (hc : cur.c = none) (name : String) :
    (track t cur).log.filterMap (contChange name) = t.log.filterMap (contChange name) ∧
      (track t cur).conts = t.conts ∧ (track t cur).pend.c = t.pend.c := by
  by_cases h : t.snap.map Snap.ts = some cur.ts
  · rw [track_seen h]
    exact ⟨rfl, rfl, rfl⟩
  · rw [track_new h]
    unfold Track.conts
    cases hs : t.snap with
    | none => simp [diff, hc]
    | some prev =>
      obtain ⟨hlog, hnew, hpend⟩ := @diff_conts prev cur t.pend name
      rw [diffC_none t.pend (by simpa using hc)] at hlog hnew hpend
      exact ⟨by simp [hlog], hnew, hpend⟩

/-- The first containers. -/
theorem track_firstC {t : Track} {cur : Snap} (h : t.snap.map Snap.ts ≠ some cur.ts)
    (hno : t.noConts) {cc : Book Cont} (hc : cur.c = some cc) (name : String) :
    (track t cur).log.filterMap (contChange name) = t.log.filterMap (contChange name) ∧
      (track t cur).contNow name = some ⟨decide (name ∈ cc.keys), none⟩ := by
  have hwatch : seen cc ⟨[], []⟩ name = ⟨decide (name ∈ cc.keys), none⟩ := by simp [seen]
  rw [track_new h]
  unfold Track.contNow Track.conts
  obtain ⟨hnone, hempty⟩ := hno
  cases hs : t.snap with
  | none => simp [diff, hc, hempty, hwatch]
  | some prev =>
    have hprev : prev.c = none := by simpa [Track.conts, hs] using hnone
    have hdiff : diffC prev (heldUpdates prev cur) t.pend = ([], some cc, t.pend) := by
      unfold diffC
      rw [hprev, heldUpdates_c, hc]
    obtain ⟨hlog, hnew, hpend⟩ := @diff_conts prev cur t.pend name
    rw [hdiff] at hlog hnew hpend
    exact ⟨by simp [hlog], by simp [hnew, hpend, hempty, hwatch]⟩

/-- Every other report with containers. -/
theorem track_nextC {t : Track} {cur : Snap} (h : t.snap.map Snap.ts ≠ some cur.ts)
    {w : Watch Int} {name : String} (hw : t.contNow name = some w) {cc : Book Cont}
    (hc : cur.c = some cc) :
    (track t cur).log.filterMap (contChange name) = t.log.filterMap (contChange name) ++
        (w.tell (cur.ts, decide (name ∈ cc.keys))).toList ∧
      (track t cur).contNow name = some (w.look (cur.ts, decide (name ∈ cc.keys))) := by
  rw [track_new h]
  unfold Track.contNow Track.conts at hw ⊢
  cases hs : t.snap with
  | none => simp [hs] at hw
  | some prev =>
    obtain ⟨pc, hpc, rfl⟩ : ∃ pc, prev.c = some pc ∧ seen pc t.pend.c name = w := by
      simpa [hs] using hw
    obtain ⟨hlog, hnew, hpend⟩ := @diff_conts prev cur t.pend name
    rw [diffC_some t.pend hpc (by simpa using hc), heldUpdates_ts] at hlog hnew hpend
    rw [diffConts_changes] at hlog
    refine ⟨by rw [List.filterMap_append, hlog], ?_⟩
    simp only [Option.bind_some, hnew, hpend, Option.map_some]
    rw [diffConts_seen]

theorem contRun {name : String} (reps : List Snap) (t : Track) :
    (∀ w, t.contNow name = some w →
      (Runs.run track t reps).log.filterMap (contChange name) = t.log.filterMap (contChange name) ++
          w.told (contLooks name (news (t.snap.map Snap.ts) reps)) ∧
        (Runs.run track t reps).contNow name =
          some ((contLooks name (news (t.snap.map Snap.ts) reps)).foldl Watch.look w)) ∧
    (t.noConts →
      (Runs.run track t reps).log.filterMap (contChange name) = t.log.filterMap (contChange name) ++
          spoken (contLooks name (news (t.snap.map Snap.ts) reps)) ∧
        ((Runs.run track t reps).contNow name).map Watch.on =
          counts (contLooks name (news (t.snap.map Snap.ts) reps))) := by
  induction reps generalizing t with
  | nil =>
    refine ⟨fun w hw => ?_, fun hno => ?_⟩
    · simp [news, contLooks, Watch.told, hw]
    · simp [news, contLooks, spoken, counts, Track.contNow, hno.1]
  | cons r rs ih =>
    rw [Runs.run_cons, news]
    by_cases h : t.snap.map Snap.ts = some r.ts
    · rw [track_seen h, if_pos h]
      exact ih t
    · obtain ⟨ihw, ihno⟩ := ih (track t r)
      rw [track_ts] at ihw ihno
      rw [if_neg h]
      cases hc : r.c with
      | none =>
        have hlooks : contLooks name (r :: news (some r.ts) rs) =
            contLooks name (news (some r.ts) rs) := by
          simp [contLooks, hc]
        obtain ⟨hlog, hconts, hpend⟩ := @track_noC t r hc name
        rw [hlooks, ← hlog]
        refine ⟨fun w hw => ihw w ?_, fun hno => ihno ⟨hconts.trans hno.1, hpend.trans hno.2⟩⟩
        rw [← hw]
        unfold Track.contNow
        rw [hconts, hpend]
      | some cc =>
        have hlooks : contLooks name (r :: news (some r.ts) rs) =
            (r.ts, decide (name ∈ cc.keys)) :: contLooks name (news (some r.ts) rs) := by
          simp [contLooks, hc]
        rw [hlooks]
        refine ⟨fun w hw => ?_, fun hno => ?_⟩
        · obtain ⟨hlog, hnow⟩ := track_nextC h hw hc
          obtain ⟨hrun, hend⟩ := ihw _ hnow
          rw [hrun, hlog, List.append_assoc]
          exact ⟨rfl, hend⟩
        · obtain ⟨hlog, hnow⟩ := track_firstC h hno hc name
          obtain ⟨hrun, hend⟩ := ihw _ hnow
          have hon := (Debounce.tells_eq (⟨decide (name ∈ cc.keys), none⟩ : Watch Int)
            (contLooks name (news (some r.ts) rs))).2
          refine ⟨?_, ?_⟩
          · rw [hrun, hlog, Debounce.told_eq]
            rfl
          · rw [hend, Option.map_some, hon]
            rfl

/-- Whatever the reports: the timeline says of a container that it has come or gone when two
reports in a row, of those that have containers, agree on it and it did not count as that yet,
at the time of the first of the two; so by turns; and what counts at the end is what the last
two that agree have said. -/
theorem containers_debounced (reps : List Snap) (name : String) :
    (Runs.run track .empty reps).log.filterMap (contChange name) =
        spoken (contLooks name (news none reps)) ∧
      List.IsChain (· ≠ ·)
        (((Runs.run track .empty reps).log.filterMap (contChange name)).map Prod.snd) ∧
      ((Runs.run track .empty reps).conts.map fun b => decide (name ∈ b.keys)) =
        counts (contLooks name (news none reps)) := by
  obtain ⟨hlog, hon⟩ := (@contRun name reps .empty).2 ⟨rfl, rfl⟩
  have hspoken : (Runs.run track .empty reps).log.filterMap (contChange name) =
      spoken (contLooks name (news none reps)) := hlog
  refine ⟨hspoken, ?_, ?_⟩
  · rw [hspoken]
    unfold spoken
    split
    · exact List.IsChain.nil
    · exact (Debounce.changes_alternate _ _).tail
  · refine Eq.trans ?_ hon
    unfold Track.contNow
    rw [Option.map_map]
    rfl

end Kervax.Timeline
