-- What the fields of a queue's move say about its reports, over every run of reports, and
-- since when the alert condition of a queue that is told has held.
import Kervax.QueueWatch
import Kervax.Series
import Mathlib.Tactic.Linarith
import Mathlib.Tactic.Ring
import Mathlib.Algebra.Order.Field.Rat

namespace Kervax.QueueWatch

open Series (Current Stamped)

/-! ## The reports of one queue -/

structure Report where
  ts : Int
  depth : Int
  oldest : Option Int
  consumers : Option Int

def stepReport (e : Option Entry) (r : Report) : Entry := step e r.depth r.ts r.oldest r.consumers

/-- `step` folded from None. -/
def folded (rs : List Report) : Option Entry := rs.foldl (fun e r => some (stepReport e r)) none

/-- No more than `GAP_S` lies between two reports. -/
def Near (a b : Report) : Prop := b.ts - a.ts ≤ gapS

def Peak (st : List Report) (p : Int) : Prop := (∃ r ∈ st, r.depth = p) ∧ ∀ r ∈ st, r.depth ≤ p

/-- Below the peak by more than the greater of five and a tenth of it. -/
def Dip (p d : Int) : Prop := (d : ℚ) < (p : ℚ) - max 5 (1 / 10 * (p : ℚ))

/-- A report does not go on with the stretch: a gap is before it, or it is a dip. -/
def Cut (st : List Report) (r : Report) : Prop :=
  (∃ b ∈ st.getLast?, ¬ Near b r) ∨ ∃ p, Peak st p ∧ Dip p r.depth

/-- `st` is the current stretch of the reports `rs`. -/
inductive Stretch : List Report → List Report → Prop
  | first (r : Report) : Stretch [r] [r]
  | again {rs st : List Report} {r : Report} : Stretch rs st → Cut st r → Stretch (rs ++ [r]) [r]
  | on {rs st : List Report} {r : Report} :
    Stretch rs st → ¬ Cut st r → Stretch (rs ++ [r]) (st ++ [r])

/-- The queue has no consumer. -/
def Zero (r : Report) : Prop := r.consumers = some 0

/-- The oldest task is that of the stamp `o`. -/
def Oldest (o : Int) (r : Report) : Prop := truthy r.oldest = some o

/-- What the fields of an entry say about the reports. -/
structure Encodes (rs st : List Report) (e : Entry) : Prop where
  start : ∃ first ∈ st.head?, e.t0 = first.ts ∧ e.d0 = first.depth
  peak : Peak st e.p
  nd : e.nd = true ↔ st.IsChain fun a b => a.depth ≤ b.depth
  latest : ∃ r ∈ rs.getLast?, e.last = r.depth ∧ e.seen = r.ts ∧ e.c = r.consumers ∧
    e.oc = truthy r.oldest
  /-- The series without consumers is cut by gaps, not by dips. -/
  zeroStart : Stamped Zero Near Report.ts rs e.z0
  zeroDepth : Stamped Zero Near Report.depth rs e.zd
  /-- And so is that of the oldest task. -/
  same : ∀ o, e.oc = some o → Stamped (Oldest o) Near Report.ts rs e.ocs
  noTask : e.oc = none → e.ocs = none

theorem folded_snoc (rs : List Report) (r : Report) :
    folded (rs ++ [r]) = some (stepReport (folded rs) r) := by
  simp [folded]

theorem Stretch.ne_nil {rs st : List Report} (h : Stretch rs st) : st ≠ [] := by
  cases h <;> simp

theorem Stretch.getLast? {rs st : List Report} (h : Stretch rs st) :
    rs.getLast? = st.getLast? := by
  cases h <;> simp

/-- Every run of reports has a current stretch. -/
theorem exists_stretch {rs : List Report} (h : rs ≠ []) : ∃ st, Stretch rs st := by
  induction rs using List.reverseRecOn with
  | nil => exact absurd rfl h
  | append_singleton rs r ih =>
    by_cases hrs : rs = []
    · subst hrs
      exact ⟨[r], Stretch.first r⟩
    · obtain ⟨st, hst⟩ := ih hrs
      by_cases hcut : Cut st r
      · exact ⟨_, hst.again hcut⟩
      · exact ⟨_, hst.on hcut⟩

/-! ## One step -/

theorem dipped_iff (p d : Int) : dipped p d = true ↔ Dip p d := by
  unfold dipped Dip
  rw [decide_eq_true_eq]
  have hcast : (10 * d < 10 * p - max 50 p) ↔ (10 * (d : ℚ) < 10 * p - max 50 (p : ℚ)) := by
    exact_mod_cast Iff.rfl
  have hmax : max 50 (p : ℚ) = 10 * max 5 (1 / 10 * (p : ℚ)) := by
    rw [mul_max_of_nonneg _ _ (by norm_num)]
    congr 1
    · norm_num
    · ring
  rw [hcast, hmax]
  constructor <;> intro h <;> linarith

variable {rs st : List Report} {r l : Report} {e : Entry}

theorem peak_unique {p q : Int} (hp : Peak st p) (hq : Peak st q) : p = q := by
  obtain ⟨⟨r, hr, rfl⟩, hall⟩ := hp
  obtain ⟨⟨s, hs, rfl⟩, hall'⟩ := hq
  exact le_antisymm (hall' r hr) (hall s hs)

theorem gap_iff (hseen : e.seen = l.ts) : gap (some e) r.ts = true ↔ ¬ Near l r := by
  simp only [gap, Option.all_some, decide_eq_true_eq, Near, hseen, not_le]

/-- Where the stretch is cut the move begins anew. -/
theorem cut_iff (he : Encodes rs st e) (hst : Stretch rs st) :
    (gap (some e) r.ts || dip (some e) r.depth r.ts) = true ↔ Cut st r := by
  obtain ⟨l, hl, -, hseen, -⟩ := he.latest
  rw [hst.getLast?] at hl
  have hgap : gap (some e) r.ts = true ↔ ∃ b ∈ st.getLast?, ¬ Near b r := by
    rw [gap_iff hseen]
    constructor
    · exact fun h => ⟨l, hl, h⟩
    · rintro ⟨b, hb, h⟩
      exact Option.mem_unique hl hb ▸ h
  have hdip : dipped e.p r.depth = true ↔ ∃ p, Peak st p ∧ Dip p r.depth := by
    rw [dipped_iff]
    constructor
    · exact fun h => ⟨e.p, he.peak, h⟩
    · rintro ⟨p, hp, h⟩
      exact peak_unique hp he.peak ▸ h
  unfold Cut
  rw [← hgap, ← hdip]
  cases hg : gap (some e) r.ts <;> simp [dip, hg]

theorem stepReport_of_cut (h : (gap (some e) r.ts || dip (some e) r.depth r.ts) = true) :
    (stepReport (some e) r).t0 = r.ts ∧ (stepReport (some e) r).d0 = r.depth ∧
      (stepReport (some e) r).p = r.depth ∧ (stepReport (some e) r).nd = true := by
  simp [stepReport, step, moved, h, fresh]

theorem stepReport_goesOn (h : (gap (some e) r.ts || dip (some e) r.depth r.ts) = false) :
    (stepReport (some e) r).t0 = e.t0 ∧ (stepReport (some e) r).d0 = e.d0 ∧
      (stepReport (some e) r).p = max e.p r.depth ∧
      (stepReport (some e) r).nd = (e.nd && decide (e.last ≤ r.depth)) := by
  simp [stepReport, step, moved, h, goesOn]

theorem stepReport_latest (o : Option Entry) (r : Report) :
    (stepReport o r).last = r.depth ∧ (stepReport o r).seen = r.ts ∧
      (stepReport o r).c = r.consumers ∧ (stepReport o r).oc = truthy r.oldest := by
  cases o with
  | none => simp [stepReport, step, moved, fresh]
  | some e =>
    cases h : (gap (some e) r.ts || dip (some e) r.depth r.ts) <;>
      simp [stepReport, step, moved, fresh, goesOn, h]

theorem peak_single (r : Report) : Peak [r] r.depth := by
  simp [Peak]

theorem Peak.snoc {p : Int} (h : Peak st p) : Peak (st ++ [r]) (max p r.depth) := by
  obtain ⟨⟨s, hs, rfl⟩, hall⟩ := h
  constructor
  · rcases le_total s.depth r.depth with hle | hle
    · exact ⟨r, by simp, (max_eq_right hle).symm⟩
    · exact ⟨s, by simp [hs], (max_eq_left hle).symm⟩
  · intro t ht
    rcases List.mem_append.mp ht with ht | ht
    · exact (hall t ht).trans (le_max_left _ _)
    · exact List.mem_singleton.mp ht ▸ le_max_right _ _

/-! ## The series that go through a step -/

theorem truthy_of_ne {m : Option Int} {v : Int} (h : m = some v) (hv : v ≠ 0) :
    truthy m = some v := by
  simp [truthy, h, hv]

theorem truthy_ne {m : Option Int} {v : Int} (h : truthy m = some v) : m = some v ∧ v ≠ 0 := by
  simpa [truthy, Option.filter_eq_some_iff] using h

theorem prevOf_near (hseen : e.seen = l.ts) (h : Near l r) : prevOf (some e) r.ts = some e := by
  unfold prevOf
  rw [if_neg]
  rw [gap_iff hseen]
  exact not_not.mpr h

theorem prevOf_far (hseen : e.seen = l.ts) (h : ¬ Near l r) : prevOf (some e) r.ts = none := by
  unfold prevOf
  rw [if_pos ((gap_iff hseen).mpr h)]

/-- What a mark at the time of a report holds is not zero. -/
theorem Stamped.nonzero {P : Report → Prop} {m : Option Int} {v : Int}
    (h : Stamped P Near Report.ts rs m) (hts : ∀ r ∈ rs, r.ts ≠ 0) (hm : m = some v) : v ≠ 0 := by
  obtain ⟨a, ha, rfl⟩ := h.mem hm
  exact hts a ha

/-- The start and the depth of the series without consumers go through a step. -/
theorem zeros_next (he : Encodes rs st e) (hts : ∀ r ∈ rs, r.ts ≠ 0) (r : Report) :
    Stamped Zero Near Report.ts (rs ++ [r]) (stepReport (some e) r).z0 ∧
      Stamped Zero Near Report.depth (rs ++ [r]) (stepReport (some e) r).zd := by
  obtain ⟨l, hl, -, hseen, hc, -⟩ := he.latest
  obtain ⟨rs, rfl⟩ := List.getLast?_eq_some_iff.mp hl
  have hz0 : (stepReport (some e) r).z0 =
      (zeroStart (prevOf (some e) r.ts) r.consumers r.depth r.ts).map Prod.fst := rfl
  have hzd : (stepReport (some e) r).zd =
      (zeroStart (prevOf (some e) r.ts) r.consumers r.depth r.ts).map Prod.snd := rfl
  rw [hz0, hzd]
  unfold zeroStart
  by_cases hr : r.consumers = some 0
  · rw [if_pos hr]
    by_cases hgo : Near l r ∧ Zero l
    · obtain ⟨v, hv⟩ := he.zeroStart.exists_of_last hgo.2
      obtain ⟨w, hw⟩ := he.zeroDepth.exists_of_last hgo.2
      have hseries : zeroSeries (prevOf (some e) r.ts) = some (v, w) := by
        rw [prevOf_near hseen hgo.1]
        unfold zeroSeries
        rw [Option.bind_some, if_pos (hc.trans hgo.2),
          truthy_of_ne hv (Stamped.nonzero he.zeroStart hts hv), hw]
        rfl
      rw [hseries]
      refine ⟨?_, ?_⟩
      · rw [Option.getD_some, Option.map_some, ← hv]
        exact he.zeroStart.snoc hgo.2 hr hgo.1
      · rw [Option.getD_some, Option.map_some, ← hw]
        exact he.zeroDepth.snoc hgo.2 hr hgo.1
    · have hseries : zeroSeries (prevOf (some e) r.ts) = none := by
        by_cases hn : Near l r
        · rw [prevOf_near hseen hn]
          unfold zeroSeries
          rw [Option.bind_some, if_neg]
          exact fun h0 => hgo ⟨hn, hc.symm.trans h0⟩
        · rw [prevOf_far hseen hn]
          rfl
      have hno : ∀ b ∈ (rs ++ [l]).getLast?, Zero b → ¬ Near b r := by
        intro b hb hzero hnear
        rw [List.getLast?_concat, Option.mem_some_iff] at hb
        exact hgo ⟨hb ▸ hnear, hb ▸ hzero⟩
      rw [hseries]
      exact ⟨Stamped.start hr hno, Stamped.start hr hno⟩
  · rw [if_neg hr]
    exact ⟨Stamped.skip hr, Stamped.skip hr⟩

/-- Since when the oldest task is the same goes through a step. -/
theorem same_next (he : Encodes rs st e) (hts : ∀ r ∈ rs, r.ts ≠ 0) {o : Int}
    (ho : truthy r.oldest = some o) :
    Stamped (Oldest o) Near Report.ts (rs ++ [r]) (stepReport (some e) r).ocs := by
  obtain ⟨l, hl, -, hseen, -, hoc⟩ := he.latest
  obtain ⟨rs, rfl⟩ := List.getLast?_eq_some_iff.mp hl
  have hocs : (stepReport (some e) r).ocs =
      sameSince (prevOf (some e) r.ts) r.oldest r.ts := rfl
  rw [hocs]
  unfold sameSince
  rw [ho, Option.map_some]
  by_cases hgo : Near l r ∧ Oldest o l
  · have hsame := he.same o (hoc.trans hgo.2)
    obtain ⟨v, hv⟩ := hsame.exists_of_last hgo.2
    rw [prevOf_near hseen hgo.1, Option.bind_some, if_pos (hoc.trans hgo.2),
      truthy_of_ne hv (Stamped.nonzero hsame hts hv)]
    rw [hv] at hsame
    exact hsame.snoc hgo.2 ho hgo.1
  · have hprev : ((prevOf (some e) r.ts).bind fun e =>
        if e.oc = some o then truthy e.ocs else none) = none := by
      by_cases hn : Near l r
      · rw [prevOf_near hseen hn, Option.bind_some, if_neg]
        exact fun h => hgo ⟨hn, hoc.symm.trans h⟩
      · rw [prevOf_far hseen hn]
        rfl
    rw [hprev]
    refine Stamped.start ho ?_
    intro b hb hold hnear
    rw [List.getLast?_concat, Option.mem_some_iff] at hb
    exact hgo ⟨hb ▸ hnear, hb ▸ hold⟩

/-! ## Every run -/

theorem encodes_first (r : Report) : Encodes [r] [r] (stepReport none r) where
  start := ⟨r, rfl, rfl, rfl⟩
  peak := peak_single r
  nd := by
    refine iff_of_true rfl ?_
    simp
  latest := ⟨r, rfl, stepReport_latest none r⟩
  zeroStart := by
    have h : (stepReport none r).z0 = if r.consumers = some 0 then some r.ts else none := by
      by_cases hr : r.consumers = some 0 <;>
        simp [stepReport, step, zeroStart, zeroSeries, prevOf, gap, hr]
    rw [h]
    by_cases hr : r.consumers = some 0
    · rw [if_pos hr]
      exact Stamped.start (l := []) hr (by simp)
    · rw [if_neg hr]
      exact Stamped.skip (l := []) hr
  zeroDepth := by
    have h : (stepReport none r).zd = if r.consumers = some 0 then some r.depth else none := by
      by_cases hr : r.consumers = some 0 <;>
        simp [stepReport, step, zeroStart, zeroSeries, prevOf, gap, hr]
    rw [h]
    by_cases hr : r.consumers = some 0
    · rw [if_pos hr]
      exact Stamped.start (l := []) hr (by simp)
    · rw [if_neg hr]
      exact Stamped.skip (l := []) hr
  same o ho := by
    have hocs : (stepReport none r).ocs = some r.ts := by
      have ho : truthy r.oldest = some o := ho
      simp [stepReport, step, sameSince, prevOf, gap, ho]
    rw [hocs]
    exact Stamped.start (l := []) ho (by simp)
  noTask ho := by
    have ho : truthy r.oldest = none := ho
    simp [stepReport, step, sameSince, ho]

theorem noTask_next (o : Option Entry) (h : (stepReport o r).oc = none) :
    (stepReport o r).ocs = none := by
  have ho : truthy r.oldest = none := h
  simp [stepReport, step, sameSince, ho]

theorem Encodes.again (he : Encodes rs st e) (hst : Stretch rs st) (hts : ∀ r ∈ rs, r.ts ≠ 0)
    (hcut : Cut st r) : Encodes (rs ++ [r]) [r] (stepReport (some e) r) := by
  obtain ⟨ht0, hd0, hp, hnd⟩ := stepReport_of_cut ((cut_iff he hst).mpr hcut)
  refine ⟨⟨r, rfl, ht0, hd0⟩, hp ▸ peak_single r, iff_of_true hnd (List.isChain_singleton r), ?_,
    (zeros_next he hts r).1, (zeros_next he hts r).2, ?_, noTask_next _⟩
  · exact ⟨r, List.getLast?_concat, stepReport_latest _ r⟩
  · intro o ho
    exact same_next he hts ((stepReport_latest _ r).2.2.2.symm.trans ho)

theorem Encodes.on (he : Encodes rs st e) (hst : Stretch rs st) (hts : ∀ r ∈ rs, r.ts ≠ 0)
    (hcut : ¬ Cut st r) : Encodes (rs ++ [r]) (st ++ [r]) (stepReport (some e) r) := by
  have hgo : (gap (some e) r.ts || dip (some e) r.depth r.ts) = false := by
    rw [← cut_iff he hst] at hcut
    simpa using hcut
  obtain ⟨ht0, hd0, hp, hnd⟩ := stepReport_goesOn hgo
  obtain ⟨l, hl, hlast, -⟩ := he.latest
  refine ⟨?_, ?_, ?_, ?_, (zeros_next he hts r).1, (zeros_next he hts r).2, ?_, noTask_next _⟩
  · obtain ⟨first, hfirst, h1, h2⟩ := he.start
    refine ⟨first, ?_, ht0.trans h1, hd0.trans h2⟩
    rw [List.head?_append_of_ne_nil _ hst.ne_nil]
    exact hfirst
  · rw [hp]
    exact he.peak.snoc
  · rw [hst.getLast?] at hl
    rw [hnd, Bool.and_eq_true, decide_eq_true_eq, he.nd, List.isChain_append, hlast]
    constructor
    · rintro ⟨hchain, hle⟩
      refine ⟨hchain, List.isChain_singleton r, ?_⟩
      intro b hb c hc
      rw [List.head?_cons, Option.mem_some_iff] at hc
      exact hc ▸ Option.mem_unique hl hb ▸ hle
    · rintro ⟨hchain, -, hall⟩
      exact ⟨hchain, hall l hl r rfl⟩
  · exact ⟨r, List.getLast?_concat, stepReport_latest _ r⟩
  · intro o ho
    exact same_next he hts ((stepReport_latest _ r).2.2.2.symm.trans ho)

/-- After any run of reports the fields are what they are said to be. -/
theorem folded_encodes {rs st : List Report} (hst : Stretch rs st) (hts : ∀ r ∈ rs, r.ts ≠ 0) :
    ∃ e, folded rs = some e ∧ Encodes rs st e := by
  induction hst with
  | first r => exact ⟨_, rfl, encodes_first r⟩
  | @again rs st r hst hcut ih =>
    have hts' : ∀ r ∈ rs, r.ts ≠ 0 := fun s hs => hts s (List.mem_append_left _ hs)
    obtain ⟨e, hf, he⟩ := ih hts'
    exact ⟨_, by rw [folded_snoc, hf], he.again hst hts' hcut⟩
  | @on rs st r hst hcut ih =>
    have hts' : ∀ r ∈ rs, r.ts ≠ 0 := fun s hs => hts s (List.mem_append_left _ hs)
    obtain ⟨e, hf, he⟩ := ih hts'
    exact ⟨_, by rw [folded_snoc, hf], he.on hst hts' hcut⟩

/-! ## The condition over the runs of a server -/

/-- A report of a server, with the queues that were told when it came. -/
structure ServerReport where
  ts : Int
  queues : List Queue
  held : List String

def watchStep (st : Watch) (r : ServerReport) : Watch := update st r.queues r.ts r.held

/-- The state after the reports. -/
def watched (rs : List ServerReport) : Watch := rs.foldl watchStep []

/-- One report of a queue: the entry that it was judged by, and whether the queue had been
forgotten (or never seen) before. -/
structure Turn where
  ts : Int
  queue : Queue
  held : Bool
  entry : Entry
  forgotten : Bool

/-- The alert condition held at the report, with the hysteresis of a queue already told. -/
def Stands (t : Turn) : Prop := stands t.entry t.queue t.ts t.held = true

/-- No more than `GAP_S` lies between the two, and the queue was not forgotten. -/
def Joined (a b : Turn) : Prop := b.ts - a.ts ≤ gapS ∧ b.forgotten = false

def turnOf (ts : Int) (held : List String) (o : Option Entry) (q : Queue) : Turn :=
  ⟨ts, q, decide (q.key ∈ held), stepOf o q ts, o.isNone⟩

def keyTurn (k : String) (ts : Int) (held : List String) (acc : Option Entry × List Turn)
    (q : Queue) : Option Entry × List Turn :=
  if q.key = k then
    (some (judged (stepOf acc.1 q ts) q ts (q.key ∈ held)), acc.2 ++ [turnOf ts held acc.1 q])
  else acc

def keyStep (k : String) (acc : Option Entry × List Turn) (r : ServerReport) :
    Option Entry × List Turn :=
  r.queues.foldl (keyTurn k r.ts r.held) (acc.1.filter (remembered r.ts), acc.2)

/-- The entry of one queue, and the reports of it. -/
def tracked (k : String) (rs : List ServerReport) : Option Entry × List Turn :=
  rs.foldl (keyStep k) (none, [])

def turns (k : String) (rs : List ServerReport) : List Turn := (tracked k rs).2

theorem filter_eq_choose (ts : Int) (st : Watch) : st.filter (fun kv => remembered ts kv.2) =
    Dict.choose (fun _ e => if remembered ts e then some e else none) st := by
  unfold Dict.choose
  rw [← List.filterMap_eq_filter]
  congr 1
  funext kv
  cases h : remembered ts kv.2 <;> simp [h, Option.guard]

theorem lookup_filter {st : Watch} (h : (Dict.keys st).Nodup) (ts : Int) (k : String) :
    (st.filter fun kv => remembered ts kv.2).lookup k =
      (st.lookup k).filter (remembered ts) := by
  rw [filter_eq_choose, Dict.lookup_choose h]
  cases st.lookup k with
  | none => rfl
  | some e => cases hr : remembered ts e <;> simp [Option.filter, hr]

theorem nodup_filter {st : Watch} (h : (Dict.keys st).Nodup) (ts : Int) :
    (Dict.keys (st.filter fun kv => remembered ts kv.2)).Nodup := by
  rw [filter_eq_choose]
  exact (Dict.keys_choose_sublist _ st).nodup h

theorem queueTurns_lookup (ts : Int) (held : List String) (qs : List Queue) {st : Watch}
    (k : String) {acc : Option Entry × List Turn} (hk : st.lookup k = acc.1) :
    (qs.foldl (queueTurn ts held) st).lookup k = (qs.foldl (keyTurn k ts held) acc).1 := by
  induction qs generalizing st acc with
  | nil => exact hk
  | cons q qs ih =>
    rw [List.foldl_cons, List.foldl_cons]
    apply ih
    unfold queueTurn keyTurn
    rw [Dict.lookup_put]
    by_cases hq : q.key = k
    · subst hq
      rw [if_pos rfl, if_pos rfl, hk]
    · rw [if_neg fun h => hq h.symm, if_neg hq]
      exact hk

theorem queueTurns_nodup (ts : Int) (held : List String) (qs : List Queue) {st : Watch}
    (h : (Dict.keys st).Nodup) : (Dict.keys (qs.foldl (queueTurn ts held) st)).Nodup := by
  induction qs generalizing st with
  | nil => exact h
  | cons q qs ih => exact ih (Dict.nodup_put h _ _)

theorem watched_snoc (rs : List ServerReport) (r : ServerReport) :
    watched (rs ++ [r]) = update (watched rs) r.queues r.ts r.held := by
  simp [watched, watchStep]

theorem tracked_snoc (k : String) (rs : List ServerReport) (r : ServerReport) :
    tracked k (rs ++ [r]) = keyStep k (tracked k rs) r := by
  simp [tracked]

/-- The state holds for each queue the entry of its own reports. -/
theorem watched_lookup (rs : List ServerReport) (k : String) :
    (watched rs).lookup k = (tracked k rs).1 ∧ (Dict.keys (watched rs)).Nodup := by
  induction rs using List.reverseRecOn with
  | nil => exact ⟨rfl, List.nodup_nil⟩
  | append_singleton rs r ih =>
    rw [watched_snoc, tracked_snoc]
    unfold keyStep update
    refine ⟨queueTurns_lookup _ _ _ k ?_, queueTurns_nodup _ _ _ (nodup_filter ih.2 r.ts)⟩
    rw [lookup_filter ih.2, ih.1]

/-- What the entry of a queue says about its reports. -/
structure Follows (o : Option Entry) (ts : List Turn) : Prop where
  seen : ∀ e, o = some e → ∃ t ∈ ts.getLast?, e.seen = t.ts
  bad : ∀ e, o = some e → Stamped Stands Joined Turn.ts ts e.bad
  timed : ∀ t ∈ ts, t.ts ≠ 0

theorem stepOf_seen (o : Option Entry) (q : Queue) (ts : Int) : (stepOf o q ts).seen = ts := by
  have h := (stepReport_latest o ⟨ts, q.depth, q.oldest, q.consumers⟩).2.1
  exact h

theorem stepOf_bad_far {e : Entry} {q : Queue} {ts : Int} (h : gap (some e) ts = true) :
    (stepOf (some e) q ts).bad = none := by
  simp [stepOf, step, moved, h, fresh, prevOf]

theorem stepOf_bad_near {e : Entry} {q : Queue} {ts : Int} (h : gap (some e) ts = false) :
    truthy (stepOf (some e) q ts).bad = truthy e.bad := by
  have hprev : prevOf (some e) ts = some e := by simp [prevOf, h]
  cases hd : dip (some e) q.depth ts
  · simp [stepOf, step, moved, h, hd, goesOn]
  · simp [stepOf, step, moved, hd, fresh, hprev, truthy, Option.filter_filter]

/-- The gap is measured from the last report of the queue. -/
theorem gap_joined {e : Entry} {l : Turn} (hseen : e.seen = l.ts) {ts : Int} {held : List String}
    {q : Queue} : gap (some e) ts = true ↔ ¬ Joined l (turnOf ts held (some e) q) := by
  simp only [gap, Option.all_some, decide_eq_true_eq, Joined, turnOf, hseen, Option.isNone_some,
    and_true, not_le]

/-- A report at which the condition holds goes on from the one before it, or begins a series. -/
theorem Follows.stamped {o : Option Entry} {rs : List Turn} (hf : Follows o rs) {ts : Int}
    {held : List String} {q : Queue} (hS : Stands (turnOf ts held o q)) :
    Stamped Stands Joined Turn.ts (rs ++ [turnOf ts held o q])
      (some ((truthy (stepOf o q ts).bad).getD ts)) := by
  cases o with
  | none =>
    have hnone : (stepOf none q ts).bad = none := rfl
    rw [hnone]
    refine Stamped.start hS ?_
    rintro b hb - hJ
    exact absurd hJ.2 (by simp [turnOf])
  | some e =>
    obtain ⟨l, hl, hseen⟩ := hf.seen e rfl
    have hmark := hf.bad e rfl
    obtain ⟨rest, hrest⟩ := List.getLast?_eq_some_iff.mp hl
    have hnear (hJ : Joined l (turnOf ts held (some e) q)) : gap (some e) ts = false :=
      Bool.eq_false_iff.mpr fun hgap => (gap_joined hseen).mp hgap hJ
    by_cases hgo : Joined l (turnOf ts held (some e) q) ∧ Stands l
    · rw [hrest] at hmark ⊢
      obtain ⟨v, hv⟩ := hmark.exists_of_last hgo.2
      obtain ⟨t, ht, rfl⟩ := hmark.mem hv
      have hne : t.ts ≠ 0 := hf.timed t (hrest ▸ ht)
      rw [stepOf_bad_near (hnear hgo.1), truthy_of_ne hv hne, Option.getD_some, ← hv]
      exact hmark.snoc hgo.2 hS hgo.1
    · have hnone : truthy (stepOf (some e) q ts).bad = none := by
        by_cases hJ : Joined l (turnOf ts held (some e) q)
        · have hbad : e.bad = none := hmark.absent fun S hS => hgo ⟨hJ, hS.last hl⟩
          rw [stepOf_bad_near (hnear hJ), hbad]
          rfl
        · rw [stepOf_bad_far ((gap_joined hseen).mpr hJ)]
          rfl
      rw [hnone]
      refine Stamped.start hS ?_
      intro b hb hstands hJ
      obtain rfl := Option.mem_unique hl hb
      exact hgo ⟨hJ, hstands⟩

theorem Follows.turn {k : String} {acc : Option Entry × List Turn} (hf : Follows acc.1 acc.2)
    {ts : Int} (hts : ts ≠ 0) (held : List String) (q : Queue) :
    Follows (keyTurn k ts held acc q).1 (keyTurn k ts held acc q).2 := by
  unfold keyTurn
  by_cases hq : q.key = k
  · rw [if_pos hq]
    refine ⟨?_, ?_, ?_⟩
    · intro e he
      obtain rfl := Option.some.inj he
      exact ⟨_, List.getLast?_concat, stepOf_seen acc.1 q ts⟩
    · intro e he
      obtain rfl := Option.some.inj he
      by_cases hst : stands (stepOf acc.1 q ts) q ts (decide (q.key ∈ held)) = true
      · have hbad : (judged (stepOf acc.1 q ts) q ts (decide (q.key ∈ held))).bad =
            some ((truthy (stepOf acc.1 q ts).bad).getD ts) := if_pos hst
        rw [hbad]
        exact hf.stamped hst
      · have hbad : (judged (stepOf acc.1 q ts) q ts (decide (q.key ∈ held))).bad = none :=
          if_neg hst
        rw [hbad]
        exact Stamped.skip hst
    · intro t ht
      rcases List.mem_append.mp ht with ht | ht
      · exact hf.timed t ht
      · exact List.mem_singleton.mp ht ▸ hts
  · rw [if_neg hq]
    exact hf

theorem Follows.turns {k : String} {acc : Option Entry × List Turn} (hf : Follows acc.1 acc.2)
    {ts : Int} (hts : ts ≠ 0) (held : List String) (qs : List Queue) :
    Follows (qs.foldl (keyTurn k ts held) acc).1 (qs.foldl (keyTurn k ts held) acc).2 := by
  induction qs generalizing acc with
  | nil => exact hf
  | cons q qs ih => exact ih (hf.turn hts held q)

theorem Follows.remembered {o : Option Entry} {ts : List Turn} (hf : Follows o ts) (now : Int) :
    Follows (o.filter (remembered now)) ts where
  seen e he := hf.seen e (Option.filter_eq_some_iff.mp he).1
  bad e he := hf.bad e (Option.filter_eq_some_iff.mp he).1
  timed := hf.timed

theorem tracked_follows (k : String) {rs : List ServerReport} (hts : ∀ r ∈ rs, r.ts ≠ 0) :
    Follows (tracked k rs).1 (tracked k rs).2 := by
  induction rs using List.reverseRecOn with
  | nil => exact ⟨by simp [tracked], by simp [tracked], by simp [tracked]⟩
  | append_singleton rs r ih =>
    rw [tracked_snoc]
    have hrs := ih fun s hs => hts s (List.mem_append_left _ hs)
    exact (hrs.remembered r.ts).turns (hts r (by simp)) r.held r.queues

/-! ## What is told -/

/-- The condition held at each report of a series without gaps, from `HOLD_S` before `now` on
or earlier, up to a report of late. -/
def HeldLong (k : String) (rs : List ServerReport) (now : Int) : Prop :=
  ∃ S, Current Stands Joined (turns k rs) S ∧
    ∃ first ∈ S.head?, ∃ last ∈ S.getLast?, holdS ≤ now - first.ts ∧ now - last.ts ≤ gapS

theorem mem_problems {st : Watch} {qs : List Queue} {now : Int} {held muted : List String}
    {x : Problem} (h : x ∈ problems st qs now held muted) :
    ∃ q ∈ qs, q.key = x.key ∧ ∃ e, st.lookup q.key = some e ∧
      told (some e) q now (decide (q.key ∈ held)) = true := by
  obtain ⟨h, -⟩ := List.mem_filter.mp h
  obtain ⟨q, hq, hx⟩ := List.mem_filterMap.mp ((List.mem_insertionSort _).mp h)
  obtain ⟨e, he, hx⟩ := Option.bind_eq_some_iff.mp hx
  split_ifs at hx with htold
  obtain rfl := Option.some.inj hx
  exact ⟨q, (List.mem_filter.mp hq).1, rfl, e, he, htold⟩

theorem judged_of_stands {e : Entry} {q : Queue} {now : Int} {held : Bool}
    (h : (why (some e) q.depth now q.consumers held).2 ≠ 0 ∨
      stalled (some e) q.depth now held ≠ 0) : now - e.seen ≤ gapS := by
  by_contra hgap
  have hun : unjudged e q.depth now held = true := by
    simp [unjudged, not_le.mp hgap]
  simp [why, stalled, hun] at h

/-- A queue that was not told yet is told only when its condition has held long enough. -/
theorem held_long {k : String} {rs : List ServerReport} (hts : ∀ r ∈ rs, r.ts ≠ 0) {e : Entry}
    {q : Queue} {now : Int} (he : (watched rs).lookup k = some e)
    (htold : told (some e) q now false = true) : HeldLong k rs now := by
  have hf := tracked_follows k hts
  rw [(watched_lookup rs k).1] at he
  unfold told at htold
  rw [Bool.and_eq_true, Bool.false_or, Option.any_some, decide_eq_true_eq, Bool.or_eq_true,
    decide_eq_true_eq, decide_eq_true_eq] at htold
  obtain ⟨hcond, hlong⟩ := htold
  cases hb : truthy e.bad with
  | none =>
    rw [hb, Option.getD_none, sub_self] at hlong
    exact absurd hlong (by decide)
  | some v =>
    obtain ⟨hbad, -⟩ := truthy_ne hb
    rw [hb, Option.getD_some] at hlong
    obtain ⟨S, hS, hfirst⟩ := (hf.bad e he).some_iff.mp hbad
    obtain ⟨first, hmem, rfl⟩ := Option.map_eq_some_iff.mp hfirst
    obtain ⟨l, hl, hseen⟩ := hf.seen e he
    refine ⟨S, hS, first, hmem, l, hS.getLast? ▸ hl, hlong, ?_⟩
    rw [← hseen]
    exact judged_of_stands hcond

/-! ## The result -/

structure HistoryKept : Prop where
  /-- After every run of reports, at times that are not the second zero, the fields of the
  move say what they are meant to; the two series go on through a dip. -/
  fields : ∀ rs st, Stretch rs st → (∀ r ∈ rs, r.ts ≠ 0) → ∃ e, folded rs = some e ∧
    Encodes rs st e
  stretches : ∀ rs : List Report, rs ≠ [] → ∃ st, Stretch rs st
  /-- `bad` is the start of the current series of reports at which the condition held. -/
  bad : ∀ rs : List ServerReport, (∀ r ∈ rs, r.ts ≠ 0) → ∀ k e, (watched rs).lookup k = some e →
    Stamped Stands Joined Turn.ts (turns k rs) e.bad
  /-- What is told and was not told before has held for `HOLD_S` without a gap. -/
  told : ∀ rs : List ServerReport, (∀ r ∈ rs, r.ts ≠ 0) → ∀ queues now held muted,
    ∀ x ∈ problems (watched rs) queues now held muted, x.key ∉ held → HeldLong x.key rs now

theorem history_kept : HistoryKept where
  fields _ _ hst hts := folded_encodes hst hts
  stretches _ h := exists_stretch h
  bad rs hts k e he := by
    rw [(watched_lookup rs k).1] at he
    exact (tracked_follows k hts).bad e he
  told rs hts queues now held muted x hx hheld := by
    obtain ⟨q, -, hkey, e, he, htold⟩ := mem_problems hx
    rw [hkey] at he htold
    rw [decide_eq_false hheld] at htold
    exact held_long hts he htold

/-- A dip does not cut the series without consumers: it began before the stretch. And a
series that begins at the second zero is taken for one that begins later. -/
theorem series_before_the_stretch :
    (¬ ∀ rs st e, Stretch rs st → folded rs = some e → Stamped Zero Near Report.ts st e.z0) ∧
      ¬ ∀ rs st e, Stretch rs st → folded rs = some e → Stamped Zero Near Report.ts rs e.z0 := by
  have hzero : ∀ ts d, Zero ⟨ts, d, none, some 0⟩ := fun _ _ => rfl
  constructor
  · intro h
    have hst : Stretch ([⟨1000, 100, none, some 0⟩] ++ [⟨1060, 50, none, some 0⟩])
        [⟨1060, 50, none, some 0⟩] := by
      refine (Stretch.first _).again (.inr ⟨100, ⟨⟨_, List.mem_singleton_self _, rfl⟩, ?_⟩, ?_⟩)
      · simp
      · exact (dipped_iff 100 50).mp (by decide)
    have hmark := h _ _ _ hst rfl
    exact absurd (hmark.first _ (Current.start (l := []) (hzero 1060 50) (by simp))) (by decide)
  · intro h
    have hnear : Near ⟨0, 100, none, some 0⟩ ⟨60, 100, none, some 0⟩ := by
      simp [Near, gapS]
    have hcur : Current Zero Near ([⟨0, 100, none, some 0⟩] ++ [⟨60, 100, none, some 0⟩])
        ([⟨0, 100, none, some 0⟩] ++ [⟨60, 100, none, some 0⟩]) :=
      (Current.start (l := []) (hzero 0 100) (by simp)).snoc (hzero 60 100) (by simpa using hnear)
    obtain ⟨st, hst⟩ : ∃ st, Stretch ([⟨0, 100, none, some 0⟩] ++ [⟨60, 100, none, some 0⟩]) st :=
      exists_stretch (by simp)
    exact absurd ((h _ _ _ hst rfl).first _ hcur) (by decide)

end Kervax.QueueWatch
