-- Runs of the backup speed watch: the readings of the workload that is followed, and the series
-- of them that stand behind each thing the record says.
import Kervax.BackupTransfer
import Mathlib.Tactic.Linarith

namespace Kervax.BackupTransfer

open Kervax.Podnames (Text)

/-! ## Series of readings -/

/-- The next reading of an uninterrupted series. -/
def Next (newer older : Reading) : Prop :=
  0 < newer.clock - older.clock ∧ newer.clock - older.clock ≤ maxGap ∧ newer.restart = false

/-- An uninterrupted series, the newest reading first, from `start` on. -/
structure Series (p : Reading → Prop) (start : ℚ) (rs : List Reading) : Prop where
  chain : rs.IsChain Next
  each : ∀ r ∈ rs, p r
  first : rs.getLast?.map Reading.clock = some start

/-- Such a series over at least so many seconds. -/
def Lasting (p : Reading → Prop) (span : ℚ) (rs : List Reading) : Prop :=
  ∃ start, Series p start rs ∧ ∃ r ∈ rs.head?, span ≤ r.clock - start

/-- The lowest rate of a series. -/
def Lowest (m : ℚ) (rs : List Reading) : Prop := (∃ r ∈ rs, r.low = m) ∧ ∀ r ∈ rs, m ≤ r.low

/-- Both rates are below a limit. -/
def Below (limit : ℚ) (r : Reading) : Prop := r.rx < limit ∧ r.write < limit

/-- Both rates are enough for a reference. -/
def Strong (r : Reading) : Prop := baseMin ≤ r.rx ∧ baseMin ≤ r.write

theorem below_iff {limit : ℚ} {r : Reading} : Below limit r ↔ r.high < limit := by
  unfold Below Reading.high
  rw [max_lt_iff]

theorem strong_iff {r : Reading} : Strong r ↔ baseMin ≤ r.low := by
  unfold Strong Reading.low
  rw [le_min_iff]

theorem Series.ne_nil {p : Reading → Prop} {start : ℚ} {rs : List Reading}
    (h : Series p start rs) : rs ≠ [] := by
  rintro rfl
  cases h.first

theorem Series.one {p : Reading → Prop} {r : Reading} (hr : p r) : Series p r.clock [r] :=
  ⟨List.IsChain.singleton r, fun q hq => by rwa [List.mem_singleton.mp hq], rfl⟩

theorem Series.more {p : Reading → Prop} {start : ℚ} {r : Reading} {rs : List Reading}
    (h : Series p start rs) (hr : p r) (hnext : ∀ q ∈ rs.head?, Next r q) :
    Series p start (r :: rs) := by
  obtain ⟨q, qs, rfl⟩ := List.exists_cons_of_ne_nil h.ne_nil
  refine ⟨List.isChain_cons_cons.mpr ⟨hnext q rfl, h.chain⟩,
    List.forall_mem_cons.mpr ⟨hr, h.each⟩, ?_⟩
  rw [List.getLast?_cons_cons]
  exact h.first

theorem truthy_some {o : Option ℚ} {t : ℚ} (h : truthy o = some t) : o = some t := by
  cases o with
  | none => cases h
  | some s =>
    by_cases hs : s = 0
    · rw [truthy, if_pos hs] at h
      cases h
    · rwa [truthy, if_neg hs] at h

/-- What is kept of a series is its start: a series of the newest readings began there. -/
def Since (p : Reading → Prop) (rs : List Reading) (o : Option ℚ) : Prop :=
  ∀ t ∈ o, ∃ run before, rs = run ++ before ∧ Series p t run

theorem series_some {start : Option ℚ} {contiguous on : Bool} {clock t : ℚ}
    (h : series start contiguous on clock = some t) (hpos : ∀ t ∈ start, 0 < t) :
    on = true ∧ (t = clock ∨ contiguous = true ∧ start = some t) := by
  cases on with
  | false => cases h
  | true =>
    refine ⟨rfl, ?_⟩
    obtain rfl : (truthy (if contiguous then start else none)).getD clock = t :=
      Option.some.inj h
    cases contiguous with
    | false => exact .inl rfl
    | true =>
      cases start with
      | none => exact .inl rfl
      | some s =>
        have hs : truthy (some s) = some s := if_neg (hpos s rfl).ne'
        exact .inr ⟨rfl, by rw [if_pos rfl, hs, Option.getD_some]⟩

/-- One more reading keeps what is kept of a series. -/
theorem Since.step {p : Reading → Prop} {rs : List Reading} {start : Option ℚ}
    {contiguous on : Bool} {r : Reading} (h : Since p rs start) (hpos : ∀ t ∈ start, 0 < t)
    (hnext : contiguous = true → ∀ q ∈ rs.head?, Next r q) (hon : on = true → p r) :
    Since p (r :: rs) (series start contiguous on r.clock) := by
  intro t ht
  obtain ⟨hon', htime⟩ := series_some ht hpos
  rcases htime with rfl | ⟨hc, hstart⟩
  · exact ⟨[r], rs, rfl, .one (hon hon')⟩
  · obtain ⟨run, before, hsplit, hrun⟩ := h t hstart
    refine ⟨r :: run, before, by rw [hsplit]; rfl, hrun.more (hon hon') fun q hq => ?_⟩
    refine hnext hc q ?_
    rw [hsplit, List.head?_append_of_ne_nil _ hrun.ne_nil]
    exact hq

/-- A series that has lasted so long. -/
theorem Since.lasts {p : Reading → Prop} {rs : List Reading} {o : Option ℚ} {clock span : ℚ}
    (h : Since p rs o) (hlasts : lasts o clock span = true)
    (hclock : ∃ r ∈ rs.head?, r.clock = clock) :
    ∃ run before, rs = run ++ before ∧ Lasting p span run := by
  unfold BackupTransfer.lasts at hlasts
  obtain ⟨t, ht, hspan⟩ := (Option.any_eq_true _ _).mp hlasts
  have ho := truthy_some ht
  obtain ⟨run, before, hsplit, hrun⟩ := h t ho
  refine ⟨run, before, hsplit, t, hrun, ?_⟩
  obtain ⟨r, hr, rfl⟩ := hclock
  rw [hsplit, List.head?_append_of_ne_nil _ hrun.ne_nil] at hr
  exact ⟨r, hr, by simpa using hspan⟩

/-! ## What stands behind a record -/

/-- A series that proves the reference, with what came before it and after it. -/
structure Proven (m : ℚ) (past rest base before : List Reading) : Prop where
  split : past = rest ++ (base ++ before)
  lasting : Lasting Strong baseSeconds base
  lowest : Lowest m base
  strong : baseMin ≤ m

/-- Behind the reference both rates were below a quarter of it for so long, and neither has
reached a half since. -/
def Slowed (m : ℚ) (rest : List Reading) : Prop :=
  ∃ later run mid, rest = later ++ (run ++ mid) ∧ Lasting (Below (m / 4)) slowSeconds run ∧
    ∀ r ∈ later, Below (m / 2) r

/-- Both rates were near zero for so long. -/
def Stalled (past : List Reading) : Prop :=
  ∃ later run before, past = later ++ (run ++ before) ∧ Lasting (Below (mib / 8)) stallSeconds run

/-- The readings of the workload, the newest first, and the record of it. -/
structure Tracked (past : List Reading) (s : Sample) : Prop where
  head : ∃ r ∈ past.head?, r.clock = s.clock
  same : ∀ r ∈ past, r.work = s.work
  slow_time : ∀ t ∈ s.slowAt, 0 < t ∧ t ≤ s.clock
  stall_time : ∀ t ∈ s.stallAt, 0 < t ∧ t ≤ s.clock
  stall_since : Since (Below (mib / 8)) past s.stallAt
  stalled : s.problem = some .stalled → Stalled past
  growing : s.ready = false → (∃ base before, past = base ++ before ∧
    Series (fun _ => True) s.baseAt base ∧ Lowest s.base base) ∧
    s.slowAt = none ∧ s.problem ≠ some .slow
  proven : s.ready = true → ∃ rest base before, Proven s.base past rest base before ∧
    Since (Below (s.base / 4)) rest s.slowAt ∧ (s.problem = some .slow → Slowed s.base rest)
  both : s.ready = true → ∀ t ∈ s.stallAt, ∃ t' ∈ s.slowAt, t' ≤ t
  quiet : s.problem = none → s.problemSince = none
  told : s.problem ≠ none → s.rate ≠ none ∧ ∃ t ∈ s.problemSince, 0 < t ∧ t < lastSecond

/-- What is there before a reading is taken: the record of its workload, or nothing. -/
def Before (past : List Reading) (r : Reading) : Option Sample → Prop
  | none => past = []
  | some s => Tracked past s ∧ s.work = r.work

section
variable {past : List Reading} {o : Option Sample} {c : Bool} {r : Reading}

theorem Before.slow_time (h : Before past r o) : ∀ t ∈ o.bind Sample.slowAt, 0 < t := by
  cases o with
  | none => exact fun t ht => by cases ht
  | some s => exact fun t ht => (h.1.slow_time t ht).1

theorem Before.stall_time (h : Before past r o) : ∀ t ∈ o.bind Sample.stallAt, 0 < t := by
  cases o with
  | none => exact fun t ht => by cases ht
  | some s => exact fun t ht => (h.1.stall_time t ht).1

/-! ### The reference -/

theorem reference_ready {s : Sample} (h : s.ready = true) :
    reference (some s) c r = ⟨s.base, s.baseAt, true⟩ := if_pos h

/-- A reference that is not there yet begins at the reading, or goes on with it. -/
theorem reference_growing {s : Sample} (h : s.ready = false) :
    reference (some s) c r = ⟨r.low, r.clock, false⟩ ∨
      (c = true ∧ baseMin ≤ s.base ∧ baseMin ≤ r.low ∧
        reference (some s) c r =
          ⟨min s.base r.low, s.baseAt, baseSeconds ≤ r.clock - s.baseAt⟩) := by
  have hready : ¬ s.ready = true := by rw [h]; exact Bool.false_ne_true
  by_cases hnew : c = false ∨ s.base < baseMin ∨ r.low < max baseMin (s.base / 2)
  · left
    simp only [reference, if_neg hready, if_pos hnew]
  · right
    obtain ⟨hc, hrest⟩ := not_or.mp hnew
    obtain ⟨hbase, hlow⟩ := not_or.mp hrest
    refine ⟨by simpa using hc, not_lt.mp hbase, (le_max_left _ _).trans (not_lt.mp hlow), ?_⟩
    simp only [reference, if_neg hready, if_neg hnew]

theorem lowest_one (r : Reading) : Lowest r.low [r] :=
  ⟨⟨r, List.mem_cons_self, rfl⟩, fun q hq => by rw [List.mem_singleton.mp hq]⟩

theorem lowest_more {m : ℚ} {rs : List Reading} (h : Lowest m rs) (r : Reading) :
    Lowest (min m r.low) (r :: rs) := by
  obtain ⟨⟨q, hq, hm⟩, hleast⟩ := h
  refine ⟨?_, ?_⟩
  · rcases le_total m r.low with hle | hle
    · exact ⟨q, List.mem_cons_of_mem _ hq, by rw [hm, min_eq_left hle]⟩
    · exact ⟨r, List.mem_cons_self, by rw [min_eq_right hle]⟩
  · refine List.forall_mem_cons.mpr ⟨min_le_right _ _, fun q hq => ?_⟩
    exact (min_le_left _ _).trans (hleast q hq)

/-- How the reference comes out of a reading: it still grows, it is proven just now, or it was
there before. -/
inductive RefEnd (past : List Reading) (o : Option Sample) (r : Reading) (f : Ref) : Prop
  | growing (base before : List Reading) : f.ready = false → (∀ s ∈ o, s.ready = false) →
      r :: past = base ++ before → Series (fun _ => True) f.baseAt base → Lowest f.base base →
      RefEnd past o r f
  | proven (base before : List Reading) : f.ready = true → f.base ≤ r.low →
      Proven f.base (r :: past) [] base before → RefEnd past o r f
  | there (s : Sample) : o = some s → s.ready = true → f.ready = true → f.base = s.base →
      RefEnd past o r f

theorem reference_end (h : Before past r o) (hnext : c = true → ∀ q ∈ past.head?, Next r q) :
    RefEnd past o r (reference o c r) := by
  have hbegin : ∀ o : Option Sample, (∀ s ∈ o, s.ready = false) →
      RefEnd past o r ⟨r.low, r.clock, false⟩ := fun o ho =>
    .growing [r] past rfl ho rfl (.one trivial) (lowest_one r)
  cases o with
  | none => exact hbegin none fun s hs => by cases hs
  | some s =>
    cases hready : s.ready with
    | true =>
      rw [reference_ready hready]
      exact .there s rfl hready rfl rfl
    | false =>
      have hgrow : ∀ p ∈ some s, p.ready = false := fun p hp => by
        rwa [← Option.mem_some.mp hp]
      obtain ⟨⟨base, before, hsplit, hseries, hlow⟩, -⟩ := h.1.growing hready
      rcases reference_growing (c := c) (r := r) hready with href | ⟨hc, hbase, hr, href⟩
      · rw [href]
        exact hbegin _ hgrow
      · have hhead : ∀ q ∈ base.head?, Next r q := fun q hq => hnext hc q (by
          rwa [hsplit, List.head?_append_of_ne_nil _ hseries.ne_nil])
        have hmore : Series (fun _ => True) s.baseAt (r :: base) := hseries.more trivial hhead
        have hcons : r :: past = (r :: base) ++ before := by rw [hsplit]; rfl
        rw [href]
        by_cases hlong : baseSeconds ≤ r.clock - s.baseAt
        · refine .proven (r :: base) before (decide_eq_true hlong) (min_le_right _ _) ?_
          refine ⟨hcons, ⟨s.baseAt, ⟨hmore.chain, ?_, hmore.first⟩, r, rfl, hlong⟩,
            lowest_more hlow r, le_min hbase hr⟩
          refine List.forall_mem_cons.mpr ⟨strong_iff.mpr hr, fun q hq => ?_⟩
          exact strong_iff.mpr (hbase.trans (hlow.2 q hq))
        · exact .growing (r :: base) before (decide_eq_false hlong) hgrow hcons hmore
            (lowest_more hlow r)

/-! ### The verdict -/

theorem verdict_end (f : Ref) (r : Reading) (slowAt stallAt : Option ℚ) (old : Option Trouble) :
    verdict f r slowAt stallAt old = some .stalled ∧ lasts stallAt r.clock stallSeconds = true ∨
    verdict f r slowAt stallAt old = some .slow ∧ lasts slowAt r.clock slowSeconds = true ∨
    verdict f r slowAt stallAt old = none ∧ f.well r = true ∨
    verdict f r slowAt stallAt old = old ∧ f.well r = false := by
  unfold verdict
  by_cases hstall : lasts stallAt r.clock stallSeconds = true
  · exact .inl ⟨by rw [if_pos hstall], hstall⟩
  · rw [if_neg hstall]
    by_cases hslow : (lasts slowAt r.clock slowSeconds && !f.stalled r) = true
    · exact .inr (.inl ⟨by rw [if_pos hslow], (Bool.and_eq_true_iff.mp hslow).1⟩)
    · rw [if_neg hslow]
      by_cases hwell : f.well r = true
      · exact .inr (.inr (.inl ⟨by rw [if_pos hwell], hwell⟩))
      · exact .inr (.inr (.inr ⟨by rw [if_neg hwell], Bool.eq_false_iff.mpr hwell⟩))

/-! ### A reading that is taken -/

theorem ready_slow {f : Ref} (h : (f.slow r) = true) : f.ready = true ∧ Below (f.base / 4) r := by
  obtain ⟨hready, hhigh⟩ := Bool.and_eq_true_iff.mp h
  exact ⟨hready, below_iff.mpr (of_decide_eq_true hhigh)⟩

theorem stalled_below {f : Ref} (h : (f.stalled r) = true) : Below (mib / 8) r :=
  below_iff.mpr (of_decide_eq_true (Bool.and_eq_true_iff.mp h).2)

/-- Near zero is below a quarter of every reference. -/
theorem slow_of_stalled {f : Ref} (hready : f.ready = true) (hbase : baseMin ≤ f.base)
    (h : (f.stalled r) = true) : (f.slow r) = true := by
  have hhigh := below_iff.mp (stalled_below h)
  have hquarter : mib / 8 ≤ f.base / 4 := by
    unfold baseMin mib at *
    linarith
  unfold Ref.slow
  rw [hready, Bool.true_and]
  exact decide_eq_true (lt_of_lt_of_le hhigh hquarter)

/-- A reading that reaches the reference is not slow. -/
theorem not_slow {f : Ref} (hbase : baseMin ≤ f.base) (h : f.base ≤ r.low) :
    f.slow r = false := by
  have hhigh : r.low ≤ r.high := (min_le_left _ _).trans (le_max_left _ _)
  have hno : ¬ r.high < f.base / 4 := by
    unfold baseMin mib at hbase
    linarith
  unfold Ref.slow
  rw [decide_eq_false hno, Bool.and_false]

theorem well_below {f : Ref} (hready : f.ready = true) (h : f.well r = false) :
    Below (f.base / 2) r := by
  unfold Ref.well at h
  rw [if_pos hready] at h
  exact below_iff.mpr (not_le.mp (of_decide_eq_false h))

/-- The start of a series that goes on lies before the reading. -/
theorem series_time {start : Option ℚ} {on : Bool} {clock : ℚ} (hclock : 0 < clock)
    (hstart : ∀ t ∈ start, 0 < t ∧ (c = true → t ≤ clock)) :
    ∀ t ∈ series start c on clock, 0 < t ∧ t ≤ clock := by
  intro t ht
  rcases (series_some ht fun t ht => (hstart t ht).1).2 with rfl | ⟨hc, ho⟩
  · exact ⟨hclock, le_refl _⟩
  · exact ⟨(hstart t ho).1, (hstart t ho).2 hc⟩

/-- The clock of the record before, when the series goes on. -/
theorem Before.clock (h : Before past r o) (hnext : c = true → ∀ q ∈ past.head?, Next r q)
    {s : Sample} (hs : o = some s) (hc : c = true) : s.clock ≤ r.clock := by
  subst hs
  obtain ⟨q, hq, hclock⟩ := h.1.head
  have hgap := (hnext hc q hq).1
  rw [← hclock]
  linarith

theorem take_slow_time (h : Before past r o) (hnext : c = true → ∀ q ∈ past.head?, Next r q)
    (hpos : 0 < r.clock) : ∀ t ∈ (take o c r).slowAt, 0 < t ∧ t ≤ r.clock := by
  refine series_time hpos fun t ht => ?_
  obtain ⟨s, hs, hslow⟩ := Option.bind_eq_some_iff.mp ht
  refine ⟨h.slow_time t ht, fun hc => ?_⟩
  have hclock := h.clock hnext hs hc
  subst hs
  exact (h.1.slow_time t hslow).2.trans hclock

theorem take_stall_time (h : Before past r o) (hnext : c = true → ∀ q ∈ past.head?, Next r q)
    (hpos : 0 < r.clock) : ∀ t ∈ (take o c r).stallAt, 0 < t ∧ t ≤ r.clock := by
  refine series_time hpos fun t ht => ?_
  obtain ⟨s, hs, hstall⟩ := Option.bind_eq_some_iff.mp ht
  refine ⟨h.stall_time t ht, fun hc => ?_⟩
  have hclock := h.clock hnext hs hc
  subst hs
  exact (h.1.stall_time t hstall).2.trans hclock

theorem take_stall_since (h : Before past r o)
    (hnext : c = true → ∀ q ∈ past.head?, Next r q) :
    Since (Below (mib / 8)) (r :: past) (take o c r).stallAt := by
  refine Since.step ?_ h.stall_time hnext stalled_below
  intro t ht
  obtain ⟨s, rfl, hstall⟩ := Option.bind_eq_some_iff.mp ht
  exact h.1.stall_since t hstall

/-- The verdict on the reading that is taken. -/
theorem take_end (o : Option Sample) (c : Bool) (r : Reading) :
    (take o c r).problem = some .stalled ∧
      lasts (take o c r).stallAt r.clock stallSeconds = true ∨
    (take o c r).problem = some .slow ∧
      lasts (take o c r).slowAt r.clock slowSeconds = true ∨
    (take o c r).problem = none ∧ (reference o c r).well r = true ∨
    (take o c r).problem = o.bind Sample.problem ∧ (reference o c r).well r = false :=
  verdict_end _ _ _ _ _

theorem take_stalled (h : Before past r o) (hnext : c = true → ∀ q ∈ past.head?, Next r q)
    (hp : (take o c r).problem = some .stalled) : Stalled (r :: past) := by
  rcases take_end o c r with ⟨-, hlasts⟩ | ⟨hslow, -⟩ | ⟨hnone, -⟩ | ⟨hold, -⟩
  · obtain ⟨run, before, hsplit, hlong⟩ :=
      (take_stall_since h hnext).lasts hlasts ⟨r, rfl, rfl⟩
    exact ⟨[], run, before, hsplit, hlong⟩
  · rw [hp] at hslow
    cases hslow
  · rw [hp] at hnone
    cases hnone
  · rw [hp] at hold
    obtain ⟨s, rfl, hs⟩ := Option.bind_eq_some_iff.mp hold.symm
    obtain ⟨later, run, before, hsplit, hlong⟩ := h.1.stalled hs
    exact ⟨r :: later, run, before, by rw [hsplit]; rfl, hlong⟩

/-- Without a slow series nothing new is told to be slow. -/
theorem take_no_slow (hseries : (take o c r).slowAt = none)
    (hold : (reference o c r).well r = false → o.bind Sample.problem ≠ some .slow) :
    (take o c r).problem ≠ some .slow := by
  intro hp
  rcases take_end o c r with ⟨hstalled, -⟩ | ⟨-, hlasts⟩ | ⟨hnone, -⟩ | ⟨heq, hwell⟩
  · rw [hp] at hstalled
    cases hstalled
  · rw [hseries] at hlasts
    cases hlasts
  · rw [hp] at hnone
    cases hnone
  · rw [hp] at heq
    exact hold hwell heq.symm

theorem take_no_series (h : (reference o c r).slow r = false) : (take o c r).slowAt = none := by
  show series _ c ((reference o c r).slow r) r.clock = none
  rw [h]
  rfl

theorem take_growing (h : Before past r o) (hnext : c = true → ∀ q ∈ past.head?, Next r q)
    (hready : (take o c r).ready = false) :
    (∃ base before, r :: past = base ++ before ∧
      Series (fun _ => True) (take o c r).baseAt base ∧ Lowest (take o c r).base base) ∧
    (take o c r).slowAt = none ∧ (take o c r).problem ≠ some .slow := by
  have hready' : (reference o c r).ready = false := hready
  have hslow : (reference o c r).slow r = false := by
    unfold Ref.slow
    rw [hready', Bool.false_and]
  have hnone := take_no_series hslow
  cases reference_end h hnext with
  | growing base before _ hold hsplit hseries hlow =>
    refine ⟨⟨base, before, hsplit, hseries, hlow⟩, hnone, take_no_slow hnone fun _ hslow => ?_⟩
    obtain ⟨s, rfl, hs⟩ := Option.bind_eq_some_iff.mp hslow
    exact (h.1.growing (hold s rfl)).2.2 hs
  | proven _ _ htrue _ _ =>
    rw [hready'] at htrue
    cases htrue
  | there _ _ _ htrue _ =>
    rw [hready'] at htrue
    cases htrue

theorem take_proven (h : Before past r o) (hnext : c = true → ∀ q ∈ past.head?, Next r q)
    (hready : (take o c r).ready = true) :
    ∃ rest base before, Proven (take o c r).base (r :: past) rest base before ∧
      Since (Below ((take o c r).base / 4)) rest (take o c r).slowAt ∧
      ((take o c r).problem = some .slow → Slowed (take o c r).base rest) := by
  have hready' : (reference o c r).ready = true := hready
  cases reference_end h hnext with
  | growing _ _ hfalse _ _ _ _ =>
    rw [hready'] at hfalse
    cases hfalse
  | proven base before _ hlow hproven =>
    have hnone := take_no_series (not_slow hproven.strong hlow)
    refine ⟨[], base, before, hproven, ?_, fun hp => ?_⟩
    · intro t ht
      rw [hnone] at ht
      cases ht
    · refine absurd hp (take_no_slow hnone fun hwell => ?_)
      -- a reading that reaches the reference ends every problem
      have hbelow := below_iff.mp (well_below hready' hwell)
      have hhigh : r.low ≤ r.high := (min_le_left _ _).trans (le_max_left _ _)
      have hbase := hproven.strong
      unfold baseMin mib at hbase
      linarith
  | there s hs hold _ hbase =>
    subst hs
    obtain ⟨rest, base, before, hproven, hsince, hslowed⟩ := h.1.proven hold
    have htake : (take (some s) c r).base = s.base := hbase
    have hnext' : c = true → ∀ q ∈ rest.head?, Next r q := by
      intro hc q hq
      refine hnext hc q ?_
      rw [hproven.split]
      cases rest with
      | nil => cases hq
      | cons a rest => exact hq
    have hsince' : Since (Below (s.base / 4)) (r :: rest) (take (some s) c r).slowAt := by
      refine Since.step hsince h.slow_time hnext' fun hon => ?_
      have hbelow := (ready_slow hon).2
      rwa [hbase] at hbelow
    rw [htake]
    refine ⟨r :: rest, base, before, ⟨by rw [hproven.split]; rfl, hproven.lasting,
      hproven.lowest, hproven.strong⟩, hsince', fun hp => ?_⟩
    rcases take_end (some s) c r with ⟨hstalled, -⟩ | ⟨-, hlasts⟩ | ⟨hnone, -⟩ | ⟨heq, hwell⟩
    · rw [hp] at hstalled
      cases hstalled
    · obtain ⟨run, mid, hsplit, hlong⟩ := hsince'.lasts hlasts ⟨r, rfl, rfl⟩
      exact ⟨[], run, mid, hsplit, hlong, fun q hq => by cases hq⟩
    · rw [hp] at hnone
      cases hnone
    · rw [hp] at heq
      obtain ⟨later, run, mid, hsplit, hlong, hlater⟩ := hslowed heq.symm
      have hbelow := well_below hready' hwell
      rw [hbase] at hbelow
      exact ⟨r :: later, run, mid, by rw [hsplit]; rfl, hlong,
        List.forall_mem_cons.mpr ⟨hbelow, hlater⟩⟩

theorem take_both (h : Before past r o) (hnext : c = true → ∀ q ∈ past.head?, Next r q)
    (hpos : 0 < r.clock) (hready : (take o c r).ready = true) :
    ∀ t ∈ (take o c r).stallAt, ∃ t' ∈ (take o c r).slowAt, t' ≤ t := by
  have hready' : (reference o c r).ready = true := hready
  have hbase : baseMin ≤ (reference o c r).base := by
    obtain ⟨_, _, _, hproven, -⟩ := take_proven h hnext hready
    exact hproven.strong
  intro t ht
  obtain ⟨hon, htime⟩ := series_some ht h.stall_time
  have hslow := slow_of_stalled hready' hbase hon
  have hat : (take o c r).slowAt =
      some ((truthy (if c then o.bind Sample.slowAt else none)).getD r.clock) := by
    show series _ c ((reference o c r).slow r) r.clock = _
    rw [hslow]
    rfl
  refine ⟨_, hat, ?_⟩
  rcases htime with rfl | ⟨hc, hstall⟩
  · exact (take_slow_time h hnext hpos _ hat).2
  · obtain ⟨s, rfl, hs⟩ := Option.bind_eq_some_iff.mp hstall
    have hold : s.ready = true := by
      cases reference_end h hnext with
      | growing _ _ hfalse _ _ _ _ =>
        rw [hready'] at hfalse
        cases hfalse
      | proven _ _ _ hlow hproven =>
        rw [not_slow hproven.strong hlow] at hslow
        cases hslow
      | there p hp hold _ _ => rwa [Option.some.inj hp]
    obtain ⟨t', ht', hle⟩ := h.1.both hold t hs
    have htruthy : truthy (some t') = some t' := if_neg (h.1.slow_time t' ht').1.ne'
    have hbind : (some s).bind Sample.slowAt = some t' := ht'
    rw [if_pos hc, hbind, htruthy]
    exact hle

/-- A problem is told since a time of its own. -/
theorem take_since (hp : (take o c r).problem ≠ none) :
    (take o c r).rate = some r.high ∧ (take o c r).problemSince =
      ((truthy (o.bind Sample.problemSince)).or (truthy (take o c r).slowAt)).or
        (take o c r).stallAt := by
  have hsome : (take o c r).problem.isSome = true := Option.isSome_iff_ne_none.mpr hp
  exact ⟨if_pos hsome, if_pos hsome⟩

theorem lasts_some {start : Option ℚ} {clock span : ℚ} (h : lasts start clock span = true) :
    ∃ t, start = some t ∧ truthy start = some t ∧ span ≤ clock - t := by
  obtain ⟨t, ht, hspan⟩ := (Option.any_eq_true _ _).mp h
  exact ⟨t, truthy_some ht, ht, of_decide_eq_true hspan⟩

/-- The series of a new problem began long before the reading. -/
theorem take_new_since (h : Before past r o) (hnext : c = true → ∀ q ∈ past.head?, Next r q)
    (hpos : 0 < r.clock) (hquiet : o.bind Sample.problem = none)
    (hp : (take o c r).problem ≠ none) :
    ∃ t, (truthy (take o c r).slowAt).or (take o c r).stallAt = some t ∧ 0 < t ∧
      slowSeconds ≤ r.clock - t := by
  have hslow_time := take_slow_time h hnext hpos
  rcases take_end o c r with ⟨-, hlasts⟩ | ⟨-, hlasts⟩ | ⟨hnone, -⟩ | ⟨heq, -⟩
  · obtain ⟨t, hstall, -, hspan⟩ := lasts_some hlasts
    have hlong : slowSeconds ≤ r.clock - t := by
      unfold slowSeconds
      unfold stallSeconds at hspan
      linarith
    cases hready : (take o c r).ready with
    | false =>
      rw [(take_growing h hnext hready).2.1, hstall]
      exact ⟨t, rfl, (take_stall_time h hnext hpos t hstall).1, hlong⟩
    | true =>
      obtain ⟨t', ht', hle⟩ := take_both h hnext hpos hready t hstall
      have htruthy : truthy (some t') = some t' := if_neg (hslow_time t' ht').1.ne'
      rw [show (take o c r).slowAt = some t' from ht', htruthy]
      exact ⟨t', rfl, (hslow_time t' ht').1, by linarith⟩
  · obtain ⟨t, hslow, htruthy, hspan⟩ := lasts_some hlasts
    rw [htruthy]
    exact ⟨t, rfl, (hslow_time t hslow).1, hspan⟩
  · exact absurd hnone hp
  · rw [hquiet] at heq
    exact absurd heq hp

theorem take_told (h : Before past r o) (hnext : c = true → ∀ q ∈ past.head?, Next r q)
    (hpos : 0 < r.clock) (hnow : r.clock < lastSecond + maxGap)
    (hp : (take o c r).problem ≠ none) :
    (take o c r).rate ≠ none ∧ ∃ t ∈ (take o c r).problemSince, 0 < t ∧ t < lastSecond := by
  obtain ⟨hrate, hsince⟩ := take_since hp
  refine ⟨by rw [hrate]; exact Option.some_ne_none _, ?_⟩
  rw [hsince]
  by_cases hquiet : o.bind Sample.problem = none
  · have hnone : o.bind Sample.problemSince = none := by
      cases o with
      | none => rfl
      | some s => exact h.1.quiet hquiet
    obtain ⟨t, ht, htpos, hlong⟩ := take_new_since h hnext hpos hquiet hp
    refine ⟨t, by rw [hnone]; exact ht, htpos, ?_⟩
    unfold maxGap at hnow
    unfold slowSeconds at hlong
    linarith
  · cases o with
    | none => exact absurd rfl hquiet
    | some s =>
      obtain ⟨-, t, ht, htpos, hlt⟩ := h.1.told hquiet
      have htruthy : truthy (some t) = some t := if_neg htpos.ne'
      have hbind : (some s).bind Sample.problemSince = some t := ht
      exact ⟨t, by rw [hbind, htruthy]; rfl, htpos, hlt⟩

theorem take_quiet (h : Before past r o) (hp : (take o c r).problem = none) :
    (take o c r).problemSince = none := by
  have hsince : (take o c r).problemSince =
      if (reference o c r).well r then none else o.bind Sample.problemSince := by
    have hno : ¬ (take o c r).problem.isSome = true := by rw [hp]; exact Bool.false_ne_true
    exact if_neg hno
  rw [hsince]
  rcases take_end o c r with ⟨hstalled, -⟩ | ⟨hslow, -⟩ | ⟨-, hwell⟩ | ⟨heq, hwell⟩
  · rw [hp] at hstalled
    cases hstalled
  · rw [hp] at hslow
    cases hslow
  · rw [hwell, if_pos rfl]
  · rw [hwell, if_neg Bool.false_ne_true]
    cases o with
    | none => rfl
    | some s => exact h.1.quiet (heq.symm.trans hp)

/-- A reading that is taken keeps everything that stands behind the record. -/
theorem take_tracked (h : Before past r o) (hnext : c = true → ∀ q ∈ past.head?, Next r q)
    (hpos : 0 < r.clock) (hnow : r.clock < lastSecond + maxGap) :
    Tracked (r :: past) (take o c r) where
  head := ⟨r, rfl, rfl⟩
  same := by
    refine List.forall_mem_cons.mpr ⟨rfl, fun q hq => ?_⟩
    cases o with
    | none =>
      rw [show past = [] from h] at hq
      cases hq
    | some s => exact (h.1.same q hq).trans h.2
  slow_time := take_slow_time h hnext hpos
  stall_time := take_stall_time h hnext hpos
  stall_since := take_stall_since h hnext
  stalled := take_stalled h hnext
  growing := take_growing h hnext
  proven := take_proven h hnext
  both := take_both h hnext hpos
  quiet := take_quiet h
  told := take_told h hnext hpos hnow

end

/-! ## Runs -/

section
variable (digest : List (Text × ℚ) → Text)

/-- The readings of the workload that is followed, the newest first: an idle report ends them,
another workload begins them anew, and a report that is not newer counts only after a restart. -/
def follow (past : List Reading) (o : Obs) : List Reading :=
  match rates o with
  | none => past
  | some (clock, rx, write) =>
    match workload digest o.rep clock (past.head?.map Reading.work) with
    | none => past
    | some [] => []
    | some work =>
      if past.head?.map Reading.work ≠ some work then [⟨work, clock, rx, write, o.restart⟩]
      else if (past.head?.any fun q => clock ≤ q.clock) ∧ o.restart = false then past
      else ⟨work, clock, rx, write, o.restart⟩ :: past

/-- The readings and the record after so many reports. -/
def trail (run : List Obs) : List Reading := run.foldl (follow digest) []
def record (run : List Obs) : Option Sample :=
  run.foldl (fun previous o => (observe digest o previous).1) none

/-- The record of a trail. -/
def Records (past : List Reading) : Option Sample → Prop
  | none => past = []
  | some s => Tracked past s

theorem rates_some {o : Obs} {clock rx write : ℚ} (h : rates o = some (clock, rx, write)) :
    0 < clock ∧ clock < lastSecond + maxGap := by
  unfold rates at h
  cases hclock : number o.rep.clockUnix with
  | none => simp [hclock] at h
  | some q =>
    cases hrx : number o.rep.netRx with
    | none => simp [hclock, hrx] at h
    | some x =>
      cases hwrite : number o.rep.diskWrite with
      | none => simp [hclock, hrx, hwrite] at h
      | some y =>
        simp only [hclock, hrx, hwrite, Option.ite_none_left_eq_some, not_or, not_lt,
          Option.some.injEq, Prod.mk.injEq] at h
        obtain ⟨⟨hzero, hle⟩, rfl, -⟩ := h
        obtain ⟨-, hnum⟩ := Option.filter_eq_some_iff.mp hclock
        have hnonneg : 0 ≤ q := (of_decide_eq_true hnum).1
        exact ⟨lt_of_le_of_ne hnonneg (Ne.symm hzero), lt_of_le_of_lt hle (by linarith [o.now_lt])⟩

theorem records_head {past : List Reading} {previous : Option Sample} (h : Records past previous) :
    past.head?.map Reading.work = previous.map Sample.work := by
  cases previous with
  | none =>
    rw [show past = [] from h]
    rfl
  | some s =>
    obtain ⟨q, hq, -⟩ := (show Tracked past s from h).head
    have hwork := (show Tracked past s from h).same q (List.mem_of_mem_head? hq)
    rw [show past.head? = some q from hq, Option.map_some, Option.map_some, hwork]

/-- `observe` on a workload that it follows. -/
theorem observe_same {o : Obs} {s : Sample} {clock rx write : ℚ}
    (hrates : rates o = some (clock, rx, write))
    (hwork : workload digest o.rep clock (some s.work) = some s.work) (hne : s.work ≠ []) :
    (observe digest o (some s)).1 =
      if clock - s.clock ≤ 0 ∧ o.restart = false then some s
      else some (take (some s)
        (0 < clock - s.clock ∧ clock - s.clock ≤ maxGap ∧ o.restart = false)
        ⟨s.work, clock, rx, write, o.restart⟩) := by
  obtain ⟨c, cs, hcons⟩ := List.exists_cons_of_ne_nil hne
  have hsame : (some s).filter (fun p => decide (p.work = c :: cs)) = some s := by
    rw [Option.filter_some, if_pos (decide_eq_true hcons)]
  unfold observe
  simp only [hrates, Option.map_some, hwork]
  simp only [hcons, hsame, Option.map_some, Option.getD_some]
  split <;> rfl

/-- `observe` on a workload that it does not follow yet. -/
theorem observe_new {o : Obs} {previous : Option Sample} {clock rx write : ℚ} {work : Text}
    (hrates : rates o = some (clock, rx, write))
    (hwork : workload digest o.rep clock (previous.map Sample.work) = some work)
    (hne : work ≠ []) (hother : ∀ s ∈ previous, s.work ≠ work) :
    ∃ c, (observe digest o previous).1 = some (take none c ⟨work, clock, rx, write, o.restart⟩) := by
  obtain ⟨d, ds, rfl⟩ := List.exists_cons_of_ne_nil hne
  have hsame : previous.filter (fun p => decide (p.work = d :: ds)) = none := by
    rw [Option.filter_eq_none_iff]
    exact fun s hs => by simpa using hother s hs
  have hgap : ¬ (clock - 0 ≤ 0 ∧ o.restart = false) := by
    have hpos := (rates_some hrates).1
    rintro ⟨hle, -⟩
    linarith
  unfold observe
  simp only [hrates, hwork, hsame, Option.map_none, Option.getD_none, if_neg hgap]
  exact ⟨_, rfl⟩

/-- A report moves the record and the readings that stand behind it together. -/
theorem records_step {past : List Reading} {previous : Option Sample}
    (h : Records past previous) (o : Obs) :
    Records (follow digest past o) (observe digest o previous).1 := by
  have hhead := records_head h
  cases hrates : rates o with
  | none =>
    have hfollow : follow digest past o = past := by simp only [follow, hrates]
    have hobserve : observe digest o previous = (previous, false) := by simp only [observe, hrates]
    rw [hfollow, hobserve]
    exact h
  | some p =>
    obtain ⟨clock, rx, write⟩ := p
    obtain ⟨hpos, hnow⟩ := rates_some hrates
    cases hwork : workload digest o.rep clock (previous.map Sample.work) with
    | none =>
      have hfollow : follow digest past o = past := by simp only [follow, hrates, hhead, hwork]
      have hobserve : observe digest o previous = (previous, false) := by
        simp only [observe, hrates, hwork]
      rw [hfollow, hobserve]
      exact h
    | some work =>
      by_cases hne : work = []
      · subst hne
        have hfollow : follow digest past o = [] := by simp only [follow, hrates, hhead, hwork]
        have hobserve : observe digest o previous = (none, true) := by
          simp only [observe, hrates, hwork]
        rw [hfollow, hobserve]
        exact rfl
      · obtain ⟨d, ds, hcons⟩ := List.exists_cons_of_ne_nil hne
        have hfollow : follow digest past o =
            if previous.map Sample.work ≠ some work then [⟨work, clock, rx, write, o.restart⟩]
            else if (past.head?.any fun q => clock ≤ q.clock) ∧ o.restart = false then past
            else ⟨work, clock, rx, write, o.restart⟩ :: past := by
          subst hcons
          simp only [follow, hrates, hhead, hwork]
        rw [hfollow]
        by_cases hsame : previous.map Sample.work = some work
        · obtain ⟨s, rfl, rfl⟩ := Option.map_eq_some_iff.mp hsame
          have htracked : Tracked past s := h
          obtain ⟨q, hq, hclock⟩ := htracked.head
          have hold : (past.head?.any fun q => clock ≤ q.clock) = true ↔ clock - s.clock ≤ 0 := by
            rw [show past.head? = some q from hq, Option.any_some, decide_eq_true_eq, hclock,
              sub_nonpos]
          have hboth : ((past.head?.any fun q => clock ≤ q.clock) = true ∧ o.restart = false) ↔
              (clock - s.clock ≤ 0 ∧ o.restart = false) := and_congr hold Iff.rfl
          rw [if_neg (not_not.mpr hsame), observe_same digest hrates hwork hne]
          by_cases hskip : clock - s.clock ≤ 0 ∧ o.restart = false
          · rw [if_pos (hboth.mpr hskip), if_pos hskip]
            exact h
          · rw [if_neg (mt hboth.mp hskip), if_neg hskip]
            refine take_tracked ⟨htracked, rfl⟩ (fun hc p hp => ?_) hpos hnow
            obtain ⟨hgap, hle, hrestart⟩ := of_decide_eq_true hc
            obtain rfl := Option.some.inj (hq.symm.trans hp)
            rw [← hclock] at hgap hle
            exact ⟨hgap, hle, hrestart⟩
        · have hother : ∀ s ∈ previous, s.work ≠ work := by
            rintro s hs rfl
            exact hsame (by rw [show previous = some s from hs]; rfl)
          obtain ⟨c, hobserve⟩ := observe_new digest hrates hwork hne hother
          rw [if_pos hsame, hobserve]
          have hnew : Before [] (⟨work, clock, rx, write, o.restart⟩ : Reading) none := rfl
          exact take_tracked hnew (fun _ p hp => by cases hp) hpos hnow

/-- In every run the readings stand behind the record. -/
theorem record_trail (run : List Obs) : Records (trail digest run) (record digest run) := by
  unfold trail record
  suffices hstep : ∀ past previous, Records past previous →
      Records (run.foldl (follow digest) past)
        (run.foldl (fun previous o => (observe digest o previous).1) previous) from
    hstep [] none rfl
  induction run with
  | nil => exact fun _ _ h => h
  | cons o run ih => exact fun past previous h => ih _ _ (records_step digest h o)

end

/-! ## What is told -/

/-- What the watch tells, in every run. A transfer is slow against a proven reference of the same
workload, stalled after a series of readings near zero; telling never raises; and a report that
is not newer changes nothing exactly when it cannot be read, shows no sure work, or shows the
workload that is followed. -/
structure TransferTold : Prop where
  slow : ∀ digest run level rate base since,
    problem (record digest run) = some (level, some (.slowed rate base), since) →
      ∃ m rest series before, Proven m (trail digest run) rest series before ∧ Slowed m rest ∧
        base = m / mib
  stalled : ∀ digest run level since,
    problem (record digest run) = some (level, some .stalled, since) →
      Stalled (trail digest run)
  one : ∀ digest run, ∃ work, ∀ r ∈ trail digest run, r.work = work
  raises : ∀ digest run, problem (record digest run) ≠ none
  old : ∀ digest o s, s.work ≠ [] → o.restart = false →
    (∀ clock rx write, rates o = some (clock, rx, write) → clock ≤ s.clock) →
    ((observe digest o (some s)).1 = some s ↔
      ∀ clock rx write, rates o = some (clock, rx, write) →
        workload digest o.rep clock (some s.work) ∈ [none, some s.work])

theorem problem_cases {s : Sample} (hrate : s.problem ≠ none → s.rate ≠ none)
    (hsince : s.problem ≠ none → ∃ t ∈ s.problemSince, 0 < t ∧ t < lastSecond) :
    s.problem = none ∧ problem (some s) = some (0, none, none) ∨
    s.problem = some .stalled ∧ (∃ t, problem (some s) = some (2, some .stalled, some t)) ∨
    s.problem = some .slow ∧
      ∃ rate t, problem (some s) = some (2, some (.slowed (rate / mib) (s.base / mib)), some t) := by
  cases hp : s.problem with
  | none => exact .inl ⟨rfl, by simp only [problem, hp]⟩
  | some trouble =>
    have hne : s.problem ≠ none := by rw [hp]; exact Option.some_ne_none _
    obtain ⟨t, ht, hpos, hlt⟩ := hsince hne
    obtain ⟨rate, hr⟩ := Option.ne_none_iff_exists'.mp (hrate hne)
    have hyear : s.problemSince.filter (fun t => decide (firstSecond ≤ t ∧ t < lastSecond)) =
        some t := by
      rw [show s.problemSince = some t from ht, Option.filter_some]
      refine if_pos (decide_eq_true ⟨?_, hlt⟩)
      unfold firstSecond
      linarith
    cases trouble with
    | stalled => exact .inr (.inl ⟨rfl, t, by simp only [problem, hp, hyear]; rfl⟩)
    | slow =>
      exact .inr (.inr ⟨rfl, rate, t, by simp only [problem, hp, hyear, hr]; rfl⟩)

/-- What the record of a run says. -/
theorem told_cases (digest : List (Text × ℚ) → Text) (run : List Obs) :
    problem (record digest run) = some (0, none, none) ∨
    (∃ t, problem (record digest run) = some (2, some .stalled, some t) ∧
      Stalled (trail digest run)) ∨
    ∃ m rate t rest series before,
      problem (record digest run) = some (2, some (.slowed rate (m / mib)), some t) ∧
        Proven m (trail digest run) rest series before ∧ Slowed m rest := by
  have hrecords := record_trail digest run
  cases hs : record digest run with
  | none => exact .inl rfl
  | some s =>
    rw [hs] at hrecords
    have htracked : Tracked (trail digest run) s := hrecords
    rcases problem_cases (fun hp => (htracked.told hp).1) (fun hp => (htracked.told hp).2) with
      ⟨-, hp⟩ | ⟨hstalled, t, hp⟩ | ⟨hslow, rate, t, hp⟩
    · exact .inl hp
    · exact .inr (.inl ⟨t, hp, htracked.stalled hstalled⟩)
    · have hready : s.ready = true := by
        cases hready : s.ready with
        | true => rfl
        | false => exact absurd hslow (htracked.growing hready).2.2
      obtain ⟨rest, series, before, hproven, -, hslowed⟩ := htracked.proven hready
      exact .inr (.inr ⟨s.base, rate / mib, t, rest, series, before, hp, hproven,
        hslowed hslow⟩)

/-- A report that is not newer leaves the record when it shows no other work. -/
theorem observe_old (digest : List (Text × ℚ) → Text) {o : Obs} {s : Sample} (hne : s.work ≠ [])
    (hrestart : o.restart = false)
    (hold : ∀ clock rx write, rates o = some (clock, rx, write) → clock ≤ s.clock) :
    (observe digest o (some s)).1 = some s ↔
      ∀ clock rx write, rates o = some (clock, rx, write) →
        workload digest o.rep clock (some s.work) ∈ [none, some s.work] := by
  cases hrates : rates o with
  | none =>
    have hobserve : observe digest o (some s) = (some s, false) := by simp only [observe, hrates]
    rw [hobserve]
    exact ⟨fun _ _ _ _ h => (by cases h), fun _ => rfl⟩
  | some p =>
    obtain ⟨clock, rx, write⟩ := p
    have hle := hold clock rx write hrates
    have hall : (∀ c x w, some (clock, rx, write) = some (c, x, w) →
        workload digest o.rep c (some s.work) ∈ [none, some s.work]) ↔
        workload digest o.rep clock (some s.work) ∈ [none, some s.work] := by
      refine ⟨fun h => h clock rx write rfl, fun h c x w heq => ?_⟩
      obtain ⟨rfl, -⟩ := Prod.mk.inj (Option.some.inj heq)
      exact h
    rw [hall, List.mem_cons, List.mem_singleton]
    cases hwork : workload digest o.rep clock (some s.work) with
    | none =>
      have hobserve : observe digest o (some s) = (some s, false) := by
        simp only [observe, hrates, Option.map_some, hwork]
      rw [hobserve]
      exact ⟨fun _ => .inl rfl, fun _ => rfl⟩
    | some work =>
      by_cases hsame : work = s.work
      · subst hsame
        rw [observe_same digest hrates hwork hne, if_pos ⟨by linarith, hrestart⟩]
        exact ⟨fun _ => .inr rfl, fun _ => rfl⟩
      · refine ⟨fun h => ?_, fun h => ?_⟩
        · by_cases hidle : work = []
          · subst hidle
            have hobserve : observe digest o (some s) = (none, true) := by
              simp only [observe, hrates, Option.map_some, hwork]
            rw [hobserve] at h
            cases h
          · have hother : ∀ p ∈ some s, p.work ≠ work := fun p hp => by
              rw [← Option.mem_some.mp hp]
              exact Ne.symm hsame
            have hmap : workload digest o.rep clock ((some s).map Sample.work) = some work := hwork
            obtain ⟨c, hobserve⟩ := observe_new digest hrates hmap hidle hother
            rw [hobserve] at h
            exact absurd (congrArg Sample.work (Option.some.inj h)) hsame
        · rcases h with h | h
          · cases h
          · exact absurd (Option.some.inj h) hsame

theorem transfer_told : TransferTold where
  slow digest run level rate base since h := by
    rcases told_cases digest run with hp | ⟨t, hp, -⟩ | ⟨m, r, t, rest, series, before, hp, hproven,
      hslowed⟩
    · rw [hp] at h
      cases h
    · rw [hp] at h
      cases h
    · rw [hp] at h
      cases h
      exact ⟨m, rest, series, before, hproven, hslowed, rfl⟩
  stalled digest run level since h := by
    rcases told_cases digest run with hp | ⟨t, hp, hstalled⟩ | ⟨_, _, _, _, _, _, hp, -⟩
    · rw [hp] at h
      cases h
    · exact hstalled
    · rw [hp] at h
      cases h
  one digest run := by
    have hrecords := record_trail digest run
    cases hs : record digest run with
    | none =>
      rw [hs] at hrecords
      have hnil : trail digest run = [] := hrecords
      exact ⟨[], fun r hr => by rw [hnil] at hr; cases hr⟩
    | some s =>
      rw [hs] at hrecords
      exact ⟨s.work, (show Tracked (trail digest run) s from hrecords).same⟩
  raises digest run := by
    rcases told_cases digest run with hp | ⟨t, hp, -⟩ | ⟨_, _, _, _, _, _, hp, -⟩
    all_goals
      rw [hp]
      exact Option.some_ne_none _
  old digest o s hne hrestart hold := observe_old digest hne hrestart hold

/-! ## An old report that shows no work -/

/-- A store that receives, with one locked repository, or nothing. -/
def storeAt (clock : ℚ) (locked : Bool) : Obs where
  rep :=
    { clockUnix := some clock
      netRx := some (20 * mib)
      diskWrite := some (20 * mib)
      backupServer := some ⟨true, some true, false,
        [⟨true, "app".toList, locked, some clock, some 123⟩]⟩
      mirror := none
      helper := some { v := 1, ts := clock } }
  now := 2000
  restart := false
  now_lt := by decide

/-- The names of the locked repositories. -/
def names (locked : List (Text × ℚ)) : Text := locked.flatMap fun l => 'r' :: l.1

/-- A report from before the last one that shows no work ends the record. -/
theorem old_idle_ends :
    (record names [storeAt 1000 true]).map Sample.clock = some 1000 ∧
      rates (storeAt 900 false) = some (900, 20 * mib, 20 * mib) ∧
      record names [storeAt 1000 true, storeAt 900 false] = none := by
  decide +kernel

end Kervax.BackupTransfer
