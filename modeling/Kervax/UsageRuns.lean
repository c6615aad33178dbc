-- `ingest` of `usage.py` over the reports of a server: which time each report is counted
-- for, that no time counts twice, and which time is left out.
import Kervax.Usage
import Kervax.Runs

namespace Kervax.Usage

/-! ## `ingest` -/

/-- `STEP`, and how far the first report reaches back. -/
def step : Time := sec 600
def firstReach : Time := sec 7200

inductive Metric
  | net | disk
deriving DecidableEq, Repr

/-- `METRICS`. -/
def Metric.keys : Metric → String × String
  | .net => ("rx", "tx")
  | .disk => ("w", "r")

/-- The key of a `ServerUsage`. -/
structure RowKey where
  metric : Metric
  slot : Slot
deriving DecidableEq

structure Row where
  a : Int
  b : Int
  kind : String

def Row.get (r : Row) : Col → Int
  | .a => r.a
  | .b => r.b

/-- What is stored of a server: when it was counted last, and its rows. -/
structure Table where
  usageAt : Option Time := none
  rows : List (RowKey × Row) := []

/-- A report: its two lists, and when it came. -/
structure Report where
  now : Time
  netUsers : List Item
  diskWriters : List Item

def Report.items (r : Report) : Metric → List Item
  | .net => r.netUsers
  | .disk => r.diskWriters

/-- A bucket goes to its row, rounded. -/
def store (m : Metric) (rows : List (RowKey × Row)) (p : Slot × Bucket) : List (RowKey × Row) :=
  let r := (rows.lookup ⟨m, p.1⟩).getD ⟨0, 0, p.2.kind⟩
  Dict.put rows ⟨m, p.1⟩
    ⟨r.a + Doubles.roundHalf p.2.a, r.b + Doubles.roundHalf p.2.b,
      if p.2.kind ≠ "" then p.2.kind else r.kind⟩

/-- The last report that counted is less than `STEP` ago. -/
def Table.waits (u : Table) (now : Time) : Bool :=
  match u.usageAt with
  | some last => now - last < step
  | none => false

/-- From when on a report counts. -/
def Table.start (u : Table) (now : Time) : Time := u.usageAt.getD (now - firstReach)

/-- The buckets of a report. -/
def Table.buckets (u : Table) (r : Report) (m : Metric) : Buckets :=
  spread (r.items m) m.keys (u.start r.now) r.now

def ingest (u : Table) (r : Report) : Table :=
  if u.waits r.now then u
  else
    { usageAt := some r.now
      rows := (u.buckets r .disk).foldl (store .disk)
        ((u.buckets r .net).foldl (store .net) u.rows) }

/-! ## The rows -/

/-- What a row holds of an amount. -/
def stored (rows : List (RowKey × Row)) (m : Metric) (h : Int) (name : String) (c : Col) : Int :=
  ((rows.lookup ⟨m, h, name⟩).map (·.get c)).getD 0

theorem roundHalf_zero : Doubles.roundHalf 0 = 0 := by decide +kernel

theorem store_eq (m : Metric) (rows : List (RowKey × Row)) (slot : Slot) (v : Bucket) :
    ∃ r : Row, store m rows (slot, v) = Dict.put rows ⟨m, slot⟩ r ∧
      ∀ c, r.get c = stored rows m slot.hour slot.name c + Doubles.roundHalf (v.get c) := by
  refine ⟨_, rfl, fun c => ?_⟩
  unfold stored
  cases rows.lookup ⟨m, slot⟩ <;> cases c <;> rfl

theorem stored_store (m m' : Metric) (rows : List (RowKey × Row)) (p : Slot × Bucket) (h : Int)
    (name : String) (c : Col) :
    stored (store m rows p) m' h name c =
      stored rows m' h name c +
        if m' = m ∧ p.1 = ⟨h, name⟩ then Doubles.roundHalf (p.2.get c) else 0 := by
  obtain ⟨slot, v⟩ := p
  obtain ⟨r, hr, hget⟩ := store_eq m rows slot v
  by_cases hkey : m' = m ∧ slot = ⟨h, name⟩
  · rw [if_pos hkey]
    obtain ⟨rfl, rfl⟩ := hkey
    rw [hr, stored, Dict.lookup_put, if_pos rfl]
    exact hget c
  · rw [if_neg hkey, add_zero, hr, stored, Dict.lookup_put,
      if_neg (by simpa [eq_comm] using hkey), stored]

/-- Every bucket goes to its own row. -/
theorem stored_buckets (m m' : Metric) {out : Buckets} (hout : (Dict.keys out).Nodup)
    (rows : List (RowKey × Row)) (h : Int) (name : String) (c : Col) :
    stored (out.foldl (store m) rows) m' h name c =
      stored rows m' h name c + if m' = m then Doubles.roundHalf (held out h name c) else 0 := by
  induction out generalizing rows with
  | nil => simp [held, roundHalf_zero]
  | cons p out ih =>
    obtain ⟨hp, hout'⟩ := List.nodup_cons.mp hout
    rw [List.foldl_cons, ih hout', stored_store, add_assoc]
    congr 1
    by_cases hm : m' = m
    · by_cases hslot : p.1 = ⟨h, name⟩
      · have hnone : out.lookup ⟨h, name⟩ = none := Dict.lookup_eq_none.mpr (hslot ▸ hp)
        have hcons : ((p :: out).lookup ⟨h, name⟩) = some p.2 := by
          rw [← hslot, List.lookup_cons_self]
        simp only [held, hnone, hcons, hm, hslot, roundHalf_zero, Option.map_none,
          Option.map_some, Option.getD_none, Option.getD_some, and_self, if_true, add_zero]
      · have hne : ((⟨h, name⟩ : Slot) == p.1) = false := beq_false_of_ne (Ne.symm hslot)
        have hcons : (p :: out).lookup ⟨h, name⟩ = out.lookup ⟨h, name⟩ := by
          rw [List.lookup_cons, hne]
        simp only [held, hcons, hslot, and_false, if_false, zero_add]
    · simp [hm]

/-- A report that counts adds its buckets, rounded, and no other changes a row. -/
theorem stored_ingest (u : Table) (r : Report) (hr : u.waits r.now = false) (m : Metric) (h : Int)
    (name : String) (c : Col) :
    stored (ingest u r).rows m h name c =
      stored u.rows m h name c + Doubles.roundHalf (held (u.buckets r m) h name c) := by
  have hnd : ∀ m, (Dict.keys (u.buckets r m)).Nodup := fun m => nodup_spread _ _ _ _
  unfold ingest
  rw [if_neg (by simp [hr])]
  rw [stored_buckets _ _ (hnd .disk), stored_buckets _ _ (hnd .net)]
  cases m <;> simp

/-- What a report adds to a row: what its entries say of the hour, each for the time
that it is counted for. -/
def added (m : Metric) (h : Int) (name : String) (c : Col) (u : Table) (r : Report) : Int :=
  if u.waits r.now then 0
  else Doubles.roundHalf ((entries (r.items m) m.keys name).map fun x =>
    x.get c * inHour (x.from (u.start r.now) r.now) (Fill.unix r.now) h / x.s).sum

/-- The same for every report of a run. -/
def additions (m : Metric) (h : Int) (name : String) (c : Col) : Table → List Report → List Int
  | _, [] => []
  | u, r :: rs => added m h name c u r :: additions m h name c (ingest u r) rs

theorem ingest_waits {u : Table} {r : Report} (h : u.waits r.now = true) : ingest u r = u := by
  unfold ingest
  rw [if_pos h]

theorem stored_added (m : Metric) (h : Int) (name : String) (c : Col) (u : Table) (r : Report) :
    stored (ingest u r).rows m h name c = stored u.rows m h name c + added m h name c u r := by
  cases hw : u.waits r.now with
  | true => rw [ingest_waits hw, added, if_pos hw, add_zero]
  | false =>
    rw [stored_ingest u r hw, added, if_neg (by simp [hw])]
    unfold Table.buckets
    rw [held_spread]

/-- A row holds what the reports of the run have added to it, each of them once. -/
theorem stored_run (m : Metric) (h : Int) (name : String) (c : Col) (u : Table) (rs : List Report) :
    stored (Runs.run ingest u rs).rows m h name c =
      stored u.rows m h name c + (additions m h name c u rs).sum := by
  induction rs generalizing u with
  | nil => simp [additions]
  | cons r rs ih => rw [Runs.run_cons, ih, stored_added, additions, List.sum_cons, add_assoc]

/-! ## The time that is counted -/

/-- The intervals that a report is counted for, of one name. -/
def accounts (m : Metric) (name : String) (u : Table) (r : Report) : List (ℚ × ℚ) :=
  if u.waits r.now then []
  else (entries (r.items m) m.keys name).map fun x =>
    (x.from (u.start r.now) r.now, Fill.unix r.now)

/-- The same for every report of a run. -/
def journal (m : Metric) (name : String) : Table → List Report → List (List (ℚ × ℚ))
  | _, [] => []
  | u, r :: rs => accounts m name u r :: journal m name (ingest u r) rs

theorem usageAt_ingest {u : Table} {r : Report} (h : u.waits r.now = false) :
    (ingest u r).usageAt = some r.now := by
  unfold ingest
  rw [if_neg (by simp [h])]

theorem last_le {u : Table} {r : Report} {l : Time} (hl : u.usageAt = some l)
    (h : u.waits r.now = false) : l ≤ r.now := by
  unfold Table.waits at h
  rw [hl] at h
  have hstep : ¬ r.now - l < step := by simpa using h
  have hpos : 0 ≤ step := by decide
  exact Int.sub_nonneg.mp (hpos.trans (not_lt.mp hstep))

/-- No report is counted for a time before the last one that counted. -/
theorem after_last (m : Metric) (name : String) {u : Table} {l : Time} (hl : u.usageAt = some l)
    (rs : List Report) : ∀ X ∈ journal m name u rs, ∀ I ∈ X, Fill.unix l ≤ I.1 := by
  induction rs generalizing u l with
  | nil => simp [journal]
  | cons r rs ih =>
    rw [journal, List.forall_mem_cons]
    cases hw : u.waits r.now with
    | true =>
      rw [ingest_waits hw]
      exact ⟨by simp [accounts, hw], ih hl⟩
    | false =>
      refine ⟨?_, fun X hX I hI => (unix_le (last_le hl hw)).trans
        (ih (usageAt_ingest hw) X hX I hI)⟩
      simp only [accounts, hw, Bool.false_eq_true, if_false, List.forall_mem_map]
      intro x _
      have hstart : u.start r.now = l := by simp [Table.start, hl]
      rw [hstart]
      exact le_max_left _ _

/-- The intervals of two reports do not overlap. -/
theorem journal_disjoint (m : Metric) (name : String) (u : Table) (rs : List Report) :
    (journal m name u rs).Pairwise fun X Y => ∀ I ∈ X, ∀ J ∈ Y, I.2 ≤ J.1 := by
  induction rs generalizing u with
  | nil => exact List.Pairwise.nil
  | cons r rs ih =>
    rw [journal, List.pairwise_cons]
    refine ⟨fun Y hY I hI J hJ => ?_, ih _⟩
    cases hw : u.waits r.now with
    | true => simp [accounts, hw] at hI
    | false =>
      simp only [accounts, hw, Bool.false_eq_true, if_false, List.mem_map] at hI
      obtain ⟨x, -, rfl⟩ := hI
      exact after_last m name (usageAt_ingest hw) rs Y hY J hJ

/-- A server that was counted once has a last time. -/
theorem usageAt_run {u : Table} {l : Time} (hl : u.usageAt = some l) (rs : List Report) :
    ∃ l', (Runs.run ingest u rs).usageAt = some l' := by
  induction rs generalizing u l with
  | nil => exact ⟨l, hl⟩
  | cons r rs ih =>
    rw [Runs.run_cons]
    cases hw : u.waits r.now with
    | true =>
      rw [ingest_waits hw]
      exact ih hl
    | false => exact ih (usageAt_ingest hw)

/-- The time between two reports that count belongs to the later one. -/
theorem elapsed_in_a_report {u : Table} {l : Time} (hl : u.usageAt = some l) {rs : List Report}
    {t : ℚ} (h0 : Fill.unix l < t)
    (h1 : t ≤ Fill.unix ((Runs.run ingest u rs).usageAt.getD l)) :
    ∃ before r rest, rs = before ++ r :: rest ∧ (Runs.run ingest u before).waits r.now = false ∧
      Fill.unix ((Runs.run ingest u before).start r.now) < t ∧ t ≤ Fill.unix r.now := by
  induction rs generalizing u l with
  | nil =>
    rw [Runs.run_nil, hl] at h1
    exact absurd h1 (not_le.mpr h0)
  | cons r rs ih =>
    rw [Runs.run_cons] at h1
    cases hw : u.waits r.now with
    | true =>
      rw [ingest_waits hw] at h1
      obtain ⟨before, r', rest, rfl, hin⟩ := ih hl h0 h1
      refine ⟨r :: before, r', rest, rfl, ?_⟩
      rwa [Runs.run_cons, ingest_waits hw]
    | false =>
      by_cases ht : t ≤ Fill.unix r.now
      · refine ⟨[], r, rs, rfl, hw, ?_, ht⟩
        rwa [Runs.run_nil, Table.start, hl]
      · have hnow := usageAt_ingest hw
        obtain ⟨l', hl'⟩ := usageAt_run hnow rs
        rw [hl'] at h1
        obtain ⟨before, r', rest, rfl, hin⟩ := ih hnow (not_le.mp ht) (by rwa [hl'])
        exact ⟨r :: before, r', rest, rfl, hin⟩

theorem journal_append (m : Metric) (name : String) (u : Table) (before rs : List Report) :
    journal m name u (before ++ rs) =
      journal m name u before ++ journal m name (Runs.run ingest u before) rs := by
  induction before generalizing u with
  | nil => rfl
  | cons r before ih =>
    rw [List.cons_append, journal, ih, journal, Runs.run_cons, List.cons_append]

/-- A moment that some report is counted for. -/
def Accounted (m : Metric) (name : String) (u : Table) (rs : List Report) (t : ℚ) : Prop :=
  ∃ X ∈ journal m name u rs, ∃ I ∈ X, I.1 ≤ t ∧ t ≤ I.2

/-- A moment that falls to a report which says nothing of it: the name is not in the list,
or the moment is older than the window. -/
def LeftOut (m : Metric) (name : String) (u : Table) (rs : List Report) (t : ℚ) : Prop :=
  ∃ before r rest, rs = before ++ r :: rest ∧ (Runs.run ingest u before).waits r.now = false ∧
    Fill.unix ((Runs.run ingest u before).start r.now) < t ∧ t ≤ Fill.unix r.now ∧
    ∀ x ∈ entries (r.items m) m.keys name, t < Fill.unix r.now - x.s

/-- Every second that has passed is accounted for, or left out for this reason. -/
theorem accounted_or_leftOut (m : Metric) (name : String) {u : Table} {l : Time}
    (hl : u.usageAt = some l) (rs : List Report) (t : ℚ) (h0 : Fill.unix l < t)
    (h1 : t ≤ Fill.unix ((Runs.run ingest u rs).usageAt.getD l)) :
    Accounted m name u rs t ∨ LeftOut m name u rs t := by
  obtain ⟨before, r, rest, rfl, hw, hstart, hnow⟩ := elapsed_in_a_report hl h0 h1
  by_cases hold : ∀ x ∈ entries (r.items m) m.keys name, t < Fill.unix r.now - x.s
  · exact .inr ⟨before, r, rest, rfl, hw, hstart, hnow, hold⟩
  · simp only [not_forall, not_lt] at hold
    obtain ⟨x, hx, hin⟩ := hold
    refine .inl ⟨accounts m name (Runs.run ingest u before) r, ?_, ?_⟩
    · rw [journal_append, journal]
      exact List.mem_append_right _ List.mem_cons_self
    · refine ⟨(x.from ((Runs.run ingest u before).start r.now) r.now, Fill.unix r.now), ?_,
        max_le hstart.le hin, hnow⟩
      rw [accounts, if_neg (by simp [hw])]
      exact List.mem_map_of_mem hx

/-- The buckets of a name hold what its entries say of the time that counts, each bucket
what lies of it in its hour; a row gets this from every report that counts, rounded, and
nothing else; the times of two reports do not overlap; and every second between reports is
accounted for, but where the list had no such name or the second was older than its
window. -/
theorem usage_is_conserved_and_counted_once :
    (∀ (items : List Item) (keys : String × String) (start stop : Time) (name : String) (c : Col),
      start ≤ stop →
      total (spread items keys start stop) name c =
        ((entries items keys name).map fun x =>
          x.get c * min x.s (Fill.unix stop - Fill.unix start) / x.s).sum) ∧
    (∀ (items : List Item) (keys : String × String) (start stop : Time) (h : Int) (name : String)
      (c : Col),
      held (spread items keys start stop) h name c =
        ((entries items keys name).map fun x =>
          x.get c * inHour (x.from start stop) (Fill.unix stop) h / x.s).sum) ∧
    (∀ (m : Metric) (h : Int) (name : String) (c : Col) (u : Table) (rs : List Report),
      stored (Runs.run ingest u rs).rows m h name c =
        stored u.rows m h name c + (additions m h name c u rs).sum) ∧
    (∀ (m : Metric) (name : String) (u : Table) (rs : List Report),
      (journal m name u rs).Pairwise fun X Y => ∀ I ∈ X, ∀ J ∈ Y, I.2 ≤ J.1) ∧
    ∀ (m : Metric) (name : String) (u : Table) (l : Time) (rs : List Report) (t : ℚ),
      u.usageAt = some l → Fill.unix l < t →
      t ≤ Fill.unix ((Runs.run ingest u rs).usageAt.getD l) →
      Accounted m name u rs t ∨ LeftOut m name u rs t :=
  ⟨fun items keys _ _ name c h => total_spread items keys h name c, held_spread, stored_run,
    journal_disjoint, fun m name _ _ rs t hl h0 h1 => accounted_or_leftOut m name hl rs t h0 h1⟩

/-- A container that took an hour to move 3600 bytes. -/
def shopApp : Item :=
  some [("name", ⟨true, none, "shop-app"⟩), ("s", ⟨true, some 3600, "3600"⟩),
    ("rx", ⟨true, some 3600, "3600"⟩)]

/-- Ten minutes of it, from two minutes before the full hour on; and two reports within the
hour, with what they leave in its row. -/
theorem usage_of_ten_minutes :
    total (spread [shopApp] ("rx", "tx") (sec 3480) (sec 4080)) "shop-app" .a =
        ((entries [shopApp] ("rx", "tx") "shop-app").map fun x =>
          x.get .a * min x.s (Fill.unix (sec 4080) - Fill.unix (sec 3480)) / x.s).sum ∧
      stored (Runs.run ingest ⟨some 0, []⟩
        [⟨sec 600, [shopApp], []⟩, ⟨sec 1500, [shopApp], []⟩]).rows .net 0 "shop-app" .a = 1500 ∧
      (Accounted .net "shop-app" ⟨some 0, []⟩ [⟨sec 600, [shopApp], []⟩] 300 ∨
        LeftOut .net "shop-app" ⟨some 0, []⟩ [⟨sec 600, [shopApp], []⟩] 300) :=
  ⟨usage_is_conserved_and_counted_once.1 _ _ _ _ _ _ (by decide),
    (usage_is_conserved_and_counted_once.2.2.1 _ _ _ _ _ _).trans (by decide +kernel),
    usage_is_conserved_and_counted_once.2.2.2.2 _ _ _ 0 _ _ rfl (by decide +kernel)
      (by decide +kernel)⟩

/-- Three reports ten minutes apart; the container is not among the largest in the second. -/
def threeReports : List Report :=
  [⟨0, [shopApp], []⟩, ⟨sec 600, [], []⟩, ⟨sec 1200, [shopApp], []⟩]

/-- Ten minutes between the reports are not accounted for, with a window of an hour. -/
theorem a_report_without_the_name_is_a_gap :
    (Runs.run ingest {} threeReports).usageAt = some (sec 1200) ∧
      journal .net "shop-app" {} threeReports = [[(-3600, 0)], [], [(600, 1200)]] ∧
      ¬ Accounted .net "shop-app" {} threeReports 300 := by
  have hjournal : journal .net "shop-app" {} threeReports = [[(-3600, 0)], [], [(600, 1200)]] := by
    decide +kernel
  refine ⟨by decide +kernel, hjournal, ?_⟩
  unfold Accounted
  rw [hjournal]
  decide +kernel

end Kervax.Usage
