-- What the reports add up to: the bytes of an interface are the growth of its counters,
-- as long as the panel has not lost the counters it compares with.
import Kervax.Traffic
import Kervax.Runs
import Mathlib.Algebra.BigOperators.Group.Finset.Basic

namespace Kervax.Traffic

open Runs
open Counters (Sight)

/-! ## One way, one interface -/

/-- Received or sent. -/
inductive Way
  | rx
  | tx
deriving DecidableEq

def Way.of (w : Way) (c : Int × Int) : Int :=
  match w with
  | .rx => c.1
  | .tx => c.2

theorem Way.of_add (w : Way) (c d : Int × Int) : w.of (c.1 + d.1, c.2 + d.2) = w.of c + w.of d := by
  cases w <;> rfl

/-- What a report shows of an interface; a report without interfaces is void. -/
def sight (w : Way) (name : String) (r : Report) : Sight :=
  if current r.ifaces = [] then .void
  else
    match (current r.ifaces).lookup name with
    | none => .missing
    | some c => .seen (w.of c)

theorem sight_void {w : Way} {name : String} {r : Report} (h : current r.ifaces = []) :
    sight w name r = .void := if_pos h

theorem sight_missing {w : Way} {name : String} {r : Report} (hcur : current r.ifaces ≠ [])
    (h : (current r.ifaces).lookup name = none) : sight w name r = .missing := by
  unfold sight
  rw [if_neg hcur, h]

theorem sight_seen {w : Way} {name : String} {r : Report} {c : Int × Int}
    (h : (current r.ifaces).lookup name = some c) : sight w name r = .seen (w.of c) := by
  have hcur : current r.ifaces ≠ [] := by
    intro hnil
    rw [hnil] at h
    cases h
  unfold sight
  rw [if_neg hcur, h]

def sights (w : Way) (name : String) (rs : List Report) : List Sight := rs.map (sight w name)

/-- The part of `drx`, `dtx` that an interface has. -/
def gain (w : Way) (name : String) (s : Server) (r : Report) : Int :=
  match (current r.ifaces).lookup name with
  | none => 0
  | some c => w.of (added s.base name c)

/-- The bytes added for an interface over a run. -/
def bytes (w : Way) (name : String) : Server → List Report → Int
  | _, [] => 0
  | s, r :: rs => gain w name s r + bytes w name (ingest s r) rs

theorem of_added (w : Way) (base : Table) (name : String) (c : Int × Int) :
    w.of (added base name c) =
      (((base.lookup name).map w.of).map fun p => Counters.grow p (w.of c)).getD 0 := by
  unfold added
  cases base.lookup name with
  | none => cases w <;> rfl
  | some p => cases w <;> rfl

theorem base_ingest (s : Server) (r : Report) :
    (ingest s r).base = if current r.ifaces = [] then s.base else current r.ifaces := by
  unfold ingest
  dsimp only
  split <;> rfl

/-- The bytes are what a reader adds up that keeps the counters of the last report only. -/
theorem bytes_eq_tally (w : Way) (name : String) (s : Server) (rs : List Report) :
    bytes w name s rs = Counters.tally ((s.base.lookup name).map w.of) (sights w name rs) := by
  induction rs generalizing s with
  | nil => rfl
  | cons r rs ih =>
    have hrest := ih (ingest s r)
    unfold sights at hrest ⊢
    rw [base_ingest] at hrest
    rw [List.map_cons]
    unfold bytes gain
    by_cases hcur : current r.ifaces = []
    · rw [if_pos hcur] at hrest
      rw [hrest, sight_void hcur, hcur]
      exact Int.zero_add _
    · rw [if_neg hcur] at hrest
      rw [hrest]
      cases hl : (current r.ifaces).lookup name with
      | none =>
        rw [sight_missing hcur hl]
        exact Int.zero_add _
      | some c =>
        rw [sight_seen hl]
        dsimp only
        rw [of_added]
        rfl

/-! ## The counters of a report -/

theorem current_inv {P : String × (Int × Int) → Prop} (ifaces : List Iface)
    (h : ∀ i ∈ ifaces, ∀ c, i.counters = some c → P (i.key, c)) :
    (Dict.keys (current ifaces)).Nodup ∧ ∀ p ∈ current ifaces, P p := by
  unfold current
  induction ifaces using List.reverseRecOn with
  | nil => simp [Dict.keys]
  | append_singleton ifaces i ih =>
    obtain ⟨hnodup, hall⟩ := ih fun j hj => h j (List.mem_append_left _ hj)
    rw [List.foldl_append, List.foldl_cons, List.foldl_nil]
    cases hc : i.counters with
    | none => exact ⟨hnodup, hall⟩
    | some c =>
      refine ⟨Dict.nodup_put hnodup _ _, fun p hp => ?_⟩
      rcases Dict.mem_put hp with hp | rfl
      · exact hall p hp
      · exact h i (by simp) c hc

theorem nodup_current (ifaces : List Iface) : (Dict.keys (current ifaces)).Nodup :=
  (current_inv (P := fun _ => True) ifaces fun _ _ _ _ => trivial).1

theorem counters_nonneg {i : Iface} {c : Int × Int} (h : i.counters = some c) :
    0 ≤ c.1 ∧ 0 ≤ c.2 := by
  unfold Iface.counters at h
  split at h
  · split at h
    · next hok =>
      cases h
      exact ⟨hok.2.1, hok.2.2⟩
    · cases h
  · cases h

theorem current_nonneg (ifaces : List Iface) {name : String} {c : Int × Int}
    (h : (current ifaces).lookup name = some c) (w : Way) : 0 ≤ w.of c := by
  have hall := (current_inv (P := fun p => 0 ≤ p.2.1 ∧ 0 ≤ p.2.2) ifaces
    fun i _ c hc => counters_nonneg hc).2 _ (Dict.mem_of_lookup h)
  cases w
  · exact hall.1
  · exact hall.2

theorem readings_nonneg (w : Way) (name : String) (rs : List Report) :
    ∀ c ∈ Counters.readings (sights w name rs), 0 ≤ c := by
  intro c hc
  obtain ⟨s, hs, hread⟩ := List.mem_filterMap.mp hc
  obtain ⟨r, -, rfl⟩ := List.mem_map.mp hs
  unfold sight at hread
  split at hread
  · cases hread
  split at hread
  · cases hread
  next d hl =>
  cases hread
  exact current_nonneg _ hl w

/-! ## The rows -/

/-- All the bytes of the rows. -/
def total (w : Way) (days : List (Int × (Int × Int))) : Int := (days.map fun p => w.of p.2).sum

theorem total_replace (w : Way) {days : List (Int × (Int × Int))} {d : Int} (v : Int × Int)
    (h : (Dict.keys days).Nodup) (hd : d ∈ Dict.keys days) :
    total w (days.map fun p => if p.1 = d then (d, v) else p) =
      total w days - w.of ((days.lookup d).getD (0, 0)) + w.of v := by
  induction days with
  | nil => cases hd
  | cons p days ih =>
    obtain ⟨hp, hnodup⟩ := List.nodup_cons.mp h
    rw [List.map_cons]
    by_cases hpd : p.1 = d
    · have hsame : days.map (fun q => if q.1 = d then (d, v) else q) = days := by
        conv_rhs => rw [← List.map_id days]
        refine List.map_congr_left fun q hq => if_neg ?_
        intro hqd
        exact hp (List.mem_map.mpr ⟨q, hq, hqd.trans hpd.symm⟩)
      have hfound : (p :: days).lookup d = some p.2 := by
        rw [List.lookup_cons, beq_iff_eq.mpr hpd.symm]
      rw [if_pos hpd, hsame, hfound]
      simp only [total, List.map_cons, List.sum_cons, Option.getD_some]
      omega
    · have hrest := ih hnodup (by
        rcases List.mem_cons.mp hd with he | hin
        · exact absurd he.symm hpd
        · exact hin)
      have hfound : (p :: days).lookup d = days.lookup d := by
        rw [List.lookup_cons, beq_false_of_ne (Ne.symm hpd)]
      rw [if_neg hpd, hfound]
      simp only [total, List.map_cons, List.sum_cons] at hrest ⊢
      omega

theorem total_put (w : Way) {days : List (Int × (Int × Int))} (d : Int) (v : Int × Int)
    (h : (Dict.keys days).Nodup) :
    total w (Dict.put days d v) = total w days - w.of ((days.lookup d).getD (0, 0)) + w.of v := by
  unfold Dict.put
  split
  · next hd => exact total_replace w v h hd
  · next hd =>
    rw [Dict.lookup_eq_none.mpr hd]
    have hzero : w.of (0, 0) = 0 := by cases w <;> rfl
    simp only [total, List.map_append, List.sum_append, List.map_cons, List.map_nil,
      List.sum_cons, List.sum_nil, Option.getD_none, hzero]
    omega

theorem total_addDay (w : Way) {days : List (Int × (Int × Int))} (d drx dtx : Int)
    (h : (Dict.keys days).Nodup) :
    total w (addDay days d drx dtx) = total w days + w.of (drx, dtx) := by
  unfold addDay
  rw [total_put w d _ h, Way.of_add w _ (drx, dtx)]
  omega

/-- `drx` and `dtx` are sums over the interfaces of the report. -/
theorem of_deltas (w : Way) (base cur : Table) :
    w.of (deltas base cur) = (cur.map fun p => w.of (added base p.1 p.2)).sum := by
  unfold deltas
  induction cur using List.reverseRecOn with
  | nil => cases w <;> rfl
  | append_singleton cur p ih =>
    rw [List.foldl_append, List.foldl_cons, List.foldl_nil, Way.of_add, ih, List.map_append,
      List.sum_append, List.map_cons, List.map_nil, List.sum_singleton]

theorem total_ingest (w : Way) {s : Server} (h : (Dict.keys s.days).Nodup) (r : Report) :
    (Dict.keys (ingest s r).days).Nodup ∧
      total w (ingest s r).days = total w s.days + w.of (deltas s.base (current r.ifaces)) := by
  have hzero : w.of (0, 0) = 0 := by cases w <;> rfl
  unfold ingest
  dsimp only
  split
  · next hcur =>
    refine ⟨h, ?_⟩
    rw [hcur]
    exact (by rw [show deltas s.base [] = (0, 0) from rfl, hzero]; omega)
  · dsimp only
    split
    · exact ⟨Dict.nodup_put h _ _, total_addDay w _ _ _ h⟩
    · next hd =>
      refine ⟨h, ?_⟩
      simp only [ne_eq, not_or, not_not] at hd
      have hpair : deltas s.base (current r.ifaces) = (0, 0) := Prod.ext hd.1 hd.2
      rw [hpair, hzero]
      omega

/-- The interfaces that a run has shown. -/
def names (rs : List Report) : Finset String :=
  (rs.flatMap fun r => Dict.keys (current r.ifaces)).toFinset

/-- A report adds for the interfaces that it shows. -/
theorem sum_gain (w : Way) (s : Server) (r : Report) {N : Finset String}
    (hN : ∀ p ∈ current r.ifaces, p.1 ∈ N) :
    ∑ name ∈ N, gain w name s r = w.of (deltas s.base (current r.ifaces)) := by
  have hsub : (Dict.keys (current r.ifaces)).toFinset ⊆ N := by
    intro name hname
    obtain ⟨p, hp, rfl⟩ := List.mem_map.mp (List.mem_toFinset.mp hname)
    exact hN p hp
  have hout : ∀ name ∈ N, name ∉ (Dict.keys (current r.ifaces)).toFinset →
      gain w name s r = 0 := by
    intro name _ hname
    have hnone := Dict.lookup_eq_none.mpr fun hin => hname (List.mem_toFinset.mpr hin)
    unfold gain
    rw [hnone]
  rw [← Finset.sum_subset hsub hout, List.sum_toFinset _ (nodup_current r.ifaces), of_deltas]
  unfold Dict.keys
  rw [List.map_map]
  congr 1
  refine List.map_congr_left fun p hp => ?_
  unfold gain
  rw [Function.comp_apply, Dict.lookup_of_mem (nodup_current r.ifaces) hp]

/-- The rows have what the interfaces add, and nothing else. -/
theorem total_run (w : Way) {s : Server} (h : (Dict.keys s.days).Nodup) {N : Finset String}
    (rs : List Report) (hN : ∀ r ∈ rs, ∀ p ∈ current r.ifaces, p.1 ∈ N) :
    total w (run ingest s rs).days = total w s.days + ∑ name ∈ N, bytes w name s rs := by
  induction rs generalizing s with
  | nil => simp [bytes]
  | cons r rs ih =>
    obtain ⟨hnodup, htotal⟩ := total_ingest w h r
    rw [run_cons, ih hnodup fun q hq => hN q (List.mem_cons_of_mem _ hq), htotal,
      ← sum_gain w s r (hN r List.mem_cons_self)]
    simp only [bytes, Finset.sum_add_distrib]
    omega

/-! ## The counters are conserved -/

/-- Whenever a report with other interfaces has lacked this one, its counter has not grown
when it comes back. -/
def Kept (w : Way) (name : String) (rs : List Report) : Prop := Counters.Still (sights w name rs)

/-- The growth of the counter from each report with the interface to the next one. -/
def expected (w : Way) (name : String) (rs : List Report) : Int :=
  Counters.growth (Counters.readings (sights w name rs))

/-- A report between two others that have the interface too, and its counter has not started
again. -/
def Between (w : Way) (name : String) (pre : List Report) (r : Report) (post : List Report) : Prop :=
  ∃ a b c, (Counters.readings (sights w name pre)).getLast? = some a ∧
    (sight w name r).reading = some b ∧
    (Counters.readings (sights w name post)).head? = some c ∧ a ≤ b ∧ b ≤ c

theorem readings_insert (w : Way) (name : String) (pre : List Report) (r : Report)
    (post : List Report) :
    Counters.readings (sights w name (pre ++ r :: post)) =
      Counters.readings (sights w name pre) ++
        ((sight w name r).reading.toList ++ Counters.readings (sights w name post)) := by
  unfold Counters.readings sights
  rw [List.map_append, List.map_cons, List.filterMap_append, List.filterMap_cons]
  cases (sight w name r).reading <;> rfl

theorem expected_missing {w : Way} {name : String} {r : Report}
    (h : (sight w name r).reading = none) (pre post : List Report) :
    expected w name (pre ++ r :: post) = expected w name (pre ++ post) := by
  unfold expected
  rw [readings_insert, h]
  unfold Counters.readings sights
  rw [List.map_append, List.filterMap_append]
  rfl

theorem expected_between {w : Way} {name : String} {pre : List Report} {r : Report}
    {post : List Report} (h : Between w name pre r post) :
    expected w name (pre ++ r :: post) = expected w name (pre ++ post) := by
  obtain ⟨a, b, c, ha, hb, hc, hab, hbc⟩ := h
  obtain ⟨before, hbefore⟩ := List.getLast?_eq_some_iff.mp ha
  obtain ⟨after, hafter⟩ := List.head?_eq_some_iff.mp hc
  have hall : Counters.readings (sights w name (pre ++ post)) =
      Counters.readings (sights w name pre) ++ Counters.readings (sights w name post) := by
    unfold Counters.readings sights
    rw [List.map_append, List.filterMap_append]
  unfold expected
  rw [readings_insert, hall, hb, hbefore, hafter, Option.toList_some]
  simp only [List.append_assoc, List.cons_append, List.nil_append]
  exact Counters.growth_middle hab hbc before after

theorem bytes_eq_expected_iff (w : Way) (name : String) (rs : List Report) :
    bytes w name {} rs = expected w name rs ↔ Kept w name rs := by
  rw [bytes_eq_tally]
  exact Counters.tally_eq_growth_iff (readings_nonneg w name rs)

/-- The bytes of an interface are the growth of its counters exactly if its counters are
kept; they are what the rows have, are never negative, and a report without the interface,
or one between two others, changes nothing where the counters are kept. -/
theorem bytes_are_conserved_iff_kept (w : Way) (name : String) (rs : List Report) :
    (bytes w name {} rs = expected w name rs ↔ Kept w name rs) ∧ 0 ≤ bytes w name {} rs ∧
      total w (run ingest {} rs).days = ∑ n ∈ names rs, bytes w n {} rs ∧
      (∀ pre r post, rs = pre ++ r :: post → (sight w name r).reading = none →
        Kept w name (pre ++ post) →
        (bytes w name {} rs = bytes w name {} (pre ++ post) ↔ Kept w name rs)) ∧
      ∀ pre r post, rs = pre ++ r :: post → Between w name pre r post → Kept w name rs →
        (bytes w name {} (pre ++ post) = bytes w name {} rs ↔ Kept w name (pre ++ post)) := by
  refine ⟨bytes_eq_expected_iff w name rs, ?_, ?_, ?_, ?_⟩
  · rw [bytes_eq_tally]
    exact Counters.tally_nonneg _ (readings_nonneg w name rs)
  · have hrows := total_run (s := {}) w (by simp [Dict.keys]) (N := names rs) rs (by
      intro r hr p hp
      exact List.mem_toFinset.mpr
        (List.mem_flatMap.mpr ⟨r, hr, List.mem_map.mpr ⟨p, hp, rfl⟩⟩))
    rw [hrows]
    exact Int.zero_add _
  · rintro pre r post rfl hmissing hkept
    rw [(bytes_eq_expected_iff w name _).mpr hkept, ← expected_missing hmissing]
    exact bytes_eq_expected_iff w name _
  · rintro pre r post rfl hbetween hkept
    rw [(bytes_eq_expected_iff w name _).mpr hkept, expected_between hbetween]
    exact bytes_eq_expected_iff w name _

def eth0 (rx tx : Int) : Iface :=
  { name := some "eth0", phys := true, rxTotal := some rx, txTotal := some tx }

def eth1 (rx tx : Int) : Iface :=
  { name := some "eth1", phys := true, rxTotal := some rx, txTotal := some tx }

/-- An interface in every report, the second between the others. -/
def always : List Report := [⟨[eth0 100 10], 0⟩] ++ ⟨[eth0 250 20], sec 60⟩ :: [⟨[eth0 400 40], sec 120⟩]

theorem bytes_are_conserved_always :
    bytes .rx "eth0" {} ([⟨[eth0 100 10], 0⟩] ++ [⟨[eth0 400 40], sec 120⟩]) =
      bytes .rx "eth0" {} always := by
  have hall := bytes_are_conserved_iff_kept .rx "eth0" always
  have hshort := bytes_are_conserved_iff_kept .rx "eth0"
    ([⟨[eth0 100 10], 0⟩] ++ [⟨[eth0 400 40], sec 120⟩])
  refine (hall.2.2.2.2 _ _ _ rfl ⟨100, 250, 400, ?_⟩ (hall.1.mp ?_)).mpr (hshort.1.mp ?_)
  · decide +kernel
  · decide +kernel
  · decide +kernel

/-! ## An interface that is away for one report -/

def awayOnce : List Report :=
  [⟨[eth0 100 10, eth1 5 5], 0⟩, ⟨[eth1 7 7], sec 60⟩, ⟨[eth0 400 40, eth1 9 9], sec 120⟩]

/-- The three hundred bytes of the interface that was away are in no row. -/
theorem bytes_of_an_absent_interface_are_lost :
    bytes .rx "eth0" {} awayOnce = 0 ∧ expected .rx "eth0" awayOnce = 300 ∧
      total .rx (run ingest {} awayOnce).days = 4 := by
  decide +kernel

end Kervax.Traffic
