-- The kernel's count over a run of reports: the kills that the panel counts are those that
-- the reports show, when every reboot between two reports shows.
import Kervax.OomCounter
import Mathlib.Data.List.Chain
import Mathlib.Algebra.BigOperators.Group.List.Basic

namespace Kervax.OomCounter

/-! ## What the reports show -/

/-- The growth from one report to the next: after a reboot the whole count. -/
def grown (p r : Reading) : Int :=
  if p.machine.boot = r.machine.boot then r.machine.kills - p.machine.kills else r.machine.kills

/-- The growth that the reports show. -/
def growth : List Reading → Int
  | p :: r :: rs => grown p r + growth (r :: rs)
  | _ => 0

/-- The first report has nothing to grow from: it adds what the agent has counted. -/
def own (rs : List Reading) : Int :=
  (rs.head?.map fun r => Doubles.roundHalf (r.oomKill.getD 0)).getD 0

/-- The deltas that no point has. -/
def unwritten (log : List (Int × Bool)) : Int :=
  ((log.reverse.takeWhile fun entry => !entry.2).map Prod.fst).sum

/-- A reboot between two reports shows: the uptime went down by more than the margin, or one of
the counts is zero, so that the whole count is the difference too or neither is more than zero. -/
def Shows (p r : Reading) : Prop :=
  p.machine.boot ≠ r.machine.boot →
    (p.readable = true ∧ r.readable = true ∧ 0 < r.machine.uptime ∧
      r.machine.uptime + 60 < p.machine.uptime) ∨
    p.machine.kills = 0 ∨ r.machine.kills = 0

/-! ## The machine -/

/-- A machine later on. -/
def Later (m m' : Machine) : Prop :=
  m.boot < m'.boot ∨ m.boot = m'.boot ∧ m.uptime ≤ m'.uptime ∧ m.kills ≤ m'.kills

theorem Later.refl (m : Machine) : Later m m := .inr ⟨rfl, le_rfl, le_rfl⟩

theorem Later.trans {a b c : Machine} (hab : Later a b) (hbc : Later b c) : Later a c := by
  unfold Later at *
  omega

theorem later_next (m : Machine) (e : Event) : Later m (m.next e) := by
  cases e with
  | kill => exact .inr ⟨rfl, le_rfl, Nat.le_succ _⟩
  | run seconds => exact .inr ⟨rfl, Nat.le_add_right _ _, le_rfl⟩
  | reboot => exact .inl (Nat.lt_succ_self _)
  | report now oomKill readable => exact Later.refl m

theorem taken_later (m : Machine) (es : List Event) : ∀ r ∈ taken m es, Later m r.machine := by
  induction es generalizing m with
  | nil => exact fun _ h => absurd h List.not_mem_nil
  | cons e es ih =>
    intro r hr
    cases e with
    | report now oomKill readable =>
      rcases List.mem_cons.mp hr with rfl | hr
      · exact Later.refl m
      · exact ih m r hr
    | kill => exact (later_next m .kill).trans (ih _ r hr)
    | run seconds => exact (later_next m (.run seconds)).trans (ih _ r hr)
    | reboot => exact (later_next m .reboot).trans (ih _ r hr)

/-- Every report is of the machine later on than the one before it. -/
theorem taken_chain (m : Machine) (es : List Event) :
    (taken m es).IsChain fun p r => Later p.machine r.machine := by
  induction es generalizing m with
  | nil => exact .nil
  | cons e es ih =>
    cases e with
    | report now oomKill readable =>
      exact List.isChain_cons.mpr ⟨fun r hr => taken_later m es r (List.mem_of_mem_head? hr), ih m⟩
    | kill => exact ih _
    | run seconds => exact ih _
    | reboot => exact ih _

/-! ## One report -/

/-- What is stored is of this report. -/
def Holds (s : Server) (p : Reading) : Prop :=
  s.lastReport.oomTotal = some (p.machine.kills : Int) ∧ s.lastReport.uptime = p.body.uptime

theorem receive_holds (every : Int) (s : Server) (r : Reading) :
    Holds (receive every s r.now r.body) r := ⟨rfl, rfl⟩

/-- A report adds no more than the growth, and all of it when a reboot shows. -/
theorem delta_grown {s : Server} {p r : Reading} (hs : Holds s p)
    (hlater : Later p.machine r.machine) :
    (counterStep s.lastReport r.body).1 ≤ grown p r ∧
      ((counterStep s.lastReport r.body).1 = grown p r ↔ Shows p r) := by
  obtain ⟨htotal, huptime⟩ := hs
  have hbody : r.body.oomTotal = some (r.machine.kills : Int) := rfl
  have hreboot : rebooted s.lastReport r.body = true ↔ p.readable = true ∧ r.readable = true ∧
      0 < r.machine.uptime ∧ r.machine.uptime + 60 < p.machine.uptime := by
    unfold rebooted
    rw [huptime]
    unfold Reading.body
    cases p.readable <;> cases r.readable <;> simp
    omega
  unfold counterStep Shows grown
  simp only [htotal, hbody]
  unfold Later at hlater
  by_cases hboot : p.machine.boot = r.machine.boot
  · have hsame : rebooted s.lastReport r.body = false := by
      rw [Bool.eq_false_iff, Ne, hreboot]
      omega
    rw [hsame, if_neg Bool.false_ne_true, if_pos hboot]
    refine ⟨by omega, fun _ h => absurd hboot h, fun _ => by omega⟩
  · rw [if_neg hboot]
    by_cases hseen : rebooted s.lastReport r.body = true
    · rw [if_pos hseen]
      exact ⟨le_rfl, fun _ _ => .inl (hreboot.mp hseen), fun _ => rfl⟩
    · rw [if_neg hseen]
      rw [hreboot] at hseen
      refine ⟨by omega, fun heq _ => .inr (by omega), fun h => ?_⟩
      have hzero := (h hboot).resolve_left hseen
      omega

/-! ## A run of reports -/

theorem sum_counted (every : Int) {rs : List Reading} {s : Server} {p : Reading} (hs : Holds s p)
    (hchain : (p :: rs).IsChain fun p r => Later p.machine r.machine) :
    ((counted every s rs).map Prod.fst).sum ≤ growth (p :: rs) ∧
      (((counted every s rs).map Prod.fst).sum = growth (p :: rs) ↔ (p :: rs).IsChain Shows) := by
  induction rs generalizing s p with
  | nil => exact ⟨le_rfl, fun _ => .singleton p, fun _ => rfl⟩
  | cons r rs ih =>
    obtain ⟨hlater, hrest⟩ := List.isChain_cons_cons.mp hchain
    obtain ⟨hle, heq⟩ := delta_grown hs hlater
    obtain ⟨hsum, hall⟩ := ih (receive_holds every s r) hrest
    rw [List.isChain_cons_cons, ← heq, ← hall]
    simp only [counted, List.map_cons, List.sum_cons, growth]
    omega

theorem kept_snoc (every : Int) (s : Server) (rs : List Reading) (r : Reading) :
    kept every s (rs ++ [r]) = receive every (kept every s rs) r.now r.body := by
  simp [kept]

theorem counted_snoc (every : Int) (s : Server) (rs : List Reading) (r : Reading) :
    counted every s (rs ++ [r]) = counted every s rs ++
      [((counterStep (kept every s rs).lastReport r.body).1,
        writeMetric every (kept every s rs) r.now)] := by
  induction rs generalizing s with
  | nil => rfl
  | cons p rs ih =>
    rw [List.cons_append, counted, ih, counted, List.cons_append]
    rfl

theorem unwritten_snoc (log : List (Int × Bool)) (delta : Int) (write : Bool) :
    unwritten (log ++ [(delta, write)]) = if write then 0 else unwritten log + delta := by
  unfold unwritten
  rw [List.reverse_concat]
  cases write with
  | true => rfl
  | false =>
    rw [List.takeWhile_cons_of_pos rfl, List.map_cons, List.sum_cons, if_neg Bool.false_ne_true]
    omega

/-- What waits is what no point has. -/
theorem pend_kept (every : Int) (rs : List Reading) :
    (kept every {} rs).lastReport.oomPend = unwritten (counted every {} rs) := by
  induction rs using List.reverseRecOn with
  | nil => rfl
  | append_singleton rs r ih =>
    rw [kept_snoc, counted_snoc, unwritten_snoc, ← ih]
    rfl

/-- What the panel makes of a run of reports. -/
structure KillsKept (every : Int) (rs : List Reading) : Prop where
  /-- What the reports add is the growth that they show. -/
  sum : ((counted every {} rs).map Prod.fst).sum = own rs + growth rs
  pending : (kept every {} rs).lastReport.oomPend = unwritten (counted every {} rs)
  /-- A point gets all that waited, and what its report adds. -/
  points : ∀ pre r, pre ++ [r] <+: rs → ∀ kills,
    point every (kept every {} pre) r.now r.body = some kills →
      kills = some (unwritten (counted every {} pre) +
        (counterStep (kept every {} pre).lastReport r.body).1)

/-- The kills add up when every reboot shows. -/
theorem sum_taken (every : Int) (es : List Event) :
    ((counted every {} (taken {} es)).map Prod.fst).sum = own (taken {} es) + growth (taken {} es) ↔
      (taken {} es).IsChain Shows := by
  have hchain := taken_chain {} es
  cases hrs : taken {} es with
  | nil => exact ⟨fun _ => .nil, fun _ => rfl⟩
  | cons r rs =>
    rw [hrs] at hchain
    have hrun := (sum_counted every (receive_holds every {} r) hchain).2
    have hown : (counterStep ({} : Server).lastReport r.body).1 = own (r :: rs) := rfl
    rw [← hrun, counted, List.map_cons, List.sum_cons, hown]
    omega

theorem kills_are_kept (every : Int) (es : List Event) :
    KillsKept every (taken {} es) ↔ (taken {} es).IsChain Shows := by
  refine ⟨fun h => (sum_taken every es).mp h.sum,
    fun h => ⟨(sum_taken every es).mpr h, pend_kept every _, ?_⟩⟩
  intro pre r _ kills hpoint
  have hbody : r.body.oomTotal.isSome = true := rfl
  unfold point at hpoint
  rw [hbody, Bool.or_true] at hpoint
  split at hpoint
  · rw [← pend_kept]
    exact (Option.some.inj hpoint).symm
  · cases hpoint

/-- Two kills, a reboot and one more; at the second report the machine is up for longer than
at the first. -/
def longGap : List Event :=
  [.kill, .kill, .run 100, .report 0 none true, .reboot, .kill, .run 200,
    .report (sec 3600) none true]

/-- The kill after the reboot is not counted. -/
theorem reboot_in_a_long_gap : ¬ KillsKept 60 (taken {} longGap) := by
  intro h
  have hchain := (sum_taken 60 longGap).mp h.sum
  have hshows := (List.isChain_cons_cons.mp hchain).1 (by decide)
  exact absurd hshows (by decide)

end Kervax.OomCounter
