-- The rates and the latencies that are told of a service: what a rate is taken over, and in which
-- order and between which bounds the quantiles lie.
import Kervax.LlmMetrics
import Mathlib.Data.Rat.Floor
import Mathlib.Data.Set.Finite.Lemmas
import Mathlib.Tactic.FieldSimp
import Mathlib.Tactic.GCongr
import Mathlib.Tactic.Linarith
import Mathlib.Tactic.Positivity

namespace Kervax.Llm

open Kervax.Spools (Text)

/-! ## Rounding -/

theorem trunc_eq_floor {x : ℚ} (h : 0 ≤ x) : trunc x = ⌊x⌋ := by
  unfold trunc
  rw [Rat.floor_def', Int.tdiv_eq_ediv_of_nonneg (Rat.num_nonneg.mpr h)]

theorem roundTo_eq {n : ℕ} {x : ℚ} (h : 0 ≤ x) :
    roundTo n x = (⌊x * n + 1 / 2⌋ : ℚ) / n := by
  unfold roundTo
  rw [trunc_eq_floor (by positivity)]

theorem roundTo_nonneg (n : ℕ) {x : ℚ} (h : 0 ≤ x) : 0 ≤ roundTo n x := by
  have hfloor : 0 ≤ ⌊x * n + 1 / 2⌋ := Int.floor_nonneg.mpr (by positivity)
  rw [roundTo_eq h]
  exact div_nonneg (Int.cast_nonneg hfloor) (Nat.cast_nonneg n)

theorem roundTo_mono (n : ℕ) {x y : ℚ} (hx : 0 ≤ x) (h : x ≤ y) : roundTo n x ≤ roundTo n y := by
  have hfloor : ⌊x * n + 1 / 2⌋ ≤ ⌊y * n + 1 / 2⌋ :=
    Int.floor_le_floor (by gcongr)
  rw [roundTo_eq hx, roundTo_eq (hx.trans h)]
  exact div_le_div_of_nonneg_right (Int.cast_le.mpr hfloor) (Nat.cast_nonneg n)

/-- What has no more places is not rounded. -/
theorem roundTo_exact {n : ℕ} (hn : n ≠ 0) (k : ℕ) : roundTo n (k / n) = k / n := by
  have hn : (n : ℚ) ≠ 0 := Nat.cast_ne_zero.mpr hn
  have hfloor : ⌊(k : ℚ) / n * n + 1 / 2⌋ = k := by
    rw [div_mul_cancel₀ _ hn, Int.floor_eq_iff]
    constructor <;> push_cast <;> linarith
  rw [roundTo_eq (by positivity), hfloor, Int.cast_natCast]

/-! ## The window -/

/-- The looks that are kept after some bodies of an engine, each with its time. -/
def after (L : Lib) (engine : Engine) (run : List (Text × ℚ)) : List LlmSnap :=
  run.foldl (fun hist b => (llmCompute L { engine } b.1 hist b.2).2) []

/-- What one body gives. -/
def snap (L : Lib) (engine : Engine) (b : Text × ℚ) : LlmSnap := (lookAt L engine b.1 b.2).2

theorem llmCompute_keep (L : Lib) (inf : LlmInfo) (body : Text) (hist : List LlmSnap) (now : ℚ) :
    (llmCompute L inf body hist now).2 = keep hist (snap L inf.engine (body, now)) now := by
  unfold llmCompute snap
  dsimp only
  split <;> rfl

theorem after_snoc (L : Lib) (engine : Engine) (run : List (Text × ℚ)) (b : Text × ℚ) :
    after L engine (run ++ [b]) = keep (after L engine run) (snap L engine b) b.2 := by
  unfold after
  rw [List.foldl_concat, llmCompute_keep]

theorem trim_suffix (now : ℚ) (hist : List LlmSnap) : trim now hist <:+ hist := by
  fun_induction trim now hist with
  | case1 a b hist h ih => exact ih.trans (List.suffix_cons a (b :: hist))
  | case2 a b hist h => exact List.suffix_refl _
  | case3 hist h => exact List.suffix_refl _

theorem trim_last (now : ℚ) (hist : List LlmSnap) : (trim now hist).getLast? = hist.getLast? := by
  fun_induction trim now hist with
  | case1 a b hist h ih => rw [ih, List.getLast?_cons_cons]
  | case2 a b hist h => rfl
  | case3 hist h => rfl

theorem keep_suffix (hist : List LlmSnap) (s : LlmSnap) (now : ℚ) :
    keep hist s now <:+ hist ++ [s] := by
  unfold keep
  refine (trim_suffix ..).trans ?_
  split
  · exact List.suffix_append ..
  · exact List.suffix_refl _

theorem keep_last (hist : List LlmSnap) (s : LlmSnap) (now : ℚ) :
    (keep hist s now).getLast? = some s := by
  unfold keep
  rw [trim_last, List.getLast?_concat]

/-- No counter goes down between two looks that are kept one after the other. -/
theorem keep_chain {hist : List LlmSnap} (h : hist.IsChain fun a b => llmReset a b = false)
    (s : LlmSnap) (now : ℚ) : (keep hist s now).IsChain fun a b => llmReset a b = false := by
  unfold keep
  refine List.IsChain.suffix ?_ (trim_suffix ..)
  split
  · exact List.isChain_singleton _
  · next hreset =>
    refine List.isChain_append.mpr ⟨h, List.isChain_singleton _, ?_⟩
    intro prev hprev y hy
    obtain rfl : s = y := by simpa using hy
    refine Bool.eq_false_iff.mpr fun hdown => hreset ?_
    exact (Option.any_eq_true _ _).mpr ⟨prev, hprev, hdown⟩

theorem after_window (L : Lib) (engine : Engine) (run : List (Text × ℚ)) :
    after L engine run <:+ run.map (snap L engine) ∧
      (after L engine run).IsChain fun a b => llmReset a b = false := by
  induction run using List.reverseRecOn with
  | nil => exact ⟨List.suffix_refl _, List.isChain_nil⟩
  | append_singleton run b ih =>
    rw [after_snoc, List.map_append, List.map_singleton]
    refine ⟨(keep_suffix ..).trans ?_, keep_chain ih.2 _ _⟩
    obtain ⟨older, holder⟩ := ih.1
    exact ⟨older, by rw [← holder, List.append_assoc]⟩

/-- A counter that every look of the window carries does not go down in it. -/
theorem window_grows {hist : List LlmSnap} (h : hist.IsChain fun a b => llmReset a b = false)
    (k : Counter) (hall : ∀ s ∈ hist, (s.ctr k).isSome) :
    hist.Pairwise fun a b => ∀ x y, a.ctr k = some x → b.ctr k = some y → x ≤ y := by
  -- The values of the looks, in order, are a chain of numbers, so they are in order.
  have hchain : hist.IsChain fun a b => (a.ctr k).getD 0 ≤ (b.ctr k).getD 0 := by
    refine h.imp_of_mem_imp fun a b ha hb hreset => ?_
    obtain ⟨x, hx⟩ := Option.isSome_iff_exists.mp (hall a ha)
    obtain ⟨y, hy⟩ := Option.isSome_iff_exists.mp (hall b hb)
    have hk := List.any_eq_false.mp hreset k (by cases k <;> decide)
    simp only [hx, hy, decide_eq_true_eq, not_lt] at hk
    simpa [hx, hy] using hk
  have hpair := List.isChain_iff_pairwise.mp ((List.isChain_map _).mpr hchain)
  refine (List.pairwise_map.mp hpair).imp fun hle x y hx hy => ?_
  simpa [hx, hy] using hle

/-! ## The rates -/

/-- What is told of a counter. -/
def LlmInfo.number (inf : LlmInfo) : Counter → Option ℚ
  | .req => inf.reqS
  | .prompt => inf.promptTPS
  | .gen => inf.genTPS
  | .preempt => inf.preempt
  | .err => inf.errors
  | .abort => inf.aborted

/-- The number for what came to a counter in some seconds: a rate, or the count itself. -/
def told (k : Counter) (d sec : ℚ) : ℚ :=
  match k with
  | .req => round2 (d / sec)
  | .prompt | .gen => round1 (d / sec)
  | .preempt | .err | .abort => d

theorem told_nonneg (k : Counter) {d sec : ℚ} (hd : 0 ≤ d) (hsec : 0 ≤ sec) :
    0 ≤ told k d sec := by
  cases k with
  | req => exact roundTo_nonneg 100 (div_nonneg hd hsec)
  | prompt | gen => exact roundTo_nonneg 10 (div_nonneg hd hsec)
  | preempt | err | abort => exact hd

theorem llmCompute_number {L : Lib} {inf : LlmInfo} {body : Text} {hist : List LlmSnap} {now : ℚ}
    {first : LlmSnap} (h : (keep hist (snap L inf.engine (body, now)) now).head? = some first)
    (k : Counter) :
    (llmCompute L inf body hist now).1.number k =
      if now - first.at' < llmMinWin then inf.number k
      else (first.ctr k).bind fun x =>
        ((snap L inf.engine (body, now)).ctr k).map fun y => told k (y - x) (now - first.at') := by
  have hsnap : (lookAt L inf.engine body now).2 = snap L inf.engine (body, now) := rfl
  have hbase (s : LlmSnap) : (keep hist (snap L inf.engine (body, now)) now).headD s = first := by
    rw [List.headD_eq_head?_getD, h, Option.getD_some]
  unfold llmCompute
  dsimp only
  rw [hsnap, hbase]
  split
  · cases k <;> rfl
  · cases hx : first.ctr k with
    | none => cases k <;> simp [LlmInfo.number, hx]
    | some x =>
      cases hy : (snap L inf.engine (body, now)).ctr k with
      | none => cases k <;> simp [LlmInfo.number, hx, hy]
      | some y => cases k <;> simp [LlmInfo.number, told, hx, hy]

/-- A number that is told comes of the oldest look of the window and the look itself. -/
theorem number_spec {L : Lib} {inf : LlmInfo} {body : Text} {hist : List LlmSnap} {now : ℚ}
    {k : Counter} {v : ℚ} (hinf : inf.number k = none)
    (h : (llmCompute L inf body hist now).1.number k = some v) :
    ∃ first x y, (keep hist (snap L inf.engine (body, now)) now).head? = some first ∧
      first.ctr k = some x ∧ (snap L inf.engine (body, now)).ctr k = some y ∧
      llmMinWin ≤ now - first.at' ∧ v = told k (y - x) (now - first.at') := by
  obtain ⟨first, hfirst⟩ : ∃ first,
      (keep hist (snap L inf.engine (body, now)) now).head? = some first := by
    refine Option.ne_none_iff_exists'.mp fun hnone => ?_
    have hlast := keep_last hist (snap L inf.engine (body, now)) now
    rw [List.head?_eq_none_iff.mp hnone] at hlast
    cases hlast
  rw [llmCompute_number hfirst] at h
  split at h
  · rw [hinf] at h
    cases h
  · next hsec =>
    obtain ⟨x, hx, hdiff⟩ := Option.bind_eq_some_iff.mp h
    obtain ⟨y, hy, rfl⟩ := Option.map_eq_some_iff.mp hdiff
    exact ⟨first, x, y, hfirst, hx, hy, not_lt.mp hsec, rfl⟩

/-! ## The quantiles -/

theorem growth_bounds {below : Option ℚ} {as bs ds : List (WithTop ℚ × ℚ)}
    (h : growth below as bs = some ds) : ds.map Prod.fst = bs.map Prod.fst := by
  fun_induction growth below as bs generalizing ds with
  | case1 =>
    cases h
    rfl
  | case2 => cases h
  | case3 below a as b bs hsame d =>
    rename_i ih
    obtain ⟨rest, hrest, rfl⟩ := Option.map_eq_some_iff.mp h
    rw [List.map_cons, List.map_cons, ih hrest]
  | case4 => cases h

/-- The turn of the loop at an infinite bound. -/
theorem quantile_top {rank d : ℚ} (lo below : ℚ) (ds : List (WithTop ℚ × ℚ)) (h : rank ≤ d) :
    quantile rank lo below ((⊤, d) :: ds) = some lo := by
  unfold quantile
  exact if_pos h

theorem quantile_at_top {rank lo below d v : ℚ} {ds : List (WithTop ℚ × ℚ)}
    (h : quantile rank lo below ((⊤, d) :: ds) = some v) : lo = v := by
  by_cases hr : rank ≤ d
  · rw [quantile_top lo below ds hr] at h
    exact Option.some.inj h
  · unfold quantile at h
    rw [if_neg hr] at h
    cases h

/-- The turn that finds the rank: it divides by no zero, as the rank lies above the count below. -/
theorem quantile_here {rank below d : ℚ} (lo le : ℚ) (ds : List (WithTop ℚ × ℚ))
    (hbelow : below < rank) (h : rank ≤ d) :
    quantile rank lo below ((↑le, d) :: ds) =
      some (lo + (le - lo) * (rank - below) / (d - below)) := by
  have hdiff : d - below ≠ 0 := (sub_pos.mpr (hbelow.trans_le h)).ne'
  unfold quantile
  rw [if_pos h]
  simp only [quot, if_neg hdiff, if_neg (hbelow.trans_le h).ne', Option.map_some]

/-- The turn that goes on. -/
theorem quantile_next {rank d : ℚ} (lo below le : ℚ) (ds : List (WithTop ℚ × ℚ)) (h : d < rank) :
    quantile rank lo below ((↑le, d) :: ds) = quantile rank le d ds := by
  rw [quantile.eq_def]
  exact if_neg h.not_ge

/-- The buckets from a bound on. -/
structure Ready (lo : ℚ) (ds : List (WithTop ℚ × ℚ)) : Prop where
  grows : (ds.map Prod.fst).Pairwise (· < ·)
  above : ∀ x ∈ ds, (lo : WithTop ℚ) ≤ x.1

theorem Ready.le {lo le d : ℚ} {ds : List (WithTop ℚ × ℚ)} (h : Ready lo ((↑le, d) :: ds)) :
    lo ≤ le :=
  WithTop.coe_le_coe.mp (h.above _ List.mem_cons_self)

theorem Ready.next {lo le d : ℚ} {ds : List (WithTop ℚ × ℚ)} (h : Ready lo ((↑le, d) :: ds)) :
    Ready le ds where
  grows := (List.pairwise_cons.mp h.grows).2
  above x hx := ((List.pairwise_cons.mp h.grows).1 x.1 (List.mem_map_of_mem hx)).le

/-- The bounds grow, so an infinite one is the last. -/
theorem next_finite {le : WithTop ℚ} {d : ℚ} {ds : List (WithTop ℚ × ℚ)}
    (h : (((le, d) :: ds).map Prod.fst).Pairwise (· < ·)) {x : WithTop ℚ × ℚ} (hx : x ∈ ds) :
    ∃ y : ℚ, le = y := by
  have hlt : le < x.1 := (List.pairwise_cons.mp h).1 x.1 (List.mem_map_of_mem hx)
  exact (WithTop.ne_top_iff_exists.mp hlt.ne_top).imp fun _ => Eq.symm

/-- Where some bucket has the rank, the loop ends, and it divides by no zero. -/
theorem quantile_total {rank lo below : ℚ} {ds : List (WithTop ℚ × ℚ)}
    (hgrows : (ds.map Prod.fst).Pairwise (· < ·)) (hbelow : below < rank)
    (hrank : ∃ x ∈ ds, rank ≤ x.2) : ∃ v, quantile rank lo below ds = some v := by
  induction ds generalizing lo below with
  | nil => exact ⟨lo, rfl⟩
  | cons bucket ds ih =>
    obtain ⟨le, d⟩ := bucket
    by_cases h : rank ≤ d
    · cases le using WithTop.recTopCoe with
      | top => exact ⟨lo, quantile_top lo below ds h⟩
      | coe le => exact ⟨_, quantile_here lo le ds hbelow h⟩
    · obtain ⟨x, hx, hxr⟩ := hrank
      rcases List.mem_cons.mp hx with rfl | hlater
      · exact absurd hxr h
      · obtain ⟨le, rfl⟩ := next_finite hgrows hlater
        rw [quantile_next lo below le ds (not_le.mp h)]
        exact ih (List.pairwise_cons.mp hgrows).2 (not_le.mp h) ⟨x, hlater, hxr⟩

theorem share_between {lo le a b : ℚ} (h : lo ≤ le) (ha : 0 ≤ a) (hab : a ≤ b) :
    lo ≤ lo + (le - lo) * a / b ∧ lo + (le - lo) * a / b ≤ le := by
  have hwidth : 0 ≤ le - lo := sub_nonneg.mpr h
  have hb : 0 ≤ b := ha.trans hab
  have hpart : 0 ≤ (le - lo) * a / b := div_nonneg (mul_nonneg hwidth ha) hb
  have hwhole : (le - lo) * a / b ≤ le - lo := by
    rw [mul_div_assoc]
    exact mul_le_of_le_one_right hwidth (div_le_one_of_le₀ hab hb)
  constructor <;> linarith

/-- A quantile lies between the bound below the buckets and any number above the finite ones. -/
theorem quantile_between {rank lo below v : ℚ} {ds : List (WithTop ℚ × ℚ)} (hds : Ready lo ds)
    (hbelow : below < rank) (h : quantile rank lo below ds = some v) :
    lo ≤ v ∧ ∀ m, lo ≤ m → (∀ x ∈ ds, ∀ y : ℚ, x.1 = y → y ≤ m) → v ≤ m := by
  induction ds generalizing lo below with
  | nil =>
    cases h
    exact ⟨le_refl _, fun m hm _ => hm⟩
  | cons bucket ds ih =>
    obtain ⟨le, d⟩ := bucket
    cases le using WithTop.recTopCoe with
    | top =>
      obtain rfl : lo = v := quantile_at_top h
      exact ⟨le_refl _, fun m hm _ => hm⟩
    | coe le =>
      by_cases hr : rank ≤ d
      · rw [quantile_here lo le ds hbelow hr] at h
        cases h
        have hshare := share_between hds.le (sub_nonneg.mpr hbelow.le) (sub_le_sub_right hr below)
        exact ⟨hshare.1, fun m _ hmost => hshare.2.trans (hmost _ List.mem_cons_self le rfl)⟩
      · rw [quantile_next lo below le ds (not_le.mp hr)] at h
        have hrest := ih hds.next (not_le.mp hr) h
        refine ⟨hds.le.trans hrest.1, fun m _ hmost => ?_⟩
        exact hrest.2 m (hmost _ List.mem_cons_self le rfl) fun x hx => hmost x (.tail _ hx)

/-- A larger rank has no smaller quantile. -/
theorem quantile_mono {rank rank' lo below v v' : ℚ} {ds : List (WithTop ℚ × ℚ)}
    (hds : Ready lo ds) (hbelow : below < rank) (hle : rank ≤ rank')
    (h : quantile rank lo below ds = some v) (h' : quantile rank' lo below ds = some v') :
    v ≤ v' := by
  induction ds generalizing lo below with
  | nil =>
    cases h
    cases h'
    exact le_refl _
  | cons bucket ds ih =>
    obtain ⟨le, d⟩ := bucket
    have hbelow' : below < rank' := hbelow.trans_le hle
    cases le using WithTop.recTopCoe with
    | top => rw [← quantile_at_top h, ← quantile_at_top h']
    | coe le =>
      by_cases hr' : rank' ≤ d
      · -- Both lie in this bucket.
        rw [quantile_here lo le ds hbelow (hle.trans hr')] at h
        rw [quantile_here lo le ds hbelow' hr'] at h'
        cases h
        cases h'
        have hwidth : 0 ≤ le - lo := sub_nonneg.mpr hds.le
        have hcount : 0 ≤ d - below := sub_nonneg.mpr (hbelow'.le.trans hr')
        gcongr
      · rw [quantile_next lo below le ds (not_le.mp hr')] at h'
        by_cases hr : rank ≤ d
        · -- The bound of this bucket lies between them.
          rw [quantile_here lo le ds hbelow hr] at h
          cases h
          have hshare :=
            share_between hds.le (sub_nonneg.mpr hbelow.le) (sub_le_sub_right hr below)
          have hrest := quantile_between hds.next (not_le.mp hr') h'
          exact hshare.2.trans hrest.1
        · rw [quantile_next lo below le ds (not_le.mp hr)] at h
          exact ih hds.next (not_le.mp hr) h h'

/-- The largest finite bound. -/
structure Largest (h : LlmHist) (m : ℚ) : Prop where
  mem : (m : WithTop ℚ) ∈ h.buckets.map Prod.fst
  most : ∀ y : ℚ, (y : WithTop ℚ) ∈ h.buckets.map Prod.fst → y ≤ m

/-- The first of the two buckets is finite, so there is a largest. -/
theorem exists_largest (h : LlmHist) : ∃ m, Largest h m := by
  let bounds : Set ℚ := {y | (y : WithTop ℚ) ∈ h.buckets.map Prod.fst}
  have hfinite : bounds.Finite :=
    (List.finite_toSet (h.buckets.map Prod.fst)).preimage WithTop.coe_injective.injOn
  have hsome : bounds.Nonempty := by
    match hb : h.buckets, h.two with
    | (le, d) :: next :: ds, _ =>
      obtain ⟨y, hy⟩ := next_finite (hb ▸ h.grows) List.mem_cons_self
      exact ⟨y, by simp [bounds, hb, hy]⟩
  obtain ⟨m, hmem, hmost⟩ := Set.exists_max_image bounds id hfinite hsome
  exact ⟨m, hmem, hmost⟩

/-- The last bucket has every rank up to the total. -/
theorem rank_reached {ds : List (WithTop ℚ × ℚ)} {p total : ℚ}
    (htotal : (ds.getLast?.map Prod.snd).getD 0 = total) (hpos : 0 < total) (hp : p ≤ 1) :
    ∃ x ∈ ds, p * total ≤ x.2 := by
  cases hlast : ds.getLast? with
  | none =>
    rw [hlast] at htotal
    exact absurd htotal hpos.ne
  | some x =>
    rw [hlast] at htotal
    refine ⟨x, List.mem_of_getLast? hlast, ?_⟩
    calc p * total ≤ total := mul_le_of_le_one_left hpos.le hp
      _ = x.2 := htotal.symm

/-- Either nothing is told, or the quantiles of what came to the buckets, rounded. -/
theorem histQuantiles_spec (a b : LlmHist) :
    histQuantiles (some a) (some b) = some none ∨
      ∃ ds total v50 v95 v99, growth none a.buckets b.buckets = some ds ∧ 0 < total ∧
        quantile (1 / 2 * total) 0 0 ds = some v50 ∧
        quantile (95 / 100 * total) 0 0 ds = some v95 ∧
        quantile (99 / 100 * total) 0 0 ds = some v99 ∧
        histQuantiles (some a) (some b) = some (some ⟨round4 v50, round4 v95, round4 v99⟩) := by
  cases hds : growth none a.buckets b.buckets with
  | none => exact .inl (by simp [histQuantiles, hds])
  | some ds =>
    generalize htotal : (ds.getLast?.map Prod.snd).getD 0 = total
    rcases le_or_gt total 0 with hnot | hpos
    · exact .inl (by simp [histQuantiles, hds, htotal, hnot])
    · have hgrows : (ds.map Prod.fst).Pairwise (· < ·) := growth_bounds hds ▸ b.grows
      have hq {p : ℚ} (hp0 : 0 < p) (hp1 : p ≤ 1) : ∃ v, quantile (p * total) 0 0 ds = some v :=
        quantile_total hgrows (mul_pos hp0 hpos) (rank_reached htotal hpos hp1)
      obtain ⟨v50, h50⟩ := @hq (1 / 2) (by norm_num) (by norm_num)
      obtain ⟨v95, h95⟩ := @hq (95 / 100) (by norm_num) (by norm_num)
      obtain ⟨v99, h99⟩ := @hq (99 / 100) (by norm_num) (by norm_num)
      refine .inr ⟨ds, total, v50, v95, v99, rfl, hpos, h50, h95, h99, ?_⟩
      simp only [histQuantiles, hds, htotal, if_neg hpos.not_ge, h50, h95, h99, Option.map_some,
        Option.bind_some]

/-- The quantiles, in order and between the bounds. -/
structure Quantiles.Between (q : Quantiles) (m : ℚ) : Prop where
  nonneg : 0 ≤ q.p50
  middle : q.p50 ≤ q.p95
  upper : q.p95 ≤ q.p99
  top : q.p99 ≤ round4 m

theorem histQuantiles_total (a b : Option LlmHist) : ∃ r, histQuantiles a b = some r := by
  cases a with
  | none => exact ⟨none, rfl⟩
  | some a =>
    cases b with
    | none => exact ⟨none, rfl⟩
    | some b =>
      rcases histQuantiles_spec a b with h | ⟨_, _, _, _, _, _, _, _, _, _, h⟩
      · exact ⟨_, h⟩
      · exact ⟨_, h⟩

theorem histQuantiles_between {a b : LlmHist} {q : Quantiles} {m : ℚ}
    (hb : ∀ x ∈ b.buckets, 0 ≤ x.1) (hm : Largest b m)
    (h : histQuantiles (some a) (some b) = some (some q)) : q.Between m := by
  rcases histQuantiles_spec a b with hnone | ⟨ds, total, v50, v95, v99, hds, hpos, h50, h95, h99, hq⟩
  · rw [hnone] at h
    cases h
  · have hbounds := growth_bounds hds
    have hmem {x : WithTop ℚ × ℚ} (hx : x ∈ ds) : x.1 ∈ b.buckets.map Prod.fst :=
      hbounds ▸ List.mem_map_of_mem hx
    have hready : Ready 0 ds :=
      { grows := hbounds ▸ b.grows
        above := fun x hx => by
          obtain ⟨y, hy, hxy⟩ := List.mem_map.mp (hmem hx)
          exact hxy ▸ hb y hy }
    have hrank {p : ℚ} (hp : 0 < p) : 0 < p * total := mul_pos hp hpos
    have hm0 : 0 ≤ m := by
      obtain ⟨y, hy, hym⟩ := List.mem_map.mp hm.mem
      exact WithTop.coe_nonneg.mp (hym ▸ hb y hy)
    have h0 := (quantile_between hready (hrank (by norm_num)) h50).1
    have hmore {p p' : ℚ} (hp : p ≤ p') : p * total ≤ p' * total :=
      mul_le_mul_of_nonneg_right hp hpos.le
    have hmid : v50 ≤ v95 :=
      quantile_mono hready (hrank (by norm_num)) (hmore (by norm_num)) h50 h95
    have hup : v95 ≤ v99 :=
      quantile_mono hready (hrank (by norm_num)) (hmore (by norm_num)) h95 h99
    have htop : v99 ≤ m := (quantile_between hready (hrank (by norm_num)) h99).2 m hm0
      fun x hx y hy => hm.most y (hy ▸ hmem hx)
    obtain rfl : _ = q := Option.some.inj (Option.some.inj (hq.symm.trans h))
    exact
      { nonneg := roundTo_nonneg _ h0
        middle := roundTo_mono _ h0 hmid
        upper := roundTo_mono _ (h0.trans hmid) hup
        top := roundTo_mono _ (h0.trans (hmid.trans hup)) htop }

/-- What is told of a service, for every run of looks at it and every two histograms. -/
structure ServicesLaw : Prop where
  /-- The looks that are kept are the last ones, and no counter went down from one of them to the
  next. -/
  window : ∀ (L : Lib) (engine : Engine) (run : List (Text × ℚ)),
    after L engine run <:+ run.map (snap L engine) ∧
      (after L engine run).IsChain fun a b => llmReset a b = false
  /-- A number is told over the whole of the window. -/
  taken : ∀ (L : Lib) (engine : Engine) (model : Text) (run : List (Text × ℚ)) (body : Text)
    (now : ℚ) (k : Counter) (v : ℚ),
    (llmCompute L { engine, model } body (after L engine run) now).1.number k = some v →
      ∃ first x y, (after L engine (run ++ [(body, now)])).head? = some first ∧
        first.ctr k = some x ∧ (snap L engine (body, now)).ctr k = some y ∧
        llmMinWin ≤ now - first.at' ∧ v = told k (y - x) (now - first.at')
  /-- A counter that all looks of the window carry does not go down anywhere in the window, and
  what is told of it is not negative. -/
  rates : ∀ (L : Lib) (engine : Engine) (model : Text) (run : List (Text × ℚ)) (body : Text)
    (now : ℚ) (k : Counter),
    (∀ s ∈ after L engine (run ++ [(body, now)]), (s.ctr k).isSome) →
      ((after L engine (run ++ [(body, now)])).Pairwise fun a b =>
        ∀ x y, a.ctr k = some x → b.ctr k = some y → x ≤ y) ∧
      ∀ v, (llmCompute L { engine, model } body (after L engine run) now).1.number k = some v →
        0 ≤ v
  /-- No quantile divides by zero. -/
  divides : ∀ a b : Option LlmHist, ∃ r, histQuantiles a b = some r
  /-- The quantiles are in order and end at the largest finite bound, rounded; at that bound itself
  when it has no more than four places. -/
  quantiles : ∀ (a b : LlmHist) (q : Quantiles), (∀ x ∈ b.buckets, 0 ≤ x.1) →
    histQuantiles (some a) (some b) = some (some q) →
      ∃ m, Largest b m ∧ q.Between m ∧ ∀ n : ℕ, m = n / 10000 → q.p99 ≤ m

theorem after_head {L : Lib} {engine : Engine} {run : List (Text × ℚ)} {b : Text × ℚ}
    {first : LlmSnap} (h : (after L engine (run ++ [b])).head? = some first) :
    first = snap L engine b ∨
      ∃ older, after L engine (run ++ [b]) = first :: older ∧ snap L engine b ∈ older := by
  have hlast : (after L engine (run ++ [b])).getLast? = some (snap L engine b) := by
    rw [after_snoc, keep_last]
  cases hkept : after L engine (run ++ [b]) with
  | nil => rw [hkept] at h; cases h
  | cons x older =>
    rw [hkept] at h hlast
    cases h
    cases older with
    | nil => exact .inl (Option.some.inj hlast)
    | cons y older =>
      rw [List.getLast?_cons_cons] at hlast
      exact .inr ⟨_, rfl, List.mem_of_getLast? hlast⟩

theorem number_window {L : Lib} {engine : Engine} {model : Text} {run : List (Text × ℚ)}
    {body : Text} {now : ℚ} {k : Counter} {v : ℚ}
    (h : (llmCompute L { engine, model } body (after L engine run) now).1.number k = some v) :
    ∃ first x y, (after L engine (run ++ [(body, now)])).head? = some first ∧
      first.ctr k = some x ∧ (snap L engine (body, now)).ctr k = some y ∧
      llmMinWin ≤ now - first.at' ∧ v = told k (y - x) (now - first.at') := by
  have hnone : ({ engine, model } : LlmInfo).number k = none := by cases k <;> rfl
  have hspec := number_spec hnone h
  rwa [after_snoc]

theorem services_told : ServicesLaw := by
  constructor
  case window => exact after_window
  case taken => exact fun _ _ _ _ _ _ _ _ => number_window
  case rates =>
    intro L engine model run body now k hall
    have hgrows := window_grows (after_window L engine (run ++ [(body, now)])).2 k hall
    refine ⟨hgrows, fun v hv => ?_⟩
    obtain ⟨first, x, y, hfirst, hx, hy, hsec, rfl⟩ := number_window hv
    have hxy : x ≤ y := by
      rcases after_head hfirst with rfl | ⟨older, hkept, hmem⟩
      · exact (Option.some.inj (hx.symm.trans hy)).le
      · rw [hkept] at hgrows
        exact (List.pairwise_cons.mp hgrows).1 _ hmem x y hx hy
    have hmin : (0 : ℚ) ≤ llmMinWin := by norm_num [llmMinWin]
    exact told_nonneg k (sub_nonneg.mpr hxy) (hmin.trans hsec)
  case divides => exact histQuantiles_total
  case quantiles =>
    intro a b q hb hq
    obtain ⟨m, hm⟩ := exists_largest b
    have hbetween := histQuantiles_between hb hm hq
    refine ⟨m, hm, hbetween, fun n hn => hbetween.top.trans ?_⟩
    have hexact := roundTo_exact (n := 10000) (by norm_num) n
    rw [Nat.cast_ofNat] at hexact
    rw [hn, round4, hexact]

/-- Numbers without a point. -/
def digits : Lib where
  parseFloat f :=
    if f = "+Inf".toList then some ⊤
    else if f ≠ [] ∧ f.all Char.isDigit then
      some ((f.foldl (fun n c => n * 10 + (c.toNat - 48)) 0 : ℕ) : ℚ)
    else none

/-- Two buckets with one finite bound. -/
def pair (le lower all : ℚ) : LlmHist where
  buckets := [(le, lower), (⊤, all)]
  two := le_refl 2
  grows := by
    refine List.pairwise_pair.mpr ?_
    exact WithTop.coe_lt_top le

/-- A restart that one look without the counter hides gives a negative rate; a quantile rounds to
more than the only finite bound; and below zero the quantiles are negative and out of order. -/
theorem rate_negative :
    (llmCompute digits { engine := .vllm }
        "vllm:request_success_total\x7bfinished_reason=\"stop\"\x7d 10\n".toList
        (after digits .vllm
          [("vllm:request_success_total\x7bfinished_reason=\"stop\"\x7d 100\n".toList, 0),
            ("vllm:num_requests_running 0\n".toList, 60)]) 120).1.reqS = some (-74 / 100) ∧
      histQuantiles (some (pair (18 / 100000) 0 0)) (some (pair (18 / 100000) 10 10)) =
        some (some ⟨1 / 10000, 2 / 10000, 2 / 10000⟩) ∧
      histQuantiles (some (pair (-1) 0 0)) (some (pair (-1) 10 10)) =
        some (some ⟨-4999 / 10000, -9499 / 10000, -9899 / 10000⟩) := by
  decide +kernel

end Kervax.Llm
