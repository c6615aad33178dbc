-- Runs of the OOM alert: an episode of kills is counted once, by a message or by what is
-- held for the next one, as long as a record that comes late does not reach back to an
-- episode that was counted.
import Kervax.OomSteps
import Mathlib.Tactic.Linarith

namespace Kervax.Oom

open Clusters

/-! ## Episodes and groups -/

theorem eps_kills (t : Tick) : t.eps.map Episode.kills = clusters Kill.ts gap t.kills := by
  unfold Tick.eps episodes
  rw [List.map_pmap]
  exact List.pmap_eq_self.mpr fun _ _ => rfl

theorem kills_of_ep {t : Tick} {e : Episode} (he : e ∈ t.eps) :
    e.kills ∈ clusters Kill.ts gap t.kills := by
  rw [← eps_kills]
  exact List.mem_map_of_mem he

theorem ep_of_kill {t : Tick} {k : Kill} (hk : k ∈ t.kills) : ∃ e ∈ t.eps, k ∈ e.kills := by
  obtain ⟨c, hc, hkc⟩ := (@mem_clusters Kill Kill.ts gap t.kills k).mpr hk
  rw [← eps_kills] at hc
  obtain ⟨e, he, rfl⟩ := List.mem_map.mp hc
  exact ⟨e, he, hkc⟩

theorem gap_pos : 0 ≤ gap := by decide

theorem le_stop {t : Tick} {e : Episode} (he : e ∈ t.eps) {k : Kill} (hk : k ∈ e.kills) :
    k.ts ≤ e.stop :=
  (chain_of_cluster (kills_of_ep he)).le_getLast e.some hk

theorem stop_mem (e : Episode) : e.kills.getLast e.some ∈ e.kills := List.getLast_mem e.some

/-- An episode that has a kill no later than another one ends is over no later. -/
theorem stop_le {t : Tick} {e r : Episode} (he : e ∈ t.eps) (hr : r ∈ t.eps) {k : Kill}
    (hk : k ∈ e.kills) (hle : k.ts ≤ r.stop) : e.stop ≤ r.stop := by
  rcases eq_or_apart (kills_of_ep he) (kills_of_ep hr) with h | h | h
  · unfold Episode.stop
    simp only [h, le_refl]
  · have hfar := h _ (stop_mem e) _ (stop_mem r)
    simp only [gap, sec, Episode.stop] at hfar ⊢
    linarith
  · have hfar := h k hk _ (stop_mem r)
    simp only [gap, sec, Episode.stop] at hfar hle
    linarith

theorem latest_spec {eps : List Episode} (h : eps ≠ []) :
    (∃ e ∈ eps, e.stop = latest eps) ∧ ∀ e ∈ eps, e.stop ≤ latest eps := by
  unfold latest
  have hne : eps.map Episode.stop ≠ [] := by simpa using h
  obtain ⟨m, hm⟩ := Option.isSome_iff_exists.mp (List.isSome_max?_of_ne_nil hne)
  rw [hm, Option.getD_some]
  obtain ⟨hmem, hle⟩ := List.max?_eq_some_iff.mp hm
  obtain ⟨e, he, hstop⟩ := List.mem_map.mp hmem
  exact ⟨⟨e, he, hstop⟩, fun e he => hle _ (List.mem_map_of_mem he)⟩

/-! ## One tick -/

theorem next_block (w : World) (t : Tick) : (next w t).block = t.kills := by
  unfold next
  dsimp only
  split
  · rfl
  · split <;> rfl

theorem next_known (w : World) (t : Tick) : (next w t).known = w.known ++ t.kills := by
  unfold next
  dsimp only
  split
  · rfl
  · split <;> rfl

theorem next_base (w : World) (t : Tick) :
    (next w t).base = w.base.or (if t.block.isSome then some (doneAt w.st t) else none) := by
  unfold next
  dsimp only
  split
  · rfl
  · split <;> rfl

/-- The message of the tick does not arrive. -/
def Lost (w : World) (t : Tick) : Prop :=
  (alertStep w.st t).fire.isSome ∧ t.delivered = false

section

variable {w w' : World} {xs : List Item}

theorem perm_held (h1 : w'.held = w.held ++ xs) (h2 : w'.told = w.told) :
    (entries w').Perm (entries w ++ xs) := by
  unfold entries
  rw [h1, h2, List.append_assoc, List.append_assoc]
  exact List.Perm.append_left _ List.perm_append_comm

theorem perm_told {m : Told} (hm : m.items = w.held ++ xs) (h1 : w'.held = [])
    (h2 : w'.told = m :: w.told) : (entries w').Perm (entries w ++ xs) := by
  unfold entries
  rw [h1, h2, List.nil_append, List.flatMap_cons, hm, List.append_assoc, List.append_assoc]
  exact List.Perm.append_left _ List.perm_append_comm

end

/-- What a tick counts joins what was counted, and what it writes is the end of the last
episode it counts. -/
theorem moved (w : World) {t : Tick} (hm : t.oomMuted = false ∧ ∀ e, t.muted e = false) :
    (ready w.st t ≠ [] ∧ (next w t).st.oomEnd = some (latest (ready w.st t)) ∧
        (entries (next w t)).Perm (entries w ++ readyItems w.st t)) ∨
      ((Lost w t ∨ ready w.st t = []) ∧
        (next w t).st.oomEnd = (firstApply w.st t).oomEnd.or w.st.oomEnd ∧
        ∃ xs, (∀ x ∈ xs, x.ep = none) ∧ (entries (next w t)).Perm (entries w ++ xs)) := by
  have hstep := result w.st hm
  unfold Lost next
  generalize alertStep w.st t = o at hstep
  cases hstep with
  | held hready _ ids _ => exact .inl ⟨hready, by simp [St.apply, Upd.and, readyUpd], perm_held rfl rfl⟩
  | told hready lvl _ text _ =>
    dsimp only
    split
    · exact .inl ⟨hready, by simp [St.apply, Upd.and, readyUpd, sentUpd], perm_told rfl rfl rfl⟩
    · next hlost =>
      exact .inr ⟨.inl ⟨rfl, by simpa using hlost⟩, rfl, [], by simp,
        perm_held (List.append_nil _).symm rfl⟩
  | again hready _ lvl text _ =>
    dsimp only
    split
    · refine .inr ⟨.inr hready, by simp [St.apply, sentUpd], [], by simp, ?_⟩
      exact perm_told rfl rfl rfl
    · exact .inr ⟨.inr hready, rfl, [], by simp, perm_held (List.append_nil _).symm rfl⟩
  | silent hready _ seen _ wait =>
    exact .inr ⟨.inr hready, by simp [St.apply, Upd.and], [], by simp, perm_held rfl rfl⟩
  | growthHeld hready _ _ =>
    refine .inr ⟨.inr hready, by simp [St.apply, Upd.and], [growthItem t], ?_, perm_held rfl rfl⟩
    simp [growthItem]
  | growthTold hready _ _ _ n victim =>
    dsimp only
    split
    · refine .inr ⟨.inr hready, by simp [St.apply, Upd.and, sentUpd], [growthItem t], ?_,
        perm_told rfl rfl rfl⟩
      simp [growthItem]
    · exact .inr ⟨.inr hready, rfl, [], by simp, perm_held (List.append_nil _).symm rfl⟩

/-! ## What is counted -/

/-- The kills after `base` up to `done` are counted, each in one item, and the ones that
hang together in the same item; the later ones are in the block, a gap away from them. -/
structure Counted (block known : List Kill) (items : List Item) (base done : Time) : Prop where
  after : base ≤ done
  apart : ∀ p ∈ block, ∀ k ∈ block, base < p.ts → p.ts ≤ done → done < k.ts → gap < k.ts - p.ts
  below : ∀ x ∈ items, ∀ k ∈ x.kills, k.ts ≤ done
  once : ∀ k ∈ known, base < k.ts → k.ts ≤ done → items.countP (fun x => decide (k ∈ x.kills)) = 1
  kept : ∀ k ∈ known, base < k.ts → done < k.ts → k ∈ block
  whole : ∀ m, Chain Kill.ts gap m → m ≠ [] → (∀ k ∈ m, k ∈ block ∧ base < k.ts ∧ k.ts ≤ done) →
    ∃ x ∈ items, ∀ k ∈ m, k ∈ x.kills

theorem Item.kills_none {x : Item} (h : x.ep = none) : x.kills = [] := by
  unfold Item.kills
  rw [h]
  rfl

theorem Item.kills_some (e : Episode) (n : Int) : (Item.mk (some e) n).kills = e.kills := rfl

section

variable {block known block' : List Kill} {items items' xs : List Item} {base done : Time}

theorem Counted.perm (h : Counted block known items base done) (hp : items'.Perm items) :
    Counted block known items' base done := by
  refine ⟨h.after, h.apart, fun x hx => h.below x (hp.mem_iff.mp hx), ?_, h.kept, ?_⟩
  · intro k hk hb hd
    rw [hp.countP_eq]
    exact h.once k hk hb hd
  · intro m hm hne hin
    obtain ⟨x, hx, hall⟩ := h.whole m hm hne hin
    exact ⟨x, hp.mem_iff.mpr hx, hall⟩

/-- With the first block nothing that is no history is counted. -/
theorem Counted.first (block : List Kill) (base : Time) (hnone : ∀ x ∈ items, x.ep = none) :
    Counted block block items base base := by
  refine ⟨le_refl _, ?_, ?_, ?_, fun k hk _ _ => hk, ?_⟩
  · intro p _ k _ hb hd
    exact absurd (lt_of_lt_of_le hb hd) (lt_irrefl _)
  · intro x hx k hk
    rw [Item.kills_none (hnone x hx)] at hk
    cases hk
  · intro k _ hb hd
    exact absurd (lt_of_lt_of_le hb hd) (lt_irrefl _)
  · intro m _ hne hin
    obtain ⟨k, hk⟩ := List.exists_mem_of_ne_nil m hne
    exact absurd (lt_of_lt_of_le (hin k hk).2.1 (hin k hk).2.2) (lt_irrefl _)

/-- A block arrives whose new records are in time. -/
theorem Counted.arrive (h : Counted block known items base done)
    (hrec : ∀ k ∈ block', k ∈ block ∨ k ∉ known)
    (hnew : ∀ k ∈ block', k ∉ known → base < k.ts →
      done < k.ts ∧ ∀ p ∈ block', base < p.ts → p.ts ≤ done → gap < k.ts - p.ts)
    (hstays : ∀ k ∈ block, base < k.ts → done < k.ts → k ∈ block') :
    Counted block' (known ++ block') items base done := by
  have hold {k : Kill} (hk : k ∈ block') (hb : base < k.ts) (hd : k.ts ≤ done) : k ∈ block := by
    rcases hrec k hk with hin | hnot
    · exact hin
    · exact absurd (hnew k hk hnot hb).1 (not_lt.mpr hd)
  refine ⟨h.after, ?_, h.below, ?_, ?_, ?_⟩
  · intro p hp k hk hb hpd hkd
    rcases hrec k hk with hin | hnot
    · exact h.apart p (hold hp hb hpd) k hin hb hpd hkd
    · exact (hnew k hk hnot (lt_of_le_of_lt h.after hkd)).2 p hp hb hpd
  · intro k hk hb hd
    rcases List.mem_append.mp hk with hin | hin
    · exact h.once k hin hb hd
    · by_cases hwas : k ∈ known
      · exact h.once k hwas hb hd
      · exact absurd (hnew k hin hwas hb).1 (not_lt.mpr hd)
  · intro k hk hb hd
    rcases List.mem_append.mp hk with hin | hin
    · exact hstays k (h.kept k hin hb hd) hb hd
    · exact hin
  · intro m hm hne hin
    exact h.whole m hm hne fun k hk =>
      ⟨hold (hin k hk).1 (hin k hk).2.1 (hin k hk).2.2, (hin k hk).2⟩

/-- A growth of the counter has no kills. -/
theorem Counted.plain (h : Counted block known items base done) (hxs : ∀ x ∈ xs, x.ep = none) :
    Counted block known (items ++ xs) base done := by
  refine ⟨h.after, h.apart, ?_, ?_, h.kept, ?_⟩
  · intro x hx k hk
    rcases List.mem_append.mp hx with hin | hin
    · exact h.below x hin k hk
    · rw [Item.kills_none (hxs x hin)] at hk
      cases hk
  · intro k hk hb hd
    have hzero : xs.countP (fun x => decide (k ∈ x.kills)) = 0 := by
      rw [List.countP_eq_zero]
      intro x hx
      simp [Item.kills_none (hxs x hx)]
    rw [List.countP_append, hzero, h.once k hk hb hd]
  · intro m hm hne hin
    obtain ⟨x, hx, hall⟩ := h.whole m hm hne hin
    exact ⟨x, List.mem_append_left _ hx, hall⟩

end

theorem mem_eps_of_ready {st : St} {t : Tick} {e : Episode} (he : e ∈ ready st t) : e ∈ t.eps :=
  List.mem_of_mem_filter (List.mem_of_mem_filter he)

theorem fresh_of_ready {st : St} {t : Tick} {e : Episode} (he : e ∈ ready st t) :
    doneAt st t < e.stop := by
  have h := (List.mem_filter.mp (List.mem_of_mem_filter he)).2
  simpa using h

/-- A kill of the block whose episode is over is in one of the items. -/
theorem countP_readyItems {st : St} {t : Tick} {k : Kill} (hk : k ∈ t.kills)
    (hready : ∀ e ∈ t.eps, k ∈ e.kills → e ∈ ready st t) :
    (readyItems st t).countP (fun x => decide (k ∈ x.kills)) = 1 := by
  have hone : t.eps.countP (fun e => decide (k ∈ e.kills)) = 1 := by
    have h := @countP_clusters Kill Kill.ts gap _ t.kills k gap_pos hk
    rw [← eps_kills, List.countP_map] at h
    exact h
  rw [readyItems, List.countP_map, ← hone]
  unfold ready fresh at hready ⊢
  rw [List.filter_filter, List.countP_filter]
  refine List.countP_congr fun e he => ?_
  simp only [Function.comp, Item.kills_some, Bool.and_eq_true, decide_eq_true_eq]
  constructor
  · exact fun h => of_decide_eq_true h.1
  · intro hke
    have hin := hready e he hke
    rw [List.filter_filter, List.mem_filter] at hin
    exact ⟨decide_eq_true hke, by simpa using hin.2⟩

section Ready

variable {st : St} {t : Tick} {known : List Kill} {items : List Item} {base : Time}

/-- An episode with a kill that is not counted, and that is not later than the end of one that
is over, is over too. -/
theorem ready_of_kill {r e : Episode} (hr : r ∈ ready st t) (he : e ∈ t.eps) {k : Kill}
    (hk : k ∈ e.kills) (hd : doneAt st t < k.ts) (hle : k.ts ≤ r.stop) : e ∈ ready st t := by
  simp only [ready, fresh, List.mem_filter, decide_eq_true_eq] at hr ⊢
  obtain ⟨⟨hr, -⟩, hover⟩ := hr
  have hstop := stop_le he hr hk hle
  refine ⟨⟨he, lt_of_lt_of_le hd (le_stop he hk)⟩, ?_⟩
  linarith

/-- A chain that has something that is counted has nothing that is not. -/
theorem Counted.same_side {done : Time} (h : Counted t.kills known items base done) {m : List Kill}
    (hm : Chain Kill.ts gap m) (hin : ∀ k ∈ m, k ∈ t.kills) {p k : Kill} (hp : p ∈ m) (hk : k ∈ m)
    (hb : base < p.ts) (hpd : p.ts ≤ done) : k.ts ≤ done := by
  by_contra hkd
  obtain ⟨x, hx, y, hy, hpx, hxd, hyd, hnear⟩ := hm.crossing hp hk hpd (not_le.mp hkd)
  exact absurd (h.apart x (hin x hx) y (hin y hy) (lt_of_lt_of_le hb hpx) hxd hyd)
    (not_lt.mpr hnear)

/-- A kill is a gap away from the end of the last episode that is over, or in it. -/
theorem apart_of_ready {r : Episode} (hr : r ∈ t.eps) {p k : Kill} (hp : p ∈ t.kills)
    (hk : k ∈ t.kills) (hpr : p.ts ≤ r.stop) (hrk : r.stop < k.ts) : gap < k.ts - p.ts := by
  obtain ⟨e, he, hpe⟩ := ep_of_kill hp
  obtain ⟨f, hf, hkf⟩ := ep_of_kill hk
  rcases eq_or_apart (kills_of_ep he) (kills_of_ep hf) with heq | hfar | hfar
  · rw [← heq] at hkf
    exact absurd (lt_of_lt_of_le hrk (le_stop he hkf)) (not_lt.mpr (stop_le he hr hpe hpr))
  · exact hfar p hpe k hkf
  · have := hfar p hpe k hkf
    have := gap_pos
    linarith

/-- A kill up to the end of the last episode that is over is in one item. -/
theorem Counted.once_ready (h : Counted t.kills known items base (doneAt st t)) {r : Episode}
    (hr : r ∈ ready st t) {k : Kill} (hk : k ∈ known) (hb : base < k.ts) (hkr : k.ts ≤ r.stop) :
    (items ++ readyItems st t).countP (fun x => decide (k ∈ x.kills)) = 1 := by
  rw [List.countP_append]
  by_cases hd : k.ts ≤ doneAt st t
  · have hzero : (readyItems st t).countP (fun x => decide (k ∈ x.kills)) = 0 := by
      rw [List.countP_eq_zero]
      intro x hx hkx
      obtain ⟨e, he, rfl⟩ := List.mem_map.mp hx
      have hin := mem_eps_of_ready he
      have hle := h.same_side (chain_of_cluster (kills_of_ep hin))
        (fun k hk => mem_of_cluster (kills_of_ep hin) hk) (of_decide_eq_true hkx) (stop_mem e) hb hd
      exact absurd (fresh_of_ready he) (not_lt.mpr hle)
    rw [h.once k hk hb hd, hzero]
  · have hd := not_le.mp hd
    have hzero : items.countP (fun x => decide (k ∈ x.kills)) = 0 := by
      rw [List.countP_eq_zero]
      intro x hx hkx
      exact absurd (h.below x hx k (of_decide_eq_true hkx)) (not_le.mpr hd)
    rw [hzero, Nat.zero_add]
    refine countP_readyItems (h.kept k hk hb hd) fun e he hke => ?_
    exact ready_of_kill hr he hke hd hkr

/-- A chain up to there is in one item. -/
theorem Counted.whole_ready (h : Counted t.kills known items base (doneAt st t)) {r : Episode}
    (hr : r ∈ ready st t) {m : List Kill} (hm : Chain Kill.ts gap m) (hne : m ≠ [])
    (hin : ∀ k ∈ m, k ∈ t.kills ∧ base < k.ts ∧ k.ts ≤ r.stop) :
    ∃ x ∈ items ++ readyItems st t, ∀ k ∈ m, k ∈ x.kills := by
  by_cases hany : ∃ p ∈ m, p.ts ≤ doneAt st t
  · obtain ⟨p, hp, hpd⟩ := hany
    obtain ⟨x, hx, hall⟩ := h.whole m hm hne fun k hk => ⟨(hin k hk).1, (hin k hk).2.1,
      h.same_side hm (fun q hq => (hin q hq).1) hp hk (hin p hp).2.1 hpd⟩
    exact ⟨x, List.mem_append_left _ hx, hall⟩
  · simp only [not_exists, not_and, not_le] at hany
    obtain ⟨c, hc, hmc⟩ := exists_cluster gap_pos hm hne fun k hk => (hin k hk).1
    rw [← eps_kills] at hc
    obtain ⟨e, he, rfl⟩ := List.mem_map.mp hc
    obtain ⟨k, hk⟩ := List.exists_mem_of_ne_nil m hne
    have hready := ready_of_kill hr he (hmc k hk) (hany k hk) (hin k hk).2.2
    exact ⟨⟨some e, t.total⟩, List.mem_append_right _ (List.mem_map_of_mem hready), hmc⟩

/-- The episodes that are over are counted. -/
theorem Counted.count (h : Counted t.kills known items base (doneAt st t))
    (hready : ready st t ≠ []) :
    Counted t.kills known (items ++ readyItems st t) base (latest (ready st t)) := by
  obtain ⟨⟨r, hr, hstop⟩, hlast⟩ := latest_spec hready
  have hfresh := fresh_of_ready hr
  rw [← hstop]
  refine ⟨le_trans h.after hfresh.le, fun p hp k hk _ hpr hrk => ?_, fun x hx k hk => ?_,
    fun k hk hb hkr => h.once_ready hr hk hb hkr, fun k hk hb hkr => ?_,
    fun m hm hne hin => h.whole_ready hr hm hne hin⟩
  · exact apart_of_ready (mem_eps_of_ready hr) hp hk hpr hrk
  · rcases List.mem_append.mp hx with hin | hin
    · exact le_trans (h.below x hin k hk) hfresh.le
    · obtain ⟨e, he, rfl⟩ := List.mem_map.mp hin
      rw [hstop]
      exact le_trans (le_stop (mem_eps_of_ready he) hk) (hlast e he)
  · exact h.kept k hk hb (lt_trans hfresh hkr)

end Ready

/-! ## The invariant -/

/-- The messages are in the past, the keys tell of the last one, and within the hour the
level rises. -/
structure Spoken (w : World) : Prop where
  past : ∀ m ∈ w.told, 0 < m.at_ ∧ m.at_ ≤ w.clock
  ordered : w.told.Pairwise fun m p => p.at_ ≤ m.at_
  last : ∀ m rest, w.told = m :: rest → w.st.oomSent = m.at_ ∧ w.st.oomSentLvl = m.alert.level
  quiet : w.told.Pairwise fun m p => m.at_ - p.at_ < repeatS → p.alert.level < m.alert.level

/-- What the episodes of a run are at. -/
structure Reckoned (w : World) : Prop where
  block_known : ∀ k ∈ w.block, k ∈ w.known
  before : w.base = none → w.st.oomEnd = none ∧ w.known = [] ∧ ∀ x ∈ entries w, x.ep = none
  since : ∀ base, w.base = some base →
    w.st.oomEnd = some w.done ∧ Counted w.block w.known (entries w) base w.done

/-- The keys go with what is held and counted. -/
structure Kept (w : World) : Prop where
  held : w.held.length = w.st.oomHeld.length
  seen : ∀ x ∈ entries w, x.total ≤ w.st.oomSeen

theorem kills_of_no_block {t : Tick} (h : t.block = none) : t.kills = [] := by
  simp [Tick.kills, h]

theorem eps_of_no_block {t : Tick} (h : t.block = none) : t.eps = [] := by
  have hk := eps_kills t
  rw [kills_of_no_block h, clusters_nil] at hk
  exact List.map_eq_nil_iff.mp hk

theorem ready_of_no_block {st : St} {t : Tick} (h : t.block = none) : ready st t = [] := by
  simp [ready, fresh, eps_of_no_block h]

theorem reckoned_next {w : World} {t : Tick} (h : Reckoned w) (ha : Admits w t)
    (ht : Timely w t) : Reckoned (next w t) := by
  have hmoved := moved w ha.unmuted
  have hsub : ∀ k ∈ (next w t).block, k ∈ (next w t).known := by
    intro k hk
    rw [next_block] at hk
    rw [next_known]
    exact List.mem_append_right _ hk
  cases hb : w.base with
  | none =>
    obtain ⟨hend, hknown, hnone⟩ := h.before hb
    have hknown' : (next w t).known = t.kills := by rw [next_known, hknown, List.nil_append]
    cases hblock : t.block with
    | none =>
      have hbase : (next w t).base = none := by rw [next_base, hb, hblock]; rfl
      have hready : ready w.st t = [] := ready_of_no_block hblock
      rcases hmoved with ⟨hne, -⟩ | ⟨-, hend', xs, hxs, hp⟩
      · exact absurd hready hne
      refine ⟨hsub, fun _ => ⟨?_, ?_, ?_⟩, fun base hbase' =>
        absurd (hbase.symm.trans hbase') (by simp)⟩
      · rw [hend', hend]
        simp [firstApply, hblock]
      · rw [hknown', kills_of_no_block hblock]
      · intro x hx
        rcases List.mem_append.mp (hp.mem_iff.mp hx) with hin | hin
        · exact hnone x hin
        · exact hxs x hin
    | some b =>
      have hbase : (next w t).base = some (doneAt w.st t) := by rw [next_base, hb, hblock]; rfl
      refine ⟨hsub, fun hbase' => absurd (hbase.symm.trans hbase') (by simp), fun base hbase' => ?_⟩
      obtain rfl := Option.some.inj (hbase.symm.trans hbase')
      rw [next_block, hknown']
      rcases hmoved with ⟨hready, hend', hp⟩ | ⟨-, hend', xs, hxs, hp⟩
      · have hdone : (next w t).done = latest (ready w.st t) := by simp [World.done, hend']
        rw [hdone]
        exact ⟨hend', ((Counted.first t.kills _ hnone).count hready).perm hp⟩
      · rw [hend] at hend'
        simp only [firstApply, hblock, hend, Option.isSome_some, and_self, if_true] at hend'
        have hdone : (next w t).done = doneAt w.st t := by simp [World.done, hend']
        rw [hdone]
        exact ⟨hend', ((Counted.first t.kills _ hnone).plain hxs).perm hp⟩
  | some base =>
    obtain ⟨hend, hc⟩ := h.since base hb
    have hdoneAt : doneAt w.st t = w.done := by simp [doneAt, hend]
    have hbase : (next w t).base = some base := by rw [next_base, hb]; rfl
    have harr : Counted t.kills (w.known ++ t.kills) (entries w) base (doneAt w.st t) := by
      rw [hdoneAt]
      exact hc.arrive ha.records (ht.new base hb) (ht.stays base hb)
    refine ⟨hsub, fun hbase' => absurd (hbase.symm.trans hbase') (by simp), fun base' hbase' => ?_⟩
    obtain rfl := Option.some.inj (hbase.symm.trans hbase')
    rw [next_block, next_known]
    rcases hmoved with ⟨hready, hend', hp⟩ | ⟨-, hend', xs, hxs, hp⟩
    · have hdone : (next w t).done = latest (ready w.st t) := by simp [World.done, hend']
      rw [hdone]
      exact ⟨hend', (harr.count hready).perm hp⟩
    · have hfirst : firstApply w.st t = {} := by simp [firstApply, hend]
      rw [hfirst, Option.none_or, hend] at hend'
      have hdone : (next w t).done = doneAt w.st t := by simp [World.done, hend', hdoneAt]
      rw [hdone]
      exact ⟨by rw [hdoneAt]; exact hend', (harr.plain hxs).perm hp⟩

/-- `now_apply` of the first block writes the end of the last episode only. -/
theorem firstApply_seen (st : St) (t : Tick) : (firstApply st t).oomSeen = none := by
  unfold firstApply
  split <;> rfl

theorem firstApply_held (st : St) (t : Tick) : (firstApply st t).oomHeld = none := by
  unfold firstApply
  split <;> rfl

theorem firstApply_sent (st : St) (t : Tick) : (firstApply st t).oomSent = none := by
  unfold firstApply
  split <;> rfl

theorem firstApply_sentLvl (st : St) (t : Tick) : (firstApply st t).oomSentLvl = none := by
  unfold firstApply
  split <;> rfl

theorem kept_next {w : World} {t : Tick} (h : Kept w) (ha : Admits w t) : Kept (next w t) := by
  have hseen {w' : World} {xs : List Item} (hp : (entries w').Perm (entries w ++ xs))
      (hle : w.st.oomSeen ≤ w'.st.oomSeen) (hxs : ∀ x ∈ xs, x.total ≤ w'.st.oomSeen) :
      ∀ x ∈ entries w', x.total ≤ w'.st.oomSeen := by
    intro x hx
    rcases List.mem_append.mp (hp.mem_iff.mp hx) with hin | hin
    · exact le_trans (h.seen x hin) hle
    · exact hxs x hin
  have hready : ∀ x ∈ readyItems w.st t, x.total ≤ max w.st.oomSeen t.total := by
    intro x hx
    obtain ⟨e, -, rfl⟩ := List.mem_map.mp hx
    exact le_max_right _ _
  have hstep := result w.st ha.unmuted
  unfold next
  generalize alertStep w.st t = o at hstep
  cases hstep with
  | held _ _ ids hids =>
    refine ⟨?_, hseen (perm_held rfl rfl) ?_ ?_⟩
    · simp [St.apply, Upd.and, h.held, hids, readyItems]
    · simp [St.apply, Upd.and, readyUpd]
    · simpa [St.apply, Upd.and, readyUpd] using hready
  | told _ lvl _ text _ =>
    dsimp only
    split
    · refine ⟨by simp [St.apply, Upd.and, sentUpd], hseen (perm_told rfl rfl rfl) ?_ ?_⟩
      · simp [St.apply, Upd.and, readyUpd, sentUpd]
      · simpa [St.apply, Upd.and, readyUpd, sentUpd] using hready
    · refine ⟨?_, hseen (perm_held (List.append_nil _).symm rfl) ?_ (by simp)⟩
      · simpa [arrive, St.apply, firstApply_held] using h.held
      · simp [St.apply, firstApply_seen]
  | again _ _ lvl text _ =>
    dsimp only
    split
    · refine ⟨by simp [St.apply, sentUpd], hseen (perm_told rfl rfl rfl) ?_ (by simp)⟩
      simp [St.apply, sentUpd, firstApply_seen]
    · refine ⟨?_, hseen (perm_held (List.append_nil _).symm rfl) ?_ (by simp)⟩
      · simpa [arrive, St.apply, firstApply_held] using h.held
      · simp [St.apply, firstApply_seen]
  | silent _ _ seen hle wait =>
    refine ⟨?_, hseen (perm_held rfl rfl) ?_ (by simp)⟩
    · simpa [St.apply, Upd.and, firstApply_held] using h.held
    · cases seen with
      | none => simp [St.apply, Upd.and, firstApply_seen]
      | some n => simpa [St.apply, Upd.and, firstApply_seen] using hle n rfl
  | growthHeld _ _ hgrowth =>
    refine ⟨by simp [St.apply, Upd.and, h.held], hseen (perm_held rfl rfl) ?_ ?_⟩
    · simpa [St.apply, Upd.and] using hgrowth.grown.le
    · simp [St.apply, Upd.and, growthItem]
  | growthTold _ hheld _ hgrowth n victim =>
    dsimp only
    split
    · refine ⟨by simp [St.apply, Upd.and, sentUpd], hseen (perm_told rfl rfl rfl) ?_ ?_⟩
      · simpa [St.apply, Upd.and, sentUpd] using hgrowth.grown.le
      · simp [St.apply, Upd.and, growthItem, sentUpd]
    · refine ⟨?_, hseen (perm_held (List.append_nil _).symm rfl) ?_ (by simp)⟩
      · simpa [arrive, St.apply, firstApply_held] using h.held
      · simp [St.apply, firstApply_seen]

/-- A tick without a message. -/
theorem Spoken.silent {w w' : World} {t : Tick} (h : Spoken w) (ha : Admits w t)
    (htold : w'.told = w.told) (hsent : w'.st.oomSent = w.st.oomSent)
    (hlvl : w'.st.oomSentLvl = w.st.oomSentLvl) (hclock : w'.clock = t.now) : Spoken w' := by
  refine ⟨?_, by rw [htold]; exact h.ordered, ?_, by rw [htold]; exact h.quiet⟩
  · intro m hm
    rw [htold] at hm
    rw [hclock]
    exact ⟨(h.past m hm).1, le_trans (h.past m hm).2 ha.later⟩
  · intro m rest hm
    rw [htold] at hm
    rw [hsent, hlvl]
    exact h.last m rest hm

/-- A message, of a higher level if it is within the hour. -/
theorem Spoken.tell {w w' : World} {t : Tick} {m : Told} (h : Spoken w) (ha : Admits w t)
    (hlvl : recent w.st t = true → w.st.oomSentLvl < m.alert.level) (hat : m.at_ = t.now)
    (htold : w'.told = m :: w.told) (hsent : w'.st.oomSent = t.now)
    (hsentLvl : w'.st.oomSentLvl = m.alert.level) (hclock : w'.clock = t.now) : Spoken w' := by
  refine ⟨?_, ?_, ?_, ?_⟩
  · intro p hp
    rw [htold] at hp
    rw [hclock]
    rcases List.mem_cons.mp hp with rfl | hp
    · exact ⟨hat ▸ t.pos, hat.le⟩
    · exact ⟨(h.past p hp).1, le_trans (h.past p hp).2 ha.later⟩
  · rw [htold]
    refine List.pairwise_cons.mpr ⟨fun p hp => ?_, h.ordered⟩
    rw [hat]
    exact le_trans (h.past p hp).2 ha.later
  · intro p rest hp
    rw [htold] at hp
    obtain ⟨rfl, -⟩ := List.cons.inj hp
    exact ⟨hsent.trans hat.symm, hsentLvl⟩
  · rw [htold]
    refine List.pairwise_cons.mpr ⟨fun p hp hnear => ?_, h.quiet⟩
    rw [hat] at hnear
    cases hw : w.told with
    | nil => rw [hw] at hp; cases hp
    | cons q rest =>
      obtain ⟨hq, hqlvl⟩ := h.last q rest hw
      have hpast := h.past q (by simp [hw])
      have hord := h.ordered
      have hquiet := h.quiet
      rw [hw] at hp hord hquiet
      have hpq : p.at_ ≤ q.at_ := by
        rcases List.mem_cons.mp hp with rfl | hp
        · exact le_refl _
        · exact (List.pairwise_cons.mp hord).1 p hp
      have hrecent : recent w.st t = true := by
        simp only [recent, hq, decide_eq_true_eq]
        exact ⟨ne_of_gt hpast.1, by linarith⟩
      have hhigher := hlvl hrecent
      rw [hqlvl] at hhigher
      rcases List.mem_cons.mp hp with rfl | hp
      · exact hhigher
      · refine lt_trans ((List.pairwise_cons.mp hquiet).1 p hp ?_) hhigher
        have := ha.later
        linarith

theorem spoken_next {w : World} {t : Tick} (h : Spoken w) (ha : Admits w t) :
    Spoken (next w t) := by
  have hstep := result w.st ha.unmuted
  unfold next
  generalize alertStep w.st t = o at hstep
  cases hstep with
  | held =>
    refine h.silent ha rfl ?_ ?_ rfl <;>
      simp [St.apply, Upd.and, readyUpd, firstApply_sent, firstApply_sentLvl]
  | told _ lvl hlvl text _ =>
    dsimp only
    split
    · refine h.tell ha hlvl rfl rfl ?_ ?_ rfl <;> simp [St.apply, Upd.and, sentUpd]
    · refine h.silent ha rfl ?_ ?_ rfl <;> simp [St.apply, firstApply_sent, firstApply_sentLvl]
  | again _ hrecent lvl text _ =>
    dsimp only
    split
    · refine h.tell ha (fun hr => absurd (hrecent.symm.trans hr) (by simp)) rfl rfl ?_ ?_ rfl <;>
        simp [St.apply, sentUpd]
    · refine h.silent ha rfl ?_ ?_ rfl <;> simp [St.apply, firstApply_sent, firstApply_sentLvl]
  | silent =>
    refine h.silent ha rfl ?_ ?_ rfl <;>
      simp [St.apply, Upd.and, firstApply_sent, firstApply_sentLvl]
  | growthHeld =>
    refine h.silent ha rfl ?_ ?_ rfl <;>
      simp [St.apply, Upd.and, firstApply_sent, firstApply_sentLvl]
  | growthTold _ _ hrecent _ n victim =>
    dsimp only
    split
    · refine h.tell ha (fun hr => absurd (hrecent.symm.trans hr) (by simp)) rfl rfl ?_ ?_ rfl <;>
        simp [St.apply, Upd.and, sentUpd]
    · refine h.silent ha rfl ?_ ?_ rfl <;> simp [St.apply, firstApply_sent, firstApply_sentLvl]

/-! ## The laws -/

theorem only_one {items : List Item} {k : Kill} {x y : Item}
    (hone : items.countP (fun x => decide (k ∈ x.kills)) = 1) (hx : x ∈ items) (hy : y ∈ items)
    (hkx : k ∈ x.kills) (hky : k ∈ y.kills) : x = y := by
  rw [List.countP_eq_length_filter, List.length_eq_one_iff] at hone
  obtain ⟨z, hz⟩ := hone
  have hin {u : Item} (hu : u ∈ items) (hku : k ∈ u.kills) : u = z := by
    have hmem : u ∈ items.filter fun x => decide (k ∈ x.kills) :=
      List.mem_filter.mpr ⟨hu, decide_eq_true hku⟩
    rw [hz] at hmem
    exact List.mem_singleton.mp hmem
  exact (hin hx hkx).trans (hin hy hky).symm

/-- An item that has all of these kills, each of which is in one item, is the only one
that has any. -/
theorem countedOnce_of {w : World} {c : List Kill} {x : Item} (hne : c ≠ [])
    (hone : ∀ k ∈ c, (entries w).countP (fun x => decide (k ∈ x.kills)) = 1)
    (hx : x ∈ entries w) (hall : ∀ k ∈ c, k ∈ x.kills) : CountedOnce w c := by
  obtain ⟨q, hq⟩ := List.exists_mem_of_ne_nil c hne
  have hsame : (entries w).filter (fun x => c.any fun k => k ∈ x.kills) =
      (entries w).filter fun x => decide (q ∈ x.kills) := by
    refine List.filter_congr fun y hy => ?_
    rw [Bool.eq_iff_iff, List.any_eq_true]
    constructor
    · rintro ⟨k, hk, hky⟩
      obtain rfl := only_one (hone k hk) hy hx (of_decide_eq_true hky) (hall k hk)
      exact decide_eq_true (hall q hq)
    · exact fun h => ⟨q, hq, h⟩
  have hlen := hone q hq
  rw [List.countP_eq_length_filter, List.length_eq_one_iff] at hlen
  obtain ⟨z, hz⟩ := hlen
  have hxz : x ∈ (entries w).filter fun x => decide (q ∈ x.kills) :=
    List.mem_filter.mpr ⟨hx, decide_eq_true (hall q hq)⟩
  rw [hz] at hxz
  obtain rfl := List.mem_singleton.mp hxz
  exact ⟨x, hsame.trans hz, hall⟩

theorem right_of {w : World} (h : Reckoned w) (hs : Spoken w) : Right w := by
  refine ⟨?_, ?_, hs.quiet⟩
  · intro base hb c hc hne
    obtain ⟨-, hcounted⟩ := h.since base hb
    have hchain := chain_of_cluster hc
    have hin {k : Kill} (hk : k ∈ own base c) : k ∈ c ∧ base < k.ts := by
      obtain ⟨hkc, hkb⟩ := List.mem_filter.mp hk
      exact ⟨hkc, of_decide_eq_true hkb⟩
    by_cases hany : ∃ p ∈ own base c, p.ts ≤ w.done
    · obtain ⟨p, hp, hpd⟩ := hany
      -- the gap behind what was counted keeps the whole episode on this side
      have hall : ∀ k ∈ own base c, k.ts ≤ w.done := by
        intro k hk
        by_contra hkd
        obtain ⟨x, hx, y, hy, hpx, hxd, hyd, hnear⟩ :=
          hchain.crossing (hin hp).1 (hin hk).1 hpd (not_le.mp hkd)
        exact absurd (hcounted.apart x (mem_of_cluster hc hx) y (mem_of_cluster hc hy)
          (lt_of_lt_of_le (hin hp).2 hpx) hxd hyd) (not_lt.mpr hnear)
      have hblock {k : Kill} (hk : k ∈ own base c) : k ∈ w.block := mem_of_cluster hc (hin hk).1
      obtain ⟨x, hx, hwhole⟩ := hcounted.whole (own base c) (hchain.later base) hne
        fun k hk => ⟨hblock hk, (hin hk).2, hall k hk⟩
      refine .inr ⟨hall, countedOnce_of hne (fun k hk => ?_) hx hwhole⟩
      exact hcounted.once k (h.block_known k (hblock hk)) (hin hk).2 (hall k hk)
    · simp only [not_exists, not_and, not_le] at hany
      exact .inl ⟨hany, fun x hx k hk hkx => absurd (hcounted.below x hx k hkx)
        (not_le.mpr (hany k hk))⟩
  · intro base hb k hk hbk
    obtain ⟨-, hcounted⟩ := h.since base hb
    by_cases hd : k.ts ≤ w.done
    · have hone := hcounted.once k hk hbk hd
      obtain ⟨x, hx, hkx⟩ := List.countP_pos_iff.mp (by rw [hone]; exact Nat.one_pos)
      refine .inr ⟨hd, countedOnce_of (by simp) ?_ hx ?_⟩
      · simpa using hone
      · simpa using hkx
    · refine .inl ⟨not_le.mp hd, hcounted.kept k hk hbk (not_le.mp hd), fun x hx q hq hqx => ?_⟩
      rw [List.mem_singleton.mp hq] at hqx
      exact hd (hcounted.below x hx k hqx)

/-- The end that a tick starts from. -/
theorem end_first (w : World) (t : Tick) (he : t.eps ≠ []) :
    (firstApply w.st t).oomEnd.or w.st.oomEnd = some (doneAt w.st t) := by
  have hblock : t.block.isSome := by
    by_contra hno
    exact he (eps_of_no_block (by simpa using hno))
  cases hend : w.st.oomEnd with
  | none => simp [firstApply, hblock, hend]
  | some d => simp [firstApply, doneAt, hend]

theorem counts_of {w : World} {t : Tick} (ha : Admits w t) {e : Episode} (he : e ∈ t.eps)
    (hover : settle ≤ t.ref - e.stop) : e.stop ≤ (next w t).done ∨ Lost w t := by
  have hmem (hfresh : doneAt w.st t < e.stop) : e ∈ ready w.st t := by
    simp only [ready, fresh, List.mem_filter, decide_eq_true_eq]
    exact ⟨⟨he, hfresh⟩, hover⟩
  rcases moved w ha.unmuted with ⟨hready, hend, -⟩ | ⟨hwhy, hend, -⟩
  · obtain ⟨⟨r, hr, hstop⟩, hlast⟩ := latest_spec hready
    rw [World.done, hend, Option.getD_some]
    by_cases hfresh : doneAt w.st t < e.stop
    · exact .inl (hlast e (hmem hfresh))
    · exact .inl (le_trans (not_lt.mp hfresh) (hstop ▸ (fresh_of_ready hr).le))
  · rw [end_first w t (List.ne_nil_of_mem he)] at hend
    rw [World.done, hend, Option.getD_some]
    by_cases hfresh : doneAt w.st t < e.stop
    · rcases hwhy with hlost | hnone
      · exact .inr hlost
      · rw [hnone] at hmem
        cases hmem hfresh
    · exact .inl (not_lt.mp hfresh)

theorem growth_of {w : World} {t : Tick} (h : Kept w) (hg : Growth w.st t) :
    (∀ x ∈ entries w, x.total < t.total) ∧
      ∀ e ∈ t.eps, e.stop ≤ doneAt w.st t → e.stop < noticed w.st t - growthS :=
  ⟨fun x hx => lt_of_le_of_lt (h.seen x hx) hg.grown, fun e he _ => hg.none_near e he⟩

theorem does_of {w : World} {t : Tick} (h : Kept w) (ha : Admits w t) : Does w t := by
  have hcounts : ∀ e ∈ t.eps, settle ≤ t.ref - e.stop →
      e.stop ≤ (next w t).done ∨ (alertStep w.st t).fire.isSome ∧ t.delivered = false :=
    fun e he hover => counts_of ha he hover
  refine ⟨hcounts, ?_, ?_, ?_⟩
  · intro hrecent hdelivered
    have hlen := (kept_next h ha).held
    have hstep := result w.st ha.unmuted
    unfold next at hlen ⊢
    generalize alertStep w.st t = o at hstep hlen
    cases hstep with
    | held _ hr => exact absurd (hrecent.symm.trans hr) (by simp)
    | told => simp [hdelivered]
    | again => simp [hdelivered]
    | silent _ hheld seen _ wait =>
      have hnone : w.st.oomHeld = [] := by
        by_contra hne
        exact absurd (hrecent.symm.trans (hheld hne)) (by simp)
      have hw : w.held = [] := List.length_eq_zero_iff.mp (by rw [h.held, hnone]; rfl)
      simp [hw]
    | growthHeld _ hr => exact absurd (hrecent.symm.trans hr) (by simp)
    | growthTold => simp [hdelivered]
  · intro a hfire n hn
    have hstep := result w.st ha.unmuted
    generalize alertStep w.st t = o at hstep hfire
    cases hstep with
    | held => cases hfire
    | told _ lvl _ text htimes =>
      cases hfire
      have hn := Option.some.inj (hn.symm.trans htimes)
      simp [hn, h.held, readyItems]
    | again _ _ lvl text htimes =>
      cases hfire
      have hn := Option.some.inj (hn.symm.trans htimes)
      simp [hn, h.held]
    | silent => cases hfire
    | growthHeld => cases hfire
    | growthTold => cases hfire; cases hn
  · intro htells
    have hstep := result w.st ha.unmuted
    unfold TellsGrowth at htells
    generalize alertStep w.st t = o at hstep htells
    have hready {x : Item} (hx : x ∈ readyItems w.st t) (hnone : x.ep = none) : False := by
      obtain ⟨e, -, rfl⟩ := List.mem_map.mp hx
      cases hnone
    cases hstep with
    | held =>
      rcases htells with ⟨x, hx, hnone⟩ | ⟨lvl, n, victim, hfire⟩
      · exact (hready hx hnone).elim
      · cases hfire
    | told _ lvl _ text htimes =>
      rcases htells with ⟨x, hx, hnone⟩ | ⟨lvl', n, victim, hfire⟩
      · exact (hready hx hnone).elim
      · cases hfire
        cases htimes
    | again _ _ lvl text htimes =>
      rcases htells with ⟨x, hx, hnone⟩ | ⟨lvl', n, victim, hfire⟩
      · cases hx
      · cases hfire
        cases htimes
    | silent =>
      rcases htells with ⟨x, hx, hnone⟩ | ⟨lvl, n, victim, hfire⟩
      · cases hx
      · cases hfire
    | growthHeld _ _ hgrowth => exact growth_of h hgrowth
    | growthTold _ _ _ hgrowth => exact growth_of h hgrowth

theorem reckoned_start : Reckoned {} where
  block_known := List.forall_mem_nil _
  before _ := ⟨rfl, rfl, List.forall_mem_nil _⟩
  since _ hb := nomatch hb

theorem kept_start : Kept {} where
  held := rfl
  seen := List.forall_mem_nil _

theorem spoken_start : Spoken {} where
  past := List.forall_mem_nil _
  ordered := .nil
  last _ _ hm := nomatch hm
  quiet := .nil

/-- In a run whose records are in time every episode is counted once, by a message or by
what is held for the next one; the hour after a message only a higher level breaks; and a
growth that belongs to a counted episode is not told. -/
theorem episodes_are_told_once (ticks : List Tick) (ha : Runs.Along next Admits {} ticks)
    (ht : Runs.Along next Timely {} ticks) :
    Right (Runs.run next {} ticks) ∧ Runs.Along next Does {} ticks := by
  constructor
  · have hinv : Reckoned (Runs.run next {} ticks) ∧ Spoken (Runs.run next {} ticks) := by
      refine Runs.inv_run (I := fun w => Reckoned w ∧ Spoken w) ⟨reckoned_start, spoken_start⟩ ?_
        (ha.and ht)
      intro w t h hc
      exact ⟨reckoned_next h.1 hc.1 hc.2, spoken_next h.2 hc.1⟩
    exact right_of hinv.1 hinv.2
  · exact Runs.step_of_run kept_start (fun _ _ h hc => kept_next h hc)
      (fun _ _ h hc => does_of h hc) ha

/-! ## Records in time, and one that comes late -/

/-- So many seconds into a day. -/
def clockAt (s : Int) : Time := sec (1000000 + s)

def killAt (s : Int) (pid : Int) : Kill := ⟨clockAt s, some pid, "java"⟩

/-- A tick at a moment, with a block that the helper wrote at another. -/
def tickAt (s : Nat) (written : Int) (kills : List Kill) (total : Int) : Tick where
  now := clockAt s
  pos := by
    simp only [clockAt, sec]
    positivity
  rep := { clock := clockAt s, block := some ⟨clockAt written, kills, []⟩ }
  total := total

/-- Two episodes: a message about the first, and after the hour one about the second. -/
def timelyRun : List Tick :=
  [tickAt 0 0 [] 0, tickAt 200 105 [killAt 100 1] 1,
    tickAt 500 490 [killAt 100 1, killAt 300 2] 2, tickAt 3900 3890 [killAt 300 2] 2]

theorem two_episodes_are_told_once :
    Right (Runs.run next {} timelyRun) ∧ Runs.Along next Does {} timelyRun := by
  apply episodes_are_told_once
  · refine ⟨⟨?_, ⟨rfl, fun _ => rfl⟩, ?_, ?_⟩, ⟨?_, ⟨rfl, fun _ => rfl⟩, ?_, ?_⟩,
      ⟨?_, ⟨rfl, fun _ => rfl⟩, ?_, ?_⟩, ⟨?_, ⟨rfl, fun _ => rfl⟩, ?_, ?_⟩, trivial⟩ <;>
      decide +kernel
  · refine ⟨⟨?_, ?_⟩, ⟨?_, ?_⟩, ⟨?_, ?_⟩, ⟨?_, ?_⟩, trivial⟩ <;> decide +kernel

/-- A kill is told once its block is old enough; the next one of the same episode is in
the journal already, and comes with the next block. -/
def lateRun : List Tick :=
  [tickAt 0 0 [] 0, tickAt 200 105 [killAt 100 1] 1,
    tickAt 260 255 [killAt 100 1, killAt 150 2] 2, tickAt 3800 3790 [killAt 100 1, killAt 150 2] 2]

/-- The first kill is counted by both messages. -/
theorem late_record_is_told_again :
    ¬ ∀ ticks : List Tick, Runs.Along next Admits {} ticks → Right (Runs.run next {} ticks) := by
  intro h
  have hadmits : Runs.Along next Admits {} lateRun := by
    refine ⟨⟨?_, ⟨rfl, fun _ => rfl⟩, ?_, ?_⟩, ⟨?_, ⟨rfl, fun _ => rfl⟩, ?_, ?_⟩,
      ⟨?_, ⟨rfl, fun _ => rfl⟩, ?_, ?_⟩, ⟨?_, ⟨rfl, fun _ => rfl⟩, ?_, ?_⟩, trivial⟩ <;>
      decide +kernel
  have hbase : (Runs.run next {} lateRun).base = some 0 := by decide +kernel
  rcases (h lateRun hadmits).kills 0 hbase (killAt 100 1) (by decide +kernel) (by decide +kernel)
    with ⟨hlater, -⟩ | ⟨-, x, hx, -⟩
  · revert hlater
    decide +kernel
  · have htwo : ((entries (Runs.run next {} lateRun)).filter fun x =>
        [killAt 100 1].any fun k => k ∈ x.kills).length = 2 := by decide +kernel
    rw [hx] at htwo
    cases htwo

end Kervax.Oom
