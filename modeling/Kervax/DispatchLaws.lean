-- The laws of `dispatch`: a message is asked for again only when its own
-- requests failed. The storms cut the batch into blocks, each stage gives
-- sets that fit its requests, and the two together give the law of the batch.
import Kervax.Dispatch

namespace Kervax

/-! ## A storm is a block of the batch -/

variable (w : Wording) (ms : List Msg)

theorem mem_stormGroup {k : String × String × String × Bool × String} {i : Nat} :
    i ∈ stormGroup w ms k ↔ i < ms.length ∧ ms[i]?.bind (stormKey w) = some k := by
  simp [stormGroup]

theorem bigAt_eq_some {i : Nat} {idx : List Nat} (h : bigAt w ms i = some idx) :
    ∃ k, ms[i]?.bind (stormKey w) = some k ∧ idx = stormGroup w ms k := by
  unfold bigAt at h
  rcases hk : ms[i]?.bind (stormKey w) with _ | k
  · simp [hk] at h
  · simp only [hk] at h
    split at h
    · exact ⟨k, rfl, (Option.some.inj h).symm⟩
    · cases h

/-- Every message of a storm is in the same storm. -/
theorem bigAt_mem {i j : Nat} {idx : List Nat} (h : bigAt w ms i = some idx) (hj : j ∈ idx) :
    bigAt w ms j = some idx := by
  obtain ⟨k, hk, rfl⟩ := bigAt_eq_some w ms h
  have hjk := ((mem_stormGroup w ms).mp hj).2
  unfold bigAt at h ⊢
  rw [hjk]
  rw [hk] at h
  exact h

theorem mem_of_bigAt {i : Nat} {idx : List Nat} (h : bigAt w ms i = some idx) : i ∈ idx := by
  obtain ⟨k, hk, rfl⟩ := bigAt_eq_some w ms h
  refine (mem_stormGroup w ms).mpr ⟨?_, hk⟩
  by_contra hlt
  rw [List.getElem?_eq_none (by omega)] at hk
  simp at hk

theorem mem_kept {i : Nat} : i ∈ kept w ms ↔ i < ms.length ∧ dropped w ms i = false := by
  simp [kept]

/-- The original messages that the merged message `p` carries. -/
def block (p : Nat) : List Nat := (origins w ms).getD p []

theorem block_of_lt {p : Nat} (hp : p < (kept w ms).length) :
    block w ms p = (bigAt w ms (kept w ms)[p]).getD [(kept w ms)[p]] := by
  simp [block, origins, hp]

theorem origins_length : (origins w ms).length = (kept w ms).length := by simp [origins]

theorem mergeStorm_length : (mergeStorm w ms).length = (kept w ms).length := by simp [mergeStorm]

/-- No original message is lost. -/
theorem exists_block {j : Nat} (hj : j < ms.length) :
    ∃ p < (kept w ms).length, j ∈ block w ms p := by
  rcases hb : bigAt w ms j with _ | idx
  · have hk : j ∈ kept w ms := (mem_kept w ms).mpr ⟨hj, by simp [dropped, hb]⟩
    obtain ⟨p, hp, he⟩ := List.getElem_of_mem hk
    exact ⟨p, hp, by simp [block_of_lt w ms hp, he, hb]⟩
  · have hj' := mem_of_bigAt w ms hb
    rcases idx with _ | ⟨h, rest⟩
    · cases hj'
    · have hh := bigAt_mem w ms hb (List.mem_cons_self)
      obtain ⟨k, -, hidx⟩ := bigAt_eq_some w ms hb
      have hlt := ((mem_stormGroup w ms).mp (hidx ▸ List.mem_cons_self)).1
      have hk : h ∈ kept w ms := (mem_kept w ms).mpr ⟨hlt, by simp [dropped, hh]⟩
      obtain ⟨p, hp, he⟩ := List.getElem_of_mem hk
      exact ⟨p, hp, by simpa [block_of_lt w ms hp, he, hh] using hj'⟩

/-- A kept message of a storm is its first one. -/
theorem kept_head {i : Nat} {idx : List Nat} (hi : i ∈ kept w ms) (h : bigAt w ms i = some idx) :
    idx.head? = some i := by
  have := ((mem_kept w ms).mp hi).2
  simpa [dropped, h] using this

/-- Two merged messages have no original message in common. -/
theorem block_unique {p q j : Nat} (hp : p < (kept w ms).length) (hq : q < (kept w ms).length)
    (hjp : j ∈ block w ms p) (hjq : j ∈ block w ms q) : p = q := by
  have hnd : (kept w ms).Nodup := List.nodup_range.filter _
  rw [← @List.Nodup.getElem_inj_iff _ _ hnd p hp q hq]
  rw [block_of_lt w ms hp] at hjp
  rw [block_of_lt w ms hq] at hjq
  have kp := List.getElem_mem hp
  have kq := List.getElem_mem hq
  rcases hbp : bigAt w ms (kept w ms)[p] with _ | a
  · have hj : j = (kept w ms)[p] := by simpa [hbp] using hjp
    rcases hbq : bigAt w ms (kept w ms)[q] with _ | b
    · have : j = (kept w ms)[q] := by simpa [hbq] using hjq
      exact hj ▸ this
    · rw [← hj] at hbp
      have := bigAt_mem w ms hbq (by simpa [hbq] using hjq)
      rw [hbp] at this
      cases this
  · have ha := bigAt_mem w ms hbp (by simpa [hbp] using hjp)
    rcases hbq : bigAt w ms (kept w ms)[q] with _ | b
    · have hj : j = (kept w ms)[q] := by simpa [hbq] using hjq
      rw [← hj, ha] at hbq
      cases hbq
    · have hb := bigAt_mem w ms hbq (by simpa [hbq] using hjq)
      rw [ha] at hb
      cases hb
      have h1 := kept_head w ms kp hbp
      have h2 := kept_head w ms kq hbq
      exact Option.some.inj (h1 ▸ h2)

theorem block_nonempty {p : Nat} (hp : p < (kept w ms).length) : ∃ j, j ∈ block w ms p := by
  rw [block_of_lt w ms hp]
  rcases hb : bigAt w ms (kept w ms)[p] with _ | idx
  · exact ⟨(kept w ms)[p], by simp⟩
  · exact ⟨_, by simpa using mem_of_bigAt w ms hb⟩

theorem block_lt {p j : Nat} (hp : p < (kept w ms).length) (hj : j ∈ block w ms p) :
    j < ms.length := by
  rw [block_of_lt w ms hp] at hj
  rcases hb : bigAt w ms (kept w ms)[p] with _ | idx
  · have : j = (kept w ms)[p] := by simpa [hb] using hj
    exact this ▸ ((mem_kept w ms).mp (List.getElem_mem hp)).1
  · obtain ⟨k, -, rfl⟩ := bigAt_eq_some w ms hb
    exact ((mem_stormGroup w ms).mp (by simpa [hb] using hj)).1

/-! ## The requests of a stage -/

/-- Some request to such a place carried message `i` and ended so. -/
def carried (log : List Sent) (i : Nat) (p : Place → Bool) (o : Outcome → Bool) : Bool :=
  log.any fun s => i ∈ s.carries && (p s.place && o s.outcome)

theorem carried_iff {log : List Sent} {i : Nat} {p : Place → Bool} {o : Outcome → Bool} :
    carried log i p o = true ↔
      ∃ s ∈ log, i ∈ s.carries ∧ p s.place = true ∧ o s.outcome = true := by
  simp [carried]

@[simp] theorem carried_append {l₁ l₂ : List Sent} {i : Nat} {p : Place → Bool}
    {o : Outcome → Bool} :
    carried (l₁ ++ l₂) i p o = (carried l₁ i p o || carried l₂ i p o) := by
  simp [carried]

def Outcome.ok (o : Outcome) : Bool := o = .accepted

/-- The errors of one text fit its requests: each carries the same messages,
fewer errors than channels say that one took it, and more errors than refusals
say that one failed in a way that a repeat may cure. -/
structure SendErrors.Fair (e : SendErrors) (cfg : Cfg) (place : Place)
    (carries : List Nat) : Prop where
  carry : ∀ s ∈ e.log, s.carries = carries
  at_place : ∀ s ∈ e.log, s.place = place ∨ s.place = .webhook ∧ cfg.webhook ≠ ""
  got : (∃ s ∈ e.log, s.outcome = .accepted) → e.len < channelCount cfg
  again : e.rejected < e.len → ∃ s ∈ e.log, s.outcome.transient = true

theorem sendAlert_fair (cfg : Cfg) (place : Place) (tg : Item → Outcome) (hook : Item → Bool)
    (carries : List Nat) (item : Item) :
    (sendAlert cfg place tg hook carries item).Fair cfg place carries := by
  unfold sendAlert
  by_cases ht : cfg.telegramToken ≠ "" ∧ cfg.telegramChat ≠ "" <;>
    by_cases hw : cfg.webhook ≠ "" <;> simp only [ht, hw, if_false]
  all_goals rcases tg item with _ | _ | u
  all_goals rcases hook item with _ | _
  all_goals constructor <;> simp [sendTg, sendHook, Outcome.transient, channelCount, ht, hw]

/-- The sets of a stage fit its requests: what some channel took is in `got`,
and what is in `again` failed in a way that a repeat may cure. -/
structure Stage.Fair (s : Stage) (cfg : Cfg) (place : Place) (idx : List Nat)
    (orig : Nat → Nat) : Prop where
  at_place : ∀ e ∈ s.log, e.place = place ∨ e.place = .webhook ∧ cfg.webhook ≠ ""
  got : ∀ e ∈ s.log, e.outcome = .accepted → ∀ x ∈ e.carries, ∃ j ∈ s.got, orig j = x
  again : ∀ j ∈ s.again, j ∈ idx ∧ ∃ e ∈ s.log, orig j ∈ e.carries ∧ e.outcome.transient = true

theorem Stage.fair_empty (cfg : Cfg) (place : Place) (idx : List Nat) (orig : Nat → Nat) :
    Stage.Fair {} cfg place idx orig := by
  constructor <;> simp

/-- One more request keeps the sets of a stage fit. -/
theorem Stage.Fair.note {s : Stage} {cfg : Cfg} {place : Place} {idx js : List Nat}
    {orig : Nat → Nat} {e : SendErrors} (hs : s.Fair cfg place idx orig)
    (he : e.Fair cfg place (js.map orig)) (hjs : ∀ j ∈ js, j ∈ idx) :
    (s.note e (channelCount cfg) js).Fair cfg place idx orig := by
  constructor
  · intro r hr
    rcases List.mem_append.mp hr with h | h
    · exact hs.at_place r h
    · exact he.at_place r h
  · intro r hr hok x hx
    rcases List.mem_append.mp hr with h | h
    · obtain ⟨j, hj, rfl⟩ := hs.got r h hok x hx
      refine ⟨j, ?_, rfl⟩
      simp only [Stage.note]
      split
      · exact Finset.mem_union_left _ hj
      · exact hj
    · have hlen := he.got ⟨r, h, hok⟩
      rw [he.carry r h] at hx
      obtain ⟨j, hj, rfl⟩ := List.mem_map.mp hx
      exact ⟨j, by simp [Stage.note, outcome, hlen, hj], rfl⟩
  · intro j hj
    have hcase : j ∈ s.again ∨ (e.rejected < e.len ∧ j ∈ js) := by
      simp only [Stage.note] at hj
      split at hj
      · rename_i ho
        rcases Finset.mem_union.mp hj with h | h
        · exact Or.inl h
        · have hrej : e.rejected < e.len := by
            simp only [outcome, Bool.and_eq_true, decide_eq_true_eq] at ho
            exact ho.2
          exact Or.inr ⟨hrej, by simpa using h⟩
      · exact Or.inl hj
    rcases hcase with h | ⟨h, hin⟩
    · obtain ⟨hidx, r, hr, hc, ht⟩ := hs.again j h
      exact ⟨hidx, r, List.mem_append_left _ hr, hc, ht⟩
    · obtain ⟨r, hr, ht⟩ := he.again h
      refine ⟨hjs j hin, r, List.mem_append_right _ hr, ?_, ht⟩
      rw [he.carry r hr]
      exact List.mem_map_of_mem hin

theorem sendCommon_fair (cfg : Cfg) (place : Place) (tg : Item → Outcome) (hook : Item → Bool)
    (idx : List Nat) (orig : Nat → Nat) (threshold : Nat) :
    (sendCommon cfg place tg hook idx orig threshold).Fair cfg place idx orig := by
  simp only [sendCommon]
  split
  · exact Stage.fair_empty _ _ _ _
  · split
    · exact (Stage.fair_empty _ _ _ _).note (sendAlert_fair _ _ _ _ _ _) fun _ h => h
    · -- one by one: the fold keeps the sets fit
      have hfold : ∀ (js : List Nat) (s : Stage), (∀ j ∈ js, j ∈ idx) →
          s.Fair cfg place idx orig →
          (js.foldl (fun s i => s.note (sendAlert cfg place tg hook [orig i] (.one i))
            (channelCount cfg) [i]) s).Fair cfg place idx orig := by
        intro js
        induction js with
        | nil => exact fun s _ hs => hs
        | cons j js ih =>
          intro s hjs hs
          refine ih _ (fun k hk => hjs k (List.mem_cons_of_mem _ hk)) ?_
          refine Stage.Fair.note hs (sendAlert_fair cfg place tg hook ([j].map orig) _) ?_
          intro k hk
          exact List.mem_singleton.mp hk ▸ hjs j List.mem_cons_self
      exact hfold idx {} (fun _ h => h) (Stage.fair_empty _ _ _ _)

/-! ## The chats of the groups -/

/-- The batch of one chat: what the chat took is not among the failed, and
every request went to the chat. -/
structure Batch.Fair (b : Batch) (chat : String) (items : List Nat) : Prop where
  at_place : ∀ e ∈ b.log, e.place = .route chat
  failed : ∀ j ∈ b.failed, j ∈ items
  got : ∀ e ∈ b.log, e.outcome = .accepted → ∀ x ∈ e.carries, x ∈ items ∧ x ∉ b.failed

theorem sendBatch_fair (net : Net) (chat : String) (items : List Nat) (threshold : Nat)
    (hnd : items.Nodup) : (sendBatch net chat items threshold).Fair chat items := by
  unfold sendBatch
  split
  · constructor <;> rcases ho : net.route chat .digest with _ | _ | u <;> simp [Batch.note]
  · -- the failed are among the messages already tried, so a later one is not
    have hfold : ∀ (js done : List Nat) (b : Batch), (done ++ js).Nodup → b.Fair chat done →
        (js.foldl (fun b i => b.note chat [i] (net.route chat (.one i))) b).Fair chat
          (done ++ js) := by
      intro js
      induction js with
      | nil => intro done b _ hb; simpa using hb
      | cons j js ih =>
        intro done b hnd hb
        have hsplit : done ++ j :: js = (done ++ [j]) ++ js := by simp
        have hj : j ∉ done := by
          intro h
          have := List.disjoint_of_nodup_append hnd h
          exact this List.mem_cons_self
        rw [hsplit] at hnd ⊢
        refine ih (done ++ [j]) _ hnd ⟨?_, ?_, ?_⟩
        · intro e he
          rcases List.mem_append.mp he with h | h
          · exact hb.at_place e h
          · rw [List.mem_singleton.mp h]
        · intro x hx
          simp only [Batch.note] at hx
          split at hx
          · exact List.mem_append_left _ (hb.failed x hx)
          · rcases List.mem_append.mp hx with h | h
            · exact List.mem_append_left _ (hb.failed x h)
            · exact List.mem_append_right _ h
        · intro e he hok x hx
          rcases List.mem_append.mp he with h | h
          · obtain ⟨h1, h2⟩ := hb.got e h hok x hx
            refine ⟨List.mem_append_left _ h1, ?_⟩
            have hxj : x ≠ j := fun hxj => hj (hxj ▸ h1)
            simp only [Batch.note]
            split
            · exact h2
            · simp [h2, hxj]
          · rw [List.mem_singleton.mp h] at hok hx
            have hxj := List.mem_singleton.mp hx
            refine ⟨by simp [hxj], ?_⟩
            simp only at hok
            simp only [Batch.note, hok, if_true, hxj]
            exact fun hf => hj (hb.failed j hf)
    have := hfold items [] {} (by simpa using hnd) ⟨by simp, by simp, by simp⟩
    simpa using this

/-- The loop over the chats: what a chat took is in `got`, and what falls back
is a message of the batch. -/
structure Routes.Fair (r : Routes) (n : Nat) : Prop where
  at_place : ∀ e ∈ r.log, ∃ c, e.place = .route c
  got : ∀ e ∈ r.log, e.outcome = .accepted → ∀ x ∈ e.carries, x ∈ r.got
  back : ∀ j ∈ r.back, j < n

theorem back_mem {p : List Nat → Nat → Bool} {failed back : List Nat} {j : Nat}
    (h : j ∈ failed.foldl (fun back i => if p back i then back ++ [i] else back) back) :
    j ∈ back ∨ j ∈ failed := by
  induction failed generalizing back with
  | nil => exact Or.inl h
  | cons i failed ih =>
    rcases ih h with h | h
    · dsimp only at h
      split at h
      · rcases List.mem_append.mp h with h | h
        · exact Or.inl h
        · exact Or.inr (by simp [List.mem_singleton.mp h])
      · exact Or.inl h
    · exact Or.inr (List.mem_cons_of_mem _ h)

theorem sendRoute_fair {cfg : Cfg} {net : Net} {threshold : Nat} {oom : Bool}
    {r : Routes} {p : String × List Nat} (hr : r.Fair ms.length) (hnd : p.2.Nodup)
    (hlt : ∀ i ∈ p.2, i < ms.length) :
    (sendRoute cfg net ms threshold oom r p).Fair ms.length := by
  have hb := sendBatch_fair net p.1 p.2 threshold hnd
  constructor
  · intro e he
    rcases List.mem_append.mp he with h | h
    · exact hr.at_place e h
    · exact ⟨_, hb.at_place e h⟩
  · intro e he hok x hx
    rcases List.mem_append.mp he with h | h
    · exact Finset.mem_union_left _ (hr.got e h hok x hx)
    · obtain ⟨h1, h2⟩ := hb.got e h hok x hx
      exact Finset.mem_union_right _ (by simp [h1, h2])
  · intro j hj
    rcases back_mem hj with h | h
    · exact hr.back j h
    · exact hlt j (hb.failed j h)

theorem plan_fair {cfg : Cfg} {p : String × List Nat} (hp : p ∈ plan cfg ms) :
    p.2.Nodup ∧ ∀ i ∈ p.2, i < ms.length := by
  simp only [plan, List.mem_map] at hp
  obtain ⟨c, -, rfl⟩ := hp
  exact ⟨List.nodup_range.filter _, fun i hi => by simpa using (List.mem_filter.mp hi).1⟩

theorem routes_fair (cfg : Cfg) (net : Net) (threshold : Nat) (oom : Bool) :
    ((plan cfg ms).foldl (sendRoute cfg net ms threshold oom) {}).Fair ms.length := by
  have hfold : ∀ (ps : List (String × List Nat)) (r : Routes), (∀ p ∈ ps, p ∈ plan cfg ms) →
      r.Fair ms.length → (ps.foldl (sendRoute cfg net ms threshold oom) r).Fair ms.length := by
    intro ps
    induction ps with
    | nil => exact fun r _ hr => hr
    | cons p ps ih =>
      intro r hps hr
      obtain ⟨h1, h2⟩ := plan_fair ms (hps p List.mem_cons_self)
      exact ih _ (fun q hq => hps q (List.mem_cons_of_mem _ hq)) (sendRoute_fair ms hr h1 h2)
  exact hfold _ _ (fun _ h => h) ⟨by simp, by simp, by simp⟩

/-- The sets of `_send_routes` fit its requests, and none of these went to a
common channel. -/
structure RoutesFair (s : Stage) (n : Nat) : Prop where
  got : ∀ e ∈ s.log, e.outcome = .accepted → ∀ x ∈ e.carries, x ∈ s.got
  away : ∀ e ∈ s.log, e.place.common = false
  again : ∀ j ∈ s.again, j < n ∧
    ∃ e ∈ s.log, e.place = .fallback ∧ j ∈ e.carries ∧ e.outcome.transient = true

theorem sendRoutes_fair (cfg : Cfg) (net : Net) (threshold : Nat) (oom : Bool) :
    RoutesFair (sendRoutes cfg net ms threshold oom) ms.length := by
  have hr := routes_fair ms cfg net threshold oom
  simp only [sendRoutes]
  generalize (plan cfg ms).foldl (sendRoute cfg net ms threshold oom) {} = r at hr ⊢
  have haway : ∀ e ∈ r.log, e.place.common = false := by
    intro e he
    obtain ⟨c, hc⟩ := hr.at_place e he
    rw [hc]
    rfl
  split
  · exact ⟨hr.got, haway, by simp⟩
  · have hf := sendCommon_fair { cfg with webhook := "" } .fallback net.fallback (fun _ => false)
      (List.range r.back.length) (fun j => r.back.getD j 0) threshold
    generalize sendCommon _ _ _ _ _ _ _ = f at hf ⊢
    have hplace : ∀ e ∈ f.log, e.place = .fallback := fun e he =>
      (hf.at_place e he).resolve_right fun h => h.2 rfl
    refine ⟨?_, ?_, ?_⟩
    · intro e he hok x hx
      rcases List.mem_append.mp he with h | h
      · exact Finset.mem_union_left _ (hr.got e h hok x hx)
      · obtain ⟨j, hj, hjx⟩ := hf.got e h hok x hx
        exact Finset.mem_union_right _ (Finset.mem_image.mpr ⟨j, hj, hjx⟩)
    · intro e he
      rcases List.mem_append.mp he with h | h
      · exact haway e h
      · rw [hplace e h]
        rfl
    · intro x hx
      obtain ⟨j, hj, rfl⟩ := Finset.mem_image.mp hx
      have hj' : j ∈ f.again := by
        split at hj
        · exact (Finset.mem_filter.mp hj).1
        · exact hj
      obtain ⟨hidx, e, he, hc, ht⟩ := hf.again j hj'
      have hlt : j < r.back.length := List.mem_range.mp hidx
      refine ⟨hr.back _ ?_, e, List.mem_append_right _ he, hplace e he, hc, ht⟩
      rw [List.getD_eq_getElem?_getD, List.getElem?_eq_getElem hlt]
      exact List.getElem_mem hlt

/-! ## The main chat and the webhook -/

theorem sendMain_fair (cfg : Cfg) (net : Net) (threshold : Nat) :
    (sendMain cfg net ms threshold).Fair cfg .mainChat (List.range ms.length) id := by
  simp only [sendMain]
  split
  · exact sendCommon_fair _ _ _ _ _ _ _
  · have ha := sendCommon_fair { cfg with webhook := "" } .mainChat net.mainChat net.hook
      ((List.range ms.length).filter fun i => onMain cfg (ms.getD i default)) id threshold
    have hb := sendCommon_fair { cfg with telegramChat := "" } .mainChat net.mainChat net.hook
      (List.range ms.length) id threshold
    generalize sendCommon { cfg with webhook := "" } _ _ _ _ _ _ = a at ha ⊢
    generalize sendCommon { cfg with telegramChat := "" } _ _ _ _ _ _ = b at hb ⊢
    have haplace : ∀ e ∈ a.log, e.place = .mainChat := fun e he =>
      (ha.at_place e he).resolve_right fun h => h.2 rfl
    have hain : ∀ j ∈ a.again, j ∈ List.range ms.length := fun j hj =>
      (List.mem_filter.mp (ha.again j hj).1).1
    split
    · exact ⟨fun e he => Or.inl (haplace e he), ha.got,
        fun j hj => ⟨hain j hj, (ha.again j hj).2⟩⟩
    · refine ⟨?_, ?_, ?_⟩
      · intro e he
        rcases List.mem_append.mp he with h | h
        · exact Or.inl (haplace e h)
        · exact hb.at_place e h
      · intro e he hok x hx
        rcases List.mem_append.mp he with h | h
        · obtain ⟨j, hj, hjx⟩ := ha.got e h hok x hx
          exact ⟨j, Finset.mem_union_left _ hj, hjx⟩
        · obtain ⟨j, hj, hjx⟩ := hb.got e h hok x hx
          exact ⟨j, Finset.mem_union_right _ hj, hjx⟩
      · intro j hj
        rcases Finset.mem_union.mp hj with h | h
        · obtain ⟨-, e, he, hc, ht⟩ := ha.again j h
          exact ⟨hain j h, e, List.mem_append_left _ he, hc, ht⟩
        · obtain ⟨hin, e, he, hc, ht⟩ := hb.again j h
          exact ⟨hin, e, List.mem_append_right _ he, hc, ht⟩

/-! ## The whole batch -/

/-- The merged messages that `dispatch` asks for again. -/
def againOfBatch (cfg : Cfg) (net : Net) (threshold : Nat) (oom : Bool) : Finset Nat :=
  let c := sendMain cfg net ms threshold
  let r : Stage := if cfg.telegramToken = "" then {} else sendRoutes cfg net ms threshold oom
  let again := (c.again \ c.got) \ (r.got.filter fun i => ¬ onMain cfg (ms.getD i default))
  (if oom then again \ ((c.uncertain ∪ r.uncertain).filter fun i =>
    (ms.getD i default).kind = "oom") else again) ∪ r.again

theorem batch_length : (batch w ms).length = (kept w (withNotes w ms)).length := by
  simp [batch, mergeStorm_length]

theorem withNotes_length : (withNotes w ms).length = ms.length := by simp [withNotes]

variable (cfg : Cfg) (net : Net) (threshold : Nat) (oom : Bool)

theorem mem_finished {j : Nat} (hms : ms ≠ []) :
    j ∈ (dispatch w cfg net true ms threshold oom).finished ↔
      ∃ p < (kept w (withNotes w ms)).length,
        p ∉ againOfBatch (batch w ms) cfg net threshold oom ∧ j ∈ block w (withNotes w ms) p := by
  simp only [dispatch, hms, if_false, Bool.not_true, Bool.false_eq_true, List.mem_toFinset,
    List.mem_flatMap, List.mem_filter, List.mem_range, origins_length, decide_eq_true_eq,
    againOfBatch, block, and_assoc]

theorem dispatch_ok (hms : ms ≠ []) :
    (dispatch w cfg net true ms threshold oom).ok = true ↔
      againOfBatch (batch w ms) cfg net threshold oom = ∅ := by
  simp only [dispatch, hms, if_false, Bool.not_true, Bool.false_eq_true, decide_eq_true_eq,
    againOfBatch]

theorem dispatch_log (hms : ms ≠ []) :
    (dispatch w cfg net true ms threshold oom).log =
      (sendMain cfg net (batch w ms) threshold).log ++
        (if cfg.telegramToken = "" then ({} : Stage)
          else sendRoutes cfg net (batch w ms) threshold oom).log := by
  simp only [dispatch, hms, if_false, Bool.not_true, Bool.false_eq_true]

/-- A merged message is asked for again after a failure that a repeat may cure.
Either that was its copy in the main chat, or no common channel took it, and no
other chat either when the main chat is not due it. -/
theorem again_of_batch {p : Nat} (hp : p ∈ againOfBatch ms cfg net threshold oom)
    (log : List Sent)
    (hlog : log = (sendMain cfg net ms threshold).log ++ (if cfg.telegramToken = "" then ({} : Stage)
      else sendRoutes cfg net ms threshold oom).log) :
    p < ms.length ∧ carried log p (fun _ => true) Outcome.transient = true ∧
      (carried log p (· = .fallback) Outcome.transient = true ∨
        carried log p Place.common Outcome.ok = false ∧
          (onMain cfg (ms.getD p default) = false →
            carried log p (fun _ => true) Outcome.ok = false)) := by
  have hc := sendMain_fair ms cfg net threshold
  have hr : RoutesFair (if cfg.telegramToken = "" then ({} : Stage)
      else sendRoutes cfg net ms threshold oom) ms.length := by
    split
    · exact ⟨by simp, by simp, by simp⟩
    · exact sendRoutes_fair ms cfg net threshold oom
  simp only [againOfBatch] at hp
  generalize sendMain cfg net ms threshold = c at hp hc hlog
  generalize (if cfg.telegramToken = "" then ({} : Stage)
    else sendRoutes cfg net ms threshold oom) = r at hp hr hlog
  subst hlog
  rcases Finset.mem_union.mp hp with h | h
  · -- asked for by the common channels
    have h' : p ∈ (c.again \ c.got) \
        (r.got.filter fun i => ¬ onMain cfg (ms.getD i default)) := by
      split at h
      · exact (Finset.mem_sdiff.mp h).1
      · exact h
    obtain ⟨h1, hrgot⟩ := Finset.mem_sdiff.mp h'
    obtain ⟨hagain, hgot⟩ := Finset.mem_sdiff.mp h1
    obtain ⟨hin, e, he, hcar, ht⟩ := hc.again p hagain
    have hcommon : ∀ e ∈ c.log, p ∈ e.carries → e.outcome ≠ .accepted := by
      intro e he hcar hok
      obtain ⟨j, hj, rfl⟩ := hc.got e he hok p hcar
      exact hgot hj
    refine ⟨List.mem_range.mp hin, ?_, Or.inr ⟨?_, ?_⟩⟩
    · exact carried_iff.mpr ⟨e, List.mem_append_left _ he, hcar, rfl, ht⟩
    · rw [Bool.eq_false_iff, Ne, carried_iff]
      rintro ⟨s, hs, hcar, hplace, hok⟩
      rcases List.mem_append.mp hs with h | h
      · exact hcommon s h hcar (by simpa [Outcome.ok] using hok)
      · rw [hr.away s h] at hplace
        cases hplace
    · intro hon
      rw [Bool.eq_false_iff, Ne, carried_iff]
      rintro ⟨s, hs, hcar, -, hok⟩
      have hok' : s.outcome = .accepted := by simpa [Outcome.ok] using hok
      rcases List.mem_append.mp hs with h | h
      · exact hcommon s h hcar hok'
      · have := hr.got s h hok' p hcar
        exact hrgot (Finset.mem_filter.mpr ⟨this, by rw [hon]; decide⟩)
  · -- asked for by its copy in the main chat
    obtain ⟨hlt, e, he, hplace, hcar, ht⟩ := hr.again p h
    have hmem := List.mem_append_right c.log he
    exact ⟨hlt, carried_iff.mpr ⟨e, hmem, hcar, rfl, ht⟩,
      Or.inl (carried_iff.mpr ⟨e, hmem, hcar, by simp [hplace], ht⟩)⟩

/-- `dispatch` says yes exactly when no message is left out of `finished`. -/
theorem dispatch_ok_iff (canSend : Bool) :
    (dispatch w cfg net canSend ms threshold oom).ok = true ↔
      ∀ j < ms.length, j ∈ (dispatch w cfg net canSend ms threshold oom).finished := by
  by_cases hms : ms = []
  · subst hms
    simp [dispatch]
  rcases canSend with _ | _
  · have hpos : 0 < ms.length := List.length_pos_iff.mpr hms
    simp only [dispatch, hms, if_false, Bool.not_false, if_true, Bool.false_eq_true,
      Finset.notMem_empty, imp_false, false_iff, not_forall]
    exact ⟨0, by simp [hpos]⟩
  · have hlen := withNotes_length w ms
    rw [dispatch_ok w ms cfg net threshold oom hms]
    constructor
    · intro he j hj
      obtain ⟨p, hp, hjp⟩ := exists_block w (withNotes w ms) (hlen.symm ▸ hj)
      exact (mem_finished w ms cfg net threshold oom hms).mpr ⟨p, hp, by simp [he], hjp⟩
    · intro hall
      rw [Finset.eq_empty_iff_forall_notMem]
      intro p hp
      have hlt := (again_of_batch (batch w ms) cfg net threshold oom hp _ rfl).1
      rw [batch_length] at hlt
      obtain ⟨j, hj⟩ := block_nonempty w (withNotes w ms) hlt
      obtain ⟨q, hq, hqn, hjq⟩ := (mem_finished w ms cfg net threshold oom hms).mp
        (hall j (hlen ▸ block_lt w (withNotes w ms) hlt hj))
      exact hqn (block_unique w (withNotes w ms) hlt hq hj hjq ▸ hp)

/-- Why the message `j` may be left out of `finished`. Nothing was sent at all,
or it failed in a way that a repeat may cure: its copy in the main chat did, or
no common channel took it, and no other chat either when the main chat is not
due it. -/
def MayBeLeftOut (w : Wording) (cfg : Cfg) (canSend : Bool) (ms : List Msg) (log : List Sent)
    (j : Nat) : Prop :=
  canSend = false ∧ log = [] ∨
    ∃ p, j ∈ block w (withNotes w ms) p ∧
      carried log p (fun _ => true) Outcome.transient = true ∧
      (carried log p (· = .fallback) Outcome.transient = true ∨
        carried log p Place.common Outcome.ok = false ∧
          (onMain cfg ((batch w ms).getD p default) = false →
            carried log p (fun _ => true) Outcome.ok = false))

/-- `dispatch` repeats the undelivered only, and says yes exactly when there is
nothing to repeat. -/
theorem dispatch_repeats_the_undelivered (w : Wording) (ms : List Msg) (cfg : Cfg) (net : Net)
    (threshold : Nat) (oom canSend : Bool) :
    (∀ j < ms.length, j ∉ (dispatch w cfg net canSend ms threshold oom).finished →
      MayBeLeftOut w cfg canSend ms (dispatch w cfg net canSend ms threshold oom).log j) ∧
    ((dispatch w cfg net canSend ms threshold oom).ok = true ↔
      ∀ j < ms.length, j ∈ (dispatch w cfg net canSend ms threshold oom).finished) := by
  refine ⟨?_, dispatch_ok_iff w ms cfg net threshold oom canSend⟩
  intro j hj hnot
  have hms : ms ≠ [] := List.ne_nil_of_length_pos (by omega)
  rcases canSend with _ | _
  · exact Or.inl ⟨rfl, by simp [dispatch, hms]⟩
  · have hlen := withNotes_length w ms
    obtain ⟨p, hp, hjp⟩ := exists_block w (withNotes w ms) (hlen.symm ▸ hj)
    have hagain : p ∈ againOfBatch (batch w ms) cfg net threshold oom := by
      by_contra hn
      exact hnot ((mem_finished w ms cfg net threshold oom hms).mpr ⟨p, hp, hn, hjp⟩)
    obtain ⟨-, ht, hrest⟩ := again_of_batch (batch w ms) cfg net threshold oom hagain _
      (dispatch_log w ms cfg net threshold oom hms)
    exact Or.inr ⟨p, hjp, ht, hrest⟩

/-- The main chat is down and takes no copy of the alert of a server whose
group has a chat of its own. That chat takes the alert, and it is asked for
again: the code wants the failure of the main chat repeated. -/
theorem a_main_failure_is_repeated :
    ¬ ∀ (w : Wording) (ms : List Msg) (cfg : Cfg) (net : Net) (threshold : Nat) (oom : Bool),
      ∀ j < ms.length, j ∉ (dispatch w cfg net true ms threshold oom).finished →
        ∃ p, j ∈ block w (withNotes w ms) p ∧
          carried (dispatch w cfg net true ms threshold oom).log p (fun _ => true) Outcome.transient
            = true ∧
          carried (dispatch w cfg net true ms threshold oom).log p (fun _ => true) Outcome.ok
            = false := by
  intro h
  let w : Wording := ⟨Msg.text, Msg.text, fun _ => false, Msg.text, fun _ => ""⟩
  let ms : List Msg :=
    [{ text := "web-1", sect := "servers", group := "web", kind := "cpu", target := "web-1",
       ref := .srv [1] }]
  let cfg : Cfg :=
    { telegramToken := "t", telegramChat := "main",
      chats := [{ chat := "web", serverGroups := ["web"] }] }
  let net : Net := ⟨fun _ => .failed false, fun _ => true, fun _ _ => .accepted, fun _ => .accepted⟩
  obtain ⟨p, hp, -, hno⟩ := h w ms cfg net 0 false 0 (by decide) (by decide)
  have ho : origins w (withNotes w ms) = [[0]] := by decide
  rcases p with _ | p
  · exact absurd hno (by decide)
  · simp [block, ho] at hp

end Kervax
