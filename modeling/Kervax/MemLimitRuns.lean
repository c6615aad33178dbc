-- Runs of the memory-limit watch: what is kept of each key is its episode of samples at the
-- limit, and a key is told exactly while its episode holds.
import Kervax.MemLimit
import Mathlib.Data.List.Induction

namespace Kervax.MemLimit

open Episodes (Limits Linked Kept)
open Kervax.Podnames (Text)

/-- The limits of an episode at the memory limit. -/
def limits : Limits Int where
  hold := holdS
  gap := gapS
  cool := coolS
  nonneg := by decide
  gap_le := by decide

/-- The span of an episode. -/
def Episode.span (cs : Episode) : Int × Int := (cs.s, cs.l)

theorem sample_span (old : Option Episode) (t : Int) (v : Snap) :
    (sample old t v).span = Episodes.hit limits t (old.map Episode.span) := by
  cases old with
  | none => rfl
  | some cs =>
    have hsame : (gapS < t - cs.l ∧ active cs t = false) ↔
        (limits.gap < t - cs.span.2 ∧ Episodes.active limits t cs.span = false) := Iff.rfl
    simp only [sample]
    by_cases hnew : gapS < t - cs.l ∧ active cs t = false
    · rw [if_pos hnew, Option.map_some, Episodes.hit_new (hsame.mp hnew)]
      rfl
    · rw [if_neg hnew, Option.map_some, Episodes.hit_on (mt hsame.mpr hnew)]
      rfl

/-! ## One report -/

/-- The spans under a key. -/
def spanOf (st : State) (k : Text) : Option (Int × Int) := (Dict.get st k).map Episode.span

/-- Episodes are kept of the marks of each key. -/
structure Watched (mark : Text → Int → Prop) (now : Int) (st : State) : Prop where
  nodup : (Dict.keys st).Nodup
  kept : ∀ k, Kept limits (mark k) now (spanOf st k)

theorem kept_congr {mark mark' : Int → Prop} {now : Int} {st : Option (Int × Int)}
    (h : Kept limits mark now st) (hm : ∀ t, mark t ↔ mark' t) : Kept limits mark' now st := by
  obtain rfl : mark = mark' := funext fun t => propext (hm t)
  exact h

theorem Watched.later {mark : Text → Int → Prop} {now t : Int} {st : State}
    (h : Watched mark now st) (hle : now ≤ t) : Watched mark t st :=
  ⟨h.nodup, fun k => (h.kept k).later hle⟩

theorem spanOf_filter {st : State} (h : (Dict.keys st).Nodup) (now : Int) (k : Text) :
    spanOf (st.filter fun e => now - e.2.l ≤ keepS) k = Episodes.fade keepS now (spanOf st k) := by
  unfold spanOf
  rw [Dict.get_filter h]
  cases Dict.get st k with
  | none => rfl
  | some cs =>
    show Option.map Episode.span (if _ then some cs else none) = if _ then _ else _
    by_cases hk : now - cs.l ≤ keepS
    · rw [if_pos (decide_eq_true hk), Option.map_some, if_pos (show now - cs.span.2 ≤ keepS from hk)]
    · rw [if_neg (by simpa using hk), Option.map_none,
        if_neg (show ¬ now - cs.span.2 ≤ keepS from hk)]

theorem Watched.dropped {mark : Text → Int → Prop} {now : Int} {st : State}
    (h : Watched mark now st) : Watched mark now (st.filter fun e => now - e.2.l ≤ keepS) := by
  refine ⟨?_, fun k => ?_⟩
  · exact Dict.nodup_filter h.nodup _
  · rw [spanOf_filter h.nodup]
    exact (h.kept k).fade (by decide)

/-- The sample of an item marks its key. -/
theorem Watched.step {mark : Text → Int → Prop} {ev : Event} {st : State}
    (h : Watched mark ev.t st) (x : Item) :
    Watched (fun k t => mark k t ∨ t = ev.t ∧ hot x = true ∧ ev.key x = k) ev.t (ev.step st x) := by
  unfold Event.step
  split
  · next hhot =>
    refine ⟨Dict.nodup_put h.nodup _ _, fun k => ?_⟩
    by_cases hk : k = ev.key x
    · have hspan : ∀ e : Episode, spanOf (Dict.put st (ev.key x) e) k = some e.span := by
        intro e
        unfold spanOf
        rw [Dict.get_put, if_pos hk]
        rfl
      rw [hspan, sample_span]
      refine kept_congr (h.kept (ev.key x)).hit fun t => ?_
      rw [hk]
      simp [hhot]
    · have hspan : ∀ e : Episode, spanOf (Dict.put st (ev.key x) e) k = spanOf st k := by
        intro e
        unfold spanOf
        rw [Dict.get_put, if_neg hk]
      rw [hspan]
      refine kept_congr (h.kept k) fun t => ?_
      simp [Ne.symm hk]
  · next hhot =>
    refine ⟨h.nodup, fun k => kept_congr (h.kept k) fun t => ?_⟩
    simp [hhot]

theorem Watched.fold {mark : Text → Int → Prop} {ev : Event} (items : List Item) {st : State}
    (h : Watched mark ev.t st) :
    Watched (fun k t => mark k t ∨ t = ev.t ∧ ∃ x ∈ items, hot x = true ∧ ev.key x = k) ev.t
      (items.foldl ev.step st) := by
  induction items generalizing mark st with
  | nil => exact ⟨h.nodup, fun k => kept_congr (h.kept k) fun t => by simp⟩
  | cons x items ih =>
    have hrest := ih (h.step x)
    refine ⟨hrest.nodup, fun k => kept_congr (hrest.kept k) fun t => ?_⟩
    simp only [List.mem_cons, exists_eq_or_imp]
    tauto

/-! ## Runs -/

/-- A sample at the limit under the key. -/
def HotIn (ev : Event) (k : Text) : Prop :=
  ∃ items ∈ block ev.rep, ∃ x ∈ items, hot x = true ∧ ev.key x = k

/-- The times of the samples at the limit. -/
def HotAt (events : List Event) (k : Text) (t : Int) : Prop :=
  ∃ ev ∈ events, ev.t = t ∧ HotIn ev k

theorem hotAt_snoc (events : List Event) (ev : Event) (k : Text) (t : Int) :
    HotAt (events ++ [ev]) k t ↔ HotAt events k t ∨ t = ev.t ∧ HotIn ev k := by
  unfold HotAt
  simp only [List.mem_append, List.mem_singleton]
  constructor
  · rintro ⟨e, he | rfl, ht, hhot⟩
    · exact .inl ⟨e, he, ht, hhot⟩
    · exact .inr ⟨ht.symm, hhot⟩
  · rintro (⟨e, he, ht, hhot⟩ | ⟨ht, hhot⟩)
    · exact ⟨e, .inl he, ht, hhot⟩
    · exact ⟨ev, .inr rfl, ht.symm, hhot⟩

/-- The times of the reports do not go back, and none is later than `t`. -/
def Ordered (events : List Event) (t : Int) : Prop :=
  events.Pairwise (fun a b => a.t ≤ b.t) ∧ ∀ ev ∈ events, ev.t ≤ t

theorem after_snoc (mutes : List Text) (events : List Event) (ev : Event) :
    after mutes (events ++ [ev]) = receive (after mutes events) ev := by
  unfold after
  rw [List.foldl_append, List.foldl_cons, List.foldl_nil]

theorem ordered_snoc {events : List Event} {ev : Event} {t : Int}
    (h : Ordered (events ++ [ev]) t) : Ordered events ev.t ∧ ev.t ≤ t := by
  obtain ⟨hpair, hle⟩ := h
  rw [List.pairwise_append] at hpair
  exact ⟨⟨hpair.1, fun e he => hpair.2.2 e he ev List.mem_cons_self⟩,
    hle ev (List.mem_append_right _ List.mem_cons_self)⟩

/-- A report keeps the episodes of its marks and of those before it. -/
theorem Watched.receive {mark : Text → Int → Prop} {s : Server} {ev : Event}
    (h : Watched mark ev.t (s.memlim.getD [])) :
    Watched (fun k t => mark k t ∨ t = ev.t ∧ HotIn ev k) ev.t
      ((receive s ev).memlim.getD []) := by
  unfold MemLimit.receive update HotIn
  cases block ev.rep with
  | none =>
    refine ⟨h.nodup, fun k => kept_congr (h.kept k) fun t => ?_⟩
    simp
  | some items =>
    have hfold := h.dropped.fold items
    refine ⟨hfold.nodup, fun k => kept_congr (hfold.kept k) fun t => ?_⟩
    simp

/-- In every run what is kept of a key is the episode of its samples at the limit. -/
theorem after_watched (mutes : List Text) {events : List Event} {t : Int}
    (h : Ordered events t) :
    Watched (HotAt events) t ((after mutes events).memlim.getD []) := by
  induction events using List.reverseRecOn generalizing t with
  | nil =>
    refine ⟨List.nodup_nil, fun k => kept_congr (Episodes.kept_start t) fun t => ?_⟩
    simp [HotAt]
  | append_singleton events ev ih =>
    obtain ⟨hbefore, hle⟩ := ordered_snoc h
    rw [after_snoc]
    have hnext := ((ih hbefore).receive).later hle
    exact ⟨hnext.nodup, fun k =>
      kept_congr (hnext.kept k) fun t => (hotAt_snoc events ev k t).symm⟩

theorem after_last (mutes : List Text) (events : List Event) :
    (after mutes events).lastReport = events.getLast?.map Event.rep := by
  induction events using List.reverseRecOn with
  | nil => rfl
  | append_singleton events ev ih =>
    rw [after_snoc, List.getLast?_concat]
    rfl

theorem after_mutes (mutes : List Text) (events : List Event) :
    (after mutes events).alertMutes = mutes := by
  induction events using List.reverseRecOn with
  | nil => rfl
  | append_singleton events ev ih =>
    rw [after_snoc]
    exact ih

/-! ## What is told -/

/-- The field is there in the last report. -/
def FieldThere (events : List Event) : Prop :=
  ∃ ev ∈ events.getLast?, (block ev.rep).isSome = true

/-- The key is marked as meant so, or its pod or container is muted. -/
def Decided (mutes : List Text) (k : Text) : Prop :=
  Podnames.muted (decided ⟨mutes, none, none⟩) k = true

/-- An episode of the key from `y` on has held, and its last sample is not too long ago. -/
def Holds (events : List Event) (k : Text) (t y : Int) : Prop :=
  ∃ x, Linked limits (HotAt events k) y x ∧ holdS ≤ x - y ∧ t - x ≤ coolS

theorem decided_after (mutes : List Text) (events : List Event) :
    decided (after mutes events) = decided ⟨mutes, none, none⟩ := by
  unfold decided
  rw [after_mutes]

/-- What is told of an episode, when it is told. -/
theorem problem_some {s : Server} {t : Int} {withDecided : Bool} {k : Text} {cs : Episode}
    {p : Problem} (h : problem s t withDecided k cs = some p) :
    p.key = k ∧ p.since = (if cs.s = 0 then t else cs.s) ∧ active cs t = true ∧
      (withDecided = true ∨ ¬ Podnames.muted (decided s) k = true) := by
  by_cases hno : active cs t = false ∨ Podnames.muted (decided s) k = true ∧ withDecided = false
  · rw [problem, if_pos hno] at h
    cases h
  · rw [problem, if_neg hno] at h
    obtain ⟨hactive, hdec⟩ := not_or.mp hno
    obtain rfl := Option.some.inj h
    refine ⟨rfl, rfl, by simpa using hactive, ?_⟩
    cases withDecided with
    | true => exact .inl rfl
    | false => exact .inr fun hmuted => hdec ⟨hmuted, rfl⟩

theorem problem_told {s : Server} {t : Int} {withDecided : Bool} {k : Text} {cs : Episode}
    (hactive : active cs t = true)
    (hdec : withDecided = true ∨ ¬ Podnames.muted (decided s) k = true) :
    ∃ p, problem s t withDecided k cs = some p := by
  have hno : ¬ (active cs t = false ∨
      Podnames.muted (decided s) k = true ∧ withDecided = false) := by
    rintro (h | ⟨hmuted, hfalse⟩)
    · rw [hactive] at h
      cases h
    · rcases hdec with h | h
      · rw [h] at hfalse
        cases hfalse
      · exact h hmuted
  exact ⟨_, by rw [problem, if_neg hno]⟩

/-- A told key stands in the state, and the field is in the last report. -/
theorem mem_problems {s : Server} {t : Int} {withDecided : Bool} {p : Problem} :
    p ∈ problems s t withDecided ↔ (s.lastReport.bind block).isSome = true ∧
      ∃ cs, Dict.get (s.memlim.getD []) p.key = some cs ∧
        problem s t withDecided p.key cs = some p := by
  unfold problems
  cases hst : s.memlim with
  | none => simp [Dict.get]
  | some st =>
    cases hrep : s.lastReport.bind block with
    | none => simp
    | some items =>
      simp only [List.mem_filterMap, Option.isSome_some, Option.getD_some, true_and]
      constructor
      · rintro ⟨k, -, hbind⟩
        obtain ⟨cs, hcs, hp⟩ := Option.bind_eq_some_iff.mp hbind
        have hkey := (problem_some hp).1
        exact ⟨cs, by rw [hkey]; exact hcs, by rw [hkey]; exact hp⟩
      · rintro ⟨cs, hcs, hp⟩
        refine ⟨p.key, ?_, Option.bind_eq_some_iff.mpr ⟨cs, hcs, hp⟩⟩
        exact (List.mem_insertionSort _).mpr (List.mem_map_of_mem (Dict.mem_of_lookup hcs))

/-- What the watch tells, in every run: a key that is not decided on (or every key, when the
decided ones are asked for too) exactly while one of its episodes holds and the field is there,
once, and since the first sample that such an episode can begin with. -/
structure EpisodesTold : Prop where
  listed : ∀ mutes events t withDecided, Ordered events t → ∀ k,
    (∃ p ∈ problems (after mutes events) t withDecided, p.key = k) ↔
      FieldThere events ∧ (withDecided = true ∨ ¬ Decided mutes k) ∧ ∃ y, Holds events k t y
  since : ∀ mutes events t withDecided, Ordered events t →
    ∀ p ∈ problems (after mutes events) t withDecided, ∃ y, Holds events p.key t y ∧
      (∀ y', Holds events p.key t y' → y ≤ y') ∧ p.since = if y = 0 then t else y
  once : ∀ mutes events t withDecided, Ordered events t →
    ((problems (after mutes events) t withDecided).map Problem.key).Nodup

theorem fieldThere_iff (mutes : List Text) (events : List Event) :
    ((after mutes events).lastReport.bind block).isSome = true ↔ FieldThere events := by
  rw [after_last]
  unfold FieldThere
  cases events.getLast? with
  | none => simp
  | some ev => simp

/-- An episode of the state is active exactly while some episode of the key holds. -/
theorem active_holds {mutes : List Text} {events : List Event} {t : Int} (h : Ordered events t)
    (k : Text) :
    ((∃ cs, Dict.get ((after mutes events).memlim.getD []) k = some cs ∧ active cs t = true) ↔
      ∃ y, Holds events k t y) ∧
    ∀ cs, Dict.get ((after mutes events).memlim.getD []) k = some cs → active cs t = true →
      Holds events k t cs.s ∧ ∀ y, Holds events k t y → cs.s ≤ y := by
  obtain ⟨htold, hleast⟩ := ((after_watched mutes h).kept k).told
  have hspan : ∀ cs, Dict.get ((after mutes events).memlim.getD []) k = some cs →
      cs.span ∈ spanOf ((after mutes events).memlim.getD []) k := by
    intro cs hcs
    unfold spanOf
    rw [hcs]
    rfl
  refine ⟨⟨?_, ?_⟩, ?_⟩
  · rintro ⟨cs, hcs, hactive⟩
    exact htold.mp ⟨cs.span, hspan cs hcs, hactive⟩
  · intro hholds
    obtain ⟨e, he, hactive⟩ := htold.mpr hholds
    obtain ⟨cs, hcs, rfl⟩ := Option.map_eq_some_iff.mp he
    exact ⟨cs, hcs, hactive⟩
  · intro cs hcs hactive
    obtain ⟨hholds, hle⟩ := hleast cs.span (hspan cs hcs) hactive
    exact ⟨hholds, fun y ⟨x, hlink, hhold, hcool⟩ => hle y x hlink hhold hcool⟩

/-- What is told of keys is told in their order. -/
theorem keys_told {f : Text → Option Problem} (ks : List Text)
    (h : ∀ k p, f k = some p → p.key = k) : ((ks.filterMap f).map Problem.key).Sublist ks := by
  induction ks with
  | nil => exact .slnil
  | cons k ks ih =>
    cases hf : f k with
    | none =>
      rw [List.filterMap_cons_none hf]
      exact ih.cons k
    | some p =>
      rw [List.filterMap_cons_some hf, List.map_cons, h k p hf]
      exact ih.cons_cons k

theorem problems_once {s : Server} {t : Int} {withDecided : Bool}
    (hnodup : (Dict.keys (s.memlim.getD [])).Nodup) :
    ((problems s t withDecided).map Problem.key).Nodup := by
  unfold problems
  cases hst : s.memlim with
  | none => exact List.nodup_nil
  | some st =>
    cases s.lastReport.bind block with
    | none => exact List.nodup_nil
    | some items =>
      rw [hst] at hnodup
      have hsorted : (sortedKeys st).Nodup :=
        ((List.perm_insertionSort _ _).nodup_iff).mpr hnodup
      refine List.Sublist.nodup (keys_told _ fun k p hp => ?_) hsorted
      obtain ⟨cs, -, hcs⟩ := Option.bind_eq_some_iff.mp hp
      exact (problem_some hcs).1

theorem episodes_told : EpisodesTold where
  listed mutes events t withDecided h k := by
    rw [← fieldThere_iff mutes, ← (active_holds h k).1]
    constructor
    · rintro ⟨p, hp, rfl⟩
      obtain ⟨hfield, cs, hcs, hsome⟩ := mem_problems.mp hp
      obtain ⟨-, -, hactive, hdec⟩ := problem_some hsome
      rw [decided_after] at hdec
      exact ⟨hfield, hdec, cs, hcs, hactive⟩
    · rintro ⟨hfield, hdec, cs, hcs, hactive⟩
      have hundecided : withDecided = true ∨
          ¬ Podnames.muted (decided (after mutes events)) k = true := by rwa [decided_after]
      obtain ⟨p, hp⟩ := problem_told hactive hundecided
      have hkey := (problem_some hp).1
      exact ⟨p, mem_problems.mpr ⟨hfield, cs, hkey ▸ hcs, hkey ▸ hp⟩, hkey⟩
  since mutes events t withDecided h p hp := by
    obtain ⟨-, cs, hcs, hsome⟩ := mem_problems.mp hp
    obtain ⟨-, hsince, hactive, -⟩ := problem_some hsome
    obtain ⟨hholds, hleast⟩ := (active_holds h p.key).2 cs hcs hactive
    exact ⟨cs.s, hholds, hleast, hsince⟩
  once mutes events t withDecided h := problems_once (after_watched mutes h).nodup

/-- A container at its limit in a report every three minutes. -/
def atLimit : List Event := [3, 6, 9, 12, 15].map fun minute =>
  { rep := ⟨some [⟨some .container, "db".toList, [], { lim := 100, cur := 100, full := 5 }⟩], []⟩
    t := seconds (60 * minute) }

theorem atLimit_ordered : Ordered atLimit (seconds 900) := by
  unfold Ordered
  constructor
  · decide
  · decide

/-- What is marked as meant so is not told, though its episode holds. -/
theorem decided_not_told :
    (FieldThere atLimit ∧ ∃ y, Holds atLimit "docker:db".toList (seconds 900) y) ∧
      problems (after ["memlim:docker:db".toList] atLimit) (seconds 900) false = [] := by
  have hactive : ((Dict.get ((after [] atLimit).memlim.getD []) "docker:db".toList).any
      (active · (seconds 900))) = true := by decide +kernel
  have hnone : (problems (after ["memlim:docker:db".toList] atLimit) (seconds 900) false).isEmpty =
      true := by decide +kernel
  refine ⟨⟨(fieldThere_iff [] atLimit).mp (by decide +kernel), ?_⟩, List.isEmpty_iff.mp hnone⟩
  obtain ⟨cs, hcs, hcs'⟩ := (Option.any_eq_true _ _).mp hactive
  exact (active_holds atLimit_ordered _).1.mp ⟨cs, hcs, hcs'⟩

end Kervax.MemLimit
