-- The restarts over runs of reports: the events add up to the growth of the counter, a
-- record of an end stands at one restart only, and what is cut away is the oldest.
import Kervax.Restarts
import Kervax.Runs

namespace Kervax.Restarts

/-! ## Runs -/

/-- The stored state after a report. -/
def next (pod : Bool) (s : Option Counter) (c : Call) : Option Counter := some (step pod s c)

def after (pod : Bool) (calls : List Call) : Option Counter := Runs.run (next pod) none calls

def stored (s : Option Counter) : List Event := (s.map Counter.ev).getD []

/-! ## The growth of the counter -/

/-- What the reports say of the counter alone: its last value, and its growth. A pod whose
counter falls is another one. -/
structure Meter where
  rc : Option Nat := none
  grown : List (Time × Nat) := []

def Meter.next (pod : Bool) (m : Meter) (c : Call) : Meter :=
  { rc := some c.rc
    grown := (if pod && m.rc.any (c.rc < ·) then [] else m.grown) ++
      [(c.now, c.rc - m.rc.getD c.rc)] }

def meter (pod : Bool) (calls : List Call) : Meter := Runs.run (Meter.next pod) {} calls

/-- The growth within the window. -/
def grownWithin (m : Meter) (now : Time) : Nat :=
  ((m.grown.filter fun g => now - g.1 ≤ window).map Prod.snd).sum

/-- The cap is not reached: nothing is cut away. -/
def Uncapped (pod : Bool) (s : Option Counter) (c : Call) : Prop :=
  if pod then
    ((events pod s c).filter Event.clean).length ≤ keep ∧
      ((events pod s c).filter (!Event.clean ·)).length ≤ keep
  else (events pod s c).length ≤ keep

theorem step_ev_of_uncapped {pod : Bool} {s : Option Counter} {c : Call} (h : Uncapped pod s c) :
    (step pod s c).ev = events pod s c := by
  unfold Uncapped at h
  unfold step
  cases pod with
  | true => exact keepLast_eq_self h.1 h.2
  | false => exact lastN_eq_self h

/-- The sum over the events of the window. -/
def countOf (ev : List Event) (now : Time) : Nat := ((ev.filter (Event.recent now)).map Event.n).sum

theorem countOf_append (ev ev' : List Event) (now : Time) :
    countOf (ev ++ ev') now = countOf ev now + countOf ev' now := by
  simp [countOf]

theorem count_eq (s : Option Counter) (now : Time) : count s now = countOf (stored s) now := rfl

/-- What has left the window does not come back. -/
theorem countOf_recent (ev : List Event) {now later : Time} (h : now ≤ later) :
    countOf (ev.filter (Event.recent now)) later = countOf ev later := by
  unfold countOf
  rw [List.filter_filter]
  congr 2
  apply List.filter_congr
  intro e _
  simp only [Event.recent]
  by_cases hl : later - e.time ≤ window
  · have hn : now - e.time ≤ window := Int.le_trans (Int.sub_le_sub_right h _) hl
    simp [hl, hn]
  · simp [hl]

theorem countOf_kept (pod : Bool) (s : Option Counter) (c : Call) {later : Time}
    (h : c.now ≤ later) :
    countOf (kept pod s c) later = if isReset pod s c.rc then 0 else countOf (stored s) later := by
  unfold kept
  split
  · rfl
  · exact countOf_recent _ h

theorem countOf_map {f : Event → Event} (hf : ∀ e, (f e).n = e.n ∧ (f e).time = e.time)
    (ev : List Event) (now : Time) : countOf (ev.map f) now = countOf ev now := by
  unfold countOf
  rw [List.filter_map, List.map_map]
  have hrecent : (Event.recent now ∘ f) = Event.recent now := by
    funext e
    simp only [Function.comp_apply, Event.recent, (hf e).2]
  rw [hrecent]
  congr 1
  apply List.map_congr_left
  intro e _
  exact (hf e).1

/-- The new events hold the growth, with a record or without. -/
theorem countOf_podEvents (now later : Time) {delta : Nat} (hd : delta ≠ 0)
    (latest : Option Record) :
    countOf (podEvents now delta latest) later = if later - now ≤ window then delta else 0 := by
  unfold podEvents countOf
  cases latest with
  | none => by_cases hw : later - now ≤ window <;> simp [Event.recent, hw]
  | some r =>
    by_cases h1 : 1 < delta
    · by_cases hw : later - now ≤ window
      · simp [Event.recent, hw, h1]
        omega
      · simp [Event.recent, hw, h1]
    · have hone : delta = 1 := by omega
      by_cases hw : later - now ≤ window <;> simp [Event.recent, hw, hone]

theorem countOf_events (pod : Bool) (s : Option Counter) (c : Call) {later : Time}
    (h : c.now ≤ later) :
    countOf (events pod s c) later =
      (if isReset pod s c.rc then 0 else countOf (stored s) later) +
        if later - c.now ≤ window then growth s c.rc else 0 := by
  rw [← countOf_kept pod s c h]
  unfold events
  split
  · rename_i h0
    rw [h0, ite_self, Nat.add_zero]
  · rename_i h0
    split
    · dsimp only
      rw [countOf_append, countOf_podEvents _ _ h0, countOf_map]
      intro e
      split
      · exact ⟨rfl, rfl⟩
      · exact ⟨rfl, rfl⟩
    · rw [countOf_append]
      congr 1
      by_cases hw : later - c.now ≤ window <;> simp [countOf, Event.recent, hw]

/-- The stored events tell the growth, from now on. -/
structure Counted (now : Time) (s : Option Counter) (m : Meter) : Prop where
  rc : m.rc = s.map Counter.rc
  sum : ∀ later, now ≤ later → count s later = grownWithin m later

theorem counted_next {pod : Bool} {now : Time} {s : Option Counter} {m : Meter} {c : Call}
    (hs : Counted now s m) (hnow : now ≤ c.now) (hcap : Uncapped pod s c) :
    Counted c.now (next pod s c) (m.next pod c) := by
  refine ⟨rfl, fun later hlater => ?_⟩
  have hstored : stored (next pod s c) = events pod s c := step_ev_of_uncapped hcap
  have hreset : isReset pod s c.rc = (pod && m.rc.any (c.rc < ·)) := by
    rw [hs.rc]
    cases s <;> rfl
  have hgrowth : growth s c.rc = c.rc - m.rc.getD c.rc := by
    rw [hs.rc]
    cases s <;> simp [growth]
  have hsum := hs.sum later (Int.le_trans hnow hlater)
  rw [count_eq] at hsum
  rw [count_eq, hstored, countOf_events pod s c hlater, hreset, hgrowth, hsum]
  unfold grownWithin Meter.next
  rw [List.filter_append, List.map_append, List.sum_append]
  congr 1
  · split <;> rfl
  · rw [List.filter_cons, List.filter_nil]
    by_cases hw : later - c.now ≤ window
    · rw [if_pos hw, if_pos (decide_eq_true hw), List.map_singleton, List.sum_singleton]
    · have hout : ¬ decide (later - c.now ≤ window) = true := by rwa [decide_eq_true_iff]
      rw [if_neg hw, if_neg hout, List.map_nil, List.sum_nil]

/-- Reports come in the order of time. -/
def InOrder (calls : List Call) : Prop := calls.Pairwise fun c d => c.now ≤ d.now

theorem counted_run {pod : Bool} {now : Time} {s : Option Counter} {m : Meter} {calls : List Call}
    (hs : Counted now s m) (hnow : ∀ c ∈ calls, now ≤ c.now) (horder : InOrder calls)
    (hcap : Runs.Along (next pod) (Uncapped pod) s calls) {later : Time}
    (hlater : ∀ c ∈ calls, c.now ≤ later) (hl : now ≤ later) :
    count (Runs.run (next pod) s calls) later =
      grownWithin (Runs.run (Meter.next pod) m calls) later := by
  induction calls generalizing now s m with
  | nil => exact hs.sum later hl
  | cons c calls ih =>
    obtain ⟨hfirst, hrest⟩ := List.pairwise_cons.mp horder
    have hc := hnow c List.mem_cons_self
    exact ih (counted_next hs hc hcap.1) hfirst hrest hcap.2
      (fun d hd => hlater d (List.mem_cons_of_mem _ hd)) (hlater c List.mem_cons_self)

/-- The events of the window add up to the growth in it. -/
theorem count_after {pod : Bool} {calls : List Call} (horder : InOrder calls)
    (hcap : Runs.Along (next pod) (Uncapped pod) none calls) {now : Time}
    (hnow : ∀ c ∈ calls, c.now ≤ now) :
    count (after pod calls) now = grownWithin (meter pod calls) now := by
  cases calls with
  | nil => rfl
  | cons c calls =>
    have h0 : Counted c.now none {} := ⟨rfl, fun later _ => rfl⟩
    refine counted_run h0 ?_ horder hcap hnow (hnow c List.mem_cons_self)
    rw [List.forall_mem_cons]
    exact ⟨Int.le_refl _, (List.pairwise_cons.mp horder).1⟩

/-! ## The records -/

/-- The finish times of the records that the events hold. -/
def finishes (ev : List Event) : List Int := ev.filterMap fun e => finish (e.last none)

theorem finishes_append (ev ev' : List Event) :
    finishes (ev ++ ev') = finishes ev ++ finishes ev' := List.filterMap_append ..

theorem finishes_podEvents (now : Time) (delta : Nat) (latest : Option Record) :
    finishes (podEvents now delta latest) = (finish latest).toList := by
  unfold podEvents finishes
  have hnone : finish none = none := rfl
  cases hf : finish latest with
  | none => split <;> simp [Event.last, hf, hnone]
  | some t => split <;> simp [Event.last, hf, hnone]

/-- No record stands at two restarts, or at more than one at a time, and none at a restart
that was before it. -/
structure Attached (ev : List Event) : Prop where
  once : (finishes ev).Pairwise (· < ·)
  one : ∀ e ∈ ev, (e.last none).isSome → e.n = 1
  time : ∀ e ∈ ev, ∀ t, finish (e.last none) = some t → sec t ≤ e.time

theorem Attached.sublist {ev ev' : List Event} (h : Attached ev) (hs : ev'.Sublist ev) :
    Attached ev' :=
  ⟨h.once.sublist (hs.filterMap _), fun e he => h.one e (hs.subset he),
    fun e he => h.time e (hs.subset he)⟩

/-- Where the remembered record has no finish time, the reported one is not from before a
record that stands at a restart, and later than these where the counter has grown. No
restart is reported by a clock that is behind that of the pod. -/
structure Sound (pod : Bool) (s : Option Counter) (c : Call) : Prop where
  newer : finish (known pod s c.rc) = none → ∀ t, finish c.last = some t →
    ∀ f ∈ finishes (kept pod s c), if growth s c.rc = 0 then f ≤ t else f < t
  clock : growth s c.rc ≠ 0 → ∀ t, finish c.last = some t → sec t ≤ c.now

/-- What the state keeps: the events of a pod all have their place for a record, and no
record is later than the remembered one. -/
structure Kept (pod : Bool) (s : Option Counter) : Prop where
  attached : Attached (stored s)
  full : ∀ e ∈ stored s, e.info.isSome = pod
  known : ∀ k, finish (s.bind Counter.last) = some k → ∀ f ∈ finishes (stored s), f ≤ k

theorem kept_sublist (pod : Bool) (s : Option Counter) (c : Call) :
    (kept pod s c).Sublist (stored s) := by
  unfold kept
  split
  · exact List.nil_sublist _
  · exact List.filter_sublist

theorem finish_le_known {pod : Bool} {s : Option Counter} (hs : Kept pod s) (c : Call) {k : Int}
    (hk : finish (known pod s c.rc) = some k) : ∀ f ∈ finishes (kept pod s c), f ≤ k := by
  unfold known at hk
  split at hk
  · cases hk
  · exact fun f hf => hs.known k hk f (((kept_sublist pod s c).filterMap _).subset hf)

/-- The report is not older than what is remembered. -/
theorem known_le_reported {pod : Bool} {s : Option Counter} {c : Call} {k t : Int}
    (hk : finish (known pod s c.rc) = some k) (ht : finish (reported pod s c) = some t) :
    k ≤ t := by
  unfold reported at ht
  split at ht
  · cases ht
  · rename_i hb
    simpa [before, ht, hk] using hb

theorem reported_eq {pod : Bool} {s : Option Counter} {c : Call} {t : Int}
    (ht : finish (reported pod s c) = some t) : reported pod s c = c.last := by
  unfold reported at ht ⊢
  split at ht
  · cases ht
  · rename_i hb
    rw [if_neg hb]

/-- No record that stands at a restart is later than a reported one. -/
theorem finish_le_reported {pod : Bool} {s : Option Counter} {c : Call} (hs : Kept pod s)
    (hc : Sound pod s c) {t : Int} (ht : finish (reported pod s c) = some t) :
    ∀ f ∈ finishes (kept pod s c), f ≤ t := by
  intro f hf
  cases hk : finish (known pod s c.rc) with
  | some k => exact Int.le_trans (finish_le_known hs c hk f hf) (known_le_reported hk ht)
  | none =>
    rw [reported_eq ht] at ht
    have := hc.newer hk t ht f hf
    split at this
    · exact this
    · exact Int.le_of_lt this

/-- The record of a new event is later than all the others. -/
theorem finish_lt_latest {pod : Bool} {s : Option Counter} {c : Call} (hs : Kept pod s)
    (hc : Sound pod s c) (hg : growth s c.rc ≠ 0) {t : Int}
    (ht : finish (latest pod s c) = some t) : ∀ f ∈ finishes (kept pod s c), f < t := by
  intro f hf
  unfold latest at ht
  split at ht
  · cases ht
  · rename_i hstale
    cases hk : finish (known pod s c.rc) with
    | some k =>
      have hlt : k < t := by
        have hsome : (known pod s c.rc).isSome = true := by
          cases hkn : known pod s c.rc with
          | none =>
            rw [hkn] at hk
            cases hk
          | some r => rfl
        simp only [stale, hsome, ht, hk, Bool.true_and, Bool.or_eq_true, decide_eq_true_eq,
          not_or] at hstale
        exact Int.not_le.mp hstale.2
      exact Int.lt_of_le_of_lt (finish_le_known hs c hk f hf) hlt
    | none =>
      rw [reported_eq ht] at ht
      have := hc.newer hk t ht f hf
      rwa [if_neg hg] at this

theorem finish_latest {pod : Bool} {s : Option Counter} {c : Call} {t : Int}
    (ht : finish (latest pod s c) = some t) : finish (reported pod s c) = some t := by
  unfold latest at ht
  split at ht
  · cases ht
  · exact ht

/-- Without old events there is nothing to upgrade. -/
theorem events_pod {s : Option Counter} {c : Call} (hs : Kept true s)
    (hg : growth s c.rc ≠ 0) :
    events true s c = kept true s c ++ podEvents c.now (growth s c.rc) (latest true s c) := by
  unfold events
  rw [if_neg hg, if_pos rfl]
  dsimp only
  congr 1
  refine (List.map_congr_left fun e he => ?_).trans (List.map_id _)
  rw [if_pos (hs.full e ((kept_sublist true s c).subset he))]
  rfl

theorem mem_podEvents {now : Time} {delta : Nat} {latest : Option Record} {e : Event}
    (he : e ∈ podEvents now delta latest) :
    e.last none = none ∨ e = ⟨now, if latest.isSome then 1 else delta, some latest⟩ := by
  unfold podEvents at he
  rcases List.mem_append.mp he with he | he
  · split at he
    · rw [List.mem_singleton.mp he]
      exact .inl rfl
    · cases he
  · exact .inr (List.mem_singleton.mp he)

theorem isSome_podEvents {now : Time} {delta : Nat} {latest : Option Record} {e : Event}
    (he : e ∈ podEvents now delta latest) : e.info.isSome = true := by
  unfold podEvents at he
  rcases List.mem_append.mp he with he | he
  · split at he
    · rw [List.mem_singleton.mp he]
      rfl
    · cases he
  · rw [List.mem_singleton.mp he]
    rfl

/-- The growth of a pod is put down to a new record or to none. -/
theorem attached_podEvents {s : Option Counter} {c : Call} (hs : Kept true s)
    (hc : Sound true s c) (hg : growth s c.rc ≠ 0) :
    Attached (kept true s c ++ podEvents c.now (growth s c.rc) (latest true s c)) := by
  have hkept := hs.attached.sublist (kept_sublist true s c)
  refine ⟨?_, fun e he hsome => ?_, fun e he t ht => ?_⟩
  · rw [finishes_append, finishes_podEvents, List.pairwise_append]
    refine ⟨hkept.once, ?_, fun f hf t ht => ?_⟩
    · cases finish (latest true s c) with
      | none => exact List.Pairwise.nil
      | some t => exact List.pairwise_singleton _ t
    · exact finish_lt_latest hs hc hg (Option.mem_toList.mp ht) f hf
  · rcases List.mem_append.mp he with he | he
    · exact hkept.one e he hsome
    · rcases mem_podEvents he with hnone | rfl
      · rw [hnone] at hsome
        cases hsome
      · exact if_pos hsome
  · rcases List.mem_append.mp he with he | he
    · exact hkept.time e he t ht
    · rcases mem_podEvents he with hnone | rfl
      · rw [hnone] at ht
        cases ht
      · have hrep := finish_latest ht
        rw [reported_eq hrep] at hrep
        exact hc.clock hg t hrep

/-- What one report makes of the events, before they are cut. -/
theorem events_spec {pod : Bool} {s : Option Counter} {c : Call} (hs : Kept pod s)
    (hc : Sound pod s c) :
    Attached (events pod s c) ∧ (∀ e ∈ events pod s c, e.info.isSome = pod) ∧
      ∀ f ∈ finishes (events pod s c),
        f ∈ finishes (kept pod s c) ∨ finish (latest pod s c) = some f := by
  have hkept := hs.attached.sublist (kept_sublist pod s c)
  have hfull := fun e he => hs.full e ((kept_sublist pod s c).subset he)
  by_cases hg : growth s c.rc = 0
  · have hsame : events pod s c = kept pod s c := if_pos hg
    rw [hsame]
    exact ⟨hkept, hfull, fun f hf => .inl hf⟩
  · cases pod with
    | true =>
      rw [events_pod hs hg]
      refine ⟨attached_podEvents hs hc hg, fun e he => ?_, fun f hf => ?_⟩
      · rcases List.mem_append.mp he with he | he
        · exact hfull e he
        · exact isSome_podEvents he
      · rw [finishes_append, finishes_podEvents, List.mem_append, Option.mem_toList] at hf
        exact hf
    | false =>
      have hsame : events false s c = kept false s c ++ [⟨c.now, growth s c.rc, none⟩] := if_neg hg
      have hnew : finishes [⟨c.now, growth s c.rc, none⟩] = [] := rfl
      rw [hsame]
      refine ⟨⟨?_, fun e he hsome => ?_, fun e he t ht => ?_⟩, fun e he => ?_, fun f hf => ?_⟩
      · rw [finishes_append, hnew, List.append_nil]
        exact hkept.once
      · rcases List.mem_append.mp he with he | he
        · exact hkept.one e he hsome
        · rw [List.mem_singleton.mp he] at hsome
          cases hsome
      · rcases List.mem_append.mp he with he | he
        · exact hkept.time e he t ht
        · rw [List.mem_singleton.mp he] at ht
          cases ht
      · rcases List.mem_append.mp he with he | he
        · exact hfull e he
        · rw [List.mem_singleton.mp he]
          rfl
      · rw [finishes_append, hnew, List.append_nil] at hf
        exact .inl hf

theorem step_ev_sublist (pod : Bool) (s : Option Counter) (c : Call) :
    (step pod s c).ev.Sublist (events pod s c) := by
  unfold step
  cases pod with
  | true => exact keepLast_sublist _ _ _
  | false => exact List.drop_sublist _ _

theorem kept_next {pod : Bool} {s : Option Counter} {c : Call} (hs : Kept pod s)
    (hc : Sound pod s c) : Kept pod (next pod s c) := by
  obtain ⟨hattached, hfull, hfinishes⟩ := events_spec hs hc
  have hsub := step_ev_sublist pod s c
  refine ⟨hattached.sublist hsub, fun e he => hfull e (hsub.subset he), fun k hk f hf => ?_⟩
  have hlast : finish (if c.rc = 0 then none else (reported pod s c).or (known pod s c.rc)) = some k :=
    hk
  split at hlast
  · cases hlast
  · have hf := hfinishes f ((hsub.filterMap _).subset hf)
    cases hr : reported pod s c with
    | some r =>
      rw [hr, Option.some_or, ← hr] at hlast
      rcases hf with hf | hf
      · exact finish_le_reported hs hc hlast f hf
      · rw [finish_latest hf] at hlast
        cases hlast
        exact Int.le_refl _
    | none =>
      rw [hr, Option.none_or] at hlast
      rcases hf with hf | hf
      · exact finish_le_known hs c hlast f hf
      · have hrep := finish_latest hf
        rw [hr] at hrep
        cases hrep

theorem kept_after {pod : Bool} {calls : List Call}
    (h : Runs.Along (next pod) (Sound pod) none calls) : Kept pod (after pod calls) :=
  Runs.inv_run ⟨⟨List.Pairwise.nil, by simp [stored], by simp [stored]⟩, by simp [stored],
    by simp [stored, finishes]⟩ (fun _ _ => kept_next) h

/-- The events add up to the growth of the counter, a record stands at one restart and not
at one before it, and the cut leaves the newest events of either class, in their order. -/
theorem restarts_are_counted_once (pod : Bool) (calls : List Call)
    (h : Runs.Along (next pod) (Sound pod) none calls) :
    (∀ now, InOrder calls → Runs.Along (next pod) (Uncapped pod) none calls →
      (∀ c ∈ calls, c.now ≤ now) → count (after pod calls) now = grownWithin (meter pod calls) now) ∧
    Attached (stored (after pod calls)) ∧
    ∀ ev, (trimPodEvents ev).Sublist ev ∧
      (trimPodEvents ev).filter Event.clean = lastN keep (ev.filter Event.clean) ∧
      (trimPodEvents ev).filter (!Event.clean ·) = lastN keep (ev.filter (!Event.clean ·)) :=
  ⟨fun _ horder hcap hnow => count_after horder hcap hnow, (kept_after h).attached,
    fun ev => ⟨keepLast_sublist _ _ ev, filter_keepLast _ _ ev, filter_not_keepLast _ _ ev⟩⟩

/-- A pod whose counter grows by three, and the record of the last of these restarts. -/
def threeRestarts : List Call :=
  [⟨4, 0, none⟩, ⟨7, sec 60, some { c := "app", r := "Error", x := 1, t := 50 }⟩]

theorem three_restarts_are_counted_once :
    count (after true threeRestarts) (sec 60) = grownWithin (meter true threeRestarts) (sec 60) ∧
      Attached (stored (after true threeRestarts)) := by
  have hsound : Runs.Along (next true) (Sound true) none threeRestarts := by
    refine ⟨⟨by simp [finish], by simp [growth]⟩, ⟨?_, ?_⟩, trivial⟩
    · intro _ t _ f hf
      revert hf
      rw [show finishes (kept true _ _) = [] by decide +kernel]
      simp
    · intro _ t ht
      cases ht
      decide
  have hall := restarts_are_counted_once true threeRestarts hsound
  refine ⟨hall.1 (sec 60) ?_ ?_ (by decide), hall.2.1⟩
  · unfold InOrder
    decide
  · simp only [threeRestarts, Runs.Along, Uncapped]
    decide +kernel

/-- A run that ended at 50; the next end is reported without its time, as kubelet does for a
status it has lost; then the counter grows again, with the record of the first. -/
def lostTime : List Call :=
  let first : Record := { c := "app", r := "Error", x := 1, t := 50 }
  [⟨1, 0, none⟩, ⟨2, sec 60, some first⟩,
    ⟨3, sec 120, some { c := "app", r := "ContainerStatusUnknown", x := 137 }⟩,
    ⟨4, sec 180, some first⟩]

/-- The record stands at two restarts. -/
theorem a_record_is_attached_twice :
    finishes (stored (after true lostTime)) = [50, 50] ∧
      ¬ Attached (stored (after true lostTime)) := by
  have htwice : finishes (stored (after true lostTime)) = [50, 50] := by decide +kernel
  refine ⟨htwice, fun h => ?_⟩
  have honce := h.once
  rw [htwice] at honce
  revert honce
  decide

end Kervax.Restarts
