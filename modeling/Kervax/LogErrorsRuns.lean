-- Runs of the log watch: what stands behind an incident that is told, and which spikes of a log
-- are remembered.
import Kervax.LogErrors
import Kervax.Spells
import Mathlib.Algebra.Order.Group.Int
import Mathlib.Tactic.Linarith

namespace Kervax.LogErrors

open Doubles (fl)
open Kervax.Podnames (Text)

/-! ## One log -/

/-- The panel can judge by the report. -/
def Tick.fresh (t : Tick) : Bool := (block t.rep t.utcnow).isSome

/-- The log of a key in a report. -/
def Tick.log (t : Tick) (k : Text) : Option Log :=
  (sources t.rep t.utcnow).find? fun x => key x = k

/-- The log was looked at in this minute. -/
def done (now : Time) (e : Option Entry) : Bool := e.any fun e => e.t = minute now

/-- What a report leaves of one log. -/
def Tick.step (t : Tick) (k : Text) (e : Option Entry) : Option Entry :=
  if t.fresh then
    (match t.log k with
      | none => e.map (gone t.now)
      | some x => if done t.now e then e else some (looked e x t.now)).filter live
  else e

theorem looked_t (e : Option Entry) (x : Log) (now : Time) : (looked e x now).t = minute now := by
  unfold looked
  dsimp only
  split <;> rfl

theorem look_get (now : Time) (st : State) (x : Log) (k : Text) :
    Dict.get (look now st x) k =
      if key x = k ∧ done now (Dict.get st k) = false then some (looked (Dict.get st k) x now)
      else Dict.get st k := by
  unfold look
  by_cases hk : key x = k
  · subst hk
    cases hdone : done now (Dict.get st (key x)) with
    | true =>
      rw [if_pos (show (Dict.get st (key x)).any _ = true from hdone), if_neg (by simp)]
    | false =>
      have hnot : ¬ (Dict.get st (key x)).any (fun e => e.t = minute now) = true := by
        show ¬ done now (Dict.get st (key x)) = true
        rw [hdone]
        exact Bool.false_ne_true
      rw [if_neg hnot, Dict.get_put, if_pos rfl, if_pos ⟨rfl, rfl⟩]
  · have hright : (if key x = k ∧ done now (Dict.get st k) = false then
        some (looked (Dict.get st k) x now) else Dict.get st k) = Dict.get st k :=
      if_neg fun h => hk h.1
    rw [hright]
    split
    · rfl
    · rw [Dict.get_put, if_neg (Ne.symm hk)]

/-- A log is not looked at a second time. -/
theorem foldl_done {now : Time} {st : State} {k : Text} (h : done now (Dict.get st k) = true)
    (xs : List Log) : Dict.get (xs.foldl (look now) st) k = Dict.get st k := by
  induction xs generalizing st with
  | nil => rfl
  | cons x xs ih =>
    have hsame : Dict.get (look now st x) k = Dict.get st k := by
      rw [look_get, if_neg]
      rintro ⟨-, hnot⟩
      rw [h] at hnot
      cases hnot
    rw [List.foldl_cons, ih (hsame ▸ h), hsame]

/-- The first log of a key counts. -/
theorem foldl_look (now : Time) (st : State) (k : Text) (xs : List Log) :
    Dict.get (xs.foldl (look now) st) k =
      match xs.find? fun x => key x = k with
      | none => Dict.get st k
      | some x =>
        if done now (Dict.get st k) then Dict.get st k
        else some (looked (Dict.get st k) x now) := by
  induction xs generalizing st with
  | nil => rfl
  | cons x xs ih =>
    rw [List.foldl_cons, List.find?_cons]
    by_cases hk : key x = k
    · rw [decide_eq_true hk]
      cases hdone : done now (Dict.get st k) with
      | true =>
        have hsame : Dict.get (look now st x) k = Dict.get st k := by
          rw [look_get, if_neg (by rw [hdone]; simp)]
        rw [foldl_done (hsame ▸ hdone), hsame]
        rfl
      | false =>
        have hnew : Dict.get (look now st x) k = some (looked (Dict.get st k) x now) := by
          rw [look_get, if_pos ⟨hk, hdone⟩]
        have hdone' : done now (Dict.get (look now st x) k) = true := by
          rw [hnew]
          exact decide_eq_true (looked_t ..)
        rw [foldl_done hdone', hnew]
        rfl
    · have hsame : Dict.get (look now st x) k = Dict.get st k := by
        rw [look_get, if_neg (fun h => hk h.1)]
      rw [decide_eq_false hk, ih, hsame]

theorem nodup_look {st : State} (h : (Dict.keys st).Nodup) (now : Time) (xs : List Log) :
    (Dict.keys (xs.foldl (look now) st)).Nodup := by
  induction xs generalizing st with
  | nil => exact h
  | cons x xs ih =>
    rw [List.foldl_cons]
    apply ih
    unfold look
    split
    · exact h
    · exact Dict.nodup_put h _ _

/-- A report, one log at a time. -/
theorem update_get {st : State} (h : (Dict.keys st).Nodup) (t : Tick) (k : Text) :
    (Dict.keys (update st t)).Nodup ∧
      Dict.get (update st t) k = t.step k (Dict.get st k) := by
  have hnone : (block t.rep t.utcnow).isNone = !t.fresh := by
    unfold Tick.fresh
    cases block t.rep t.utcnow <;> rfl
  unfold update Tick.step
  rw [hnone]
  cases t.fresh with
  | false => exact ⟨h, rfl⟩
  | true =>
    rw [if_neg (by simp), if_pos rfl]
    dsimp only
    have hnodup : (Dict.keys ((((sources t.rep t.utcnow).foldl (look t.now) st).map fun p =>
        (p.1, if p.1 ∈ (sources t.rep t.utcnow).map key then p.2 else gone t.now p.2)))).Nodup := by
      have hkeys := nodup_look h t.now (sources t.rep t.utcnow)
      unfold Dict.keys at hkeys ⊢
      rw [List.map_map]
      exact hkeys
    refine ⟨Dict.nodup_filter hnodup _, ?_⟩
    rw [Dict.get_filter hnodup]
    congr 1
    have hvalues := Dict.lookup_values
      (fun j e => if j ∈ (sources t.rep t.utcnow).map key then e else gone t.now e)
      ((sources t.rep t.utcnow).foldl (look t.now) st) k
    refine Eq.trans hvalues ?_
    have hlook := foldl_look t.now st k (sources t.rep t.utcnow)
    unfold Dict.get at hlook ⊢
    rw [hlook]
    unfold Tick.log
    cases hfind : (sources t.rep t.utcnow).find? fun x => key x = k with
    | none =>
      have hnot : k ∉ (sources t.rep t.utcnow).map key := by
        intro hk
        obtain ⟨x, hx, hkey⟩ := List.mem_map.mp hk
        exact absurd hkey (by simpa using List.find?_eq_none.mp hfind x hx)
      simp only [if_neg hnot]
    | some x =>
      have hin : k ∈ (sources t.rep t.utcnow).map key := by
        have hkey : key x = k := by simpa using List.find?_some hfind
        exact List.mem_map.mpr ⟨x, List.mem_of_find?_eq_some hfind, hkey⟩
      simp only [if_pos hin, Option.map_id']

/-! ## Runs -/

/-- What is remembered after some reports. -/
def after (run : List Tick) : State := run.foldl update []

theorem after_snoc (run : List Tick) (t : Tick) : after (run ++ [t]) = update (after run) t := by
  unfold after
  rw [List.foldl_concat]

theorem after_nodup (run : List Tick) : (Dict.keys (after run)).Nodup := by
  induction run using List.reverseRecOn with
  | nil => exact List.nodup_nil
  | append_singleton run t ih =>
    rw [after_snoc]
    exact (update_get ih t []).1

theorem after_get (run : List Tick) (t : Tick) (k : Text) :
    Dict.get (after (run ++ [t])) k = t.step k (Dict.get (after run) k) := by
  rw [after_snoc]
  exact (update_get (after_nodup run) t k).2

/-- The log that is looked at under a key: there is none when the panel cannot judge by the
report, when the log is not in it, and when it was looked at in this minute. -/
def Tick.looks (t : Tick) (k : Text) (st : State) : Option Log :=
  if t.fresh = true ∧ done t.now (Dict.get st k) = false then t.log k else none

/-- The looks at a log over some reports. -/
def looks (k : Text) : State → List Tick → List (Time × Log)
  | _, [] => []
  | st, t :: ts => ((t.looks k st).map fun x => (t.now, x)).toList ++ looks k (update st t) ts

theorem looks_append (k : Text) (st : State) (run more : List Tick) :
    looks k st (run ++ more) = looks k st run ++ looks k (run.foldl update st) more := by
  induction run generalizing st with
  | nil => rfl
  | cons t run ih =>
    rw [List.cons_append, looks, looks, ih, List.append_assoc]
    rfl

theorem looks_snoc (k : Text) (run : List Tick) (t : Tick) :
    looks k [] (run ++ [t]) =
      looks k [] run ++ ((t.looks k (after run)).map fun x => (t.now, x)).toList := by
  rw [looks_append, looks, looks, List.append_nil]
  rfl

theorem looks_eq {t : Tick} {k : Text} {st : State} {x : Log} (hlog : t.log k = some x) :
    t.looks k st =
      if t.fresh = true ∧ done t.now (Dict.get st k) = false then some x else none := by
  unfold Tick.looks
  rw [hlog]

/-- What is remembered of a log after a report: the same when it was not looked at, less when
it is not in the report, or what the look left. -/
theorem step_cases {run : List Tick} {t : Tick} {k : Text} {e : Entry}
    (hget : Dict.get (after (run ++ [t])) k = some e) :
    (Dict.get (after run) k = some e ∧ t.looks k (after run) = none ∧
        (t.fresh = true → ∃ x, t.log k = some x)) ∨
      (∃ e₀, Dict.get (after run) k = some e₀ ∧ e = gone t.now e₀) ∨
      ∃ x, t.looks k (after run) = some x ∧ t.log k = some x ∧
        e = looked (Dict.get (after run) k) x t.now := by
  rw [after_get] at hget
  unfold Tick.step at hget
  cases hfresh : t.fresh with
  | false =>
    rw [hfresh, if_neg Bool.false_ne_true] at hget
    refine .inl ⟨hget, ?_, fun h => by cases h⟩
    unfold Tick.looks
    rw [if_neg (fun h => by rw [hfresh] at h; cases h.1)]
  | true =>
    rw [hfresh, if_pos rfl] at hget
    have hget := (Option.filter_eq_some_iff.mp hget).1
    cases hlog : t.log k with
    | none =>
      rw [hlog] at hget
      obtain ⟨e₀, he₀, rfl⟩ := Option.map_eq_some_iff.mp hget
      exact .inr (.inl ⟨e₀, he₀, rfl⟩)
    | some x =>
      rw [hlog] at hget
      rw [looks_eq hlog]
      dsimp only at hget
      cases hdone : done t.now (Dict.get (after run) k) with
      | true =>
        rw [hdone, if_pos rfl] at hget
        exact .inl ⟨hget, if_neg (fun h => by cases h.2), fun _ => ⟨x, rfl⟩⟩
      | false =>
        rw [hdone, if_neg Bool.false_ne_true] at hget
        exact .inr (.inr ⟨x, if_pos ⟨hfresh, rfl⟩, rfl, (Option.some.inj hget).symm⟩)

/-! ## Incidents -/

theorem spike_of_hot {x : Log} (h : hot x = true) : spike x = 2 := by
  unfold hot at h
  rw [Bool.and_eq_true, Bool.and_eq_true] at h
  exact of_decide_eq_true h.1.1

theorem looked_hot (e : Option Entry) (x : Log) (now : Time) :
    (looked e x now).hot = if hot x then (e.bind Entry.hot).or (some now) else none := by
  unfold looked
  by_cases hhot : hot x = true
  · rw [if_neg (by rw [spike_of_hot hhot]; decide)]
    simp only [if_pos hhot]
  · simp only [if_neg hhot]
    split <;> rfl

/-- A log was looked at in a report and in every look from then on it was an incident; and
it was in every report by which the panel could judge. -/
structure Lasted (k : Text) (st : State) (t : Tick) (later : List Tick) : Prop where
  begins : ∃ x, t.looks k st = some x
  hot : ∀ y ∈ looks k st (t :: later), hot y.2 = true
  there : ∀ u ∈ t :: later, u.fresh = true → ∃ x, u.log k = some x

theorem Lasted.snoc {k : Text} {st : State} {t u : Tick} {later : List Tick}
    (h : Lasted k st t later)
    (hhot : ∀ x, u.looks k ((t :: later).foldl update st) = some x → LogErrors.hot x = true)
    (hthere : u.fresh = true → ∃ x, u.log k = some x) : Lasted k st t (later ++ [u]) := by
  refine ⟨h.begins, fun y hy => ?_, fun v hv => ?_⟩
  · rw [← List.cons_append, looks_append] at hy
    rcases List.mem_append.mp hy with hy | hy
    · exact h.hot y hy
    · rw [looks, looks, List.append_nil, Option.mem_toList] at hy
      obtain ⟨x, hx, rfl⟩ := Option.map_eq_some_iff.mp hy
      exact hhot x hx
  · rw [← List.cons_append] at hv
    rcases List.mem_append.mp hv with hv | hv
    · exact h.there v hv
    · rw [List.mem_singleton.mp hv]
      exact hthere

/-- An incident that is remembered lasts since then. -/
theorem hot_lasted {run : List Tick} {k : Text} {e : Entry} {since : Time}
    (hget : Dict.get (after run) k = some e) (hhot : e.hot = some since) :
    ∃ before t later, run = before ++ t :: later ∧ t.now = since ∧
      Lasted k (after before) t later := by
  induction run using List.reverseRecOn generalizing e with
  | nil => cases hget
  | append_singleton run u ih =>
    -- when the record is the one before this report
    have hsame : ∀ e₀, Dict.get (after run) k = some e₀ → e₀.hot = some since →
        (∀ x, u.looks k (after run) = some x → hot x = true) →
        (u.fresh = true → ∃ x, u.log k = some x) →
        ∃ before t later, run ++ [u] = before ++ t :: later ∧ t.now = since ∧
          Lasted k (after before) t later := by
      intro e₀ he₀ hhot₀ hlook hthere
      obtain ⟨before, t, later, hrun, hnow, hlasted⟩ := ih he₀ hhot₀
      refine ⟨before, t, later ++ [u], by simp [hrun], hnow, hlasted.snoc ?_ hthere⟩
      have hafter : (t :: later).foldl update (after before) = after run := by
        unfold after
        rw [← List.foldl_append, ← hrun]
      rw [hafter]
      exact hlook
    rcases step_cases hget with ⟨he, hnone, hthere⟩ | ⟨e₀, -, rfl⟩ | ⟨x, hlook, hlog, rfl⟩
    · exact hsame e he hhot (fun x hx => by rw [hnone] at hx; cases hx) hthere
    · cases hhot
    · rw [looked_hot] at hhot
      by_cases hx : hot x = true
      · rw [if_pos hx] at hhot
        cases hold : (Dict.get (after run) k).bind Entry.hot with
        | some h =>
          rw [hold, Option.some_or] at hhot
          obtain ⟨e₀, he₀, hh⟩ := Option.bind_eq_some_iff.mp hold
          refine hsame e₀ he₀ (hh.trans hhot) (fun y hy => ?_) (fun _ => ⟨x, hlog⟩)
          rw [← Option.some.inj (hlook.symm.trans hy)]
          exact hx
        | none =>
          -- the incident begins
          rw [hold, Option.none_or] at hhot
          refine ⟨run, u, [], rfl, Option.some.inj hhot, ⟨x, hlook⟩, fun y hy => ?_, fun v hv _ => ?_⟩
          · rw [looks, looks, List.append_nil, hlook] at hy
            obtain rfl : y = (u.now, x) := by simpa using hy
            exact hx
          · rw [List.mem_singleton.mp hv]
            exact ⟨x, hlog⟩
      · rw [if_neg hx] at hhot
        cases hhot

/-! ## Spikes -/

/-- The spikes of a log that are remembered. -/
def evs (e : Option Entry) : List Ev := (e.map Entry.ev).getD []

/-- The looks at a log that met a spike. -/
def marks (k : Text) (run : List Tick) : List (Time × Log) :=
  (looks k [] run).filter fun y => spike y.2 ≠ 0

/-- The spike that some looks tell: its first and its last time, and the most errors. -/
def evOf : List (Time × Log) → Ev
  | [] => ⟨0, 0, 0, none, 0⟩
  | a :: r =>
    { from' := a.1
      to' := ((a :: r).getLast (List.cons_ne_nil a r)).1
      peak := ((a :: r).map fun y => y.2.h1).foldl max 0
      base := a.2.base.map tenths
      lvl := ((a :: r).map fun y => spike y.2).foldl max 0 }

theorem evOf_one (y : Time × Log) :
    evOf [y] = ⟨y.1, y.1, y.2.h1, y.2.base.map tenths, spike y.2⟩ := by
  simp [evOf]

theorem evOf_snoc {r : List (Time × Log)} (hr : r ≠ []) (y : Time × Log) :
    evOf (r ++ [y]) = { evOf r with
      to' := y.1, peak := max (evOf r).peak y.2.h1, lvl := max (evOf r).lvl (spike y.2) } := by
  cases r with
  | nil => exact absurd rfl hr
  | cons a r => simp [evOf]

theorem evOf_to {r : List (Time × Log)} {y : Time × Log} : (evOf (r ++ [y])).to' = y.1 := by
  by_cases hr : r = []
  · rw [hr, List.nil_append, evOf_one]
  · rw [evOf_snoc hr]

/-- Spikes in time. -/
def rules : Spells.Rules (Time × Log) Time where
  time := Prod.fst
  gap := evGap
  keep := evKeep
  most := evMax
  nonneg := by decide
  gap_le := by decide

theorem rules_time (y : Time × Log) : rules.time y = y.1 := rfl

theorem fresh_map {now : Time} {ls : List (List (Time × Log))} (hls : [] ∉ ls) :
    fresh now (ls.map evOf) = (ls.filter (rules.recent now)).map evOf := by
  unfold fresh
  rw [List.filter_map]
  congr 1
  apply List.filter_congr
  intro r hr
  rcases List.eq_nil_or_concat' r with rfl | ⟨r, y, rfl⟩
  · exact absurd hr hls
  · unfold Spells.Rules.recent
    rw [List.getLast?_concat, Option.any_some, Function.comp_apply, evOf_to]
    rfl

theorem rtake_map {α β : Type} (f : α → β) (l : List α) (n : Nat) :
    (l.map f).rtake n = (l.rtake n).map f := by
  unfold List.rtake
  rw [List.length_map, List.map_drop]

theorem kept_map {now : Time} {ls : List (List (Time × Log))} (hls : [] ∉ ls) :
    (fresh now (ls.map evOf)).rtake evMax = (rules.kept now ls).map evOf := by
  rw [fresh_map hls, rtake_map]
  rfl

/-- A look that meets a spike. -/
theorem spiked_map {ls : List (List (Time × Log))} (hls : [] ∉ ls) (x : Log) (now : Time) :
    spiked (ls.map evOf) x now = (Spells.add rules.near ls (now, x)).map evOf := by
  by_cases hne : ls = []
  · subst hne
    show [_] = [evOf [(now, x)]]
    rw [evOf_one]
  · obtain ⟨init, r, y, rfl⟩ := Spells.eq_concat hls hne
    have hlast : ((init ++ [r ++ [y]]).map evOf).getLast? = some (evOf (r ++ [y])) := by simp
    unfold spiked
    rw [hlast, Spells.add_concat]
    dsimp only
    rw [evOf_to]
    by_cases hgap : evGap < now - y.1
    · have hfar : rules.near y (now, x) = false := decide_eq_false (not_le.mpr hgap)
      rw [if_pos hgap, hfar, if_neg Bool.false_ne_true]
      simp [evOf_one]
    · have hnear : rules.near y (now, x) = true := decide_eq_true (not_lt.mp hgap)
      rw [if_neg hgap, hnear, if_pos rfl, List.map_append, List.map_append, List.map_singleton,
        List.dropLast_concat, List.map_singleton, evOf_snoc (r := r ++ [y]) (by simp) (now, x)]

theorem evs_live (e : Option Entry) : evs (e.filter live) = evs e := by
  cases e with
  | none => rfl
  | some e =>
    cases hlive : live e with
    | true => rw [Option.filter_some, if_pos hlive]
    | false =>
      have hnone : e.ev = [] := by
        unfold live at hlive
        simpa using (Bool.or_eq_false_iff.mp hlive).1
      rw [Option.filter_some, if_neg (by rw [hlive]; exact Bool.false_ne_true)]
      exact hnone.symm

theorem looked_ev (e : Option Entry) (x : Log) (now : Time) : (looked e x now).ev =
    (fresh now (if spike x = 0 then evs e else spiked (evs e) x now)).rtake evMax := by
  unfold looked evs
  dsimp only
  split <;> rfl

/-- What a report leaves of the spikes of a log. -/
theorem step_evs (t : Tick) (k : Text) (e : Option Entry) : evs (t.step k e) =
    if t.fresh then
      match t.log k with
      | none => fresh t.now (evs e)
      | some x =>
        if done t.now e then evs e
        else (fresh t.now (if spike x = 0 then evs e else spiked (evs e) x t.now)).rtake evMax
    else evs e := by
  unfold Tick.step
  cases t.fresh with
  | false => rfl
  | true =>
    rw [if_pos rfl, if_pos rfl, evs_live]
    cases t.log k with
    | none => cases e <;> rfl
    | some x =>
      dsimp only
      split
      · rfl
      · exact looked_ev e x t.now

theorem marks_quiet {k : Text} {run : List Tick} {t : Tick}
    (h : ∀ x, t.looks k (after run) = some x → spike x = 0) :
    marks k (run ++ [t]) = marks k run := by
  unfold marks
  rw [looks_snoc, List.filter_append]
  cases hlook : t.looks k (after run) with
  | none => simp
  | some x => simp [h x hlook]

theorem marks_spike {k : Text} {run : List Tick} {t : Tick} {x : Log}
    (hlook : t.looks k (after run) = some x) (h : spike x ≠ 0) :
    marks k (run ++ [t]) = marks k run ++ [(t.now, x)] := by
  unfold marks
  rw [looks_snoc, List.filter_append, hlook]
  simp [h]

theorem marks_step (k : Text) (run : List Tick) (t : Tick) :
    marks k (run ++ [t]) = marks k run ∨
      ∃ x, marks k (run ++ [t]) = marks k run ++ [(t.now, x)] := by
  cases hlook : t.looks k (after run) with
  | none => exact .inl (marks_quiet fun x hx => by rw [hlook] at hx; cases hx)
  | some x =>
    by_cases hspike : spike x = 0
    · refine .inl (marks_quiet fun y hy => ?_)
      rw [← Option.some.inj (hlook.symm.trans hy)]
      exact hspike
    · exact .inr ⟨x, marks_spike hlook hspike⟩

/-- The log was looked at in a report, or it was not there. -/
def Swept (k : Text) (st : State) (t : Tick) : Prop :=
  t.fresh = true ∧ (t.log k = none ∨ ∃ x, t.looks k st = some x)

/-- What is remembered of the spikes at a time, and the looks that met them. -/
structure Told (k : Text) (run : List Tick) (now : Time) : Prop where
  evs : ∃ t ≤ now, evs (Dict.get (after run) k) =
    (rules.kept t ((marks k run).splitBy rules.near)).map evOf
  order : (marks k run).Pairwise fun a b => a.1 ≤ b.1
  past : ∀ y ∈ marks k run, y.1 ≤ now

theorem Told.swept {k : Text} {run : List Tick} {now : Time} (h : Told k run now) {t : Tick}
    (hle : now ≤ t.now) (hswept : Swept k (after run) t) :
    LogErrors.evs (Dict.get (after (run ++ [t])) k) =
      (rules.kept t.now ((marks k (run ++ [t])).splitBy rules.near)).map evOf := by
  obtain ⟨hfresh, hlook⟩ := hswept
  obtain ⟨t₀, ht₀, hevs⟩ := h.evs
  have hls := List.nil_notMem_splitBy rules.near (marks k run)
  have hkept := Spells.nil_notMem_kept (R := rules) hls t₀
  have horder : rules.InOrder ((marks k run).splitBy rules.near) :=
    Spells.inOrder_splitBy h.order
  have hle₀ : t₀ ≤ t.now := ht₀.trans hle
  rw [after_get, step_evs, if_pos hfresh, hevs]
  rcases hlook with hlog | ⟨x, hx⟩
  · have hnone : t.looks k (after run) = none := by
      unfold Tick.looks
      rw [hlog, ite_self]
    rw [hlog, marks_quiet (fun x hx => by rw [hnone] at hx; cases hx)]
    dsimp only
    rw [fresh_map hkept, Spells.kept_filter horder hls hle₀]
  · have hlook := hx
    unfold Tick.looks at hlook
    split at hlook
    · next hdone =>
      rw [hlook]
      dsimp only
      rw [hdone.2, if_neg Bool.false_ne_true]
      by_cases hspike : spike x = 0
      · rw [if_pos hspike, kept_map hkept, Spells.kept_kept horder hls hle₀, marks_quiet]
        intro y hy
        rw [← Option.some.inj (hx.symm.trans hy)]
        exact hspike
      · rw [if_neg hspike, spiked_map hkept, kept_map (Spells.nil_notMem_add hkept),
          marks_spike hx hspike, Spells.splitBy_snoc]
        have hadd := Spells.kept_add (R := rules) (t := t₀) (m := (t.now, x)) horder hls hle₀
        rw [rules_time] at hadd
        rw [hadd]
    · cases hlook

theorem Told.later {k : Text} {run : List Tick} {now t : Time} (h : Told k run now)
    (hle : now ≤ t) : Told k run t := by
  obtain ⟨t₀, ht₀, hevs⟩ := h.evs
  exact ⟨⟨t₀, ht₀.trans hle, hevs⟩, h.order, fun y hy => (h.past y hy).trans hle⟩

/-- A report that leaves the spikes of a log as they are. -/
theorem frozen {k : Text} {run : List Tick} {t : Tick} (h : ¬ Swept k (after run) t) :
    evs (Dict.get (after (run ++ [t])) k) = evs (Dict.get (after run) k) ∧
      marks k (run ++ [t]) = marks k run := by
  have hlook : t.looks k (after run) = none := by
    cases hlook : t.looks k (after run) with
    | none => rfl
    | some x =>
      refine absurd ⟨?_, .inr ⟨x, hlook⟩⟩ h
      unfold Tick.looks at hlook
      split at hlook
      · next hdone => exact hdone.1
      · cases hlook
  refine ⟨?_, marks_quiet fun x hx => by rw [hlook] at hx; cases hx⟩
  rw [after_get, step_evs]
  split
  · next hfresh =>
    cases hlog : t.log k with
    | none => exact absurd ⟨hfresh, .inl hlog⟩ h
    | some x =>
      dsimp only
      split
      · rfl
      · next hdone =>
        unfold Tick.looks at hlook
        rw [if_pos ⟨hfresh, Bool.eq_false_iff.mpr hdone⟩, hlog] at hlook
        cases hlook
  · rfl

theorem told_step {k : Text} {run : List Tick} {now : Time} (h : Told k run now) {t : Tick}
    (hle : now ≤ t.now) : Told k (run ++ [t]) t.now := by
  constructor
  case evs =>
    by_cases hswept : Swept k (after run) t
    · exact ⟨t.now, le_refl _, h.swept hle hswept⟩
    · obtain ⟨hevs, hmarks⟩ := frozen hswept
      rw [hevs, hmarks]
      exact (h.later hle).evs
  case order =>
    rcases marks_step k run t with heq | ⟨x, heq⟩ <;> rw [heq]
    · exact h.order
    · refine List.pairwise_append.mpr ⟨h.order, List.pairwise_singleton _ _, ?_⟩
      intro a ha b hb
      rw [List.mem_singleton.mp hb]
      exact (h.past a ha).trans hle
  case past =>
    intro y hy
    rcases marks_step k run t with heq | ⟨x, heq⟩ <;> rw [heq] at hy
    · exact (h.past y hy).trans hle
    · rcases List.mem_append.mp hy with hy | hy
      · exact (h.past y hy).trans hle
      · rw [List.mem_singleton.mp hy]

/-- Over reports in time, what is remembered are the newest spikes. -/
theorem told_run {k : Text} {run : List Tick} {now : Time}
    (hrun : run.Pairwise fun a b => a.now ≤ b.now) (hnow : ∀ u ∈ run, u.now ≤ now) :
    Told k run now := by
  induction run using List.reverseRecOn generalizing now with
  | nil => exact ⟨⟨now, le_refl _, rfl⟩, List.Pairwise.nil, fun y hy => by cases hy⟩
  | append_singleton run t ih =>
    obtain ⟨hbefore, -, hlast⟩ := List.pairwise_append.mp hrun
    have hle := hnow t (List.mem_append_right _ (List.mem_singleton.mpr rfl))
    have htold := ih hbefore fun u hu => hlast u hu t (List.mem_singleton.mpr rfl)
    exact (told_step htold (le_refl _)).later hle

/-- The minute in a record is that of a look. -/
theorem entry_minute {run : List Tick} {k : Text} {e : Entry}
    (hget : Dict.get (after run) k = some e) : ∃ y ∈ looks k [] run, minute y.1 = e.t := by
  induction run using List.reverseRecOn generalizing e with
  | nil => cases hget
  | append_singleton run t ih =>
    have hold : ∀ e₀, Dict.get (after run) k = some e₀ → e₀.t = e.t →
        ∃ y ∈ looks k [] (run ++ [t]), minute y.1 = e.t := by
      intro e₀ he₀ ht
      obtain ⟨y, hy, hmin⟩ := ih he₀
      rw [looks_snoc]
      exact ⟨y, List.mem_append_left _ hy, hmin.trans ht⟩
    rcases step_cases hget with ⟨he, -, -⟩ | ⟨e₀, he₀, rfl⟩ | ⟨x, hlook, -, rfl⟩
    · exact hold e he rfl
    · exact hold e₀ he₀ rfl
    · refine ⟨(t.now, x), ?_, (looked_t ..).symm⟩
      rw [looks_snoc, hlook]
      exact List.mem_append_right _ (List.mem_singleton.mpr rfl)

/-! ## Limits -/

/-- The errors of a log are above a part of the limits: those of the last hour, and those of so
many of its ten minutes, when the helper counts them. A limit is the double that the source
computes. -/
structure Above (k : ℚ) (n : Nat) (x : Log) : Prop where
  hour : 200 * k ≤ x.h1
  usual : ∀ b, x.base = some b → fl (fl (5 * b) * k) ≤ x.h1
  unknown : x.base = none → 20000 * k ≤ x.h1
  tens : x.hb ≠ [] → n ≤ x.hb.countP fun v : Nat =>
    fl (fl (max 200 ((x.base.map fun b => fl (5 * b)).getD 20000) * k) / 6) ≤ (v : ℚ)

theorem sustained_iff (x : Log) (held : Bool) :
    sustained x held = true ↔ (x.hb ≠ [] →
      (if held then 3 else 4) ≤ x.hb.countP fun v : Nat =>
        fl (fl (max 200 ((x.base.map fun b => fl (5 * b)).getD 20000) *
          (if held then 1 / 2 else 1)) / 6) ≤ (v : ℚ)) := by
  unfold sustained
  cases x.base <;>
    rw [Bool.or_eq_true, decide_eq_true_eq, decide_eq_true_eq, or_iff_not_imp_left] <;> rfl

/-- Three conditions that end in zero. -/
theorem ite_three {p q r : Prop} [Decidable p] [Decidable q] [Decidable r] {n : Nat}
    (hn : n ≠ 0) : (if p then 0 else if q then 0 else if r then 0 else n) ≠ 0 ↔
      ¬ p ∧ ¬ q ∧ ¬ r := by
  by_cases p <;> by_cases q <;> by_cases r <;> simp [*]

theorem spike_above (x : Log) (held : Bool) :
    spike x held ≠ 0 ↔ Above (if held then 1 / 2 else 1) (if held then 3 else 4) x := by
  unfold spike
  dsimp only
  cases hb : x.base with
  | none =>
    dsimp only
    rw [ite_three one_ne_zero, not_lt, not_lt, not_not, sustained_iff]
    refine ⟨fun ⟨hhour, hunknown, htens⟩ => ⟨hhour, fun b hsome => ?_, fun _ => hunknown, htens⟩,
      fun h => ⟨h.hour, h.unknown hb, h.tens⟩⟩
    rw [hb] at hsome
    cases hsome
  | some b =>
    have hlast : (if fl (logHot * b) ≤ x.h1 ∧ logHotMin ≤ x.h1 then 2 else 1) ≠ 0 := by
      split
      · exact two_ne_zero
      · exact one_ne_zero
    dsimp only
    rw [ite_three hlast, not_lt, not_lt, not_not, sustained_iff]
    refine ⟨fun ⟨hhour, husual, htens⟩ => ⟨hhour, fun c hc => ?_, fun hnone => ?_, htens⟩,
      fun h => ⟨h.hour, h.usual b hb, h.tens⟩⟩
    · rw [hb] at hc
      rw [← Option.some.inj hc]
      exact husual
    · rw [hb] at hnone
      cases hnone

/-- The lower limits are lower. -/
theorem Above.held {x : Log} (h : Above 1 4 x) : Above (1 / 2) 3 x := by
  constructor
  case hour => linarith [h.hour]
  case usual =>
    intro b hb
    rcases le_total 0 (fl (5 * b)) with hpos | hneg
    · have hle : fl (5 * b) * (1 / 2) ≤ fl (5 * b) * 1 := by linarith
      exact (Doubles.fl_mono hle).trans (h.usual b hb)
    · exact (Doubles.fl_nonpos (by linarith)).trans (Nat.cast_nonneg _)
  case unknown =>
    intro hb
    linarith [h.unknown hb]
  case tens =>
    intro hhb
    generalize hmost : max (200 : ℚ) ((x.base.map fun b => fl (5 * b)).getD 20000) = most
    have hpos : 0 ≤ most := hmost ▸ le_trans (by norm_num) (le_max_left _ _)
    have hneed : fl (fl (most * (1 / 2)) / 6) ≤ fl (fl (most * 1) / 6) :=
      Doubles.fl_mono (div_le_div_of_nonneg_right (Doubles.fl_mono (by linarith)) (by norm_num))
    have htens := h.tens hhb
    rw [hmost] at htens
    refine le_trans (by norm_num) (htens.trans (List.countP_mono_left fun v _ hv => ?_))
    exact decide_eq_true (hneed.trans (of_decide_eq_true hv))

/-! ## What is told -/

theorem mem_problems {s : Server} {now : Time} {utcnow : ℚ} {p : Problem} :
    p ∈ problems s now utcnow ↔
      ∃ x ∈ sources s.lastReport utcnow, problem s now x = some p := by
  unfold problems
  rw [List.mem_insertionSort, List.mem_filterMap]

theorem problem_key {s : Server} {now : Time} {x : Log} {p : Problem}
    (h : problem s now x = some p) : p.key = key x := by
  unfold problem at h
  dsimp only at h
  split at h
  · cases h
  · split at h
    · cases h
    · rw [← Option.some.inj h]

/-- An incident that is told as one that lasted is remembered since then. -/
theorem hotFor_since {s : Server} {k : Text} {now : Time} (h : tgHold ≤ hotFor s k now) :
    ∃ e since, Dict.get s.logerrEv k = some e ∧ e.hot = some since ∧ since ≤ now - tgHold := by
  have hpos : (0 : Int) < tgHold := by decide
  unfold hotFor at h
  split at h
  · exact absurd h (not_le.mpr hpos)
  · next since hsince =>
    obtain ⟨e, he, hhot⟩ := Option.bind_eq_some_iff.mp hsince
    refine ⟨e, since, he, hhot, ?_⟩
    split at h
    · linarith
    · split at h <;> linarith

theorem problem_new {s : Server} {now : Time} {x : Log} {p : Problem}
    (h : problem s now x = some p) (hnew : key x ∉ held s) :
    hot x = true ∧ tgHold ≤ hotFor s (key x) now := by
  unfold problem at h
  dsimp only at h
  split at h
  · cases h
  · split at h
    · cases h
    · next hlisted =>
      rw [not_and_or, not_or, not_not, not_not, not_lt] at hlisted
      exact hlisted.resolve_left hnew

theorem problem_held {s : Server} {now : Time} {x : Log} (hheld : key x ∈ held s)
    (hmuted : key x ∉ muted s now) :
    (∃ p, problem s now x = some p) ↔ spike x true ≠ 0 := by
  unfold problem
  dsimp only
  rw [decide_eq_true hheld]
  by_cases hspike : spike x true = 0
  · rw [if_pos (.inl hspike)]
    exact ⟨fun ⟨p, hp⟩ => (by cases hp), fun hne => absurd hspike hne⟩
  · rw [if_neg (not_or.mpr ⟨hspike, hmuted⟩), if_neg (fun hnew => hnew.1 hheld)]
    exact ⟨fun _ => hspike, fun _ => ⟨_, rfl⟩⟩

/-! ## The watch as a whole -/

/-- What is told of logs, and what is remembered of their spikes, over any run of reports. -/
structure WatchLaw : Prop where
  /-- A log that is told first is an incident now, and was one in every look since some report
  that is at least `tgHold` old; it was in every report since then. It is above the lower limits
  too. -/
  new : ∀ (run : List Tick) (s : Server) (now : Time) (utcnow : ℚ) (p : Problem),
    s.logerrEv = after run → p ∈ problems s now utcnow → p.key ∉ held s →
    (∃ x ∈ sources s.lastReport utcnow,
      key x = p.key ∧ hot x = true ∧ Above (1 / 2) 3 x) ∧
    ∃ before t later, run = before ++ t :: later ∧ t.now ≤ now - tgHold ∧
      Lasted p.key (after before) t later
  /-- A log is looked at in every report, except a second time in a minute. -/
  looked : ∀ (run : List Tick) (t : Tick) (k : Text) (x : Log), t.fresh = true → t.log k = some x →
    t.looks k (after run) = some x ∨ ∃ y ∈ looks k [] run, minute y.1 = minute t.now
  /-- A log that was told stays so just when it is above half of the limits. -/
  announced : ∀ (s : Server) (now : Time) (utcnow : ℚ) (k : Text), k ∈ held s → k ∉ muted s now →
    ((∃ p ∈ problems s now utcnow, p.key = k) ↔
      ∃ x ∈ sources s.lastReport utcnow, key x = k ∧ Above (1 / 2) 3 x)
  /-- The spikes that are remembered are the newest of the longest runs of looks that met one,
  with no longer gaps than `evGap`, which ended no longer than `evKeep` ago. -/
  spikes : ∀ (run : List Tick) (t : Tick) (k : Text),
    (run ++ [t]).Pairwise (fun a b => a.now ≤ b.now) → Swept k (after run) t →
    evs (Dict.get (after (run ++ [t])) k) =
      (fresh t.now (((marks k (run ++ [t])).splitBy fun a b => b.1 - a.1 ≤ evGap).map evOf)).rtake
        evMax
  /-- A report by which the panel cannot judge, or in which it does not look at the log again,
  changes nothing. -/
  unseen : ∀ (run : List Tick) (t : Tick) (k : Text), ¬ Swept k (after run) t →
    evs (Dict.get (after (run ++ [t])) k) = evs (Dict.get (after run) k) ∧
      marks k (run ++ [t]) = marks k run

theorem logs_told : WatchLaw := by
  constructor
  case new =>
    intro run s now utcnow p hstate hp hnew
    obtain ⟨x, hx, hp⟩ := mem_problems.mp hp
    have hkey := problem_key hp
    rw [hkey] at hnew ⊢
    obtain ⟨hhot, hhold⟩ := problem_new hp hnew
    have habove : Above 1 4 x := (spike_above x false).mp (by rw [spike_of_hot hhot]; decide)
    refine ⟨⟨x, hx, rfl, hhot, habove.held⟩, ?_⟩
    obtain ⟨e, since, he, hsince, hle⟩ := hotFor_since hhold
    rw [hstate] at he
    obtain ⟨before, t, later, hrun, rfl, hlasted⟩ := hot_lasted he hsince
    exact ⟨before, t, later, hrun, hle, hlasted⟩
  case looked =>
    intro run t k x hfresh hlog
    unfold Tick.looks
    by_cases hdone : done t.now (Dict.get (after run) k) = false
    · rw [if_pos ⟨hfresh, hdone⟩]
      exact .inl hlog
    · obtain ⟨e, he, ht⟩ := (Option.any_eq_true _ _).mp (Bool.eq_true_of_not_eq_false hdone)
      obtain ⟨y, hy, hmin⟩ := entry_minute he
      exact .inr ⟨y, hy, hmin.trans (of_decide_eq_true ht)⟩
  case announced =>
    intro s now utcnow k hheld hmuted
    constructor
    · rintro ⟨p, hp, rfl⟩
      obtain ⟨x, hx, hp⟩ := mem_problems.mp hp
      rw [problem_key hp] at hheld hmuted ⊢
      exact ⟨x, hx, rfl, (spike_above x true).mp ((problem_held hheld hmuted).mp ⟨p, hp⟩)⟩
    · rintro ⟨x, hx, rfl, habove⟩
      obtain ⟨p, hp⟩ := (problem_held hheld hmuted).mpr ((spike_above x true).mpr habove)
      exact ⟨p, mem_problems.mpr ⟨x, hx, hp⟩, problem_key hp⟩
  case spikes =>
    intro run t k hrun hswept
    obtain ⟨hbefore, -, hlast⟩ := List.pairwise_append.mp hrun
    have htold : Told k run t.now :=
      told_run hbefore fun u hu => hlast u hu t (List.mem_singleton.mpr rfl)
    rw [htold.swept (le_refl _) hswept, ← kept_map (List.nil_notMem_splitBy rules.near _)]
    rfl
  case unseen =>
    intro run t k h
    exact frozen h

/-- A report on one log with so many errors. -/
def oneLog (clock : ℚ) (h1 usual : Nat) : Report where
  clockUnix := clock
  logerr := some
    { ts := clock
      sources := [⟨"container a".toList, [], h1, h1 + 23 * usual, 86400, List.replicate 6 700⟩] }

/-- Two copies of a pod, with 89.6 errors in the usual hour of both. -/
def twoCopies : Log :=
  merged "pod default/web".toList [] [⟨"pod default/web-a".toList, [], 100, 314, 75600, []⟩,
    ⟨"pod default/web-b".toList, [], 124, 1702, 75600, []⟩]

/-- A second report in a minute, with more errors than the first one and no incident, is not looked
at; an incident is told two hours later though nothing came in between; and a log that was told
ends at half of its limit, where the double is a little more than the limit. -/
theorem second_unseen :
    evs (Dict.get (after [⟨oneLog 1000000 4000 100, sec 1000000, 0⟩,
        ⟨oneLog 1000010 5000 500, sec 1000010, 0⟩]) "контейнер a|".toList) =
      [⟨sec 1000000, sec 1000000, 4000, some 100, 2⟩] ∧
    ((sources (oneLog 1000010 5000 500) 0).all fun x => !hot x && spike x = 1) = true ∧
    problems
        { logerrEv := after [⟨oneLog 1000000 4000 100, sec 1000000, 0⟩,
            ⟨oneLog 1000010 5000 500, sec 1000010, 0⟩]
          lastReport := oneLog 1007200 4000 100 } (sec 1007200) 0 =
      [⟨"контейнер a|".toList, 2, tgHold, 4000, some 100⟩] ∧
    twoCopies.h1 = 224 ∧
    5 * ((314 - 100) * 3600 / (75600 - 3600) + (1702 - 124) * 3600 / (75600 - 3600)) / 2 =
      (224 : ℚ) ∧
    spike twoCopies true = 0 := by
  decide +kernel

end Kervax.LogErrors
