-- When a lost port is told, by the history of its sightings: over every run of reports in
-- the order of time, with full lists, truncated ones and none.
import Kervax.ListenWatch
import Mathlib.Data.List.Induction

namespace Kervax.ListenWatch

/-! ## The history of one port -/

/-- A report with a list, as one port sees it: its process where the list names it. -/
structure Sight where
  now : Int
  full : Bool
  proc : Option String

/-- A full list without the port. -/
def missing (s : Sight) : Bool := s.full && s.proc.isNone

/-- When the absence began: the first of the full lists without the port that are the
newest ones. Newest reports come first, here and below. -/
def absence (past : List Sight) : Option Int := ((past.takeWhile missing).getLast?).map Sight.now

/-- The sighting that was written last, with the process it was of. A sighting is not written
less than `STEP` after the written one, of the same process and with no absence between; and
a list without the port later than `FORGET` after it forgets the port. -/
def written : List Sight → Option (Int × String)
  | [] => none
  | s :: past =>
    match s.proc, written past with
    | none, o => o.filter fun w => s.now - w.1 ≤ forget
    | some p, none => some (s.now, p)
    | some p, some (w, q) =>
      if absence past = none ∧ s.now - w < step ∧ (p = "" ∨ p = q) then some (w, q)
      else some (s.now, if p ≠ "" then p else q)

/-- The report `s` leaves the port its time: it ends no absence of `RESET`, and does not
forget the port. -/
def Keeps (s : Sight) (past : List Sight) : Prop :=
  (s.proc.isSome = true → ∀ m ∈ absence past, s.now - m < reset) ∧
    (s.proc = none → ∀ w ∈ written past, s.now - w.1 ≤ forget)

def Unbroken : List Sight → List Sight → Prop
  | [], _ => True
  | s :: newer, rest => Keeps s (newer ++ rest) ∧ Unbroken newer rest

/-- Since the sighting `f` the port was listened on without a break. -/
def Period (past : List Sight) (f : Sight) : Prop :=
  ∃ newer older, past = newer ++ f :: older ∧ f.proc.isSome = true ∧ Unbroken newer (f :: older)

/-- The last sighting. -/
def lastSeen (past : List Sight) : Option Int :=
  (past.find? fun s => s.proc.isSome).map Sight.now

variable {past : List Sight} {s f : Sight}

theorem period_cons : Period (s :: past) f ↔
    (f = s ∧ s.proc.isSome = true) ∨ (Period past f ∧ Keeps s past) := by
  constructor
  · rintro ⟨newer, older, heq, hf, hun⟩
    cases newer with
    | nil =>
      obtain ⟨rfl, rfl⟩ := List.cons.inj heq
      exact .inl ⟨rfl, hf⟩
    | cons n newer =>
      obtain ⟨rfl, rfl⟩ := List.cons.inj heq
      exact .inr ⟨⟨newer, older, rfl, hf, hun.2⟩, hun.1⟩
  · rintro (⟨rfl, hs⟩ | ⟨⟨newer, older, rfl, hf, hun⟩, hk⟩)
    · exact ⟨[], past, rfl, hs, trivial⟩
    · exact ⟨s :: newer, older, rfl, hf, hk, hun⟩

theorem Period.mem (h : Period past f) : f ∈ past := by
  obtain ⟨newer, older, rfl, -, -⟩ := h
  simp

theorem absence_seen (h : s.proc.isSome = true) : absence (s :: past) = none := by
  have hm : missing s = false := by
    rw [Option.isSome_iff_ne_none] at h
    cases hp : s.proc with
    | none => exact absurd hp h
    | some p => simp [missing, hp]
  simp [absence, hm]

theorem absence_cut (h : s.full = false) : absence (s :: past) = none := by
  simp [absence, missing, h]

/-- A full list without the port goes on with the absence, or begins it. -/
theorem absence_missing (h : s.full = true) (hp : s.proc = none) :
    absence (s :: past) = some ((absence past).getD s.now) := by
  have hm : missing s = true := by simp [missing, h, hp]
  unfold absence
  rw [List.takeWhile_cons, if_pos hm, List.getLast?_cons]
  cases hl : (past.takeWhile missing).getLast? <;> simp

/-! ## What an entry says -/

/-- One report with a list, for one port. -/
def sightStep (o : Option Entry) (s : Sight) : Option Entry :=
  match s.proc with
  | some p => some (sighted o p s.now)
  | none => o.bind (missed s.full s.now)

/-- What is stored about a port with these reports behind it. -/
structure Recalls (past : List Sight) (e : Entry) : Prop where
  written : written past = some (e.last, e.proc)
  miss : e.miss = absence past
  first : ∃ f, Period past f ∧ f.now = e.first
  earliest : ∀ f, Period past f → e.first ≤ f.now

structure Encodes (past : List Sight) (o : Option Entry) : Prop where
  some : ∀ e, o = some e → Recalls past e
  noTime : o = none → written past = none ∧ ∀ f, ¬ Period past f

variable {o : Option Entry} {e : Entry}

theorem Recalls.seen_new {p : String} (hp : s.proc = some p) (hw : ListenWatch.written past = none)
    (hno : ∀ f, ¬ Period past f) : Recalls (s :: past) ⟨s.now, s.now, p, none⟩ where
  written := by simp [ListenWatch.written, hp, hw]
  miss := (absence_seen (by simp [hp])).symm
  first := ⟨s, period_cons.mpr (.inl ⟨rfl, by simp [hp]⟩), rfl⟩
  earliest f hf := by
    rcases period_cons.mp hf with ⟨rfl, -⟩ | ⟨hf, -⟩
    · exact le_rfl
    · exact absurd hf (hno f)

/-- The periods after a sighting that ends no long absence, and after one that does. -/
theorem Recalls.first_seen (hr : Recalls past e) (hp : s.proc.isSome = true)
    (hnow : ∀ f ∈ past, f.now ≤ s.now) :
    let first := if e.miss.all (fun m => s.now - m < reset) then e.first else s.now
    (∃ f, Period (s :: past) f ∧ f.now = first) ∧ ∀ f, Period (s :: past) f → first ≤ f.now := by
  intro first
  have hkeeps : (e.miss.all fun m => decide (s.now - m < reset)) = true ↔ Keeps s past := by
    rw [hr.miss]
    unfold Keeps
    rw [Option.isSome_iff_ne_none] at hp
    cases absence past <;> simp [hp, Option.isSome_iff_ne_none]
  by_cases hk : (e.miss.all fun m => decide (s.now - m < reset)) = true
  · have hfirst : first = e.first := if_pos hk
    rw [hfirst]
    obtain ⟨f, hf, hft⟩ := hr.first
    refine ⟨⟨f, period_cons.mpr (.inr ⟨hf, hkeeps.mp hk⟩), hft⟩, ?_⟩
    intro g hg
    rcases period_cons.mp hg with ⟨rfl, -⟩ | ⟨hg, -⟩
    · rw [← hft]
      exact hnow f hf.mem
    · exact hr.earliest g hg
  · have hfirst : first = s.now := if_neg hk
    rw [hfirst]
    refine ⟨⟨s, period_cons.mpr (.inl ⟨rfl, hp⟩), rfl⟩, ?_⟩
    intro g hg
    rcases period_cons.mp hg with ⟨rfl, -⟩ | ⟨-, hks⟩
    · exact le_rfl
    · exact absurd (hkeeps.mpr hks) hk

theorem Recalls.seen (hr : Recalls past e) {p : String} (hp : s.proc = some p)
    (hnow : ∀ f ∈ past, f.now ≤ s.now) : Recalls (s :: past) (sighted (some e) p s.now) := by
  have hsome : s.proc.isSome = true := by simp [hp]
  have hfirst := hr.first_seen hsome hnow
  have hw : ListenWatch.written (s :: past) =
      if absence past = none ∧ s.now - e.last < step ∧ (p = "" ∨ p = e.proc) then
        some (e.last, e.proc)
      else some (s.now, if p ≠ "" then p else e.proc) := by
    simp [ListenWatch.written, hp, hr.written]
  unfold sighted
  simp only
  by_cases hkept : e.miss = none ∧ s.now - e.last < step ∧ (p = "" ∨ p = e.proc)
  · rw [if_pos hkept]
    rw [hkept.1, Option.all_none, if_pos rfl] at hfirst
    rw [hr.miss] at hkept
    rw [if_pos hkept] at hw
    refine ⟨hw, ?_, hfirst.1, hfirst.2⟩
    rw [hr.miss, hkept.1, absence_seen hsome]
  · rw [if_neg hkept]
    rw [hr.miss] at hkept
    rw [if_neg hkept] at hw
    exact ⟨hw, (absence_seen hsome).symm, hfirst.1, hfirst.2⟩

theorem Recalls.missed (hr : Recalls past e) (hp : s.proc = none) :
    Encodes (s :: past) (missed s.full s.now e) := by
  have hw : ListenWatch.written (s :: past) =
      (some (e.last, e.proc)).filter fun w => decide (s.now - w.1 ≤ forget) := by
    simp [ListenWatch.written, hp, hr.written]
  have hperiod : ∀ f, Period (s :: past) f ↔ Period past f ∧ s.now - e.last ≤ forget := by
    intro f
    rw [period_cons]
    simp [Keeps, hp, hr.written]
  unfold ListenWatch.missed
  by_cases hlate : forget < s.now - e.last
  · rw [if_pos hlate]
    refine ⟨by simp, fun _ => ⟨?_, ?_⟩⟩
    · rw [hw]
      simp [Option.filter, not_le.mpr hlate]
    · intro f hf
      exact absurd ((hperiod f).mp hf).2 (not_le.mpr hlate)
  · rw [if_neg hlate]
    have hle := not_lt.mp hlate
    refine ⟨?_, by simp⟩
    rintro e' he'
    obtain rfl := Option.some.inj he'
    obtain ⟨f, hf, hft⟩ := hr.first
    refine ⟨?_, ?_, ⟨f, (hperiod f).mpr ⟨hf, hle⟩, hft⟩, ?_⟩
    · rw [hw]
      simp [Option.filter, hle]
    · cases hfull : s.full with
      | true => rw [absence_missing hfull hp, ← hr.miss, if_pos rfl]
      | false => rw [absence_cut hfull, if_neg (by simp)]
    · intro g hg
      exact hr.earliest g ((hperiod g).mp hg).1

/-- A report with a list keeps what the entry says. -/
theorem Encodes.step (h : Encodes past o) (hnow : ∀ f ∈ past, f.now ≤ s.now) :
    Encodes (s :: past) (sightStep o s) := by
  unfold sightStep
  cases hp : s.proc with
  | some p =>
    refine ⟨?_, by simp⟩
    rintro e' he'
    obtain rfl := Option.some.inj he'
    cases o with
    | none =>
      obtain ⟨hw, hno⟩ := h.noTime rfl
      exact Recalls.seen_new hp hw hno
    | some e => exact (h.some e rfl).seen hp hnow
  | none =>
    cases o with
    | none =>
      obtain ⟨hw, hno⟩ := h.noTime rfl
      refine ⟨by simp, fun _ => ⟨by simp [ListenWatch.written, hp, hw], ?_⟩⟩
      intro f hf
      rcases period_cons.mp hf with ⟨rfl, hf⟩ | ⟨hf, -⟩
      · simp [hp] at hf
      · exact hno f hf
    | some e => exact (h.some e rfl).missed hp

/-! ## The history of a server -/

/-- What the report says about the port of a key; `none` without a list. -/
def sightOf (k : String) (r : Report) : Option Sight :=
  (current r).map fun cur => ⟨r.now, full r, cur.lookup k⟩

def history (rs : List Report) : History := rs.foldl update []

/-- The reports with a list, as the port of a key sees them, the newest first. -/
def views (k : String) (rs : List Report) : List Sight := (rs.filterMap (sightOf k)).reverse

theorem puts_lookup {β γ : Type} (g : String × β → γ) (cur : List (String × β))
    (d : List (String × γ)) (h : (Dict.keys cur).Nodup) (k : String) :
    (cur.foldl (fun new x => Dict.put new x.1 (g x)) d).lookup k =
      match cur.lookup k with
      | some p => some (g (k, p))
      | none => d.lookup k := by
  induction cur generalizing d with
  | nil => rfl
  | cons x cur ih =>
    obtain ⟨hx, hcur⟩ := List.nodup_cons.mp h
    rw [List.foldl_cons, ih _ hcur, List.lookup_cons, Dict.lookup_put]
    by_cases hk : k = x.1
    · subst hk
      rw [Dict.lookup_eq_none.mpr hx]
      simp
    · rw [beq_false_of_ne hk, if_neg hk]

theorem puts_nodup {β γ : Type} (key : β → String) (g : List (String × γ) → β → γ) (cur : List β)
    {d : List (String × γ)} (h : (Dict.keys d).Nodup) :
    (Dict.keys (cur.foldl (fun new x => Dict.put new (key x) (g new x)) d)).Nodup := by
  induction cur generalizing d with
  | nil => exact h
  | cons x cur ih => exact ih (Dict.nodup_put h _ _)

theorem current_nodup {r : Report} {cur : List (String × String)} (h : current r = some cur) :
    (Dict.keys cur).Nodup := by
  obtain ⟨sockets, -, rfl⟩ := Option.map_eq_some_iff.mp h
  exact puts_nodup (fun s : Socket => keyOf s.port) _ _ List.nodup_nil

theorem update_nodup {old : History} (h : (Dict.keys old).Nodup) (r : Report) :
    (Dict.keys (update old r)).Nodup := by
  unfold update
  cases current r with
  | none => exact h
  | some cur =>
    exact puts_nodup Prod.fst (fun _ x => sighted (old.lookup x.1) x.2 r.now) _
      ((Dict.keys_choose_sublist _ old).nodup h)

/-- A report changes the entry of each port by what it says about it. -/
theorem update_lookup {old : History} (h : (Dict.keys old).Nodup) (r : Report) (k : String) :
    (update old r).lookup k =
      match sightOf k r with
      | none => old.lookup k
      | some s => sightStep (old.lookup k) s := by
  unfold update sightOf
  cases hcur : current r with
  | none => rfl
  | some cur =>
    simp only [Option.map_some]
    rw [puts_lookup (fun x => sighted (old.lookup x.1) x.2 r.now) cur _ (current_nodup hcur) k,
      Dict.lookup_choose h]
    unfold sightStep
    cases hl : cur.lookup k with
    | some p => rfl
    | none =>
      cases old.lookup k with
      | none => rfl
      | some e => simp [Dict.lookup_eq_none.mp hl]

theorem history_snoc (rs : List Report) (r : Report) : history (rs ++ [r]) = update (history rs) r := by
  simp [history]

theorem views_snoc (k : String) (rs : List Report) (r : Report) : views k (rs ++ [r]) =
    match sightOf k r with
    | none => views k rs
    | some s => s :: views k rs := by
  unfold views
  rw [List.filterMap_append]
  cases h : sightOf k r <;> simp [h]

theorem history_nodup (rs : List Report) : (Dict.keys (history rs)).Nodup := by
  induction rs using List.reverseRecOn with
  | nil => exact List.nodup_nil
  | append_singleton rs r ih =>
    rw [history_snoc]
    exact update_nodup ih r

theorem views_le {k : String} {rs : List Report} {t : Int} (h : ∀ r ∈ rs, r.now ≤ t) :
    ∀ f ∈ views k rs, f.now ≤ t := by
  intro f hf
  obtain ⟨r, hr, hs⟩ := List.mem_filterMap.mp (List.mem_reverse.mp hf)
  obtain ⟨cur, -, rfl⟩ := Option.map_eq_some_iff.mp hs
  exact h r hr

theorem sightOf_now {k : String} {r : Report} {s : Sight} (h : sightOf k r = some s) :
    s.now = r.now := by
  obtain ⟨cur, -, rfl⟩ := Option.map_eq_some_iff.mp h
  rfl

/-- The reports come in the order of time. -/
def InOrder (rs : List Report) : Prop := rs.Pairwise fun a b => a.now ≤ b.now

theorem history_encodes {rs : List Report} (h : InOrder rs) (k : String) :
    Encodes (views k rs) ((history rs).lookup k) := by
  induction rs using List.reverseRecOn with
  | nil =>
    refine ⟨by simp [history], fun _ => ⟨rfl, ?_⟩⟩
    intro f hf
    exact absurd hf.mem (by simp [views])
  | append_singleton rs r ih =>
    obtain ⟨hrs, -, hlast⟩ := List.pairwise_append.mp h
    have hle : ∀ a ∈ rs, a.now ≤ r.now := fun a ha => hlast a ha r (List.mem_singleton_self r)
    rw [history_snoc, update_lookup (history_nodup rs), views_snoc]
    cases hs : sightOf k r with
    | none => exact ih hrs
    | some s => exact (ih hrs).step (by rw [sightOf_now hs]; exact views_le hle)

/-! ## The result -/

/-- A port was listened on for `STABLE`, up to its written sighting, and is gone since the
first of the newest full lists, `GONE` before `t` or earlier. -/
def Lost (past : List Sight) (t : Int) : Prop :=
  ∃ w m f, written past = some w ∧ absence past = some m ∧ gone ≤ t - m ∧
    Period past f ∧ stable ≤ w.1 - f.now

theorem lost_iff {past : List Sight} {o : Option Entry} (h : Encodes past o) (t : Int) :
    (∃ e, o = some e ∧ lost e t = true) ↔ Lost past t := by
  constructor
  · rintro ⟨e, rfl, hl⟩
    have hr := h.some e rfl
    obtain ⟨m, hm, hl⟩ := (Option.any_eq_true _ _).mp hl
    rw [Bool.and_eq_true, decide_eq_true_eq, decide_eq_true_eq] at hl
    obtain ⟨f, hf, hft⟩ := hr.first
    exact ⟨_, m, f, hr.written, hr.miss ▸ hm, hl.1, hf, hft ▸ hl.2⟩
  · rintro ⟨w, m, f, hw, hm, hgone, hf, hstable⟩
    cases o with
    | none => exact absurd hf ((h.noTime rfl).2 f)
    | some e =>
      have hr := h.some e rfl
      obtain rfl := Option.some.inj (hw.symm.trans hr.written)
      have hfirst := hr.earliest f hf
      refine ⟨e, rfl, ?_⟩
      unfold lost
      rw [hr.miss, hm, Option.any_some, Bool.and_eq_true, decide_eq_true_eq, decide_eq_true_eq]
      refine ⟨hgone, ?_⟩
      simp only at hstable
      omega

theorem mem_problems {st : History} (h : (Dict.keys st).Nodup) {mutes : List String} {t : Int}
    {k : String} : (∃ x ∈ problems st mutes t, x.key = k) ↔
      (∃ e, st.lookup k = some e ∧ lost e t = true) ∧ muted mutes k = false := by
  unfold problems
  constructor
  · rintro ⟨x, hx, rfl⟩
    obtain ⟨kv, hkv, rfl⟩ := List.mem_map.mp hx
    obtain ⟨hmem, hl⟩ := List.mem_filter.mp hkv
    rw [Bool.and_eq_true, Bool.not_eq_true'] at hl
    exact ⟨⟨kv.2, Dict.lookup_of_mem h ((List.mem_insertionSort _).mp hmem), hl.1⟩, hl.2⟩
  · rintro ⟨⟨e, he, hl⟩, hm⟩
    refine ⟨⟨k, portOf k, e.proc⟩, List.mem_map.mpr ⟨(k, e), List.mem_filter.mpr ⟨?_, ?_⟩, rfl⟩, rfl⟩
    · exact (List.mem_insertionSort _).mpr (Dict.mem_of_lookup he)
    · rw [hl, hm]
      rfl

/-- The written sighting is the last one, or less than `STEP` before it. -/
theorem written_lag {past : List Sight} (h : past.Pairwise fun a b => b.now ≤ a.now)
    {w : Int × String} (hw : written past = some w) :
    (∃ f ∈ past, f.now = w.1) ∧ ∃ l, lastSeen past = some l ∧ w.1 ≤ l ∧ l - w.1 < step := by
  induction past generalizing w with
  | nil => cases hw
  | cons s past ih =>
    obtain ⟨hs, hpast⟩ := List.pairwise_cons.mp h
    unfold written at hw
    cases hp : s.proc with
    | none =>
      simp only [hp] at hw
      obtain ⟨hw, -⟩ := Option.filter_eq_some_iff.mp hw
      obtain ⟨⟨f, hf, hfw⟩, l, hl, hle⟩ := ih hpast hw
      refine ⟨⟨f, List.mem_cons_of_mem _ hf, hfw⟩, l, ?_, hle⟩
      simpa [lastSeen, hp] using hl
    | some p =>
      have hlast : lastSeen (s :: past) = some s.now := by simp [lastSeen, hp]
      have hself : ∀ q : String, (s.now, q) = w →
          (∃ f ∈ s :: past, f.now = w.1) ∧
            ∃ l, lastSeen (s :: past) = some l ∧ w.1 ≤ l ∧ l - w.1 < step := by
        rintro q rfl
        exact ⟨⟨s, List.mem_cons_self, rfl⟩, s.now, hlast, le_rfl, by simp [step, minutes]⟩
      simp only [hp] at hw
      cases hv : written past with
      | none =>
        rw [hv] at hw
        exact hself p (Option.some.inj hw)
      | some v =>
        rw [hv] at hw
        simp only at hw
        by_cases hkept : absence past = none ∧ s.now - v.1 < step ∧ (p = "" ∨ p = v.2)
        · rw [if_pos hkept] at hw
          obtain rfl := Option.some.inj hw
          obtain ⟨⟨f, hf, hfw⟩, -⟩ := ih hpast hv
          refine ⟨⟨f, List.mem_cons_of_mem _ hf, hfw⟩, s.now, hlast, ?_, hkept.2.1⟩
          rw [← hfw]
          exact hs f hf
        · rw [if_neg hkept] at hw
          exact hself _ (Option.some.inj hw)

theorem views_pairwise {rs : List Report} (h : InOrder rs) (k : String) :
    (views k rs).Pairwise fun a b => b.now ≤ a.now := by
  unfold views
  rw [List.pairwise_reverse, List.pairwise_filterMap]
  refine h.imp ?_
  intro a b hab s hs t ht
  rw [sightOf_now hs, sightOf_now ht]
  exact hab

/-- Which ports are told, by the history of their sightings. -/
structure ToldByHistory : Prop where
  told : ∀ rs, InOrder rs → ∀ mutes t k, (∃ x ∈ problems (history rs) mutes t, x.key = k) ↔
    Lost (views k rs) t ∧ muted mutes k = false
  /-- The written sighting is less than `STEP` before the last one. -/
  lag : ∀ rs, InOrder rs → ∀ k w, written (views k rs) = some w →
    ∃ l, lastSeen (views k rs) = some l ∧ w.1 ≤ l ∧ l - w.1 < step
  /-- At the latest list, if it is without the port, `FORGET` has not passed since. -/
  remembered : ∀ rs k s older w, views k rs = s :: older → s.proc = none →
    written (views k rs) = some w → s.now - w.1 ≤ forget

theorem told_by_history : ToldByHistory where
  told rs h mutes t k := by
    rw [mem_problems (history_nodup rs), lost_iff (history_encodes h k)]
  lag rs h k w hw := (written_lag (views_pairwise h k) hw).2
  remembered rs k s older w hpast hp hw := by
    rw [hpast] at hw
    simp only [written, hp] at hw
    exact of_decide_eq_true (Option.filter_eq_some_iff.mp hw).2

/-- A report that lists the given ports, and no processes. -/
def portsAt (now : Int) (ports : List Int) : Report :=
  ⟨now, some (ports.map fun port => ⟨"tcp", port⟩), []⟩

/-- The port 80 is seen for a week, the last time a minute after the written sighting. -/
def weekLong : List Report :=
  [portsAt 0 [80], portsAt (days 7 - minutes 1) [80], portsAt (days 7) [80],
    portsAt (days 7 + minutes 1) []]

theorem sightOf_listed (now : Int) :
    sightOf (keyOf 80) (portsAt now [80]) = some ⟨now, true, some ""⟩ := by
  have hcounted : ∀ now, counted (portsAt now [80]) ⟨"tcp", 80⟩ = true := by
    intro now
    simp [counted, procOf, portsAt, ephemeral, skipProcs]
  have hproc : procOf (portsAt now [80]) 80 = "" := rfl
  simp [sightOf, current, portsAt, full, truncated] at hcounted ⊢
  simp [hcounted, Dict.put, Dict.keys, procOf]

theorem sightOf_empty (now : Int) :
    sightOf (keyOf 80) (portsAt now []) = some ⟨now, true, none⟩ := rfl

theorem views_weekLong : views (keyOf 80) weekLong =
    [⟨days 7 + minutes 1, true, none⟩, ⟨days 7, true, some ""⟩,
      ⟨days 7 - minutes 1, true, some ""⟩, ⟨0, true, some ""⟩] := by
  simp [views, weekLong, sightOf_listed, sightOf_empty]

/-- A port that was seen over a whole week, and is gone for twenty minutes, is not told: the
stored end of its time is a minute too early. -/
theorem week_written_short : ¬ ∀ rs, InOrder rs → ∀ t k,
    (∃ l m f, lastSeen (views k rs) = some l ∧ absence (views k rs) = some m ∧ gone ≤ t - m ∧
      Period (views k rs) f ∧ stable ≤ l - f.now ∧ t - l < forget) →
    ∃ x ∈ problems (history rs) [] t, x.key = k := by
  intro h
  have hviews := views_weekLong
  have hwritten : written (views (keyOf 80) weekLong) = some (days 7 - minutes 1, "") := by
    rw [hviews]
    decide
  have horder : InOrder weekLong := by
    simp [InOrder, weekLong, portsAt, days, minutes]
  obtain ⟨x, hx, hk⟩ := h weekLong horder (days 7 + minutes 21) (keyOf 80)
    ⟨days 7, days 7 + minutes 1, ⟨0, true, some ""⟩, by rw [hviews]; decide, by rw [hviews]; decide,
      by decide, by
        rw [hviews]
        refine ⟨[⟨days 7 + minutes 1, true, none⟩, ⟨days 7, true, some ""⟩,
          ⟨days 7 - minutes 1, true, some ""⟩], [], rfl, rfl, ?_⟩
        simp [Unbroken, Keeps, absence, missing, written, days, minutes, forget, step], by decide,
      by decide⟩
  obtain ⟨⟨w, m, f, hw, -, -, hf, hstable⟩, -⟩ :=
    (told_by_history.told weekLong horder [] _ (keyOf 80)).mp ⟨x, hx, hk⟩
  obtain rfl := Option.some.inj (hwritten.symm.trans hw)
  have hpos : 0 ≤ f.now := by
    have hmem := hf.mem
    rw [hviews] at hmem
    simp only [List.mem_cons, List.not_mem_nil, or_false] at hmem
    rcases hmem with rfl | rfl | rfl | rfl <;> decide
  have hshort : days 7 - minutes 1 < stable := by decide
  simp only at hstable
  omega

end Kervax.ListenWatch
