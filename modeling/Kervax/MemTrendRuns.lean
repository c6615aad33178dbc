-- Runs of the reports of one server: what a stored history is made of, and what
-- stands behind the end of an announced leak.
import Kervax.MemSeries
import Kervax.Runs

namespace Kervax.Mem

/-! ## What grows -/

/-- The keys that are announced: `previous_keys` before its fallback. -/
def Server.announced (s : Server) : List Key := s.sig ++ s.told ++ s.knownSig

/-- The keys that the condition names. -/
def namedNow (s : Server) (now : Time) : List Key := ((memLeakCond s now).map Prod.snd).getD []

theorem mem_growing {s : Server} (hn : (Dict.keys (s.trend.getD [])).Nodup) {now : Time}
    {x : Growing} :
    x ∈ growing s now ↔ ∃ cs, s.series x.key = some cs ∧ provenGone s now x.key = false ∧
      s.muted x.key = false ∧ leak (some cs) = some x.rate := by
  unfold growing Server.series
  rw [List.mem_filterMap]
  constructor
  · rintro ⟨⟨k, cs⟩, hmem, hx⟩
    dsimp only at hx
    split at hx
    · cases hx
    · next h =>
      obtain ⟨r, hr, rfl⟩ := Option.map_eq_some_iff.mp hx
      simp only [not_or, Bool.not_eq_true] at h
      exact ⟨cs, Dict.lookup_of_mem hn (List.mem_mergeSort.mp hmem), h.1, h.2, hr⟩
  · rintro ⟨cs, hcs, hgone, hmuted, hr⟩
    refine ⟨(x.key, cs), List.mem_mergeSort.mpr (Dict.mem_of_lookup hcs), ?_⟩
    simp [hgone, hmuted, hr]

theorem mem_shown {s : Server} {now : Time} {x : Growing} (h : x ∈ shown s now) :
    x ∈ growing s now := by
  unfold shown at h
  dsimp only at h
  split at h
  · exact List.mem_of_mem_filter h
  · exact h

/-- A leak has the finished days that it is judged by. -/
theorem leak_days {cs : Series} (h : leak (some cs) ≠ none) : leakDays + 1 ≤ cs.h.length := by
  unfold leak at h
  dsimp only at h
  split at h
  · next hl =>
    have hlen := hl.1
    unfold continuous points lastN at hlen
    simp only [decide_eq_true_eq, List.length_drop] at hlen
    omega
  · exact absurd rfl h

/-- What the condition names has a history long enough. -/
theorem named_days {s : Server} (hn : (Dict.keys (s.trend.getD [])).Nodup) {now : Time} {k : Key}
    (h : k ∈ namedNow s now) : ∃ cs, s.series k = some cs ∧ leakDays + 1 ≤ cs.h.length := by
  unfold namedNow memLeakCond at h
  split at h
  · cases h
  · dsimp only at h
    split at h
    · cases h
    · obtain ⟨⟨x, level⟩, hx, rfl⟩ := List.mem_map.mp h
      have hp := List.mem_of_mem_filter hx
      unfold problems at hp
      split at hp
      · cases hp
      · obtain ⟨y, hy, he⟩ := List.mem_map.mp hp
        obtain rfl : y = x := congrArg Prod.fst he
        obtain ⟨cs, hcs, -, -, hl⟩ := (mem_growing hn).mp (mem_shown hy)
        exact ⟨cs, hcs, leak_days (by rw [hl]; simp)⟩

/-! ## The machine -/

/-- One tick of the collector, or one look at the server between its ticks: the
moment and its day in the zone of the panel, what has come from the agent, the
mutes, whether the trend is updated, and what is announced after it. -/
structure Tick where
  now : Time
  day : Int
  lastSeen : Option Time
  offlineAfter : Int := 120
  report : Report
  muted : Key → Bool := fun _ => false
  updates : Bool := true
  memLeak : Nat := 0
  sig : List Key := []
  told : List Key := []
  knownLevel : Nat := 0
  knownSig : List Key := []

/-- The server, the log of each key, and the keys that a complete list has shown
to be gone or replaced since they were last named. -/
structure State where
  server : Server := {}
  log : Key → Log := fun _ => {}
  proven : Key → Bool := fun _ => false

/-- What has come from the agent and from the user. -/
def Server.receive (s : Server) (t : Tick) : Server :=
  { s with lastSeen := t.lastSeen, offlineAfter := t.offlineAfter, report := t.report,
           muted := t.muted }

/-- The trend after `update`; an empty one is written only over another. -/
def Server.stored (s : Server) (t : Tick) : Option Trend :=
  let new := update (s.trend.getD []) t.report t.now t.day
  if s.trend = none ∧ new = [] then none else some new

/-- A complete list shows that the object of a key is gone or another one. -/
def listed (s : Server) (k : Key) : Bool :=
  inventoryComplete s.report k.kind ∧
    (isMember s.report k = false ∨ replaced s.report k ((s.series k).map Series.u |>.getD ""))

/-- One tick: the condition is read, then the trend is updated and the
announcement is what the tick says. -/
def next (st : State) (t : Tick) : State :=
  let s := st.server.receive t
  { server := { s with
      trend := if t.updates then s.stored t else s.trend
      memLeak := t.memLeak, sig := t.sig, told := t.told
      knownLevel := t.knownLevel, knownSig := t.knownSig }
    log := fun k => if t.updates then (st.log k).next t.report t.now t.day k else st.log k
    proven := fun k => listed s k ∨
      (k ∈ st.server.announced ∧ st.proven k ∧ k ∉ namedNow s t.now) }

/-- What is announced was announced before, or the condition has named it. -/
def Announces (st : State) (t : Tick) : Prop :=
  ∀ k ∈ t.sig ++ t.told ++ t.knownSig,
    k ∈ st.server.announced ∨ k ∈ namedNow (st.server.receive t) t.now

/-- The state after the ticks. -/
def after (ticks : List Tick) : State := Runs.run next {} ticks

/-! ## What every tick keeps -/

structure Inv (st : State) : Prop where
  nodup : (Dict.keys (st.server.trend.getD [])).Nodup
  good : ∀ k, (st.log k).Good k
  view : ∀ k, st.server.series k = (st.log k).view
  days : ∀ k ∈ st.server.announced, st.proven k = false →
    ∃ cs, st.server.series k = some cs ∧ leakDays + 1 ≤ cs.h.length

/-- A history that no complete list speaks against does not get too short. -/
theorem days_update {old : Trend} (hn : (Dict.keys old).Nodup) {rep : Report} {now : Time}
    {day : Int} {k : Key} {cs : Series} (hold : old.lookup k = some cs)
    (hlen : leakDays + 1 ≤ cs.h.length)
    (hno : inventoryComplete rep k.kind = true →
      isMember rep k = true ∧ replaced rep k cs.u = false) :
    ∃ cs', (update old rep now day).lookup k = some cs' ∧ leakDays + 1 ≤ cs'.h.length := by
  rw [lookup_update hn, hold]
  cases hs : ((targets rep).lookup k).bind (sampled old rep now day k) with
  | none =>
    have hkeep : keeps rep day k cs = true := by
      unfold keeps
      cases hc : inventoryComplete rep k.kind with
      | false => simp
      | true => simp [(hno hc).1]
    exact ⟨cs, by simp [Option.filter, hkeep], hlen⟩
  | some cs' =>
    refine ⟨cs', rfl, ?_⟩
    obtain ⟨v, -, hv⟩ := Option.bind_eq_some_iff.mp hs
    unfold sampled at hv
    rw [hold] at hv
    dsimp only [Option.any_some] at hv
    split at hv
    · cases hv
    · split at hv
      · cases hv
      · next hother =>
        have hsame : replaced rep k cs.u = false := by
          cases hc : inventoryComplete rep k.kind with
          | true => exact (hno hc).2
          | false => simpa [hc] using hother
        obtain rfl := Option.some.inj hv
        simp only [hsame, Bool.false_eq_true, if_false, stepSeries]
        split
        · exact hlen
        · simp only [lastN, keepDays, leakDays, List.length_drop, List.length_append,
            List.length_singleton] at hlen ⊢
          omega

theorem stored_getD (s : Server) (t : Tick) :
    (s.stored t).getD [] = update (s.trend.getD []) t.report t.now t.day := by
  unfold Server.stored
  dsimp only
  split
  · next h => exact h.2.symm
  · rfl

theorem series_next (st : State) (t : Tick) (k : Key) :
    (next st t).server.series k = if t.updates then
      (update (st.server.trend.getD []) t.report t.now t.day).lookup k else st.server.series k := by
  unfold Server.series next
  cases t.updates with
  | true => exact congrArg _ (stored_getD _ _)
  | false => rfl

theorem inv_next {st : State} {t : Tick} (hi : Inv st) (ha : Announces st t) :
    Inv (next st t) := by
  constructor
  · unfold next
    cases t.updates with
    | true =>
      dsimp only
      rw [if_pos rfl, stored_getD]
      exact nodup_update hi.nodup _ _ _
    | false => exact hi.nodup
  · intro k
    unfold next
    cases t.updates with
    | true => exact good_next (hi.good k) _ _ _
    | false => exact hi.good k
  · intro k
    rw [series_next]
    unfold next
    cases t.updates with
    | true => exact view_next hi.nodup (hi.good k) (hi.view k) _ _ _
    | false => exact hi.view k
  · intro k hk hproven
    unfold next at hproven
    simp only [decide_eq_false_iff_not, not_or, not_and, not_not] at hproven
    obtain ⟨hlisted, hbefore⟩ := hproven
    -- named now, or announced before and not shown to be gone since
    have hold : ∃ cs, st.server.series k = some cs ∧ leakDays + 1 ≤ cs.h.length := by
      by_cases hnamed : k ∈ namedNow (st.server.receive t) t.now
      · exact named_days (s := st.server.receive t) hi.nodup hnamed
      · have hann := (ha k hk).resolve_right hnamed
        refine hi.days k hann ?_
        by_contra hp
        exact hnamed (hbefore hann (by simpa using hp))
    obtain ⟨cs, hcs, hlen⟩ := hold
    rw [series_next]
    split
    · refine days_update hi.nodup hcs hlen ?_
      intro hc
      unfold listed at hlisted
      have hseries : (st.server.receive t).series k = some cs := hcs
      rw [hseries] at hlisted
      simpa [Server.receive, hc] using hlisted
    · exact ⟨cs, hcs, hlen⟩

theorem inv_after {ticks : List Tick} (ha : Runs.Along next Announces {} ticks) :
    Inv (after ticks) := by
  refine Runs.inv_run (I := Inv) (C := Announces) ?_ (fun _ _ => inv_next) ha
  exact ⟨List.nodup_nil, fun _ => ⟨by simp, fun _ => rfl, fun _ => rfl⟩, fun _ => rfl,
    fun k hk => by cases hk⟩

/-! ## The order of the samples -/

/-- A log of this report: its samples are old ones or of the day. -/
theorem mem_log_next {l : Log} {rep : Report} {now : Time} {day : Int} {k : Key} {p : Int × Int}
    (h : p ∈ (l.next rep now day k).samples) : p ∈ l.samples ∨ p.1 = day := by
  unfold Log.next Log.unseen at h
  grind

theorem order_log_next {l : Log} {rep : Report} {now : Time} {day : Int} {k : Key}
    (h : InDayOrder l.samples) (hday : ∀ p ∈ l.samples, p.1 ≤ day) :
    InDayOrder (l.next rep now day k).samples := by
  unfold Log.next
  split
  · unfold Log.unseen
    split
    · exact List.Pairwise.nil
    · exact h
  · split
    · split
      · exact List.pairwise_singleton _ _
      · exact h
    · refine List.pairwise_append.mpr ⟨h, List.pairwise_singleton _ _, ?_⟩
      intro a ha b hb
      rw [List.mem_singleton.mp hb]
      exact hday a ha

/-- The days of the ticks do not go back. -/
def DaysInOrder (ticks : List Tick) : Prop := ticks.Pairwise fun a b => a.day ≤ b.day

theorem mem_log_after {ticks : List Tick} {k : Key} {p : Int × Int}
    (h : p ∈ ((after ticks).log k).samples) : ∃ t ∈ ticks, p.1 = t.day := by
  induction ticks using List.reverseRecOn with
  | nil => cases h
  | append_singleton ticks t ih =>
    have hback (hold : p ∈ ((after ticks).log k).samples) : ∃ u ∈ ticks ++ [t], p.1 = u.day := by
      obtain ⟨u, hu, hp⟩ := ih hold
      exact ⟨u, List.mem_append_left _ hu, hp⟩
    unfold after at h
    rw [Runs.run_snoc] at h
    unfold next at h
    cases hu : t.updates with
    | true =>
      rw [hu] at h
      rcases mem_log_next h with h | h
      · exact hback h
      · exact ⟨t, by simp, h⟩
    | false =>
      rw [hu] at h
      exact hback h

theorem order_after {ticks : List Tick} (hd : DaysInOrder ticks) (k : Key) :
    InDayOrder ((after ticks).log k).samples := by
  induction ticks using List.reverseRecOn with
  | nil => exact List.Pairwise.nil
  | append_singleton ticks t ih =>
    obtain ⟨hticks, -, hlast⟩ := List.pairwise_append.mp hd
    unfold after
    rw [Runs.run_snoc]
    unfold next
    cases t.updates with
    | true =>
      refine order_log_next (ih hticks) ?_
      intro p hp
      obtain ⟨u, hu, hday⟩ := mem_log_after hp
      rw [hday]
      exact hlast u hu t (by simp)
    | false => exact ih hticks

/-! ## The end of a leak -/

/-- The finished days by which a history would be judged have no gap. -/
def NoGap (s : Server) (k : Key) : Prop :=
  ∀ cs, s.series k = some cs → leakDays + 1 ≤ cs.h.length → continuous cs = true

/-- A process says nothing of its own beside a container or a pod of this node
that grows. -/
def leftOut (s : Server) (now : Time) (k : Key) : Bool :=
  k.kind = .proc ∧ (growing s now).any fun x => localPod s x.key ∨ x.key.kind = .docker

/-- What can stand behind the end of the alert about a key. -/
inductive Evidence (st : State) (s : Server) (now : Time) (k : Key) : Prop
  /-- A complete list has not got it, or has another one, now or since it was last named. -/
  | gone (h : st.proven k = true ∨ listed s k = true)
  /-- Its own days, without a gap, break the rule of growth. -/
  | days (cs : Series) (hcs : s.series k = some cs) (hgap : continuous cs = true)
      (h : grows ((points cs).map Prod.snd) = false)
  /-- It has a sample, and the memory left is known and enough. -/
  | enough (hs : sampleFresh s.report k now = true) (free : Int)
      (hf : (pool s.report k now).2 = some free)
      (h : short free (rateOf s now (pool s.report k now).1) = false)
  /-- It is muted. -/
  | muted (h : s.muted k = true)
  /-- It is a process that is left out. -/
  | leftOut (h : leftOut s now k = true)

theorem init_le_foldl_max (l : List Nat) (a : Nat) : a ≤ l.foldl max a := by
  induction l generalizing a with
  | nil => exact le_refl a
  | cons x l ih => exact le_trans (le_max_left a x) (ih _)

/-- Level 0 says that nothing with a level grows, and that every key has recovered. -/
theorem cond_zero {s : Server} {now : Time} {keys : List Key}
    (h : memLeakCond s now = some (0, keys)) :
    (∀ x ∈ shown s now, levelOf s now x.key = 0) ∧ recoveryConfirmed s now = true := by
  unfold memLeakCond at h
  split at h
  · cases h
  · next hon =>
    dsimp only at h
    split at h
    · cases h
    · next hml =>
      have hnil : (problems s now).filter (fun x => x.2 ≠ 0) = [] := by
        have h0 := congrArg Prod.fst (Option.some.inj h)
        dsimp only at h0
        cases hl : (problems s now).filter (fun x => x.2 ≠ 0) with
        | nil => rfl
        | cons x l =>
          rw [hl, List.map_cons, List.foldl_cons] at h0
          have hx : x.2 ≠ 0 := by
            have hmem : x ∈ (problems s now).filter (fun x => x.2 ≠ 0) := by rw [hl]; simp
            simpa using List.of_mem_filter hmem
          have hle := init_le_foldl_max (l.map Prod.snd) (max 0 x.2)
          omega
      refine ⟨?_, by simpa using fun hr => hml ⟨hnil, hr⟩⟩
      intro x hx
      have hmem : (x, levelOf s now x.key) ∈ problems s now := by
        unfold problems
        rw [if_neg fun htrend => hon (.inr htrend)]
        exact List.mem_map_of_mem hx
      simpa using List.filter_eq_nil_iff.mp hnil _ hmem

theorem budget_nonneg {total used : Option Int} {free : Int} (h : budget total used = some free) :
    0 ≤ free := by
  unfold budget at h
  split at h
  · split at h
    · simp only [Option.some.injEq] at h
      omega
    · cases h
  · cases h

theorem nodeBudget_nonneg {rep : Report} {node : String} {now : Time} {free : Int}
    (h : nodeBudget rep node now = some free) : 0 ≤ free := by
  obtain ⟨n, -, hn⟩ := List.exists_of_findSome?_eq_some h
  split at hn
  · exact budget_nonneg hn
  · cases hn

theorem pool_nonneg {rep : Report} {k : Key} {now : Time} {free : Int}
    (h : (pool rep k now).2 = some free) : 0 ≤ free := by
  unfold pool at h
  split at h
  · split at h
    · next hf =>
      split at hf
      · obtain rfl := Option.some.inj h
        exact nodeBudget_nonneg hf
      · cases hf
    · exact budget_nonneg h
  · dsimp only at h
    split at h
    · cases h
    · exact nodeBudget_nonneg h

/-- What grows at level 0 with a sample and a known memory has enough of it. -/
theorem enough_of_level {s : Server} {now : Time} {k : Key} {free : Int}
    (hfresh : fresh s now = true) (hs : sampleFresh s.report k now = true)
    (hsame : replaced s.report k ((s.series k).map Series.u |>.getD "") = false)
    (hf : (pool s.report k now).2 = some free) (h : levelOf s now k = 0) :
    short free (rateOf s now (pool s.report k now).1) = false := by
  have hfree := pool_nonneg hf
  unfold levelOf at h
  dsimp only at h
  rw [hf] at h
  dsimp only at h
  rw [if_pos ⟨hfresh, hs, hsame⟩] at h
  split at h
  · cases h
  · next hno =>
    unfold short critDays at hno ⊢
    simp only [decide_eq_true_eq, decide_eq_false_iff_not] at hno ⊢
    omega

theorem leak_of_grows {cs : Series} (hcont : continuous cs = true)
    (hg : grows ((points cs).map Prod.snd) = true) : ∃ r, leak (some cs) = some r := by
  unfold leak
  dsimp only
  rw [if_pos ⟨hcont, hg⟩]
  exact ⟨_, rfl⟩

theorem shown_of_growing {s : Server} {now : Time} {x : Growing} (h : x ∈ growing s now)
    (hl : leftOut s now x.key = false) : x ∈ shown s now := by
  unfold shown
  dsimp only
  split
  · next hany =>
    refine List.mem_filter.mpr ⟨h, ?_⟩
    simp only [leftOut, decide_eq_false_iff_not, not_and] at hl
    exact decide_eq_true fun hproc => hl hproc hany
  · exact h

/-- The end of the alert about one key. -/
theorem evidence_of_end {st : State} (hi : Inv st) {t : Tick} {keys : List Key}
    (hc : memLeakCond (st.server.receive t) t.now = some (0, keys)) {k : Key}
    (hk : k ∈ st.server.announced) (hgap : NoGap (st.server.receive t) k) :
    Evidence st (st.server.receive t) t.now k := by
  have hn : (Dict.keys ((st.server.receive t).trend.getD [])).Nodup := hi.nodup
  have hdays := hi.days k hk
  have hann : k ∈ (st.server.receive t).announced := hk
  change st.proven k = false → ∃ cs, (st.server.receive t).series k = some cs ∧ _ at hdays
  generalize st.server.receive t = s at *
  generalize t.now = now at *
  obtain ⟨hlevel, hrec⟩ := cond_zero hc
  unfold recoveryConfirmed at hrec
  simp only [Bool.and_eq_true, List.all_eq_true] at hrec
  obtain ⟨⟨hfresh, -⟩, hall⟩ := hrec
  have hprev : previousKeys s = s.announced := by
    unfold previousKeys
    exact if_pos (List.ne_nil_of_mem hann)
  have hkey := hall k (hprev ▸ hann)
  unfold keyConfirmed at hkey
  split at hkey
  · next hmem => exact .gone (.inr (by simp [listed, hkey, hmem]))
  · next hmem =>
    split at hkey
    · next hrepl => exact .gone (.inr (by simp [listed, hkey, hrepl]))
    · next hsame =>
      split at hkey
      · cases hkey
      · next hs =>
        simp only [Bool.not_eq_false, Bool.not_eq_true] at hmem hsame hs
        cases hp : st.proven k with
        | true => exact .gone (.inl hp)
        | false =>
          obtain ⟨cs, hcs, hlen⟩ := hdays hp
          have hcont := hgap cs hcs hlen
          rw [hcs] at hkey
          by_cases hg : grows ((points cs).map Prod.snd) = false
          · exact .days cs hcs hcont hg
          · obtain ⟨r, hr⟩ := leak_of_grows hcont (by simpa using hg)
            rw [hr] at hkey
            simp only [reduceCtorEq, false_or, decide_eq_true_eq, ne_eq] at hkey
            obtain ⟨free, hf⟩ := Option.ne_none_iff_exists'.mp hkey
            cases hm : s.muted k with
            | true => exact .muted hm
            | false =>
              have hgone : provenGone s now k = false := by
                simp [provenGone, hmem, hsame]
              have hgrow : ⟨k, r⟩ ∈ growing s now :=
                (mem_growing hn).mpr ⟨cs, hcs, hgone, hm, hr⟩
              cases hl : leftOut s now k with
              | true => exact .leftOut hl
              | false =>
                have hlev := hlevel _ (shown_of_growing hgrow hl)
                exact .enough hs free hf (enough_of_level hfresh hs hsame hf hlev)

/-- What a server stores for a key is made of the samples of its log: the least
of every day, in the order of the days, and of the finished days the last
`keepDays`. And when the condition says that nothing leaks any more, there is
evidence for every key that was announced and whose days have no gap. -/
theorem leak_ends_on_evidence (ticks : List Tick) (hd : DaysInOrder ticks)
    (ha : Runs.Along next Announces {} ticks) :
    (∀ k, (after ticks).server.series k = ((after ticks).log k).view ∧
      (minima ((after ticks).log k).samples).Pairwise (fun a b => a.1 < b.1) ∧
      ∀ d m, (d, m) ∈ minima ((after ticks).log k).samples ↔
        IsLeast {v | (d, v) ∈ ((after ticks).log k).samples} m) ∧
    ∀ t keys, memLeakCond ((after ticks).server.receive t) t.now = some (0, keys) →
      ∀ k ∈ (after ticks).server.announced, NoGap ((after ticks).server.receive t) k →
        Evidence (after ticks) ((after ticks).server.receive t) t.now k := by
  have hi := inv_after ha
  refine ⟨?_, ?_⟩
  · intro k
    have ho := order_after hd k
    exact ⟨hi.view k, minima_sorted ho, minima_isLeast ho⟩
  · intro t keys hc k hk hgap
    exact evidence_of_end hi hc hk hgap

/-! ## A container of one server -/

def appKey : Key := ⟨.docker, "app"⟩

/-- A day on which the container has so many megabytes (or is not there), so many
of 10000 being used. -/
def appTick (dayNo : Int) (has : Option Int) (used : Int) (sig : List Key) : Tick :=
  { now := dayNo * day, day := dayNo, lastSeen := some (dayNo * day), sig := sig
    report :=
      { docker := some
          { access := true, complete := some true
            items := some (has.toList.map fun m => ⟨"app", "running", m * mb, ""⟩) }
        memTotal := some (10000 * mb), memUsed := some (used * mb) } }

/-- A hundred megabytes more every day, and little is left. -/
def leakingDays : List Tick :=
  [appTick 0 (some 100) 9800 [], appTick 1 (some 200) 9800 [], appTick 2 (some 300) 9800 [],
    appTick 3 (some 400) 9800 [], appTick 4 (some 500) 9800 [], appTick 5 (some 600) 9800 [],
    appTick 5 (some 600) 9800 [appKey]]

/-- The announced leak ends when memory is freed, and that is the evidence. -/
theorem leak_ends_on_evidence_freed :
    Evidence (after leakingDays)
      ((after leakingDays).server.receive (appTick 5 (some 600) 0 [appKey])) (5 * day) appKey := by
  have hd : DaysInOrder leakingDays := by
    unfold DaysInOrder
    decide
  have ha : Runs.Along next Announces {} leakingDays := by
    unfold leakingDays
    refine ⟨?_, ?_, ?_, ?_, ?_, ?_, ?_, trivial⟩ <;> unfold Announces <;> decide +kernel
  refine (leak_ends_on_evidence leakingDays hd ha).2 (appTick 5 (some 600) 0 [appKey]) []
    (by decide +kernel) appKey (by decide +kernel) ?_
  intro cs hcs _
  have hcont : ((((after leakingDays).server.receive (appTick 5 (some 600) 0 [appKey])).series
      appKey).all continuous) = true := by decide +kernel
  rw [hcs] at hcont
  exact hcont

/-- A container that a complete list has not got, and that is back on the same
day: the stored minimum is that of the sample before it had gone. -/
theorem a_return_keeps_the_minimum :
    listed ((after [appTick 0 (some 300) 0 []]).server.receive (appTick 0 none 0 [])) appKey = true ∧
    sample (appTick 0 (some 500) 0 []).report appKey 0 = some 500 ∧
    (after [appTick 0 (some 300) 0 [], appTick 0 none 0 [],
      appTick 0 (some 500) 0 []]).server.series appKey = some { d := 0, m := 300 } := by
  refine ⟨?_, ?_, ?_⟩ <;> decide +kernel

end Kervax.Mem
