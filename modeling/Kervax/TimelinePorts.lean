-- The ports in the timeline, over any sequence of reports: what is said of a port are the changes
-- that two reports in a row agree on, until there are too many of them in a day.
import Kervax.Damping
import Kervax.TimelineRuns
import Mathlib.Data.Int.ConditionallyCompleteOrder
import Mathlib.Order.ConditionallyCompleteLattice.Basic

namespace Kervax.Timeline

open Debounce (Watch)

/-! ## Ports -/

/-- What the reports say of a port, where they say something of ports. -/
def portLooks (key : String) (reps : List Snap) : List (Int × Bool) :=
  reps.filterMap fun r => r.p.map fun b => (r.ts, decide (key ∈ (b.filter service).keys))

/-- The changes of looks, each with the time of the look that confirms it. -/
def confirmedAt : List (Int × Bool) → List (Int × Int × Bool)
  | [] => []
  | x :: xs => Debounce.confirmed x.2 xs

def cutoff (ts : Int) : Int := ts - FLAP_WINDOW

def portKind (opened : Bool) : Kind := if opened then .opened else .closed

/-- What is said of a change with so many others in the day before. -/
def voice (r : Nat × Int × Bool) : Option (Int × Kind) :=
  if r.1 + 1 = FLAP_MAX then some (r.2.1, .flap)
  else if r.1 + 1 < FLAP_MAX then some (r.2.1, portKind r.2.2)
  else none

def Track.ports (t : Track) : Option (Book String) := t.snap.bind Snap.p

def Track.portNow (t : Track) (key : String) : Option (Watch Int) :=
  t.ports.map fun b => seen (b.filter service) t.pend.p key

/-- Before the first ports nothing waits, and no change is remembered. -/
def Track.noPorts (t : Track) (key : String) : Prop :=
  t.ports = none ∧ t.pend.p = ⟨[], []⟩ ∧ times t.pend key = []

def portLog (t : Track) (key : String) : List (Int × Kind) := t.log.filterMap (portSaid key)

theorem diffP_none {prev cur : Snap} (pend : Pend) (h : cur.p = none) :
    diffP prev cur pend = ([], prev.p, pend) := by
  unfold diffP
  rw [h]
  cases prev.p <;> rfl

theorem diffP_some {prev cur : Snap} (pend : Pend) {pp cp : Book String} (hp : prev.p = some pp)
    (hc : cur.p = some cp) :
    diffP prev cur pend = ((diffPorts pp cp pend cur.ts).1, some (diffPorts pp cp pend cur.ts).2.1,
      (diffPorts pp cp pend cur.ts).2.2.2) := by
  unfold diffP
  rw [hp, hc]

theorem diffC_ports (prev cur : Snap) (pend : Pend) :
    (diffC prev cur pend).2.2.p = pend.p ∧ (diffC prev cur pend).2.2.pflap = pend.pflap := by
  unfold diffC
  split <;> exact ⟨rfl, rfl⟩

theorem times_same {a b : Pend} (h : a.pflap = b.pflap) (key : String) :
    times a key = times b key := by
  unfold times
  rw [h]

/-- What counts as there has only ports of services. -/
theorem service_out (prev cur : Book String) (pend : Pend) (ts : Int) :
    ((diffPorts prev cur pend ts).2.1.filter service).keys =
      (diffPorts prev cur pend ts).2.1.keys := by
  have hpass : ∀ p ∈ (diffPorts prev cur pend ts).2.1.entries, service p.1 p.2 = true := by
    intro p hp
    rcases List.mem_append.mp hp with hp | hp
    · exact (List.mem_filter.mp (List.mem_filter.mp hp).1).2
    · exact (List.mem_filter.mp (List.mem_filter.mp (List.mem_filter.mp hp).1).1).2
  change Dict.keys (List.filter _ _) = _
  rw [List.filter_eq_self.mpr hpass]
  rfl

/-- The ports of a report, the rest of it aside. -/
theorem diff_ports {prev cur : Snap} (pend : Pend) (key : String) :
    (diff (some prev) cur pend).1.filterMap (portSaid key) =
        (diffP prev (heldUpdates prev cur) (diffC prev (heldUpdates prev cur) pend).2.2).1.filterMap
          (portSaid key) ∧
      (diff (some prev) cur pend).2.1.p =
        (diffP prev (heldUpdates prev cur) (diffC prev (heldUpdates prev cur) pend).2.2).2.1 ∧
      (diff (some prev) cur pend).2.2.p =
        (diffP prev (heldUpdates prev cur) (diffC prev (heldUpdates prev cur) pend).2.2).2.2.p ∧
      times (diff (some prev) cur pend).2.2 key =
        times (diffP prev (heldUpdates prev cur) (diffC prev (heldUpdates prev cur) pend).2.2).2.2
          key := by
  unfold diff
  dsimp only
  refine ⟨?_, rfl, rfl, rfl⟩
  have hsys : ∀ e : Ev, e.kind ∈ sysKinds → portSaid key e = none := by
    intro e he
    refine portSaid_none ?_
    revert he
    cases e.kind <;> decide
  have hconts : ∀ e : Ev, e.kind ∈ [.new, .gone] ++ contKinds → portSaid key e = none := by
    intro e he
    refine portSaid_none ?_
    revert he
    cases e.kind <;> decide
  rw [List.append_assoc, List.append_assoc, ← List.append_assoc (rebootEvs _ _),
    List.filterMap_append, List.filterMap_append, (only_system _ _ _).filterMap hsys,
    (only_diffC _ _ _).filterMap hconts]
  simp

/-- A report without ports. -/
theorem track_noP {t : Track} {cur : Snap} (hc : cur.p = none) (key : String) :
    portLog (track t cur) key = portLog t key ∧ (track t cur).ports = t.ports ∧
      (track t cur).pend.p = t.pend.p ∧ times (track t cur).pend key = times t.pend key := by
  by_cases h : t.snap.map Snap.ts = some cur.ts
  · rw [track_seen h]
    exact ⟨rfl, rfl, rfl, rfl⟩
  · rw [track_new h]
    unfold portLog Track.ports
    cases hs : t.snap with
    | none => simp [diff, hc]
    | some prev =>
      obtain ⟨hlog, hnew, hpend, htimes⟩ := @diff_ports prev cur t.pend key
      obtain ⟨hsame, hflap⟩ := diffC_ports prev (heldUpdates prev cur) t.pend
      rw [diffP_none _ (by simpa using hc)] at hlog hnew hpend htimes
      exact ⟨by simp [hlog], hnew, hpend.trans hsame, htimes.trans (times_same hflap key)⟩

/-- The first ports. -/
theorem track_firstP {t : Track} {cur : Snap} {key : String} (h : t.snap.map Snap.ts ≠ some cur.ts)
    (hno : t.noPorts key) {cp : Book String} (hc : cur.p = some cp) :
    portLog (track t cur) key = portLog t key ∧
      (track t cur).portNow key = some ⟨decide (key ∈ (cp.filter service).keys), none⟩ ∧
      times (track t cur).pend key = [] := by
  have hwatch : seen (cp.filter service) ⟨[], []⟩ key =
      ⟨decide (key ∈ (cp.filter service).keys), none⟩ := by simp [seen]
  rw [track_new h]
  unfold portLog Track.portNow Track.ports
  obtain ⟨hnone, hempty, hflap⟩ := hno
  cases hs : t.snap with
  | none => simp [diff, hc, hempty, hwatch, hflap]
  | some prev =>
    have hprev : prev.p = none := by simpa [Track.ports, hs] using hnone
    obtain ⟨hsame, hold⟩ := diffC_ports prev (heldUpdates prev cur) t.pend
    have hdiff : ∀ pend, diffP prev (heldUpdates prev cur) pend = ([], some cp, pend) := by
      intro pend
      unfold diffP
      rw [hprev, heldUpdates_p, hc]
    obtain ⟨hlog, hnew, hpend, htimes⟩ := @diff_ports prev cur t.pend key
    rw [hdiff] at hlog hnew hpend htimes
    refine ⟨by simp [hlog], ?_, (htimes.trans (times_same hold key)).trans hflap⟩
    simp only [Option.bind_some, hnew, Option.map_some, hpend, hsame, hempty, hwatch]

/-- Every other report with ports. -/
theorem track_nextP {t : Track} {cur : Snap} (h : t.snap.map Snap.ts ≠ some cur.ts)
    {w : Watch Int} {key : String} (hw : t.portNow key = some w) {cp : Book String}
    (hc : cur.p = some cp) :
    portLog (track t cur) key = portLog t key ++
        ((w.tell (cur.ts, decide (key ∈ (cp.filter service).keys))).bind fun c =>
          voice ((Damping.recent cutoff (times t.pend key) cur.ts).length, c)).toList ∧
      (track t cur).portNow key =
        some (w.look (cur.ts, decide (key ∈ (cp.filter service).keys))) ∧
      times (track t cur).pend key = Damping.recent cutoff (times t.pend key) cur.ts ++
        (w.tell (cur.ts, decide (key ∈ (cp.filter service).keys))).toList.map Prod.fst := by
  rw [track_new h]
  unfold portLog
  unfold Track.portNow Track.ports at hw ⊢
  cases hs : t.snap with
  | none => simp [hs] at hw
  | some prev =>
    obtain ⟨pp, hpp, rfl⟩ : ∃ pp, prev.p = some pp ∧ seen (pp.filter service) t.pend.p key = w := by
      simpa [hs] using hw
    obtain ⟨hlog, hnew, hpend, htimes⟩ := @diff_ports prev cur t.pend key
    rw [diffP_some _ hpp (by simpa using hc), heldUpdates_ts] at hlog hnew hpend htimes
    obtain ⟨hsame, hold⟩ := diffC_ports prev (heldUpdates prev cur) t.pend
    obtain ⟨hseen, hnext, hsaid⟩ := diffPorts_at pp cp (diffC prev (heldUpdates prev cur) t.pend).2.2
      cur.ts key
    rw [hsame] at hseen hnext hsaid
    rw [times_same hold key] at hnext hsaid
    refine ⟨?_, ?_, htimes.trans hnext⟩
    · rw [List.filterMap_append, hlog, hsaid]
      rfl
    · simp only [Option.bind_some, hnew, Option.map_some, hpend]
      rw [seen_keys (service_out _ _ _ _), hseen]

theorem portRun {key : String} (reps : List Snap) (t : Track) :
    (∀ w, t.portNow key = some w →
      portLog (Runs.run track t reps) key = portLog t key ++
        (Damping.kept cutoff (times t.pend key)
          (w.tells (portLooks key (news (t.snap.map Snap.ts) reps)))).filterMap voice) ∧
    (t.noPorts key →
      portLog (Runs.run track t reps) key = portLog t key ++
        match portLooks key (news (t.snap.map Snap.ts) reps) with
        | [] => []
        | x :: xs => (Damping.kept cutoff [] (Watch.tells ⟨x.2, none⟩ xs)).filterMap voice) := by
  induction reps generalizing t with
  | nil => exact ⟨fun w _ => (List.append_nil _).symm, fun _ => (List.append_nil _).symm⟩
  | cons r rs ih =>
    rw [Runs.run_cons, news]
    by_cases h : t.snap.map Snap.ts = some r.ts
    · rw [track_seen h, if_pos h]
      exact ih t
    · obtain ⟨ihw, ihno⟩ := ih (track t r)
      rw [track_ts] at ihw ihno
      rw [if_neg h]
      cases hc : r.p with
      | none =>
        have hlooks : portLooks key (r :: news (some r.ts) rs) =
            portLooks key (news (some r.ts) rs) := by
          simp [portLooks, hc]
        obtain ⟨hlog, hports, hpend, htimes⟩ := @track_noP t r hc key
        rw [hlooks, ← hlog, ← htimes]
        refine ⟨fun w hw => ihw w ?_, fun hno => ihno ⟨hports.trans hno.1, hpend.trans hno.2.1, ?_⟩⟩
        · rw [← hw]
          unfold Track.portNow
          rw [hports, hpend]
        · exact htimes.trans hno.2.2
      | some cp =>
        have hlooks : portLooks key (r :: news (some r.ts) rs) =
            (r.ts, decide (key ∈ (cp.filter service).keys)) ::
              portLooks key (news (some r.ts) rs) := by
          simp [portLooks, hc]
        rw [hlooks]
        refine ⟨fun w hw => ?_, fun hno => ?_⟩
        · obtain ⟨hlog, hnow, htimes⟩ := track_nextP h hw hc
          rw [ihw _ hnow, hlog, htimes, List.append_assoc, Watch.tells]
          congr 1
          cases w.tell (r.ts, decide (key ∈ (cp.filter service).keys)) with
          | none => simp [Damping.kept]
          | some c =>
            rw [Damping.kept, List.filterMap_cons]
            cases hv : voice ((Damping.recent cutoff (times t.pend key) r.ts).length, c) <;> simp [hv]
        · obtain ⟨hlog, hnow, htimes⟩ := track_firstP h hno hc
          rw [ihw _ hnow, hlog, htimes]

/-! ## Reports in the order of time -/

theorem news_sublist (last : Option Int) (reps : List Snap) : (news last reps).Sublist reps := by
  induction reps generalizing last with
  | nil => exact List.Sublist.refl _
  | cons r rs ih =>
    rw [news]
    split
    · exact (ih _).cons r
    · exact (ih _).cons_cons r

theorem looks_times (key : String) (reps : List Snap) :
    ((portLooks key (news none reps)).map Prod.fst).Sublist (reps.map Snap.ts) := by
  refine List.Sublist.trans ?_ ((news_sublist none reps).map Snap.ts)
  induction news none reps with
  | nil => exact List.Sublist.refl _
  | cons r rs ih =>
    unfold portLooks at ih ⊢
    cases hp : r.p with
    | none => simpa [hp] using ih.cons r.ts
    | some b => simpa [hp] using ih.cons_cons r.ts

theorem cutoff_mono : Monotone cutoff := by
  intro a b hab
  unfold cutoff
  omega

theorem tells_times (w : Watch Int) (xs : List (Int × Bool)) :
    (w.tells xs).map Prod.fst = xs.map Prod.fst := by
  induction xs generalizing w with
  | nil => rfl
  | cons x xs ih => simp [Watch.tells, ih]

/-- With reports in the order of time, what the code remembers is enough. -/
theorem kept_ranked {x : Int × Bool} {xs : List (Int × Bool)}
    (h : ((x :: xs).map Prod.fst).Pairwise (· ≤ ·)) :
    Damping.kept cutoff [] (Watch.tells ⟨x.2, none⟩ xs) =
      Damping.ranked cutoff [] (Debounce.confirmed x.2 xs) := by
  obtain ⟨hfirst, hrest⟩ := List.pairwise_cons.mp h
  have hagree : Damping.Agree (cutoff x.1) [] [] := fun d _ => rfl
  have hconf := (Debounce.tells_eq (⟨x.2, none⟩ : Watch Int) xs).1
  rw [Damping.kept_eq cutoff_mono hagree ?_ ?_]
  · exact congrArg _ hconf
  · intro y hy
    refine cutoff_mono (hfirst y.1 ?_)
    have hin := List.mem_map_of_mem (f := Prod.fst) hy
    rwa [tells_times] at hin
  · rwa [tells_times]

theorem voice_low {r : Nat × Int × Bool} (h : r.1 < FLAP_MAX) : ∃ k, voice r = some (r.2.1, k) := by
  unfold voice
  split
  · exact ⟨_, rfl⟩
  · exact ⟨_, if_pos (by omega)⟩

theorem voice_high {r : Nat × Int × Bool} (h : ¬ r.1 < FLAP_MAX) : voice r = none := by
  unfold voice
  rw [if_neg (by omega), if_neg (by omega)]

theorem voices_recent (c : Int) (l : List (Nat × Int × Bool)) :
    ((l.filterMap voice).filter fun e => c ≤ e.1).length =
      (l.filter fun r => r.1 < FLAP_MAX ∧ c ≤ r.2.1).length := by
  induction l with
  | nil => rfl
  | cons r l ih =>
    rw [List.filterMap_cons, List.filter_cons]
    by_cases hlow : r.1 < FLAP_MAX
    · obtain ⟨k, hk⟩ := voice_low hlow
      rw [hk]
      dsimp only
      rw [List.filter_cons]
      by_cases hc : c ≤ r.2.1 <;> simp [hlow, hc, ih]
    · rw [voice_high hlow]
      simp [hlow, ih]

/-- Reports in the order of time: what the timeline says of a port are the changes that two
reports in a row agree on, each with the number of such changes in the day before the report
that confirms it: the fourth is said to flap, and those after it are not said. So of what is
said of a port no more than four are from the last day, and a port that changed less than
four times has each of its changes said. -/
theorem ports_damped (reps : List Snap) (hsorted : (reps.map Snap.ts).Pairwise (· ≤ ·))
    (key : String) :
    portLog (Runs.run track .empty reps) key =
        (Damping.ranked cutoff [] (confirmedAt (portLooks key (news none reps)))).filterMap voice ∧
      (∀ now, (∀ r ∈ reps, r.ts ≤ now) →
        ((portLog (Runs.run track .empty reps) key).filter fun e => cutoff now ≤ e.1).length ≤
          FLAP_MAX) ∧
      ((confirmedAt (portLooks key (news none reps))).length < FLAP_MAX →
        portLog (Runs.run track .empty reps) key =
          (confirmedAt (portLooks key (news none reps))).map fun c => (c.2.1, portKind c.2.2)) := by
  have htimes := looks_times key reps
  have hsaid : portLog (Runs.run track .empty reps) key =
      (Damping.ranked cutoff [] (confirmedAt (portLooks key (news none reps)))).filterMap voice := by
    refine ((@portRun key reps .empty).2 ⟨rfl, rfl, rfl⟩).trans ?_
    change [] ++ _ = _
    rw [List.nil_append]
    have hin := hsorted.sublist htimes
    change (match portLooks key (news none reps) with
      | [] => []
      | x :: xs => _) = _
    cases hlooks : portLooks key (news none reps) with
    | nil => rfl
    | cons x xs =>
      rw [hlooks] at hin
      rw [confirmedAt, ← kept_ranked hin]
  refine ⟨hsaid, ?_, ?_⟩
  · intro now hnow
    rw [hsaid, voices_recent]
    have hcut : ∀ x ∈ confirmedAt (portLooks key (news none reps)), cutoff x.1 ≤ cutoff now := by
      intro x hx
      have hmem : x.1 ∈ reps.map Snap.ts := by
        refine htimes.subset ?_
        cases hlooks : portLooks key (news none reps) with
        | nil => simp [hlooks, confirmedAt] at hx
        | cons y ys =>
          rw [hlooks] at hx
          have hin := (Debounce.confirmed_times y.2 ys).subset (List.mem_map_of_mem hx)
          exact List.mem_cons_of_mem _ (List.mem_of_mem_tail hin)
      obtain ⟨r, hr, hrx⟩ := List.mem_map.mp hmem
      rw [← hrx]
      exact cutoff_mono (hnow r hr)
    rcases Damping.low_le FLAP_MAX (cutoff now) [] hcut with hnil | hle
    · rw [hnil]
      exact Nat.zero_le _
    · exact le_trans (Nat.le_add_left _ _) hle
  · intro hfew
    have hlow := Damping.ranked_length cutoff [] (confirmedAt (portLooks key (news none reps)))
    have hchanges := Damping.ranked_changes cutoff [] (confirmedAt (portLooks key (news none reps)))
    have hvoice : ∀ r ∈ Damping.ranked cutoff [] (confirmedAt (portLooks key (news none reps))),
        voice r = some (r.2.1, portKind r.2.2) := by
      intro r hr
      have hrank : r.1 + 1 < FLAP_MAX := by
        have := hlow r hr
        rw [List.length_nil, Nat.zero_add] at this
        omega
      unfold voice
      rw [if_neg (by omega), if_pos hrank]
    rw [hsaid, List.filterMap_congr hvoice]
    calc (Damping.ranked cutoff [] (confirmedAt (portLooks key (news none reps)))).filterMap
          (fun r => some (r.2.1, portKind r.2.2))
        = ((Damping.ranked cutoff [] (confirmedAt (portLooks key (news none reps)))).map Prod.snd).map
            fun c => (c.1, portKind c.2) := by simp [Function.comp_def]
      _ = ((confirmedAt (portLooks key (news none reps))).map Prod.snd).map
            fun c => (c.1, portKind c.2) := by rw [hchanges]
      _ = _ := by rw [List.map_map]; rfl

def SSH : Book String := ⟨[("22/tcp", "sshd")], by simp [Dict.keys]⟩

def NO_PORTS : Book String := ⟨[], List.nodup_nil⟩

/-- A report with these ports. -/
def portReport (ts : Int) (ports : Book String) : Snap :=
  { ts := ts, c := none, p := some ports, boot := none, bw := "", ou := true, k := "", kn := "",
    os := "", dk := "", ag := "", upd := none, updTs := 0, rbTs := 0, rbPkgs := [], ua := 0,
    pkh := false }

/-- The port is there in two reports, not in the next two, and so on: it changes five times. -/
def flickering : List Snap :=
  [portReport 0 NO_PORTS, portReport 1 SSH, portReport 2 SSH, portReport 3 NO_PORTS,
    portReport 4 NO_PORTS, portReport 5 SSH, portReport 6 SSH, portReport 7 NO_PORTS,
    portReport 8 NO_PORTS, portReport 9 SSH, portReport 10 SSH]

theorem ports_damped_flickering :
    portLog (Runs.run track .empty flickering) "22/tcp" =
      [(1, .opened), (3, .closed), (5, .opened), (7, .flap)] := by
  have hin : decide ("22/tcp" ∈ (SSH.filter service).keys) = true := by
    simp [SSH, Book.keys, Dict.keys, Book.filter, service]
  have hout : decide ("22/tcp" ∈ (NO_PORTS.filter service).keys) = false := by
    simp [NO_PORTS, Book.keys, Dict.keys, Book.filter]
  have hlooks : portLooks "22/tcp" (news none flickering) =
      [(0, false), (1, true), (2, true), (3, false), (4, false), (5, true), (6, true), (7, false),
        (8, false), (9, true), (10, true)] := by
    simp [flickering, news, portLooks, portReport, hin, hout]
  rw [(ports_damped flickering (by simp [flickering, portReport]) "22/tcp").1, hlooks]
  decide

end Kervax.Timeline
