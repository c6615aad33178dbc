-- The reminders of a domain over the passes of its monitors: none is lost
-- between them, and none comes twice before a renewal. What one refresh can do
-- first, then a pass, then the runs.
import Kervax.Domains

namespace Kervax

open Runs

/-! ## What is due -/

/-- The monitor as its refresh finds it. -/
def Pass.seen (x : Pass) (i : Refresh) : Term := i.look.seen (x.rows i.cid)

/-- The bucket that a refresh reaches, as the marker of the monitor has it. -/
def Pass.reaches (x : Pass) (i : Refresh) : Option Int :=
  match i.look.days with
  | none => none
  | some d =>
    if (x.seen i).quiet then none
    else expiryBucket d (x.seen i).thr (i.look.marker (x.rows i.cid))

/-- What is due at a refresh: the tightest threshold that is reached, when no
delivered message since the renewal covers it, and none of this pass. -/
def Pass.due (told : List Int) (x : Pass) (i : Refresh) : List Int :=
  match i.look.days with
  | none => []
  | some d =>
    if (x.seen i).quiet then []
    else
      match (crossed d (x.seen i).thr).min? with
      | none => []
      | some b =>
        if (∀ t ∈ told, b < t) ∧ ∀ p ∈ reminders x.pending, b < p.2 then [b] else []

/-- The refresh offers what is due. -/
def Offered (dom : String) (told : List Int) (x : Pass) (i : Refresh) : Prop :=
  reminders (refreshNext dom x i).pending =
    reminders x.pending ++ (x.due told i).map fun b => (i.cid, b)

/-- What a refresh has to find. A marker is cleared exactly when it is from
before the renewal; no other monitor still has such a marker that covers what is
reached; and where an offer of this pass covers it, a delivered one does. -/
structure Settled (members : List Nat) (told : List Int) (delivered : Nat → Bool) (x : Pass)
    (i : Refresh) : Prop where
  cleared : (x.rows i.cid).alerted ≠ none → ∀ d, i.look.days = some d →
    (overAll d (x.seen i).thr = true ↔ x.stale i.cid = true)
  others : ∀ b, x.reaches i = some b → ∀ c ∈ members, c ≠ i.cid → x.stale c = true →
    ∀ a ∈ (x.rows c).alerted, b < a
  backed : ∀ b, x.reaches i = some b → (∃ p ∈ reminders x.pending, p.2 ≤ b) →
    (∃ t ∈ told, t ≤ b) ∨ ∃ p ∈ reminders x.pending, delivered p.1 = true ∧ p.2 ≤ b

/-! ## What a refresh does -/

variable {dom : String} {members : List Nat} {told : List Int} {delivered : Nat → Bool}
  {x : Pass} {i : Refresh}

/-- The marker of a monitor as `DomainAlerts` has it. -/
def Pass.mark (x : Pass) (c : Nat) : Option Int := (x.doms.by' c).1

/-- The ways a refresh can end, for a monitor that is one of the rows and whose
marker `DomainAlerts` has. -/
inductive RefreshEnd (members : List Nat) (x : Pass) (i : Refresh) (y : Pass) : Prop
  | idle (hr : x.reaches i = none)
      (ha : (y.rows i.cid).alerted = i.look.marker (x.rows i.cid))
      (hm : y.mark i.cid = i.look.marker (x.rows i.cid))
      (ho : reminders y.pending = reminders x.pending)
  | offered (b : Int) (hr : x.reaches i = some b)
      (hall : ∀ c ∈ members, c ≠ i.cid → ∀ a ∈ x.mark c, b < a)
      (ha : (y.rows i.cid).alerted = i.look.marker (x.rows i.cid))
      (hm : y.mark i.cid = some b) (ho : reminders y.pending = reminders x.pending ++ [(i.cid, b)])
  | marked (b : Int) (hr : x.reaches i = some b)
      (hsome : ∃ c ∈ members, c ≠ i.cid ∧ ∃ a ∈ x.mark c, a ≤ b)
      (ha : (y.rows i.cid).alerted = some b) (hm : y.mark i.cid = some b)
      (ho : reminders y.pending = reminders x.pending)

theorem enter_of_mem {doms : DomainAlerts} {cid : Nat} (h : cid ∈ doms.members) :
    doms.enter cid = doms := if_pos h

/-- Renewed or not: the marker, and what stays. -/
theorem renewDomain_spec (dom : String) {cid : Nat} {row : Term} {doms : DomainAlerts}
    (hc : cid ∈ doms.members) (hm : (doms.by' cid).1 = row.alerted) (d : Int) :
    (renewDomain dom cid row doms d).1.thr = row.thr ∧
      (renewDomain dom cid row doms d).1.quiet = row.quiet ∧
      (renewDomain dom cid row doms d).1.alerted =
        (if overAll d row.thr then none else row.alerted) ∧
      (renewDomain dom cid row doms d).2.1.members = doms.members ∧
      ((renewDomain dom cid row doms d).2.1.by' cid).1 =
        (if overAll d row.thr then none else row.alerted) ∧
      (∀ c, c ≠ cid → (renewDomain dom cid row doms d).2.1.by' c = doms.by' c) ∧
      reminded (renewDomain dom cid row doms d).2.2 = [] := by
  unfold renewDomain overAll
  cases row.thr.max? with
  | none => exact ⟨rfl, rfl, rfl, rfl, hm, fun _ _ => rfl, rfl⟩
  | some limit =>
    dsimp only
    by_cases hlt : limit < d
    · rw [if_pos hlt]
      refine ⟨rfl, rfl, by simp [hlt], ?_, by simp [DomainAlerts.firstRenewed, hlt],
        fun c hne => ?_, ?_⟩
      · simp [DomainAlerts.firstRenewed, enter_of_mem hc]
      · simp [DomainAlerts.firstRenewed, enter_of_mem hc, Function.update_of_ne hne]
      · dsimp only
        split <;> rfl
    · rw [if_neg hlt]
      exact ⟨rfl, rfl, by simp [hlt], rfl, by simp [hlt, hm], fun _ _ => rfl, rfl⟩

theorem shouldAlert_spec {cid : Nat} {doms : DomainAlerts} (hc : cid ∈ doms.members) (b : Int) :
    (doms.shouldAlert cid b).1.members = doms.members ∧
      ((doms.shouldAlert cid b).1.by' cid).1 = some b ∧
      (∀ c, c ≠ cid → (doms.shouldAlert cid b).1.by' c = doms.by' c) ∧
      ((doms.shouldAlert cid b).2 = true ↔
        ∀ c ∈ doms.members, c ≠ cid → ∀ a ∈ (doms.by' c).1, b < a) := by
  refine ⟨?_, ?_, fun c hne => ?_, ?_⟩
  · simp [DomainAlerts.shouldAlert, enter_of_mem hc]
  · simp [DomainAlerts.shouldAlert]
  · simp [DomainAlerts.shouldAlert, enter_of_mem hc, Function.update_of_ne hne]
  · simp only [DomainAlerts.shouldAlert, DomainAlerts.others, Bool.not_eq_true', List.any_eq_false,
      List.mem_map, List.mem_filter, decide_eq_true_eq, ne_eq]
    constructor
    · intro h c hcm hne a ha
      have hno := h _ ⟨c, ⟨hcm, hne⟩, rfl⟩
      rw [Option.mem_def.1 ha] at hno
      simpa using hno
    · rintro h o ⟨c, ⟨hcm, hne⟩, rfl⟩
      have hall := h c hcm hne
      cases hm : (doms.by' c).1 with
      | none => simp
      | some a => simpa using hall a hm

theorem reminders_append (l m : List (Nat × TermMsg)) :
    reminders (l ++ m) = reminders l ++ reminders m := by
  simp [reminders]

theorem reminders_map (cid : Nat) (msgs : List TermMsg) :
    reminders (msgs.map fun m => (cid, m)) = (reminded msgs).map fun b => (cid, b) := by
  induction msgs with
  | nil => rfl
  | cons m msgs ih =>
    rw [List.map_cons]
    cases m with
    | renewed t => exact ih
    | reminder t b => exact congrArg _ ih

/-- The reminder part: what is reached is offered, or marked silently. -/
theorem remindDomain_spec (dom : String) (n : Nat) {cid : Nat} {row : Term} {doms : DomainAlerts}
    (hc : cid ∈ doms.members) (hm : (doms.by' cid).1 = row.alerted) (d : Int) :
    (remindDomain dom n cid row doms d).2.1.members = doms.members ∧
      (∀ c, c ≠ cid → (remindDomain dom n cid row doms d).2.1.by' c = doms.by' c) ∧
      ((row.quiet = true ∨ expiryBucket d row.thr row.alerted = none) ∧
          (remindDomain dom n cid row doms d).1.alerted = row.alerted ∧
          ((remindDomain dom n cid row doms d).2.1.by' cid).1 = row.alerted ∧
          reminded (remindDomain dom n cid row doms d).2.2 = [] ∨
        ∃ b, row.quiet = false ∧ expiryBucket d row.thr row.alerted = some b ∧
          ((remindDomain dom n cid row doms d).2.1.by' cid).1 = some b ∧
          ((∀ c ∈ doms.members, c ≠ cid → ∀ a ∈ (doms.by' c).1, b < a) ∧
              (remindDomain dom n cid row doms d).1.alerted = row.alerted ∧
              reminded (remindDomain dom n cid row doms d).2.2 = [b] ∨
            (∃ c ∈ doms.members, c ≠ cid ∧ ∃ a ∈ (doms.by' c).1, a ≤ b) ∧
              (remindDomain dom n cid row doms d).1.alerted = some b ∧
              reminded (remindDomain dom n cid row doms d).2.2 = [])) := by
  unfold remindDomain
  cases hb : expiryBucket d row.thr row.alerted with
  | none => exact ⟨rfl, fun _ _ => rfl, .inl ⟨.inr rfl, rfl, hm, rfl⟩⟩
  | some b =>
    cases hq : row.quiet with
    | true => exact ⟨rfl, fun _ _ => rfl, .inl ⟨.inl rfl, rfl, hm, rfl⟩⟩
    | false =>
      obtain ⟨hmem, hby, hothers, hiff⟩ := shouldAlert_spec hc b
      dsimp only
      simp only [Bool.false_eq_true, if_false]
      cases hs : (doms.shouldAlert cid b).2 with
      | true =>
        exact ⟨hmem, hothers, .inr ⟨b, trivial, rfl, hby, .inl ⟨hiff.1 hs, rfl, rfl⟩⟩⟩
      | false =>
        refine ⟨hmem, hothers, .inr ⟨b, trivial, rfl, hby, .inr ⟨?_, rfl, rfl⟩⟩⟩
        by_contra hno
        have hall : (doms.shouldAlert cid b).2 = true := hiff.2 fun c hcm hne a ha =>
          not_le.1 fun hle => hno ⟨c, hcm, hne, a, ha, hle⟩
        rw [hs] at hall
        cases hall

/-- A refresh ends in one of the ways, and touches its own monitor only. -/
theorem refresh_end (dom : String) (hc : i.cid ∈ x.doms.members) (hcheck : i.look.check = true)
    (hm : x.mark i.cid = (x.rows i.cid).alerted) :
    RefreshEnd x.doms.members x i (refreshNext dom x i) ∧
      (refreshNext dom x i).doms.members = x.doms.members ∧
      ∀ c, c ≠ i.cid → (refreshNext dom x i).rows c = x.rows c ∧
        (refreshNext dom x i).mark c = x.mark c := by
  have hrows : ∀ c, c ≠ i.cid → (refreshNext dom x i).rows c = x.rows c := fun c hne => by
    simp [refreshNext, Function.update_of_ne hne]
  have hown : (refreshNext dom x i).rows i.cid =
      (applyDomain dom i.cid (i.look.row (x.rows i.cid)) x.doms i.look.days).1 := by
    simp [refreshNext]
  have hoffers : reminders (refreshNext dom x i).pending = reminders x.pending ++
      (reminded (applyDomain dom i.cid (i.look.row (x.rows i.cid)) x.doms i.look.days).2.2).map
        fun b => (i.cid, b) := by
    rw [← reminders_map, ← reminders_append]
    rfl
  have hdoms : (refreshNext dom x i).doms =
      (applyDomain dom i.cid (i.look.row (x.rows i.cid)) x.doms i.look.days).2.1 := rfl
  generalize refreshNext dom x i = y at hrows hown hoffers hdoms ⊢
  cases hd : i.look.days with
  | none =>
    have happly : applyDomain dom i.cid (i.look.row (x.rows i.cid)) x.doms i.look.days =
        (x.seen i, x.doms, []) := by
      simp [applyDomain, Pass.seen, Look.seen, hd]
    rw [happly] at hown hoffers hdoms
    have hmark : i.look.marker (x.rows i.cid) = (x.rows i.cid).alerted := by
      simp [Look.marker, hd]
    refine ⟨.idle (by simp [Pass.reaches, hd]) ?_ ?_ (by simpa [reminded] using hoffers), by rw [hdoms],
      fun c hne => ⟨hrows c hne, by rw [Pass.mark, hdoms]; rfl⟩⟩
    · rw [hmark, hown]
      rfl
    · rw [hmark, Pass.mark, hdoms]
      exact hm
  | some d =>
    have hseen : (i.look.row (x.rows i.cid)).probed (some d) = x.seen i := by
      rw [Pass.seen, Look.seen, hd]
    have hmark : i.look.marker (x.rows i.cid) =
        if overAll d (x.seen i).thr = true then none else (x.rows i.cid).alerted := by
      simp only [Look.marker, hd, hcheck, true_and]
      rfl
    obtain ⟨hthr, hquiet, halert, hmem, hby, hoth, hno⟩ :=
      renewDomain_spec dom hc (show _ = (x.seen i).alerted from hm) d
    have happly : applyDomain dom i.cid (i.look.row (x.rows i.cid)) x.doms i.look.days =
        let r := renewDomain dom i.cid (x.seen i) x.doms d
        let m := remindDomain dom x.doms.members.length i.cid r.1 r.2.1 d
        (m.1, m.2.1, r.2.2 ++ m.2.2) := by
      rw [hd]
      simp only [applyDomain, hseen]
      exact if_pos hcheck
    rw [happly] at hown hoffers hdoms
    dsimp only at hown hoffers hdoms
    have halert' : (x.seen i).alerted = (x.rows i.cid).alerted := rfl
    rw [halert', ← hmark] at halert hby
    have hreach : x.reaches i = if (x.seen i).quiet = true then none
        else expiryBucket d (x.seen i).thr (i.look.marker (x.rows i.cid)) := by
      simp [Pass.reaches, hd]
    generalize renewDomain dom i.cid (x.seen i) x.doms d = r at *
    obtain ⟨hmem', hoth', hend⟩ := remindDomain_spec dom x.doms.members.length
      (show i.cid ∈ r.2.1.members from hmem ▸ hc)
      (show (r.2.1.by' i.cid).1 = r.1.alerted from hby.trans halert.symm) d
    rw [hthr, hquiet, halert] at hend
    generalize remindDomain dom x.doms.members.length i.cid r.1 r.2.1 d = m at *
    have hsaid : reminded (r.2.2 ++ m.2.2) = reminded m.2.2 := by
      rw [reminded, List.filterMap_append]
      exact (congrArg (· ++ reminded m.2.2) hno).trans (List.nil_append _)
    have hoff : reminders y.pending =
        reminders x.pending ++ (reminded m.2.2).map fun b => (i.cid, b) := by
      rw [hoffers, hsaid]
    refine ⟨?_, by rw [hdoms, hmem', hmem], fun c hne => ⟨hrows c hne, ?_⟩⟩
    · rcases hend with ⟨hnone, ha, hb, hr⟩ | ⟨b, hq, hbk, hb, ⟨hall, ha, hr⟩ | ⟨hsome, ha, hr⟩⟩
      · refine .idle ?_ (by rw [hown]; exact ha) (by rw [Pass.mark, hdoms]; exact hb) (by simp [hoff, hr])
        rw [hreach]
        split
        · rfl
        · exact hnone.resolve_left ‹_›
      · refine .offered b (by simp [hreach, hq, hbk]) (fun c hcm hne a ha' => ?_)
          (by rw [hown]; exact ha) (by rw [Pass.mark, hdoms]; exact hb) (by simp [hoff, hr])
        exact hall c (hmem.symm ▸ hcm) hne a (by rw [hoth c hne]; exact ha')
      · obtain ⟨c, hcm, hne, a, ha', hle⟩ := hsome
        refine .marked b (by simp [hreach, hq, hbk]) ⟨c, hmem ▸ hcm, hne, a, ?_, hle⟩
          (by rw [hown]; exact ha) (by rw [Pass.mark, hdoms]; exact hb) (by simp [hoff, hr])
        rw [hoth c hne] at ha'
        exact ha'
    · rw [Pass.mark, hdoms, hoth' c hne, hoth c hne]
      rfl

/-! ## Within a pass -/

/-- What holds as a pass goes, with the monitors that are still to be refreshed.
A marker from after the renewal is covered by what was told or goes out, and
what was told is still marked somewhere. -/
structure PassSane (members : List Nat) (told : List Int) (delivered : Nat → Bool) (x : Pass)
    (rest : List Nat) : Prop where
  mem : x.doms.members = members
  own : ∀ c ∈ members, (∀ p ∈ reminders x.pending, p.1 ≠ c) → x.mark c = (x.rows c).alerted
  offer : ∀ p ∈ reminders x.pending, p.1 ∈ members ∧ x.mark p.1 = some p.2 ∧ p.1 ∉ rest ∧
    x.stale p.1 = false ∧ ∀ a ∈ (x.rows p.1).alerted, p.2 < a
  once : ((reminders x.pending).map Prod.fst).Nodup
  cov : ∀ c ∈ members, x.stale c = false → ∀ a ∈ (x.rows c).alerted,
    (∃ t ∈ told, t ≤ a) ∨ ∃ p ∈ reminders x.pending, delivered p.1 = true ∧ p.2 ≤ a
  kept : ∀ t ∈ told, ∃ c ∈ members, x.stale c = false ∧ ∃ a ∈ (x.rows c).alerted, a ≤ t

variable {rest : List Nat}

/-- The marker that counts is the stored one, and it is from after the renewal. -/
theorem marker_settled (hs : Settled members told delivered x i) (hcheck : i.look.check = true) :
    (∀ a ∈ i.look.marker (x.rows i.cid), a ∈ (x.rows i.cid).alerted ∧
      (i.look.days ≠ none → x.stale i.cid = false)) ∧
    (x.stale i.cid = false → i.look.marker (x.rows i.cid) = (x.rows i.cid).alerted) := by
  cases hd : i.look.days with
  | none => simp [Look.marker, hd]
  | some d =>
    have hmark : i.look.marker (x.rows i.cid) =
        if overAll d (x.seen i).thr = true then none else (x.rows i.cid).alerted := by
      simp only [Look.marker, hd, hcheck, true_and]
      rfl
    rw [hmark]
    cases ha : (x.rows i.cid).alerted with
    | none => simp
    | some a =>
      have hiff := hs.cleared (by simp [ha]) d hd
      cases hst : x.stale i.cid with
      | true => simp [hiff.2 hst]
      | false =>
        have hover : overAll d (x.seen i).thr ≠ true := fun h => by
          rw [hst] at hiff
          exact Bool.false_ne_true (hiff.1 h)
        simp [hover]

theorem reaches_days {b : Int} (h : x.reaches i = some b) : i.look.days ≠ none := by
  intro hd
  simp [Pass.reaches, hd] at h

theorem reaches_lt {b : Int} (h : x.reaches i = some b) :
    ∀ a ∈ i.look.marker (x.rows i.cid), b < a := by
  unfold Pass.reaches at h
  split at h
  · cases h
  · split at h
    · cases h
    · rw [expiryBucket_eq, Option.bind_eq_some_iff] at h
      obtain ⟨c, -, hc⟩ := h
      split at hc
      · cases hc
        assumption
      · cases hc

/-- A marker that other monitors have at or under `b` comes from what was told or
is offered. -/
theorem mark_covered (h : PassSane members told delivered x (i.cid :: rest))
    (hs : Settled members told delivered x i) {b : Int} (hb : x.reaches i = some b) {c : Nat}
    (hc : c ∈ members) (hne : c ≠ i.cid) {a : Int} (ha : a ∈ x.mark c) (hle : a ≤ b) :
    (∃ t ∈ told, t ≤ b) ∨ ∃ p ∈ reminders x.pending, p.2 ≤ b := by
  by_cases hoff : ∀ p ∈ reminders x.pending, p.1 ≠ c
  · rw [h.own c hc hoff] at ha
    cases hst : x.stale c with
    | true => exact absurd (hs.others b hb c hc hne hst a ha) (not_lt.2 hle)
    | false =>
      rcases h.cov c hc hst a ha with ⟨t, ht, hta⟩ | ⟨p, hp, -, hpa⟩
      · exact .inl ⟨t, ht, hta.trans hle⟩
      · exact .inr ⟨p, hp, hpa.trans hle⟩
  · push Not at hoff
    obtain ⟨p, hp, rfl⟩ := hoff
    have heq := (h.offer p hp).2.1
    rw [Option.mem_def, heq] at ha
    cases ha
    exact .inr ⟨p, hp, hle⟩

/-- What is told is still marked: another monitor has it, or this one. -/
theorem told_marked (h : PassSane members told delivered x (i.cid :: rest))
    (hs : Settled members told delivered x i) (hcheck : i.look.check = true) {t b : Int}
    (ht : t ∈ told) (hle : t ≤ b) :
    (∃ a ∈ i.look.marker (x.rows i.cid), a ≤ b) ∨
      ∃ c ∈ members, c ≠ i.cid ∧ ∃ a ∈ x.mark c, a ≤ b := by
  obtain ⟨c, hc, hst, a, ha, hat⟩ := h.kept t ht
  by_cases hne : c = i.cid
  · subst hne
    rw [← (marker_settled hs hcheck).2 hst] at ha
    exact .inl ⟨a, ha, hat.trans hle⟩
  · right
    by_cases hoff : ∀ p ∈ reminders x.pending, p.1 ≠ c
    · exact ⟨c, hc, hne, a, by rwa [h.own c hc hoff], hat.trans hle⟩
    · push Not at hoff
      obtain ⟨p, hp, rfl⟩ := hoff
      obtain ⟨-, heq, -, -, hlt⟩ := h.offer p hp
      exact ⟨p.1, hc, hne, p.2, heq, ((hlt a ha).le.trans hat).trans hle⟩

/-- What is due is under the marker of the monitor itself. -/
theorem due_reaches (h : PassSane members told delivered x (i.cid :: rest))
    (hs : Settled members told delivered x i) (hi : i.cid ∈ members)
    (hcheck : i.look.check = true) :
    x.due told i = match x.reaches i with
      | none => []
      | some b => if (∀ t ∈ told, b < t) ∧ ∀ p ∈ reminders x.pending, b < p.2 then [b] else [] := by
  unfold Pass.due Pass.reaches
  cases hd : i.look.days with
  | none => rfl
  | some d =>
    dsimp only
    by_cases hq : (x.seen i).quiet = true
    · simp only [hq, if_true]
    simp only [hq, expiryBucket_eq]
    cases (crossed d (x.seen i).thr).min? with
    | none => rfl
    | some b =>
      simp only [Option.bind_some, Bool.false_eq_true, if_false]
      by_cases hlt : (∀ t ∈ told, b < t) ∧ ∀ p ∈ reminders x.pending, b < p.2
      · have hown : ∀ a ∈ i.look.marker (x.rows i.cid), b < a := by
          intro a ha
          obtain ⟨ha', hst⟩ := (marker_settled hs hcheck).1 a ha
          rcases h.cov i.cid hi (hst (by simp [hd])) a ha' with ⟨t, ht, hle⟩ | ⟨p, hp, -, hle⟩
          · exact (hlt.1 t ht).trans_le hle
          · exact (hlt.2 p hp).trans_le hle
        rw [if_pos hlt, if_pos hown]
        simp only [if_pos hlt]
      · rw [if_neg hlt]
        split
        · rfl
        · rename_i c heq
          split at heq
          · cases heq
            rw [if_neg hlt]
          · cases heq

/-- A settled refresh offers what is due. -/
theorem offered_of_settled (h : PassSane members told delivered x (i.cid :: rest))
    (hs : Settled members told delivered x i) (hi : i.cid ∈ members)
    (hcheck : i.look.check = true) : Offered dom told x i := by
  have hno : ∀ p ∈ reminders x.pending, p.1 ≠ i.cid := fun p hp heq =>
    (h.offer p hp).2.2.1 (by simp [heq])
  obtain ⟨hend, -, -⟩ := refresh_end dom (h.mem.symm ▸ hi) hcheck (h.own i.cid hi hno)
  rw [h.mem] at hend
  unfold Offered
  rw [due_reaches h hs hi hcheck]
  cases hend with
  | idle hr _ _ ho => simp [hr, ho]
  | offered b hr hall _ _ ho =>
    have hdue : (∀ t ∈ told, b < t) ∧ ∀ p ∈ reminders x.pending, b < p.2 := by
      constructor
      · intro t ht
        by_contra hle
        rcases told_marked h hs hcheck ht (not_lt.1 hle) with ⟨a, ha, hab⟩ | ⟨c, hc, hne, a, ha, hab⟩
        · exact absurd (reaches_lt hr a ha) (not_lt.2 hab)
        · exact absurd (hall c hc hne a ha) (not_lt.2 hab)
      · intro p hp
        obtain ⟨hmem, hmark, -, -, -⟩ := h.offer p hp
        exact hall p.1 hmem (hno p hp) p.2 hmark
    rw [hr, ho]
    dsimp only
    rw [if_pos hdue]
    rfl
  | marked b hr hsome _ _ ho =>
    obtain ⟨c, hc, hne, a, ha, hle⟩ := hsome
    have hdue : ¬ ((∀ t ∈ told, b < t) ∧ ∀ p ∈ reminders x.pending, b < p.2) := by
      rintro ⟨htold, hoffers⟩
      rcases mark_covered h hs hr hc hne ha hle with ⟨t, ht, htb⟩ | ⟨p, hp, hpb⟩
      · exact absurd (htold t ht) (not_lt.2 htb)
      · exact absurd (hoffers p hp) (not_lt.2 hpb)
    rw [hr, ho]
    dsimp only
    rw [if_neg hdue]
    simp

theorem refresh_stale (dom : String) (x : Pass) (i : Refresh) :
    (refreshNext dom x i).stale =
      if i.look.days = none then x.stale else Function.update x.stale i.cid false := rfl

/-- A refresh touches its own monitor only, and leaves none stale that was not. -/
structure Touched (x y : Pass) (i : Refresh) : Prop where
  others : ∀ c, c ≠ i.cid → y.rows c = x.rows c ∧ y.mark c = x.mark c
  stale : ∀ c, c ≠ i.cid → y.stale c = x.stale c
  fresh : ∀ c, x.stale c = false → y.stale c = false
  own : i.look.days ≠ none → y.stale i.cid = false
  unknown : i.look.days = none → y.stale = x.stale

theorem touched_refresh (dom : String) {x : Pass} {i : Refresh}
    (hothers : ∀ c, c ≠ i.cid → (refreshNext dom x i).rows c = x.rows c ∧
      (refreshNext dom x i).mark c = x.mark c) : Touched x (refreshNext dom x i) i := by
  have hstale := refresh_stale dom x i
  have hunknown : i.look.days = none → (refreshNext dom x i).stale = x.stale := by
    intro hd
    rw [hstale, if_pos hd]
  have hknown : i.look.days ≠ none →
      (refreshNext dom x i).stale = Function.update x.stale i.cid false := by
    intro hd
    rw [hstale, if_neg hd]
  refine ⟨hothers, fun c hne => ?_, fun c hc => ?_, fun hd => ?_, hunknown⟩
  · by_cases hd : i.look.days = none
    · rw [hunknown hd]
    · rw [hknown hd, Function.update_of_ne hne]
  · by_cases hd : i.look.days = none
    · rw [hunknown hd, hc]
    · rw [hknown hd, Function.update_apply]
      split
      · rfl
      · exact hc
  · rw [hknown hd, Function.update_self]

section Touched

variable {y : Pass}

/-- The offers of before stand as they were. -/
theorem Touched.offer (ht : Touched x y i) (h : PassSane members told delivered x (i.cid :: rest)) :
    ∀ p ∈ reminders x.pending, p.1 ∈ members ∧ y.mark p.1 = some p.2 ∧ p.1 ∉ rest ∧
      y.stale p.1 = false ∧ ∀ a ∈ (y.rows p.1).alerted, p.2 < a := by
  intro p hp
  obtain ⟨hmem, hmark, hnot, hfresh, hlt⟩ := h.offer p hp
  obtain ⟨hr, hm⟩ := ht.others p.1 fun heq => hnot (by simp [heq])
  exact ⟨hmem, hm.trans hmark, fun hin => hnot (List.mem_cons_of_mem _ hin), ht.fresh _ hfresh,
    by rwa [hr]⟩

theorem Touched.covered_other (ht : Touched x y i)
    (h : PassSane members told delivered x (i.cid :: rest)) {c : Nat} (hc : c ∈ members)
    (hne : c ≠ i.cid) (hfresh : y.stale c = false) {a : Int} (ha : a ∈ (y.rows c).alerted) :
    (∃ t ∈ told, t ≤ a) ∨ ∃ p ∈ reminders x.pending, delivered p.1 = true ∧ p.2 ≤ a := by
  rw [(ht.others c hne).1] at ha
  exact h.cov c hc ((ht.stale c hne).symm.trans hfresh) a ha

/-- Where the monitor has the marker that counts, all that are marked are covered as before. -/
theorem Touched.covered (ht : Touched x y i)
    (h : PassSane members told delivered x (i.cid :: rest)) (hs : Settled members told delivered x i)
    (hi : i.cid ∈ members) (hcheck : i.look.check = true)
    (hown : (y.rows i.cid).alerted = i.look.marker (x.rows i.cid)) {c : Nat} (hc : c ∈ members)
    (hfresh : y.stale c = false) {a : Int} (ha : a ∈ (y.rows c).alerted) :
    (∃ t ∈ told, t ≤ a) ∨ ∃ p ∈ reminders x.pending, delivered p.1 = true ∧ p.2 ≤ a := by
  by_cases hne : c = i.cid
  · subst hne
    rw [hown] at ha
    obtain ⟨hstored, hseen⟩ := (marker_settled hs hcheck).1 a ha
    refine h.cov i.cid hi ?_ a hstored
    by_cases hd : i.look.days = none
    · rwa [ht.unknown hd] at hfresh
    · exact hseen hd
  · exact ht.covered_other h hc hne hfresh ha

/-- What was told is still marked, by this monitor with what it had or something tighter. -/
theorem Touched.kept (ht : Touched x y i) (h : PassSane members told delivered x (i.cid :: rest))
    (hs : Settled members told delivered x i) (hcheck : i.look.check = true)
    (htight : ∀ a ∈ i.look.marker (x.rows i.cid), ∃ a' ∈ (y.rows i.cid).alerted, a' ≤ a) :
    ∀ t ∈ told, ∃ c ∈ members, y.stale c = false ∧ ∃ a ∈ (y.rows c).alerted, a ≤ t := by
  intro t htold
  obtain ⟨c, hc, hfresh, a, ha, hle⟩ := h.kept t htold
  refine ⟨c, hc, ht.fresh c hfresh, ?_⟩
  by_cases hne : c = i.cid
  · subst hne
    rw [← (marker_settled hs hcheck).2 hfresh] at ha
    obtain ⟨a', ha', hle'⟩ := htight a ha
    exact ⟨a', ha', hle'.trans hle⟩
  · exact ⟨a, by rwa [(ht.others c hne).1], hle⟩

/-- The marks agree with the rows, where the monitor's own do. -/
theorem Touched.agree (ht : Touched x y i) (h : PassSane members told delivered x (i.cid :: rest))
    (hown : y.mark i.cid = (y.rows i.cid).alerted)
    (ho : reminders y.pending = reminders x.pending) :
    ∀ c ∈ members, (∀ p ∈ reminders y.pending, p.1 ≠ c) → y.mark c = (y.rows c).alerted := by
  intro c hc hoff
  by_cases hne : c = i.cid
  · rw [hne, hown]
  · rw [(ht.others c hne).1, (ht.others c hne).2]
    exact h.own c hc (ho ▸ hoff)

end Touched

/-- A settled refresh keeps the pass sane. -/
theorem passSane_next (h : PassSane members told delivered x (i.cid :: rest))
    (hs : Settled members told delivered x i) (hi : i.cid ∈ members)
    (hcheck : i.look.check = true) (hrest : i.cid ∉ rest) :
    PassSane members told delivered (refreshNext dom x i) rest := by
  have hno : ∀ p ∈ reminders x.pending, p.1 ≠ i.cid := fun p hp heq =>
    (h.offer p hp).2.2.1 (by simp [heq])
  obtain ⟨hend, hmem, hframe⟩ := refresh_end dom (h.mem.symm ▸ hi) hcheck (h.own i.cid hi hno)
  rw [h.mem] at hend hmem
  have ht := touched_refresh dom hframe
  generalize refreshNext dom x i = y at hend hmem ht
  cases hend with
  | idle hr ha hm ho =>
    refine ⟨hmem, ht.agree h (hm.trans ha.symm) ho, ?_, ?_, fun c hc hfresh a hmark => ?_,
      ht.kept h hs hcheck fun a ha' => ⟨a, by rwa [ha], le_refl a⟩⟩
    · rw [ho]
      exact ht.offer h
    · rw [ho]
      exact h.once
    · rw [ho]
      exact ht.covered h hs hi hcheck ha hc hfresh hmark
  | offered b hr hall ha hm ho =>
    have hin : (i.cid, b) ∈ reminders y.pending := by simp [ho]
    refine ⟨hmem, fun c hc hoff => ?_, fun p hp => ?_, ?_, fun c hc hfresh a hmark => ?_,
      ht.kept h hs hcheck fun a ha' => ⟨a, by rwa [ha], le_refl a⟩⟩
    · have hne : c ≠ i.cid := fun heq => hoff _ hin heq.symm
      rw [(ht.others c hne).1, (ht.others c hne).2]
      exact h.own c hc fun p hp => hoff p (by simp [ho, hp])
    · rw [ho] at hp
      rcases List.mem_append.1 hp with hp | hp
      · exact ht.offer h p hp
      · rw [List.mem_singleton.1 hp]
        exact ⟨hi, hm, hrest, ht.own (reaches_days hr), by rw [ha]; exact reaches_lt hr⟩
    · rw [ho, List.map_append]
      refine List.nodup_append.2 ⟨h.once, by simp, ?_⟩
      intro c hc c' hc' heq
      obtain ⟨p, hp, rfl⟩ := List.mem_map.1 hc
      simp only [List.map_cons, List.map_nil, List.mem_singleton] at hc'
      exact hno p hp (heq.trans hc')
    · rcases ht.covered h hs hi hcheck ha hc hfresh hmark with htold | ⟨p, hp, hsent⟩
      · exact .inl htold
      · exact .inr ⟨p, by simp [ho, hp], hsent⟩
  | marked b hr hsome ha hm ho =>
    refine ⟨hmem, ht.agree h (hm.trans ha.symm) ho, ?_, ?_, fun c hc hfresh a hmark => ?_,
      ht.kept h hs hcheck fun a ha' => ⟨b, ha, (reaches_lt hr a ha').le⟩⟩
    · rw [ho]
      exact ht.offer h
    · rw [ho]
      exact h.once
    · rw [ho]
      by_cases hne : c = i.cid
      · subst hne
        rw [ha] at hmark
        cases hmark
        obtain ⟨c', hc', hne', a', ha', hle⟩ := hsome
        rcases mark_covered h hs hr hc' hne' ha' hle with htold | hp
        · exact .inl htold
        · exact hs.backed b hr hp
      · exact ht.covered_other h hc hne hfresh hmark

/-! ## Over the passes -/

theorem commitOffers_other {rows : Nat → Term} {sent : List (Nat × Int)} {c : Nat}
    (h : ∀ p ∈ sent, p.1 ≠ c) : commitOffers rows sent c = rows c := by
  unfold commitOffers
  induction sent generalizing rows with
  | nil => rfl
  | cons p sent ih =>
    rw [List.foldl_cons, ih fun q hq => h q (by simp [hq])]
    exact Function.update_of_ne (h p (by simp)).symm _ _

theorem commitOffers_own {rows : Nat → Term} {sent : List (Nat × Int)}
    (hnd : (sent.map Prod.fst).Nodup) {p : Nat × Int} (hp : p ∈ sent) :
    (commitOffers rows sent p.1).alerted = some p.2 := by
  induction sent generalizing rows with
  | nil => cases hp
  | cons q sent ih =>
    rw [List.map_cons, List.nodup_cons] at hnd
    rcases List.mem_cons.1 hp with rfl | hin
    · have hother : ∀ q ∈ sent, q.1 ≠ p.1 := fun q hq heq =>
        hnd.1 (heq ▸ List.mem_map_of_mem hq)
      have hrest := @commitOffers_other (Function.update rows p.1
        { rows p.1 with alerted := some p.2 }) _ _ hother
      unfold commitOffers at hrest ⊢
      rw [List.foldl_cons, hrest]
      simp
    · unfold commitOffers
      rw [List.foldl_cons]
      exact ih hnd.2 hin

/-- What holds between the passes. -/
structure DomainSane (members : List Nat) (s : DomainLog) : Prop where
  cov : ∀ c ∈ members, s.stale c = false → ∀ a ∈ (s.rows c).alerted, ∃ t ∈ s.told, t ≤ a
  kept : ∀ t ∈ s.told, ∃ c ∈ members, s.stale c = false ∧ ∃ a ∈ (s.rows c).alerted, a ≤ t

/-- A pass refreshes some of the monitors, each once, and each of them watches
the domain. -/
def ValidPass (members : List Nat) (refreshes : List Refresh) : Prop :=
  (refreshes.map (·.cid)).Nodup ∧ ∀ i ∈ refreshes, i.cid ∈ members ∧ i.look.check = true

theorem pass_run {refreshes : List Refresh} (hv : ValidPass members refreshes)
    (h : PassSane members told delivered x (refreshes.map (·.cid)))
    (hs : Along (refreshNext dom) (Settled members told delivered) x refreshes) :
    Along (refreshNext dom) (Offered dom told) x refreshes ∧
      PassSane members told delivered (run (refreshNext dom) x refreshes) [] := by
  induction refreshes generalizing x with
  | nil => exact ⟨trivial, h⟩
  | cons i refreshes ih =>
    obtain ⟨hnd, hall⟩ := hv
    rw [List.map_cons, List.nodup_cons] at hnd
    obtain ⟨hi, hcheck⟩ := hall i (by simp)
    have hnext : PassSane members told delivered (refreshNext dom x i) (refreshes.map (·.cid)) :=
      passSane_next h hs.1 hi hcheck hnd.1
    obtain ⟨hrest, hlast⟩ := ih ⟨hnd.2, fun j hj => hall j (by simp [hj])⟩ hnext hs.2
    exact ⟨⟨offered_of_settled h hs.1 hi hcheck, hrest⟩, hlast⟩

theorem passSane_start {s : DomainLog} (h : DomainSane members s) (rest : List Nat) :
    PassSane members s.told delivered (s.start members) rest where
  mem := rfl
  own _ _ _ := rfl
  offer p hp := by cases hp
  once := .nil
  cov c hc hst a ha := .inl (h.cov c hc hst a ha)
  kept := h.kept

/-- The deliveries at the end of a pass. -/
theorem domainSane_end {s : DomainLog} {x : Pass} (h : PassSane members s.told delivered x []) :
    DomainSane members
      { rows := commitOffers x.rows (x.sent delivered)
        told := s.told ++ (x.sent delivered).map (·.2)
        stale := x.stale } := by
  have hsent : ∀ {p}, p ∈ x.sent delivered ↔ p ∈ reminders x.pending ∧ delivered p.1 = true := by
    simp [Pass.sent]
  have hnd : ((x.sent delivered).map Prod.fst).Nodup :=
    h.once.sublist (List.filter_sublist.map Prod.fst)
  refine ⟨fun c hc hst a ha => ?_, fun t ht => ?_⟩
  · simp only [List.mem_append, List.mem_map]
    by_cases hown : ∀ p ∈ x.sent delivered, p.1 ≠ c
    · dsimp only at ha
      rw [commitOffers_other hown] at ha
      rcases h.cov c hc hst a ha with ⟨t, ht, hle⟩ | ⟨p, hp, hd, hle⟩
      · exact ⟨t, .inl ht, hle⟩
      · exact ⟨p.2, .inr ⟨p, hsent.2 ⟨hp, hd⟩, rfl⟩, hle⟩
    · push Not at hown
      obtain ⟨p, hp, rfl⟩ := hown
      dsimp only at ha
      rw [commitOffers_own hnd hp] at ha
      cases ha
      exact ⟨p.2, .inr ⟨p, hp, rfl⟩, le_refl _⟩
  · rcases List.mem_append.1 ht with ht | ht
    · obtain ⟨c, hc, hst, a, ha, hle⟩ := h.kept t ht
      refine ⟨c, hc, hst, ?_⟩
      by_cases hown : ∀ p ∈ x.sent delivered, p.1 ≠ c
      · exact ⟨a, by dsimp only; rwa [commitOffers_other hown], hle⟩
      · push Not at hown
        obtain ⟨p, hp, rfl⟩ := hown
        have hlt := (h.offer p (hsent.1 hp).1).2.2.2.2 a ha
        exact ⟨p.2, commitOffers_own hnd hp, hlt.le.trans hle⟩
    · obtain ⟨p, hp, rfl⟩ := List.mem_map.1 ht
      obtain ⟨hmem, -, -, hst, -⟩ := h.offer p (hsent.1 hp).1
      exact ⟨p.1, hmem, hst, p.2, commitOffers_own hnd hp, le_refl _⟩

/-- Every refresh of a pass is settled. -/
def SettledPass (dom : String) (members : List Nat) (s : DomainLog) : DomainEvent → Prop
  | .renewed => True
  | .pass refreshes delivered =>
    ValidPass members refreshes ∧
      Along (refreshNext dom) (Settled members s.told delivered) (s.start members) refreshes

/-- Every refresh of a pass offers what is due. -/
def OfferedPass (dom : String) (members : List Nat) (s : DomainLog) : DomainEvent → Prop
  | .renewed => True
  | .pass refreshes _ =>
    Along (refreshNext dom) (Offered dom s.told) (s.start members) refreshes

theorem domainSane_next {s : DomainLog} {e : DomainEvent} (h : DomainSane members s)
    (hs : SettledPass dom members s e) : DomainSane members (domainNext dom members s e) := by
  cases e with
  | renewed =>
    refine ⟨fun c _ hst a ha => ?_, fun t ht => by cases ht⟩
    have hsome : (s.rows c).alerted.isSome = false := hst
    have ha' : (s.rows c).alerted = some a := ha
    rw [ha'] at hsome
    cases hsome
  | pass refreshes delivered =>
    exact domainSane_end (pass_run hs.1 (passSane_start h _) hs.2).2

theorem offered_pass {s : DomainLog} {e : DomainEvent} (h : DomainSane members s)
    (hs : SettledPass dom members s e) : OfferedPass dom members s e := by
  cases e with
  | renewed => trivial
  | pass refreshes delivered => exact (pass_run hs.1 (passSane_start h _) hs.2).1

/-- The monitors 1 and 2 are refreshed with so many days left. -/
def bothAt (d : Int) : List Refresh :=
  [⟨1, { warn := [7], days := some d }⟩, ⟨2, { warn := [7], days := some d }⟩]

theorem bothAt_valid (d : Int) : ValidPass [1, 2] (bothAt d) :=
  ⟨by simp [bothAt], by simp [bothAt]⟩

end Kervax
