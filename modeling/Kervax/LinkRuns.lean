-- Runs of the link of one server, with any silences, returns and deliveries:
-- when a change may go unsaid, when "stable again" is true, and that a long
-- silence is told.
import Kervax.LinkTick
import Kervax.Runs
import Mathlib.Tactic.Linarith

namespace Kervax

open Runs

/-! ## What was told so far -/

/-- What the reader of the messages knows. -/
structure LinkLog where
  /-- The message of the series that runs now was delivered. -/
  noticed : Bool := false
  /-- The last "offline" that was delivered. -/
  alerted : Option Time := none
  /-- When the server was last seen, on the tick before. -/
  seen : Option Time := none
deriving DecidableEq

def offers (w : What) (ns : List Notice) : Bool := ns.any (·.what = w)

def LinkLog.after (g : LinkLog) (i : LinkIn) (r : KindSt × Out) : LinkLog where
  noticed := if offers .flapping r.2.fires then i.fireAck else g.noticed && r.1.flap.muted
  alerted := if offers .alert r.2.fires ∧ i.fireAck then some i.base.now else g.alerted
  seen := i.lastSeen

def linkStep (nm : Norms) (x : KindSt × LinkLog) (i : LinkIn) : KindSt × LinkLog :=
  let r := kindTick nm .offline (i.seen x.1) x.1
  (afterTick .offline ⟨i.seen x.1, i.fireAck, i.recAck⟩ r, x.2.after i r)

def linkStart : KindSt × LinkLog := ({}, {})

/-! ## What a tick of the link has to do -/

/-- A write goes into the queue, and no message with it. -/
def Swallowed (o : Out) : Prop := o.fires = [] ∧ o.fireApply ≠ []

structure LinkTold (nm : Norms) (x : KindSt × LinkLog) (i : LinkIn) : Prop where
  swallowed : Swallowed (kindTick nm .offline (i.seen x.1) x.1).2 → x.2.noticed = true
  stable : offers .seriesEnd (kindTick nm .offline (i.seen x.1) x.1).2.recs = true → x.1.level = 0
  long : i.silentFor (i.threshold + flapWindow) →
    offers .alert (kindTick nm .offline (i.seen x.1) x.1).2.fires = true ∨
      ∃ t seen, x.2.alerted = some t ∧ i.lastSeen = some seen ∧ seen ≤ t

/-- One server whose link nobody has silenced, with one threshold. -/
structure LinkDomain (thr : Time) (x : KindSt × LinkLog) (i : LinkIn) : Prop where
  unsilenced : Unsilenced i.base
  threshold : i.threshold = thr
  extra : 0 ≤ i.extra
  /-- The moment when a server was last seen does not move back. -/
  seen : ∀ t, x.2.seen = some t → ∃ t', i.lastSeen = some t' ∧ t ≤ t'

instance (s : Seen) : Decidable (Unsilenced s) :=
  decidable_of_iff (s.skip = false ∧ s.quietBefore = false ∧ s.quietSrv = false ∧ s.ruleOk = true ∧
      s.gap = false ∧ s.parentHeld = false ∧ s.muted = false ∧ s.mutedUpTo = [] ∧ s.known = none ∧
      s.fixedMark = none)
    ⟨fun ⟨h1, h2, h3, h4, h5, h6, h7, h8, h9, h10⟩ => ⟨h1, h2, h3, h4, h5, h6, h7, h8, h9, h10⟩,
      fun ⟨h1, h2, h3, h4, h5, h6, h7, h8, h9, h10⟩ => ⟨h1, h2, h3, h4, h5, h6, h7, h8, h9, h10⟩⟩

instance (thr : Time) (x : KindSt × LinkLog) (i : LinkIn) : Decidable (LinkDomain thr x i) :=
  decidable_of_iff (Unsilenced i.base ∧ i.threshold = thr ∧ 0 ≤ i.extra ∧
      ∀ t ∈ x.2.seen, i.lastSeen.any fun t' => t ≤ t')
    ⟨fun ⟨h1, h2, h3, h4⟩ => ⟨h1, h2, h3, fun t ht => by simpa [Option.any_eq_true] using h4 t ht⟩,
      fun ⟨h1, h2, h3, h4⟩ => ⟨h1, h2, h3, fun t ht => by simpa [Option.any_eq_true] using h4 t ht⟩⟩

/-- The level that the condition has on this tick. -/
def linkLevel (st : KindSt) (i : LinkIn) : Nat := ((i.cond st.level).map Cond.level).getD st.level

/-- The tick changes the level through the guard, and fills a series that has
not been noticed. -/
def fillsSeries (st : KindSt) (i : LinkIn) : Prop :=
  linkLevel st i ≠ st.level ∧ ¬ (linkLevel st i = 0 ∧ st.offSaid) ∧
    st.flap.muted = false ∧ st.flap.full i.base.now

/-- What keeps the guard right. -/
structure LinkSound (x : KindSt × LinkLog) (i : LinkIn) : Prop where
  /-- The message of a series is delivered at the first attempt. -/
  delivered : fillsSeries x.1 i → i.fireAck = true
  /-- The series is not made of attempts to tell the very silence that fills
  it. -/
  own : fillsSeries x.1 i → ∀ seen, i.lastSeen = some seen →
    (series x.1.flap flapWindow i.base.now).1 ≤ seen + i.threshold
  /-- An outage that the guard kept back is over before its series is. -/
  short : x.1.level ≠ 0 → x.1.offSaid = false → ∀ first, x.1.flap.since = some first →
    i.base.now - first ≤ flapWindow
  /-- No silence gets long while the return from the one before has not been
  told. -/
  returned : i.silentFor i.threshold → x.1.offSaid = true → ∀ t, x.2.alerted = some t →
    ∀ seen, i.lastSeen = some seen → seen ≤ t
  /-- A long silence is judged: the panel has not just started, and the reboot
  that was announced is over. -/
  judged : i.silentFor (i.threshold + flapWindow) → i.grace = false ∧ i.holds = false

instance (f : Flap) (now : Time) : Decidable (f.full now) :=
  inferInstanceAs (Decidable (flapLimit ≤ (series f flapWindow now).2 + 1))

instance (st : KindSt) (i : LinkIn) : Decidable (fillsSeries st i) :=
  inferInstanceAs (Decidable (_ ∧ ¬ (_ ∧ _) ∧ _ ∧ _))

instance (i : LinkIn) (d : Time) : Decidable (i.silentFor d) :=
  decidable_of_iff (i.lastSeen.any fun t => d < i.base.now - t) (by simp [LinkIn.silentFor, Option.any_eq_true])

instance (x : KindSt × LinkLog) (i : LinkIn) : Decidable (LinkSound x i) :=
  decidable_of_iff ((fillsSeries x.1 i → i.fireAck = true) ∧
      (fillsSeries x.1 i → ∀ seen ∈ i.lastSeen,
        (series x.1.flap flapWindow i.base.now).1 ≤ seen + i.threshold) ∧
      (x.1.level ≠ 0 → x.1.offSaid = false → ∀ first ∈ x.1.flap.since,
        i.base.now - first ≤ flapWindow) ∧
      (i.silentFor i.threshold → x.1.offSaid = true → ∀ t ∈ x.2.alerted, ∀ seen ∈ i.lastSeen,
        seen ≤ t) ∧
      (i.silentFor (i.threshold + flapWindow) → i.grace = false ∧ i.holds = false))
    ⟨fun ⟨h1, h2, h3, h4, h5⟩ => ⟨h1, h2, h3, h4, h5⟩,
      fun ⟨h1, h2, h3, h4, h5⟩ => ⟨h1, h2, h3, h4, h5⟩⟩

/-! ## The invariant -/

structure LinkSane (thr : Time) (x : KindSt × LinkLog) : Prop where
  level : x.1.level ≤ 1
  said : x.1.offSaid = true → x.1.level = 1
  quiet : x.1.flap.muted = true → x.1.offSaid = false
  /-- A muted series began before the last silence could be told. -/
  began : x.1.flap.muted = true → ∃ first seen,
    x.1.flap.since = some first ∧ x.2.seen = some seen ∧ first ≤ seen + thr
  filled : x.1.flap.muted = true → flapLimit ≤ x.1.flap.count
  kept : x.1.level ≠ 0 → x.1.offSaid = false → x.1.flap.muted = true
  alerted : x.1.offSaid = true → ∃ t, x.2.alerted = some t
  noticed : x.1.flap.muted = true → x.2.noticed = true

theorem linkSane_start (thr : Time) : LinkSane thr linkStart where
  level := Nat.zero_le _
  said := by simp [linkStart]
  quiet := by simp [linkStart]
  began := by simp [linkStart]
  filled := by simp [linkStart]
  kept := by simp [linkStart]
  alerted := by simp [linkStart]
  noticed := by simp [linkStart]

/-! ## The marks of the guard over one tick -/

theorem linkCalm_of_over {f : Flap} {now first : Time} (hm : f.muted = true)
    (hf : f.since = some first) : linkCalm f now = decide (flapWindow < now - first) := by
  simp [linkCalm, hm, hf]

theorem liftedFlap_muted {f : Flap} {now : Time} (h : (liftedFlap f now).muted = true) :
    f.muted = true ∧ linkCalm f now = false ∧ liftedFlap f now = f := by
  unfold liftedFlap at h ⊢
  split at h
  · cases h
  · rename_i hc
    exact ⟨h, by simpa using hc, by simp [hc]⟩

/-- A series that was just lifted is not full. -/
theorem liftedFlap_full {f : Flap} {now : Time} (h : (liftedFlap f now).full now) :
    liftedFlap f now = f := by
  unfold liftedFlap at h ⊢
  split at h
  · simp only [Flap.full, series] at h
    split at h
    · simp [flapLimit] at h
    · split at h <;> simp [flapLimit] at h
  · rename_i hc
    simp [hc]

/-- A muted series that is not over is full. -/
theorem full_of_muted {f : Flap} {now first : Time} (hf : f.since = some first)
    (hcount : flapLimit ≤ f.count) (h : ¬ flapWindow < now - first) : f.full now := by
  simp only [Flap.full, series, hf, h, if_false]
  omega

theorem series_within {f : Flap} {now first : Time} (hf : f.since = some first)
    (h : ¬ flapWindow < now - first) : series f flapWindow now = (first, f.count) := by
  simp [series, hf, h]

/-! ## The invariant over one step -/

/-- The body starts from the flap marks after the lift; a kept outage is never
lifted. -/
theorem kept_lift {thr : Time} {x : KindSt × LinkLog} {i : LinkIn} (h : LinkSane thr x)
    (hs : LinkSound x i) (hl : x.1.level ≠ 0) (hsaid : x.1.offSaid = false) :
    (liftedFlap x.1.flap i.base.now).muted = true := by
  have hm := h.kept hl hsaid
  obtain ⟨first, seen, hf, -, -⟩ := h.began hm
  have hshort := hs.short hl hsaid first hf
  have hcalm : linkCalm x.1.flap i.base.now = false := by
    rw [linkCalm_of_over hm hf]
    simpa using hshort
  simpa [liftedFlap, hcalm] using hm

/-- What the marks of the guard have to say, whatever the tick did with the
level: the part of the invariant that the lift keeps. -/
theorem linkSane_lift {thr : Time} {x : KindSt × LinkLog} {i : LinkIn} (h : LinkSane thr x)
    (hd : LinkDomain thr x i) (hs : LinkSound x i) {st : KindSt} {g : LinkLog}
    (hlevel : st.level = x.1.level) (hsaid : st.offSaid = x.1.offSaid)
    (hflap : st.flap = liftedFlap x.1.flap i.base.now) (hseen : g.seen = i.lastSeen)
    (halert : g.alerted = x.2.alerted) (hnote : g.noticed = (x.2.noticed && st.flap.muted)) :
    LinkSane thr (st, g) := by
  have hm : st.flap.muted = true → x.1.flap.muted = true ∧ st.flap = x.1.flap := by
    intro hm
    rw [hflap] at hm
    obtain ⟨h1, -, h2⟩ := liftedFlap_muted hm
    exact ⟨h1, hflap.trans h2⟩
  refine ⟨?_, ?_, ?_, ?_, ?_, ?_, ?_, ?_⟩
  · simpa [hlevel] using h.level
  · simpa [hlevel, hsaid] using h.said
  · intro hmuted
    simpa [hsaid] using h.quiet (hm hmuted).1
  · intro hmuted
    obtain ⟨first, seen, hf, hg, hle⟩ := h.began (hm hmuted).1
    obtain ⟨seen', hs', hle'⟩ := hd.seen seen hg
    refine ⟨first, seen', ?_, ?_, ?_⟩
    · simpa [(hm hmuted).2] using hf
    · simpa [hseen] using hs'
    · linarith
  · intro hmuted
    simpa [(hm hmuted).2] using h.filled (hm hmuted).1
  · intro hl hsd
    rw [hflap]
    exact kept_lift h hs (by simpa [hlevel] using hl) (by simpa [hsaid] using hsd)
  · simpa [hsaid, halert] using h.alerted
  · intro hmuted
    simp only at hmuted
    simp [hnote, hmuted, h.noticed (hm hmuted).1]

/-- A step that ends with the marks `f`: the parts of the invariant that a
change of the level leaves to be shown. -/
theorem linkSane_counted {thr : Time} {x : KindSt × LinkLog} {i : LinkIn} (h : LinkSane thr x)
    (hd : LinkDomain thr x i) {st : KindSt} {g : LinkLog} {now : Time}
    (hm : x.1.flap.muted = true) (hcalm : linkCalm x.1.flap now = false)
    (hflap : st.flap = x.1.flap.counted now) (hlevel : st.level ≤ 1) (hsaid : st.offSaid = false)
    (hseen : g.seen = i.lastSeen) (hnote : g.noticed = (x.2.noticed && st.flap.muted)) :
    LinkSane thr (st, g) := by
  obtain ⟨first, seen, hf, hg, hle⟩ := h.began hm
  obtain ⟨seen', hs', hle'⟩ := hd.seen seen hg
  have hover : ¬ flapWindow < now - first := by
    rw [linkCalm_of_over hm hf] at hcalm
    simpa using hcalm
  have hser := series_within hf hover
  have hmuted : st.flap.muted = true := by simpa [hflap, Flap.counted] using hm
  refine ⟨hlevel, ?_, fun _ => hsaid, ?_, ?_, fun _ _ => hmuted, ?_, ?_⟩
  · simp [hsaid]
  · exact fun _ => ⟨first, seen', by simp [hflap, Flap.counted, hser], by simp [hseen, hs'],
      by linarith⟩
  · intro _
    have := h.filled hm
    simp only [hflap, Flap.counted, hser]
    omega
  · simp [hsaid]
  · intro _
    simp [hnote, hmuted, h.noticed hm]

/-- The writes of a tick that told nobody of an outage. -/
theorem commit_level_only (onb ack : Bool) (n : Nat) (st : KindSt) :
    commit .offline onb ack [.level n] st = if ack then { st with level := n } else st := by
  cases ack <;> simp [commit, onboardKept, onboardSend, KWrite.set]

theorem commit_alert (s : Seen) (onb ack : Bool) (top : Nat) (x : Carry) (st : KindSt) :
    (commit .offline onb ack (alertWrites .offline s ⟨1, {}⟩ top x) st).level =
        (if ack then 1 else st.level) ∧
      (commit .offline onb ack (alertWrites .offline s ⟨1, {}⟩ top x) st).offSaid =
        (if ack then true else st.offSaid) := by
  cases ack with
  | false => exact ⟨commit_level_waits (by decide) .., commit_offSaid_waits ..⟩
  | true =>
    rw [commit_ack]
    have hcause : causesOf .offline ⟨1, {}⟩ = ∅ := by simp [causesOf]
    simp only [alertWrites, List.flatten_cons, List.flatten_nil, applyAll_append, applyAll_cons,
      applyAll_nil, applyAll_onlyIf, hcause, ne_eq, not_true_eq_false, if_false, reduceCtorEq,
      false_and]
    split_ifs <;> simp [KWrite.set]

theorem commit_recovery (s : Seen) (onb ack : Bool) (x : Carry) (st : KindSt) :
    (commit .offline onb ack (recoveryWrites .offline s x) st).level =
        (if ack then 0 else st.level) ∧
      (commit .offline onb ack (recoveryWrites .offline s x) st).offSaid =
        (if ack then false else st.offSaid) := by
  cases ack with
  | false => exact ⟨commit_level_waits (by decide) .., commit_offSaid_waits ..⟩
  | true =>
    have hset : (Kind.offline ∈ noSettle) = True := by simp [noSettle]
    rw [commit_ack]
    simp only [recoveryWrites, List.flatten_cons, List.flatten_nil, applyAll_append, applyAll_cons,
      applyAll_nil, applyAll_onlyIf, hset, not_true_eq_false, if_false, if_true, false_and]
    split_ifs <;> simp [KWrite.set]

/-- The recovery of the link, as far as the guard and the reader see it. -/
theorem zeroBlock_link (s : Seen) (x : Carry) :
    (∃ b, zeroBlock .offline s x = { x with st := { x.st with offBack := b } }) ∨
      zeroBlock .offline s x = { x with out := { x.out with
        recs := x.out.recs ++ [⟨.recovery, 0, ∅⟩]
        recApply := x.out.recApply ++ recoveryWrites .offline s x } } := by
  have hflap : (Kind.offline ∈ flapMetricKinds) = False := by simp [flapMetricKinds]
  have hsil : (Kind.offline ∈ silentRecovery) = False := by simp [silentRecovery]
  simp only [zeroBlock, hflap, hsil, false_and, if_false, true_and]
  split
  · exact .inl ⟨_, rfl⟩
  · exact .inr rfl

/-- What the condition of this tick says, and what the tick does with it. -/
theorem linkTick_end (nm : Norms) {thr : Time} {x : KindSt × LinkLog} {i : LinkIn}
    (h : LinkSane thr x) (hd : LinkDomain thr x i) :
    ∃ st', LinkStart i x.1 st' ∧
      ((linkLevel x.1 i = x.1.level ∧ kindTick nm .offline (i.seen x.1) x.1 =
          (st', { recs := liftedSaid x.1.flap i.base.now })) ∨
        ∃ y, LinkEnd (i.seen x.1) (linkLevel x.1 i)
            ⟨st', x.1.level, { recs := liftedSaid x.1.flap i.base.now }⟩ y ∧
          linkLevel x.1 i ≤ 1 ∧ kindTick nm .offline (i.seen x.1) x.1 = (y.st, y.out)) := by
  obtain ⟨st', hst, htick⟩ := kindTick_link nm hd.unsilenced h.level
  refine ⟨st', hst, ?_⟩
  cases hc : i.cond x.1.level with
  | none =>
    rw [hc] at htick
    exact .inl ⟨by simp [linkLevel, hc], htick⟩
  | some c =>
    have hlvl : linkLevel x.1 i = c.level := by simp [linkLevel, hc]
    have hle : c.level ≤ 1 := by
      unfold LinkIn.cond at hc
      split at hc
      · cases hc
      · cases hc
        have := h.level
        dsimp only
        split_ifs <;> omega
    rw [hc] at htick
    rw [hlvl]
    exact .inr ⟨_, linkChange_end _ hle h.level, hle, htick⟩

/-- A step that fills a series, and tells it. -/
theorem linkSane_series {thr : Time} {f : Flap} {now seen : Time} {st : KindSt} {g : LinkLog}
    (hlevel : st.level ≤ 1) (hsaid : st.offSaid = false)
    (hflap : st.flap = { f.counted now with muted := true }) (hfull : f.full now)
    (hseen : g.seen = some seen) (hown : (series f flapWindow now).1 ≤ seen + thr)
    (hnote : g.noticed = true) : LinkSane thr (st, g) where
  level := hlevel
  said := by simp [hsaid]
  quiet := fun _ => hsaid
  began := fun _ => ⟨_, seen, by simp [hflap, Flap.counted], hseen, hown⟩
  filled := by
    intro _
    simp only [hflap, Flap.counted]
    exact hfull
  kept := fun _ _ => by simp [hflap]
  alerted := by simp [hsaid]
  noticed := fun _ => hnote

/-- A step that offers the alert outside of any muted series. -/
theorem linkSane_alert {thr : Time} {st : KindSt} {g : LinkLog} (ack : Bool)
    (hm : st.flap.muted = false) (hlevel : st.level = if ack then 1 else 0)
    (hsaid : st.offSaid = ack) (halert : ack = true → ∃ t, g.alerted = some t) :
    LinkSane thr (st, g) := by
  refine ⟨?_, ?_, by simp [hm], by simp [hm], by simp [hm], ?_, ?_, by simp [hm]⟩
  · simp only [hlevel]
    split <;> omega
  · intro hs
    simp [hlevel, ← hsaid, show st.offSaid = true from hs]
  · intro hl hs
    simp only [hlevel, ← hsaid, show st.offSaid = false from hs] at hl
    exact absurd rfl hl
  · exact fun hs => halert (hsaid ▸ hs)

/-- What a tick whose body ends in `y` makes of the state. -/
def linkAfter (x : KindSt × LinkLog) (i : LinkIn) (y : Carry) : KindSt × LinkLog :=
  (afterTick .offline ⟨i.seen x.1, i.fireAck, i.recAck⟩ (y.st, y.out), x.2.after i (y.st, y.out))

section LinkAfter

variable {thr : Time} {x : KindSt × LinkLog} {i : LinkIn} {st' : KindSt}

/-- A muted series that the lift keeps is full. -/
theorem full_of_lifted (h : LinkSane thr x) {now : Time}
    (hm : (liftedFlap x.1.flap now).muted = true) : (liftedFlap x.1.flap now).full now := by
  obtain ⟨hmx, hcalm, heq⟩ := liftedFlap_muted hm
  obtain ⟨first, seen, hf, -, -⟩ := h.began hmx
  rw [linkCalm_of_over hmx hf] at hcalm
  rw [heq]
  exact full_of_muted hf (h.filled hmx) (by simpa using hcalm)

/-- A change of the level that is no return from a told outage finds none told. -/
theorem unsaid_of_change (h : LinkSane thr x) (hst : LinkStart i x.1 st')
    (hle : linkLevel x.1 i ≤ 1) (hne : linkLevel x.1 i ≠ x.1.level)
    (hsd : ¬ (linkLevel x.1 i = 0 ∧ st'.offSaid = true)) : x.1.offSaid = false := by
  by_contra hsaid
  rw [Bool.not_eq_false] at hsaid
  have hl := h.said hsaid
  refine hsd ⟨?_, by rw [hst.said, hsaid]⟩
  omega

/-- A change within a muted series is counted, and no more. -/
theorem linkSane_swallowed (h : LinkSane thr x) (hd : LinkDomain thr x i)
    (hst : LinkStart i x.1 st') (hle : linkLevel x.1 i ≤ 1) (hsaid : x.1.offSaid = false)
    (hm : st'.flap.muted = true) :
    LinkSane thr (linkAfter x i ⟨{ st' with flap := st'.flap.counted i.base.now }, x.1.level,
      { recs := liftedSaid x.1.flap i.base.now, fireApply := [.level (linkLevel x.1 i)] }⟩) := by
  rw [hst.flap] at hm
  obtain ⟨hmx, hcalm, heq⟩ := liftedFlap_muted hm
  refine linkSane_counted h hd hmx hcalm ?_ ?_ ?_ rfl ?_
  · simp only [afterTick, commit_flap, hst.flap, heq]
  · simp only [afterTick, commit_nil, commit_level_only]
    have := h.level
    split
    · exact hle
    · simpa [hst.level] using this
  · simp only [afterTick, commit_nil, commit_level_only]
    split <;> simp [hst.said, hsaid]
  · simp [LinkLog.after, offers, afterTick]

/-- The change that fills the series is told, and delivered. -/
theorem linkSane_filled (hd : LinkDomain thr x i) (hs : LinkSound x i)
    (hst : LinkStart i x.1 st') (hle : linkLevel x.1 i ≤ 1) (hsaid : x.1.offSaid = false)
    (hne : linkLevel x.1 i ≠ x.1.level) (hfull : st'.flap.full i.base.now)
    (hm : st'.flap.muted = false) :
    LinkSane thr (linkAfter x i
      ⟨{ st' with flap := { st'.flap.counted i.base.now with muted := true } }, x.1.level,
        { recs := liftedSaid x.1.flap i.base.now, fires := [⟨.flapping, 2, ∅⟩]
          fireApply := [.level (linkLevel x.1 i)] }⟩) := by
  rw [hst.flap] at hfull hm
  have heq := liftedFlap_full hfull
  rw [heq] at hfull hm
  have hfill : fillsSeries x.1 i := ⟨hne, by simp [hsaid], hm, hfull⟩
  have hack := hs.delivered hfill
  -- the silence or the return that fills the series has been seen
  obtain ⟨seen, hseen⟩ : ∃ seen, i.lastSeen = some seen := by
    cases hls : i.lastSeen with
    | none => simp [linkLevel, LinkIn.cond, hls] at hne
    | some seen => exact ⟨seen, rfl⟩
  have hown := hs.own hfill seen hseen
  rw [hd.threshold] at hown
  refine linkSane_series ?_ ?_ ?_ hfull hseen hown ?_
  · simp only [afterTick, commit_nil, commit_level_only, hack, if_true]
    exact hle
  · simp only [afterTick, commit_nil, commit_level_only, hack, if_true]
    exact hst.said.trans hsaid
  · simp only [afterTick, commit_flap, hst.flap, heq]
  · simp [LinkLog.after, offers, hack]

/-- An alert goes out only where no series is muted. -/
theorem linkSane_alerted (h : LinkSane thr x) (hst : LinkStart i x.1 st')
    (hle : linkLevel x.1 i ≤ 1) (hlt : x.1.level < linkLevel x.1 i)
    (hfull : ¬ st'.flap.full i.base.now) (s : Seen) (top : Nat) (c : Carry) :
    LinkSane thr (linkAfter x i
      ⟨{ st' with flap := st'.flap.counted i.base.now }, x.1.level,
        { recs := liftedSaid x.1.flap i.base.now, fires := [⟨.alert, linkLevel x.1 i, ∅⟩]
          fireApply := alertWrites .offline s ⟨linkLevel x.1 i, {}⟩ top c }⟩) := by
  rw [hst.flap] at hfull
  obtain ⟨hzero, hone⟩ : x.1.level = 0 ∧ linkLevel x.1 i = 1 := by omega
  have hsaid : x.1.offSaid = false := by
    by_contra hsaid
    rw [Bool.not_eq_false] at hsaid
    have := h.said hsaid
    omega
  have hm : (liftedFlap x.1.flap i.base.now).muted = false := by
    by_contra hm
    rw [Bool.not_eq_false] at hm
    exact hfull (full_of_lifted h hm)
  rw [hone]
  refine linkSane_alert i.fireAck ?_ ?_ ?_ ?_
  · simp only [afterTick, commit_flap, hst.flap]
    exact hm
  · simp only [afterTick, commit_nil, (commit_alert ..).1]
    simp [hst.level, hzero]
  · simp only [afterTick, commit_nil, (commit_alert ..).2]
    simp [hst.said, hsaid]
  · intro hack
    exact ⟨i.base.now, by simp [LinkLog.after, offers, hack]⟩

/-- A return that the guard lets through is from an outage that was told: one that was not is
kept back by its series. -/
theorem said_of_back (h : LinkSane thr x) (hs : LinkSound x i) (hst : LinkStart i x.1 st')
    (hp : x.1.level ≠ 0) {f : Flap}
    (hf : f = st'.flap ∧ st'.offSaid = true ∨
      f = st'.flap.counted i.base.now ∧ ¬ st'.flap.full i.base.now ∧ ¬ st'.offSaid = true) :
    x.1.offSaid = true ∧ f = liftedFlap x.1.flap i.base.now := by
  rcases hf with ⟨hf, hsaid⟩ | ⟨-, hfull, hsaid⟩
  · exact ⟨by rw [← hst.said, hsaid], hf.trans hst.flap⟩
  · have hs0 : x.1.offSaid = false := by
      rw [← hst.said]
      simpa using hsaid
    rw [hst.flap] at hfull
    exact absurd (full_of_lifted h (kept_lift h hs hp hs0)) hfull

/-- The return from a told outage. -/
theorem linkSane_back (h : LinkSane thr x) (hd : LinkDomain thr x i) (hs : LinkSound x i)
    (hst : LinkStart i x.1 st') (hsaid : x.1.offSaid = true) :
    LinkSane thr (linkAfter x i (zeroBlock .offline (i.seen x.1)
      ⟨{ st' with flap := liftedFlap x.1.flap i.base.now }, x.1.level,
        { recs := liftedSaid x.1.flap i.base.now }⟩)) := by
  rcases zeroBlock_link (i.seen x.1) ⟨{ st' with flap := liftedFlap x.1.flap i.base.now },
    x.1.level, { recs := liftedSaid x.1.flap i.base.now }⟩ with ⟨b, hz⟩ | hz
  · rw [hz]
    exact linkSane_lift h hd hs hst.level hst.said rfl rfl
      (by simp [LinkLog.after, offers]) (by simp [LinkLog.after, offers, afterTick])
  rw [hz]
  cases hack : i.recAck with
  | false =>
    refine linkSane_lift h hd hs ?_ ?_ ?_ rfl (by simp [LinkLog.after, offers])
      (by simp [LinkLog.after, offers, afterTick])
    · simp only [afterTick, hack, commit_nil, List.nil_append, (commit_recovery ..).1]
      simpa using hst.level
    · simp only [afterTick, hack, commit_nil, List.nil_append, (commit_recovery ..).2]
      simpa using hst.said
    · simp only [afterTick, commit_flap]
  | true =>
    have hm : (liftedFlap x.1.flap i.base.now).muted = false := by
      by_contra hm
      rw [Bool.not_eq_false] at hm
      have := h.quiet (liftedFlap_muted hm).1
      simp [hsaid] at this
    refine linkSane_alert false ?_ ?_ ?_ (by simp)
    · simp only [afterTick, commit_flap, hm]
    · simp only [afterTick, hack, commit_nil, List.nil_append, (commit_recovery ..).1]
      rfl
    · simp only [afterTick, hack, commit_nil, List.nil_append, (commit_recovery ..).2]
      rfl

end LinkAfter

theorem linkSane_step (nm : Norms) {thr : Time} {x : KindSt × LinkLog} {i : LinkIn}
    (h : LinkSane thr x) (hd : LinkDomain thr x i) (hs : LinkSound x i) :
    LinkSane thr (linkStep nm x i) := by
  obtain ⟨st', hst, ⟨-, htick⟩ | ⟨y, hend, hle, htick⟩⟩ := linkTick_end nm h hd
  · -- the link is not judged
    unfold linkStep
    rw [htick]
    exact linkSane_lift h hd hs hst.level hst.said hst.flap rfl (by simp [LinkLog.after, offers])
      (by simp [LinkLog.after, offers, afterTick])
  have hafter : linkStep nm x i = linkAfter x i y := by
    unfold linkStep linkAfter
    rw [htick]
  rw [hafter]
  cases hend with
  | same =>
    exact linkSane_lift h hd hs hst.level hst.said hst.flap rfl (by simp [LinkLog.after, offers])
      (by simp [LinkLog.after, offers, afterTick])
  | swallowed hne hsd hfull hm =>
    exact linkSane_swallowed h hd hst hle (unsaid_of_change h hst hle hne hsd) hm
  | series hne hsd hfull hm =>
    exact linkSane_filled hd hs hst hle (unsaid_of_change h hst hle hne hsd) hne hfull hm
  | alert hlt hfull st hst' top =>
    subst hst'
    exact linkSane_alerted h hst hle hlt hfull _ top _
  | back h0 hp f hf =>
    obtain ⟨hsaid, rfl⟩ := said_of_back h hs hst hp hf
    exact linkSane_back h hd hs hst hsaid

/-! ## What each step of such a run does -/

/-- A muted series has been noticed, and a tick that swallows a change is one
within a muted series. -/
theorem linkTold_swallowed (nm : Norms) {thr : Time} {x : KindSt × LinkLog} {i : LinkIn}
    (h : LinkSane thr x) (hd : LinkDomain thr x i)
    (hsw : Swallowed (kindTick nm .offline (i.seen x.1) x.1).2) : x.2.noticed = true := by
  obtain ⟨st', hst, ⟨-, htick⟩ | ⟨y, hend, -, htick⟩⟩ := linkTick_end nm h hd
  · rw [htick] at hsw
    exact absurd rfl hsw.2
  rw [htick] at hsw
  obtain ⟨hfires, happly⟩ := hsw
  cases hend with
  | same => exact absurd rfl happly
  | swallowed _ _ _ hm =>
    simp only [hst.flap] at hm
    exact h.noticed (liftedFlap_muted hm).1
  | series => simp at hfires
  | alert => simp at hfires
  | back h0 hp f hf =>
    rcases zeroBlock_link (i.seen x.1) ⟨{ st' with flap := f }, x.1.level,
      { recs := liftedSaid x.1.flap i.base.now }⟩ with ⟨b, hz⟩ | hz
    all_goals
      rw [hz] at happly
      exact absurd rfl happly

theorem offers_append (w : What) (ns ms : List Notice) :
    offers w (ns ++ ms) = (offers w ns || offers w ms) := List.any_append

theorem linkTold_stable (nm : Norms) {thr : Time} {x : KindSt × LinkLog} {i : LinkIn}
    (h : LinkSane thr x) (hd : LinkDomain thr x i) (hs : LinkSound x i)
    (hoff : offers .seriesEnd (kindTick nm .offline (i.seen x.1) x.1).2.recs = true) :
    x.1.level = 0 := by
  have hlift : offers .seriesEnd (liftedSaid x.1.flap i.base.now) = true := by
    obtain ⟨st', hst, ⟨-, htick⟩ | ⟨y, hend, -, htick⟩⟩ := linkTick_end nm h hd
    · simpa [htick] using hoff
    · rw [htick] at hoff
      cases hend with
      | same => exact hoff
      | swallowed => exact hoff
      | series => exact hoff
      | alert => exact hoff
      | back h0 hp f hf =>
        rcases zeroBlock_link (i.seen x.1) ⟨{ st' with flap := f }, x.1.level,
          { recs := liftedSaid x.1.flap i.base.now }⟩ with ⟨b, hz⟩ | hz
        · rw [hz] at hoff
          exact hoff
        · rw [hz] at hoff
          simpa [offers_append, offers] using hoff
  -- only a muted series is lifted, and it keeps no outage back any more
  by_contra hl
  have hcalm : linkCalm x.1.flap i.base.now = true := by
    unfold liftedSaid at hlift
    split at hlift
    · assumption
    · simp [offers] at hlift
  have hm : x.1.flap.muted = true := by
    unfold linkCalm at hcalm
    simp only [Bool.and_eq_true] at hcalm
    exact hcalm.1
  have hkept := kept_lift h hs hl (h.quiet hm)
  simp [liftedFlap, hcalm] at hkept

section Long

variable {thr : Time} {x : KindSt × LinkLog} {i : LinkIn}

/-- A long silence is judged an outage. -/
theorem level_of_long (hd : LinkDomain thr x i) (hs : LinkSound x i)
    (hlong : i.silentFor (i.threshold + flapWindow)) : linkLevel x.1 i = 1 := by
  obtain ⟨hgrace, hholds⟩ := hs.judged hlong
  obtain ⟨seen, hseen, hlt⟩ := hlong
  have hpos : (0 : Time) < flapWindow := by decide
  have hext := hd.extra
  have hthr : i.threshold = i.offlineAfter + i.extra := rfl
  have honline : i.online = false := by
    simp only [LinkIn.online, hseen, decide_eq_false_iff_not]
    linarith
  have halert : i.alertOff = true := by
    simp only [LinkIn.alertOff, hseen, hholds, Bool.not_false, Bool.and_true, decide_eq_true_eq]
    linarith
  simp [linkLevel, LinkIn.cond, hseen, hgrace, honline, halert]

/-- A series that began by the threshold of this silence is over. -/
theorem over_of_long (hd : LinkDomain thr x i) {seen first : Time}
    (hlong : i.silentFor (i.threshold + flapWindow)) (hseen : i.lastSeen = some seen)
    (hle : first ≤ seen + thr) : flapWindow < i.base.now - first := by
  obtain ⟨seen', hseen', hlt⟩ := hlong
  obtain rfl : seen' = seen := Option.some.inj (hseen'.symm.trans hseen)
  rw [hd.threshold] at hlt
  linarith

/-- The lift leaves no muted series to a long silence. -/
theorem unmuted_of_long (h : LinkSane thr x) (hd : LinkDomain thr x i)
    (hlong : i.silentFor (i.threshold + flapWindow)) :
    (liftedFlap x.1.flap i.base.now).muted = false := by
  by_contra hm
  rw [Bool.not_eq_false] at hm
  obtain ⟨hmx, hcalm, -⟩ := liftedFlap_muted hm
  obtain ⟨first, seen, hf, hg, hle⟩ := h.began hmx
  obtain ⟨seen', hseen, hle'⟩ := hd.seen seen hg
  rw [linkCalm_of_over hmx hf] at hcalm
  have hfirst : first ≤ seen' + thr := by linarith
  have hover := over_of_long hd hlong hseen hfirst
  exact absurd hover (by simpa using hcalm)

/-- A long silence fills no series. -/
theorem not_fills_of_long (hd : LinkDomain thr x i) (hs : LinkSound x i)
    (hlong : i.silentFor (i.threshold + flapWindow)) : ¬ fillsSeries x.1 i := by
  intro hfill
  obtain ⟨seen, hseen, hlt⟩ := hlong
  have hown := hs.own hfill seen hseen
  rw [hd.threshold] at hown
  have hover := over_of_long hd ⟨seen, hseen, hlt⟩ hseen hown
  cases hf : x.1.flap.since with
  | none =>
    simp only [series, hf, sub_self] at hover
    exact absurd hover (not_lt.2 (by decide))
  | some first =>
    by_cases ho : flapWindow < i.base.now - first
    · exact not_full_of_over hf ho hfill.2.2.2
    · rw [series_within hf ho] at hover
      exact ho hover

/-- The outage that a long silence finds stored was told in this silence. -/
theorem told_of_long (h : LinkSane thr x) (hd : LinkDomain thr x i) (hs : LinkSound x i)
    (hlong : i.silentFor (i.threshold + flapWindow)) (hsame : linkLevel x.1 i = x.1.level) :
    ∃ t seen, x.2.alerted = some t ∧ i.lastSeen = some seen ∧ seen ≤ t := by
  have hlevel := level_of_long hd hs hlong
  cases hsaid : x.1.offSaid with
  | true =>
    obtain ⟨t, ht⟩ := h.alerted hsaid
    obtain ⟨seen, hseen, hlt⟩ := hlong
    have hpos : (0 : Time) < flapWindow := by decide
    exact ⟨t, seen, ht, hseen, hs.returned ⟨seen, hseen, by linarith⟩ hsaid t ht seen hseen⟩
  | false =>
    have hkept := kept_lift h hs (by omega) hsaid
    rw [unmuted_of_long h hd hlong] at hkept
    cases hkept

end Long

theorem linkTold_long (nm : Norms) {thr : Time} {x : KindSt × LinkLog} {i : LinkIn}
    (h : LinkSane thr x) (hd : LinkDomain thr x i) (hs : LinkSound x i)
    (hlong : i.silentFor (i.threshold + flapWindow)) :
    offers .alert (kindTick nm .offline (i.seen x.1) x.1).2.fires = true ∨
      ∃ t seen, x.2.alerted = some t ∧ i.lastSeen = some seen ∧ seen ≤ t := by
  have hlevel := level_of_long hd hs hlong
  obtain ⟨st', hst, ⟨hsame, -⟩ | ⟨y, hend, -, htick⟩⟩ := linkTick_end nm h hd
  · exact .inr (told_of_long h hd hs hlong hsame)
  rw [htick]
  cases hend with
  | same hsame => exact .inr (told_of_long h hd hs hlong hsame)
  | swallowed hne hsd hfull hm =>
    simp only [hst.flap, unmuted_of_long h hd hlong] at hm
    cases hm
  | series hne hsd hfull hm =>
    simp only [hst.flap] at hfull hm
    have heq := liftedFlap_full hfull
    rw [heq] at hfull hm
    exact absurd ⟨hne, by simp [hlevel], hm, hfull⟩ (not_fills_of_long hd hs hlong)
  | alert =>
    left
    simp [offers]
  | back h0 =>
    rw [hlevel] at h0
    cases h0

end Kervax
