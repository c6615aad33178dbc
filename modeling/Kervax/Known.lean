-- The known problems (`known.py`): a person marks what is broken now, and its
-- alerts are silent until it gets worse. The mark closes itself once the
-- problem is gone, and reminds of itself once a week.
import Kervax.Runs
import Kervax.Kinds
import Mathlib.Data.Finset.Basic
import Mathlib.Tactic.Linarith

namespace Kervax

open Runs

/-! ## An entry and its tick -/

/-- `GONE_S`, `REMIND_S`. -/
def goneS : Time := sec (10 * 60)
def remindS : Time := sec (7 * 86400)

/-- An entry. The texts of the person who marked it are left out, and a time
that cannot be read is none. -/
structure KnownIssue where
  at' : Option Time := none
  until' : Option Time := none
  level : Option Nat := none
  sig : Option (Finset String) := none
  worse : Bool := false
  goneAt : Option Time := none
  remindedAt : Option Time := none
deriving DecidableEq

/-- `expired`. -/
def KnownIssue.expired (e : KnownIssue) (now : Time) : Bool :=
  match e.until' with
  | none => false
  | some t => t ≤ now

/-- `covers`: the mark silences an alert of this level. -/
def coversKnown (e : Option KnownIssue) (level : Nat) (sig : Option (Finset String)) : Bool :=
  match e with
  | none => false
  | some e =>
    level ≠ 0 &&
      match e.level with
      | none => true
      | some known =>
        level ≤ known &&
          match sig, e.sig with
          | some x, some y => x ⊆ y
          | _, _ => true

/-- What a tick did to an entry. -/
inductive KnownWhat
  | nothing | closed | expired | remind
deriving DecidableEq, Repr

/-- `_remind`. -/
def remindKnown (e : KnownIssue) (level : Nat) (now : Time) : KnownIssue × KnownWhat :=
  if level = 0 then (e, .nothing)
  else
    match e.remindedAt.or e.at' with
    | none => (e, .nothing)
    | some last =>
      if now - last < remindS then (e, .nothing)
      else ({ e with remindedAt := some now }, .remind)

/-- What one tick says of the problem. -/
structure KnownTick where
  level : Nat
  sig : Option (Finset String) := none
  now : Time
  confirmed : Bool := true
deriving DecidableEq

/-- `step`: the entry after a tick, or none once it is removed. -/
def stepKnown (e : KnownIssue) (i : KnownTick) : Option KnownIssue × KnownWhat :=
  if e.expired i.now then (none, .expired)
  else if ¬ i.confirmed then (some { e with goneAt := none }, .nothing)
  else if 0 < i.level then
    let new := { e with goneAt := none }
    -- the snapshot of what was broken is taken on the first tick that sees it
    let new :=
      if new.level = none then
        { new with level := some i.level, sig := i.sig.filter (· ≠ ∅) }
      else new
    let r := remindKnown { new with worse := !coversKnown (some new) i.level i.sig } i.level i.now
    (some r.1, r.2)
  else
    match e.goneAt with
    | none => (some { e with goneAt := some i.now, worse := false }, .nothing)
    | some t =>
      if goneS ≤ i.now - t then (none, .closed)
      else (some { e with worse := false }, .nothing)

/-! ## Runs -/

/-- An entry, the ticks that it has seen, and when it reminded of itself. -/
structure KnownRun where
  entry : Option KnownIssue
  ticks : List KnownTick := []
  reminds : List Time := []

def knownStep (x : KnownRun) (i : KnownTick) : KnownRun :=
  match x.entry with
  | none => x
  | some e =>
    let r := stepKnown e i
    ⟨r.1, x.ticks ++ [i], if r.2 = .remind then x.reminds ++ [i.now] else x.reminds⟩

/-- A confirmed tick without the problem. -/
def KnownTick.calm (i : KnownTick) : Prop := i.confirmed = true ∧ i.level = 0

/-- The last ticks were calm, from the time `t` on. -/
def CalmSince (is : List KnownTick) (t : Time) : Prop :=
  ∃ pre j suf, is = pre ++ j :: suf ∧ j.now = t ∧ ∀ i ∈ j :: suf, i.calm

/-- What a tick may do to an entry. -/
structure KnownRight (x : KnownRun) (i : KnownTick) : Prop where
  /-- What was broken at the mark is noted once. -/
  fixed : ∀ e e', x.entry = some e → e.level ≠ none → (knownStep x i).entry = some e' →
    e'.level = e.level ∧ e'.sig = e.sig
  /-- The entry closes after `GONE_S` of confirmed calm, without a gap. -/
  closes : ∀ e, x.entry = some e → (stepKnown e i).2 = .closed →
    ∃ t, CalmSince (x.ticks ++ [i]) t ∧ goneS ≤ i.now - t
  /-- Two reminders are a week apart, and the problem is there. -/
  reminds : ∀ e, x.entry = some e → (stepKnown e i).2 = .remind →
    0 < i.level ∧ ∀ t ∈ x.reminds, remindS ≤ i.now - t

/-- The marks of the entry are true of the ticks that it has seen. -/
structure KnownSane (x : KnownRun) : Prop where
  gone : ∀ e t, x.entry = some e → e.goneAt = some t → CalmSince x.ticks t
  reminded : ∀ e, x.entry = some e → ∀ t ∈ x.reminds, ∃ r, e.remindedAt = some r ∧ t ≤ r

variable {e : KnownIssue} {i : KnownTick}

theorem calmSince_start (is : List KnownTick) (h : i.calm) : CalmSince (is ++ [i]) i.now := by
  refine ⟨is, i, [], rfl, rfl, fun j hj => ?_⟩
  rw [List.mem_singleton.1 hj]
  exact h

theorem CalmSince.snoc {is : List KnownTick} {t : Time} (hs : CalmSince is t) (h : i.calm) :
    CalmSince (is ++ [i]) t := by
  obtain ⟨pre, j, suf, rfl, hj, hcalm⟩ := hs
  refine ⟨pre, j, suf ++ [i], by simp, hj, fun l hl => ?_⟩
  rw [← List.cons_append, List.mem_append] at hl
  rcases hl with hl | hl
  · exact hcalm l hl
  · rw [List.mem_singleton.1 hl]
    exact h

/-- A reminder changes its own time only. -/
theorem remindKnown_keeps (e : KnownIssue) (level : Nat) (now : Time) :
    (remindKnown e level now).1.level = e.level ∧ (remindKnown e level now).1.sig = e.sig ∧
      (remindKnown e level now).1.goneAt = e.goneAt := by
  unfold remindKnown
  split
  · exact ⟨rfl, rfl, rfl⟩
  · split
    · exact ⟨rfl, rfl, rfl⟩
    · split <;> exact ⟨rfl, rfl, rfl⟩

/-- It goes out at a level, a week after the last one, and is noted. -/
theorem remindKnown_remind {level : Nat} {now : Time} (h : (remindKnown e level now).2 = .remind) :
    0 < level ∧ (remindKnown e level now).1.remindedAt = some now ∧
      ∀ r, e.remindedAt = some r → remindS ≤ now - r := by
  unfold remindKnown at h ⊢
  split at h
  · cases h
  · rename_i hl
    rw [if_neg hl]
    split at h
    · cases h
    · rename_i last hlast
      split at h
      · cases h
      · rename_i hlong
        simp only [if_neg hlong]
        refine ⟨Nat.pos_of_ne_zero hl, trivial, fun r hr => ?_⟩
        rw [hr] at hlast
        have hlast : r = last := by simpa using hlast
        rw [hlast]
        exact not_lt.1 hlong

theorem remindKnown_quiet {level : Nat} {now : Time} (h : (remindKnown e level now).2 ≠ .remind) :
    (remindKnown e level now).1 = e := by
  unfold remindKnown at h ⊢
  split
  · rfl
  · rename_i hl
    rw [if_neg hl] at h
    split
    · rfl
    · rename_i last hlast
      simp only [hlast] at h
      split
      · rfl
      · rename_i hlong
        rw [if_neg hlong] at h
        exact absurd rfl h

/-- What a tick can do to an entry. -/
inductive KnownEnd (e : KnownIssue) (i : KnownTick) : Option KnownIssue × KnownWhat → Prop
  | expired (h : e.expired i.now = true) : KnownEnd e i (none, .expired)
  /-- Nobody knows whether the problem is there. -/
  | gap (h : i.confirmed = false) : KnownEnd e i (some { e with goneAt := none }, .nothing)
  /-- The problem is there. -/
  | there (new : KnownIssue) (hl : 0 < i.level) (hgone : new.goneAt = none)
      (hrem : new.remindedAt = e.remindedAt)
      (hfix : e.level ≠ none → new.level = e.level ∧ new.sig = e.sig) :
      KnownEnd e i (some (remindKnown new i.level i.now).1, (remindKnown new i.level i.now).2)
  | gone (h : i.calm) (hno : e.goneAt = none) :
      KnownEnd e i (some { e with goneAt := some i.now, worse := false }, .nothing)
  | closed (h : i.calm) (t : Time) (ht : e.goneAt = some t) (hlong : goneS ≤ i.now - t) :
      KnownEnd e i (none, .closed)
  | waits (h : i.calm) (t : Time) (ht : e.goneAt = some t) :
      KnownEnd e i (some { e with goneAt := some t, worse := false }, .nothing)

theorem stepKnown_end (e : KnownIssue) (i : KnownTick) : KnownEnd e i (stepKnown e i) := by
  unfold stepKnown
  split
  · exact .expired ‹_›
  split
  · rename_i h
    exact .gap (by simpa using h)
  rename_i hconf
  have hconf : i.confirmed = true := by simpa using hconf
  split
  · rename_i hl
    dsimp only
    split
    · rename_i hnone
      exact .there _ hl rfl rfl fun hne => absurd hnone hne
    · exact .there _ hl rfl rfl fun _ => ⟨rfl, rfl⟩
  · rename_i hl
    have hcalm : i.calm := ⟨hconf, by omega⟩
    cases hg : e.goneAt with
    | none => exact .gone hcalm hg
    | some t =>
      dsimp only
      split
      · exact .closed hcalm t hg ‹_›
      · exact .waits hcalm t hg

theorem knownStep_some {x : KnownRun} (hx : x.entry = some e) (i : KnownTick) :
    knownStep x i = ⟨(stepKnown e i).1, x.ticks ++ [i],
      if (stepKnown e i).2 = .remind then x.reminds ++ [i.now] else x.reminds⟩ := by
  unfold knownStep
  rw [hx]

theorem knownSane_step {x : KnownRun} (h : KnownSane x) (i : KnownTick) :
    KnownSane (knownStep x i) := by
  cases hx : x.entry with
  | none =>
    have hsame : knownStep x i = x := by
      unfold knownStep
      rw [hx]
    rw [hsame]
    exact h
  | some e =>
    rw [knownStep_some hx]
    have hend := stepKnown_end e i
    generalize stepKnown e i = r at hend ⊢
    cases hend with
    | expired => exact ⟨fun _ _ he => (nomatch he), fun _ he => (nomatch he)⟩
    | closed => exact ⟨fun _ _ he => (nomatch he), fun _ he => (nomatch he)⟩
    | gap =>
      constructor
      · rintro _ t ⟨⟩ ht
        cases ht
      · rintro _ ⟨⟩
        exact h.reminded e hx
    | gone hcalm =>
      constructor
      · rintro _ t ⟨⟩ ht
        cases ht
        exact calmSince_start x.ticks hcalm
      · rintro _ ⟨⟩
        exact h.reminded e hx
    | waits hcalm t ht =>
      constructor
      · rintro _ t' ⟨⟩ ht'
        cases ht'
        exact (h.gone e t hx ht).snoc hcalm
      · rintro _ ⟨⟩
        exact h.reminded e hx
    | there new hl hgone hrem =>
      constructor
      · rintro _ t ⟨⟩ ht
        rw [(remindKnown_keeps new i.level i.now).2.2, hgone] at ht
        cases ht
      · rintro _ ⟨⟩ t ht
        dsimp only at ht
        by_cases hr : (remindKnown new i.level i.now).2 = .remind
        · rw [if_pos hr] at ht
          obtain ⟨-, hnow, hlong⟩ := remindKnown_remind hr
          refine ⟨i.now, hnow, ?_⟩
          rcases List.mem_append.1 ht with ht | ht
          · obtain ⟨r, hr', hle⟩ := h.reminded e hx t ht
            have := hlong r (hrem.trans hr')
            have hpos : (0 : Time) < remindS := by decide
            linarith
          · rw [List.mem_singleton.1 ht]
        · rw [if_neg hr] at ht
          rw [remindKnown_quiet hr, hrem]
          exact h.reminded e hx t ht

theorem knownRight_step {x : KnownRun} (h : KnownSane x) (i : KnownTick) : KnownRight x i := by
  constructor
  · intro e e' hx hne he'
    rw [knownStep_some hx] at he'
    have hend := stepKnown_end e i
    generalize stepKnown e i = r at hend he'
    cases hend with
    | there new _ _ _ hfix =>
      cases he'
      obtain ⟨h1, h2, -⟩ := remindKnown_keeps new i.level i.now
      rw [h1, h2]
      exact hfix hne
    | expired => cases he'
    | closed => cases he'
    | _ =>
      cases he'
      exact ⟨rfl, rfl⟩
  · intro e hx hc
    have hend := stepKnown_end e i
    generalize stepKnown e i = r at hend hc
    cases hend with
    | closed hcalm t ht hlong => exact ⟨t, (h.gone e t hx ht).snoc hcalm, hlong⟩
    | there new =>
      dsimp only at hc
      unfold remindKnown at hc
      split_ifs at hc
      split at hc
      · cases hc
      · split_ifs at hc
    | _ => cases hc
  · intro e hx hr
    have hend := stepKnown_end e i
    generalize stepKnown e i = r at hend hr
    cases hend with
    | there new hl _ hrem =>
      obtain ⟨-, -, hlong⟩ := remindKnown_remind hr
      refine ⟨hl, fun t ht => ?_⟩
      obtain ⟨r, hr', hle⟩ := h.reminded e hx t ht
      have := hlong r (hrem.trans hr')
      linarith
    | _ => cases hr

/-! ## What an entry covers -/

/-- An alert that is no worse than what was broken at the mark: no higher, and
about nothing else. -/
def NoWorse (e : KnownIssue) (known level : Nat) (sig : Option (Finset String)) : Prop :=
  level ≤ known ∧ sig.getD ∅ ⊆ e.sig.getD ∅

/-- The entry covers what is no worse, where something was listed at the mark,
or nothing is listed now, or the level is worse anyway. -/
theorem covers_iff_noWorse {known level : Nat} {sig : Option (Finset String)}
    (he : e.level = some known) (hl : 0 < level) :
    (coversKnown (some e) level sig = true ↔ NoWorse e known level sig) ↔
      e.sig ≠ none ∨ sig.getD ∅ = ∅ ∨ known < level := by
  have hcov : coversKnown (some e) level sig = true ↔ level ≤ known ∧
      ∀ x y, sig = some x → e.sig = some y → x ⊆ y := by
    unfold coversKnown
    simp only [he]
    cases sig <;> cases e.sig <;> simp [Nat.ne_of_gt hl]
  rw [hcov]
  unfold NoWorse
  cases hs : e.sig with
  | some y =>
    cases sig <;> simp
  | none =>
    cases sig with
    | none => simp
    | some x =>
      simp only [reduceCtorEq, false_implies, implies_true, and_true, Option.getD_some,
        Option.getD_none, Finset.subset_empty, ne_eq, not_true_eq_false, false_or]
      by_cases hx : x = ∅
      · simp [hx]
      · simp [hx]

/-- A known problem over every run of its ticks, and what it covers. -/
theorem known_issue_laws (e : KnownIssue) (is : List KnownTick) :
    Along knownStep KnownRight ⟨some { e with goneAt := none }, [], []⟩ is ∧
      ∀ (known level : Nat) (sig : Option (Finset String)), e.level = some known → 0 < level →
        ((coversKnown (some e) level sig = true ↔ NoWorse e known level sig) ↔
          e.sig ≠ none ∨ sig.getD ∅ = ∅ ∨ known < level) := by
  constructor
  · have h0 : KnownSane ⟨some { e with goneAt := none }, [], []⟩ := by
      constructor
      · rintro _ t ⟨⟩ ht
        cases ht
      · rintro _ ⟨⟩ t ht
        cases ht
    exact along_of_inv h0 (fun x i h => knownSane_step h i) (fun x i h => knownRight_step h i) is
  · intro known level sig he hl
    exact covers_iff_noWorse he hl

/-- Two disks that were listed at the mark. -/
def twoDisks : KnownIssue := { level := some 1, sig := some {"sda", "sdb"} }

theorem known_issue_laws_disk :
    Along knownStep KnownRight ⟨some { twoDisks with goneAt := none }, [], []⟩
      [{ level := 1, sig := some {"sda"}, now := 0 }, { level := 0, now := sec 60 },
        { level := 0, now := sec 700 }] ∧
    ((coversKnown (some twoDisks) 1 (some {"sda"}) = true ↔ NoWorse twoDisks 1 1 (some {"sda"})) ↔
      twoDisks.sig ≠ none ∨ (some ({"sda"} : Finset String)).getD ∅ = ∅ ∨ 1 < 1) :=
  have h := known_issue_laws twoDisks
    [{ level := 1, sig := some {"sda"}, now := 0 }, { level := 0, now := sec 60 },
      { level := 0, now := sec 700 }]
  ⟨h.1, h.2 1 1 (some {"sda"}) rfl (by decide)⟩

/-- Nothing was listed when the problem was marked: a disk that breaks later is
covered as well. -/
theorem an_empty_list_covers_all :
    ¬ ∀ (e e' : KnownIssue) (is : List KnownTick) (known level : Nat)
      (sig : Option (Finset String)),
      (run knownStep ⟨some { e with goneAt := none }, [], []⟩ is).entry = some e' →
        e'.level = some known → 0 < level →
          (coversKnown (some e') level sig = true ↔ NoWorse e' known level sig) := by
  intro h
  have hcov := h {} { level := some 1, sig := none } [{ level := 1, sig := some ∅, now := 0 }] 1 1
    (some {"sda"}) (by decide) rfl (by decide)
  exact absurd (hcov.1 (by decide)).2 (by decide)

end Kervax
