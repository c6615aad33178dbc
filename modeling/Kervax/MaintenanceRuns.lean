-- The ticks of `maintenance_tick` over one window: each occurrence is told
-- once at most, and exactly when it is told.
import Kervax.Maintenance

namespace Kervax

/-! ## One tick -/

/-- The row of a window as the ticks change it. -/
structure MaintRow where
  verifiedEnd : Option Time := none
  gone : Bool := false
deriving DecidableEq, Repr

/-- One tick: the moment, the pause of the panel, whether alerts are on, and
what becomes of the message if it is sent. -/
structure MaintTick where
  now : Time
  muted : Bool := false
  alertsEnabled : Bool := true
  dispatched : Bool := true
deriving DecidableEq, Repr

/-- A message of this tick arrives. -/
def MaintTick.sends (k : MaintTick) : Bool := !k.muted && k.alertsEnabled && k.dispatched

/-- `maintenance_tick` for one window: the row after it, and the occurrence whose
message arrived. The mark is committed before anything is sent. -/
def maintStep (w : MaintWindow) (z : Zone) (r : MaintRow) (k : MaintTick) :
    MaintRow × Option (Time × Time) :=
  if r.gone then (r, none)
  else if finished w k.now ∧ keepDone < k.now - w.endsAt then ({ r with gone := true }, none)
  else
    match dueVerify w r.verifiedEnd k.now z with
    | none => (r, none)
    | some o => ({ r with verifiedEnd := some o.2 }, if k.sends then some o else none)

/-- The occurrences told of in a run. -/
def told (w : MaintWindow) (z : Zone) : MaintRow → List MaintTick → List (Time × Time)
  | _, [] => []
  | r, k :: ks => (maintStep w z r k).2.toList ++ told w z (maintStep w z r k).1 ks

/-! ## When a check is due -/

/-- No occurrence that has ended ended after this one. -/
def Latest (w : MaintWindow) (z : Zone) (now : Time) (o : Time × Time) : Prop :=
  ∀ p, Occurs w z p → p.2 ≤ now → p.2 ≤ o.2

/-- The moment lies in the time in which the check of this occurrence is made. -/
def InTime (now : Time) (o : Time × Time) : Prop := o.2 + verifyAfter ≤ now ∧ now ≤ o.2 + day

theorem lastEnded_mem {w : MaintWindow} {z : Zone} {now : Time} {o : Time × Time}
    (h : lastEnded w now z = some o) :
    (o ∈ occurrences w now z ∧ o.2 ≤ now) ∧
      ∀ p ∈ occurrences w now z, p.2 ≤ now → p.2 ≤ o.2 := by
  obtain ⟨front, hf⟩ := List.getLast?_eq_some_iff.mp h
  have hmem : o ∈ (occurrences w now z).filter fun o => o.2 ≤ now := by rw [hf]; simp
  have hsorted := (occurrences_sorted w z now).filter fun o => o.2 ≤ now
  rw [hf, List.pairwise_append] at hsorted
  refine ⟨by simpa using hmem, ?_⟩
  intro p hp hend
  have hpmem : p ∈ (occurrences w now z).filter fun o => o.2 ≤ now := by simp [hp, hend]
  rw [hf] at hpmem
  rcases List.mem_append.mp hpmem with hp' | hp'
  · exact hsorted.2.2 p hp' o (by simp)
  · rw [List.mem_singleton.mp hp']

/-- The last ended occurrence, as long as it ended within a day. -/
theorem lastEnded_iff {w : MaintWindow} (hw : w.Valid) {z : Zone} {now : Time} {o : Time × Time}
    (hn : o.2 ≤ now ∧ now ≤ o.2 + day) :
    lastEnded w now z = some o ↔ Occurs w z o ∧ Latest w z now o := by
  constructor
  · intro h
    obtain ⟨⟨hmem, -⟩, hmax⟩ := lastEnded_mem h
    refine ⟨occurs_of_mem hmem, ?_⟩
    intro p hp hend
    by_contra hlt
    have hp' := mem_of_ended hw hp ⟨hend, by linarith⟩
    exact hlt (hmax p hp' hend)
  · rintro ⟨ho, hl⟩
    have hmem := mem_of_ended hw ho hn
    cases hp : lastEnded w now z with
    | none =>
      have hnil := List.getLast?_eq_none_iff.mp hp
      exact absurd (List.filter_eq_nil_iff.mp hnil o hmem) (by simp [hn.1])
    | some p =>
      obtain ⟨⟨hpm, hpn⟩, hmax⟩ := lastEnded_mem hp
      have h1 := hmax o hmem hn.1
      have h2 := hl p (occurs_of_mem hpm) hpn
      rw [Occurs.eq_of_snd (occurs_of_mem hpm) ho (le_antisymm h2 h1)]

/-- `due_verify` in full. -/
theorem dueVerify_iff {w : MaintWindow} (hw : w.Valid) {z : Zone} {v : Option Time} {now : Time}
    {o : Time × Time} :
    dueVerify w v now z = some o ↔
      w.verify = true ∧ Occurs w z o ∧ InTime now o ∧ Latest w z now o ∧ ∀ t ∈ v, t < o.2 := by
  have hva : (0 : Time) < verifyAfter := by decide
  unfold dueVerify
  by_cases hv : w.verify = true
  · simp only [hv, if_true, true_and]
    constructor
    · intro h
      cases hle : lastEnded w now z with
      | none => rw [hle] at h; cases h
      | some p =>
        rw [hle] at h
        dsimp only at h
        split at h
        · cases h
        · next hage =>
          split at h
          · cases h
          · next hdone =>
            obtain rfl : p = o := by simpa using h
            rw [not_or, not_lt, not_lt] at hage
            have hin : InTime now p :=
              ⟨by linarith [hage.1], by linarith [hage.2, show day = sec 86400 from rfl]⟩
            have hl := (lastEnded_iff hw ⟨by linarith [hin.1], hin.2⟩).mp hle
            refine ⟨hl.1, hin, hl.2, ?_⟩
            intro t ht
            obtain rfl := Option.mem_def.mp ht
            simpa using hdone
    · rintro ⟨ho, hin, hl, hdone⟩
      rw [(lastEnded_iff hw ⟨by linarith [hin.1], hin.2⟩).mpr ⟨ho, hl⟩]
      have hage : ¬ (now - o.2 < verifyAfter ∨ sec 86400 < now - o.2) := by
        rw [not_or, not_lt, not_lt]
        exact ⟨by linarith [hin.1], by linarith [hin.2, show day = sec 86400 from rfl]⟩
      have hany : v.any (o.2 ≤ ·) = false := by
        cases v with
        | none => rfl
        | some t => simpa using hdone t rfl
      simp [hage, hany]
  · simp [hv]

/-! ## A run over one occurrence -/

section
variable {w : MaintWindow} (hw : w.Valid) {z : Zone} {o : Time × Time}

include hw in
/-- What a tick tells of was due. -/
theorem maintStep_told {r : MaintRow} {k : MaintTick} (h : o ∈ (maintStep w z r k).2) :
    Occurs w z o ∧ InTime k.now o ∧ Latest w z k.now o ∧ ∀ t ∈ r.verifiedEnd, t < o.2 := by
  unfold maintStep at h
  split at h
  · cases h
  · split at h
    · cases h
    · cases hd : dueVerify w r.verifiedEnd k.now z with
      | none => rw [hd] at h; cases h
      | some p =>
        rw [hd] at h
        by_cases hs : k.sends = true
        · obtain rfl : p = o := by simpa [hs] using h
          exact ((dueVerify_iff hw).mp hd).2
        · simp [hs] at h

include hw in
/-- The mark moves forward only, to the end of an occurrence whose time has come. -/
theorem maintStep_mark (r : MaintRow) (k : MaintTick) :
    (maintStep w z r k).1.verifiedEnd = r.verifiedEnd ∨
      ∃ t, (maintStep w z r k).1.verifiedEnd = some t ∧ t + verifyAfter ≤ k.now ∧
        ∀ s ∈ r.verifiedEnd, s < t := by
  unfold maintStep
  split
  · exact .inl rfl
  · split
    · exact .inl rfl
    · cases hd : dueVerify w r.verifiedEnd k.now z with
      | none => exact .inl rfl
      | some p =>
        obtain ⟨-, -, hin, -, hdone⟩ := (dueVerify_iff hw).mp hd
        exact .inr ⟨p.2, rfl, hin.1, hdone⟩

/-- The occurrence is behind the mark. -/
def Marked (r : MaintRow) (o : Time × Time) : Prop := ∃ t ∈ r.verifiedEnd, o.2 ≤ t

include hw in
theorem Marked.step {r : MaintRow} (h : Marked r o) (k : MaintTick) :
    Marked (maintStep w z r k).1 o := by
  obtain ⟨t, ht, hle⟩ := h
  rcases maintStep_mark hw (z := z) r k with he | ⟨s, hs, -, hlt⟩
  · exact ⟨t, by rw [he]; exact ht, hle⟩
  · exact ⟨s, hs, le_trans hle (le_of_lt (hlt t ht))⟩

include hw in
/-- What is behind the mark is told of no more. -/
theorem told_of_marked {r : MaintRow} (h : Marked r o) (ks : List MaintTick) :
    o ∉ told w z r ks := by
  induction ks generalizing r with
  | nil => simp [told]
  | cons k ks ih =>
    unfold told
    rw [List.mem_append, Option.mem_toList]
    rintro (hk | hks)
    · obtain ⟨t, ht, hle⟩ := h
      exact absurd ((maintStep_told hw hk).2.2.2 t ht) (not_lt.mpr hle)
    · exact ih (h.step hw k) hks

include hw in
/-- What is in time at no tick, or ended before another, is not told of. -/
theorem told_of_missed {r : MaintRow} {ks : List MaintTick}
    (h : ∀ k ∈ ks, ¬ (k.now ≤ o.2 + day ∧ Latest w z k.now o)) : o ∉ told w z r ks := by
  induction ks generalizing r with
  | nil => simp [told]
  | cons k ks ih =>
    unfold told
    rw [List.mem_append, Option.mem_toList]
    rintro (hk | hks)
    · obtain ⟨-, hin, hl, -⟩ := maintStep_told hw hk
      exact h k (by simp) ⟨hin.2, hl⟩
    · exact ih (fun j hj => h j (by simp [hj])) hks

/-- The row before the time of an occurrence has come. -/
def Ahead (r : MaintRow) (o : Time × Time) : Prop :=
  r.gone = false ∧ ∀ t ∈ r.verifiedEnd, t < o.2

/-- The row of a window is not deleted while an occurrence waits for its check. -/
theorem not_deleted (ho : Occurs w z o) {now : Time} (hn : now ≤ o.2 + day) :
    ¬ (finished w now = true ∧ keepDone < now - w.endsAt) := by
  rintro ⟨hf, hk⟩
  simp only [finished, decide_eq_true_eq] at hf
  rcases ho with ⟨-, rfl⟩ | ⟨hr, -⟩
  · simp only [keepDone, day, sec] at hk hn
    linarith
  · exact hr hf.1

include hw in
theorem Ahead.step (ho : Occurs w z o) {r : MaintRow} (h : Ahead r o) {k : MaintTick}
    (hk : k.now < o.2 + verifyAfter) : Ahead (maintStep w z r k).1 o := by
  have hva : verifyAfter < day := by decide
  constructor
  · unfold maintStep
    rw [if_neg (by simp [h.1]), if_neg (not_deleted ho (by linarith))]
    split <;> simp [h.1]
  · rcases maintStep_mark hw (z := z) r k with he | ⟨s, hs, hle, -⟩
    · rw [he]
      exact h.2
    · rw [hs]
      intro t ht
      obtain rfl : s = t := by simpa using ht
      linarith

include hw in
/-- The first look at an occurrence whose turn it is: it is marked, and told of
when the tick sends. -/
theorem maintStep_look (hv : w.verify = true) (ho : Occurs w z o) {r : MaintRow} (h : Ahead r o)
    {k : MaintTick} (hin : InTime k.now o) (hl : Latest w z k.now o) :
    maintStep w z r k =
      ({ r with verifiedEnd := some o.2 }, if k.sends then some o else none) := by
  have hd := (dueVerify_iff hw).mpr ⟨hv, ho, hin, hl, h.2⟩
  unfold maintStep
  rw [if_neg (by simp [h.1]), if_neg (not_deleted ho hin.2), hd]

/-- The first tick after the check became due finds it in time, finds no later
occurrence ended, and its message arrives. -/
def FirstLook (w : MaintWindow) (z : Zone) (o : Time × Time) (ks : List MaintTick) : Prop :=
  ∃ k, ks.find? (fun k => o.2 + verifyAfter ≤ k.now) = some k ∧
    k.now ≤ o.2 + day ∧ Latest w z k.now o ∧ k.sends = true

/-- The clock of the ticks does not go back. -/
def TicksInOrder (ks : List MaintTick) : Prop := ks.Pairwise fun a b => a.now ≤ b.now

include hw in
theorem told_count (hv : w.verify = true) (ho : Occurs w z o) {ks : List MaintTick}
    (hord : TicksInOrder ks) {r : MaintRow} (h : Ahead r o) :
    (told w z r ks).count o = 1 ↔ FirstLook w z o ks := by
  induction ks generalizing r with
  | nil => simp [told, FirstLook]
  | cons k ks ih =>
    obtain ⟨hlater, hrest⟩ := List.pairwise_cons.mp hord
    by_cases hk : o.2 + verifyAfter ≤ k.now
    · have hfind : FirstLook w z o (k :: ks) ↔
          k.now ≤ o.2 + day ∧ Latest w z k.now o ∧ k.sends = true := by
        simp [FirstLook, hk]
      rw [hfind]
      by_cases hlook : k.now ≤ o.2 + day ∧ Latest w z k.now o
      · have hstep := maintStep_look hw hv ho h ⟨hk, hlook.1⟩ hlook.2
        have hm : Marked { r with verifiedEnd := some o.2 } o := ⟨o.2, rfl, le_refl _⟩
        have hnone := List.count_eq_zero.mpr (told_of_marked hw (z := z) hm ks)
        unfold told
        rw [hstep, List.count_append, hnone]
        by_cases hs : k.sends = true
        · simp [hs, hlook.1, hlook.2]
        · simp [hs]
      · -- no later tick finds it in time either
        have hmiss : ∀ j ∈ k :: ks, ¬ (j.now ≤ o.2 + day ∧ Latest w z j.now o) := by
          intro j hj hjl
          have hle : k.now ≤ j.now := by
            rcases List.mem_cons.mp hj with rfl | hj
            · exact le_refl _
            · exact hlater j hj
          exact hlook ⟨le_trans hle hjl.1, fun p hp hend => hjl.2 p hp (le_trans hend hle)⟩
        rw [List.count_eq_zero.mpr (told_of_missed hw hmiss)]
        constructor
        · intro h0; cases h0
        · rintro ⟨h1, h2, -⟩
          exact absurd ⟨h1, h2⟩ hlook
    · have hk' : k.now < o.2 + verifyAfter := not_le.mp hk
      have hnot : (maintStep w z r k).2.toList.count o = 0 := by
        apply List.count_eq_zero.mpr
        rw [Option.mem_toList]
        intro hmem
        exact hk (maintStep_told hw hmem).2.1.1
      have hfind : FirstLook w z o (k :: ks) ↔ FirstLook w z o ks := by
        simp [FirstLook, hk]
      rw [hfind, ← ih hrest (h.step hw ho hk')]
      unfold told
      rw [List.count_append, hnot, Nat.zero_add]
      cases ks <;> rfl

end

/-- A window is in force exactly while an occurrence covers the moment; and with
the check asked for, an occurrence is told of exactly once in a run when the
first tick after it became due is in time, comes before the end of any later
occurrence, and brings its message out. -/
theorem maintenance_told_once (z : Zone) (w : MaintWindow) (hw : w.Valid) :
    (∀ now o, current w now z = some o → Occurs w z o ∧ o.1 ≤ now ∧ now < o.2) ∧
    (∀ now o, Occurs w z o → o.1 ≤ now ∧ now < o.2 → (current w now z).isSome = true) ∧
    ∀ ks, w.verify = true → TicksInOrder ks → ∀ o, Occurs w z o →
      ((told w z {} ks).count o = 1 ↔ FirstLook w z o ks) :=
  ⟨fun _ _ h => current_covers h, fun _ _ ho hn => current_isSome hw ho hn,
    fun _ hv hord _ ho => told_count hw hv ho hord ⟨rfl, by simp⟩⟩

/-- Works from three to four every night. -/
def nightly : MaintWindow where
  startsAt := sec 10800
  endsAt := sec 14400
  rep := .daily

theorem nightly_valid : nightly.Valid where
  forward := by decide
  repeated _ := by decide
  single h := by cases h
  someDay h := by cases h
  inWeek d h := by cases h

/-- The second night is looked at in the works, ten minutes after their end, and again. -/
def nightlyTicks : List MaintTick :=
  [{ now := day + sec 12000 }, { now := day + sec 15000 }, { now := day + sec 15600 }]

theorem maintenance_told_once_nightly :
    (told nightly utc {} nightlyTicks).count (day + sec 10800, day + sec 14400) = 1 ∧
      FirstLook nightly utc (day + sec 10800, day + sec 14400) nightlyTicks := by
  have hone : (told nightly utc {} nightlyTicks).count (day + sec 10800, day + sec 14400) = 1 := by
    decide +kernel
  have hnight : Occurs nightly utc (day + sec 10800, day + sec 14400) :=
    .inr ⟨by decide, 1, by decide +kernel, by decide +kernel⟩
  have h := (maintenance_told_once utc nightly nightly_valid).2.2 nightlyTicks rfl
    (by simp [nightlyTicks, TicksInOrder, sec]) (day + sec 10800, day + sec 14400) hnight
  exact ⟨hone, h.mp hone⟩

/-- A pause at the first look: the mark is set, nothing is sent, and the ticks
that follow the pause have nothing to tell. -/
theorem a_pause_loses_the_check :
    ¬ ∀ (z : Zone) (w : MaintWindow) (ks : List MaintTick), w.Valid → w.verify = true →
      TicksInOrder ks → (∀ o, Occurs w z o → (∃ k ∈ ks, o.2 ≤ k.now) → ∃ k ∈ ks, InTime k.now o) →
      ∀ o, Occurs w z o → (∃ k ∈ ks, o.2 ≤ k.now) → (told w z {} ks).count o = 1 := by
  intro h
  have hw : ({ startsAt := 0, endsAt := sec 3600, rep := .once } : MaintWindow).Valid :=
    ⟨by decide, by decide, by decide, by decide, by simp⟩
  have hone := h utc { startsAt := 0, endsAt := sec 3600, rep := .once }
    [{ now := sec 3900, muted := true }, { now := sec 4200 }] hw rfl
    (by simp [TicksInOrder, sec]) (by
      rintro o (⟨-, rfl⟩ | ⟨hr, -⟩) -
      · exact ⟨{ now := sec 4200 }, by simp, by decide, by decide⟩
      · exact absurd rfl hr)
    (0, sec 3600) (.inl ⟨rfl, rfl⟩) ⟨{ now := sec 4200 }, by simp, by decide⟩
  exact absurd hone (by decide +kernel)

end Kervax
