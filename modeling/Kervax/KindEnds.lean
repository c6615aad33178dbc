-- What each block of the loop body can come to: one case for every way out of
-- it, with what held there. Everything said about a tick later is read off
-- these cases.
import Kervax.KindTick

namespace Kervax

variable {nm : Norms} {k : Kind} {s : Seen} {c : Cond} {x : Carry}

/-! ## Before the change of the level is looked at -/

inductive GatesEnd (k : Kind) (s : Seen) (c : Cond) (x : Carry) : BodyFlow Carry → Prop
  /-- One of the gates is closed, and nothing is written. -/
  | left : GatesEnd k s c x (.done x)
  /-- The kind is muted, and its level goes down unseen. -/
  | muted (hm : isMuted s c.level = true) (h0 : 0 < c.level) (hlt : c.level < x.st.level) :
      GatesEnd k s c x (.done { x with st := { x.st with level := c.level } })
  | pass (htalk : s.talking = true ∨ k = .offline)
      (hsure : k = .offline ∨ fixNow k s = true ∨ policyClose s c x.st = true ∨
        s.fresh = true ∧ (c.level = 0 → c.ctx.complete = true ∧ ¬ (s.epoch = true ∧ k ∈ ownSettle)))
      (honb : s.onb = true → condOk k c.level = true ∨ c.level ≤ x.st.level) :
      GatesEnd k s c x (.next x)

theorem gates_end : GatesEnd k s c x (gates k s c x) := by
  unfold gates
  dsimp only
  by_cases h1 : ¬ s.talking = true ∧ k ≠ .offline
  · rw [if_pos h1]
    exact .left
  rw [if_neg h1]
  by_cases h2 : k ≠ .offline ∧ ¬ fixNow k s = true ∧ ¬ policyClose s c x.st = true ∧
      (¬ s.fresh = true ∨
        c.level = 0 ∧ (s.epoch = true ∧ k ∈ ownSettle ∨ ¬ c.ctx.complete = true))
  · rw [if_pos h2]
    exact .left
  rw [if_neg h2]
  split
  · exact .left
  split
  · exact .left
  split
  · exact .left
  split
  · rename_i hm
    split
    · rename_i hlt
      exact .muted hm.1 (by omega) hlt
    · exact .left
  split
  · exact .left
  split
  · exact .left
  · rename_i honb
    refine .pass ?_ ?_ fun ho => ?_
    · by_contra hno
      exact h1 ⟨fun ht => hno (.inl ht), fun hk => hno (.inr hk)⟩
    · by_contra hno
      push Not at hno
      obtain ⟨hk, hf, hp, hc⟩ := hno
      refine h2 ⟨hk, hf, hp, ?_⟩
      by_cases hfr : s.fresh = true
      · obtain ⟨h0, hc⟩ := hc hfr
        refine .inr ⟨h0, ?_⟩
        by_cases hcomp : c.ctx.complete = true
        · exact .inl (hc hcomp)
        · exact .inr hcomp
      · exact .inl hfr
    · by_contra hno
      exact honb ⟨ho, fun hc => hno (.inl hc), by omega⟩

/-- The level to compare with is the stored one, or none after a growth that
was acknowledged. -/
theorem startPrev_end : ∃ p, startPrev k s c x = .next { x with prev := p } ∧
    (p = x.st.level ∨ p = 0 ∧ k = .backupGrowth ∧ 0 < c.level ∧ 0 < x.st.level) := by
  unfold startPrev
  extract_lets grown
  by_cases h : k = .backupGrowth ∧ 0 < c.level ∧ 0 < x.st.level ∧ grown = true
  · rw [if_pos h]
    exact ⟨0, rfl, .inr ⟨rfl, h.1, h.2.1, h.2.2.1⟩⟩
  · rw [if_neg h]
    exact ⟨_, rfl, .inl rfl⟩

inductive FixedEnd (k : Kind) (s : Seen) (x : Carry) : BodyFlow Carry → Prop
  | pass (h : fixNow k s = false) : FixedEnd k s x (.next x)
  /-- Somebody heard of the alert: its closing is told. -/
  | told (h : fixNow k s = true) (hp : 0 < x.prev) (hq : x.st.quiet = none) (hh : x.st.hush = none) :
      FixedEnd k s x (.done { x with out := { x.out with
        recs := x.out.recs ++ [⟨.fixed, 0, ∅⟩]
        recApply := x.out.recApply ++ fixedTail k x.st } })
  | silent (h : fixNow k s = true)
      (hq : 0 < x.prev → x.st.quiet ≠ none ∨ x.st.hush ≠ none) :
      FixedEnd k s x (.done { x with st := applyAll (fixedTail k x.st) x.st })
  | nothing (h : fixNow k s = true) (hp : x.prev = 0) : FixedEnd k s x (.done x)

theorem fixedBlock_end : FixedEnd k s x (fixedBlock k s x) := by
  unfold fixedBlock
  by_cases hf : fixNow k s = true
  · rw [if_pos hf]
    split
    · rename_i h
      exact .told hf h.1 h.2.1 h.2.2
    split
    · rename_i h _
      refine .silent hf fun hp => ?_
      by_contra hno
      push Not at hno
      exact h ⟨hp, hno.1, hno.2⟩
    · exact .nothing hf (by omega)
  · rw [if_neg hf]
    exact .pass (by simpa using hf)

/-- The state without the begin of its calm. -/
def KindSt.stirred (st : KindSt) : KindSt := { st with calm := none }

/-- A silent repeat is closed without a word, and remembered. -/
def closeHushed (k : Kind) (s : Seen) (x : Carry) : KindSt :=
  { closedSt k x.st with was := some (wasAfter (closedSt k x.st) x.prev s.now) }

inductive SettleEnd (k : Kind) (s : Seen) (c : Cond) (x : Carry) : BodyFlow Carry → Prop
  | own (h : k ∈ noSettle) : SettleEnd k s c x (.next x)
  /-- A repeat, which is swallowed. -/
  | again (h : k ∉ noSettle) (hl : 0 < c.level) (hp : x.prev = 0) (w : Was)
      (hw : againOf x.st c.level (whoOf c.ctx) s.now = some w) :
      SettleEnd k s c x (.done { x with st := swallow s c w x.st.stirred })
  /-- The repeat lasts: it is told after all. -/
  | overdue (h : k ∉ noSettle) (hl : 0 < c.level) (hp : 0 < x.prev) (t : Time)
      (ht : x.st.hush = some t) (hlong : againTell ≤ s.now - t) (hheld : heldOnly c.ctx = false) :
      SettleEnd k s c x (.next { x with st := x.st.stirred, prev := 0 })
  | trouble (h : k ∉ noSettle) (hl : 0 < c.level)
      (hnew : x.prev = 0 → againOf x.st c.level (whoOf c.ctx) s.now = none)
      (hhush : 0 < x.prev → ∀ t, x.st.hush = some t →
        s.now - t < againTell ∨ heldOnly c.ctx = true) :
      SettleEnd k s c x (.next { x with st := x.st.stirred })
  /-- The hold of the recovery begins. -/
  | calms (h : k ∉ noSettle) (hl : c.level = 0) (hp : 0 < x.prev) (ho : k ∉ ownSettle)
      (hc : x.st.calm = none) :
      SettleEnd k s c x (.done { x with st := { x.st with calm := some s.now } })
  | waits (h : k ∉ noSettle) (hl : c.level = 0) (hp : 0 < x.prev) (ho : k ∉ ownSettle) (t : Time)
      (hc : x.st.calm = some t) (hshort : s.now - t < settleS) : SettleEnd k s c x (.done x)
  | hushed (h : k ∉ noSettle) (hl : c.level = 0) (hp : 0 < x.prev) (hh : x.st.hush ≠ none)
      (hcalm : k ∉ ownSettle → ∃ t, x.st.calm = some t ∧ settleS ≤ s.now - t) :
      SettleEnd k s c x (.done { x with st := closeHushed k s x })
  | settled (h : k ∉ noSettle) (hl : c.level = 0)
      (hh : 0 < x.prev → x.st.hush = none ∧
        (k ∉ ownSettle → ∃ t, x.st.calm = some t ∧ settleS ≤ s.now - t)) :
      SettleEnd k s c x (.next x)

theorem stirred_eq (x : Carry) :
    (if x.st.calm.isSome = true then { x with st := { x.st with calm := none } } else x) =
      { x with st := x.st.stirred } := by
  cases hc : x.st.calm with
  | none =>
    simp only [Option.isSome_none, Bool.false_eq_true, if_false]
    unfold KindSt.stirred
    rw [← hc]
  | some t => rfl

theorem settleBlock_end : SettleEnd k s c x (settleBlock k s c x) := by
  unfold settleBlock
  by_cases hset : k ∈ noSettle
  · rw [if_pos hset]
    exact .own hset
  rw [if_neg hset]
  dsimp only
  rw [stirred_eq]
  by_cases hl : 0 < c.level
  · rw [if_pos hl]
    by_cases hp : x.prev = 0
    · rw [if_pos hp]
      cases hw : againOf x.st.stirred c.level (whoOf c.ctx) s.now with
      | none => exact .trouble hset hl (fun _ => hw) (by omega)
      | some w => exact .again hset hl hp w hw
    · rw [if_neg hp]
      cases hh : x.st.hush with
      | none => exact .trouble hset hl (by omega) (by simp [hh])
      | some t =>
        dsimp only
        split
        · rename_i h
          exact .overdue hset hl (by omega) t hh h.1 (by simpa using h.2)
        · rename_i h
          refine .trouble hset hl (by omega) fun _ t' ht' => ?_
          rw [hh] at ht'
          cases ht'
          by_contra hno
          push Not at hno
          exact h ⟨hno.1, hno.2⟩
  · rw [if_neg hl]
    have h0 : c.level = 0 := by omega
    by_cases hp : 0 < x.prev
    · rw [if_pos hp]
      by_cases h1 : k ∉ ownSettle ∧ x.st.calm = none
      · rw [if_pos h1]
        exact .calms hset h0 hp h1.1 h1.2
      rw [if_neg h1]
      by_cases h2 : k ∉ ownSettle ∧ s.now - x.st.calm.getD 0 < settleS
      · rw [if_pos h2]
        cases hc : x.st.calm with
        | none => exact absurd ⟨h2.1, hc⟩ h1
        | some t => exact .waits hset h0 hp h2.1 t hc (by simpa [hc] using h2.2)
      rw [if_neg h2]
      have hcalm : k ∉ ownSettle → ∃ t, x.st.calm = some t ∧ settleS ≤ s.now - t := by
        intro ho
        cases hc : x.st.calm with
        | none => exact absurd ⟨ho, hc⟩ h1
        | some t =>
          refine ⟨t, rfl, ?_⟩
          by_contra hno
          exact h2 ⟨ho, by simpa [hc] using hno⟩
      cases hh : x.st.hush with
      | none => exact .settled hset h0 fun _ => ⟨hh, hcalm⟩
      | some t =>
        have := SettleEnd.hushed hset h0 hp (by simp [hh]) hcalm (s := s)
        simpa [applyAll_closedTail, closeHushed] using this
    · rw [if_neg hp]
      exact .settled hset h0 (by omega)

theorem nightBlock_end : nightBlock k s c x = .done x ∧ 0 < c.level ∧ k ∈ daytimeKinds ∨
    nightBlock k s c x = .next x := by
  unfold nightBlock
  split
  · rename_i h
    exact .inl ⟨rfl, h.2.1, h.1⟩
  · exact .inr rfl

/-! ## The members, the routine and the level -/

inductive MembersEnd (nm : Norms) (k : Kind) (s : Seen) (c : Cond) (x : Carry) : BodyFlow Carry → Prop
  | untracked (h : k ∉ tracksMembers) : MembersEnd nm k s c x (.next x)
  /-- All that the alert was about is muted now. -/
  | policy (h : k ∈ tracksMembers) (hp : 0 < x.prev) (hl : c.level = 0)
      (hold : (membersOf nm k c x).old ≠ ∅) (hq : s.sigQuiet (membersOf nm k c x).old = true) :
      MembersEnd nm k s c x (.done { x with out := { x.out with
        closed := true
        recApply := x.out.recApply ++ [.calm, .hush, .sig ∅, .told ∅, .toldLvl 0, .level 0] } })
  /-- New members of the same story. -/
  | story (h : k ∈ tracksMembers) (hl : c.level = x.prev) (h0 : 0 < c.level)
      (hnews : (membersOf nm k c x).news ≠ ∅) (hk : k ∈ sigStory) (t : Time)
      (ht : x.st.said = some t) (hshort : s.now - t < sigStoryS) :
      MembersEnd nm k s c x (.done { x with st := { x.st with
        sig := (membersOf nm k c x).new
        told := (membersOf nm k c x).told ∪ (membersOf nm k c x).new } })
  | news (h : k ∈ tracksMembers) (hl : c.level = x.prev) (h0 : 0 < c.level)
      (hnews : (membersOf nm k c x).news ≠ ∅) :
      MembersEnd nm k s c x (.done { x with out := { x.out with
        fires := x.out.fires ++ [⟨.news, c.level, (membersOf nm k c x).new⟩]
        fireApply := x.out.fireApply ++ onlyIf (x.st.hush ≠ none) .hush ++
          tellMembers s c (membersOf nm k c x).new (membersOf nm k c x).told (toldTop x) } })
  /-- Members that are gone, or that were told before. -/
  | resig (h : k ∈ tracksMembers) (hl : c.level = x.prev)
      (hnews : 0 < c.level → (membersOf nm k c x).news = ∅) :
      MembersEnd nm k s c x (.done { x with st := { x.st with
        sig := (membersOf nm k c x).new
        told := if 0 < c.level ∧ x.st.told = ∅ then (membersOf nm k c x).told else x.st.told } })
  | still (h : k ∈ tracksMembers) (hl : c.level = x.prev)
      (hnews : 0 < c.level → (membersOf nm k c x).news = ∅)
      (hsame : (membersOf nm k c x).new = (membersOf nm k c x).old) :
      MembersEnd nm k s c x (.done x)
  /-- Back up to a level that was told, with nobody new. -/
  | climb (h : k ∈ tracksMembers) (hlt : x.prev < c.level) (hp : 0 < x.prev)
      (htop : c.level ≤ toldTop x) (hnews : (membersOf nm k c x).news = ∅) :
      MembersEnd nm k s c x (.done { x with st := { x.st with
        level := c.level, sig := (membersOf nm k c x).new
        told := (membersOf nm k c x).told ∪ (membersOf nm k c x).new } })
  | rise (h : k ∈ tracksMembers) (hlt : x.prev < c.level)
      (hnew : 0 < x.prev → c.level ≤ toldTop x → (membersOf nm k c x).news ≠ ∅) :
      MembersEnd nm k s c x (.next { x with out := { x.out with
        fireApply := x.out.fireApply ++
          tellMembers s c (membersOf nm k c x).new (membersOf nm k c x).told (toldTop x) } })
  | lower (h : k ∈ tracksMembers) (hlt : c.level < x.prev) (h0 : 0 < c.level) :
      MembersEnd nm k s c x (.next { x with st := { x.st with
        sig := (membersOf nm k c x).new
        told := (membersOf nm k c x).told ∪ (membersOf nm k c x).new } })
  | zero (h : k ∈ tracksMembers) (hp : 0 < x.prev) (hl : c.level = 0) :
      MembersEnd nm k s c x (.next { x with out := { x.out with
        recApply := x.out.recApply ++ [.sig ∅, .told ∅, .toldLvl 0] } })

theorem membersBlock_end : MembersEnd nm k s c x (membersBlock nm k s c x) := by
  unfold membersBlock
  by_cases hk : k ∈ tracksMembers
  swap
  · rw [if_pos hk]
    exact .untracked hk
  rw [if_neg (not_not.2 hk)]
  dsimp only
  split
  · rename_i h
    exact .policy hk h.1 h.2.1 h.2.2.1 h.2.2.2
  split
  · rename_i hl
    split
    · rename_i hnews
      split
      · rename_i hs
        obtain ⟨t, ht, hshort⟩ := (Option.any_eq_true _ _).1 hs.2
        exact .story hk hl hnews.1 hnews.2 hs.1 t ht (by simpa using hshort)
      · exact .news hk hl hnews.1 hnews.2
    · rename_i hnews
      have hno : 0 < c.level → (membersOf nm k c x).news = ∅ := fun h0 =>
        not_not.1 fun hne => hnews ⟨h0, hne⟩
      split
      · exact .resig hk hl hno
      · rename_i hsame
        exact .still hk hl hno (not_not.1 hsame)
  rename_i hne
  split
  · rename_i h
    exact .climb hk h.1 h.2.1 h.2.2.1 h.2.2.2
  rename_i hclimb
  split
  · rename_i hlt
    exact .rise hk hlt fun hp htop hnews => hclimb ⟨hlt, hp, htop, hnews⟩
  split
  · rename_i h0
    exact .lower hk (by omega) h0
  · exact .zero hk (by omega) (by omega)

/-- A lack of memory ends the silence of a routine. -/
theorem thrashBlock_end : thrashBlock k c x = .next x ∧
      ¬ (isThrash k c = true ∧ x.st.quiet.isSome = true) ∨
    thrashBlock k c x = .next { x with st := { x.st with quiet := none }, prev := 0 } ∧
      isThrash k c = true ∧ x.st.quiet.isSome = true := by
  unfold thrashBlock
  split
  · rename_i h
    exact .inr ⟨rfl, h⟩
  · rename_i h
    exact .inl ⟨rfl, h⟩

inductive RoutineEnd (k : Kind) (s : Seen) (c : Cond) (x : Carry) : BodyFlow Carry → Prop
  | off (h : k ∉ routineKinds ∨ isThrash k c = true) : RoutineEnd k s c x (.next x)
  /-- Only the hold of the recovery is left of the episode. -/
  | cools (h : k ∈ routineKinds) (hl : 0 < c.level) (hp : 0 < x.prev)
      (hheld : heldOnly c.ctx = true) (hq : x.st.quiet = none) :
      RoutineEnd k s c x (.next { x with st := { x.st with
        hist := routineEnd x.st.hist (c.ctx.cool.getD s.now) } })
  | coolsQuiet (h : k ∈ routineKinds) (hl : 0 < c.level) (hp : 0 < x.prev)
      (hheld : heldOnly c.ctx = true) (t : Time) (hq : x.st.quiet = some t) :
      RoutineEnd k s c x (.done { x with st := { x.st with
        hist := routineEnd x.st.hist (c.ctx.cool.getD s.now) } })
  /-- A new episode, at its usual time: it is held. -/
  | held (h : k ∈ routineKinds) (hl : 0 < c.level) (hp : x.prev = 0) (r : Time × Time)
      (hr : routineOf (routineStart x.st.hist s.now).dropLast s.now = some r)
      (hno : isThrash k c = false) :
      RoutineEnd k s c x (.done { x with st := { x.st with
        hist := routineStart x.st.hist s.now, level := c.level
        quiet := some (r.2 + routineOver) } })
  | begins (h : k ∈ routineKinds) (hl : 0 < c.level) (hp : x.prev = 0)
      (hr : routineOf (routineStart x.st.hist s.now).dropLast s.now = none)
      (hno : isThrash k c = false) :
      RoutineEnd k s c x (.next { x with st := { x.st with
        hist := routineStart x.st.hist s.now } })
  /-- The held episode is within its usual time. -/
  | usual (h : k ∈ routineKinds) (hl : 0 < c.level) (hp : 0 < x.prev)
      (hheld : heldOnly c.ctx = false) (t : Time) (hq : x.st.quiet = some t) (ht : s.now < t) :
      RoutineEnd k s c x (.done { x with st := { x.st with
        hist := routineOpen x.st.hist x.st.begun, level := c.level } })
  | overrun (h : k ∈ routineKinds) (hl : 0 < c.level) (hp : 0 < x.prev)
      (hheld : heldOnly c.ctx = false) (t : Time) (hq : x.st.quiet = some t) (ht : t ≤ s.now) :
      RoutineEnd k s c x (.next { x with
        st := { x.st with hist := routineOpen x.st.hist x.st.begun, quiet := none }
        prev := 0 })
  | goesOn (h : k ∈ routineKinds) (hl : 0 < c.level) (hp : 0 < x.prev)
      (hheld : heldOnly c.ctx = false) (hq : x.st.quiet = none) :
      RoutineEnd k s c x (.next { x with st := { x.st with
        hist := routineOpen x.st.hist x.st.begun } })
  /-- The held episode is over, without a word. -/
  | quietEnd (h : k ∈ routineKinds) (hl : c.level = 0) (hp : 0 < x.prev) (t : Time)
      (hq : x.st.quiet = some t) :
      RoutineEnd k s c x (.done { x with st := { x.st with
        hist := routineEnd x.st.hist s.now, level := 0, quiet := none } })
  | ends (h : k ∈ routineKinds) (hl : c.level = 0) (hp : 0 < x.prev) (hq : x.st.quiet = none) :
      RoutineEnd k s c x (.next { x with st := { x.st with
        hist := routineEnd x.st.hist s.now } })
  | none (h : k ∈ routineKinds) (hl : c.level = 0) (hp : x.prev = 0) :
      RoutineEnd k s c x (.next x)

theorem routineBlock_end : RoutineEnd k s c x (routineBlock k s c x) := by
  unfold routineBlock
  by_cases hk : k ∈ routineKinds ∧ ¬ isThrash k c = true
  swap
  · rw [if_neg hk]
    refine .off ?_
    by_contra hno
    push Not at hno
    exact hk ⟨hno.1, hno.2⟩
  rw [if_pos hk]
  obtain ⟨hk, hno⟩ := hk
  have hno : isThrash k c = false := by simpa using hno
  unfold routineHold
  by_cases h1 : 0 < c.level ∧ 0 < x.prev ∧ heldOnly c.ctx = true
  · -- the trouble is gone, the level is held
    obtain ⟨hl, hp, hheld⟩ := h1
    rw [if_pos ⟨hl, hp, hheld⟩]
    dsimp only
    by_cases hq : x.st.quiet.isSome = true
    · rw [if_pos hq]
      obtain ⟨t, ht⟩ := Option.isSome_iff_exists.1 hq
      exact .coolsQuiet hk hl hp hheld t ht
    · rw [if_neg hq]
      have hq0 : x.st.quiet = none := by simpa using hq
      have hl0 : c.level ≠ 0 := by omega
      simpa [routineOverrun, hq0, hl0] using RoutineEnd.cools hk hl hp hheld hq0 (s := s)
  rw [if_neg h1]
  by_cases h2 : 0 < c.level ∧ x.prev = 0
  · -- a new episode
    obtain ⟨hl, hp⟩ := h2
    have hl0 : c.level ≠ 0 := by omega
    rw [if_pos ⟨hl, hp⟩]
    dsimp only
    cases hr : routineOf (routineStart x.st.hist s.now).dropLast s.now with
    | some r => exact .held hk hl hp r hr hno
    | none =>
      have hend : routineOverrun s c
          { x with st := { x.st with hist := routineStart x.st.hist s.now } } =
            .next { x with st := { x.st with hist := routineStart x.st.hist s.now } } := by
        unfold routineOverrun
        cases hq : x.st.quiet <;> simp [hq, hp]
      dsimp only
      rw [BodyFlow.bind_next, hend]
      exact .begins hk hl hp hr hno
  rw [if_neg h2]
  by_cases hl : 0 < c.level
  · have hp : 0 < x.prev := by omega
    have hheld : heldOnly c.ctx = false := by
      by_contra hno
      exact h1 ⟨hl, hp, by simpa using hno⟩
    have hl0 : c.level ≠ 0 := by omega
    rw [if_pos hl, BodyFlow.bind_next]
    unfold routineOverrun
    cases hq : x.st.quiet with
    | none =>
      simpa [hl0] using RoutineEnd.goesOn hk hl hp hheld hq (s := s)
    | some t =>
      dsimp only
      rw [if_pos ⟨hl, hp, by simp [hheld]⟩]
      split
      · exact .usual hk hl hp hheld t hq ‹_›
      · exact .overrun hk hl hp hheld t hq (not_lt.1 ‹_›)
  · have h0 : c.level = 0 := by omega
    rw [if_neg hl, BodyFlow.bind_next]
    unfold routineOverrun
    by_cases hp : 0 < x.prev
    · cases hq : x.st.quiet with
      | none => simpa [h0, hp] using RoutineEnd.ends hk h0 hp hq (s := s)
      | some t => simpa [h0, hp] using RoutineEnd.quietEnd hk h0 hp t hq (s := s)
    · have hp0 : x.prev = 0 := by omega
      have := RoutineEnd.none hk h0 hp0 (s := s)
      cases hq : x.st.quiet <;> simpa [h0, hp] using this

inductive SameEnd (k : Kind) (c : Cond) (top : Nat) (x : Carry) : BodyFlow Carry → Prop
  | same (h : c.level = x.prev) : SameEnd k c top x (.done x)
  /-- Back up to a level that was told. -/
  | climb (hk : k ∉ tracksMembers) (hlt : x.prev < c.level) (hp : 0 < x.prev)
      (htop : c.level ≤ top ∨ k = .diskSlow) (hcause : causesOf k c \ causesTold k x = ∅) :
      SameEnd k c top x (.done { x with st := { x.st with
        level := c.level, toldLvl := max top c.level } })
  | pass (hne : c.level ≠ x.prev)
      (hup : k ∉ tracksMembers → x.prev < c.level → 0 < x.prev →
        (top < c.level ∧ k ≠ .diskSlow) ∨ causesOf k c \ causesTold k x ≠ ∅) :
      SameEnd k c top x (.next x)

theorem sameBlock_end (top : Nat) : SameEnd k c top x (sameBlock k c top x) := by
  unfold sameBlock
  split
  · exact .same ‹_›
  rename_i hne
  split
  · rename_i h
    exact .climb h.1 h.2.1 h.2.2.1 h.2.2.2.1 h.2.2.2.2
  · rename_i h
    refine .pass hne fun hk hlt hp => ?_
    by_cases hcause : causesOf k c \ causesTold k x = ∅
    · left
      by_contra hno
      refine h ⟨hk, hlt, hp, ?_, hcause⟩
      by_cases hd : k = .diskSlow
      · exact .inr hd
      · exact .inl (not_lt.1 fun hlt => hno ⟨hlt, hd⟩)
    · exact .inr hcause

/-! ## The report of the change -/

/-- The entry passes through the flap guard of the metrics. -/
def guarded (k : Kind) (c : Cond) (x : Carry) : Prop :=
  x.prev = 0 ∧ k ∈ flapMetricKinds ∧
    ¬ (k ∈ [Kind.disk, .inode] ∧ (fillCrit ≤ c.level ∨ c.ctx.fast = true))

inductive ReportEnd (k : Kind) (s : Seen) (c : Cond) (top : Nat) (x : Carry) : Carry → Prop
  /-- An entry within a muted series. -/
  | swallowed (hlt : x.prev < c.level) (hg : guarded k c x) (hm : x.st.flap.muted = true) :
      ReportEnd k s c top x
        { x with
          st := { x.st with flap := { x.st.flap with last := some s.now } }
          out := { x.out with fireApply := x.out.fireApply ++ [.level c.level] } }
  | series (hlt : x.prev < c.level) (hg : guarded k c x) (hm : x.st.flap.muted = false)
      (hfull : x.st.flap.metricFull k s.now) :
      ReportEnd k s c top x
        { x with
          st := { x.st with flap := { x.st.flap.metricCounted s.now with muted := true } }
          out := { x.out with
            fires := x.out.fires ++ [⟨.flapping, 1, ∅⟩]
            fireApply := x.out.fireApply ++ [.level c.level] } }
  | alert (hlt : x.prev < c.level) (st : KindSt)
      (hst : ¬ guarded k c x ∧ st = x.st ∨
        x.st.flap.muted = false ∧ st = { x.st with flap := x.st.flap.metricCounted s.now }) :
      ReportEnd k s c top x
        { x with
          st := st
          out := { x.out with
            fires := x.out.fires ++ [⟨.alert, c.level, whoOf c.ctx⟩]
            fireApply := x.out.fireApply ++ alertWrites k s c top { x with st := st } } }
  /-- The metric is back within a muted series. -/
  | backMuted (hl : c.level = 0) (hk : k ∈ flapMetricKinds) (hm : x.st.flap.muted = true) :
      ReportEnd k s c top x { x with st := { x.st with level := 0, toldLvl := 0 } }
  | backSilent (hl : c.level = 0) (hk : k ∈ silentRecovery) :
      ReportEnd k s c top x
        { x with st := { x.st with
          level := 0, toldLvl := 0
          growthAt := if k = .backupGrowth then none else x.st.growthAt } }
  /-- The monitors behind the server have not been checked yet. -/
  | backWaits (hl : c.level = 0) (hk : k = .offline) :
      ReportEnd k s c top x { x with st := { x.st with offBack := x.st.offBack.or (some s.now) } }
  | back (hl : c.level = 0) (hm : ¬ (k ∈ flapMetricKinds ∧ x.st.flap.muted = true))
      (hk : k ∉ silentRecovery) :
      ReportEnd k s c top x { x with out := { x.out with
        recs := x.out.recs ++ [⟨.recovery, 0, ∅⟩]
        recApply := x.out.recApply ++ recoveryWrites k s x } }
  | lower (hl : 0 < c.level) (hle : c.level ≤ x.prev) (hc : c.ctx.complete = true) :
      ReportEnd k s c top x { x with st := { x.st with level := c.level } }
  | keeps (hl : 0 < c.level) (hle : c.level ≤ x.prev) (hc : c.ctx.complete = false) :
      ReportEnd k s c top x x

theorem riseBlock_end {top : Nat} (hlt : x.prev < c.level) :
    ReportEnd k s c top x (riseBlock k s c top x) := by
  unfold riseBlock
  by_cases hg : guarded k c x
  · have hg' := hg
    unfold guarded at hg'
    dsimp only
    rw [if_pos hg']
    cases hm : x.st.flap.muted with
    | true =>
      rw [flapMetric_muted hm]
      simpa using ReportEnd.swallowed hlt hg hm (s := s)
    | false =>
      by_cases hfull : x.st.flap.metricFull k s.now
      · rw [flapMetric_full hfull hm]
        simpa using ReportEnd.series hlt hg hm hfull
      · rw [flapMetric_rare hfull hm]
        simpa using ReportEnd.alert hlt _ (.inr ⟨hm, rfl⟩) (s := s)
  · have hg' := hg
    unfold guarded at hg'
    dsimp only
    rw [if_neg hg']
    simpa using ReportEnd.alert hlt _ (.inl ⟨hg, rfl⟩) (s := s)

theorem reportBlock_end (top : Nat) :
    ∃ y, reportBlock k s c top x = .done y ∧ ReportEnd k s c top x y := by
  unfold reportBlock
  refine ⟨_, rfl, ?_⟩
  split
  · exact riseBlock_end ‹_›
  rename_i hle
  split
  · rename_i hl
    unfold zeroBlock
    split
    · rename_i h
      exact .backMuted hl h.1 h.2
    rename_i hm
    split
    · exact .backSilent hl ‹_›
    split
    · rename_i h
      exact .backWaits hl h.1
    · exact .back hl hm ‹_›
  · rename_i hl
    unfold lowerBlock
    split
    · exact .lower (by omega) (by omega) ‹_›
    · exact .keeps (by omega) (by omega) (by simpa using ‹¬ c.ctx.complete = true›)

/-! ## The whole body -/

inductive LinkPass (k : Kind) (s : Seen) (c : Cond) (x : Carry) : BodyFlow Carry → Prop
  | other (h : k ≠ .offline ∨ c.level = 0 ∧ x.st.offSaid = true) : LinkPass k s c x (.next x)
  | rare (h : k = .offline) (hsaid : ¬ (c.level = 0 ∧ x.st.offSaid = true))
      (hfull : ¬ x.st.flap.full s.now) :
      LinkPass k s c x (.next { x with st := { x.st with flap := x.st.flap.counted s.now } })
  | swallowed (h : k = .offline) (hsaid : ¬ (c.level = 0 ∧ x.st.offSaid = true))
      (hfull : x.st.flap.full s.now) (hm : x.st.flap.muted = true) :
      LinkPass k s c x (.done
        { x with
          st := { x.st with flap := x.st.flap.counted s.now }
          out := { x.out with fireApply := x.out.fireApply ++ [.level c.level] } })
  | series (h : k = .offline) (hsaid : ¬ (c.level = 0 ∧ x.st.offSaid = true))
      (hfull : x.st.flap.full s.now) (hm : x.st.flap.muted = false) :
      LinkPass k s c x (.done
        { x with
          st := { x.st with flap := { x.st.flap.counted s.now with muted := true } }
          out := { x.out with
            fires := x.out.fires ++ [⟨.flapping, 2, ∅⟩]
            fireApply := x.out.fireApply ++ [.level c.level] } })

theorem linkBlock_end : LinkPass k s c x (linkBlock k s c x) := by
  unfold linkBlock
  split
  · rename_i h
    obtain ⟨hk, hsaid⟩ := h
    by_cases hfull : x.st.flap.full s.now
    · cases hm : x.st.flap.muted with
      | true =>
        rw [flapping_muted hfull hm]
        simpa using LinkPass.swallowed hk hsaid hfull hm
      | false =>
        rw [flapping_full hfull hm]
        simpa using LinkPass.series hk hsaid hfull hm
    · rw [flapping_rare hfull]
      simpa using LinkPass.rare hk hsaid hfull
  · rename_i h
    refine .other ?_
    by_contra hno
    push Not at hno
    exact h ⟨hno.1, fun h' => hno.2 h'.1 h'.2⟩

/-- The level to compare with. -/
def PrevOf (k : Kind) (c : Cond) (b : Carry) (p : Nat) : Prop :=
  p = b.st.level ∨ p = 0 ∧ k = .backupGrowth ∧ 0 < c.level ∧ 0 < b.st.level

/-- The body has come from `b` to the members with `x`. -/
structure AtMembers (k : Kind) (s : Seen) (c : Cond) (b x : Carry) : Prop where
  pass : GatesEnd k s c b (.next b)
  fix : fixNow k s = false
  settle : ∃ p, PrevOf k c b p ∧ SettleEnd k s c { b with prev := p } (.next x)

/-- What the end of a routine does to the carry. -/
inductive ThrashPass (k : Kind) (c : Cond) (x : Carry) : Carry → Prop
  | none (h : ¬ (isThrash k c = true ∧ x.st.quiet.isSome = true)) : ThrashPass k c x x
  | lifts (h : isThrash k c = true) (hq : x.st.quiet.isSome = true) :
      ThrashPass k c x { x with st := { x.st with quiet := .none }, prev := 0 }

/-- The body has come from the members with `x` to the level with `z`. -/
structure AtLevel (nm : Norms) (k : Kind) (s : Seen) (c : Cond) (x z : Carry) : Prop where
  path : ∃ y y', MembersEnd nm k s c x (.next y) ∧ ThrashPass k c y y' ∧
    RoutineEnd k s c y' (.next z)

/-- The ways through the body of the loop, from `b` to its end. -/
inductive BodyEnd (nm : Norms) (k : Kind) (s : Seen) (c : Cond) (b : Carry) : Carry → Prop
  | gates (y : Carry) (hg : gates k s c b = .done y) (h : GatesEnd k s c b (.done y)) :
      BodyEnd nm k s c b y
  | fixed (hpass : GatesEnd k s c b (.next b)) (p : Nat) (hp : PrevOf k c b p) (y : Carry)
      (h : FixedEnd k s { b with prev := p } (.done y)) : BodyEnd nm k s c b y
  | settle (hpass : GatesEnd k s c b (.next b)) (hfix : fixNow k s = false) (p : Nat)
      (hp : PrevOf k c b p) (y : Carry) (h : SettleEnd k s c { b with prev := p } (.done y)) :
      BodyEnd nm k s c b y
  | night (x : Carry) (hx : AtMembers k s c b x) (hl : 0 < c.level) (hk : k ∈ daytimeKinds) :
      BodyEnd nm k s c b x
  | members (x : Carry) (hx : AtMembers k s c b x) (y : Carry)
      (h : MembersEnd nm k s c x (.done y)) : BodyEnd nm k s c b y
  | routine (x : Carry) (hx : AtMembers k s c b x) (y y' : Carry)
      (hm : MembersEnd nm k s c x (.next y)) (ht : ThrashPass k c y y') (z : Carry)
      (h : RoutineEnd k s c y' (.done z)) : BodyEnd nm k s c b z
  | same (x : Carry) (hx : AtMembers k s c b x) (z : Carry) (hz : AtLevel nm k s c x z) (w : Carry)
      (h : SameEnd k c (toldTop x) z (.done w)) : BodyEnd nm k s c b w
  | link (x : Carry) (hx : AtMembers k s c b x) (z : Carry) (hz : AtLevel nm k s c x z)
      (hs : SameEnd k c (toldTop x) z (.next z)) (w : Carry) (h : LinkPass k s c z (.done w)) :
      BodyEnd nm k s c b w
  | report (x : Carry) (hx : AtMembers k s c b x) (z : Carry) (hz : AtLevel nm k s c x z)
      (hs : SameEnd k c (toldTop x) z (.next z)) (w : Carry) (hw : LinkPass k s c z (.next w))
      (v : Carry) (h : ReportEnd k s c (toldTop x) w v) : BodyEnd nm k s c b v

theorem loopTail_end {b : Carry} (hx : AtMembers k s c b x) :
    BodyEnd nm k s c b (loopTail nm k s c x).out := by
  have hm : MembersEnd nm k s c x (membersBlock nm k s c x) := membersBlock_end
  unfold loopTail
  generalize membersBlock nm k s c x = m at hm ⊢
  cases m with
  | done y => exact .members x hx y hm
  | next y =>
    rw [BodyFlow.bind_next]
    obtain ⟨y', hy', ht⟩ : ∃ y', thrashBlock k c y = .next y' ∧ ThrashPass k c y y' := by
      rcases thrashBlock_end (k := k) (c := c) (x := y) with ⟨h, hno⟩ | ⟨h, hi, hq⟩
      · exact ⟨_, h, .none hno⟩
      · exact ⟨_, h, .lifts hi hq⟩
    rw [hy', BodyFlow.bind_next]
    have hr := routineBlock_end (k := k) (s := s) (c := c) (x := y')
    generalize routineBlock k s c y' = r at hr ⊢
    cases r with
    | done z => exact .routine x hx y y' hm ht z hr
    | next z =>
      have hz : AtLevel nm k s c x z := ⟨y, y', hm, ht, hr⟩
      rw [BodyFlow.bind_next]
      have hs := sameBlock_end (k := k) (c := c) (x := z) (toldTop x)
      generalize sameBlock k c (toldTop x) z = q at hs ⊢
      cases hs with
      | same h => exact .same x hx z hz _ (.same h)
      | climb h1 h2 h3 h4 h5 => exact .same x hx z hz _ (.climb h1 h2 h3 h4 h5)
      | pass h1 h2 =>
        rw [BodyFlow.bind_next]
        have hl := linkBlock_end (k := k) (s := s) (c := c) (x := z)
        generalize linkBlock k s c z = l at hl ⊢
        cases l with
        | done w => exact .link x hx z hz (.pass h1 h2) w hl
        | next w =>
          rw [BodyFlow.bind_next]
          obtain ⟨v, hv, hrep⟩ := reportBlock_end (k := k) (s := s) (c := c) (x := w) (toldTop x)
          rw [hv]
          exact .report x hx z hz (.pass h1 h2) w hl v hrep

theorem loopBody_end (nm : Norms) (k : Kind) (s : Seen) (c : Cond) (b : Carry) :
    BodyEnd nm k s c b (loopBody nm k s c b).out := by
  have hg := gates_end (k := k) (s := s) (c := c) (x := b)
  unfold loopBody
  generalize heq : Kervax.gates k s c b = g at hg ⊢
  cases hg with
  | left => exact .gates _ heq .left
  | muted hm h0 hlt => exact .gates _ heq (.muted hm h0 hlt)
  | pass h1 h2 h3 =>
    have hpass : GatesEnd k s c b (.next b) := .pass h1 h2 h3
    obtain ⟨p, hp, hprev⟩ := startPrev_end (k := k) (s := s) (c := c) (x := b)
    rw [BodyFlow.bind_next, hp, BodyFlow.bind_next]
    have hf := fixedBlock_end (k := k) (s := s) (x := { b with prev := p })
    generalize fixedBlock k s { b with prev := p } = f at hf ⊢
    cases f with
    | done y => exact .fixed hpass p hprev y hf
    | next y =>
      cases hf with
      | pass hfix =>
        rw [BodyFlow.bind_next]
        have hs := settleBlock_end (k := k) (s := s) (c := c) (x := { b with prev := p })
        generalize settleBlock k s c { b with prev := p } = q at hs ⊢
        cases q with
        | done y => exact .settle hpass hfix p hprev y hs
        | next x =>
          have hx : AtMembers k s c b x := ⟨hpass, hfix, p, hprev, hs⟩
          rw [BodyFlow.bind_next]
          rcases nightBlock_end (k := k) (s := s) (c := c) (x := x) with ⟨h, hl, hk⟩ | h
          · rw [h]
            exact .night x hx hl hk
          · rw [h, BodyFlow.bind_next]
            exact loopTail_end hx

/-! ## The whole tick -/

/-- The state as the tick finds the condition: the ends of series, the kinds
that retire, and the calm that nobody confirmed. -/
def prepared (k : Kind) (s : Seen) (st : KindSt) : KindSt :=
  calmReset s (retire k s (liftFlap k s st).1).1

def preparedOut (k : Kind) (s : Seen) (st : KindSt) : Out :=
  { recs := (liftFlap k s st).2, closed := (retire k s (liftFlap k s st).1).2 }

/-- Where the body of the loop begins. -/
def bodyStart (k : Kind) (s : Seen) (c : Cond) (st : KindSt) : Carry :=
  let r := liftDiskMute k s (bookkeep k s c (prepared k s st)) (preparedOut k s st)
  ⟨r.1, r.1.level, r.2⟩

inductive TickEnd (nm : Norms) (k : Kind) (s : Seen) (st : KindSt) : KindSt × Out → Prop
  /-- The server is new, or its evaluation raised. -/
  | skip (h : s.skip = true) : TickEnd nm k s st (st, {})
  | unseenQuiet (h : s.skip = false) (hc : condNow k s = none) (hq : s.quietSrv = true) :
      TickEnd nm k s st (prepared k s st, preparedOut k s st)
  | unseen (h : s.skip = false) (hc : condNow k s = none) (hq : s.quietSrv = false) :
      TickEnd nm k s st (liftDiskMute k s (prepared k s st) (preparedOut k s st))
  | quiet (h : s.skip = false) (c : Cond) (hc : condNow k s = some c) (hq : s.quietSrv = true) :
      TickEnd nm k s st
        (quietTick k s c (bookkeep k s c (prepared k s st)) (preparedOut k s st))
  | body (h : s.skip = false) (c : Cond) (hc : condNow k s = some c) (hq : s.quietSrv = false) :
      TickEnd nm k s st
        ((loopBody nm k s c (bodyStart k s c st)).out.st,
          (loopBody nm k s c (bodyStart k s c st)).out.out)

theorem kindTick_end (nm : Norms) (k : Kind) (s : Seen) (st : KindSt) :
    TickEnd nm k s st (kindTick nm k s st) := by
  unfold kindTick
  cases h : s.skip with
  | true => exact .skip h
  | false =>
    simp only [Bool.false_eq_true, if_false]
    cases hc : condNow k s with
    | none =>
      cases hq : s.quietSrv with
      | true => exact .unseenQuiet h hc hq
      | false => exact .unseen h hc hq
    | some c =>
      cases hq : s.quietSrv with
      | true => exact .quiet h c hc hq
      | false => exact .body h c hc hq

/-- The mute of a disk is lifted, or nothing is. -/
theorem liftDiskMute_end (st : KindSt) (out : Out) :
    liftDiskMute k s st out = (st, out) ∨
      k = .diskHealth ∧ s.diskLift = true ∧ liftDiskMute k s st out =
        ({ st with level := 0, sig := ∅, told := ∅, toldLvl := 0 },
          { out with recs := out.recs ++ [⟨.muteLift, 0, ∅⟩] }) := by
  unfold liftDiskMute
  split
  · rename_i h
    exact .inr ⟨h.1, h.2, rfl⟩
  · exact .inl rfl

inductive QuietEnd (k : Kind) (s : Seen) (c : Cond) (st : KindSt) (out : Out) :
    KindSt × Out → Prop
  | still : QuietEnd k s c st out (st, out)
  /-- The level goes down unseen. -/
  | lower (hlt : c.level < st.level)
      (hsure : k = .offline ∨ s.talking = true ∧ s.fresh = true ∧ s.epoch = false ∧
        c.ctx.complete = true)
      (h : c.level ≠ 0 ∨ k ∈ silentRecovery ∨ k ∈ flapMetricKinds ∧ st.flap.muted = true) :
      QuietEnd k s c st out ({ st with level := c.level }, out)
  | back (hlt : c.level < st.level)
      (hsure : k = .offline ∨ s.talking = true ∧ s.fresh = true ∧ s.epoch = false ∧
        c.ctx.complete = true)
      (h0 : c.level = 0) (hk : k ∉ silentRecovery)
      (hm : ¬ (k ∈ flapMetricKinds ∧ st.flap.muted = true)) :
      QuietEnd k s c st out
        (st, { out with
          recs := out.recs ++ [⟨.recovery, 0, ∅⟩]
          recApply := out.recApply ++ closedTail k st })

theorem quietTick_end (st : KindSt) (out : Out) :
    QuietEnd k s c st out (quietTick k s c st out) := by
  unfold quietTick
  split
  · exact .still
  rename_i h1
  split
  · exact .still
  rename_i h2
  have hlt : c.level < st.level := by
    by_contra hno
    exact h1 (.inr (by omega))
  have hsure : k = .offline ∨ s.talking = true ∧ s.fresh = true ∧ s.epoch = false ∧
      c.ctx.complete = true := by
    by_cases hk : k = .offline
    · exact .inl hk
    · refine .inr ⟨?_, ?_, ?_, ?_⟩
      · by_contra hno
        exact h1 (.inl ⟨hno, hk⟩)
      · by_contra hno
        exact h2 ⟨hk, .inl hno⟩
      · by_contra hno
        exact h2 ⟨hk, .inr (.inl (by simpa using hno))⟩
      · by_contra hno
        exact h2 ⟨hk, .inr (.inr hno)⟩
  split
  · exact .lower hlt hsure ‹_›
  · rename_i h3
    push Not at h3
    exact .back hlt hsure h3.1 h3.2.1 fun hm => h3.2.2 hm.1 hm.2

end Kervax
