-- A wave that comes back after its closing: what a closing remembers
-- (`_was_after`), and which alert counts as the same one again (`_again_of`).
import Kervax.AlertState

namespace Kervax

/-- `_again_of`: the closing that this alert goes on from, or nothing when the
alert is a new one. -/
def againOf (st : KindSt) (level : Nat) (sig : Finset String) (now : Time) : Option Was :=
  match st.was with
  | none => none
  | some was =>
    if againS < now - was.ts ∨ againMax < now - was.first then none
    else if was.lvl < level ∨ ¬ sig ⊆ was.sig then none
    else some was

/-- `_was_after`: what a closing remembers. The chain goes on from the last
closing only, however long the wave itself was. -/
def wasAfter (st : KindSt) (prev : Nat) (now : Time) : Was :=
  let told := st.told ∪ st.sig ∪ st.who
  match st.was with
  | none => ⟨now, now, max st.toldLvl prev, told⟩
  | some old =>
    if againS < now - old.ts ∨ old.first = now then ⟨now, now, max st.toldLvl prev, told⟩
    else ⟨now, old.first, max (max st.toldLvl prev) old.lvl, told ∪ old.sig⟩

/-- `_closed_tail`: what is reset together with the recovery of a kind. -/
def closedTail (k : Kind) (st : KindSt) : List KWrite :=
  [[.level 0], onlyIf (st.sig ≠ ∅) (.sig ∅), onlyIf (st.told ≠ ∅) (.told ∅),
    onlyIf (st.toldLvl ≠ 0) (.toldLvl 0), onlyIf (st.calm ≠ none) .calm,
    onlyIf (st.hush ≠ none) .hush, onlyIf (st.who ≠ ∅) (.who ∅),
    if k = .offline then [.offSaid false, .offKids [], .offBack] else []].flatten

/-- The state of a kind that is closed, whatever its tail had to reset. -/
def closedSt (k : Kind) (st : KindSt) : KindSt :=
  let st' := { st with
    level := 0, sig := ∅, told := ∅, toldLvl := 0, calm := none, hush := none, who := ∅ }
  if k = .offline then { st' with offSaid := false, offKids := [], offBack := none } else st'

/-- The tail resets all that it names, also what was empty before. -/
theorem applyAll_closedTail (k : Kind) (st : KindSt) :
    applyAll (closedTail k st) st = closedSt k st := by
  -- each write names a field that the writes before it left alone
  have h1 : ∀ s : KindSt, s.sig = st.sig →
      applyAll (onlyIf (st.sig ≠ ∅) (.sig ∅)) s = { s with sig := ∅ } := by
    intro s h
    refine applyAll_onlyIf_of fun hc => ?_
    rw [not_not, ← h] at hc
    simp [KWrite.set, ← hc]
  have h2 : ∀ s : KindSt, s.told = st.told →
      applyAll (onlyIf (st.told ≠ ∅) (.told ∅)) s = { s with told := ∅ } := by
    intro s h
    refine applyAll_onlyIf_of fun hc => ?_
    rw [not_not, ← h] at hc
    simp [KWrite.set, ← hc]
  have h3 : ∀ s : KindSt, s.toldLvl = st.toldLvl →
      applyAll (onlyIf (st.toldLvl ≠ 0) (.toldLvl 0)) s = { s with toldLvl := 0 } := by
    intro s h
    refine applyAll_onlyIf_of fun hc => ?_
    rw [not_not, ← h] at hc
    simp [KWrite.set, ← hc]
  have h4 : ∀ s : KindSt, s.calm = st.calm →
      applyAll (onlyIf (st.calm ≠ none) .calm) s = { s with calm := none } := by
    intro s h
    refine applyAll_onlyIf_of fun hc => ?_
    rw [not_not, ← h] at hc
    simp [KWrite.set, ← hc]
  have h5 : ∀ s : KindSt, s.hush = st.hush →
      applyAll (onlyIf (st.hush ≠ none) .hush) s = { s with hush := none } := by
    intro s h
    refine applyAll_onlyIf_of fun hc => ?_
    rw [not_not, ← h] at hc
    simp [KWrite.set, ← hc]
  have h6 : ∀ s : KindSt, s.who = st.who →
      applyAll (onlyIf (st.who ≠ ∅) (.who ∅)) s = { s with who := ∅ } := by
    intro s h
    refine applyAll_onlyIf_of fun hc => ?_
    rw [not_not, ← h] at hc
    simp [KWrite.set, ← hc]
  simp only [closedTail, List.flatten_cons, List.flatten_nil, applyAll_append, applyAll_nil,
    applyAll_cons]
  rw [h1 (KWrite.set st (.level 0)) rfl, h2 { KWrite.set st (.level 0) with sig := ∅ } rfl, h3,
    h4, h5, h6]
  · unfold closedSt
    split <;> rfl
  all_goals rfl

end Kervax
