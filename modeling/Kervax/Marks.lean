-- What the batches of writes of a tick do to the marks of an episode: its
-- level, whether it is a silent repeat, held by the routine, or an outage that
-- was told.
import Kervax.KindEnds

namespace Kervax

variable {k : Kind} {s : Seen} {c : Cond} {st : KindSt} {x : Carry}

/-! ## Batches -/

/-- What an onboarding withholds counts as delivered: then a batch is done as
a whole or not at all. -/
theorem commit_whole {onb ack : Bool} {ws : List KWrite} (h : onb = true → ack = true) :
    commit k onb ack ws st = if ack then applyAll ws st else st := by
  cases ack with
  | true => exact commit_ack k onb ws st
  | false =>
    cases onb with
    | true => exact absurd (h rfl) (by simp)
    | false => exact commit_pending k ws st

/-- A field that no write of the batch names is left as it is. -/
theorem applyAll_field {β : Type} (f : KindSt → β) {ws : List KWrite}
    (h : ∀ w ∈ ws, ∀ st, f (w.set st) = f st) (st : KindSt) : f (applyAll ws st) = f st := by
  induction ws generalizing st with
  | nil => rfl
  | cons w ws ih =>
    rw [applyAll_cons, ih fun v hv => h v (List.mem_cons_of_mem _ hv)]
    exact h w List.mem_cons_self st

/-- The marks of an episode. -/
structure Marks where
  level : Nat
  hush : Option Time
  quiet : Option Time
  offSaid : Bool
deriving DecidableEq

def KindSt.marks (st : KindSt) : Marks := ⟨st.level, st.hush, st.quiet, st.offSaid⟩

/-! ## The batches of a tick -/

theorem alertWrites_marks (top : Nat) :
    (applyAll (alertWrites k s c top x) st).marks =
      ⟨c.level, if x.st.hush ≠ none then none else st.hush, st.quiet,
        if k = .offline then true else st.offSaid⟩ := by
  simp only [alertWrites, List.flatten_cons, List.flatten_nil, applyAll_append, applyAll_nil,
    applyAll_cons, KindSt.marks, Marks.mk.injEq]
  refine ⟨?_, ?_, ?_, ?_⟩ <;>
    simp only [applyAll_onlyIf, apply_ite KindSt.level, apply_ite KindSt.hush,
      apply_ite KindSt.quiet, apply_ite KindSt.offSaid, KWrite.set, ite_self]

theorem recoveryWrites_marks :
    (applyAll (recoveryWrites k s x) st).marks =
      ⟨0, st.hush, st.quiet, if k = .offline then false else st.offSaid⟩ := by
  simp only [recoveryWrites, List.flatten_cons, List.flatten_nil, applyAll_append, applyAll_nil,
    applyAll_cons, KindSt.marks, Marks.mk.injEq]
  refine ⟨?_, ?_, ?_, ?_⟩ <;> split <;>
    simp only [applyAll_onlyIf, apply_ite KindSt.level, apply_ite KindSt.hush,
      apply_ite KindSt.quiet, apply_ite KindSt.offSaid, KWrite.set, ite_self, applyAll_nil,
      applyAll_cons]

theorem tellMembers_marks (new told : Finset String) (top : Nat) :
    (applyAll (tellMembers s c new told top) st).marks = st.marks := rfl

theorem closedSt_marks (k : Kind) (st : KindSt) :
    (closedSt k st).marks = ⟨0, none, st.quiet, if k = .offline then false else st.offSaid⟩ := by
  unfold closedSt
  dsimp only
  split <;> rfl

theorem fixedTail_marks :
    (applyAll (fixedTail k st) st).marks =
      ⟨0, none, none, if k = .offline then false else st.offSaid⟩ := by
  have hclosed : applyAll (fixedTail k st) st =
      applyAll [onlyIf (st.was ≠ none) (.was none), onlyIf (st.quiet ≠ none) .quiet,
        onlyIf (st.said ≠ none) (.said none)].flatten (closedSt k st) := by
    rw [fixedTail, applyAll_append, applyAll_closedTail]
  have hm := closedSt_marks k st
  rw [hclosed]
  simp only [KindSt.marks, Marks.mk.injEq] at hm ⊢
  obtain ⟨h1, h2, h3, h4⟩ := hm
  refine ⟨?_, ?_, ?_, ?_⟩ <;>
    simp only [List.flatten_cons, List.flatten_nil, applyAll_append, applyAll_nil, applyAll_onlyIf,
      apply_ite KindSt.level, apply_ite KindSt.hush, apply_ite KindSt.quiet,
      apply_ite KindSt.offSaid, KWrite.set, ite_self, h1, h2, h3, h4]
  split
  · rfl
  · rename_i hq
    exact not_not.1 hq

end Kervax
