-- Runs of a machine over a list of inputs: what every step keeps, every run
-- keeps. Nothing here is about a program.
import Mathlib.Data.List.Basic
import Mathlib.Data.List.Induction

namespace Runs

variable {σ ι : Type} (step : σ → ι → σ)

/-- The state after the inputs. -/
def run (s : σ) (is : List ι) : σ := is.foldl step s

@[simp] theorem run_nil (s : σ) : run step s [] = s := rfl

@[simp] theorem run_cons (s : σ) (i : ι) (is : List ι) :
    run step s (i :: is) = run step (step s i) is := rfl

@[simp] theorem run_snoc (s : σ) (is : List ι) (i : ι) :
    run step s (is ++ [i]) = step (run step s is) i := by
  simp [run]

/-- Every step of the run, taken from the state it is reached in, meets `C`. -/
def Along (C : σ → ι → Prop) (s : σ) : List ι → Prop
  | [] => True
  | i :: is => C s i ∧ Along C (step s i) is

variable {step}

/-- A condition that can be checked at a step can be checked along a run. -/
instance decidableAlong {C : σ → ι → Prop} [∀ s i, Decidable (C s i)] (s : σ) :
    ∀ is, Decidable (Along step C s is)
  | [] => inferInstanceAs (Decidable True)
  | i :: is =>
    have : Decidable (Along step C (step s i) is) := decidableAlong _ is
    inferInstanceAs (Decidable (C s i ∧ Along step C (step s i) is))

theorem along_append {C : σ → ι → Prop} {s : σ} {is js : List ι} :
    Along step C s (is ++ js) ↔ Along step C s is ∧ Along step C (run step s is) js := by
  induction is generalizing s with
  | nil => simp [Along]
  | cons i is ih => simp [Along, ih, and_assoc]

theorem along_snoc {C : σ → ι → Prop} {s : σ} {is : List ι} {i : ι} :
    Along step C s (is ++ [i]) ↔ Along step C s is ∧ C (run step s is) i := by
  rw [along_append]
  simp [Along]

theorem Along.mono {C D : σ → ι → Prop} (h : ∀ s i, C s i → D s i) {s : σ} {is : List ι}
    (ha : Along step C s is) : Along step D s is := by
  induction is generalizing s with
  | nil => trivial
  | cons i is ih => exact ⟨h s i ha.1, ih ha.2⟩

theorem Along.and {C D : σ → ι → Prop} {s : σ} {is : List ι} (hc : Along step C s is)
    (hd : Along step D s is) : Along step (fun s i => C s i ∧ D s i) s is := by
  induction is generalizing s with
  | nil => trivial
  | cons i is ih => exact ⟨⟨hc.1, hd.1⟩, ih hc.2 hd.2⟩

/-- The invariant rule: what holds at the start and is kept by every step that
meets `C` holds after every run along `C`. -/
theorem inv_run {I : σ → Prop} {C : σ → ι → Prop} {s : σ} {is : List ι} (h0 : I s)
    (hstep : ∀ s i, I s → C s i → I (step s i)) (ha : Along step C s is) :
    I (run step s is) := by
  induction is generalizing s with
  | nil => exact h0
  | cons i is ih => exact ih (hstep s i h0 ha.1) ha.2

/-- The invariant rule for a machine that always keeps the invariant. -/
theorem run_of_inv {I : σ → Prop} {s : σ} (h0 : I s) (hstep : ∀ s i, I s → I (step s i))
    (is : List ι) : I (run step s is) := by
  induction is generalizing s with
  | nil => exact h0
  | cons i is ih => exact ih (hstep s i h0)

/-- The invariant rule at a step: before each step along `C` the invariant
holds, and so what it says of the step. -/
theorem step_of_run {I : σ → Prop} {C P : σ → ι → Prop} {s : σ} {is : List ι} (h0 : I s)
    (hstep : ∀ s i, I s → C s i → I (step s i)) (hP : ∀ s i, I s → C s i → P s i)
    (ha : Along step C s is) : Along step P s is := by
  induction is generalizing s with
  | nil => trivial
  | cons i is ih => exact ⟨hP s i h0 ha.1, ih (hstep s i h0 ha.1) ha.2⟩

/-- The same where every step keeps the invariant. -/
theorem along_of_inv {I : σ → Prop} {P : σ → ι → Prop} {s : σ} (h0 : I s)
    (hstep : ∀ s i, I s → I (step s i)) (hP : ∀ s i, I s → P s i) (is : List ι) :
    Along step P s is := by
  induction is generalizing s with
  | nil => trivial
  | cons i is ih => exact ⟨hP s i h0, ih (hstep s i h0)⟩

end Runs
