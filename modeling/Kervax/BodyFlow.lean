-- Blocks of a loop body that may leave it early (`continue`), and the rules
-- for what holds where a block ends. Nothing here is about a program.
import Mathlib.Logic.Basic

/-- What a block comes to: the next block goes on, or the body is left. -/
inductive BodyFlow (α : Type)
  | next (a : α)
  | done (a : α)

namespace BodyFlow

variable {α : Type}

def bind (x : BodyFlow α) (f : α → BodyFlow α) : BodyFlow α :=
  match x with
  | .next a => f a
  | .done a => .done a

/-- The state in which the body ends. -/
def out : BodyFlow α → α
  | .next a => a
  | .done a => a

@[simp] theorem bind_next (a : α) (f : α → BodyFlow α) : (next a).bind f = f a := rfl

@[simp] theorem bind_done (a : α) (f : α → BodyFlow α) : (done a).bind f = done a := rfl

@[simp] theorem out_next (a : α) : (next a).out = a := rfl

@[simp] theorem out_done (a : α) : (done a).out = a := rfl

/-- The block ends in `P` where it goes on, and in `Q` where it leaves. -/
def Ends (P Q : α → Prop) : BodyFlow α → Prop
  | .next a => P a
  | .done a => Q a

@[simp] theorem ends_next {P Q : α → Prop} {a : α} : (next a).Ends P Q ↔ P a := Iff.rfl

@[simp] theorem ends_done {P Q : α → Prop} {a : α} : (done a).Ends P Q ↔ Q a := Iff.rfl

/-- Two blocks in a row. -/
theorem Ends.bind {P P' Q : α → Prop} {x : BodyFlow α} {f : α → BodyFlow α} (hx : x.Ends P Q)
    (hf : ∀ a, P a → (f a).Ends P' Q) : (x.bind f).Ends P' Q := by
  rcases x with a | a
  · exact hf a hx
  · exact hx

theorem Ends.mono {P P' Q Q' : α → Prop} {x : BodyFlow α} (hx : x.Ends P Q) (hP : ∀ a, P a → P' a)
    (hQ : ∀ a, Q a → Q' a) : x.Ends P' Q' := by
  rcases x with a | a
  · exact hP a hx
  · exact hQ a hx

/-- Where the ways out of a block are known, each of them is looked at. -/
theorem ends_of {P Q : α → Prop} {E : BodyFlow α → Prop} {x : BodyFlow α} (hx : E x)
    (h : ∀ y, E y → y.Ends P Q) : x.Ends P Q := h x hx

/-- The end of the whole body. -/
theorem Ends.out {Q : α → Prop} {x : BodyFlow α} (hx : x.Ends Q Q) : Q x.out := by
  rcases x with a | a <;> exact hx

end BodyFlow
