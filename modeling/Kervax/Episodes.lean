-- Episodes of marks in time: marks follow one another at no more than a gap, and once an
-- episode has held for a while a longer gap does not end it. What is kept of an episode is its
-- start and its last mark. Nothing here is about a program.
import Mathlib.Algebra.Order.Ring.Defs
import Mathlib.Tactic.Linarith

set_option linter.unusedSectionVars false

namespace Episodes

/-- How long an episode has to hold, the gap up to then, and the gap from then on. -/
structure Limits (T : Type) [LE T] [Zero T] where
  hold : T
  gap : T
  cool : T
  nonneg : 0 ≤ gap
  gap_le : gap ≤ cool

variable {T : Type} [CommRing T] [LinearOrder T] [IsStrictOrderedRing T]

/-- The gap that an episode can bridge after so much time. -/
def Limits.bridge (lim : Limits T) (span : T) : T := if lim.hold ≤ span then lim.cool else lim.gap

/-- Marks from `y` to `x`, one after the other, over gaps that the episode can bridge. -/
inductive Linked (lim : Limits T) (mark : T → Prop) (y : T) : T → Prop
  | one : mark y → Linked lim mark y y
  | more {a b : T} : Linked lim mark y a → mark b → a < b → b - a ≤ lim.bridge (a - y) →
      Linked lim mark y b

section
variable {lim : Limits T} {mark mark' : T → Prop} {y a b x t : T}

theorem bridge_le (lim : Limits T) (span : T) : lim.bridge span ≤ lim.cool := by
  unfold Limits.bridge
  split
  · exact le_refl _
  · exact lim.gap_le

theorem bridge_held {span : T} (h : lim.hold ≤ span) : lim.bridge span = lim.cool := if_pos h

theorem bridge_short {span : T} (h : ¬ lim.hold ≤ span) : lim.bridge span = lim.gap := if_neg h

theorem Linked.first (h : Linked lim mark y x) : mark y := by
  induction h with
  | one hy => exact hy
  | more _ _ _ _ ih => exact ih

theorem Linked.last (h : Linked lim mark y x) : mark x := by
  cases h with
  | one hy => exact hy
  | more _ hx _ _ => exact hx

theorem Linked.le (h : Linked lim mark y x) : y ≤ x := by
  induction h with
  | one _ => exact le_refl _
  | more _ _ hlt _ ih => exact ih.trans hlt.le

theorem Linked.mono (h : Linked lim mark y x) (hsub : ∀ t, mark t → mark' t) :
    Linked lim mark' y x := by
  induction h with
  | one hy => exact .one (hsub _ hy)
  | more _ hb hlt hgap ih => exact .more ih (hsub _ hb) hlt hgap

/-- An episode that has held goes on to a mark that is not too far off. -/
theorem Linked.held (h : Linked lim mark y x) (hhold : lim.hold ≤ x - y) (ht : mark t)
    (hle : x ≤ t) (hcool : t - x ≤ lim.cool) : Linked lim mark y t := by
  rcases hle.lt_or_eq with hlt | heq
  · exact .more h ht hlt (by rwa [bridge_held hhold])
  · exact heq ▸ h

/-- Marks up to a moment are linked by marks up to that moment. -/
theorem Linked.old (h : Linked lim mark y x) (hsub : ∀ s, s ≤ x → mark s → mark' s) :
    Linked lim mark' y x := by
  induction h with
  | one hy => exact .one (hsub _ (le_refl _) hy)
  | more hlink hb hlt hgap ih =>
    exact .more (ih fun s hs => hsub s (hs.trans hlt.le)) (hsub _ (le_refl _) hb) hlt hgap

end

/-! ## What is kept of an episode -/

/-- It has held, and its last mark is not too long ago. -/
def active (lim : Limits T) (now : T) (e : T × T) : Bool :=
  lim.hold ≤ e.2 - e.1 && now - e.2 ≤ lim.cool

/-- A mark begins an episode, or is the last one of the episode that is there. -/
def hit (lim : Limits T) (now : T) : Option (T × T) → T × T
  | none => (now, now)
  | some e => if lim.gap < now - e.2 ∧ active lim now e = false then (now, now) else (e.1, now)

/-- An episode is dropped so long after its last mark. -/
def fade (keep now : T) : Option (T × T) → Option (T × T)
  | none => none
  | some e => if now - e.2 ≤ keep then some e else none

/-- What is kept is an episode to the last mark, and none that reaches it began earlier; nothing
is kept only when every mark is long ago. -/
inductive Kept (lim : Limits T) (mark : T → Prop) (now : T) : Option (T × T) → Prop
  | nothing : (∀ x, mark x → lim.cool < now - x) → Kept lim mark now none
  | episode {s l : T} : Linked lim mark s l → (∀ x, mark x → x ≤ l) → l ≤ now →
      (∀ y x, Linked lim mark y x → s ≤ x → s ≤ y) → Kept lim mark now (some (s, l))

section
variable {lim : Limits T} {mark : T → Prop} {now t keep : T} {st : Option (T × T)}

theorem active_iff {e : T × T} :
    active lim now e = true ↔ lim.hold ≤ e.2 - e.1 ∧ now - e.2 ≤ lim.cool := by
  unfold active
  rw [Bool.and_eq_true, decide_eq_true_eq, decide_eq_true_eq]

theorem kept_start (now : T) : Kept lim (fun _ => False) now none := .nothing fun _ h => h.elim

/-- Time passes. -/
theorem Kept.later (h : Kept lim mark now st) (hle : now ≤ t) : Kept lim mark t st := by
  cases h with
  | nothing hold => exact .nothing fun x hx => lt_of_lt_of_le (hold x hx) (by linarith)
  | episode hlink hlast hl hleast => exact .episode hlink hlast (hl.trans hle) hleast

theorem Kept.fade (h : Kept lim mark now st) (hkeep : lim.cool ≤ keep) :
    Kept lim mark now (fade keep now st) := by
  cases h with
  | nothing hold => exact .nothing hold
  | @episode s l hlink hlast hl hleast =>
    by_cases hk : now - l ≤ keep
    · rw [Episodes.fade, if_pos hk]
      exact .episode hlink hlast hl hleast
    · rw [Episodes.fade, if_neg hk]
      refine .nothing fun x hx => ?_
      have := hlast x hx
      push Not at hk
      linarith

/-- A link to a new mark at `now` is that mark, or comes from an old mark. -/
theorem linked_now {y : T} (h : Linked lim (fun t => mark t ∨ t = now) y now)
    (hlast : ∀ x, mark x → x ≤ now) :
    y = now ∨ ∃ a, Linked lim mark y a ∧ a < now ∧ now - a ≤ lim.bridge (a - y) := by
  cases h with
  | one _ => exact .inl rfl
  | @more a _ hlink hb hlt hgap =>
    refine .inr ⟨a, hlink.old fun t ht hm => ?_, hlt, hgap⟩
    rcases hm with hm | rfl
    · exact hm
    · exact absurd hlt (not_lt.mpr ht)

/-- A link that ends before the new mark is there without it. -/
theorem linked_before {x y : T} (h : Linked lim (fun t => mark t ∨ t = now) y x) (hx : x < now) :
    Linked lim mark y x := by
  refine h.old fun t ht hm => ?_
  rcases hm with hm | rfl
  · exact hm
  · exact absurd hx (not_lt.mpr ht)

theorem hit_new {e : T × T} (h : lim.gap < now - e.2 ∧ active lim now e = false) :
    hit lim now (some e) = (now, now) := if_pos h

theorem hit_on {e : T × T} (h : ¬ (lim.gap < now - e.2 ∧ active lim now e = false)) :
    hit lim now (some e) = (e.1, now) := if_neg h

/-- A new episode: nothing that reaches the mark began earlier. -/
theorem Kept.begin (hlast : ∀ x, mark x → x ≤ now)
    (hnone : ∀ y a, Linked lim mark y a → a < now → ¬ now - a ≤ lim.bridge (a - y)) :
    Kept lim (fun t => mark t ∨ t = now) now (some (now, now)) := by
  refine .episode (.one (.inr rfl)) ?_ (le_refl _) ?_
  · rintro x (hx | rfl)
    · exact hlast x hx
    · exact le_refl _
  · intro y x hlink hle
    have hx : x = now := by
      rcases hlink.last with hm | heq
      · exact le_antisymm (hlast x hm) hle
      · exact heq
    subst hx
    rcases linked_now hlink hlast with rfl | ⟨a, ha, hlt, hgap⟩
    · exact le_refl _
    · exact absurd hgap (hnone y a ha hlt)

/-- The gap from the last mark of the episode that is kept was too long for a mark at `now`, so it
is from every other one. -/
theorem no_bridge {s l : T} (hlink : Linked lim mark s l) (hlast : ∀ x, mark x → x ≤ l)
    (hl : l ≤ now) (hleast : ∀ y x, Linked lim mark y x → s ≤ x → s ≤ y)
    (hnew : lim.gap < now - l ∧ active lim now (s, l) = false) {y a : T}
    (ha : Linked lim mark y a) : ¬ now - a ≤ lim.bridge (a - y) := by
  intro hgap
  have hal := hlast a ha.last
  have hlong : lim.gap < now - l := hnew.1
  have hhold : lim.hold ≤ a - y := by
    by_contra hshort
    rw [bridge_short hshort] at hgap
    linarith
  rw [bridge_held hhold] at hgap
  have hsa : s ≤ a := by
    by_contra hlt
    push Not at hlt
    have hcool : s - a ≤ lim.cool := by
      have := hlink.le
      linarith
    have hy := hleast y s (ha.held hhold hlink.first hlt.le hcool) (le_refl s)
    have := ha.le
    linarith
  have hsy := hleast y a ha hsa
  have hactive : active lim now (s, l) = true :=
    active_iff.mpr ⟨by simp only; linarith, by simp only; linarith⟩
  rw [hnew.2] at hactive
  cases hactive

/-- Where the episode goes on, its last mark reaches the one at `now`. -/
theorem bridge_on {s l : T} (hon : ¬ (lim.gap < now - l ∧ active lim now (s, l) = false)) :
    now - l ≤ lim.bridge (l - s) := by
  by_cases hhold : lim.hold ≤ l - s
  · rw [bridge_held hhold]
    by_contra hcool
    refine hon ⟨?_, ?_⟩
    · have := lim.gap_le
      linarith
    · exact Bool.eq_false_iff.mpr fun hactive => hcool (active_iff.mp hactive).2
  · rw [bridge_short hhold]
    by_contra hgap
    refine hon ⟨not_le.mp hgap, ?_⟩
    exact Bool.eq_false_iff.mpr fun hactive => hhold (active_iff.mp hactive).1

/-- A mark at `now`, with those that were there. -/
theorem Kept.hit (h : Kept lim mark now st) :
    Kept lim (fun t => mark t ∨ t = now) now (some (hit lim now st)) := by
  cases h with
  | nothing hlong =>
    have hpos := lim.nonneg
    have hle := lim.gap_le
    refine Kept.begin (fun x hx => ?_) fun y a ha _ hgap => ?_
    · have := hlong x hx
      linarith
    · have := hlong a ha.last
      have := bridge_le lim (a - y)
      linarith
  | @episode s l hlink hlast hl hleast =>
    have hlast' : ∀ x, mark x → x ≤ now := fun x hx => (hlast x hx).trans hl
    by_cases hnew : lim.gap < now - l ∧ active lim now (s, l) = false
    · rw [hit_new hnew]
      exact Kept.begin hlast' fun y a ha _ => no_bridge hlink hlast hl hleast hnew ha
    · rw [hit_on hnew]
      have hbridge := bridge_on hnew
      refine .episode ?_ ?_ (le_refl _) ?_
      · have hlink' := hlink.mono fun t ht => (Or.inl ht : mark t ∨ t = now)
        rcases hl.lt_or_eq with hlt | heq
        · exact .more hlink' (.inr rfl) hlt hbridge
        · exact heq ▸ hlink'
      · rintro x (hx | rfl)
        · exact hlast' x hx
        · exact le_refl _
      · intro y x hyx hsx
        have hx : x ≤ now := by
          rcases hyx.last with hm | heq
          · exact hlast' x hm
          · exact heq.le
        rcases hx.lt_or_eq with hlt | rfl
        · exact hleast y x (linked_before hyx hlt) hsx
        · rcases linked_now hyx hlast' with rfl | ⟨a, ha, hlt, hgap⟩
          · exact hsx
          · rcases le_or_gt s a with hsa | has
            · exact hleast y a ha hsa
            -- the episode that is kept begins at a mark that this one could bridge to
            · exact hleast y s (.more ha hlink.first has (by linarith)) (le_refl s)

/-- What is kept is told exactly when some episode has held and is not long over, and it began
with the first mark that such an episode can begin with. -/
theorem Kept.told (h : Kept lim mark now st) :
    ((∃ e ∈ st, active lim now e = true) ↔
      ∃ y x, Linked lim mark y x ∧ lim.hold ≤ x - y ∧ now - x ≤ lim.cool) ∧
    ∀ e ∈ st, active lim now e = true →
      (∃ x, Linked lim mark e.1 x ∧ lim.hold ≤ x - e.1 ∧ now - x ≤ lim.cool) ∧
      ∀ y x, Linked lim mark y x → lim.hold ≤ x - y → now - x ≤ lim.cool → e.1 ≤ y := by
  cases h with
  | nothing hlong =>
    refine ⟨⟨fun ⟨e, he, _⟩ => (by cases he), fun ⟨y, x, hlink, _, hcool⟩ => ?_⟩,
      fun e he => (by cases he)⟩
    exact absurd hcool (not_le.mpr (hlong x hlink.last))
  | @episode s l hlink hlast hl hleast =>
    -- an episode that has held and is not long over goes on to the last mark
    have hon : ∀ y x, Linked lim mark y x → lim.hold ≤ x - y → now - x ≤ lim.cool →
        s ≤ y ∧ lim.hold ≤ l - y := by
      intro y x hyx hhold hcool
      have hxl := hlast x hyx.last
      have hyl := hyx.held hhold hlink.last hxl (by linarith)
      exact ⟨hleast y l hyl hlink.le, by linarith⟩
    refine ⟨⟨?_, ?_⟩, ?_⟩
    · rintro ⟨e, he, hactive⟩
      obtain rfl := Option.mem_some.mp he
      exact ⟨s, l, hlink, active_iff.mp hactive⟩
    · rintro ⟨y, x, hyx, hhold, hcool⟩
      refine ⟨(s, l), rfl, active_iff.mpr ⟨?_, ?_⟩⟩
      · have := hon y x hyx hhold hcool
        show lim.hold ≤ l - s
        linarith
      · have := hlast x hyx.last
        show now - l ≤ lim.cool
        linarith
    · intro e he hactive
      obtain rfl := Option.mem_some.mp he
      exact ⟨⟨l, hlink, active_iff.mp hactive⟩, fun y x hyx hhold hcool =>
        (hon y x hyx hhold hcool).1⟩

end

end Episodes
