-- The current series of a list that grows: the longest end of it whose elements meet a
-- predicate and whose neighbours belong together. Nothing here is about a program.
import Mathlib.Data.List.Chain
import Mathlib.Data.List.Induction

namespace Series

variable {α : Type} {P : α → Prop} {J : α → α → Prop} {l S T : List α} {a b : α}

/-- `S` is the longest end of `l` whose elements meet `P` and whose neighbours meet `J`. -/
structure Current (P : α → Prop) (J : α → α → Prop) (l S : List α) : Prop where
  nonempty : S ≠ []
  all : ∀ a ∈ S, P a
  joined : S.IsChain J
  whole : ∃ before, l = before ++ S ∧
    ∀ b ∈ before.getLast?, ∀ a ∈ S.head?, P b → ¬ J b a

theorem Current.start (hP : P a) (hJ : ∀ b ∈ l.getLast?, P b → ¬ J b a) :
    Current P J (l ++ [a]) [a] where
  nonempty := List.cons_ne_nil _ _
  all c hc := List.mem_singleton.mp hc ▸ hP
  joined := List.isChain_singleton a
  whole := by
    refine ⟨l, rfl, ?_⟩
    intro b hb c hc
    rw [List.head?_cons, Option.mem_some_iff] at hc
    exact hc ▸ hJ b hb

theorem Current.snoc (h : Current P J l S) (hP : P a) (hJ : ∀ b ∈ S.getLast?, J b a) :
    Current P J (l ++ [a]) (S ++ [a]) where
  nonempty := by simp
  all c hc := by
    rcases List.mem_append.mp hc with hc | hc
    · exact h.all c hc
    · exact List.mem_singleton.mp hc ▸ hP
  joined := by
    rw [List.isChain_append]
    refine ⟨h.joined, List.isChain_singleton a, ?_⟩
    intro b hb c hc
    rw [List.head?_cons, Option.mem_some_iff] at hc
    exact hc ▸ hJ b hb
  whole := by
    obtain ⟨before, rfl, hwhole⟩ := h.whole
    refine ⟨before, List.append_assoc .., ?_⟩
    rw [List.head?_append_of_ne_nil _ h.nonempty]
    exact hwhole

theorem Current.getLast? (h : Current P J l S) : l.getLast? = S.getLast? := by
  obtain ⟨before, rfl, -⟩ := h.whole
  exact List.getLast?_append_of_ne_nil _ h.nonempty

theorem Current.suffix (h : Current P J l S) : S <:+ l := by
  obtain ⟨before, rfl, -⟩ := h.whole
  exact List.suffix_append _ _

/-- There is but one. -/
theorem Current.unique (h : Current P J l S) (h' : Current P J l T) : S = T := by
  have longer : ∀ {S T : List α}, Current P J l S → Current P J l T → S.length ≤ T.length := by
    intro S T h h'
    by_contra hlt
    obtain ⟨before, heq, hwhole⟩ := h'.whole
    obtain ⟨first, heq', -⟩ := h.whole
    -- what stands before `T` is then a neighbour inside `S`
    obtain ⟨mid, hmid⟩ : T <:+ S := List.suffix_of_suffix_length_le h'.suffix h.suffix (by omega)
    have hne : mid ≠ [] := by
      rintro rfl
      exact hlt (by rw [← hmid, List.nil_append])
    obtain ⟨mid, b, rfl⟩ := (List.eq_nil_or_concat' mid).resolve_left hne
    obtain ⟨a, T, rfl⟩ := List.exists_cons_of_ne_nil h'.nonempty
    have hbefore : before = first ++ (mid ++ [b]) := by
      have hall : before ++ a :: T = first ++ (mid ++ [b]) ++ a :: T := by
        rw [← heq, heq', ← hmid, List.append_assoc first]
      exact List.append_cancel_right hall
    have hP : P b := h.all b (by rw [← hmid]; simp)
    refine hwhole b (by rw [hbefore]; simp) a rfl hP ?_
    have hjoined := h.joined
    rw [← hmid, List.append_assoc, List.isChain_append] at hjoined
    exact (List.isChain_cons_cons.mp hjoined.2.1).1
  have hlen : S.length = T.length := le_antisymm (longer h h') (longer h' h)
  exact (List.suffix_of_suffix_length_le h.suffix h'.suffix hlen.le).eq_of_length hlen

/-- Where the last element meets `P` there is one. -/
theorem exists_current (hP : P a) : ∃ S, Current P J (l ++ [a]) S := by
  induction l using List.reverseRecOn generalizing a with
  | nil => exact ⟨[a], Current.start hP (by simp)⟩
  | append_singleton l b ih =>
    by_cases hb : P b ∧ J b a
    · obtain ⟨S, hS⟩ := ih hb.1
      refine ⟨S ++ [a], hS.snoc hP ?_⟩
      intro c hc
      rw [← hS.getLast?, List.getLast?_concat, Option.mem_some_iff] at hc
      exact hc ▸ hb.2
    · refine ⟨[a], Current.start hP ?_⟩
      intro c hc hPc hJ
      rw [List.getLast?_concat, Option.mem_some_iff] at hc
      subst hc
      exact hb ⟨hPc, hJ⟩

theorem Current.last (h : Current P J l S) (ha : l.getLast? = some a) : P a := by
  rw [h.getLast?] at ha
  exact h.all a (List.mem_of_getLast? ha)

/-! ## A mark at the start of the series -/

section Marks

variable {β : Type} {f : α → β} {m : Option β}

/-- The mark tells of the first of the current series, and there is none without a series. -/
structure Stamped (P : α → Prop) (J : α → α → Prop) (f : α → β) (l : List α) (m : Option β) :
    Prop where
  first : ∀ S, Current P J l S → m = S.head?.map f
  absent : (∀ S, ¬ Current P J l S) → m = none

theorem Stamped.skip (hP : ¬ P a) : Stamped P J f (l ++ [a]) none where
  first _ hS := absurd (hS.last (List.getLast?_concat ..)) hP
  absent _ := rfl

theorem Stamped.start (hP : P a) (hJ : ∀ b ∈ l.getLast?, P b → ¬ J b a) :
    Stamped P J f (l ++ [a]) (some (f a)) where
  first S hS := by
    rw [hS.unique (Current.start hP hJ)]
    rfl
  absent hno := absurd (Current.start hP hJ) (hno _)

theorem Stamped.snoc (h : Stamped P J f (l ++ [b]) m) (hb : P b) (hP : P a) (hJ : J b a) :
    Stamped P J f (l ++ [b] ++ [a]) m := by
  obtain ⟨S, hS⟩ := exists_current (J := J) (l := l) hb
  have hsnoc : Current P J (l ++ [b] ++ [a]) (S ++ [a]) := by
    refine hS.snoc hP ?_
    intro c hc
    rw [← hS.getLast?, List.getLast?_concat, Option.mem_some_iff] at hc
    exact hc ▸ hJ
  refine ⟨?_, fun hno => absurd hsnoc (hno _)⟩
  intro T hT
  rw [hT.unique hsnoc, List.head?_append_of_ne_nil _ hS.nonempty]
  exact h.first S hS

/-- A mark that is there is that of an element. -/
theorem Stamped.some_iff {v : β} (h : Stamped P J f l m) :
    m = some v ↔ ∃ S, Current P J l S ∧ S.head?.map f = some v := by
  constructor
  · intro hm
    by_contra hno
    refine Option.some_ne_none v (hm.symm.trans (h.absent ?_))
    intro S hS
    exact hno ⟨S, hS, (h.first S hS).symm.trans hm⟩
  · rintro ⟨S, hS, hv⟩
    exact (h.first S hS).trans hv

theorem Stamped.mem {v : β} (h : Stamped P J f l m) (hm : m = some v) : ∃ a ∈ l, f a = v := by
  obtain ⟨S, hS, hv⟩ := h.some_iff.mp hm
  obtain ⟨a, ha, rfl⟩ := Option.map_eq_some_iff.mp hv
  exact ⟨a, hS.suffix.subset (List.mem_of_head? ha), rfl⟩

theorem Stamped.exists_of_last (h : Stamped P J f (l ++ [a]) m) (hP : P a) : ∃ v, m = some v := by
  obtain ⟨S, hS⟩ := exists_current (J := J) (l := l) hP
  obtain ⟨b, T, rfl⟩ := List.exists_cons_of_ne_nil hS.nonempty
  exact ⟨f b, h.first _ hS⟩

end Marks

end Series
