-- Lists of values by key, in the order in which the keys are met: what a
-- dictionary of lists holds that is filled in one pass. Nothing here is about
-- a program.
import Mathlib.Data.List.Basic
import Mathlib.Data.List.Induction
import Mathlib.Data.List.Nodup
import Mathlib.Data.List.Perm.Basic
import Mathlib.Data.Multiset.Basic

namespace Grouping

variable {κ α : Type} [DecidableEq κ]

/-- One more value under `k`. -/
def putIn (k : κ) (a : α) : List (κ × List α) → List (κ × List α)
  | [] => [(k, [a])]
  | (k', as) :: g => if k' = k then (k', as ++ [a]) :: g else (k', as) :: putIn k a g

/-- The values that have a key, by key. -/
def groupsBy (key : α → Option κ) (as : List α) : List (κ × List α) :=
  as.foldl (fun g a => match key a with | none => g | some k => putIn k a g) []

theorem lookup_cons_if {β : Type} (k k₀ : κ) (b : β) (g : List (κ × β)) :
    ((k₀, b) :: g).lookup k = if k = k₀ then some b else g.lookup k := by
  rw [List.lookup_cons]
  by_cases h : k = k₀
  · simp [h]
  · have hne : (k == k₀) = false := by simpa using h
    simp [h, hne]

theorem lookup_putIn (k k' : κ) (a : α) (g : List (κ × List α)) :
    (putIn k a g).lookup k' = if k' = k then some ((g.lookup k).getD [] ++ [a]) else g.lookup k' := by
  induction g with
  | nil => rw [putIn, lookup_cons_if]; simp
  | cons p g ih =>
    obtain ⟨k₀, as⟩ := p
    unfold putIn
    by_cases h0 : k₀ = k
    · subst h0
      by_cases h : k' = k₀ <;> simp [lookup_cons_if, h]
    · rw [if_neg h0, lookup_cons_if, lookup_cons_if, lookup_cons_if, ih]
      by_cases h : k' = k
      · subst h
        have hne : ¬ k' = k₀ := fun he => h0 he.symm
        simp [hne]
      · simp [h]

theorem keys_putIn (k : κ) (a : α) (g : List (κ × List α)) :
    (putIn k a g).map Prod.fst =
      if k ∈ g.map Prod.fst then g.map Prod.fst else g.map Prod.fst ++ [k] := by
  induction g with
  | nil => simp [putIn]
  | cons p g ih =>
    obtain ⟨k₀, as⟩ := p
    unfold putIn
    by_cases h : k₀ = k
    · simp [h]
    · have h' : ¬ k = k₀ := fun he => h he.symm
      rw [if_neg h, List.map_cons, ih]
      split <;> rename_i hk <;> simp_all

/-- No key comes twice. -/
theorem nodup_groupsBy (key : α → Option κ) (as : List α) :
    ((groupsBy key as).map Prod.fst).Nodup := by
  induction as using List.reverseRecOn with
  | nil => simp [groupsBy]
  | append_singleton as a ih =>
    rw [groupsBy, List.foldl_append, List.foldl_cons, List.foldl_nil]
    cases key a with
    | none => exact ih
    | some k =>
      simp only
      rw [keys_putIn]
      split
      · exact ih
      · rename_i hk
        exact List.nodup_append.2 ⟨ih, by simp, by simpa using fun x hx => ne_of_mem_of_not_mem hx hk⟩

theorem lookup_groupsBy (key : α → Option κ) (as : List α) (k : κ) :
    (groupsBy key as).lookup k =
      if (as.filter fun a => key a = some k) = [] then none
      else some (as.filter fun a => key a = some k) := by
  induction as using List.reverseRecOn with
  | nil => simp [groupsBy]
  | append_singleton as a ih =>
    rw [groupsBy, List.foldl_append, List.foldl_cons, List.foldl_nil, List.filter_append]
    cases ha : key a with
    | none => simpa [ha, groupsBy] using ih
    | some k' =>
      simp only
      rw [lookup_putIn]
      by_cases h : k = k'
      · subst h
        change (if k = k then some (((groupsBy key as).lookup k).getD [] ++ [a]) else _) = _
        rw [ih, if_pos rfl]
        split <;> simp_all
      · have h' : ¬ k' = k := fun he => h he.symm
        simpa [h, h', ha, groupsBy] using ih

theorem mem_iff_lookup {β : Type} {g : List (κ × β)} (hnd : (g.map Prod.fst).Nodup) {k : κ} {b : β} :
    (k, b) ∈ g ↔ g.lookup k = some b := by
  induction g with
  | nil => simp
  | cons p g ih =>
    obtain ⟨k₀, b₀⟩ := p
    simp only [List.map_cons, List.nodup_cons] at hnd
    rw [List.mem_cons, lookup_cons_if]
    by_cases h : k = k₀
    · subst h
      rw [if_pos rfl, Prod.mk.injEq, Option.some.injEq]
      constructor
      · rintro (⟨-, rfl⟩ | hin)
        · rfl
        · exact absurd (List.mem_map_of_mem (f := Prod.fst) hin) hnd.1
      · rintro rfl
        exact .inl ⟨rfl, rfl⟩
    · rw [if_neg h, ← ih hnd.2, Prod.mk.injEq]
      simp [h]

/-- A group holds all that have its key, in their order. -/
theorem mem_groupsBy {key : α → Option κ} {as : List α} {k : κ} {l : List α} :
    (k, l) ∈ groupsBy key as ↔ l ≠ [] ∧ l = as.filter fun a => key a = some k := by
  rw [mem_iff_lookup (nodup_groupsBy key as), lookup_groupsBy]
  split
  · rename_i he
    simp [he]
  · rename_i he
    constructor
    · intro h
      cases h
      exact ⟨he, rfl⟩
    · rintro ⟨-, rfl⟩
      rfl

/-! ## The order of the values -/

theorem groupsBy_snoc (key : α → Option κ) (as : List α) (a : α) :
    groupsBy key (as ++ [a]) =
      match key a with
      | none => groupsBy key as
      | some k => putIn k a (groupsBy key as) := by
  rw [groupsBy, List.foldl_append, List.foldl_cons, List.foldl_nil]
  rfl

theorem putIn_fresh {k : κ} {g : List (κ × List α)} (h : g.lookup k = none) (a : α) :
    putIn k a g = g ++ [(k, [a])] := by
  induction g with
  | nil => rfl
  | cons p g ih =>
    obtain ⟨k₀, as⟩ := p
    rw [lookup_cons_if] at h
    split at h
    · cases h
    · rename_i hne
      rw [putIn, if_neg fun he => hne he.symm, ih h, List.cons_append]

/-- A value that joins a group changes this group only. -/
theorem putIn_perm {k : κ} {g : List (κ × List α)} {l : List α} (h : g.lookup k = some l) (a : α) :
    ∃ rest, g.Perm ((k, l) :: rest) ∧ (putIn k a g).Perm ((k, l ++ [a]) :: rest) := by
  induction g with
  | nil => cases h
  | cons p g ih =>
    obtain ⟨k₀, as⟩ := p
    rw [lookup_cons_if] at h
    split at h
    · rename_i he
      cases h
      subst he
      exact ⟨g, .refl _, by simp [putIn]⟩
    · rename_i hne
      obtain ⟨rest, h1, h2⟩ := ih h
      refine ⟨(k₀, as) :: rest, (h1.cons _).trans (.swap ..), ?_⟩
      rw [putIn, if_neg fun he => hne he.symm]
      exact (h2.cons _).trans (.swap ..)

/-- What goes together: the groups, and each value without a key on its own. -/
def parcels (key : α → Option κ) (as : List α) : List (List α) :=
  ((as.filter fun a => (key a).isNone).map fun a => [a]) ++ (groupsBy key as).map Prod.snd

/-- The same parcels, in any order, with the same values in each, in any order. -/
def SameParcels (g h : List (List α)) : Prop :=
  (g.map Multiset.ofList).Perm (h.map Multiset.ofList)

theorem SameParcels.of_perm {g h : List (List α)} (hp : g.Perm h) : SameParcels g h := hp.map _

theorem SameParcels.trans {g h i : List (List α)} (h1 : SameParcels g h) (h2 : SameParcels h i) :
    SameParcels g i := List.Perm.trans h1 h2

theorem parcels_fresh {key : α → Option κ} {as : List α} {a : α}
    (h : ∀ k, key a = some k → (groupsBy key as).lookup k = none) :
    (parcels key (as ++ [a])).Perm (parcels key as ++ [[a]]) := by
  unfold parcels
  rw [groupsBy_snoc, List.filter_append]
  cases ha : key a with
  | none =>
    simp only [ha, Option.isNone_none, List.filter_cons_of_pos, List.filter_nil, List.map_append,
      List.map_cons, List.map_nil, List.append_assoc]
    exact List.perm_append_comm.append_left _
  | some k => simp [ha, putIn_fresh (h k ha)]

/-- A value that joins its group changes one parcel only. -/
theorem parcels_join {key : α → Option κ} {as : List α} {a : α} {k : κ} {l : List α}
    (ha : key a = some k) (h : (groupsBy key as).lookup k = some l) :
    ∃ rest, (parcels key as).Perm (l :: rest) ∧
      (parcels key (as ++ [a])).Perm ((l ++ [a]) :: rest) := by
  obtain ⟨rest, h1, h2⟩ := putIn_perm h a
  refine ⟨((as.filter fun a => (key a).isNone).map fun a => [a]) ++ rest.map Prod.snd, ?_, ?_⟩
  · exact ((h1.map Prod.snd).append_left _).trans List.perm_middle
  · unfold parcels
    rw [groupsBy_snoc, ha, List.filter_append]
    simpa [ha] using ((h2.map Prod.snd).append_left _).trans List.perm_middle

theorem mem_groups {key : α → Option κ} {as bs : List α} (h : as.Perm bs) {e : κ × Multiset α}
    (he : e ∈ (groupsBy key as).map fun e => (e.1, Multiset.ofList e.2)) :
    e ∈ (groupsBy key bs).map fun e => (e.1, Multiset.ofList e.2) := by
  obtain ⟨⟨k, l⟩, hl, rfl⟩ := List.mem_map.1 he
  obtain ⟨hne, rfl⟩ := mem_groupsBy.1 hl
  have hp : (as.filter fun a => key a = some k).Perm (bs.filter fun a => key a = some k) :=
    h.filter _
  refine List.mem_map.2 ⟨(k, bs.filter fun a => key a = some k), ?_, ?_⟩
  · exact mem_groupsBy.2 ⟨fun hb => hne (hb ▸ hp).eq_nil, rfl⟩
  · simpa using hp.symm

/-- The order of the values does not say what goes together. -/
theorem parcels_perm (key : α → Option κ) {as bs : List α} (h : as.Perm bs) :
    SameParcels (parcels key as) (parcels key bs) := by
  have hnd : ∀ cs : List α,
      ((groupsBy key cs).map fun e => (e.1, Multiset.ofList e.2)).Nodup := by
    intro cs
    apply List.Nodup.of_map Prod.fst
    simpa [Function.comp_def] using nodup_groupsBy key cs
  have hgroups : ((groupsBy key as).map fun e => (e.1, Multiset.ofList e.2)).Perm
      ((groupsBy key bs).map fun e => (e.1, Multiset.ofList e.2)) :=
    (List.perm_ext_iff_of_nodup (hnd as) (hnd bs)).2 fun _ => ⟨mem_groups h, mem_groups h.symm⟩
  unfold SameParcels parcels
  rw [List.map_append, List.map_append]
  refine List.Perm.append (((h.filter _).map _).map _) ?_
  simpa [Function.comp_def] using hgroups.map Prod.snd

end Grouping
