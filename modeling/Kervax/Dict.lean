-- Association lists as dictionaries: a key is put in place of its old value,
-- and what a lookup finds after a put, a map and a filter. Nothing here is
-- about a program.
import Mathlib.Data.List.Basic
import Mathlib.Data.List.Nodup

namespace Dict

/-- Whether a pair of texts stands in a list is decided by one instance everywhere. -/
instance lawfulBEq : LawfulBEq (String × String) := inferInstance

variable {κ α β : Type}

/-- The keys, in order. -/
def keys (d : List (κ × α)) : List κ := d.map Prod.fst

/-- Values that a key chooses to keep, under the same keys. -/
def choose (f : κ → α → Option β) (d : List (κ × α)) : List (κ × β) :=
  d.filterMap fun p => (f p.1 p.2).map (p.1, ·)

theorem mem_choose {f : κ → α → Option β} {d : List (κ × α)} {k : κ} {v : β} :
    (k, v) ∈ choose f d ↔ ∃ a, (k, a) ∈ d ∧ f k a = some v := by
  unfold choose
  rw [List.mem_filterMap]
  constructor
  · rintro ⟨⟨j, a⟩, hm, hf⟩
    obtain ⟨b, hb, he⟩ := Option.map_eq_some_iff.mp hf
    obtain ⟨rfl, rfl⟩ : j = k ∧ b = v := by simpa using he
    exact ⟨a, hm, hb⟩
  · rintro ⟨a, hm, hf⟩
    exact ⟨(k, a), hm, by simp [hf]⟩

theorem keys_choose_sublist (f : κ → α → Option β) (d : List (κ × α)) :
    (keys (choose f d)).Sublist (keys d) := by
  induction d with
  | nil => exact List.Sublist.refl _
  | cons p d ih =>
    unfold choose keys at ih ⊢
    rw [List.filterMap_cons]
    cases hf : f p.1 p.2 with
    | none => exact List.Sublist.cons _ ih
    | some b => exact List.Sublist.cons_cons _ ih

variable [DecidableEq κ]

/-- `d[k] = v`: the old place of the key, or a new last one. -/
def put (d : List (κ × α)) (k : κ) (v : α) : List (κ × α) :=
  if k ∈ keys d then d.map fun p => if p.1 = k then (k, v) else p else d ++ [(k, v)]

theorem keys_put (d : List (κ × α)) (k : κ) (v : α) :
    keys (put d k v) = if k ∈ keys d then keys d else keys d ++ [k] := by
  unfold put
  split
  · unfold keys
    rw [List.map_map]
    apply List.map_congr_left
    intro p _
    by_cases hp : p.1 = k <;> simp [hp]
  · simp [keys]

theorem nodup_put {d : List (κ × α)} (h : (keys d).Nodup) (k : κ) (v : α) :
    (keys (put d k v)).Nodup := by
  rw [keys_put]
  split
  · exact h
  · next hk =>
    rw [List.nodup_append]
    refine ⟨h, List.nodup_singleton k, ?_⟩
    intro a ha b hb hab
    rw [List.mem_singleton.mp hb] at hab
    exact hk (hab ▸ ha)

/-- What stands in a dictionary after a put was there or is what was put. -/
theorem mem_put {d : List (κ × α)} {k : κ} {v : α} {p : κ × α} (h : p ∈ put d k v) :
    p ∈ d ∨ p = (k, v) := by
  unfold put at h
  split at h
  · obtain ⟨q, hq, rfl⟩ := List.mem_map.mp h
    split
    · exact .inr rfl
    · exact .inl hq
  · rcases List.mem_append.mp h with h | h
    · exact .inl h
    · exact .inr (List.mem_singleton.mp h)

/-- An entry of a dictionary is what its key finds. -/
theorem lookup_of_mem {d : List (κ × α)} (h : (keys d).Nodup) {k : κ} {v : α} (hm : (k, v) ∈ d) :
    d.lookup k = some v := by
  induction d with
  | nil => cases hm
  | cons p d ih =>
    obtain ⟨hp, hd⟩ := List.nodup_cons.mp h
    rcases List.mem_cons.mp hm with rfl | hm
    · simp
    · have hne : k ≠ p.1 := by
        rintro rfl
        exact hp (List.mem_map.mpr ⟨(p.1, v), hm, rfl⟩)
      rw [List.lookup_cons, beq_false_of_ne hne]
      exact ih hd hm

theorem mem_of_lookup {d : List (κ × α)} {k : κ} {v : α} (h : d.lookup k = some v) :
    (k, v) ∈ d := by
  induction d with
  | nil => cases h
  | cons p d ih =>
    rw [List.lookup_cons] at h
    split at h
    · next hk =>
      obtain rfl : p.2 = v := by simpa using h
      rw [eq_of_beq hk]
      exact List.mem_cons_self
    · exact List.mem_cons_of_mem _ (ih h)

theorem lookup_iff_mem {d : List (κ × α)} (h : (keys d).Nodup) {k : κ} {v : α} :
    d.lookup k = some v ↔ (k, v) ∈ d :=
  ⟨mem_of_lookup, lookup_of_mem h⟩

theorem lookup_choose {d : List (κ × α)} (h : (keys d).Nodup) (f : κ → α → Option β) (k : κ) :
    (choose f d).lookup k = (d.lookup k).bind (f k) := by
  have hn : (keys (choose f d)).Nodup := (keys_choose_sublist f d).nodup h
  ext v
  rw [lookup_iff_mem hn, mem_choose, Option.bind_eq_some_iff]
  constructor
  · rintro ⟨a, ha, hv⟩
    exact ⟨a, lookup_of_mem h ha, hv⟩
  · rintro ⟨a, ha, hv⟩
    exact ⟨a, mem_of_lookup ha, hv⟩

/-- New values under the old keys. -/
theorem lookup_values (f : κ → α → β) (d : List (κ × α)) (k : κ) :
    (d.map fun p => (p.1, f p.1 p.2)).lookup k = (d.lookup k).map (f k) := by
  induction d with
  | nil => rfl
  | cons p d ih =>
    rw [List.map_cons, List.lookup_cons, List.lookup_cons]
    split
    · next hk =>
      rw [eq_of_beq hk]
      rfl
    · exact ih

theorem lookup_eq_none {d : List (κ × α)} {k : κ} : d.lookup k = none ↔ k ∉ keys d := by
  induction d with
  | nil => simp [keys]
  | cons p d ih =>
    rw [List.lookup_cons]
    split
    · next hk => simp [keys, eq_of_beq hk]
    · next hk =>
      have hne : k ≠ p.1 := by simpa using hk
      rw [ih]
      simp [keys, hne]

theorem lookup_put (d : List (κ × α)) (k j : κ) (v : α) :
    (put d k v).lookup j = if j = k then some v else d.lookup j := by
  unfold put
  split
  · next hmem =>
    have hvalues := lookup_values (fun i a => if i = k then v else a) d j
    have hsame : (d.map fun p => if p.1 = k then (k, v) else p) =
        d.map fun p => (p.1, if p.1 = k then v else p.2) := by
      apply List.map_congr_left
      intro p _
      by_cases hp : p.1 = k <;> simp [hp]
    rw [hsame, hvalues]
    by_cases hj : j = k
    · subst hj
      cases hl : d.lookup j with
      | none => exact absurd hmem (lookup_eq_none.mp hl)
      | some a => simp
    · cases d.lookup j <;> simp [hj]
  · next hmem =>
    rw [List.lookup_append]
    by_cases hj : j = k
    · subst hj
      rw [lookup_eq_none.mpr hmem]
      simp
    · have hne : (j == k) = false := beq_false_of_ne hj
      simp [hj, List.lookup_cons, hne]

/-- Entries that are left out are not found, the others are. -/
theorem lookup_filter_keys (keep : κ → Bool) (d : List (κ × α)) (k : κ) :
    (d.filter fun p => keep p.1).lookup k = if keep k then d.lookup k else none := by
  induction d with
  | nil => simp
  | cons p d ih =>
    rw [List.filter_cons, List.lookup_cons]
    by_cases hk : k = p.1
    · subst hk
      cases hkeep : keep p.1 with
      | true =>
        rw [if_pos rfl, if_pos rfl, List.lookup_cons, beq_self_eq_true]
      | false =>
        simp only [Bool.false_eq_true, if_false, ih, hkeep]
    · have hne : (k == p.1) = false := beq_false_of_ne hk
      rw [hne]
      split
      · rw [List.lookup_cons, hne]
        exact ih
      · exact ih

/-- `d.get(k)`. -/
def get (d : List (κ × α)) (k : κ) : Option α := d.lookup k

theorem get_put (d : List (κ × α)) (k j : κ) (v : α) :
    get (put d k v) j = if j = k then some v else get d j := lookup_put d k j v

theorem get_iff_mem {d : List (κ × α)} (h : (keys d).Nodup) {k : κ} {v : α} :
    get d k = some v ↔ (k, v) ∈ d := lookup_iff_mem h

omit [DecidableEq κ] in
theorem nodup_filter {d : List (κ × α)} (h : (keys d).Nodup) (p : κ × α → Bool) :
    (keys (d.filter p)).Nodup := (List.filter_sublist.map Prod.fst).nodup h

/-- Entries that are left out are not found. -/
theorem get_filter {d : List (κ × α)} (h : (keys d).Nodup) (p : κ × α → Bool) (k : κ) :
    get (d.filter p) k = (get d k).filter fun v => p (k, v) := by
  ext v
  rw [get_iff_mem (nodup_filter h p), List.mem_filter, Option.filter_eq_some_iff, get_iff_mem h]

end Dict
