-- The longest stretches of a list whose elements meet a predicate, and how many
-- of them, and of their places, lie in a window at the end of the list. Nothing
-- here is about a program.
import Mathlib.Data.Set.Card
import Mathlib.Algebra.BigOperators.Group.Finset.Basic
import Mathlib.Data.List.Induction
import Mathlib.Order.Interval.Finset.Nat

namespace Stretches

variable {α : Type} {p : α → Prop} {l : List α} {i j k i' j' d lo n : Nat}

/-- The place `k` holds an element that meets `p`. -/
def At (p : α → Prop) (l : List α) (k : Nat) : Prop := ∃ a, l[k]? = some a ∧ p a

theorem At.lt (h : At p l k) : k < l.length := by
  obtain ⟨a, ha, -⟩ := h
  exact (List.getElem?_eq_some_iff.mp ha).1

theorem at_snoc_lt (x : α) (hk : k < l.length) : At p (l ++ [x]) k ↔ At p l k := by
  unfold At
  rw [List.getElem?_append_left hk]

theorem at_snoc_self (x : α) : At p (l ++ [x]) l.length ↔ p x := by
  simp [At]

theorem at_drop : At p (l.drop d) k ↔ At p l (d + k) := by
  simp [At]

/-- The places from `i` on and before `j` are a longest stretch. -/
structure Stretch (p : α → Prop) (l : List α) (i j : Nat) : Prop where
  lt : i < j
  inside : ∀ k, i ≤ k → k < j → At p l k
  before : ∀ k, k + 1 = i → ¬ At p l k
  after : ¬ At p l j

theorem Stretch.le_length (h : Stretch p l i j) : j ≤ l.length := by
  have hlast := (h.inside (j - 1) (by have := h.lt; omega) (by have := h.lt; omega)).lt
  omega

/-- Two stretches with a place in common are one. -/
theorem Stretch.unique (h : Stretch p l i j) (h' : Stretch p l i' j') (hi : i ≤ k) (hj : k < j)
    (hi' : i' ≤ k) (hj' : k < j') : i = i' ∧ j = j' := by
  have hstart : i = i' := by
    rcases Nat.lt_trichotomy i i' with hlt | heq | hlt
    · exact absurd (h.inside (i' - 1) (by omega) (by omega)) (h'.before _ (by omega))
    · exact heq
    · exact absurd (h'.inside (i - 1) (by omega) (by omega)) (h.before _ (by omega))
  have hstop : j = j' := by
    rcases Nat.lt_trichotomy j j' with hlt | heq | hlt
    · exact absurd (h'.inside j (by omega) hlt) h.after
    · exact heq
    · exact absurd (h.inside j' (by omega) hlt) h'.after
  exact ⟨hstart, hstop⟩

/-! ## Stretches of a list that grows -/

theorem stretch_snoc_lt (x : α) (hj : j < l.length) :
    Stretch p (l ++ [x]) i j ↔ Stretch p l i j := by
  have hat : ∀ k, k ≤ j → (At p (l ++ [x]) k ↔ At p l k) :=
    fun k hk => at_snoc_lt x (by omega)
  constructor
  · intro h
    have hlt := h.lt
    exact ⟨hlt, fun k hi hk => (hat k (by omega)).mp (h.inside k hi hk),
      fun k hk hp => h.before k hk ((hat k (by omega)).mpr hp),
      fun hp => h.after ((hat j le_rfl).mpr hp)⟩
  · intro h
    have hlt := h.lt
    exact ⟨hlt, fun k hi hk => (hat k (by omega)).mpr (h.inside k hi hk),
      fun k hk hp => h.before k hk ((hat k (by omega)).mp hp),
      fun hp => h.after ((hat j le_rfl).mp hp)⟩

theorem stretch_snoc_end (x : α) :
    Stretch p (l ++ [x]) i l.length ↔ ¬ p x ∧ Stretch p l i l.length := by
  have hend : ¬ At p l l.length := fun h => absurd h.lt (by omega)
  constructor
  · intro h
    have hlt := h.lt
    exact ⟨fun hx => h.after ((at_snoc_self x).mpr hx), hlt,
      fun k hi hk => (at_snoc_lt x hk).mp (h.inside k hi hk),
      fun k hk hp => h.before k hk ((at_snoc_lt x (by omega)).mpr hp), hend⟩
  · rintro ⟨hx, h⟩
    have hlt := h.lt
    exact ⟨hlt, fun k hi hk => (at_snoc_lt x hk).mpr (h.inside k hi hk),
      fun k hk hp => h.before k hk ((at_snoc_lt x (by omega)).mp hp),
      fun hp => hx ((at_snoc_self x).mp hp)⟩

/-- `n` elements at the end meet `p`, and the one before them does not. -/
structure Tail (p : α → Prop) (l : List α) (n : Nat) : Prop where
  le : n ≤ l.length
  inside : ∀ k, l.length ≤ k + n → k < l.length → At p l k
  before : ∀ k, k + n + 1 = l.length → ¬ At p l k

theorem Tail.nil : Tail p [] 0 := ⟨le_rfl, by simp, by simp⟩

theorem Tail.snoc {x : α} (h : Tail p l n) (hx : p x) : Tail p (l ++ [x]) (n + 1) := by
  refine ⟨by simpa using h.le, ?_, ?_⟩
  · intro k hn hk
    simp only [List.length_append, List.length_singleton] at hn hk
    rcases Nat.lt_or_eq_of_le (Nat.le_of_lt_succ hk) with hlt | rfl
    · exact (at_snoc_lt x hlt).mpr (h.inside k (by omega) hlt)
    · exact (at_snoc_self x).mpr hx
  · intro k hk hp
    simp only [List.length_append, List.length_singleton] at hk
    exact h.before k (by omega) ((at_snoc_lt x (by omega)).mp hp)

theorem Tail.snoc_not {x : α} (hx : ¬ p x) : Tail p (l ++ [x]) 0 := by
  refine ⟨Nat.zero_le _, ?_, ?_⟩
  · intro k hn hk
    omega
  · intro k hk hp
    simp only [List.length_append, List.length_singleton, Nat.add_zero, Nat.add_right_cancel_iff]
      at hk
    subst hk
    exact hx ((at_snoc_self x).mp hp)

/-- The stretch at the end of the list is its tail. -/
theorem Tail.stretch_iff (h : Tail p l n) :
    Stretch p l i l.length ↔ 0 < n ∧ i + n = l.length := by
  have hend : ¬ At p l l.length := fun hp => absurd hp.lt (by omega)
  have hle := h.le
  have hstretch : 0 < n → Stretch p l (l.length - n) l.length := fun hn =>
    ⟨by omega, fun k hi hk => h.inside k (by omega) hk, fun k hk => h.before k (by omega), hend⟩
  constructor
  · intro hs
    have hlt := hs.lt
    have hn : 0 < n := by
      by_contra h0
      exact h.before (l.length - 1) (by omega) (hs.inside _ (by omega) (by omega))
    have heq := hs.unique (hstretch hn) (k := l.length - 1) (by omega) (by omega) (by omega)
      (by omega)
    exact ⟨hn, by omega⟩
  · rintro ⟨hn, hi⟩
    have := hstretch hn
    rwa [← hi, Nat.add_sub_cancel, hi] at this

/-! ## A list without its beginning -/

/-- Past the cut the stretches are the same. -/
theorem stretch_drop (hi : 0 < i) :
    Stretch p (l.drop d) i j ↔ Stretch p l (d + i) (d + j) := by
  constructor
  · intro h
    refine ⟨by have := h.lt; omega, ?_, ?_, fun hp => h.after (at_drop.mpr hp)⟩
    · intro k hk hkj
      have := h.inside (k - d) (by omega) (by omega)
      rwa [at_drop, Nat.add_sub_cancel' (by omega)] at this
    · intro k hk hp
      refine h.before (k - d) (by omega) ?_
      rwa [at_drop, Nat.add_sub_cancel' (by omega)]
  · intro h
    refine ⟨by have := h.lt; omega, ?_, ?_, fun hp => h.after (at_drop.mp hp)⟩
    · intro k hk hkj
      exact at_drop.mpr (h.inside _ (by omega) (by omega))
    · intro k hk hp
      exact h.before (d + k) (by omega) (at_drop.mp hp)

/-- The stretches shorter than `n` that reach past `lo`. -/
def short (p : α → Prop) (l : List α) (n lo : Nat) : Set (Nat × Nat) :=
  {s | Stretch p l s.1 s.2 ∧ s.2 - s.1 < n ∧ lo < s.2}

/-- Their places from `lo` on. -/
def shortPlaces (p : α → Prop) (l : List α) (n lo : Nat) : Set Nat :=
  {k | lo ≤ k ∧ ∃ i j, Stretch p l i j ∧ j - i < n ∧ i ≤ k ∧ k < j}

/-- With `n` elements to spare before the window, a short stretch in it is whole. -/
theorem short_drop (hd : d + n ≤ lo) :
    short p l n lo = (fun s : Nat × Nat => (d + s.1, d + s.2)) '' short p (l.drop d) n (lo - d) := by
  ext ⟨i, j⟩
  constructor
  · rintro ⟨hs, hn, hlo⟩
    simp only at hs hn hlo
    obtain ⟨i, rfl⟩ : ∃ i', i = d + i' := ⟨i - d, by omega⟩
    obtain ⟨j, rfl⟩ : ∃ j', j = d + j' := ⟨j - d, by omega⟩
    refine ⟨(i, j), ⟨(stretch_drop (by omega)).mpr hs, ?_, ?_⟩, rfl⟩ <;> simp only <;> omega
  · rintro ⟨⟨i, j⟩, ⟨hs, hn, hlo⟩, heq⟩
    simp only [Prod.mk.injEq] at hs hn hlo heq
    obtain ⟨rfl, rfl⟩ := heq
    refine ⟨(stretch_drop (by omega)).mp hs, ?_, ?_⟩ <;> simp only <;> omega

theorem shortPlaces_drop (hd : d + n ≤ lo) :
    shortPlaces p l n lo = (d + ·) '' shortPlaces p (l.drop d) n (lo - d) := by
  ext k
  simp only [Set.mem_image]
  constructor
  · rintro ⟨hlo, i, j, hs, hn, hi, hj⟩
    obtain ⟨i, rfl⟩ : ∃ i', i = d + i' := ⟨i - d, by omega⟩
    obtain ⟨j, rfl⟩ : ∃ j', j = d + j' := ⟨j - d, by omega⟩
    have hs' := (stretch_drop (by omega)).mpr hs
    exact ⟨k - d, ⟨by omega, i, j, hs', by omega, by omega, by omega⟩, by omega⟩
  · rintro ⟨k, ⟨hlo, i, j, hs, hn, hi, hj⟩, rfl⟩
    have hs' := (stretch_drop (by omega)).mp hs
    exact ⟨by omega, d + i, d + j, hs', by omega, by omega, by omega⟩

theorem ncard_short_drop (hd : d + n ≤ lo) :
    (short p l n lo).ncard = (short p (l.drop d) n (lo - d)).ncard := by
  rw [short_drop hd]
  apply Set.ncard_image_of_injective
  rintro ⟨i, j⟩ ⟨i', j'⟩ h
  simp only [Prod.mk.injEq] at h ⊢
  omega

theorem ncard_shortPlaces_drop (hd : d + n ≤ lo) :
    (shortPlaces p l n lo).ncard = (shortPlaces p (l.drop d) n (lo - d)).ncard := by
  rw [shortPlaces_drop hd]
  apply Set.ncard_image_of_injective
  exact add_right_injective d

/-! ## A list of stretches -/

/-- The stretches that stop before `b`: where each stops, and how long it is. -/
structure Lists (p : α → Prop) (l : List α) (b : Nat) (R : List (Nat × Nat)) : Prop where
  mem : ∀ j n, (j, n) ∈ R ↔ ∃ i, i + n = j ∧ j < b ∧ Stretch p l i j
  nodup : R.Nodup

variable {R : List (Nat × Nat)}

theorem Lists.nil : Lists p [] 0 [] := ⟨by simp, List.nodup_nil⟩

/-- The stretch at the end is added. -/
theorem Lists.close (h : Lists p l l.length R) (ht : Tail p l n) :
    Lists p l (l.length + 1) (if n ≠ 0 then R ++ [(l.length, n)] else R) := by
  split
  · rename_i hn
    refine ⟨fun j m => ?_, ?_⟩
    · rw [List.mem_append, h.mem, List.mem_singleton, Prod.mk.injEq]
      constructor
      · rintro (⟨i, hi, hj, hs⟩ | ⟨rfl, rfl⟩)
        · exact ⟨i, hi, by omega, hs⟩
        · have hle := ht.le
          exact ⟨l.length - m, by omega, by omega, ht.stretch_iff.mpr ⟨by omega, by omega⟩⟩
      · rintro ⟨i, hi, hj, hs⟩
        rcases Nat.lt_or_eq_of_le (Nat.le_of_lt_succ hj) with hlt | rfl
        · exact .inl ⟨i, hi, hlt, hs⟩
        · have := (ht.stretch_iff.mp hs).2
          exact .inr ⟨rfl, by omega⟩
    · refine List.nodup_append.mpr ⟨h.nodup, List.nodup_singleton _, ?_⟩
      rintro ⟨j, m⟩ hj e he rfl
      obtain ⟨i, -, hlt, -⟩ := (h.mem j m).mp hj
      simp only [List.mem_singleton, Prod.mk.injEq] at he
      omega
  · rename_i hn
    refine ⟨fun j m => ?_, h.nodup⟩
    rw [h.mem]
    constructor
    · rintro ⟨i, hi, hj, hs⟩
      exact ⟨i, hi, by omega, hs⟩
    · rintro ⟨i, hi, hj, hs⟩
      rcases Nat.lt_or_eq_of_le (Nat.le_of_lt_succ hj) with hlt | rfl
      · exact ⟨i, hi, hlt, hs⟩
      · exact absurd (ht.stretch_iff.mp hs).1 (by omega)

theorem Lists.snoc {x : α} (h : Lists p l l.length R) (hx : p x) :
    Lists p (l ++ [x]) (l.length + 1) R := by
  refine ⟨fun j m => ?_, h.nodup⟩
  rw [h.mem]
  constructor
  · rintro ⟨i, hi, hj, hs⟩
    exact ⟨i, hi, by omega, (stretch_snoc_lt x hj).mpr hs⟩
  · rintro ⟨i, hi, hj, hs⟩
    rcases Nat.lt_or_eq_of_le (Nat.le_of_lt_succ hj) with hlt | rfl
    · exact ⟨i, hi, hlt, (stretch_snoc_lt x hlt).mp hs⟩
    · exact absurd hx ((stretch_snoc_end x).mp hs).1

theorem Lists.snoc_not {x : α} (h : Lists p l (l.length + 1) R) (hx : ¬ p x) :
    Lists p (l ++ [x]) (l.length + 1) R := by
  refine ⟨fun j m => ?_, h.nodup⟩
  rw [h.mem]
  refine exists_congr fun i => and_congr_right fun hi => and_congr_right fun hj => ?_
  rcases Nat.lt_or_eq_of_le (Nat.le_of_lt_succ hj) with hlt | rfl
  · exact (stretch_snoc_lt x hlt).symm
  · rw [stretch_snoc_end]
    exact ⟨fun hs => ⟨hx, hs⟩, And.right⟩

/-! ## Counting -/

/-- The short ones of the list. -/
def pick (R : List (Nat × Nat)) (n lo : Nat) : List (Nat × Nat) :=
  R.filter fun e => e.2 < n ∧ lo < e.1

theorem Lists.mem_pick (h : Lists p l (l.length + 1) R) {e : Nat × Nat} :
    e ∈ pick R n lo ↔ e.2 ≤ e.1 ∧ Stretch p l (e.1 - e.2) e.1 ∧ e.2 < n ∧ lo < e.1 := by
  obtain ⟨j, m⟩ := e
  simp only [pick, List.mem_filter, h.mem, decide_eq_true_eq]
  constructor
  · rintro ⟨⟨i, hi, -, hs⟩, hn, hlo⟩
    obtain rfl : i = j - m := by omega
    exact ⟨by omega, hs, hn, hlo⟩
  · rintro ⟨hle, hs, hn, hlo⟩
    exact ⟨⟨j - m, by omega, Nat.lt_succ_of_le hs.le_length, hs⟩, hn, hlo⟩

theorem Lists.nodup_pick (h : Lists p l (l.length + 1) R) : (pick R n lo).Nodup := h.nodup.filter _

/-- As many as there are short stretches. -/
theorem Lists.length_pick (h : Lists p l (l.length + 1) R) :
    (pick R n lo).length = (short p l n lo).ncard := by
  have himage : short p l n lo =
      ((fun e : Nat × Nat => (e.1 - e.2, e.1)) '' ((pick R n lo).toFinset : Set (Nat × Nat))) := by
    ext ⟨i, j⟩
    simp only [Set.mem_image, List.coe_toFinset, Set.mem_ofPred_eq, h.mem_pick, Prod.mk.injEq]
    constructor
    · rintro ⟨hs, hn, hlo⟩
      have hlt := hs.lt
      simp only at hs hn hlo hlt
      refine ⟨(j, j - i), ⟨by simp, ?_, hn, hlo⟩, by simp only; omega, rfl⟩
      simpa [Nat.sub_sub_self (Nat.le_of_lt hlt)] using hs
    · rintro ⟨⟨j', m⟩, ⟨hle, hs, hn, hlo⟩, rfl, rfl⟩
      exact ⟨hs, by simp only at hle hn ⊢; omega, hlo⟩
  rw [himage, Set.InjOn.ncard_image ?_, Set.ncard_coe_finset,
    List.toFinset_card_of_nodup h.nodup_pick]
  rintro ⟨j, m⟩ hj ⟨j', m'⟩ hj' heq
  simp only [List.coe_toFinset, Set.mem_ofPred_eq, h.mem_pick] at hj hj'
  simp only [Prod.mk.injEq] at heq ⊢
  omega

/-- The places of an entry in the window. -/
def places (lo : Nat) (e : Nat × Nat) : Finset Nat := Finset.Ico (max (e.1 - e.2) lo) e.1

theorem Lists.disjoint_places (h : Lists p l (l.length + 1) R) :
    ((pick R n lo).toFinset : Set (Nat × Nat)).PairwiseDisjoint (places lo) := by
  rintro ⟨j, m⟩ hj ⟨j', m'⟩ hj' hne
  simp only [List.coe_toFinset, Set.mem_ofPred_eq, h.mem_pick] at hj hj'
  rw [Function.onFun, Finset.disjoint_left]
  intro k hk hk'
  simp only [places, Finset.mem_Ico, max_le_iff] at hk hk'
  have heq := hj.2.1.unique hj'.2.1 hk.1.1 hk.2 hk'.1.1 hk'.2
  exact hne (Prod.ext heq.2 (by simp only at heq hj hj' ⊢; omega))

/-- The lengths in the window add up to the number of the places. -/
theorem Lists.sum_pick (h : Lists p l (l.length + 1) R) :
    ((pick R n lo).map fun e => e.1 - max (e.1 - e.2) lo).sum = (shortPlaces p l n lo).ncard := by
  have hunion : shortPlaces p l n lo =
      (((pick R n lo).toFinset.biUnion (places lo) : Finset Nat) : Set Nat) := by
    ext k
    simp only [Finset.coe_biUnion, Set.mem_iUnion, Finset.mem_coe, List.mem_toFinset, h.mem_pick,
      places, Finset.mem_Ico, max_le_iff, exists_prop, Prod.exists]
    constructor
    · rintro ⟨hlo, i, j, hs, hn, hi, hj⟩
      have hlt := hs.lt
      refine ⟨j, j - i, ⟨by omega, ?_, by omega, by omega⟩, ⟨by omega, hlo⟩, hj⟩
      rwa [Nat.sub_sub_self (Nat.le_of_lt hlt)]
    · rintro ⟨j, m, ⟨hle, hs, hn, -⟩, ⟨hi, hlo⟩, hj⟩
      exact ⟨hlo, j - m, j, hs, by omega, hi, hj⟩
  rw [hunion, Set.ncard_coe_finset, Finset.card_biUnion h.disjoint_places,
    ← List.sum_toFinset _ h.nodup_pick]
  exact Finset.sum_congr rfl fun e _ => (Nat.card_Ico _ _).symm

end Stretches
