-- The first things of each kind in a list, some of them left out, and lists that are read
-- again from a place before the end of what was read. Nothing here is about a program.
import Mathlib.Data.List.Basic
import Mathlib.Data.List.Induction
import Mathlib.Data.List.TakeDrop

namespace Firsts

variable {α : Type} (skip : α → Bool) (same : α → α → Bool)

/-- The thing adds nothing to those that are there. -/
def Old (T : List α) (e : α) : Prop := skip e = true ∨ ∃ l ∈ T, same l e = true

instance (T : List α) (e : α) : Decidable (Old skip same T e) :=
  inferInstanceAs (Decidable (_ ∨ _))

def add (T : List α) (e : α) : List α := if Old skip same T e then T else T ++ [e]

/-- The first thing of each kind, in order. -/
def firsts (L : List α) : List α := L.foldl (add skip same) []

variable {skip same} {T U L M : List α} {e l : α}

theorem add_old (h : Old skip same T e) : add skip same T e = T := if_pos h

theorem add_new (h : ¬ Old skip same T e) : add skip same T e = T ++ [e] := if_neg h

theorem add_start (T : List α) (e : α) : T <+: add skip same T e := by
  unfold add
  split
  · exact List.prefix_refl _
  · exact List.prefix_append _ _

theorem Old.mono (h : Old skip same T e) (hsub : T ⊆ U) : Old skip same U e := by
  rcases h with hskip | ⟨l, hl, hsame⟩
  · exact .inl hskip
  · exact .inr ⟨l, hsub hl, hsame⟩

theorem foldl_start (T L : List α) : T <+: L.foldl (add skip same) T := by
  induction L generalizing T with
  | nil => exact List.prefix_refl _
  | cons e L ih => exact (add_start T e).trans (ih _)

/-- Things that add nothing. -/
theorem foldl_old (h : ∀ e ∈ L, Old skip same T e) : L.foldl (add skip same) T = T := by
  induction L with
  | nil => rfl
  | cons e L ih =>
    rw [List.foldl_cons, add_old (h e (by simp))]
    exact ih fun x hx => h x (List.mem_cons_of_mem _ hx)

theorem firsts_append (L M : List α) :
    firsts skip same (L ++ M) = M.foldl (add skip same) (firsts skip same L) :=
  List.foldl_append

theorem mem_foldl (h : l ∈ L.foldl (add skip same) T) : l ∈ T ∨ l ∈ L := by
  induction L generalizing T with
  | nil => exact .inl h
  | cons e L ih =>
    rcases ih h with hl | hl
    · by_cases hold : Old skip same T e
      · rw [add_old hold] at hl
        exact .inl hl
      · rw [add_new hold] at hl
        rcases List.mem_append.mp hl with hl | hl
        · exact .inl hl
        · exact .inr (by simp [List.mem_singleton.mp hl])
    · exact .inr (List.mem_cons_of_mem _ hl)

theorem mem_firsts (h : l ∈ firsts skip same L) : l ∈ L := by
  rcases mem_foldl h with h | h
  · cases h
  · exact h

/-- Where nothing is left out and no two are of a kind. -/
theorem firsts_distinct (hskip : ∀ e ∈ L, skip e = false)
    (hd : L.Pairwise fun l e => same l e = false) : firsts skip same L = L := by
  induction L using List.reverseRecOn with
  | nil => rfl
  | append_singleton L e ih =>
    obtain ⟨hL, -, hcross⟩ := List.pairwise_append.mp hd
    rw [firsts_append, ih (fun x hx => hskip x (List.mem_append_left _ hx)) hL]
    refine add_new ?_
    rintro (h | ⟨l, hl, h⟩)
    · simp [hskip e (by simp)] at h
    · simp [hcross l hl e (by simp)] at h

/-! ## Kinds that a thing belongs to itself -/

section

variable (hrefl : ∀ e, same e e = true)

include hrefl

theorem old_add (T : List α) (e : α) : Old skip same (add skip same T e) e := by
  by_cases h : Old skip same T e
  · rwa [add_old h]
  · rw [add_new h]
    exact .inr ⟨e, by simp, hrefl e⟩

/-- A thing that was gone over adds nothing any more. -/
theorem old_foldl (he : e ∈ L) : Old skip same (L.foldl (add skip same) T) e := by
  induction L generalizing T with
  | nil => cases he
  | cons d L ih =>
    rcases List.mem_cons.mp he with rfl | he
    · exact (old_add hrefl T e).mono (foldl_start _ L).subset
    · exact ih he

/-- A piece that begins where all was gone over adds what it goes beyond it. -/
theorem foldl_piece {H ls : List α} {a k : Nat} (hle : a ≤ k) (hls : ls <+: H.drop a) :
    ls.foldl (add skip same) (firsts skip same (H.take k)) =
      firsts skip same (H.take (max k (a + ls.length))) := by
  have hlen : ls = (H.drop a).take ls.length := List.prefix_iff_eq_take.mp hls
  have hend : H.take (a + ls.length) = H.take a ++ ls := by rw [List.take_add, ← hlen]
  have hfirst : ∀ e ∈ H.take k, Old skip same (firsts skip same (H.take k)) e :=
    fun e he => old_foldl hrefl he
  rcases Nat.le_total (a + ls.length) k with hin | hout
  · rw [Nat.max_eq_left hin]
    apply foldl_old
    intro e he
    apply hfirst
    have hsub : H.take (a + ls.length) ⊆ H.take k := (List.take_prefix_take_left hin).subset
    exact hsub (by rw [hend]; exact List.mem_append_right _ he)
  · rw [Nat.max_eq_right hout]
    have hcut : ls = ls.take (k - a) ++ ls.drop (k - a) := (List.take_append_drop _ _).symm
    have hk : H.take k = H.take a ++ ls.take (k - a) := by
      have hka : k = a + (k - a) := by omega
      conv_lhs => rw [hka, List.take_add]
      conv_rhs => rw [hlen, List.take_take, Nat.min_eq_left (by omega)]
    have hall : H.take (a + ls.length) = H.take k ++ ls.drop (k - a) := by
      rw [hend, hk, List.append_assoc, ← hcut]
    rw [hall, firsts_append]
    conv_lhs => rw [hcut, List.foldl_append]
    congr 1
    apply foldl_old
    intro e he
    exact hfirst e (by rw [hk]; exact List.mem_append_right _ he)

end

/-- Things that add nothing may be counted as gone over. -/
theorem firsts_raise {H : List α} {k m : Nat}
    (h : ∀ e ∈ H.take m, Old skip same (firsts skip same (H.take k)) e) :
    firsts skip same (H.take (max k m)) = firsts skip same (H.take k) := by
  rcases Nat.le_total m k with hle | hle
  · rw [Nat.max_eq_left hle]
  · rw [Nat.max_eq_right hle]
    have hsplit : H.take m = H.take k ++ (H.drop k).take (m - k) := by
      rw [← List.take_add, Nat.add_sub_cancel' hle]
    conv_lhs => rw [hsplit, firsts_append]
    apply foldl_old
    intro e he
    exact h e (by rw [hsplit]; exact List.mem_append_right _ he)

end Firsts
