-- An interval of rationals cut into cells of one width, and sums over the entries of a
-- dictionary. Nothing here is about a program.
import Kervax.Dict
import Mathlib.Data.Rat.Floor
import Mathlib.Algebra.BigOperators.Group.List.Basic
import Mathlib.Tactic.Linarith
import Mathlib.Tactic.Ring
import Mathlib.Tactic.Abel

namespace Cells

variable {w t0 t1 : ℚ} {h k : Int}

/-- The cells from `h` on that begin before `t1`. -/
def cells (w t1 : ℚ) (h : Int) : List Int :=
  if 0 < w ∧ h * w < t1 then h :: cells w t1 (h + 1) else []
termination_by (⌈t1 / w⌉ - h).toNat
decreasing_by
  rename_i hgo
  have hlt : h < ⌈t1 / w⌉ := Int.lt_ceil.mpr ((lt_div_iff₀ hgo.1).mpr hgo.2)
  omega

theorem cells_of_lt (hw : 0 < w) (h1 : h * w < t1) : cells w t1 h = h :: cells w t1 (h + 1) := by
  rw [cells, if_pos ⟨hw, h1⟩]

theorem cells_of_le (h1 : t1 ≤ h * w) : cells w t1 h = [] := by
  rw [cells, if_neg fun hgo => not_lt.mpr h1 hgo.2]

/-- What lies of an interval in a cell. -/
def part (w t0 t1 : ℚ) (h : Int) : ℚ := min t1 ((h + 1) * w) - max t0 (h * w)

theorem mem_cells (hw : 0 < w) : k ∈ cells w t1 h ↔ h ≤ k ∧ k * w < t1 := by
  induction h using cells.induct w t1 with
  | case1 h hgo ih =>
    rw [cells_of_lt hw hgo.2, List.mem_cons, ih]
    constructor
    · rintro (rfl | ⟨hk, hlt⟩)
      · exact ⟨le_rfl, hgo.2⟩
      · exact ⟨by omega, hlt⟩
    · rintro ⟨hk, hlt⟩
      rcases hk.eq_or_lt with heq | hlt'
      · exact .inl heq.symm
      · exact .inr ⟨hlt', hlt⟩
  | case2 h hstop =>
    have hle : t1 ≤ h * w := not_lt.mp fun hlt => hstop ⟨hw, hlt⟩
    rw [cells_of_le hle]
    refine ⟨fun hk => (List.not_mem_nil hk).elim, fun ⟨hk, hlt⟩ => ?_⟩
    have hmono : (h : ℚ) * w ≤ k * w := mul_le_mul_of_nonneg_right (Int.cast_le.mpr hk) hw.le
    linarith

theorem nodup_cells (hw : 0 < w) (h : Int) : (cells w t1 h).Nodup := by
  induction h using cells.induct w t1 with
  | case1 h hgo ih =>
    rw [cells_of_lt hw hgo.2, List.nodup_cons]
    refine ⟨fun hmem => ?_, ih⟩
    have := ((mem_cells hw).mp hmem).1
    omega
  | case2 h hstop =>
    rw [cells_of_le (not_lt.mp fun hlt => hstop ⟨hw, hlt⟩)]
    exact List.nodup_nil

/-- A cell that the walk from the first one does not reach has nothing of the interval. -/
theorem part_nonpos (hw : 0 < w) (hk : k ∉ cells w t1 ⌊t0 / w⌋) : part w t0 t1 k ≤ 0 := by
  unfold part
  rw [mem_cells hw, not_and_or, not_le, not_lt] at hk
  rcases hk with hk | hk
  · have hle : ((k + 1 : Int) : ℚ) ≤ t0 / w := Int.le_floor.mp hk
    rw [le_div_iff₀ hw] at hle
    push_cast at hle
    have := min_le_right t1 ((k + 1) * w)
    have := le_max_left t0 (k * w)
    linarith
  · have := min_le_left t1 ((k + 1) * w)
    have := le_max_right t0 (k * w)
    linarith

/-- The cells from one on hold what lies of the interval from its beginning on. -/
theorem sum_parts_from (hw : 0 < w) (ht : t0 ≤ t1) (h0 : t0 < (h + 1) * w) :
    ((cells w t1 h).map fun k => max 0 (part w t0 t1 k)).sum =
      if h * w < t1 then t1 - max t0 (h * w) else 0 := by
  induction h using cells.induct w t1 with
  | case1 h hgo ih =>
    have hnext : ((h : ℚ) + 1) * w < ((h + 1 : Int) + 1) * w := by
      push_cast
      linarith
    rw [cells_of_lt hw hgo.2, List.map_cons, List.sum_cons, ih (by linarith), if_pos hgo.2]
    have hstart : max t0 (h * w) ≤ min t1 ((h + 1) * w) :=
      max_le (le_min ht h0.le) (le_min hgo.2.le (by linarith))
    have hpart : max 0 (part w t0 t1 h) = min t1 ((h + 1) * w) - max t0 (h * w) :=
      max_eq_right (sub_nonneg.mpr hstart)
    rw [hpart]
    push_cast
    split
    · rename_i hin
      rw [min_eq_right hin.le, max_eq_right h0.le]
      ring
    · rename_i hin
      rw [min_eq_left (not_lt.mp hin)]
      ring
  | case2 h hstop =>
    have hle : t1 ≤ h * w := not_lt.mp fun hlt => hstop ⟨hw, hlt⟩
    rw [cells_of_le hle, if_neg (not_lt.mpr hle)]
    rfl

/-- Nothing of the interval is lost, and nothing counts twice. -/
theorem sum_parts (hw : 0 < w) (ht : t0 ≤ t1) :
    ((cells w t1 ⌊t0 / w⌋).map fun k => max 0 (part w t0 t1 k)).sum = t1 - t0 := by
  have hfloor : (⌊t0 / w⌋ : ℚ) * w ≤ t0 := (le_div_iff₀ hw).mp (Int.floor_le _)
  have hnext : t0 < (⌊t0 / w⌋ + 1) * w := (div_lt_iff₀ hw).mp (Int.lt_floor_add_one _)
  rw [sum_parts_from hw ht hnext, max_eq_left hfloor]
  split
  · rfl
  · rename_i hin
    linarith [not_lt.mp hin]

end Cells

namespace Dict

variable {κ α M : Type} [DecidableEq κ] [AddCommGroup M]

theorem put_cons_self {d : List (κ × α)} {k : κ} (hd : k ∉ keys d) (a v : α) :
    put ((k, a) :: d) k v = (k, v) :: d := by
  have hsame : (d.map fun p => if p.1 = k then (k, v) else p) = d := by
    refine (List.map_congr_left fun p hp => ?_).trans (List.map_id d)
    rw [if_neg]
    · rfl
    · rintro rfl
      exact hd (List.mem_map_of_mem hp)
  unfold put
  rw [if_pos (by simp [keys]), List.map_cons, if_pos rfl, hsame]

theorem put_cons_ne {d : List (κ × α)} {p : κ × α} {k : κ} (hk : p.1 ≠ k) (v : α) :
    put (p :: d) k v = p :: put d k v := by
  unfold put
  by_cases hmem : k ∈ keys d
  · rw [if_pos hmem, if_pos (by simp [keys] at hmem ⊢; exact .inr hmem), List.map_cons, if_neg hk]
  · rw [if_neg hmem, if_neg (by simpa [keys, Ne.symm hk] using hmem), List.cons_append]

/-- The sum over a dictionary after a put: the old value of the key goes. -/
theorem sum_put {d : List (κ × α)} (hd : (keys d).Nodup) (k : κ) (v : α) (f : κ → α → M) :
    ((put d k v).map fun p => f p.1 p.2).sum =
      (d.map fun p => f p.1 p.2).sum - ((d.lookup k).map (f k)).getD 0 + f k v := by
  induction d with
  | nil => simp [put, keys]
  | cons p d ih =>
    obtain ⟨hp, hd'⟩ := List.nodup_cons.mp hd
    obtain ⟨j, a⟩ := p
    by_cases hk : j = k
    · subst hk
      rw [put_cons_self hp, List.lookup_cons_self]
      simp only [List.map_cons, List.sum_cons, Option.map_some, Option.getD_some]
      abel
    · have hne : (k == j) = false := beq_false_of_ne (Ne.symm hk)
      rw [put_cons_ne hk, List.lookup_cons, hne, List.map_cons, List.map_cons, List.sum_cons,
        List.sum_cons, ih hd']
      abel

end Dict
