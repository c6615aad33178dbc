-- Numbers of double precision, as the rationals that they are: what a number is rounded to, that
-- the rounding keeps the order, and how a list is added up. The exponent has no bounds. Nothing
-- here is about a program.
import Mathlib.Algebra.Order.Round
import Mathlib.Data.Int.Log
import Mathlib.Data.Rat.Floor
import Mathlib.Tactic.Linarith

namespace Doubles

/-- The nearest integer; a half goes to the even number. -/
def roundHalf (x : ℚ) : Int :=
  if x - ⌊x⌋ = 1 / 2 then (if ⌊x⌋ % 2 = 0 then ⌊x⌋ else ⌊x⌋ + 1) else round x

/-- The place of the last of 53 binary digits of a positive number. -/
def ulp (x : ℚ) : ℚ := 2 ^ (Int.log 2 x - 52)

/-- The nearest number with so many digits. -/
def near (x : ℚ) : ℚ := roundHalf (x / ulp x) * ulp x

/-- The double nearest to a number. -/
def fl (x : ℚ) : ℚ := if x < 0 then -near (-x) else near x

/-! ## A list added up -/

/-- A number of a list: an integer, or a double. -/
inductive Num
  | int (n : Int)
  | float (x : ℚ)
deriving DecidableEq

def Num.value : Num → ℚ
  | .int n => fl n
  | .float x => x

/-- A sum, and what its roundings lost (`cs_add`). -/
def addTo (s : ℚ × ℚ) (x : ℚ) : ℚ × ℚ :=
  let t := fl (s.1 + x)
  let lost := if |x| ≤ |s.1| then fl (fl (s.1 - t) + x) else fl (fl (x - t) + s.1)
  (t, fl (s.2 + lost))

/-- `sum`: exact as long as there are only integers, with the lost parts added at the end once
there are doubles. -/
def sumFrom (start : Int) : List Num → ℚ
  | [] => start
  | .int n :: xs => sumFrom (start + n) xs
  | .float x :: xs =>
    let s := (xs.map Num.value).foldl addTo (fl (fl start + x), 0)
    fl (s.1 + s.2)

/-! ## The nearest integer -/

theorem abs_sub_roundHalf (x : ℚ) : |x - roundHalf x| ≤ 1 / 2 := by
  unfold roundHalf
  split
  next hhalf =>
    split
    · rw [hhalf, abs_of_pos (by norm_num)]
    · have heq : x - ((⌊x⌋ + 1 : Int) : ℚ) = -(1 / 2) := by
        push_cast
        linarith
      rw [heq, abs_neg, abs_of_pos (by norm_num)]
  next => exact abs_sub_round x

theorem roundHalf_mono {x y : ℚ} (h : x ≤ y) : roundHalf x ≤ roundHalf y := by
  by_contra hlt
  have hone : ((roundHalf y : Int) : ℚ) + 1 ≤ roundHalf x := by exact_mod_cast not_le.mp hlt
  have hx := abs_le.mp (abs_sub_roundHalf x)
  have hy := abs_le.mp (abs_sub_roundHalf y)
  -- both are halves, of one number
  have hxy : x = y := le_antisymm h (by linarith [hx.1, hy.2])
  rw [hxy] at hone
  linarith

theorem roundHalf_int (n : Int) : roundHalf n = n := by
  unfold roundHalf
  rw [if_neg (by norm_num), round_intCast]

theorem roundHalf_le {x : ℚ} {n : Int} (h : x ≤ n) : roundHalf x ≤ n :=
  (roundHalf_mono h).trans_eq (roundHalf_int n)

theorem le_roundHalf {x : ℚ} {n : Int} (h : (n : ℚ) ≤ x) : n ≤ roundHalf x :=
  (roundHalf_int n).symm.trans_le (roundHalf_mono h)

/-! ## The nearest double -/

theorem ulp_pos (x : ℚ) : 0 < ulp x := zpow_pos (by norm_num) _

theorem near_nonneg {x : ℚ} (h : 0 ≤ x) : 0 ≤ near x := by
  have hround : (0 : Int) ≤ roundHalf (x / ulp x) :=
    le_roundHalf (by simpa using div_nonneg h (ulp_pos x).le)
  exact mul_nonneg (by exact_mod_cast hround) (ulp_pos x).le

/-- A power of two is a multiple of the last place. -/
theorem zpow_eq_ulp (x : ℚ) (n : Nat) :
    (2 : ℚ) ^ (Int.log 2 x - 52 + n) = ((2 ^ n : Int) : ℚ) * ulp x := by
  unfold ulp
  rw [zpow_add₀ (by norm_num), zpow_natCast, mul_comm]
  push_cast
  rfl

theorem le_near {x : ℚ} (hx : 0 < x) : (2 : ℚ) ^ Int.log 2 x ≤ near x := by
  have hexp : Int.log 2 x = Int.log 2 x - 52 + (52 : Nat) := by push_cast; ring
  have hle : (2 : ℚ) ^ Int.log 2 x ≤ x := by exact_mod_cast Int.zpow_log_le_self Nat.one_lt_two hx
  rw [hexp, zpow_eq_ulp] at hle ⊢
  have hround : (2 ^ 52 : Int) ≤ roundHalf (x / ulp x) :=
    le_roundHalf ((le_div_iff₀ (ulp_pos x)).mpr hle)
  exact mul_le_mul_of_nonneg_right (by exact_mod_cast hround) (ulp_pos x).le

theorem near_le (x : ℚ) : near x ≤ (2 : ℚ) ^ (Int.log 2 x + 1) := by
  have hexp : Int.log 2 x + 1 = Int.log 2 x - 52 + (53 : Nat) := by push_cast; ring
  have hle : x ≤ (2 : ℚ) ^ (Int.log 2 x + 1) := by
    exact_mod_cast (Int.lt_zpow_succ_log_self Nat.one_lt_two x).le
  rw [hexp, zpow_eq_ulp] at hle ⊢
  have hround : roundHalf (x / ulp x) ≤ (2 ^ 53 : Int) :=
    roundHalf_le ((div_le_iff₀ (ulp_pos x)).mpr hle)
  exact mul_le_mul_of_nonneg_right (by exact_mod_cast hround) (ulp_pos x).le

/-- The order is kept: among numbers of one size by the integers, between sizes by the power of
two that parts them. -/
theorem near_mono {x y : ℚ} (hx : 0 ≤ x) (h : x ≤ y) : near x ≤ near y := by
  rcases hx.eq_or_lt with rfl | hx
  · have hzero : near 0 = 0 := by
      unfold near
      rw [zero_div]
      exact mul_eq_zero_of_left (by exact_mod_cast roundHalf_int 0) _
    rw [hzero]
    exact near_nonneg h
  · rcases (Int.log_mono_right hx h : Int.log 2 x ≤ Int.log 2 y).eq_or_lt with heq | hlt
    · have hulp : ulp y = ulp x := by
        unfold ulp
        rw [heq]
      unfold near
      rw [hulp]
      have hround := roundHalf_mono (div_le_div_of_nonneg_right h (ulp_pos x).le)
      exact mul_le_mul_of_nonneg_right (by exact_mod_cast hround) (ulp_pos x).le
    · calc near x ≤ (2 : ℚ) ^ (Int.log 2 x + 1) := near_le x
        _ ≤ (2 : ℚ) ^ Int.log 2 y := zpow_le_zpow_right₀ (by norm_num) hlt
        _ ≤ near y := le_near (hx.trans_le h)

theorem fl_nonneg {x : ℚ} (h : 0 ≤ x) : 0 ≤ fl x := by
  unfold fl
  rw [if_neg (not_lt.mpr h)]
  exact near_nonneg h

theorem fl_nonpos {x : ℚ} (h : x ≤ 0) : fl x ≤ 0 := by
  rcases h.eq_or_lt with rfl | h
  · decide +kernel
  · unfold fl
    rw [if_pos h]
    exact neg_nonpos.mpr (near_nonneg (by linarith))

theorem fl_mono {x y : ℚ} (h : x ≤ y) : fl x ≤ fl y := by
  rcases lt_or_ge x 0 with hx | hx
  · rcases lt_or_ge y 0 with hy | hy
    · unfold fl
      rw [if_pos hx, if_pos hy]
      exact neg_le_neg (near_mono (by linarith) (by linarith))
    · exact (fl_nonpos hx.le).trans (fl_nonneg hy)
  · unfold fl
    rw [if_neg (not_lt.mpr hx), if_neg (not_lt.mpr (hx.trans h))]
    exact near_mono hx h

end Doubles
