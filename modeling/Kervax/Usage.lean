-- Who uses the network and the disk, by hours (`usage.py`): the reports' lists are spread
-- over hourly buckets, and what each bucket gets is what lies of the time in its hour.
import Kervax.Cells
import Kervax.FillAlert

namespace Kervax.Usage

open Cells

/-! ## `spread` -/

/-- A value of a report: whether Python takes it for true, what `float` makes of it, and
its text. -/
structure Val where
  truthy : Bool
  number : Option ℚ
  text : String

/-- An entry of a list: a dictionary, or something else. -/
abbrev Item := Option (List (String × Val))

/-- `float(it.get(key) or 0)`. -/
def amount (d : List (String × Val)) (key : String) : Option ℚ :=
  match d.lookup key with
  | some v => if v.truthy then v.number else some 0
  | none => some 0

/-- `str(it.get(key) or "")[:n]`. -/
def label (d : List (String × Val)) (key : String) (n : Nat) : String :=
  match d.lookup key with
  | some v => if v.truthy then String.ofList (v.text.toList.take n) else ""
  | none => ""

/-- `NAME_MAX`. -/
def nameMax : Nat := 200

/-- The two amounts of an entry. -/
inductive Col
  | a | b
deriving DecidableEq, Repr

/-- What an entry says: how much of each in the last `s` seconds. -/
structure Share where
  name : String
  kind : String
  s : ℚ
  a : ℚ
  b : ℚ

def Share.get (x : Share) : Col → ℚ
  | .a => x.a
  | .b => x.b

/-- An entry that counts: it can be read, has a window and a name, and used something. -/
def readItem (keys : String × String) (it : Item) : Option Share := do
  let d ← it
  let s ← amount d "s"
  let a ← amount d keys.1
  let b ← amount d keys.2
  let name := label d "name" nameMax
  if s ≤ 0 ∨ name = "" ∨ (a ≤ 0 ∧ b ≤ 0) then none
  else some ⟨name, label d "kind" 16, s, a, b⟩

structure Bucket where
  a : ℚ
  b : ℚ
  kind : String

def Bucket.get (v : Bucket) : Col → ℚ
  | .a => v.a
  | .b => v.b

/-- The hour since 1970, and the name. -/
structure Slot where
  hour : Int
  name : String
deriving DecidableEq

abbrev Buckets := List (Slot × Bucket)

/-- A part of an hour goes into its bucket. -/
def pour (x : Share) (out : Buckets) (h : Int) (secs : ℚ) : Buckets :=
  let acc := (out.lookup ⟨h, x.name⟩).getD ⟨0, 0, x.kind⟩
  Dict.put out ⟨h, x.name⟩ ⟨acc.a + x.a * secs / x.s, acc.b + x.b * secs / x.s, acc.kind⟩

/-- The loop over the hours. -/
def pourHours (x : Share) (t0 t1 : ℚ) (out : Buckets) : Buckets :=
  (cells 3600 t1 ⌊t0 / 3600⌋).foldl (fun out h =>
    if 0 < part 3600 t0 t1 h then pour x out h (part 3600 t0 t1 h) else out) out

/-- The entries that count. -/
def taken (items : List Item) (keys : String × String) : List Share :=
  items.filterMap (readItem keys)

/-- From when on an entry counts: the agent knows no more than its window. -/
def Share.from (x : Share) (start stop : Time) : ℚ := max (Fill.unix start) (Fill.unix stop - x.s)

def spread (items : List Item) (keys : String × String) (start stop : Time) : Buckets :=
  (taken items keys).foldl
    (fun out x => pourHours x (x.from start stop) (Fill.unix stop) out) []

/-! ## What the buckets hold -/

/-- What a bucket holds of an amount. -/
def held (out : Buckets) (h : Int) (name : String) (c : Col) : ℚ :=
  ((out.lookup ⟨h, name⟩).map (·.get c)).getD 0

/-- What all buckets of a name hold. -/
def total (out : Buckets) (name : String) (c : Col) : ℚ :=
  (out.map fun p => if p.1.name = name then p.2.get c else 0).sum

/-- What lies of an interval in an hour. -/
def inHour (t0 t1 : ℚ) (h : Int) : ℚ := max 0 (part 3600 t0 t1 h)

/-- A bucket grows by the amount of the part, and no other is touched. -/
theorem pour_eq (x : Share) (out : Buckets) (h : Int) (secs : ℚ) :
    ∃ v : Bucket, pour x out h secs = Dict.put out ⟨h, x.name⟩ v ∧
      ∀ c, v.get c = held out h x.name c + x.get c * secs / x.s := by
  refine ⟨_, rfl, fun c => ?_⟩
  unfold held
  cases out.lookup ⟨h, x.name⟩ <;> cases c <;> rfl

theorem nodup_pour {out : Buckets} (hout : (Dict.keys out).Nodup) (x : Share) (h : Int) (secs : ℚ) :
    (Dict.keys (pour x out h secs)).Nodup := Dict.nodup_put hout _ _

theorem held_pour (x : Share) (out : Buckets) (h k : Int) (secs : ℚ) (name : String) (c : Col) :
    held (pour x out h secs) k name c =
      held out k name c + if k = h ∧ name = x.name then x.get c * secs / x.s else 0 := by
  obtain ⟨v, hv, hget⟩ := pour_eq x out h secs
  by_cases hkey : k = h ∧ name = x.name
  · rw [if_pos hkey]
    obtain ⟨rfl, rfl⟩ := hkey
    rw [← hget c, hv, held, Dict.lookup_put, if_pos rfl]
    rfl
  · rw [if_neg hkey, add_zero, hv, held, Dict.lookup_put, if_neg (by simpa using hkey), held]

theorem total_pour {out : Buckets} (hout : (Dict.keys out).Nodup) (x : Share) (h : Int) (secs : ℚ)
    (name : String) (c : Col) :
    total (pour x out h secs) name c =
      total out name c + if name = x.name then x.get c * secs / x.s else 0 := by
  obtain ⟨v, hv, hget⟩ := pour_eq x out h secs
  rw [hv, total, Dict.sum_put hout ⟨h, x.name⟩ v fun (k : Slot) v => if k.name = name then v.get c else 0]
  by_cases hname : name = x.name
  · subst hname
    simp only [if_true, hget]
    unfold total held
    ring
  · have hne : x.name ≠ name := fun h => hname h.symm
    cases out.lookup ⟨h, x.name⟩ <;> simp [total, hname, hne]

/-- A step of the loop over the hours. -/
def pourPart (x : Share) (t0 t1 : ℚ) (out : Buckets) (h : Int) : Buckets :=
  if 0 < part 3600 t0 t1 h then pour x out h (part 3600 t0 t1 h) else out

theorem nodup_pourPart {out : Buckets} (hout : (Dict.keys out).Nodup) (x : Share) (t0 t1 : ℚ)
    (h : Int) : (Dict.keys (pourPart x t0 t1 out h)).Nodup := by
  unfold pourPart
  split
  · exact nodup_pour hout x h _
  · exact hout

theorem held_pourPart (x : Share) (t0 t1 : ℚ) (out : Buckets) (h k : Int) (name : String)
    (c : Col) :
    held (pourPart x t0 t1 out h) k name c =
      held out k name c +
        if k = h ∧ name = x.name then x.get c * inHour t0 t1 h / x.s else 0 := by
  unfold pourPart inHour
  split
  · rename_i hpos
    rw [held_pour, max_eq_right hpos.le]
  · rename_i hpos
    rw [max_eq_left (not_lt.mp hpos), mul_zero, zero_div, ite_self, add_zero]

theorem total_pourPart {out : Buckets} (hout : (Dict.keys out).Nodup) (x : Share) (t0 t1 : ℚ)
    (h : Int) (name : String) (c : Col) :
    total (pourPart x t0 t1 out h) name c =
      total out name c + if name = x.name then x.get c * inHour t0 t1 h / x.s else 0 := by
  unfold pourPart inHour
  split
  · rename_i hpos
    rw [total_pour hout, max_eq_right hpos.le]
  · rename_i hpos
    rw [max_eq_left (not_lt.mp hpos), mul_zero, zero_div, ite_self, add_zero]

/-! ## The loop over the hours -/

theorem nodup_pourParts {out : Buckets} (hout : (Dict.keys out).Nodup) (x : Share) (t0 t1 : ℚ)
    (hs : List Int) : (Dict.keys (hs.foldl (pourPart x t0 t1) out)).Nodup := by
  induction hs generalizing out with
  | nil => exact hout
  | cons h hs ih => exact ih (nodup_pourPart hout x t0 t1 h)

theorem held_pourParts (x : Share) (t0 t1 : ℚ) (out : Buckets) {hs : List Int} (hnd : hs.Nodup)
    (k : Int) (name : String) (c : Col) :
    held (hs.foldl (pourPart x t0 t1) out) k name c =
      held out k name c +
        if k ∈ hs ∧ name = x.name then x.get c * inHour t0 t1 k / x.s else 0 := by
  induction hs generalizing out with
  | nil => simp
  | cons h hs ih =>
    obtain ⟨hh, hs'⟩ := List.nodup_cons.mp hnd
    rw [List.foldl_cons, ih _ hs', held_pourPart, add_assoc]
    congr 1
    by_cases hk : k = h
    · subst hk
      simp [hh]
    · simp [hk]

theorem total_pourParts {out : Buckets} (hout : (Dict.keys out).Nodup) (x : Share) (t0 t1 : ℚ)
    (hs : List Int) (name : String) (c : Col) :
    total (hs.foldl (pourPart x t0 t1) out) name c =
      total out name c +
        if name = x.name then x.get c * (hs.map (inHour t0 t1)).sum / x.s else 0 := by
  induction hs generalizing out with
  | nil => simp
  | cons h hs ih =>
    rw [List.foldl_cons, ih (nodup_pourPart hout x t0 t1 h), total_pourPart hout, List.map_cons,
      List.sum_cons]
    split
    · ring
    · ring

theorem pourHours_eq (x : Share) (t0 t1 : ℚ) (out : Buckets) :
    pourHours x t0 t1 out = (cells 3600 t1 ⌊t0 / 3600⌋).foldl (pourPart x t0 t1) out := rfl

theorem nodup_pourHours {out : Buckets} (hout : (Dict.keys out).Nodup) (x : Share) (t0 t1 : ℚ) :
    (Dict.keys (pourHours x t0 t1 out)).Nodup := nodup_pourParts hout x t0 t1 _

/-- An hour that the loop does not reach has nothing of the interval. -/
theorem held_pourHours (x : Share) (t0 t1 : ℚ) (out : Buckets) (k : Int) (name : String) (c : Col) :
    held (pourHours x t0 t1 out) k name c =
      held out k name c + if name = x.name then x.get c * inHour t0 t1 k / x.s else 0 := by
  rw [pourHours_eq, held_pourParts x t0 t1 out (nodup_cells (by norm_num) _)]
  by_cases hk : k ∈ cells 3600 t1 ⌊t0 / 3600⌋
  · simp only [hk, true_and]
  · have hnone : inHour t0 t1 k = 0 := max_eq_left (part_nonpos (by norm_num) hk)
    simp only [hk, false_and, hnone, mul_zero, zero_div, ite_self]

theorem total_pourHours {out : Buckets} (hout : (Dict.keys out).Nodup) (x : Share) {t0 t1 : ℚ}
    (ht : t0 ≤ t1) (name : String) (c : Col) :
    total (pourHours x t0 t1 out) name c =
      total out name c + if name = x.name then x.get c * (t1 - t0) / x.s else 0 := by
  have hsum : ((cells 3600 t1 ⌊t0 / 3600⌋).map (inHour t0 t1)).sum = t1 - t0 :=
    sum_parts (by norm_num) ht
  rw [pourHours_eq, total_pourParts hout, hsum]

/-! ## The loop over the entries -/

/-- An entry that counts has a window. -/
theorem s_pos_of_taken {items : List Item} {keys : String × String} {x : Share}
    (hx : x ∈ taken items keys) : 0 < x.s := by
  obtain ⟨it, -, hread⟩ := List.mem_filterMap.mp hx
  simp only [readItem, Option.bind_eq_bind, Option.bind_eq_some_iff] at hread
  obtain ⟨d, -, s, -, a, -, b, -, hread⟩ := hread
  split at hread
  · cases hread
  · rename_i hkeep
    cases hread
    exact not_le.mp fun h => hkeep (.inl h)

/-- The entries of a name. -/
def entries (items : List Item) (keys : String × String) (name : String) : List Share :=
  (taken items keys).filter fun x => name = x.name

theorem sum_entries (name : String) (f : Share → ℚ) (xs : List Share) :
    (xs.map fun x => if name = x.name then f x else 0).sum =
      ((xs.filter fun x => name = x.name).map f).sum := by
  induction xs with
  | nil => rfl
  | cons x xs ih =>
    rw [List.map_cons, List.sum_cons, ih, List.filter_cons]
    by_cases hname : name = x.name <;> simp [hname]

theorem held_fold (start stop : Time) (xs : List Share) (out : Buckets) (k : Int) (name : String)
    (c : Col) :
    held (xs.foldl (fun out x => pourHours x (x.from start stop) (Fill.unix stop) out) out)
        k name c =
      held out k name c + (xs.map fun x => if name = x.name then
        x.get c * inHour (x.from start stop) (Fill.unix stop) k / x.s else 0).sum := by
  induction xs generalizing out with
  | nil => simp
  | cons x xs ih =>
    rw [List.foldl_cons, ih, held_pourHours, List.map_cons, List.sum_cons, add_assoc]

/-- Each bucket holds what lies of the time in its hour. -/
theorem held_spread (items : List Item) (keys : String × String) (start stop : Time) (k : Int)
    (name : String) (c : Col) :
    held (spread items keys start stop) k name c =
      ((entries items keys name).map fun x =>
        x.get c * inHour (x.from start stop) (Fill.unix stop) k / x.s).sum := by
  unfold spread entries
  rw [held_fold, sum_entries, held, List.lookup_nil, Option.map_none, Option.getD_none, zero_add]

theorem unix_le {s t : Time} (h : s ≤ t) : Fill.unix s ≤ Fill.unix t := by
  unfold Fill.unix
  exact div_le_div_of_nonneg_right (Int.cast_le.mpr h) (by norm_num)

theorem from_le {x : Share} (hx : 0 < x.s) {start stop : Time} (h : start ≤ stop) :
    x.from start stop ≤ Fill.unix stop := max_le (unix_le h) (by linarith)

/-- The time that counts: the window, or as much of it as has passed. -/
theorem sub_from (x : Share) (start stop : Time) :
    Fill.unix stop - x.from start stop = min x.s (Fill.unix stop - Fill.unix start) := by
  unfold Share.from
  rcases le_total (Fill.unix start) (Fill.unix stop - x.s) with h | h
  · rw [max_eq_right h, min_eq_left (by linarith), sub_sub_cancel]
  · rw [max_eq_left h, min_eq_right (by linarith)]

theorem nodup_empty : (Dict.keys ([] : Buckets)).Nodup := List.nodup_nil

theorem nodup_fold (start stop : Time) (xs : List Share) {out : Buckets}
    (hout : (Dict.keys out).Nodup) :
    (Dict.keys (xs.foldl (fun out x => pourHours x (x.from start stop) (Fill.unix stop) out)
      out)).Nodup := by
  induction xs generalizing out with
  | nil => exact hout
  | cons x xs ih => exact ih (nodup_pourHours hout x _ _)

theorem nodup_spread (items : List Item) (keys : String × String) (start stop : Time) :
    (Dict.keys (spread items keys start stop)).Nodup := nodup_fold start stop _ nodup_empty

theorem total_fold {start stop : Time} (h : start ≤ stop) {xs : List Share}
    (hxs : ∀ x ∈ xs, 0 < x.s) {out : Buckets} (hout : (Dict.keys out).Nodup) (name : String)
    (c : Col) :
    total (xs.foldl (fun out x => pourHours x (x.from start stop) (Fill.unix stop) out) out)
        name c =
      total out name c + (xs.map fun x => if name = x.name then
        x.get c * min x.s (Fill.unix stop - Fill.unix start) / x.s else 0).sum := by
  induction xs generalizing out with
  | nil => simp
  | cons x xs ih =>
    have hx := hxs x List.mem_cons_self
    rw [List.foldl_cons, ih (fun y hy => hxs y (List.mem_cons_of_mem _ hy))
      (nodup_pourHours hout x _ _), total_pourHours hout x (from_le hx h), sub_from,
      List.map_cons, List.sum_cons, add_assoc]

/-- The buckets of a name hold what its entries say of the time that counts. -/
theorem total_spread (items : List Item) (keys : String × String) {start stop : Time}
    (h : start ≤ stop) (name : String) (c : Col) :
    total (spread items keys start stop) name c =
      ((entries items keys name).map fun x =>
        x.get c * min x.s (Fill.unix stop - Fill.unix start) / x.s).sum := by
  unfold spread entries
  rw [total_fold h (fun x hx => s_pos_of_taken hx) nodup_empty, sum_entries, total, List.map_nil,
    List.sum_nil, zero_add]

end Kervax.Usage
