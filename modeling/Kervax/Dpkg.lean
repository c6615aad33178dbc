-- Package versions compared as dpkg compares them (`vulns.py`): the two pointers of
-- `verrevcmp`, the split of a version, and the order that they are said to follow.
-- Versions are ASCII texts.
import Kervax.ClientIp
import Kervax.PadOrder
import Mathlib

namespace Kervax.Dpkg

/-! ## The comparison -/

/-- `_order` of a character; the end of the text and a digit count zero. -/
def order (c : Char) : Int :=
  if c.isDigit then 0
  else if c.isAlpha then c.toNat
  else if c = '~' then -1
  else c.toNat + 256

def headOrder : List Char → Int
  | [] => 0
  | c :: _ => order c

def startsDigit : List Char → Bool
  | [] => false
  | c :: _ => c.isDigit

/-- There is a character at the pointer, and it is no digit. -/
def startsText : List Char → Bool
  | [] => false
  | c :: _ => !c.isDigit

/-- The loop over the text: the difference of the first two that differ, else zero and
what both have left. -/
def textLoop (a b : List Char) : Int × List Char × List Char :=
  if _h : startsText a ∨ startsText b then
    if headOrder a ≠ headOrder b then (headOrder a - headOrder b, a, b)
    else textLoop a.tail b.tail
  else (0, a, b)
termination_by a.length + b.length
decreasing_by
  cases a <;> cases b <;> simp_all [startsText]
  omega

/-- The loop over the digits: the first difference, and what both have left. -/
def digitLoop (firstDiff : Int) : List Char → List Char → Int × List Char × List Char
  | x :: a, y :: b =>
    if x.isDigit ∧ y.isDigit then
      digitLoop (if firstDiff = 0 then (x.toNat : Int) - y.toNat else firstDiff) a b
    else (firstDiff, x :: a, y :: b)
  | a, b => (firstDiff, a, b)

def dropZeros (s : List Char) : List Char := s.dropWhile (· = '0')

/-! ## Blocks -/

/-- The text that a part begins with, the digits after it, and the rest. -/
def textOf (s : List Char) : List Char := s.takeWhile fun c => !c.isDigit
def afterText (s : List Char) : List Char := s.dropWhile fun c => !c.isDigit
def digitsOf (s : List Char) : List Char := (afterText s).takeWhile Char.isDigit
def restOf (s : List Char) : List Char := (afterText s).dropWhile Char.isDigit

theorem length_restOf_lt {s : List Char} (h : s ≠ []) : (restOf s).length < s.length := by
  cases s with
  | nil => exact absurd rfl h
  | cons c s =>
    have hdrop : ∀ l : List Char, (l.dropWhile Char.isDigit).length ≤ l.length :=
      fun l => (List.dropWhile_sublist _).length_le
    unfold restOf afterText
    by_cases hc : c.isDigit
    · simpa [hc, Nat.lt_succ_iff] using hdrop s
    · simp only [List.dropWhile_cons, hc, Bool.not_false, if_true]
      have h1 := hdrop (s.dropWhile fun c => !c.isDigit)
      have h2 : (s.dropWhile fun c => !c.isDigit).length ≤ s.length :=
        (List.dropWhile_sublist _).length_le
      simp only [List.length_cons]
      omega

/-- The number that digits spell. -/
def value (ds : List Char) : Nat := ds.foldl (fun n c => n * 10 + (c.toNat - 48)) 0

/-! ## The texts of two parts -/

theorem order_ne_zero {c : Char} (h : c.isDigit = false) : order c ≠ 0 := by
  unfold order
  rw [if_neg (by simp [h])]
  split_ifs with ha ht
  · have : 0 < c.toNat := by
      simp only [Char.isAlpha, Char.isUpper, Char.isLower, Bool.or_eq_true, decide_eq_true_eq,
        Bool.and_eq_true] at ha
      rcases ha with ha | ha
      · exact lt_of_lt_of_le (by decide) (UInt32.le_iff_toNat_le.mp ha.1)
      · exact lt_of_lt_of_le (by decide) (UInt32.le_iff_toNat_le.mp ha.1)
    omega
  · decide
  · omega

theorem textOf_of_not {s : List Char} (h : startsText s = false) : textOf s = [] := by
  cases s with
  | nil => rfl
  | cons c s => simp_all [startsText, textOf]

theorem afterText_of_not {s : List Char} (h : startsText s = false) : afterText s = s := by
  cases s with
  | nil => rfl
  | cons c s => simp_all [startsText, afterText]

theorem headOrder_eq (s : List Char) : headOrder s = ((textOf s).map order).headD 0 := by
  cases s with
  | nil => rfl
  | cons c s =>
    cases h : c.isDigit with
    | true => simp [headOrder, textOf, order, h]
    | false => simp [headOrder, textOf, h]

theorem textOf_of_starts {s : List Char} (h : startsText s = true) :
    ∃ c t, s = c :: t ∧ c.isDigit = false ∧ textOf s = c :: textOf t ∧
      afterText s = afterText t := by
  cases s with
  | nil => simp [startsText] at h
  | cons c t =>
    have hc : c.isDigit = false := by simpa [startsText] using h
    exact ⟨c, t, rfl, hc, by simp [textOf, hc], by simp [afterText, hc]⟩

/-- Where the orders at the pointers agree, both are at a text or neither is. -/
theorem starts_of_eq {a b : List Char} (hs : startsText a = true ∨ startsText b = true)
    (heq : headOrder a = headOrder b) : startsText a = true ∧ startsText b = true := by
  have one : ∀ {a b : List Char}, startsText a = true → headOrder a = headOrder b →
      startsText b = true := by
    intro a b ha heq
    obtain ⟨c, t, rfl, hc, -, -⟩ := textOf_of_starts ha
    by_contra hb
    have hzero : headOrder b = 0 := by
      rw [headOrder_eq, textOf_of_not (by simpa using hb)]
      rfl
    exact order_ne_zero hc (heq.trans hzero)
  rcases hs with ha | hb
  · exact ⟨ha, one ha heq⟩
  · exact ⟨one hb heq.symm, hb⟩

/-- The sign of a number tells how two things stand. -/
structure Compares {κ : Type} [LinearOrder κ] (d : Int) (x y : κ) : Prop where
  lt : d < 0 ↔ x < y
  gt : 0 < d ↔ y < x

theorem Compares.eq_iff {κ : Type} [LinearOrder κ] {d : Int} {x y : κ} (h : Compares d x y) :
    d = 0 ↔ x = y := by
  constructor
  · intro hd
    subst hd
    exact le_antisymm (not_lt.mp fun hgt => lt_irrefl _ (h.gt.mpr hgt))
      (not_lt.mp fun hlt => lt_irrefl _ (h.lt.mpr hlt))
  · rintro rfl
    have h1 := mt h.lt.mp (lt_irrefl _)
    have h2 := mt h.gt.mp (lt_irrefl _)
    omega

section Pads

variable {κ : Type} [LinearOrder κ] {o a b : κ} {as bs : List κ} {d : Int}

/-- Heads that differ decide. -/
theorem Compares.head (h : Compares d a b) (hne : a ≠ b) :
    Compares d (PadOrder.pad o (a :: as)) (PadOrder.pad o (b :: bs)) where
  lt := h.lt.trans ((PadOrder.pad_cons_lt o b a bs as).trans (by simp [hne])).symm
  gt := h.gt.trans ((PadOrder.pad_cons_lt o a b as bs).trans (by simp [hne.symm])).symm

/-- Equal heads leave it to the tails. -/
theorem Compares.tail (h : Compares d (PadOrder.pad o as) (PadOrder.pad o bs)) :
    Compares d (PadOrder.pad o (a :: as)) (PadOrder.pad o (a :: bs)) where
  lt := h.lt.trans (PadOrder.pad_cons_self_lt o a as bs).symm
  gt := h.gt.trans (PadOrder.pad_cons_self_lt o a bs as).symm

end Pads

theorem compares_sub (x y : Int) : Compares (x - y) x y :=
  ⟨by omega, by omega⟩

/-- The place of a text: character by character, and zero after its end. -/
def textKey (t : List Char) : Lex (ℕ → ℤ) := PadOrder.pad 0 (t.map order)

/-- The text loop compares the texts of both, and reads them where they are equal. -/
theorem textLoop_spec (a b : List Char) :
    Compares (textLoop a b).1 (textKey (textOf a)) (textKey (textOf b)) ∧
      ((textLoop a b).1 = 0 → (textLoop a b).2 = (afterText a, afterText b)) := by
  fun_induction textLoop a b with
  | case1 a b hs hne =>
    refine ⟨?_, fun h => absurd (sub_eq_zero.mp h) hne⟩
    unfold textKey
    rw [← PadOrder.pad_headD_tail 0 ((textOf a).map order),
      ← PadOrder.pad_headD_tail 0 ((textOf b).map order), ← headOrder_eq, ← headOrder_eq]
    exact (compares_sub _ _).head hne
  | case2 a b hs heq ih =>
    obtain ⟨ha, hb⟩ := starts_of_eq hs (not_not.mp heq)
    obtain ⟨c, s, rfl, hc, htc, hac⟩ := textOf_of_starts ha
    obtain ⟨e, t, rfl, he, hte, hae⟩ := textOf_of_starts hb
    have hoe : order c = order e := not_not.mp heq
    rw [htc, hte, hac, hae]
    refine ⟨?_, ih.2⟩
    unfold textKey
    rw [List.map_cons, List.map_cons, hoe]
    exact ih.1.tail
  | case3 a b hs =>
    obtain ⟨ha, hb⟩ := not_or.mp hs
    rw [textOf_of_not (by simpa using ha), textOf_of_not (by simpa using hb),
      afterText_of_not (by simpa using ha), afterText_of_not (by simpa using hb)]
    exact ⟨⟨by simp, by simp⟩, fun _ => rfl⟩

/-! ## The numbers of two parts -/

theorem isDigit_iff {c : Char} : c.isDigit = true ↔ 48 ≤ c.toNat ∧ c.toNat ≤ 57 := by
  simp only [Char.isDigit, Bool.and_eq_true, decide_eq_true_eq, UInt32.le_iff_toNat_le]
  rfl

theorem foldl_value (ds : List Char) (n : Nat) :
    ds.foldl (fun n c => n * 10 + (c.toNat - 48)) n = n * 10 ^ ds.length + value ds := by
  induction ds generalizing n with
  | nil => simp [value]
  | cons c ds ih =>
    unfold value
    rw [List.foldl_cons, List.foldl_cons, ih, ih (0 * 10 + _), List.length_cons, Nat.pow_succ]
    ring

theorem value_cons (c : Char) (ds : List Char) :
    value (c :: ds) = (c.toNat - 48) * 10 ^ ds.length + value ds := by
  unfold value
  rw [List.foldl_cons, foldl_value]
  simp [value]

theorem value_lt {ds : List Char} (h : ∀ c ∈ ds, c.isDigit = true) : value ds < 10 ^ ds.length := by
  induction ds with
  | nil => simp [value]
  | cons c ds ih =>
    have hc := isDigit_iff.mp (h c (List.mem_cons_self ..))
    have hds := ih fun d hd => h d (List.mem_cons_of_mem _ hd)
    rw [value_cons, List.length_cons, Nat.pow_succ]
    have : (c.toNat - 48) * 10 ^ ds.length ≤ 9 * 10 ^ ds.length :=
      Nat.mul_le_mul_right _ (by omega)
    omega

/-- Of two numbers of one length the first digit that differs decides. -/
theorem compares_head {c e : Char} {ds es : List Char} (hc : c.isDigit = true)
    (he : e.isDigit = true) (hds : ∀ c ∈ ds, c.isDigit = true) (hes : ∀ c ∈ es, c.isDigit = true)
    (hlen : ds.length = es.length) (hne : c.toNat ≠ e.toNat) :
    Compares ((c.toNat : Int) - e.toNat) (value (c :: ds)) (value (e :: es)) := by
  have less : ∀ {c e : Char} {s t : List Char}, 48 ≤ c.toNat → c.toNat < e.toNat →
      (∀ c ∈ s, c.isDigit = true) → s.length = t.length → value (c :: s) < value (e :: t) := by
    intro c e s t h48 hlt hds hlen
    have hval := value_lt hds
    rw [value_cons, value_cons, ← hlen]
    have : (c.toNat - 48 + 1) * 10 ^ s.length ≤ (e.toNat - 48) * 10 ^ s.length :=
      Nat.mul_le_mul_right _ (by omega)
    have hring : (c.toNat - 48 + 1) * 10 ^ s.length =
        (c.toNat - 48) * 10 ^ s.length + 10 ^ s.length := by ring
    omega
  have h48 := (isDigit_iff.mp hc).1
  have h48' := (isDigit_iff.mp he).1
  rcases Nat.lt_or_gt_of_ne hne with hlt | hgt
  · have := less (t := es) h48 hlt hds hlen
    exact ⟨by omega, by omega⟩
  · have := less (t := ds) h48' hgt hes hlen.symm
    exact ⟨by omega, by omega⟩

theorem Compares.cons_value {d : Int} {c : Char} {ds es : List Char} (hlen : ds.length = es.length)
    (h : Compares d (value ds) (value es)) : Compares d (value (c :: ds)) (value (c :: es)) := by
  rw [value_cons, value_cons, hlen]
  exact ⟨h.lt.trans (by omega), h.gt.trans (by omega)⟩

/-- The digits at a pointer. -/
def lead (s : List Char) : List Char := s.takeWhile Char.isDigit

theorem lead_digits (s : List Char) : ∀ c ∈ lead s, c.isDigit = true := by
  intro c hc
  exact List.mem_takeWhile_imp hc

theorem startsDigit_iff {s : List Char} : startsDigit s = true ↔ lead s ≠ [] := by
  cases s with
  | nil => simp [startsDigit, lead]
  | cons c s => by_cases h : c.isDigit <;> simp [startsDigit, lead, h]

/-- What the loop over the digits finds out of two runs of digits. -/
structure DigitsRead (firstDiff : Int) (a b : List Char) (r : Int × List Char × List Char) : Prop where
  longer : startsDigit r.2.1 = true ↔ (lead b).length < (lead a).length
  shorter : startsDigit r.2.2 = true ↔ (lead a).length < (lead b).length
  rest : (lead a).length = (lead b).length →
    r.2 = (a.dropWhile Char.isDigit, b.dropWhile Char.isDigit)
  kept : firstDiff ≠ 0 → r.1 = firstDiff
  found : firstDiff = 0 → (lead a).length = (lead b).length →
    Compares r.1 (value (lead a)) (value (lead b))

theorem apart_eq {a b : List Char} (h : lead a = [] ∨ lead b = [])
    (hlen : (lead a).length = (lead b).length) : lead a = [] ∧ lead b = [] := by
  rcases h with h | h
  · exact ⟨h, List.length_eq_zero_iff.mp (by rw [← hlen, h]; rfl)⟩
  · exact ⟨List.length_eq_zero_iff.mp (by rw [hlen, h]; rfl), h⟩

theorem lead_append (s : List Char) : lead s ++ s.dropWhile Char.isDigit = s :=
  List.takeWhile_append_dropWhile

theorem dropWhile_of_lead {s : List Char} (h : lead s = []) : s.dropWhile Char.isDigit = s := by
  have := lead_append s
  rwa [h, List.nil_append] at this

/-- Where one of the two has no digit the loop reads nothing. -/
theorem read_apart {f : Int} {a b : List Char} (h : lead a = [] ∨ lead b = []) :
    DigitsRead f a b (f, a, b) where
  longer := by
    rw [startsDigit_iff, ← List.length_pos_iff]
    rcases h with h | h <;> simp [h]
  shorter := by
    rw [startsDigit_iff, ← List.length_pos_iff]
    rcases h with h | h <;> simp [h]
  rest hlen := by
    obtain ⟨ha, hb⟩ := apart_eq h hlen
    rw [dropWhile_of_lead ha, dropWhile_of_lead hb]
  kept _ := rfl
  found hf hlen := by
    obtain ⟨ha, hb⟩ := apart_eq h hlen
    rw [ha, hb, hf]
    exact ⟨by simp, by simp⟩

theorem digitLoop_read (firstDiff : Int) (a b : List Char) :
    DigitsRead firstDiff a b (digitLoop firstDiff a b) := by
  fun_induction digitLoop firstDiff a b with
  | case1 f x a y b hxy ih =>
    obtain ⟨hx, hy⟩ := hxy
    have hla : lead (x :: a) = x :: lead a := by simp [lead, hx]
    have hlb : lead (y :: b) = y :: lead b := by simp [lead, hy]
    refine ⟨?_, ?_, ?_, ?_, ?_⟩
    · rw [hla, hlb]
      simpa using ih.longer
    · rw [hla, hlb]
      simpa using ih.shorter
    · rw [hla, hlb]
      simpa [hx, hy] using ih.rest
    · intro hf
      have := ih.kept
      rw [if_neg hf] at this
      rw [if_neg hf]
      exact this hf
    · intro hf hlen
      have hlen' : (lead a).length = (lead b).length := by simpa [hla, hlb] using hlen
      rw [hla, hlb]
      rw [if_pos hf] at ih ⊢
      by_cases hne : x.toNat = y.toNat
      · obtain rfl : x = y := Char.toNat_inj.mp hne
        exact (ih.found (by simp) hlen').cons_value hlen'
      · rw [ih.kept (by omega)]
        exact compares_head hx hy (lead_digits a) (lead_digits b) hlen' hne
  | case2 f x a y b hxy => exact read_apart (not_and_or.mp hxy |>.imp (by simp [lead, ·]) (by simp [lead, ·]))
  | case3 f a b hno => exact read_apart (by
      cases a with
      | nil => exact .inl rfl
      | cons x a =>
        cases b with
        | nil => exact .inr rfl
        | cons y b => exact (hno x a y b rfl rfl).elim)

/-! ## One turn of both loops -/

theorem dropWhile_dropZeros (s : List Char) :
    (dropZeros s).dropWhile Char.isDigit = s.dropWhile Char.isDigit := by
  unfold dropZeros
  induction s with
  | nil => rfl
  | cons c s ih =>
    by_cases hc : c = '0'
    · subst hc
      simpa using ih
    · simp [hc]

/-- The digits of both after the text, with their first zeros dropped. -/
def turnDigits (a b : List Char) : Int × List Char × List Char :=
  digitLoop 0 (dropZeros (textLoop a b).2.1) (dropZeros (textLoop a b).2.2)

theorem turnDigits_read {a b : List Char} (h : (textLoop a b).1 = 0) :
    DigitsRead 0 (dropZeros (afterText a)) (dropZeros (afterText b)) (turnDigits a b) := by
  unfold turnDigits
  rw [(textLoop_spec a b).2 h]
  exact digitLoop_read 0 _ _

/-- Where neither has a digit left both have been read to the end of their numbers. -/
theorem turnDigits_rest {a b : List Char} (h : (textLoop a b).1 = 0)
    (ha : ¬ startsDigit (turnDigits a b).2.1 = true)
    (hb : ¬ startsDigit (turnDigits a b).2.2 = true) :
    (turnDigits a b).2 = (restOf a, restOf b) := by
  have hread := turnDigits_read h
  rw [hread.longer] at ha
  rw [hread.shorter] at hb
  rw [hread.rest (by omega), dropWhile_dropZeros, dropWhile_dropZeros]
  rfl

theorem length_rest_lt {a b : List Char} (h : ¬ (a = [] ∧ b = [])) :
    (restOf a).length + (restOf b).length < a.length + b.length := by
  have hle : ∀ s : List Char, (restOf s).length ≤ s.length := by
    intro s
    by_cases hs : s = []
    · simp [hs, restOf, afterText]
    · exact (length_restOf_lt hs).le
  rcases not_and_or.mp h with ha | hb
  · have := length_restOf_lt ha
    have := hle b
    omega
  · have := length_restOf_lt hb
    have := hle a
    omega

/-- `_verrevcmp`. -/
def verrevcmp (a b : List Char) : Int :=
  if _h : a = [] ∧ b = [] then 0
  else if _h0 : (textLoop a b).1 ≠ 0 then (textLoop a b).1
  else if _ha : startsDigit (turnDigits a b).2.1 then 1
  else if _hb : startsDigit (turnDigits a b).2.2 then -1
  else if (turnDigits a b).1 ≠ 0 then (turnDigits a b).1
  else verrevcmp (turnDigits a b).2.1 (turnDigits a b).2.2
termination_by a.length + b.length
decreasing_by
  rw [turnDigits_rest (not_not.mp _h0) _ha _hb]
  exact length_rest_lt _h

/-! ## The order of dpkg -/

/-- The blocks of a part: text and digits by turns. -/
def blocks (s : List Char) : List (List Char × List Char) :=
  if _h : s = [] then [] else (textOf s, digitsOf s) :: blocks (restOf s)
termination_by s.length
decreasing_by exact length_restOf_lt _h

/-- The place of a block: its text, then its digits as a number. -/
abbrev BlockKey := Lex (ℕ → ℤ) ×ₗ ℕ

noncomputable def blockKey (block : List Char × List Char) : BlockKey :=
  toLex (textKey block.1, value block.2)

/-- The place of a part: block by block, and empty blocks after its end. -/
noncomputable def partKey (s : List Char) : Lex (ℕ → BlockKey) :=
  PadOrder.pad (blockKey ([], [])) ((blocks s).map blockKey)

theorem partKey_eq (s : List Char) :
    partKey s = PadOrder.pad (blockKey ([], []))
      (blockKey (textOf s, digitsOf s) :: (blocks (restOf s)).map blockKey) := by
  unfold partKey
  by_cases h : s = []
  · subst h
    have hnil : blocks [] = [] := by rw [blocks, dif_pos rfl]
    have hrest : restOf [] = [] := rfl
    rw [hrest, hnil, List.map_nil]
    exact (PadOrder.pad_nil_cons _).symm
  · rw [blocks, dif_neg h]
    rfl

/-- Texts that differ decide between two blocks. -/
theorem Compares.text {d : Int} {t u ds es : List Char} (h : Compares d (textKey t) (textKey u))
    (hd : d ≠ 0) : Compares d (blockKey (t, ds)) (blockKey (u, es)) := by
  have hne : textKey t ≠ textKey u := mt h.eq_iff.mpr hd
  constructor
  · refine h.lt.trans (Iff.symm (Prod.Lex.toLex_lt_toLex.trans ?_))
    simp [hne]
  · refine h.gt.trans (Iff.symm (Prod.Lex.toLex_lt_toLex.trans ?_))
    simp [hne.symm]

/-- Equal texts leave it to the numbers. -/
theorem Compares.number {d : Int} {t u ds es : List Char} (ht : textKey t = textKey u)
    (h : Compares d (value ds) (value es)) : Compares d (blockKey (t, ds)) (blockKey (u, es)) := by
  constructor
  · refine h.lt.trans (Iff.symm (Prod.Lex.toLex_lt_toLex.trans ?_))
    simp [ht]
  · refine h.gt.trans (Iff.symm (Prod.Lex.toLex_lt_toLex.trans ?_))
    simp [ht]

theorem value_dropZeros (s : List Char) : value (lead (dropZeros s)) = value (lead s) := by
  unfold dropZeros
  induction s with
  | nil => rfl
  | cons c s ih =>
    by_cases hc : c = '0'
    · subst hc
      have hl : lead ('0' :: s) = '0' :: lead s := by simp [lead]
      have hd : ('0' :: s).dropWhile (· = '0') = s.dropWhile (· = '0') := by simp
      have hz : '0'.toNat - 48 = 0 := by decide
      rw [hd, ih, hl, value_cons, hz]
      omega
    · simp [hc]

theorem dropZeros_head {s t : List Char} {c : Char} (h : dropZeros s = c :: t) : c ≠ '0' := by
  have := List.head?_dropWhile_not (fun c : Char => decide (c = '0')) s
  unfold dropZeros at h
  rw [h] at this
  simpa using this

/-- A number whose first digit is no zero is at least the power of its length. -/
theorem le_value (s : List Char) (h : lead (dropZeros s) ≠ []) :
    10 ^ ((lead (dropZeros s)).length - 1) ≤ value (lead (dropZeros s)) := by
  cases hs : dropZeros s with
  | nil => simp [hs, lead] at h
  | cons c t =>
    rw [hs] at h
    have hdigit : c.isDigit = true := by
      by_contra hno
      exact h (by simp [lead, hno])
    have hl : lead (c :: t) = c :: lead t := by simp [lead, hdigit]
    have h48 := (isDigit_iff.mp hdigit).1
    have hne : c.toNat ≠ 48 := fun h48 => dropZeros_head hs (Char.toNat_inj.mp h48)
    rw [hl, value_cons, List.length_cons, Nat.add_sub_cancel]
    have : 1 * 10 ^ (lead t).length ≤ (c.toNat - 48) * 10 ^ (lead t).length :=
      Nat.mul_le_mul_right _ (by omega)
    omega

theorem value_lt_of_shorter {s t : List Char}
    (h : (lead (dropZeros s)).length < (lead (dropZeros t)).length) :
    value (lead s) < value (lead t) := by
  rw [← value_dropZeros s, ← value_dropZeros t]
  calc value (lead (dropZeros s))
      < 10 ^ (lead (dropZeros s)).length := value_lt (lead_digits _)
    _ ≤ 10 ^ ((lead (dropZeros t)).length - 1) := Nat.pow_le_pow_right (by decide) (by omega)
    _ ≤ value (lead (dropZeros t)) := le_value t (List.ne_nil_of_length_pos (by omega))

/-- Where the texts agree and the first has digits left, its number is the greater. -/
theorem number_of_longer {a b : List Char} (h0 : (textLoop a b).1 = 0)
    (ha : startsDigit (turnDigits a b).2.1 = true) :
    value (digitsOf b) < value (digitsOf a) :=
  value_lt_of_shorter ((turnDigits_read h0).longer.mp ha)

theorem number_of_shorter {a b : List Char} (h0 : (textLoop a b).1 = 0)
    (hb : startsDigit (turnDigits a b).2.2 = true) :
    value (digitsOf a) < value (digitsOf b) :=
  value_lt_of_shorter ((turnDigits_read h0).shorter.mp hb)

/-- Where neither has, the first difference of their digits compares the numbers. -/
theorem number_of_read {a b : List Char} (h0 : (textLoop a b).1 = 0)
    (ha : ¬ startsDigit (turnDigits a b).2.1 = true)
    (hb : ¬ startsDigit (turnDigits a b).2.2 = true) :
    Compares (turnDigits a b).1 (value (digitsOf a)) (value (digitsOf b)) := by
  have hread := turnDigits_read h0
  rw [hread.longer] at ha
  rw [hread.shorter] at hb
  have hfound := hread.found rfl (by omega)
  rwa [value_dropZeros, value_dropZeros] at hfound

theorem texts_eq {a b : List Char} (h0 : (textLoop a b).1 = 0) :
    textKey (textOf a) = textKey (textOf b) :=
  (textLoop_spec a b).1.eq_iff.mp h0

/-- `_verrevcmp` compares two parts by their blocks. -/
theorem verrevcmp_compares (a b : List Char) :
    Compares (verrevcmp a b) (partKey a) (partKey b) := by
  fun_induction verrevcmp a b with
  | case1 a b h =>
    obtain ⟨rfl, rfl⟩ := h
    exact ⟨by simp, by simp⟩
  | case2 a b h h0 =>
    rw [partKey_eq a, partKey_eq b]
    have hb : Compares (textLoop a b).1 (blockKey (textOf a, digitsOf a))
        (blockKey (textOf b, digitsOf b)) := (textLoop_spec a b).1.text h0
    exact hb.head (mt hb.eq_iff.mpr h0)
  | case3 a b h h0 ha =>
    rw [partKey_eq a, partKey_eq b]
    have hlt := number_of_longer (not_not.mp h0) ha
    have hb : Compares 1 (blockKey (textOf a, digitsOf a)) (blockKey (textOf b, digitsOf b)) :=
      Compares.number (texts_eq (not_not.mp h0)) ⟨by omega, by omega⟩
    exact hb.head (mt hb.eq_iff.mpr (by decide))
  | case4 a b h h0 ha hb =>
    rw [partKey_eq a, partKey_eq b]
    have hlt := number_of_shorter (not_not.mp h0) hb
    have hb : Compares (-1) (blockKey (textOf a, digitsOf a)) (blockKey (textOf b, digitsOf b)) :=
      Compares.number (texts_eq (not_not.mp h0)) ⟨by omega, by omega⟩
    exact hb.head (mt hb.eq_iff.mpr (by decide))
  | case5 a b h h0 ha hb hd =>
    rw [partKey_eq a, partKey_eq b]
    have hb : Compares (turnDigits a b).1 (blockKey (textOf a, digitsOf a))
        (blockKey (textOf b, digitsOf b)) :=
      Compares.number (texts_eq (not_not.mp h0)) (number_of_read (not_not.mp h0) ha hb)
    exact hb.head (mt hb.eq_iff.mpr hd)
  | case6 a b h h0 ha hb hd ih =>
    have heq : blockKey (textOf a, digitsOf a) = blockKey (textOf b, digitsOf b) :=
      (Compares.number (texts_eq (not_not.mp h0))
        (number_of_read (not_not.mp h0) ha hb)).eq_iff.mp (not_not.mp hd)
    rw [turnDigits_rest (not_not.mp h0) ha hb] at ih ⊢
    rw [partKey_eq a, partKey_eq b, heq]
    exact Compares.tail ih

/-! ## Versions -/

structure Version where
  epoch : Nat
  up : List Char
  rev : List Char

def isdigit (s : List Char) : Bool := !s.isEmpty && s.all Char.isDigit

/-- `int(e)`: more than 4300 digits raise ValueError. -/
def intOf (e : List Char) : Option Nat := if e.length ≤ 4300 then some (value e) else none

/-- `v.rpartition("-")`, the revision empty where there is no hyphen. -/
def rpartition (v : List Char) : List Char × List Char :=
  if '-' ∈ v then
    ((v.reverse.dropWhile (· ≠ '-')).tail.reverse, (v.reverse.takeWhile (· ≠ '-')).reverse)
  else (v, [])

def versionOf (epoch : Nat) (v : List Char) : Version :=
  ⟨epoch, (rpartition v).1, (rpartition v).2⟩

/-- What stands before the first colon, and after it. -/
def beforeColon (v : List Char) : List Char := v.takeWhile (· ≠ ':')
def afterColon (v : List Char) : List Char := (v.dropWhile (· ≠ ':')).tail

/-- `_split`; `none` is the ValueError of `int`. -/
def split (v : List Char) : Option Version :=
  if ':' ∈ strip v ∧ isdigit (beforeColon (strip v)) then
    (intOf (beforeColon (strip v))).map fun epoch => versionOf epoch (afterColon (strip v))
  else some (versionOf 0 (strip v))

/-- `_verrevcmp(ua, ub) or _verrevcmp(ra, rb)`. -/
def partsCmp (a b : Version) : Int :=
  if verrevcmp a.up b.up ≠ 0 then verrevcmp a.up b.up else verrevcmp a.rev b.rev

def versionsCmp (a b : Version) : Int :=
  if a.epoch ≠ b.epoch then (a.epoch : Int) - b.epoch else partsCmp a b

/-- `vercmp`. -/
def vercmp (a b : List Char) : Option Int :=
  (split a).bind fun x => (split b).map fun y => versionsCmp x y

/-! ## How a version reads -/

/-- Upstream and revision of a text without epoch: the last hyphen parts them. -/
def Parted (v up rev : List Char) : Prop :=
  (v = up ++ '-' :: rev ∧ '-' ∉ rev) ∨ ('-' ∉ v ∧ up = v ∧ rev = [])

/-- What `_split` has to find: digits before the first colon are the epoch. -/
def Reads (v : List Char) (x : Version) : Prop :=
  (∃ e body, strip v = e ++ ':' :: body ∧ isdigit e = true ∧ x.epoch = value e ∧
      Parted body x.up x.rev) ∨
    ((∀ e body, strip v = e ++ ':' :: body → isdigit e = false) ∧ x.epoch = 0 ∧
      Parted (strip v) x.up x.rev)

/-- The epoch has at most the 4300 digits that `int` takes. -/
def ShortEpoch (v : List Char) : Prop :=
  ∀ e body, strip v = e ++ ':' :: body → isdigit e = true → e.length ≤ 4300

theorem before_first {p : Char → Bool} {s t : List Char} {c : Char}
    (hs : ∀ d ∈ s, p d = true) (hc : p c = false) :
    (s ++ c :: t).takeWhile p = s ∧ (s ++ c :: t).dropWhile p = c :: t := by
  rw [List.takeWhile_append_of_pos hs, List.dropWhile_append_of_pos hs]
  simp [hc]

theorem split_at_first {p : Char → Bool} {s : List Char} {c : Char} (hc : c ∈ s)
    (hp : ∀ d, p d = false ↔ d = c) :
    s = s.takeWhile p ++ c :: (s.dropWhile p).tail ∧ c ∉ s.takeWhile p := by
  have hnot : c ∉ s.takeWhile p := by
    intro h
    have := List.mem_takeWhile_imp h
    rw [(hp c).mpr rfl] at this
    exact Bool.false_ne_true this
  refine ⟨?_, hnot⟩
  have happ : s.takeWhile p ++ s.dropWhile p = s := List.takeWhile_append_dropWhile
  cases hd : s.dropWhile p with
  | nil =>
    rw [hd, List.append_nil] at happ
    rw [happ] at hnot
    exact absurd hc hnot
  | cons d t =>
    have hhead := List.head?_dropWhile_not p s
    rw [hd] at hhead
    obtain rfl : d = c := (hp d).mp (by simpa using hhead)
    rw [List.tail_cons, ← hd, happ]

theorem rpartition_parted (v : List Char) : Parted v (rpartition v).1 (rpartition v).2 := by
  unfold rpartition
  by_cases h : '-' ∈ v
  · rw [if_pos h]
    obtain ⟨heq, hnot⟩ := split_at_first (p := (· ≠ '-')) (List.mem_reverse.mpr h) (by simp)
    refine .inl ⟨?_, fun hmem => hnot (List.mem_reverse.mp hmem)⟩
    have := congrArg List.reverse heq
    simpa using this
  · rw [if_neg h]
    exact .inr ⟨h, rfl, rfl⟩

theorem not_colon_of_digits {e : List Char} (h : isdigit e = true) : ':' ∉ e := by
  intro hmem
  have := List.all_eq_true.mp (Bool.and_eq_true _ _ ▸ h).2 ':' hmem
  exact absurd this (by decide)

/-- Digits before a colon stand before the first one. -/
theorem beforeColon_of_digits {v e body : List Char} (hv : strip v = e ++ ':' :: body)
    (he : isdigit e = true) : beforeColon (strip v) = e ∧ afterColon (strip v) = body := by
  have hne : ∀ d ∈ e, decide (d ≠ ':') = true := by
    intro d hd
    refine decide_eq_true ?_
    rintro rfl
    exact not_colon_of_digits he hd
  obtain ⟨h1, h2⟩ := before_first (t := body) (c := ':') hne (by decide)
  unfold beforeColon afterColon
  rw [hv, h1, h2]
  exact ⟨rfl, rfl⟩

theorem split_reads {v : List Char} {x : Version} (h : split v = some x) : Reads v x := by
  unfold split at h
  by_cases hc : ':' ∈ strip v ∧ isdigit (beforeColon (strip v))
  · rw [if_pos hc] at h
    obtain ⟨epoch, hint, rfl⟩ := Option.map_eq_some_iff.mp h
    unfold intOf at hint
    split_ifs at hint with hlen
    obtain rfl := Option.some.inj hint
    obtain ⟨heq, -⟩ := split_at_first (p := (· ≠ ':')) hc.1 (by simp)
    exact .inl ⟨_, _, heq, hc.2, rfl, rpartition_parted _⟩
  · rw [if_neg hc] at h
    obtain rfl := Option.some.inj h
    refine .inr ⟨?_, rfl, rpartition_parted _⟩
    intro e body hv
    by_contra he
    have he : isdigit e = true := by simpa using he
    refine hc ⟨by rw [hv]; simp, ?_⟩
    rw [(beforeColon_of_digits hv he).1]
    exact he

/-- `_split` raises exactly where the epoch has too many digits. -/
theorem split_returns (v : List Char) : (split v).isSome = true ↔ ShortEpoch v := by
  unfold split
  by_cases hc : ':' ∈ strip v ∧ isdigit (beforeColon (strip v))
  · rw [if_pos hc]
    obtain ⟨heq, -⟩ := split_at_first (p := (· ≠ ':')) hc.1 (by simp)
    have hint : ((intOf (beforeColon (strip v))).map fun epoch =>
        versionOf epoch (afterColon (strip v))).isSome = true ↔
        (beforeColon (strip v)).length ≤ 4300 := by
      unfold intOf
      by_cases hlen : (beforeColon (strip v)).length ≤ 4300 <;> simp [hlen]
    rw [hint]
    constructor
    · intro hlen e body hv he
      rwa [(beforeColon_of_digits hv he).1] at hlen
    · intro hshort
      exact hshort _ _ heq hc.2
  · rw [if_neg hc]
    refine iff_of_true rfl ?_
    intro e body hv he
    refine absurd ⟨by rw [hv]; simp, ?_⟩ hc
    rw [(beforeColon_of_digits hv he).1]
    exact he

/-! ## Versions in order -/

/-- The place of a version: its epoch, its upstream, its revision. -/
noncomputable def versionKey (x : Version) : ℕ ×ₗ Lex (ℕ → BlockKey) ×ₗ Lex (ℕ → BlockKey) :=
  toLex (x.epoch, toLex (partKey x.up, partKey x.rev))

theorem Compares.decided {κ ν : Type} [LinearOrder κ] [LinearOrder ν] {d : Int} {x y : κ}
    {u w : ν} (h : Compares d x y) (hd : d ≠ 0) : Compares d (toLex (x, u)) (toLex (y, w)) := by
  have hne : x ≠ y := mt h.eq_iff.mpr hd
  constructor
  · refine h.lt.trans (Iff.symm (Prod.Lex.toLex_lt_toLex.trans ?_))
    simp [hne]
  · refine h.gt.trans (Iff.symm (Prod.Lex.toLex_lt_toLex.trans ?_))
    simp [hne.symm]

theorem Compares.left {κ ν : Type} [LinearOrder κ] [LinearOrder ν] {d : Int} {x : κ} {u w : ν}
    (h : Compares d u w) : Compares d (toLex (x, u)) (toLex (x, w)) := by
  constructor
  · refine h.lt.trans (Iff.symm (Prod.Lex.toLex_lt_toLex.trans ?_))
    simp
  · refine h.gt.trans (Iff.symm (Prod.Lex.toLex_lt_toLex.trans ?_))
    simp

theorem versionsCmp_compares (x y : Version) :
    Compares (versionsCmp x y) (versionKey x) (versionKey y) := by
  unfold versionsCmp versionKey
  by_cases he : x.epoch ≠ y.epoch
  · rw [if_pos he]
    have hnum : Compares ((x.epoch : Int) - y.epoch) x.epoch y.epoch := ⟨by omega, by omega⟩
    exact hnum.decided (by omega)
  · rw [if_neg he, not_not.mp he]
    refine Compares.left ?_
    unfold partsCmp
    have hup := verrevcmp_compares x.up y.up
    by_cases hd : verrevcmp x.up y.up ≠ 0
    · rw [if_pos hd]
      exact hup.decided hd
    · rw [if_neg hd, hup.eq_iff.mp (not_not.mp hd)]
      exact (verrevcmp_compares x.rev y.rev).left

theorem vercmp_eq_some {a b : List Char} {d : Int} :
    vercmp a b = some d ↔ ∃ x y, split a = some x ∧ split b = some y ∧ versionsCmp x y = d := by
  unfold vercmp
  rw [Option.bind_eq_some_iff]
  constructor
  · rintro ⟨x, hx, h⟩
    obtain ⟨y, hy, hd⟩ := Option.map_eq_some_iff.mp h
    exact ⟨x, y, hx, hy, hd⟩
  · rintro ⟨x, y, hx, hy, hd⟩
    exact ⟨x, hx, Option.map_eq_some_iff.mpr ⟨y, hy, hd⟩⟩

/-- `vercmp` returns exactly where both epochs are short enough for `int`. -/
theorem vercmp_returns (a b : List Char) :
    (vercmp a b).isSome = true ↔ ShortEpoch a ∧ ShortEpoch b := by
  rw [← split_returns, ← split_returns]
  unfold vercmp
  cases split a <;> cases split b <;> simp

/-- The order of single characters: `~`, the end of the text, letters, all others. -/
structure CharOrder : Prop where
  tilde : order '~' < 0
  letter : ∀ c, c.isAlpha = true → 0 < order c
  other : ∀ c e, c.isAlpha = true → e.isAlpha = false → e.isDigit = false → e ≠ '~' →
    order c < order e

theorem alpha_bounds {c : Char} (h : c.isAlpha = true) :
    c.isDigit = false ∧ 0 < c.toNat ∧ c.toNat ≤ 122 := by
  simp only [Char.isAlpha, Char.isUpper, Char.isLower, Bool.or_eq_true, decide_eq_true_eq,
    Bool.and_eq_true, UInt32.le_iff_toNat_le] at h
  have hcast : c.val.toNat = c.toNat := rfl
  have hno : ¬ c.isDigit = true := by
    rw [isDigit_iff]
    rcases h with h | h <;> simp at h <;> omega
  refine ⟨by simpa using hno, ?_, ?_⟩ <;> rcases h with h | h <;> simp at h <;> omega

theorem charOrder : CharOrder where
  tilde := by decide
  letter c h := by
    obtain ⟨hd, hpos, -⟩ := alpha_bounds h
    simpa [order, hd, h] using hpos
  other c e hc he hed hne := by
    obtain ⟨hd, -, hle⟩ := alpha_bounds hc
    simp [order, hd, hc, he, hed, hne]
    omega

/-- What dpkg orders versions by. -/
structure DpkgOrder : Prop where
  /-- It returns where both epochs are of at most 4300 digits. -/
  returns : ∀ a b, (vercmp a b).isSome = true ↔ ShortEpoch a ∧ ShortEpoch b
  /-- Epoch, upstream and revision, in this order, by their blocks. -/
  compares : ∀ a b d, vercmp a b = some d → ∃ x y, Reads a x ∧ Reads b y ∧
    Compares d (versionKey x) (versionKey y)
  characters : CharOrder
  reflexive : ∀ a, ShortEpoch a → vercmp a a = some 0
  antisymmetric : ∀ a b d e, vercmp a b = some d → vercmp b a = some e →
    (d < 0 ↔ 0 < e) ∧ (d = 0 ↔ e = 0)
  transitive : ∀ a b c d e f, vercmp a b = some d → vercmp b c = some e → vercmp a c = some f →
    d ≤ 0 → e ≤ 0 → f ≤ 0

theorem Compares.le_iff {κ : Type} [LinearOrder κ] {d : Int} {x y : κ} (h : Compares d x y) :
    d ≤ 0 ↔ x ≤ y := by
  rw [← not_lt, h.gt, not_lt]

theorem dpkgOrder : DpkgOrder where
  returns := vercmp_returns
  compares a b d h := by
    obtain ⟨x, y, hx, hy, rfl⟩ := vercmp_eq_some.mp h
    exact ⟨x, y, split_reads hx, split_reads hy, versionsCmp_compares x y⟩
  characters := charOrder
  reflexive a h := by
    obtain ⟨x, hx⟩ := Option.isSome_iff_exists.mp ((split_returns a).mpr h)
    exact vercmp_eq_some.mpr ⟨x, x, hx, hx, (versionsCmp_compares x x).eq_iff.mpr rfl⟩
  antisymmetric a b d e hd he := by
    obtain ⟨x, y, hx, hy, rfl⟩ := vercmp_eq_some.mp hd
    obtain ⟨y', x', hy', hx', rfl⟩ := vercmp_eq_some.mp he
    obtain rfl := Option.some.inj (hx.symm.trans hx')
    obtain rfl := Option.some.inj (hy.symm.trans hy')
    have hxy := versionsCmp_compares x y
    have hyx := versionsCmp_compares y x
    exact ⟨hxy.lt.trans hyx.gt.symm, hxy.eq_iff.trans (eq_comm.trans hyx.eq_iff.symm)⟩
  transitive a b c d e f hd he hf hab hbc := by
    obtain ⟨x, y, hx, hy, rfl⟩ := vercmp_eq_some.mp hd
    obtain ⟨y', z, hy', hz, rfl⟩ := vercmp_eq_some.mp he
    obtain ⟨x', z', hx', hz', rfl⟩ := vercmp_eq_some.mp hf
    obtain rfl := Option.some.inj (hx.symm.trans hx')
    obtain rfl := Option.some.inj (hy.symm.trans hy')
    obtain rfl := Option.some.inj (hz.symm.trans hz')
    exact (versionsCmp_compares x z).le_iff.mpr
      (((versionsCmp_compares x y).le_iff.mp hab).trans ((versionsCmp_compares y z).le_iff.mp hbc))

end Kervax.Dpkg
