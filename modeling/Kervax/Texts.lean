-- Texts as Python's `str` cuts them: at both ends, at the end, at each separator, at the
-- first and the last of one, and up to a place. Nothing here is about a program.
import Mathlib.Data.List.Basic
import Mathlib.Data.Int.Order.Basic
import Mathlib.Data.List.TakeWhile

namespace Texts

/-- Whether a text stands in a list is decided by one instance everywhere. -/
instance lawfulBEq : LawfulBEq (List Char) := inferInstance

/-- `s.rstrip(chars)`. -/
def rstripBy (p : Char → Bool) (s : List Char) : List Char := (s.reverse.dropWhile p).reverse

/-- `s.strip(chars)`. -/
def stripBy (p : Char → Bool) (s : List Char) : List Char := rstripBy p (s.dropWhile p)

/-- `s.endswith(end)`. -/
def endsWith (s tail : List Char) : Bool := tail.isSuffixOf s

/-- What stands from each `sep` on, left to right. -/
def fromEach (sep s : List Char) : List (List Char) := s.tails.filter (sep.isPrefixOf ·)

/-- `s.split(sep)[-1]`, for a separator that does not overlap itself. -/
def afterLast (sep s : List Char) : List Char :=
  match (fromEach sep s).getLast? with
  | some t => t.drop sep.length
  | none => s

/-- `s.split(sep, 1)[-1]`. -/
def afterFirst (sep s : List Char) : List Char :=
  match (fromEach sep s).head? with
  | some t => t.drop sep.length
  | none => s

/-- What `rstrip` takes off. -/
theorem rstripBy_split (p : Char → Bool) (s : List Char) :
    ∃ bs, s = rstripBy p s ++ bs ∧ ∀ b ∈ bs, p b = true := by
  refine ⟨(s.reverse.takeWhile p).reverse, ?_, fun b hb => ?_⟩
  · have hrev := congrArg List.reverse (@List.takeWhile_append_dropWhile _ p s.reverse)
    rw [List.reverse_append, List.reverse_reverse] at hrev
    exact hrev.symm
  · exact List.mem_takeWhile_imp (List.mem_reverse.mp hb)

/-- A text up to the first place of a character. -/
theorem takeWhile_first {a : Char} {s : List Char} (h : a ∈ s) :
    ∃ rest, s = s.takeWhile (· ≠ a) ++ a :: rest := by
  induction s with
  | nil => cases h
  | cons c s ih =>
    by_cases hc : c = a
    · exact ⟨s, by rw [hc, List.takeWhile_cons_of_neg (by simp), List.nil_append]⟩
    · obtain ⟨rest, hrest⟩ := ih ((List.mem_cons.mp h).resolve_left (Ne.symm hc))
      exact ⟨rest, by rw [List.takeWhile_cons_of_pos (by simpa using hc), List.cons_append, ← hrest]⟩

/-- Before a text that begins with the separator nothing else begins with it. -/
theorem fromEach_head {a : Char} {sep s pre : List Char} (hpre : a ∉ pre)
    (hs : (a :: sep).isPrefixOf s = true) : (fromEach (a :: sep) (pre ++ s)).head? = some s := by
  induction pre with
  | nil =>
    cases s with
    | nil => cases hs
    | cons c s =>
      unfold fromEach
      rw [List.nil_append, List.tails, List.filter_cons_of_pos hs]
      rfl
  | cons c pre ih =>
    obtain ⟨hc, hpre⟩ := not_or.mp (mt List.mem_cons.mpr hpre)
    have hno : ¬ (a :: sep).isPrefixOf (c :: (pre ++ s)) = true := by
      simp [List.isPrefixOf, hc]
    have ih := ih hpre
    unfold fromEach at *
    rw [List.cons_append, List.tails, List.filter_cons_of_neg hno]
    exact ih

theorem afterFirst_append {a : Char} {sep pre : List Char} (hpre : a ∉ pre) (rest : List Char) :
    afterFirst (a :: sep) (pre ++ ((a :: sep) ++ rest)) = rest := by
  have hs : (a :: sep).isPrefixOf ((a :: sep) ++ rest) = true := by
    rw [ List.isPrefixOf_iff_prefix]
    exact List.prefix_append _ _
  unfold afterFirst
  rw [fromEach_head hpre hs]
  exact List.drop_left

theorem dropWhile_self {p : Char → Bool} {s : List Char} (h : ∀ c ∈ s.head?, p c = false) :
    s.dropWhile p = s := by
  cases s with
  | nil => rfl
  | cons c s =>
    have hc := h c rfl
    exact List.dropWhile_cons_of_neg (by rw [hc]; exact Bool.false_ne_true)

/-- What is cut off at the end, behind a text that keeps its own end. -/
theorem rstripBy_append {p : Char → Bool} {s t : List Char} (ht : ∀ c ∈ t, p c = true)
    (hs : ∀ c ∈ s.getLast?, p c = false) : rstripBy p (s ++ t) = s := by
  have hkeep := dropWhile_self (s := s.reverse) (by rwa [List.head?_reverse])
  unfold rstripBy
  rw [List.reverse_append, List.dropWhile_append_of_pos (by simpa using ht), hkeep,
    List.reverse_reverse]

theorem rstripBy_self {p : Char → Bool} {s : List Char} (h : ∀ c ∈ s.getLast?, p c = false) :
    rstripBy p s = s := by
  have hcut := rstripBy_append (t := []) (fun _ hc => absurd hc List.not_mem_nil) h
  rwa [List.append_nil] at hcut

theorem rstripBy_concat {p : Char → Bool} {c : Char} (h : p c = false) (s : List Char) :
    rstripBy p (s ++ [c]) = s ++ [c] := by
  refine rstripBy_self fun d hd => ?_
  rw [List.getLast?_concat] at hd
  obtain rfl := Option.some.inj hd
  exact h

/-- What has nothing to cut off at its ends stays as it is. -/
theorem stripBy_self {p : Char → Bool} {s : List Char} (hfirst : ∀ c ∈ s.head?, p c = false)
    (hlast : ∀ c ∈ s.getLast?, p c = false) : stripBy p s = s := by
  rw [stripBy, dropWhile_self hfirst, rstripBy_self hlast]

theorem mem_stripBy {p : Char → Bool} {s : List Char} {c : Char} (h : c ∈ s) (hc : p c = false) :
    c ∈ stripBy p s := by
  have hdrop : ∀ t : List Char, c ∈ t → c ∈ t.dropWhile p := by
    intro t ht
    rw [← @List.takeWhile_append_dropWhile _ p t, List.mem_append] at ht
    rcases ht with ht | ht
    · have hp := List.mem_takeWhile_imp ht
      rw [hc] at hp
      cases hp
    · exact ht
  unfold stripBy rstripBy
  exact List.mem_reverse.mpr (hdrop _ (List.mem_reverse.mpr (hdrop s h)))

/-- The parts of a text do not have the separator. -/
theorem not_mem_splitOn {a : Char} {s part : List Char} (h : part ∈ s.splitOn a) : a ∉ part := by
  induction s generalizing part with
  | nil =>
    rw [List.splitOn_nil, List.mem_singleton] at h
    rw [h]
    exact List.not_mem_nil
  | cons c s ih =>
    rw [List.splitOn_cons_eq_if_modifyHead] at h
    split at h
    · rcases List.mem_cons.mp h with rfl | h
      · exact List.not_mem_nil
      · exact ih h
    · next hc =>
      have hne : a ≠ c := fun hac => hc (by rw [hac, beq_self_eq_true])
      cases hs : s.splitOn a with
      | nil =>
        rw [hs] at h
        exact absurd h List.not_mem_nil
      | cons first rest =>
        rw [hs, List.modifyHead_cons] at h
        rcases List.mem_cons.mp h with rfl | h
        · have hfirst : a ∉ first := ih (by rw [hs]; exact List.mem_cons_self)
          simp [hne, hfirst]
        · exact ih (by rw [hs]; exact List.mem_cons_of_mem _ h)

/-! ## Up to a place -/

/-- The last place of a character. -/
def lastOf (c : Char) : List Char → Option Nat
  | [] => none
  | x :: t => match lastOf c t with
    | some i => some (i + 1)
    | none => if x = c then some 0 else none

/-- `s.rfind(c)`. -/
def rfind (c : Char) (s : List Char) : Int := match lastOf c s with
  | some i => i
  | none => -1

/-- `s[:n]`: a negative place is counted from the end. -/
def upTo (s : List Char) (n : Int) : List Char :=
  if 0 ≤ n then s.take n.toNat else s.take (s.length + n).toNat

theorem upTo_start (s : List Char) (n : Int) : upTo s n <+: s := by
  unfold upTo
  split <;> exact List.take_prefix _ _

theorem lastOf_eq_none {c : Char} {s : List Char} : lastOf c s = none ↔ c ∉ s := by
  induction s with
  | nil => simp [lastOf]
  | cons x t ih =>
    unfold lastOf
    cases h : lastOf c t with
    | some i =>
      have hmem : c ∈ t := by
        by_contra hn
        rw [ih.mpr hn] at h
        cases h
      simp [hmem]
    | none =>
      have hmem := ih.mp h
      by_cases hx : x = c
      · simp [hx]
      · simp [hx, hmem, Ne.symm hx]

theorem lastOf_cons (c x : Char) (t : List Char) : lastOf c (x :: t) =
    match lastOf c t with
    | some i => some (i + 1)
    | none => if x = c then some 0 else none := rfl

theorem lastOf_append (c : Char) (s t : List Char) : lastOf c (s ++ t) =
    match lastOf c t with
    | some i => some (s.length + i)
    | none => lastOf c s := by
  induction s with
  | nil => cases h : lastOf c t <;> simp [h, lastOf]
  | cons x s ih =>
    rw [List.cons_append, lastOf_cons, ih]
    cases lastOf c t with
    | some i =>
      simp only [List.length_cons, Option.some.injEq]
      omega
    | none => rfl

theorem lastOf_lt {c : Char} {s : List Char} {i : Nat} (h : lastOf c s = some i) :
    i < s.length := by
  induction s generalizing i with
  | nil => cases h
  | cons x t ih =>
    rw [lastOf_cons] at h
    rw [List.length_cons]
    cases ht : lastOf c t with
    | some j =>
      simp only [ht, Option.some.injEq] at h
      have := ih ht
      omega
    | none =>
      simp only [ht, Option.ite_none_right_eq_some, Option.some.injEq] at h
      omega

/-- What an open character opens is closed again. -/
def Closed (o c : Char) (s : List Char) : Prop := rfind o s ≤ rfind c s

theorem closed_of_not_mem {o c : Char} {s : List Char} (h : o ∉ s) : Closed o c s := by
  unfold Closed rfind
  rw [lastOf_eq_none.mpr h]
  cases lastOf c s with
  | none => exact Int.le_refl _
  | some i => simp only; omega

theorem Closed.append {o c : Char} {s t : List Char} (hs : Closed o c s) (ht : Closed o c t) :
    Closed o c (s ++ t) := by
  unfold Closed rfind at *
  rw [lastOf_append, lastOf_append]
  cases ho : lastOf o t with
  | none =>
    cases hc : lastOf c t with
    | none => exact hs
    | some j =>
      cases hos : lastOf o s with
      | none => simp only; omega
      | some i =>
        have := lastOf_lt hos
        simp only
        omega
  | some i =>
    cases hc : lastOf c t with
    | none =>
      rw [ho, hc] at ht
      simp only at ht
      omega
    | some j =>
      rw [ho, hc] at ht
      simp only at ht ⊢
      omega

/-- `s[:s.rfind(o)]` when the last `o` is not closed. -/
def beforeOpen (o c : Char) (s : List Char) : List Char :=
  if rfind c s < rfind o s then upTo s (rfind o s) else s

theorem beforeOpen_closed {o c : Char} {s : List Char} (h : Closed o c s) :
    beforeOpen o c s = s := by
  unfold beforeOpen
  rw [if_neg (not_lt.mpr h)]

/-- An open character that stands behind a closed text is cut off, with what follows it. -/
theorem beforeOpen_open {o c : Char} {s t : List Char} (hne : o ≠ c) (ho : o ∉ t) (hc : c ∉ t) :
    beforeOpen o c (s ++ o :: t) = s := by
  have hlast : lastOf o (o :: t) = some 0 := by
    simp [lastOf, lastOf_eq_none.mpr ho]
  have hnone : lastOf c (o :: t) = none := by
    rw [lastOf_eq_none]
    simp [hc, hne.symm]
  have hopen : rfind o (s ++ o :: t) = s.length := by
    unfold rfind
    rw [lastOf_append, hlast]
    simp
  have hclose : rfind c (s ++ o :: t) < s.length := by
    unfold rfind
    rw [lastOf_append, hnone]
    cases h : lastOf c s with
    | none => simp only; omega
    | some i =>
      have := lastOf_lt h
      simp only
      omega
  unfold beforeOpen
  rw [hopen, if_pos hclose]
  simp [upTo]

theorem beforeOpen_start (o c : Char) (s : List Char) : beforeOpen o c s <+: s := by
  unfold beforeOpen
  split
  · exact upTo_start s _
  · exact List.prefix_refl s

theorem rfind_lt {c : Char} {s : List Char} (h : 0 ≤ rfind c s) : rfind c s < s.length := by
  unfold rfind at *
  cases hl : lastOf c s with
  | none =>
    rw [hl] at h
    simp only at h
    omega
  | some i =>
    have := lastOf_lt hl
    simp only
    omega

theorem neg_one_le_rfind (c : Char) (s : List Char) : -1 ≤ rfind c s := by
  unfold rfind
  cases lastOf c s <;> simp only <;> omega

theorem upTo_of_start {p s : List Char} (h : p <+: s) {i : Int} (h0 : 0 ≤ i)
    (hi : i ≤ p.length) : upTo s i = upTo p i := by
  obtain ⟨t, rfl⟩ := h
  unfold upTo
  rw [if_pos h0, if_pos h0, List.take_append_of_le_length (by omega)]

/-- A place found in a prefix is the same place of the text. -/
theorem upTo_rfind {c : Char} {p s : List Char} (hp : p <+: s) (h : 0 ≤ rfind c p) :
    upTo s (rfind c p) = upTo p (rfind c p) :=
  upTo_of_start hp h (Int.le_of_lt (rfind_lt h))

theorem upTo_of_length_le {s : List Char} {n : Int} (h : (s.length : Int) ≤ n) : upTo s n = s := by
  unfold upTo
  rw [if_pos (by omega), List.take_of_length_le (by omega)]

/-- A place that the rest of a text has is not found in the text before it. -/
theorem rfind_append (c : Char) (s t : List Char) :
    rfind c (s ++ t) = rfind c s ∨ (s.length : Int) ≤ rfind c (s ++ t) := by
  unfold rfind
  rw [lastOf_append]
  cases lastOf c t with
  | none => exact .inl rfl
  | some i =>
    right
    simp only
    omega

/-- What is tried on each character of a text. -/
theorem forall_mem {p : Char → Prop} [DecidablePred p] {s : List Char}
    (h : (s.all fun c => decide (p c)) = true) : ∀ c ∈ s, p c := by
  intro c hc
  exact of_decide_eq_true (List.all_eq_true.mp h c hc)

end Texts
