-- The stored history of a key and the samples it came from: the history is the
-- list of daily minima since the key last began anew.
import Kervax.MemTrend
import Mathlib.Data.List.Induction
import Mathlib.Data.List.Infix
import Mathlib.Order.Bounds.Basic

namespace Kervax.Mem

/-! ## Daily minima -/

/-- One more sample, as a day and a value: it lowers the minimum of its day or
begins a new day. -/
def addSample (ms : List (Int × Int)) (s : Int × Int) : List (Int × Int) :=
  match ms.getLast? with
  | none => [s]
  | some last => if last.1 = s.1 then ms.dropLast ++ [(last.1, min last.2 s.2)] else ms ++ [s]

/-- The minima of the days, in the order of the samples. -/
def minima (samples : List (Int × Int)) : List (Int × Int) := samples.foldl addSample []

@[simp] theorem minima_snoc (samples : List (Int × Int)) (s : Int × Int) :
    minima (samples ++ [s]) = addSample (minima samples) s := by
  simp [minima]

/-- What stands in the list came from it or is the sample. -/
theorem mem_addSample {ms : List (Int × Int)} {s p : Int × Int} (h : p ∈ addSample ms s) :
    p ∈ ms ∨ p = s := by
  unfold addSample at h
  split at h
  · exact .inr (List.mem_singleton.mp h)
  · next last hl =>
    have hmem := List.mem_of_getLast? hl
    split at h
    · next heq =>
      rcases List.mem_append.mp h with h | h
      · exact .inl (List.mem_of_mem_dropLast h)
      · rw [List.mem_singleton.mp h]
        rcases min_choice last.2 s.2 with hmin | hmin
        · rw [hmin]
          exact .inl hmem
        · rw [hmin, heq]
          exact .inr rfl
    · rcases List.mem_append.mp h with h | h
      · exact .inl h
      · exact .inr (List.mem_singleton.mp h)

/-- What was covered stays covered. -/
theorem addSample_covers {ms : List (Int × Int)} {s : Int × Int} {d v : Int}
    (h : ∃ m ≤ v, (d, m) ∈ ms) : ∃ m ≤ v, (d, m) ∈ addSample ms s := by
  obtain ⟨m, hm, hmem⟩ := h
  rcases List.eq_nil_or_concat ms with rfl | ⟨front, last, rfl⟩
  · cases hmem
  · rw [List.concat_eq_append] at hmem ⊢
    unfold addSample
    rw [List.getLast?_concat, List.dropLast_concat]
    dsimp only
    split
    · rcases List.mem_append.mp hmem with hf | hl
      · exact ⟨m, hm, List.mem_append_left _ hf⟩
      · rw [← List.mem_singleton.mp hl]
        exact ⟨min m s.2, le_trans (min_le_left _ _) hm, by simp⟩
    · exact ⟨m, hm, List.mem_append_left _ hmem⟩

theorem addSample_self (ms : List (Int × Int)) (s : Int × Int) :
    ∃ m ≤ s.2, (s.1, m) ∈ addSample ms s := by
  unfold addSample
  split
  · exact ⟨s.2, le_refl _, by simp⟩
  · next last hl =>
    split
    · next heq => exact ⟨min last.2 s.2, min_le_right _ _, by simp [heq]⟩
    · exact ⟨s.2, le_refl _, by simp⟩

theorem addSample_sorted {ms : List (Int × Int)} {s : Int × Int}
    (h : ms.Pairwise fun a b => a.1 < b.1) (hs : ∀ p ∈ ms, p.1 ≤ s.1) :
    (addSample ms s).Pairwise fun a b => a.1 < b.1 := by
  rcases List.eq_nil_or_concat ms with rfl | ⟨front, last, rfl⟩
  · exact List.pairwise_singleton _ _
  · rw [List.concat_eq_append] at h hs ⊢
    obtain ⟨hfront, -, hlow⟩ := List.pairwise_append.mp h
    unfold addSample
    rw [List.getLast?_concat, List.dropLast_concat]
    dsimp only
    split
    · refine List.pairwise_append.mpr ⟨hfront, List.pairwise_singleton _ _, ?_⟩
      intro a ha b hb
      rw [List.mem_singleton.mp hb]
      exact hlow a ha last (by simp)
    · next hne =>
      have hlast : last.1 < s.1 := lt_of_le_of_ne (hs last (by simp)) hne
      refine List.pairwise_append.mpr ⟨h, List.pairwise_singleton _ _, ?_⟩
      intro a ha b hb
      rw [List.mem_singleton.mp hb]
      rcases List.mem_append.mp ha with ha | ha
      · exact lt_trans (hlow a ha last (by simp)) hlast
      · rw [List.mem_singleton.mp ha]
        exact hlast

theorem minima_mem {samples : List (Int × Int)} {p : Int × Int} (h : p ∈ minima samples) :
    p ∈ samples := by
  induction samples using List.reverseRecOn with
  | nil => cases h
  | append_singleton samples s ih =>
    rw [minima_snoc] at h
    rcases mem_addSample h with h | rfl
    · exact List.mem_append_left _ (ih h)
    · simp

theorem minima_covers {samples : List (Int × Int)} {d v : Int} (h : (d, v) ∈ samples) :
    ∃ m ≤ v, (d, m) ∈ minima samples := by
  induction samples using List.reverseRecOn with
  | nil => cases h
  | append_singleton samples s ih =>
    rw [minima_snoc]
    rcases List.mem_append.mp h with h | h
    · exact addSample_covers (ih h)
    · obtain rfl := List.mem_singleton.mp h
      exact addSample_self _ (d, v)

/-- The samples come in the order of their days. -/
def InDayOrder (samples : List (Int × Int)) : Prop := samples.Pairwise fun a b => a.1 ≤ b.1

theorem minima_sorted {samples : List (Int × Int)} (h : InDayOrder samples) :
    (minima samples).Pairwise fun a b => a.1 < b.1 := by
  induction samples using List.reverseRecOn with
  | nil => exact List.Pairwise.nil
  | append_singleton samples s ih =>
    obtain ⟨hs, -, hlast⟩ := List.pairwise_append.mp h
    rw [minima_snoc]
    exact addSample_sorted (ih hs) fun p hp => hlast p (minima_mem hp) s (by simp)

/-- Each day stands once. -/
theorem nodup_minima {samples : List (Int × Int)} (h : InDayOrder samples) :
    (Dict.keys (minima samples)).Nodup := by
  unfold Dict.keys
  rw [List.Nodup, List.pairwise_map]
  exact (minima_sorted h).imp ne_of_lt

/-- In the order of the days the list has one entry for each day with a sample,
the least of this day. -/
theorem minima_isLeast {samples : List (Int × Int)} (h : InDayOrder samples) (d m : Int) :
    (d, m) ∈ minima samples ↔ IsLeast {v | (d, v) ∈ samples} m := by
  have honce {m m'} (h1 : (d, m) ∈ minima samples) (h2 : (d, m') ∈ minima samples) : m = m' :=
    Option.some.inj ((Dict.lookup_of_mem (nodup_minima h) h1).symm.trans
      (Dict.lookup_of_mem (nodup_minima h) h2))
  constructor
  · intro hm
    refine ⟨minima_mem hm, ?_⟩
    intro v hv
    obtain ⟨m', hle, hm'⟩ := minima_covers hv
    rw [honce hm hm']
    exact hle
  · rintro ⟨hmem, hleast⟩
    obtain ⟨m', hle, hm'⟩ := minima_covers hmem
    rw [le_antisymm (hleast (minima_mem hm')) hle]
    exact hm'

/-! ## What `update` keeps -/

/-- The new history of one key. -/
theorem lookup_update {old : Trend} (hn : (Dict.keys old).Nodup) (rep : Report) (now : Time)
    (day : Int) (k : Key) :
    (update old rep now day).lookup k =
      (((targets rep).lookup k).bind (sampled old rep now day k)).or
        ((old.lookup k).filter (keeps rep day k)) := by
  have hnew := Dict.lookup_choose (nodup_targets rep) (sampled old rep now day) k
  unfold update
  dsimp only
  rw [List.lookup_append, Dict.lookup_choose hn, hnew]
  cases ((targets rep).lookup k).bind (sampled old rep now day k) with
  | some s => rfl
  | none =>
    cases old.lookup k with
    | none => rfl
    | some s => simp [Option.filter]

theorem nodup_update {old : Trend} (hn : (Dict.keys old).Nodup) (rep : Report) (now : Time)
    (day : Int) : (Dict.keys (update old rep now day)).Nodup := by
  unfold update Dict.keys
  dsimp only
  rw [List.map_append, List.nodup_append]
  refine ⟨(Dict.keys_choose_sublist _ _).nodup (nodup_targets rep),
    (Dict.keys_choose_sublist _ _).nodup hn, ?_⟩
  intro a ha b hb hab
  obtain ⟨⟨a', s⟩, hs, rfl⟩ := List.mem_map.mp ha
  obtain ⟨⟨b', s'⟩, hs', rfl⟩ := List.mem_map.mp hb
  obtain ⟨c, -, hc⟩ := Dict.mem_choose.mp hs'
  have hfound := (Dict.lookup_iff_mem ((Dict.keys_choose_sublist _ _).nodup
    (nodup_targets rep))).mpr hs
  subst hab
  split at hc
  · next hcond =>
    rw [hfound] at hcond
    cases hcond.1
  · cases hc

/-! ## The samples behind a history -/

/-- The samples of a key since its history last began anew, and the identity that
they are of. -/
structure Log where
  samples : List (Int × Int) := []
  uid : String := ""
deriving DecidableEq, Repr

/-- A report that has no sample of a key ends its log only if its complete list
has not the key and the last sample is older than the day before. -/
def Log.unseen (l : Log) (rep : Report) (day : Int) (k : Key) : Log :=
  if inventoryComplete rep k.kind ∧ isMember rep k = false ∧
      (l.samples.getLast?.any fun s => s.1 < day - 1) then {} else l

/-- One report. A sample of another pod begins a new log if the list is complete,
and is left out if it is not. -/
def Log.next (l : Log) (rep : Report) (now : Time) (day : Int) (k : Key) : Log :=
  match sample rep k now with
  | none => l.unseen rep day k
  | some v =>
    if l.samples ≠ [] ∧ replaced rep k l.uid then
      if inventoryComplete rep k.kind then ⟨[(day, v)], uidOf rep k⟩ else l
    else ⟨l.samples ++ [(day, v)], if uidOf rep k ≠ "" then uidOf rep k else l.uid⟩

/-- The history that the samples make: the last minimum is the day that goes on. -/
def Log.view (l : Log) : Option Series :=
  (minima l.samples).getLast?.map fun last =>
    { d := last.1, m := last.2, h := lastN keepDays (minima l.samples).dropLast, u := l.uid }

/-- What every log of a key has. -/
structure Log.Good (l : Log) (k : Key) : Prop where
  pos : ∀ p ∈ l.samples, 0 < p.2
  bare : l.samples = [] → l.uid = ""
  noPod : k.kind ≠ .pod → l.uid = ""

theorem uidOf_noPod {rep : Report} {k : Key} (h : k.kind ≠ .pod) : uidOf rep k = "" := by
  simp [uidOf, h]

theorem sample_pos {rep : Report} {k : Key} {now : Time} {v : Int}
    (h : sample rep k now = some v) : 0 < v := by
  unfold sample at h
  split at h
  · exact targets_pos h
  · cases h

theorem good_next {l : Log} {k : Key} (hl : l.Good k) (rep : Report) (now : Time) (day : Int) :
    (l.next rep now day k).Good k := by
  unfold Log.next
  split
  · unfold Log.unseen
    split
    · exact ⟨by simp, fun _ => rfl, fun _ => rfl⟩
    · exact hl
  · next v hv =>
    have hpos := sample_pos hv
    split
    · split
      · exact ⟨by simpa using hpos, by simp, uidOf_noPod⟩
      · exact hl
    · refine ⟨?_, by simp, ?_⟩
      · intro p hp
        rcases List.mem_append.mp hp with hp | hp
        · exact hl.pos p hp
        · rw [List.mem_singleton.mp hp]
          exact hpos
      · intro hk
        simp [uidOf_noPod hk, hl.noPod hk]

/-! ## The history is the view of its log -/

theorem lastN_append {α : Type} (n : Nat) (xs ys : List α) :
    lastN n (lastN n xs ++ ys) = lastN n (xs ++ ys) := by
  unfold lastN
  rw [List.drop_append, List.drop_append, List.drop_drop]
  congr 2 <;> simp <;> omega

theorem addSample_ne_nil (ms : List (Int × Int)) (s : Int × Int) : addSample ms s ≠ [] := by
  unfold addSample
  split
  · simp
  · split <;> simp

theorem minima_eq_nil {samples : List (Int × Int)} : minima samples = [] ↔ samples = [] := by
  rcases List.eq_nil_or_concat samples with rfl | ⟨front, last, rfl⟩
  · simp [minima]
  · simp [addSample_ne_nil]

theorem addSample_last (ms : List (Int × Int)) (s : Int × Int) :
    (addSample ms s).getLast?.map Prod.fst = some s.1 := by
  unfold addSample
  split
  · rfl
  · split
    · next h => simp [h]
    · simp

theorem view_eq_none {l : Log} : l.view = none ↔ l.samples = [] := by
  simp [Log.view, minima_eq_nil]

/-- The day that goes on is the day of the last sample. -/
theorem view_day (l : Log) : l.view.map Series.d = l.samples.getLast?.map Prod.fst := by
  unfold Log.view
  rw [Option.map_map]
  rcases List.eq_nil_or_concat l.samples with h | ⟨front, last, h⟩
  · rw [h]
    rfl
  · rw [h, List.concat_eq_append, minima_snoc, List.getLast?_concat]
    exact addSample_last _ _

theorem view_uid {l : Log} {s : Series} (h : l.view = some s) : s.u = l.uid := by
  obtain ⟨last, -, rfl⟩ := Option.map_eq_some_iff.mp h
  rfl

/-- One more sample. -/
theorem view_snoc {l : Log} (hpos : ∀ p ∈ l.samples, 0 < p.2) (v day : Int) (u : String) :
    (Log.mk (l.samples ++ [(day, v)]) u).view = some { stepSeries l.view v day with u := u } := by
  unfold Log.view
  rw [minima_snoc]
  rcases List.eq_nil_or_concat (minima l.samples) with h | ⟨front, last, h⟩
  · rw [h]
    rfl
  · rw [List.concat_eq_append] at h
    have hlast : last.2 ≠ 0 := by
      have := hpos last (minima_mem (by rw [h]; simp))
      omega
    rw [h]
    unfold addSample stepSeries
    rw [List.getLast?_concat, List.dropLast_concat]
    dsimp only [Option.map_some]
    by_cases hd : last.1 = day
    · simp [hd, hlast]
    · simp [hd, lastN_append]

theorem sample_eq_none {rep : Report} {k : Key} {now : Time} (h : sample rep k now = none) :
    sampleFresh rep k now = false := by
  unfold sample at h
  split at h
  · next hf =>
    unfold sampleFresh at hf
    simp [h] at hf
  · next hf => exact Bool.eq_false_iff.mpr hf

theorem sample_eq_some {rep : Report} {k : Key} {now : Time} {v : Int}
    (h : sample rep k now = some v) :
    sampleFresh rep k now = true ∧ (targets rep).lookup k = some v := by
  unfold sample at h
  split at h
  · next hf => exact ⟨hf, h⟩
  · cases h

/-- Without a sample `update` keeps the history, or ends it with its log. -/
theorem view_unseen (l : Log) (rep : Report) (day : Int) (k : Key) :
    l.view.filter (keeps rep day k) = (l.unseen rep day k).view := by
  have hday := view_day l
  unfold Log.unseen keeps
  cases hs : l.view with
  | none =>
    split
    · rfl
    · rw [hs]
      rfl
  | some s =>
    rw [hs, Option.map_some, eq_comm, Option.map_eq_some_iff] at hday
    obtain ⟨last, hlast, hd⟩ := hday
    rw [hlast, Option.any_some, hd]
    split
    · next h =>
      obtain ⟨hc, hm, hold⟩ := h
      simp only [decide_eq_true_eq] at hold
      rw [Option.filter_eq_none_iff.mpr]
      · rfl
      · intro s' hs'
        obtain rfl := Option.some.inj hs'
        have : s.d + 1 < day := by omega
        simp [hc, hm, this]
    · next h =>
      rw [hs, Option.filter_eq_some_iff]
      refine ⟨rfl, ?_⟩
      simp only [decide_eq_true_eq]
      by_contra hno
      simp only [not_or, not_le, Bool.not_eq_true, Bool.not_eq_false] at hno
      exact h ⟨hno.1, hno.2.1, by simpa using hno.2.2⟩

/-- The identity that a new history takes. -/
theorem uid_new (rep : Report) (k : Key) :
    (if k.kind = .pod then if uidOf rep k ≠ "" then uidOf rep k else "" else "") = uidOf rep k := by
  by_cases hk : k.kind = .pod
  · simp [hk]
  · simp [hk, uidOf_noPod hk]

/-- The identity that a history goes on with. -/
theorem uid_kept {l : Log} {k : Key} (hl : l.Good k) (rep : Report) :
    (if k.kind = .pod then
      if uidOf rep k ≠ "" then uidOf rep k else (l.view.map Series.u).getD ""
      else "") = if uidOf rep k ≠ "" then uidOf rep k else l.uid := by
  have huid : (l.view.map Series.u).getD "" = l.uid := by
    cases hs : l.view with
    | none => exact (hl.bare (view_eq_none.mp hs)).symm
    | some s => exact view_uid hs
  rw [huid]
  by_cases hk : k.kind = .pod
  · simp [hk]
  · simp [hk, uidOf_noPod hk, hl.noPod hk]

/-- What `update` makes of the history of a key is what the report makes of its
log. -/
theorem view_next {old : Trend} (hn : (Dict.keys old).Nodup) {l : Log} {k : Key} (hl : l.Good k)
    (hold : old.lookup k = l.view) (rep : Report) (now : Time) (day : Int) :
    (update old rep now day).lookup k = (l.next rep now day k).view := by
  rw [lookup_update hn]
  unfold Log.next
  split
  · next h =>
    have hnone : ((targets rep).lookup k).bind (sampled old rep now day k) = none := by
      rw [Option.bind_eq_none_iff]
      intro v _
      simp [sampled, sample_eq_none h]
    rw [hnone, Option.none_or, hold]
    exact view_unseen l rep day k
  · next v h =>
    obtain ⟨hfresh, hv⟩ := sample_eq_some h
    have hother : (l.view.any fun p => replaced rep k p.u) = true ↔
        l.samples ≠ [] ∧ replaced rep k l.uid = true := by
      cases hs : l.view with
      | none => simp [view_eq_none.mp hs]
      | some s =>
        have hne : l.samples ≠ [] := fun h0 => by simp [view_eq_none.mpr h0] at hs
        simp [hne, view_uid hs]
    rw [hv, Option.bind_some]
    unfold sampled
    simp only [hfresh, hold, Bool.true_eq_false, if_false]
    by_cases ho : (l.view.any fun p => replaced rep k p.u) = true
    · rw [if_pos (hother.mp ho)]
      simp only [ho, true_and, if_true]
      cases hc : inventoryComplete rep k.kind with
      | false =>
        -- what is not proven changes nothing
        have hkeep : l.view.filter (keeps rep day k) = l.view := by
          cases l.view with
          | none => rfl
          | some s => simp [Option.filter, keeps, hc]
        simpa using hkeep
      | true =>
        have hview := view_snoc (l := {}) (by simp) v day (uidOf rep k)
        simp only [Bool.true_eq_false, if_false, Option.map_none, Option.getD_none,
          Option.some_or, uid_new]
        exact hview.symm
    · rw [if_neg fun h => ho (hother.mpr h)]
      simp only [Bool.not_eq_true] at ho
      simp only [ho, Bool.false_eq_true, false_and, if_false]
      rw [view_snoc hl.pos, Option.some_or, uid_kept hl]

end Kervax.Mem
