-- What waits for a reboot, over any sequence of reports: that a reboot is needed is said once
-- between two reboots, and a new kernel once for each change of its version.
import Kervax.TimelineRuns
import Mathlib.Data.List.Destutter

namespace Kervax.Timeline

/-- The texts of the events of one kind. -/
def ofKind (k : Kind) (e : Ev) : Option String := if e.kind = k then some e.text else none

def texts (k : Kind) (evs : List Ev) : List String := evs.filterMap (ofKind k)

theorem texts_append (k : Kind) (a b : List Ev) : texts k (a ++ b) = texts k a ++ texts k b :=
  List.filterMap_append

theorem texts_if (k : Kind) (c : Bool) (e : Ev) :
    texts k (if c then [e] else []) = if c && e.kind = k then [e.text] else [] := by
  unfold texts ofKind
  cases c with
  | false => rfl
  | true => by_cases he : e.kind = k <;> simp [he]

theorem Only.texts {ks : List Kind} {evs : List Ev} (h : Only ks evs) {k : Kind} (hk : k ∉ ks) :
    Timeline.texts k evs = [] := by
  apply h.filterMap
  intro e he
  refine if_neg ?_
  rintro rfl
  exact hk he

/-! ## The reports between two reboots -/

/-- The reports up to the next reboot, and the others by the reboot that they follow. A report
without a time of boot follows none. -/
def bootRuns (last : Option Int) : List Snap → List Snap × List (List Snap)
  | [] => ([], [])
  | r :: rs =>
    if r.boot.isSome ∧ r.boot ≠ last then
      ([], (r :: (bootRuns r.boot rs).1) :: (bootRuns r.boot rs).2)
    else (r :: (bootRuns last rs).1, (bootRuns last rs).2)

/-- A report that asks for a reboot. -/
def asksReboot (r : Snap) : Bool := r.ou && r.rbTs ≠ 0

/-- The kernel that a report has waiting. -/
def kernelSeen (r : Snap) : Option String := if r.ou && r.kn ≠ "" then some r.kn else none

/-- What is said of kernels after one that was said: each that differs from the last. -/
def kernels (said : String) (rs : List Snap) : List String :=
  (((rs.filterMap kernelSeen).destutter' (· ≠ ·) said).tail).map kernelText

def asked (before : Bool) (rs : List Snap) : Nat := if before = false ∧ rs.any asksReboot then 1 else 0

theorem destutter'_head (a : String) (l : List String) :
    l.destutter' (· ≠ ·) a = a :: (l.destutter' (· ≠ ·) a).tail := by
  induction l generalizing a with
  | nil => rfl
  | cons b l ih =>
    by_cases h : a ≠ b
    · rw [List.destutter'_cons_pos _ h, List.tail_cons]
    · rw [List.destutter'_cons_neg _ h]
      exact ih a

theorem kernels_cons (s : Said) (r : Snap) (rs : List Snap) :
    kernels s.kn (r :: rs) = (if kernelNewDue r s then [kernelText r.kn] else []) ++
      kernels (saidAfter r s).kn rs := by
  unfold kernels saidAfter
  rw [List.filterMap_cons]
  by_cases hseen : (r.ou && r.kn ≠ "") = true
  · have hsome : kernelSeen r = some r.kn := if_pos hseen
    rw [hsome]
    by_cases hkn : s.kn ≠ r.kn
    · have hdue : kernelNewDue r s = true := by
        unfold kernelNewDue
        rw [hseen]
        simp [Ne.symm hkn]
      rw [List.destutter'_cons_pos _ hkn, List.tail_cons, destutter'_head, hdue]
      simp
    · have hdue : kernelNewDue r s = false := by
        unfold kernelNewDue
        simp [not_not.mp hkn]
      rw [List.destutter'_cons_neg _ hkn, hdue]
      simp
  · have hnone : kernelSeen r = none := if_neg hseen
    have hdue : kernelNewDue r s = false := by
      unfold kernelNewDue
      simp only [Bool.not_eq_true] at hseen
      rw [hseen, Bool.false_and]
    rw [hnone, hdue]
    simp

theorem asked_cons (s : Said) (r : Snap) (rs : List Snap) :
    asked (s.rb ≠ 0) (r :: rs) = (if rebootDue r s then 1 else 0) +
      asked ((saidAfter r s).rb ≠ 0) rs := by
  have hdue : rebootDue r s = (asksReboot r && s.rb = 0) := rfl
  unfold asked saidAfter
  rw [hdue]
  by_cases hs : s.rb = 0 <;> by_cases hr : asksReboot r = true
  · have hrb : r.rbTs ≠ 0 := by
      unfold asksReboot at hr
      simp only [Bool.and_eq_true, decide_eq_true_eq] at hr
      exact hr.2
    simp [hs, hr, hrb]
  · simp [hs, hr]
  · simp [hs]
  · simp [hs]

/-! ## One report -/

/-- What was said up to now; where nothing was, what the snapshot has. -/
def Track.said (t : Track) : Option Said :=
  t.snap.map fun prev => t.pend.said.getD { boot := prev.boot, kn := prev.kn, rb := prev.rbTs }

/-- Nothing was said after a reboot. -/
def anew (cur : Snap) (s : Said) : Said :=
  if cur.boot.isSome ∧ cur.boot ≠ s.boot then { boot := cur.boot, kn := "", rb := 0 } else s

theorem held_due (prev cur : Snap) (s : Said) :
    kernelNewDue (heldUpdates prev cur) s = kernelNewDue cur s ∧
      rebootDue (heldUpdates prev cur) s = rebootDue cur s ∧
      saidAfter (heldUpdates prev cur) s = saidAfter cur s := by
  unfold heldUpdates
  split
  · exact ⟨rfl, rfl, rfl⟩
  · rename_i hou
    simp [kernelNewDue, rebootDue, saidAfter, hou]

theorem diff_pend_said (prev cur : Snap) (pend : Pend) :
    (diffP prev cur (diffC prev cur pend).2.2).2.2.said = pend.said := by
  have hc : (diffC prev cur pend).2.2.said = pend.said := by
    unfold diffC
    split <;> rfl
  rw [← hc]
  unfold diffP
  split <;> rfl

theorem texts_saidEvs (prev cur : Snap) (s : Said) :
    texts .kernelNew (saidEvs prev cur s) =
        (if kernelNewDue cur s then [kernelText cur.kn] else []) ∧
      (texts .rebootReq (saidEvs prev cur s)).length = if rebootDue cur s then 1 else 0 := by
  have hpackages : ∀ k, k ∉ [Kind.packages] → texts k (packagesEvs prev cur) = [] :=
    fun k hk => (only_packagesEvs prev cur).texts hk
  unfold saidEvs
  simp only [texts_append, texts_if, hpackages .kernelNew (by decide),
    hpackages .rebootReq (by decide), kernelNewEv_kind, rebootReqEv_kind,
    kernelNewEv_text]
  constructor
  · simp
  · cases rebootDue cur s <;> simp

theorem track_said {t : Track} {cur : Snap} (h : t.snap.map Snap.ts ≠ some cur.ts) {s : Said}
    (hs : t.said = some s) :
    (track t cur).said = some (saidAfter cur (anew cur s)) ∧
      texts .kernelNew (track t cur).log = texts .kernelNew t.log ++
        (if kernelNewDue cur (anew cur s) then [kernelText cur.kn] else []) ∧
      (texts .rebootReq (track t cur).log).length = (texts .rebootReq t.log).length +
        if rebootDue cur (anew cur s) then 1 else 0 := by
  rw [track_new h]
  unfold Track.said at hs ⊢
  cases hsnap : t.snap with
  | none => simp [hsnap] at hs
  | some prev =>
    rw [hsnap, Option.map_some, Option.some.injEq] at hs
    have hbefore : saidBefore prev (heldUpdates prev cur) t.pend.said = anew cur s := by
      unfold saidBefore anew
      dsimp only
      rw [hs, heldUpdates_boot]
    obtain ⟨hkernel, hreboot, hafter⟩ := held_due prev cur (anew cur s)
    obtain ⟨hkernels, hasks⟩ := texts_saidEvs prev (heldUpdates prev cur) (anew cur s)
    have hquiet : ∀ k ∈ saidKinds, texts k (diff (some prev) cur t.pend).1 =
        texts k (saidEvs prev (heldUpdates prev cur) (anew cur s)) := by
      intro k hk
      have hnew : k ∉ [Kind.new, .gone] ++ contKinds := by revert hk; cases k <;> decide
      have hport : k ∉ portKinds := by revert hk; cases k <;> decide
      have hboot : k ∉ [Kind.reboot] := by revert hk; cases k <;> decide
      have hversion : k ∉ versionKinds := by revert hk; cases k <;> decide
      unfold diff
      dsimp only
      rw [diff_pend_said, hbefore, texts_append, texts_append, texts_append, texts_append,
        (only_diffC _ _ _).texts hnew, (only_diffP _ _ _).texts hport,
        (only_rebootEvs _ _).texts hboot, (only_versionEvs _ _).texts hversion]
      simp
    refine ⟨?_, ?_, ?_⟩
    · unfold diff
      dsimp only
      rw [diff_pend_said, hbefore, hafter]
      rfl
    · rw [texts_append, hquiet .kernelNew (by decide), hkernels, hkernel]
      by_cases hdue : kernelNewDue cur (anew cur s) = true
      · have hou : cur.ou = true := by
          unfold kernelNewDue at hdue
          simp only [Bool.and_eq_true] at hdue
          exact hdue.1.1
        have hheld : heldUpdates prev cur = cur := if_pos hou
        rw [hheld]
      · simp only [hdue, Bool.false_eq_true, if_false]
    · rw [texts_append, hquiet .rebootReq (by decide), List.length_append, hasks, hreboot]

/-! ## Any sequence of reports -/

theorem bootRuns_anew (cur : Snap) (s : Said) (rs : List Snap) :
    kernels s.kn (bootRuns s.boot (cur :: rs)).1 ++
        (bootRuns s.boot (cur :: rs)).2.flatMap (kernels "") =
      kernels (anew cur s).kn (cur :: (bootRuns (anew cur s).boot rs).1) ++
        (bootRuns (anew cur s).boot rs).2.flatMap (kernels "") ∧
    asked (s.rb ≠ 0) (bootRuns s.boot (cur :: rs)).1 +
        (bootRuns s.boot (cur :: rs)).2.countP (·.any asksReboot) =
      asked ((anew cur s).rb ≠ 0) (cur :: (bootRuns (anew cur s).boot rs).1) +
        (bootRuns (anew cur s).boot rs).2.countP (·.any asksReboot) := by
  unfold anew
  rw [bootRuns]
  by_cases h : cur.boot.isSome ∧ cur.boot ≠ s.boot
  · rw [if_pos h, if_pos h]
    refine ⟨by simp [kernels], ?_⟩
    rw [List.countP_cons, Nat.add_comm (List.countP _ _)]
    simp [asked]
  · rw [if_neg h, if_neg h]
    exact ⟨rfl, rfl⟩

@[simp] theorem saidAfter_boot (cur : Snap) (s : Said) : (saidAfter cur s).boot = s.boot := rfl

theorem saidRun (reps : List Snap) (t : Track) {s : Said} (hs : t.said = some s) :
    texts .kernelNew (Runs.run track t reps).log = texts .kernelNew t.log ++
        (kernels s.kn (bootRuns s.boot (news (t.snap.map Snap.ts) reps)).1 ++
          (bootRuns s.boot (news (t.snap.map Snap.ts) reps)).2.flatMap (kernels "")) ∧
      (texts .rebootReq (Runs.run track t reps).log).length = (texts .rebootReq t.log).length +
        (asked (s.rb ≠ 0) (bootRuns s.boot (news (t.snap.map Snap.ts) reps)).1 +
          (bootRuns s.boot (news (t.snap.map Snap.ts) reps)).2.countP (·.any asksReboot)) := by
  induction reps generalizing t s with
  | nil => simp [news, bootRuns, kernels, asked]
  | cons r rs ih =>
    rw [Runs.run_cons, news]
    by_cases h : t.snap.map Snap.ts = some r.ts
    · rw [track_seen h, if_pos h]
      exact ih t hs
    · rw [if_neg h]
      obtain ⟨hnext, hkernels, hasks⟩ := track_said h hs
      obtain ⟨ihk, iha⟩ := ih (track t r) hnext
      rw [track_ts, saidAfter_boot] at ihk iha
      obtain ⟨hk, ha⟩ := bootRuns_anew r s (news (some r.ts) rs)
      rw [hk, ha, kernels_cons, asked_cons, ihk, iha, hkernels, hasks]
      refine ⟨?_, ?_⟩
      · simp only [List.append_assoc]
      · omega

/-- Whatever the reports after the first one, taken by the reboots between them: that a reboot
is needed is said once for each time between two reboots with a report that asks for it, and
not up to the first reboot where the first report asked; of the kernels those are said that
differ from the last one said since the reboot, or up to the first reboot from what the first
report had. -/
theorem once_a_boot (first : Snap) (reps : List Snap) :
    texts .kernelNew (Runs.run track .empty (first :: reps)).log =
        kernels first.kn (bootRuns first.boot (news (some first.ts) reps)).1 ++
          (bootRuns first.boot (news (some first.ts) reps)).2.flatMap (kernels "") ∧
      (texts .rebootReq (Runs.run track .empty (first :: reps)).log).length =
        asked (first.rbTs ≠ 0) (bootRuns first.boot (news (some first.ts) reps)).1 +
          (bootRuns first.boot (news (some first.ts) reps)).2.countP (·.any asksReboot) := by
  have hstart : track .empty first = ⟨some first, .empty, []⟩ := rfl
  rw [Runs.run_cons, hstart]
  obtain ⟨hkernels, hasks⟩ := @saidRun reps ⟨some first, .empty, []⟩
    ⟨first.boot, first.kn, first.rbTs⟩ rfl
  refine ⟨hkernels, hasks.trans ?_⟩
  exact Nat.zero_add _

end Kervax.Timeline
