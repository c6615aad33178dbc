-- The groups of monitors over the ticks: every failure that was announced is
-- reported back once, and nothing is reported back while it still fails.
import Mathlib.Data.List.Flatten
import Kervax.SiteGroupsLaws
import Kervax.Runs

namespace Kervax

open Grouping Runs

/-! ## The monitors and the ledger -/

/-- Where a monitor stands: it is up, it fails and nothing was announced yet, its
failure was announced under a kind, it fails in another way since, or it rose and the
recovery of this kind has not gone out. -/
inductive Phase
  | up | failing
  | told (kind : String)
  | worse (kind : String)
  | risen (kind : String)
deriving DecidableEq, Repr

/-- What a monitor can do between two batches. The recovery that has not gone out is
dropped when the monitor fails again. -/
def Phase.canMove : Phase → Phase → Bool
  | .up, .failing | .failing, .up | .risen _, .failing => true
  | .told k, .worse k' | .told k, .risen k' | .worse k, .told k' | .worse k, .risen k' => k = k'
  | _, _ => false

/-- The kind under which a failure was announced that is not reported back. -/
def Phase.kind : Phase → Option String
  | .told k | .worse k | .risen k => some k
  | _ => none

/-- A failure of the monitor is not announced yet. -/
def Phase.fails : Phase → Bool
  | .failing | .worse _ => true
  | _ => false

/-- A failure of the monitor stands announced, and it did not rise. -/
def Phase.stands : Phase → Bool
  | .told _ | .worse _ => true
  | _ => false

/-- A failure or the recovery of the monitor has not gone out. -/
def Phase.unsent : Phase → Bool
  | .failing | .worse _ | .risen _ => true
  | _ => false

/-- The kinds of the failures that are grouped, as the history has them. -/
def placeKinds : List String := ["down", "flaky"]

def SiteText.fails (t : SiteText) : Bool := !t.msg.recovery && t.msg.kind ∈ placeKinds

def SiteText.recovers (t : SiteText) : Bool := t.msg.recovery && t.msg.kind ∈ placeKinds

def PlaceLvl.kind : PlaceLvl → String
  | .flaky => "flaky"
  | .down | .slow => "down"

/-- One batch: what the monitors did before it, its texts, what is read, and
whether all of it went out. -/
structure PlaceTick where
  now : Time
  moves : List (Nat × Phase) := []
  texts : List SiteText
  db : PlaceDb
  delivered : Bool

/-- The groups that are saved, the monitors, and the ledger: `owed` says that a
failure of the monitor was announced and not reported back yet. -/
structure PlaceState where
  groups : List SiteGroup := []
  next : Nat := 0
  phase : Nat → Phase := fun _ => .up
  owed : Nat → Bool := fun _ => false

variable (w : GroupWords)

/-- The monitors as the batch finds them. -/
def PlaceState.moved (s : PlaceState) (i : PlaceTick) (c : Nat) : Phase :=
  (i.moves.lookup c).getD (s.phase c)

def PlaceState.grouped (s : PlaceState) (i : PlaceTick) : Grouped :=
  siteGroups w s.groups s.next i.texts i.db i.now

/-- The monitors whose failures the batch announces: with a text, in the message
of a group, or as a line of one that was sent. -/
def Grouped.announced (r : Grouped) : List Nat :=
  (r.out.filter fun m => !m.1.recovery && m.1.kind ∈ placeKinds).flatMap Prod.snd ++
    r.quiet.flatMap Msg.checks

/-- The monitors that the batch reports back. -/
def Grouped.reported (r : Grouped) : List Nat :=
  (r.out.filter fun m => m.1.recovery && m.1.kind ∈ placeKinds).flatMap Prod.snd

/-- The monitors of the texts that the test picks. -/
def textChecks (test : SiteText → Bool) (texts : List SiteText) : List Nat :=
  (texts.filter test).flatMap fun t => t.msg.checks

/-- The kind under which a text of the batch announces the monitor. -/
def toldKind (texts : List SiteText) (c : Nat) : Option String :=
  (texts.find? fun t => t.fails && c ∈ t.msg.checks).map fun t => t.msg.kind

/-- What the commit of the batch makes of a monitor: its failure is marked, and
its recovery is not offered again. -/
def markPhase (texts : List SiteText) (phase : Nat → Phase) (c : Nat) : Phase :=
  match toldKind texts c with
  | some k => .told k
  | none => if c ∈ textChecks SiteText.recovers texts then .up else phase c

def PlaceState.step (s : PlaceState) (i : PlaceTick) : PlaceState :=
  let r := s.grouped w i
  if i.delivered then
    { groups := r.groups
      next := r.next
      phase := markPhase i.texts (s.moved i)
      owed := fun c => (s.owed c || c ∈ r.announced) && c ∉ r.reported }
  else { s with phase := s.moved i }

/-! ## Runs that the monitors can take -/

/-- The batch says what the monitors did: a failure comes only of a monitor that has
one to announce, and a recovery only of one that rose. The row of a monitor whose
failure stands announced says so. -/
structure Coherent (s : PlaceState) (i : PlaceTick) : Prop where
  moves : ∀ e ∈ i.moves, (s.phase e.1).canMove e.2 = true
  failing : ∀ c ∈ textChecks SiteText.fails i.texts, c ∈ i.db.fails
  fails : ∀ c ∈ i.db.fails, (s.moved i c).fails = true
  risen : ∀ t ∈ i.texts, t.recovers = true → ∀ c ∈ t.msg.checks, s.moved i c = .risen t.msg.kind
  recs : ∀ c ∈ i.db.recs, c ∈ textChecks SiteText.recovers i.texts
  src : ∀ t ∈ i.texts, ∀ src ∈ t.src, t.fails = true ∧ t.msg.kind = src.lvl.kind ∧
    t.msg.checks = t.members.map Prod.fst
  rows : ∀ g ∈ s.groups, ∀ c ∈ g.ids, (s.moved i c).stands = true → rowOk (i.db.row c) = false

/-- The group that the failure of a text joins. -/
def SiteText.joins (t : SiteText) (groups : List SiteGroup) (now : Time) : Option SiteGroup :=
  t.src.bind fun src => openFor groups src.key src.lvl now

/-- The monitors of the group wait for its recovery: it was announced, or a failure of
the batch joins it. -/
def SiteGroup.waits (g : SiteGroup) (s : PlaceState) (i : PlaceTick) : Prop :=
  g.solo = false ∨ ∃ t ∈ i.texts, t.joins s.groups i.now = some g

/-- The monitor is in an announced group. -/
def PlaceState.inGroup (s : PlaceState) (c : Nat) : Prop :=
  ∃ g ∈ s.groups, g.solo = false ∧ c ∈ g.ids

/-- A recovery that has not gone out is not dropped, unless the monitor waits in a
group. -/
def KeepsRecoveries (s : PlaceState) (i : PlaceTick) : Prop :=
  ∀ c k, s.phase c = .risen k → s.moved i c = .failing → s.inGroup c

instance (g : SiteGroup) (s : PlaceState) (i : PlaceTick) : Decidable (g.waits s i) :=
  inferInstanceAs (Decidable (_ ∨ _))

/-- The batch keeps the groups apart.
- A monitor has one alert at most.
- A recovery is about monitors that all wait in groups, or of which none does.
- The failure of a monitor that waits in a group joins this group.
- A monitor that waits in a group, whose row is well and that has no alert in the
  batch, has none to go out.
- When a failure joins the group of a single message, the failures of its monitors
  stand announced under its kind, and they wait in no other group. -/
structure Apart (s : PlaceState) (i : PlaceTick) : Prop where
  nodup : (textChecks (fun t => t.fails || t.recovers) i.texts).Nodup
  mixed : ∀ t ∈ i.texts, t.recovers = true →
    (∀ c ∈ t.msg.checks, ∃ g ∈ s.groups, c ∈ g.ids ∧ g.waits s i) ∨
      ∀ c ∈ t.msg.checks, ∀ g ∈ s.groups, c ∈ g.ids → ¬ g.waits s i
  home : ∀ t ∈ i.texts, t.fails = true → ∀ c ∈ t.msg.checks, ∀ g ∈ s.groups, c ∈ g.ids →
    g.waits s i → t.joins s.groups i.now = some g
  seen : ∀ g ∈ s.groups, g.waits s i → ∀ c ∈ g.ids, c ∉ i.db.fails → c ∉ i.db.recs →
    rowOk (i.db.row c) = true → (s.moved i c).unsent = false
  single : ∀ g ∈ s.groups, g.solo = true → g.waits s i → ∀ c ∈ g.ids,
    ((s.moved i c).kind = some g.kind ∨ c ∈ textChecks SiteText.fails i.texts) ∧
      ∀ g' ∈ s.groups, c ∈ g'.ids → g'.waits s i → g' = g

/-- What a batch that went out reports back: monitors that were announced, each
once, and none that fails. No recovery is lost: its monitors are reported or wait in
a group, and a group of which all monitors are well is reported whole. -/
structure ReportsOnce (s : PlaceState) (i : PlaceTick) : Prop where
  once : (s.grouped w i).reported.Nodup
  owed : ∀ c ∈ (s.grouped w i).reported, s.owed c = true
  well : ∀ c ∈ (s.grouped w i).reported, s.moved i c = .up ∨ ∃ k, s.moved i c = .risen k
  kept : ∀ c ∈ textChecks SiteText.recovers i.texts, c ∈ (s.grouped w i).reported ∨
    (s.step w i).inGroup c
  whole : ∀ g ∈ s.groups, g.solo = false → (∀ t ∈ i.texts, t.joins s.groups i.now ≠ some g) →
    (∀ c ∈ g.ids, isOk i.db.fails i.db.recs i.db.row c = true) →
    ∀ c ∈ g.ids, c ∈ (s.grouped w i).reported

/-- Every failure that was announced and not reported back stands: it is open at the
monitor, or the monitor waits in a group. -/
def Accounted (s : PlaceState) : Prop :=
  ∀ c, s.owed c = true → (s.phase c).kind ≠ none ∨ s.inGroup c

/-! ## What one batch tells -/

/-- What holds of the saved groups: a monitor waits in one of them at most, and the
ledger agrees with them. -/
structure PlaceState.Sound (s : PlaceState) : Prop where
  ids : (s.groups.map SiteGroup.id).Nodup
  below : ∀ g ∈ s.groups, g.id < s.next
  nodup : ∀ g ∈ s.groups, g.ids.Nodup
  sort : ∀ g ∈ s.groups, g.kind = g.lvl.kind
  one : ∀ g ∈ s.groups, ∀ g' ∈ s.groups, g.solo = false → g'.solo = false →
    ∀ c, c ∈ g.ids → c ∈ g'.ids → g = g'
  kinds : ∀ g ∈ s.groups, g.solo = false → ∀ c ∈ g.ids, ∀ k, (s.phase c).kind = some k →
    k = g.kind
  waiting : ∀ g ∈ s.groups, g.solo = false → ∀ c ∈ g.ids, s.owed c = true
  announced : ∀ c, (s.phase c).kind ≠ none → s.owed c = true
  accounted : Accounted s

section batch

variable {s : PlaceState} {i : PlaceTick}

/-- The groups after the failures of the batch were placed. -/
def PlaceState.placed (s : PlaceState) (i : PlaceTick) : Placing :=
  (byPlace i.texts).foldl (placeOne w i.now) { groups := s.groups, next := s.next }

/-- One group after the batch. -/
def PlaceState.settle (i : PlaceTick) (g : SiteGroup) : Option SiteGroup × Option (Msg × List Nat) :=
  settleGroup w (isOk i.db.fails i.db.recs i.db.row) i.now g

theorem placed_right (hs : s.Sound) :
    (s.placed w i).Right s.groups s.next i.now (byPlace i.texts) :=
  place_right w (nodup_groupsBy _ _) (fun _ hp => byPlace_ne_nil hp) hs.ids hs.below

theorem settle_spec (i : PlaceTick) (g : SiteGroup) :
    GroupSettled (isOk i.db.fails i.db.recs i.db.row) g (PlaceState.settle w i g) :=
  settleGroup_spec w _ i.now g

theorem place_text (hc : Coherent s i) {p : PlaceBatch} (hp : p ∈ byPlace i.texts)
    {e : SiteText × Nat} (he : e ∈ p.2) :
    e.1 ∈ i.texts ∧ e.1.fails = true ∧ e.1.msg.kind = p.1.2.kind ∧
      e.1.msg.checks = e.1.members.map Prod.fst ∧
      e.1.joins s.groups i.now = openFor s.groups p.1.1 p.1.2 i.now := by
  obtain ⟨ht, src, hsrc, hk⟩ := (mem_byPlace hp e).1 he
  have hin := List.mem_of_getElem? ht
  obtain ⟨h1, h2, h3⟩ := hc.src e.1 hin src hsrc
  refine ⟨hin, h1, ?_, h3, ?_⟩
  · rw [h2, ← hk]
  · rw [SiteText.joins, Option.mem_def.1 hsrc, Option.bind_some, ← hk]

theorem mem_placeIds (hc : Coherent s i) {p : PlaceBatch} (hp : p ∈ byPlace i.texts) (c : Nat) :
    c ∈ placeIds p ↔ ∃ e ∈ p.2, c ∈ e.1.msg.checks := by
  unfold placeIds
  rw [List.map_flatMap, List.mem_flatMap]
  constructor
  · rintro ⟨e, he, hin⟩
    exact ⟨e, he, (place_text hc hp he).2.2.2.1 ▸ hin⟩
  · rintro ⟨e, he, hin⟩
    exact ⟨e, he, (place_text hc hp he).2.2.2.1 ▸ hin⟩

theorem mem_textChecks {test : SiteText → Bool} {texts : List SiteText} {c : Nat} :
    c ∈ textChecks test texts ↔ ∃ t ∈ texts, test t = true ∧ c ∈ t.msg.checks := by
  simp [textChecks, List.mem_flatMap, and_assoc]

theorem placeIds_fail (hc : Coherent s i) {p : PlaceBatch} (hp : p ∈ byPlace i.texts) {c : Nat}
    (h : c ∈ placeIds p) : c ∈ textChecks SiteText.fails i.texts := by
  obtain ⟨e, he, hin⟩ := (mem_placeIds hc hp c).1 h
  obtain ⟨h1, h2, -⟩ := place_text hc hp he
  exact mem_textChecks.2 ⟨e.1, h1, h2, hin⟩

theorem lookup_mem_swap {α : Type} {l : List (Nat × α)} {k : Nat} {a : α}
    (h : l.lookup k = some a) : (k, a) ∈ l := by
  induction l with
  | nil => cases h
  | cons x l ih =>
    obtain ⟨k', b⟩ := x
    rw [lookup_cons_if] at h
    split at h
    · rename_i he
      cases h
      rw [he]
      exact List.mem_cons_self
    · exact List.mem_cons_of_mem _ (ih h)

theorem lookup_isSome_of_mem {α : Type} {l : List (Nat × α)} {k : Nat} {a : α} (h : (k, a) ∈ l) :
    ∃ b, l.lookup k = some b := by
  induction l with
  | nil => cases h
  | cons x l ih =>
    obtain ⟨k', b⟩ := x
    rw [lookup_cons_if]
    split
    · exact ⟨b, rfl⟩
    · rename_i hne
      rcases List.mem_cons.1 h with h | h
      · cases h
        exact absurd rfl hne
      · exact ih h

theorem grouped_out : (s.grouped w i).out =
    (i.texts.zipIdx.filterMap fun (t, j) =>
      if j ∈ (s.placed w i).drop then none
      else if silenced (s.placed w i).groups t.msg then none
      else
        let m := ((s.placed w i).swap.lookup j).getD t.msg
        some (m, m.checks)) ++
      ((s.placed w i).groups.map (PlaceState.settle w i)).filterMap Prod.snd := rfl

/-- The messages of the batch: texts that are neither dropped nor silent, the first
text of a place exchanged for the message of its group, and the recoveries of the
groups. -/
theorem mem_out {x : Msg × List Nat} : x ∈ (s.grouped w i).out ↔
    (∃ t j, i.texts[j]? = some t ∧ j ∉ (s.placed w i).drop ∧
      silenced (s.placed w i).groups t.msg = false ∧
      x = (((s.placed w i).swap.lookup j).getD t.msg,
        (((s.placed w i).swap.lookup j).getD t.msg).checks)) ∨
    ∃ g ∈ (s.placed w i).groups, (PlaceState.settle w i g).2 = some x := by
  rw [grouped_out, List.mem_append]
  refine or_congr ?_ ?_
  · rw [List.mem_filterMap]
    constructor
    · rintro ⟨⟨t, j⟩, ht, hx⟩
      dsimp only at hx
      split at hx
      · cases hx
      · rename_i hd
        split at hx
        · cases hx
        · rename_i hsil
          cases hx
          exact ⟨t, j, List.mk_mem_zipIdx_iff_getElem?.1 ht, hd, by simpa using hsil, rfl⟩
    · rintro ⟨t, j, ht, hd, hsil, rfl⟩
      refine ⟨(t, j), List.mk_mem_zipIdx_iff_getElem?.2 ht, ?_⟩
      dsimp only
      rw [if_neg hd, hsil]
      rfl
  · rw [List.mem_filterMap]
    constructor
    · rintro ⟨r, hr, hx⟩
      obtain ⟨g, hg, rfl⟩ := List.mem_map.1 hr
      exact ⟨g, hg, hx⟩
    · rintro ⟨g, hg, hx⟩
      exact ⟨_, List.mem_map.2 ⟨g, hg, rfl⟩, hx⟩

theorem kind_mem (lvl : PlaceLvl) : lvl.kind ∈ placeKinds := by cases lvl <;> decide

theorem fails_iff {t : SiteText} :
    t.fails = true ↔ t.msg.recovery = false ∧ t.msg.kind ∈ placeKinds := by
  simp [SiteText.fails]

theorem recovers_iff {t : SiteText} :
    t.recovers = true ↔ t.msg.recovery = true ∧ t.msg.kind ∈ placeKinds := by
  simp [SiteText.recovers]

/-- A message that stands for the first text of a place is about all its failures. -/
theorem swap_spec (hs : s.Sound) (hc : Coherent s i) {j : Nat} {m : Msg}
    (h : (s.placed w i).swap.lookup j = some m) :
    m.recovery = false ∧ m.kind ∈ placeKinds ∧ (∃ t, i.texts[j]? = some t ∧ t.fails = true) ∧
      ∀ c ∈ m.checks, c ∈ textChecks SiteText.fails i.texts := by
  obtain ⟨p, hp, -, -, hhead, hrec, hids, e, he, hkind⟩ :=
    (placed_right w hs).swap j m (lookup_mem_swap h)
  refine ⟨hrec, ?_, ?_, fun c hcm => placeIds_fail hc hp ((hids c).1 hcm)⟩
  · rw [hkind, (place_text hc hp he).2.2.1]
    exact kind_mem _
  · have hj : j ∈ p.2.map Prod.snd := List.mem_of_mem_head? (Option.mem_def.2 hhead)
    obtain ⟨e', he', rfl⟩ := List.mem_map.1 hj
    exact ⟨e'.1, ((mem_byPlace hp e').1 he').1, (place_text hc hp he').2.1⟩

/-- A failure that is not dropped goes out: with its own text or in the message of
its group. -/
theorem announced_of_kept (hs : s.Sound) (hc : Coherent s i) {t : SiteText} {j : Nat}
    (ht : i.texts[j]? = some t) (hf : t.fails = true) (hd : j ∉ (s.placed w i).drop) {c : Nat}
    (hin : c ∈ (((s.placed w i).swap.lookup j).getD t.msg).checks) :
    c ∈ (s.grouped w i).announced := by
  obtain ⟨hrec, hkind⟩ := fails_iff.1 hf
  refine List.mem_append_left _ (List.mem_flatMap.2
    ⟨(((s.placed w i).swap.lookup j).getD t.msg, _), List.mem_filter.2 ⟨?_, ?_⟩, hin⟩)
  · exact (mem_out w).2 (.inl ⟨t, j, ht, hd, by simp [silenced, hrec], rfl⟩)
  · cases hl : (s.placed w i).swap.lookup j with
    | none => simp [hrec, hkind]
    | some m =>
      obtain ⟨h1, h2, -⟩ := swap_spec w hs hc hl
      simp [h1, h2]

/-- Only the monitors of failures are announced. -/
theorem text_of_announced (hs : s.Sound) (hc : Coherent s i) {c : Nat}
    (h : c ∈ (s.grouped w i).announced) : c ∈ textChecks SiteText.fails i.texts := by
  rcases List.mem_append.1 h with h | h
  · obtain ⟨x, hx, hcx⟩ := List.mem_flatMap.1 h
    obtain ⟨hx, hkind⟩ := List.mem_filter.1 hx
    rcases (mem_out w).1 hx with ⟨t, j, ht, -, -, rfl⟩ | ⟨g, hg, hg'⟩
    · cases hl : (s.placed w i).swap.lookup j with
      | none =>
        rw [hl] at hcx hkind
        simp only [Option.getD_none, Bool.and_eq_true, Bool.not_eq_true', decide_eq_true_eq]
          at hcx hkind
        exact mem_textChecks.2 ⟨t, List.mem_of_getElem? ht, fails_iff.2 hkind, hcx⟩
      | some m =>
        rw [hl] at hcx
        exact (swap_spec w hs hc hl).2.2.2 c hcx
    · have := ((settle_spec w i g).back x.1 x.2 hg').2.1
      simp [this] at hkind
  · obtain ⟨m, hm, hcm⟩ := List.mem_flatMap.1 h
    obtain ⟨p, hp, -, e, he, rfl⟩ := ((placed_right w hs (i := i)).quiet m).1 hm
    obtain ⟨h1, h2, -⟩ := place_text hc hp he
    exact mem_textChecks.2 ⟨e.1, h1, h2, hcm⟩

/-- A text that is neither dropped nor exchanged announces its monitors. -/
theorem announced_of_own (hs : s.Sound) (hc : Coherent s i) {t : SiteText} {j : Nat}
    (ht : i.texts[j]? = some t) (hf : t.fails = true) (hd : j ∉ (s.placed w i).drop)
    (hswap : ∀ m, (s.placed w i).swap.lookup j ≠ some m) {c : Nat} (hct : c ∈ t.msg.checks) :
    c ∈ (s.grouped w i).announced := by
  refine announced_of_kept w hs hc ht hf hd ?_
  cases hl : (s.placed w i).swap.lookup j with
  | none => exact hct
  | some m => exact absurd hl (hswap m)

/-- A text without a place goes out as it is. -/
theorem announced_unplaced (hs : s.Sound) (hc : Coherent s i) {t : SiteText} {j : Nat}
    (ht : i.texts[j]? = some t) (hf : t.fails = true) (hsrc : t.src = none) {c : Nat}
    (hct : c ∈ t.msg.checks) : c ∈ (s.grouped w i).announced := by
  have hr := placed_right w hs (i := i)
  have hfree : ∀ p ∈ byPlace i.texts, ∀ e ∈ p.2, e.2 ≠ j := by
    rintro p hp e he rfl
    obtain ⟨he', src, hsrc', -⟩ := (mem_byPlace hp e).1 he
    rw [ht, Option.some.injEq] at he'
    rw [← he', hsrc] at hsrc'
    cases hsrc'
  refine announced_of_own w hs hc ht hf (fun hd => ?_) (fun m hl => ?_) hct
  · obtain ⟨p, hp, e, he, hej, -⟩ := hr.drop j hd
    exact hfree p hp e he hej
  · obtain ⟨p, hp, -, -, hhead, -⟩ := hr.swap j m (lookup_mem_swap hl)
    obtain ⟨e, he, hej⟩ := List.mem_map.1 (List.mem_of_mem_head? (Option.mem_def.2 hhead))
    exact hfree p hp e he hej

/-- The only failure of a place without an open group goes out as it is. -/
theorem announced_single (hs : s.Sound) (hc : Coherent s i) {p : PlaceBatch}
    (hp : p ∈ byPlace i.texts) (ho : openFor s.groups p.1.1 p.1.2 i.now = none)
    (h1 : ¬ 1 < p.2.length) {t : SiteText} {j : Nat} (hep : (t, j) ∈ p.2) (hf : t.fails = true)
    {c : Nat} (hct : c ∈ t.msg.checks) : c ∈ (s.grouped w i).announced := by
  have hr := placed_right w hs (i := i)
  have hj : i.texts[j]? = some t := ((mem_byPlace hp (t, j)).1 hep).1
  refine announced_of_own w hs hc hj hf (fun hd => ?_) (fun m hl => ?_) hct
  · obtain ⟨q, hq, e, he, hej, hdrop⟩ := hr.drop j hd
    obtain rfl := place_of_index hp hq hep he hej
    rcases hdrop with ⟨g, hg⟩ | ⟨-, hlen, -⟩
    · rw [ho] at hg
      cases hg
    · exact h1 hlen
  · obtain ⟨q, hq, -, hlen, hhead, -⟩ := hr.swap j m (lookup_mem_swap hl)
    obtain ⟨e, he, hej⟩ := List.mem_map.1 (List.mem_of_mem_head? (Option.mem_def.2 hhead))
    obtain rfl := place_of_index hp hq hep he hej
    exact h1 hlen

/-- The failures of a place without an open group go out in the message of their group, which
stands at the first index of the place. -/
theorem announced_folded (hs : s.Sound) (hc : Coherent s i) {p : PlaceBatch}
    (hp : p ∈ byPlace i.texts) (ho : openFor s.groups p.1.1 p.1.2 i.now = none)
    (h1 : 1 < p.2.length) {c : Nat} (hids : c ∈ placeIds p) : c ∈ (s.grouped w i).announced := by
  have hr := placed_right w hs (i := i)
  obtain ⟨e₀, es, hp2⟩ := List.exists_cons_of_ne_nil (byPlace_ne_nil hp)
  have he₀ : e₀ ∈ p.2 := by
    rw [hp2]
    exact List.mem_cons_self
  obtain ⟨m, hm⟩ := hr.swapped p hp ho h1 e₀.2 (by rw [hp2]; rfl)
  obtain ⟨m', hm'⟩ := lookup_isSome_of_mem hm
  have hd : e₀.2 ∉ (s.placed w i).drop := by
    intro hd
    obtain ⟨q, hq, e, he, hej, hdrop⟩ := hr.drop _ hd
    obtain rfl := place_of_index hp hq he₀ he hej
    rcases hdrop with ⟨g, hg⟩ | ⟨-, -, htail⟩
    · rw [ho] at hg
      cases hg
    · have hnodup := place_indices_nodup hp
      rw [hp2] at hnodup htail
      exact (List.nodup_cons.1 hnodup).1 htail
  refine announced_of_kept w hs hc ((mem_byPlace hp e₀).1 he₀).1 (place_text hc hp he₀).2.1 hd ?_
  rw [hm', Option.getD_some]
  obtain ⟨q, hq, -, -, hhead, -, hmem, -⟩ := hr.swap _ m' (lookup_mem_swap hm')
  obtain ⟨e, he, hej⟩ := List.mem_map.1 (List.mem_of_mem_head? (Option.mem_def.2 hhead))
  obtain rfl := place_of_index hp hq he₀ he hej
  exact (hmem c).2 hids

/-- A batch that went out announces the monitors of its failures. -/
theorem mem_announced (hs : s.Sound) (hc : Coherent s i) (c : Nat) :
    c ∈ (s.grouped w i).announced ↔ c ∈ textChecks SiteText.fails i.texts := by
  refine ⟨text_of_announced w hs hc, fun h => ?_⟩
  obtain ⟨t, ht, hf, hct⟩ := mem_textChecks.1 h
  obtain ⟨j, hj⟩ := List.getElem?_of_mem ht
  cases hsrc : t.src with
  | none => exact announced_unplaced w hs hc hj hf hsrc hct
  | some src =>
    obtain ⟨p, hp, hep, hpk⟩ := exists_place hj hsrc
    cases ho : openFor s.groups p.1.1 p.1.2 i.now with
    | some g =>
      refine List.mem_append_right _ (List.mem_flatMap.2 ⟨t.msg, ?_, hct⟩)
      exact ((placed_right w hs (i := i)).quiet t.msg).2 ⟨p, hp, ⟨g, ho⟩, (t, j), hep, rfl⟩
    | none =>
      by_cases h1 : 1 < p.2.length
      · exact announced_folded w hs hc hp ho h1 ((mem_placeIds hc hp c).2 ⟨(t, j), hep, hct⟩)
      · exact announced_single w hs hc hp ho h1 hep hf hct

/-! ## The groups after the failures were placed -/

/-- The group holds the failures of the place: it is the open one that they joined, or
the one that they opened. -/
def PlaceState.Holds (s : PlaceState) (i : PlaceTick) (p : PlaceBatch) (g : SiteGroup) : Prop :=
  match openFor s.groups p.1.1 p.1.2 i.now with
  | some old => g.id = old.id
  | none => s.next ≤ g.id ∧ (g.key, g.lvl) = p.1

theorem holds_inj (hs : s.Sound) {p : PlaceBatch} {g g' : SiteGroup}
    (hg : g ∈ (s.placed w i).groups) (hg' : g' ∈ (s.placed w i).groups)
    (h : s.Holds i p g) (h' : s.Holds i p g') : g = g' := by
  have hr := placed_right w hs (i := i)
  unfold PlaceState.Holds at h h'
  split at h
  · rename_i ho
    rw [ho] at h'
    exact eq_of_id hr.ids hg hg' (h.trans h'.symm)
  · rename_i ho
    rw [ho] at h'
    exact hr.once g hg g' hg' h.1 h'.1 (h.2.trans h'.2.symm)

/-- A monitor of a group was in the saved group, or its failure was placed there. -/
theorem placed_member (hs : s.Sound) (hc : Coherent s i) {g₁ : SiteGroup}
    (hg₁ : g₁ ∈ (s.placed w i).groups) {c : Nat} (hin : c ∈ g₁.ids) :
    (∃ g ∈ s.groups, g.id = g₁.id ∧ g.lvl = g₁.lvl ∧ g.kind = g₁.kind ∧ c ∈ g.ids ∧
      (g₁.solo = false → g.waits s i)) ∨
    ∃ p ∈ byPlace i.texts, c ∈ placeIds p ∧ s.Holds i p g₁ ∧ g₁.lvl = p.1.2 := by
  have hopened : ∀ {p : PlaceBatch} (n : Nat), p ∈ byPlace i.texts → s.next ≤ n →
      openFor s.groups p.1.1 p.1.2 i.now = none → c ∈ placeIds p →
      ∀ g : SiteGroup, g.id = n → g.key = p.1.1 → g.lvl = p.1.2 →
      ∃ p ∈ byPlace i.texts, c ∈ placeIds p ∧ s.Holds i p g ∧ g.lvl = p.1.2 := by
    intro p n hp hn ho hcp g hid hkey hlvl
    refine ⟨p, hp, hcp, ?_, hlvl⟩
    unfold PlaceState.Holds
    rw [ho, hkey, hlvl, hid]
    exact ⟨hn, rfl⟩
  cases (placed_right w hs).origin g₁ hg₁ with
  | old hg hno => exact .inl ⟨g₁, hg, rfl, rfl, rfl, hin, fun h => .inl h⟩
  | joined hg hp ho =>
    rename_i g p
    rcases (mem_grown g p i.now c).1 hin with hcg | hcp
    · refine .inl ⟨g, hg, rfl, rfl, rfl, hcg, fun _ => .inr ?_⟩
      obtain ⟨e, es, hp2⟩ := List.exists_cons_of_ne_nil (byPlace_ne_nil hp)
      have he : e ∈ p.2 := by rw [hp2]; exact List.mem_cons_self
      obtain ⟨ht, -, -, -, hj⟩ := place_text hc hp he
      exact ⟨e.1, ht, hj.trans ho⟩
    · refine .inr ⟨p, hp, hcp, ?_, (openFor_some ho).2.2⟩
      unfold PlaceState.Holds
      rw [ho]
      rfl
  | single n hn hp ho h1 =>
    obtain ⟨hid, hkey, hlvl, -⟩ := newGroup_fields n _ i.now
    exact .inr (hopened n hp hn ho ((mem_newGrown n _ i.now c).1 hin) _ hid hkey hlvl)
  | many n hn hp ho h1 =>
    obtain ⟨hid, hkey, hlvl, -⟩ := newGroup_fields n _ i.now
    exact .inr (hopened n hp hn ho ((mem_newGrown n _ i.now c).1 hin) _ hid hkey hlvl)

theorem placed_sort (hs : s.Sound) (hc : Coherent s i) {g₁ : SiteGroup}
    (hg₁ : g₁ ∈ (s.placed w i).groups) : g₁.kind = g₁.lvl.kind := by
  have hopened : ∀ {p : PlaceBatch} (n : Nat), p ∈ byPlace i.texts →
      (newGroup n p i.now).kind = (newGroup n p i.now).lvl.kind := by
    intro p n hp
    obtain ⟨-, -, hlvl, hkind⟩ := newGroup_fields n p i.now
    obtain ⟨e, es, hp2⟩ := List.exists_cons_of_ne_nil (byPlace_ne_nil hp)
    rw [hlvl, hkind e es hp2]
    exact (place_text hc hp (by rw [hp2]; exact List.mem_cons_self)).2.2.1
  cases (placed_right w hs).origin g₁ hg₁ with
  | old hg hno => exact hs.sort g₁ hg
  | joined hg hp ho =>
    rename_i g p
    exact hs.sort g hg
  | single n hn hp ho h1 => exact hopened n hp
  | many n hn hp ho h1 => exact hopened n hp

theorem placed_nodup (hs : s.Sound) {g₁ : SiteGroup} (hg₁ : g₁ ∈ (s.placed w i).groups) :
    g₁.ids.Nodup := by
  have hnew : ∀ (n : Nat) (p : PlaceBatch), (newGroup n p i.now).ids.Nodup := by
    intro n p
    unfold newGroup
    split <;> exact List.nodup_nil
  cases (placed_right w hs).origin g₁ hg₁ with
  | old hg hno => exact hs.nodup g₁ hg
  | joined hg hp ho => exact nodup_withMembers (hs.nodup _ hg) _
  | single n hn hp ho h1 => exact nodup_withMembers (hnew n _) _
  | many n hn hp ho h1 => exact nodup_withMembers (hnew n _) _

/-- The alerts of the batch, with the indices of their texts. -/
theorem alerts_nodup (ha : Apart s i) :
    ((i.texts.zipIdx.filter fun e => e.1.fails || e.1.recovers).flatMap
      fun e => e.1.msg.checks).Nodup := by
  have : (i.texts.zipIdx.filter fun e => e.1.fails || e.1.recovers).map Prod.fst =
      i.texts.filter fun t => t.fails || t.recovers := by
    conv_rhs => rw [← List.zipIdx_map_fst 0 i.texts, List.filter_map]
    rfl
  have hn := ha.nodup
  rw [textChecks, ← this, List.flatMap_map] at hn
  exact hn

/-- The alert of a monitor is in one text. -/
theorem text_of_monitor (ha : Apart s i) {t t' : SiteText} {j j' : Nat}
    (ht : i.texts[j]? = some t) (ht' : i.texts[j']? = some t')
    (h : (t.fails || t.recovers) = true) (h' : (t'.fails || t'.recovers) = true) {c : Nat}
    (hin : c ∈ t.msg.checks) (hin' : c ∈ t'.msg.checks) : t = t' ∧ j = j' := by
  have hmem : ∀ {t : SiteText} {j : Nat}, i.texts[j]? = some t → (t.fails || t.recovers) = true →
      (t, j) ∈ i.texts.zipIdx.filter fun e => e.1.fails || e.1.recovers := fun ht h =>
    List.mem_filter.2 ⟨List.mk_mem_zipIdx_iff_getElem?.2 ht, h⟩
  have hsymm : Std.Symm (Function.onFun List.Disjoint fun e : SiteText × Nat => e.1.msg.checks) :=
    ⟨fun _ _ h => h.symm⟩
  by_contra hne
  have hdis := (List.nodup_flatMap.1 (alerts_nodup ha)).2.forall (hmem ht h) (hmem ht' h') fun he =>
    hne (Prod.mk.injEq .. ▸ he)
  exact hdis hin hin'

theorem place_of_monitor (hc : Coherent s i) (ha : Apart s i) {p q : PlaceBatch}
    (hp : p ∈ byPlace i.texts) (hq : q ∈ byPlace i.texts) {c : Nat} (hcp : c ∈ placeIds p)
    (hcq : c ∈ placeIds q) : p = q := by
  obtain ⟨e, he, hce⟩ := (mem_placeIds hc hp c).1 hcp
  obtain ⟨e', he', hce'⟩ := (mem_placeIds hc hq c).1 hcq
  have hf := (place_text hc hp he).2.1
  have hf' := (place_text hc hq he').2.1
  obtain ⟨-, hj⟩ := text_of_monitor ha ((mem_byPlace hp e).1 he).1 ((mem_byPlace hq e').1 he').1
    (by rw [hf]; rfl) (by rw [hf']; rfl) hce hce'
  exact (place_of_index hp hq he he' hj.symm).symm

/-- A monitor waits in one group at most. -/
theorem placed_one (hs : s.Sound) (hc : Coherent s i) (ha : Apart s i) {g₁ g₂ : SiteGroup}
    (hg₁ : g₁ ∈ (s.placed w i).groups) (hg₂ : g₂ ∈ (s.placed w i).groups)
    (h₁ : g₁.solo = false) (h₂ : g₂.solo = false) {c : Nat} (hc₁ : c ∈ g₁.ids)
    (hc₂ : c ∈ g₂.ids) : g₁ = g₂ := by
  -- the failure of a monitor that waits in a saved group is placed there
  have hhome : ∀ {g : SiteGroup} {p : PlaceBatch} {g₁ g₂ : SiteGroup}, g ∈ s.groups →
      c ∈ g.ids → g.waits s i → g.id = g₁.id → g₁ ∈ (s.placed w i).groups →
      g₂ ∈ (s.placed w i).groups → p ∈ byPlace i.texts → c ∈ placeIds p → s.Holds i p g₂ →
      g₁ = g₂ := by
    intro g p g₁ g₂ hg hcg hw hid hg₁ hg₂ hp hcp hat
    obtain ⟨e, he, hce⟩ := (mem_placeIds hc hp c).1 hcp
    obtain ⟨ht, hf, -, -, hj⟩ := place_text hc hp he
    have ho := hj.symm.trans (ha.home e.1 ht hf c hce g hg hcg hw)
    unfold PlaceState.Holds at hat
    rw [ho] at hat
    exact eq_of_id (placed_right w hs).ids hg₁ hg₂ (hid.symm.trans hat.symm)
  rcases placed_member w hs hc hg₁ hc₁ with ⟨g, hg, hid, -, -, hcg, hw⟩ | ⟨p, hp, hcp, hat, -⟩ <;>
    rcases placed_member w hs hc hg₂ hc₂ with ⟨g', hg', hid', -, -, hcg', hw'⟩ | ⟨q, hq, hcq, hat', -⟩
  · have hsame : g = g' := by
      cases hsolo : g.solo with
      | true => exact ((ha.single g hg hsolo (hw h₁) c hcg).2 g' hg' hcg' (hw' h₂)).symm
      | false =>
        cases hsolo' : g'.solo with
        | true => exact (ha.single g' hg' hsolo' (hw' h₂) c hcg').2 g hg hcg (hw h₁)
        | false => exact hs.one g hg g' hg' hsolo hsolo' c hcg hcg'
    exact eq_of_id (placed_right w hs).ids hg₁ hg₂ (by rw [← hid, ← hid', hsame])
  · exact hhome hg hcg (hw h₁) hid hg₁ hg₂ hq hcq hat'
  · exact (hhome hg' hcg' (hw' h₂) hid' hg₂ hg₁ hp hcp hat).symm
  · obtain rfl := place_of_monitor hc ha hp hq hcp hcq
    exact holds_inj w hs hg₁ hg₂ hat hat'

/-! ## What a batch reports -/

theorem moved_cases (hc : Coherent s i) (c : Nat) :
    s.moved i c = s.phase c ∨ (s.phase c).canMove (s.moved i c) = true := by
  unfold PlaceState.moved
  cases hl : i.moves.lookup c with
  | none => exact .inl rfl
  | some q => exact .inr (hc.moves (c, q) (lookup_mem_swap hl))

theorem moved_kind (hc : Coherent s i) {c : Nat} {k : String} (h : (s.moved i c).kind = some k) :
    (s.phase c).kind = some k := by
  rcases moved_cases hc c with he | hm
  · rwa [he] at h
  · cases hp : s.phase c <;> cases hq : s.moved i c <;>
      simp_all [Phase.canMove, Phase.kind]

/-- The kind stays, or a recovery that has not gone out is dropped. -/
theorem moved_keeps (hc : Coherent s i) {c : Nat} (h : (s.phase c).kind ≠ none) :
    (s.moved i c).kind ≠ none ∨ (∃ k, s.phase c = .risen k) ∧ s.moved i c = .failing := by
  rcases moved_cases hc c with he | hm
  · exact .inl (he ▸ h)
  · cases hp : s.phase c <;> cases hq : s.moved i c <;>
      simp_all [Phase.canMove, Phase.kind]

theorem fails_of_text (hc : Coherent s i) {c : Nat} (h : c ∈ textChecks SiteText.fails i.texts) :
    (s.moved i c).fails = true := hc.fails c (hc.failing c h)

theorem risen_of_text (hc : Coherent s i) {c : Nat}
    (h : c ∈ textChecks SiteText.recovers i.texts) : ∃ k, s.moved i c = .risen k := by
  obtain ⟨t, ht, hr, hin⟩ := mem_textChecks.1 h
  exact ⟨_, hc.risen t ht hr c hin⟩

theorem not_fails_of_risen (hc : Coherent s i) {c : Nat} {k : String}
    (h : s.moved i c = .risen k) : c ∉ i.db.fails := by
  intro hf
  have := hc.fails c hf
  rw [h] at this
  cases this

/-- A saved group that waits is announced once the failures were placed. -/
theorem waits_placed (hs : s.Sound) {g : SiteGroup} (hg : g ∈ s.groups) (hw : g.waits s i) :
    ∃ g₁ ∈ (s.placed w i).groups, g₁.id = g.id ∧ g₁.solo = false ∧ ∀ c ∈ g.ids, c ∈ g₁.ids := by
  obtain ⟨g₁, hg₁, hid, hsub, hsolo, hjoin⟩ := (placed_right w hs (i := i)).kept g hg
  refine ⟨g₁, hg₁, hid, ?_, hsub⟩
  rcases hw with hw | ⟨t, ht, hj⟩
  · exact hsolo hw
  · obtain ⟨src, hsrc, ho⟩ := Option.bind_eq_some_iff.1 hj
    obtain ⟨j, hj⟩ := List.getElem?_of_mem ht
    obtain ⟨p, hp, -, hk⟩ := exists_place hj hsrc
    exact hjoin ⟨p, hp, by rw [hk]; exact ho⟩

/-- A monitor of an announced group that has no failure in the batch waits in the
saved group. -/
theorem well_member (hs : s.Sound) (hc : Coherent s i) {g₁ : SiteGroup}
    (hg₁ : g₁ ∈ (s.placed w i).groups) (h₁ : g₁.solo = false) {c : Nat} (hin : c ∈ g₁.ids)
    (hf : c ∉ i.db.fails) :
    ∃ g ∈ s.groups, g.id = g₁.id ∧ g.kind = g₁.kind ∧ c ∈ g.ids ∧ g.waits s i := by
  rcases placed_member w hs hc hg₁ hin with ⟨g, hg, hid, -, hk, hcg, hw⟩ | ⟨p, hp, hcp, -⟩
  · exact ⟨g, hg, hid, hk, hcg, hw h₁⟩
  · exact absurd (hc.failing c (placeIds_fail hc hp hcp)) hf

/-- What is open at a monitor that waits in a group is of the kind of the group. -/
theorem open_kind (hs : s.Sound) (hc : Coherent s i) (ha : Apart s i) {g : SiteGroup}
    (hg : g ∈ s.groups) (hw : g.waits s i) {c : Nat} (hin : c ∈ g.ids) {k : String}
    (hk : (s.moved i c).kind = some k) (hf : c ∉ textChecks SiteText.fails i.texts) :
    k = g.kind := by
  cases hsolo : g.solo with
  | false => exact hs.kinds g hg hsolo c hin k (moved_kind hc hk)
  | true =>
    rcases (ha.single g hg hsolo hw c hin).1 with h | h
    · rw [hk, Option.some.injEq] at h
      exact h
    · exact absurd h hf

/-- A recovery is silent where its monitors wait in groups. -/
theorem silenced_iff (hs : s.Sound) (hc : Coherent s i) (ha : Apart s i) {t : SiteText}
    (ht : t ∈ i.texts) (hr : t.recovers = true) :
    silenced (s.placed w i).groups t.msg = true ↔ t.msg.checks ≠ [] ∧
      ∀ c ∈ t.msg.checks, ∃ g ∈ s.groups, c ∈ g.ids ∧ g.waits s i := by
  have hnf : ∀ c ∈ t.msg.checks, c ∉ i.db.fails := fun c hin =>
    not_fails_of_risen hc (hc.risen t ht hr c hin)
  have hany : ∀ c ∈ t.msg.checks,
      ((memberOf (s.placed w i).groups c).any (·.kind = t.msg.kind) = true ↔
        ∃ g ∈ s.groups, c ∈ g.ids ∧ g.waits s i) := by
    intro c hin
    simp only [List.any_eq_true, memberOf, List.mem_filter, Bool.and_eq_true, Bool.not_eq_true',
      decide_eq_true_eq]
    constructor
    · rintro ⟨g₁, ⟨hg₁, h₁, hcg₁⟩, -⟩
      obtain ⟨g, hg, -, -, hcg, hw⟩ := well_member w hs hc hg₁ h₁ hcg₁ (hnf c hin)
      exact ⟨g, hg, hcg, hw⟩
    · rintro ⟨g, hg, hcg, hw⟩
      obtain ⟨g₁, hg₁, hid, h₁, hsub⟩ := waits_placed w hs hg hw
      obtain ⟨g', hg', hid', hk, -, -⟩ := well_member w hs hc hg₁ h₁ (hsub c hcg) (hnf c hin)
      have hsame : g' = g := List.inj_on_of_nodup_map hs.ids hg' hg (hid'.trans hid)
      refine ⟨g₁, ⟨hg₁, h₁, hsub c hcg⟩, ?_⟩
      rw [← hk, hsame]
      refine (open_kind hs hc ha hg hw hcg ?_ fun hf => hnf c hin (hc.failing c hf)).symm
      rw [hc.risen t ht hr c hin]
      rfl
  unfold silenced
  rw [(recovers_iff.1 hr).1, Bool.true_and, Bool.and_eq_true, List.all_eq_true, decide_eq_true_eq]
  exact and_congr_right fun _ => forall₂_congr hany

/-- The monitors of a recovery that goes out wait in no group. -/
theorem waits_not_of_out (hs : s.Sound) (hc : Coherent s i) (ha : Apart s i) {t : SiteText}
    (ht : t ∈ i.texts) (hr : t.recovers = true)
    (hsil : silenced (s.placed w i).groups t.msg = false) {c : Nat} (hin : c ∈ t.msg.checks)
    {g : SiteGroup} (hg : g ∈ s.groups) (hcg : c ∈ g.ids) : ¬ g.waits s i := by
  rcases ha.mixed t ht hr with hall | hnone
  · have := (silenced_iff w hs hc ha ht hr).2 ⟨List.ne_nil_of_mem hin, hall⟩
    rw [hsil] at this
    cases this
  · exact hnone c hin g hg hcg

/-- A batch reports the monitors of the recoveries that are not silent, and what its
groups report. -/
theorem mem_reported (hs : s.Sound) (hc : Coherent s i) (c : Nat) :
    c ∈ (s.grouped w i).reported ↔
      (∃ t ∈ i.texts, t.recovers = true ∧ silenced (s.placed w i).groups t.msg = false ∧
        c ∈ t.msg.checks) ∨
      ∃ g₁ ∈ (s.placed w i).groups, ∃ m ready,
        (PlaceState.settle w i g₁).2 = some (m, ready) ∧ c ∈ ready := by
  unfold Grouped.reported
  simp only [List.mem_flatMap, List.mem_filter, Bool.and_eq_true, decide_eq_true_eq]
  constructor
  · rintro ⟨x, ⟨hx, hrec, hkind⟩, hcx⟩
    rcases (mem_out w).1 hx with ⟨t, j, ht, -, hsil, rfl⟩ | ⟨g₁, hg₁, hg'⟩
    · cases hl : (s.placed w i).swap.lookup j with
      | none =>
        rw [hl] at hrec hkind hcx
        exact .inl ⟨t, List.mem_of_getElem? ht, recovers_iff.2 ⟨hrec, hkind⟩, hsil, hcx⟩
      | some m =>
        rw [hl, Option.getD_some, (swap_spec w hs hc hl).1] at hrec
        cases hrec
    · exact .inr ⟨g₁, hg₁, x.1, x.2, hg', hcx⟩
  · rintro (⟨t, ht, hr, hsil, hin⟩ | ⟨g₁, hg₁, m, ready, hm, hin⟩)
    · obtain ⟨j, hj⟩ := List.getElem?_of_mem ht
      obtain ⟨hrec, hkind⟩ := recovers_iff.1 hr
      have hnf : t.fails = false := by
        rw [SiteText.fails, hrec]
        rfl
      have hl : (s.placed w i).swap.lookup j = none := by
        cases hl : (s.placed w i).swap.lookup j with
        | none => rfl
        | some m =>
          obtain ⟨-, -, ⟨t', ht', hf⟩, -⟩ := swap_spec w hs hc hl
          rw [hj, Option.some.injEq] at ht'
          rw [← ht', hnf] at hf
          cases hf
      have hd : j ∉ (s.placed w i).drop := by
        intro hd
        obtain ⟨p, hp, e, he, rfl, -⟩ := (placed_right w hs).drop j hd
        have ht' := ((mem_byPlace hp e).1 he).1
        rw [hj, Option.some.injEq] at ht'
        have hf := (place_text hc hp he).2.1
        rw [← ht', hnf] at hf
        cases hf
      refine ⟨(t.msg, t.msg.checks), ⟨(mem_out w).2 (.inl ⟨t, j, hj, hd, hsil, ?_⟩), hrec, hkind⟩, hin⟩
      rw [hl, Option.getD_none]
    · obtain ⟨-, hrec, hkind, -⟩ := (settle_spec w i g₁).back m ready hm
      refine ⟨(m, ready), ⟨(mem_out w).2 (.inr ⟨g₁, hg₁, hm⟩), hrec, ?_⟩, hin⟩
      rw [hkind, placed_sort w hs hc hg₁]
      exact kind_mem _

/-- What a group reports waited in it, and neither fails nor has a recovery to go out
without a text. -/
theorem ready_well (hs : s.Sound) (hc : Coherent s i) (ha : Apart s i) {g₁ : SiteGroup}
    (hg₁ : g₁ ∈ (s.placed w i).groups) {m : Msg} {ready : List Nat}
    (hm : (PlaceState.settle w i g₁).2 = some (m, ready)) {c : Nat} (hin : c ∈ ready) :
    (∃ g ∈ s.groups, g.id = g₁.id ∧ c ∈ g.ids ∧ g.waits s i) ∧ c ∉ i.db.fails ∧
      (c ∈ textChecks SiteText.recovers i.texts ∨ s.moved i c = .up) := by
  obtain ⟨h₁, -, -, hsub, hok⟩ := (settle_spec w i g₁).back m ready hm
  have hok := hok c hin
  unfold isOk at hok
  have hf : c ∉ i.db.fails := by
    intro hf
    rw [if_pos hf] at hok
    cases hok
  rw [if_neg hf] at hok
  obtain ⟨g, hg, hid, -, hcg, hw⟩ := well_member w hs hc hg₁ h₁ (hsub.subset hin) hf
  refine ⟨⟨g, hg, hid, hcg, hw⟩, hf, ?_⟩
  by_cases hrec : c ∈ i.db.recs
  · exact .inl (hc.recs c hrec)
  · rw [if_neg hrec] at hok
    have hsent := ha.seen g hg hw c hcg hf hrec hok
    have hrow := hc.rows g hg c hcg
    rw [hok] at hrow
    refine .inr ?_
    cases hp : s.moved i c with
    | up => rfl
    | failing | risen =>
      rw [hp] at hsent
      cases hsent
    | told | worse => exact absurd (hrow (by rw [hp]; rfl)) (by simp)

/-- A monitor that is reported rose in this batch, or is up since. -/
theorem reported_rose (hs : s.Sound) (hc : Coherent s i) (ha : Apart s i) {c : Nat}
    (h : c ∈ (s.grouped w i).reported) :
    c ∈ textChecks SiteText.recovers i.texts ∨ s.moved i c = .up := by
  rcases (mem_reported w hs hc c).1 h with ⟨t, ht, hr, -, hin⟩ | ⟨g₁, hg₁, m, ready, hm, hin⟩
  · exact .inl (mem_textChecks.2 ⟨t, ht, hr, hin⟩)
  · exact (ready_well w hs hc ha hg₁ hm hin).2.2

theorem waiting_owed (hs : s.Sound) (hc : Coherent s i) (ha : Apart s i) {g : SiteGroup}
    (hg : g ∈ s.groups) (hw : g.waits s i) {c : Nat} (hin : c ∈ g.ids) :
    s.owed c = true ∨ c ∈ textChecks SiteText.fails i.texts := by
  cases hsolo : g.solo with
  | false => exact .inl (hs.waiting g hg hsolo c hin)
  | true =>
    refine (ha.single g hg hsolo hw c hin).1.imp_left fun hk => hs.announced c ?_
    rw [moved_kind hc hk]
    simp

theorem reported_owed (hs : s.Sound) (hc : Coherent s i) (ha : Apart s i) {c : Nat}
    (h : c ∈ (s.grouped w i).reported) : s.owed c = true := by
  rcases (mem_reported w hs hc c).1 h with ⟨t, ht, hr, -, hin⟩ | ⟨g₁, hg₁, m, ready, hm, hin⟩
  · apply hs.announced
    rw [moved_kind hc (k := t.msg.kind) (by rw [hc.risen t ht hr c hin]; rfl)]
    simp
  · obtain ⟨⟨g, hg, -, hcg, hw⟩, hf, -⟩ := ready_well w hs hc ha hg₁ hm hin
    exact (waiting_owed hs hc ha hg hw hcg).resolve_right fun ht => hf (hc.failing c ht)

/-- Where what is picked of each entry is a part of its list, all that is picked is a
part of the lists together. -/
theorem picked_sublist {α : Type} {l : List α} {f : α → Option (Msg × List Nat)}
    {pick : Msg × List Nat → Bool} (test : α → Bool) (ids : α → List Nat)
    (h : ∀ a ∈ l, ∀ x, f a = some x → pick x = true → test a = true ∧ x.2.Sublist (ids a)) :
    (((l.filterMap f).filter pick).flatMap Prod.snd).Sublist ((l.filter test).flatMap ids) := by
  induction l with
  | nil => exact .slnil
  | cons a l ih =>
    have ih' := ih fun b hb => h b (List.mem_cons_of_mem _ hb)
    have hskip : ((l.filter test).flatMap ids).Sublist (((a :: l).filter test).flatMap ids) := by
      rw [List.filter_cons]
      split
      · rw [List.flatMap_cons]
        exact List.sublist_append_right _ _
      · exact .refl _
    cases hf : f a with
    | none =>
      rw [List.filterMap_cons_none hf]
      exact ih'.trans hskip
    | some x =>
      rw [List.filterMap_cons_some hf, List.filter_cons]
      split
      · rename_i hp
        obtain ⟨ht, hsub⟩ := h a List.mem_cons_self x hf hp
        rw [List.filter_cons_of_pos ht, List.flatMap_cons, List.flatMap_cons]
        exact hsub.append ih'
      · exact ih'.trans hskip

/-- The text of the batch at an index, as it goes out. -/
def PlaceState.textOut (s : PlaceState) (i : PlaceTick) (e : SiteText × Nat) :
    Option (Msg × List Nat) :=
  if e.2 ∈ (s.placed w i).drop then none
  else if silenced (s.placed w i).groups e.1.msg then none
  else some (((s.placed w i).swap.lookup e.2).getD e.1.msg,
    (((s.placed w i).swap.lookup e.2).getD e.1.msg).checks)

/-- A text that reports is a recovery of the batch that is not silent. -/
theorem textOut_report (hs : s.Sound) (hc : Coherent s i) {e : SiteText × Nat}
    {x : Msg × List Nat} (hx : s.textOut w i e = some x)
    (hp : (x.1.recovery && x.1.kind ∈ placeKinds) = true) :
    e.1.recovers = true ∧ silenced (s.placed w i).groups e.1.msg = false ∧
      x.2 = e.1.msg.checks := by
  unfold PlaceState.textOut at hx
  split at hx
  · cases hx
  · split at hx
    · cases hx
    · rename_i hsil
      cases hx
      cases hl : (s.placed w i).swap.lookup e.2 with
      | none =>
        rw [hl] at hp
        exact ⟨hp, by simpa using hsil, rfl⟩
      | some m =>
        rw [hl] at hp
        simp [(swap_spec w hs hc hl).1] at hp

theorem reported_parts : (s.grouped w i).reported =
    ((i.texts.zipIdx.filterMap (s.textOut w i)).filter fun m =>
      m.1.recovery && m.1.kind ∈ placeKinds).flatMap Prod.snd ++
    (((s.placed w i).groups.filterMap fun g => (PlaceState.settle w i g).2).filter fun m =>
      m.1.recovery && m.1.kind ∈ placeKinds).flatMap Prod.snd := by
  unfold Grouped.reported
  rw [grouped_out, List.filter_append, List.flatMap_append, List.filterMap_map]
  rfl

/-- No monitor is reported twice. -/
theorem reported_once (hs : s.Sound) (hc : Coherent s i) (ha : Apart s i) :
    (s.grouped w i).reported.Nodup := by
  rw [reported_parts]
  refine List.nodup_append.2 ⟨?_, ?_, ?_⟩
  · -- the texts: a monitor has one alert at most
    refine (picked_sublist (fun e => e.1.recovers) (fun e => e.1.msg.checks)
      fun e _ x hx hp => ?_).nodup ?_
    · obtain ⟨hr, -, hids⟩ := textOut_report w hs hc hx hp
      exact ⟨hr, hids ▸ .refl _⟩
    · refine List.Nodup.sublist (List.Sublist.flatMap ?_ _) (alerts_nodup ha)
      exact List.monotone_filter_right _ fun e he => by simp [he]
  · -- the groups: a monitor waits in one at most
    refine (picked_sublist (fun g => !g.solo) SiteGroup.ids fun g _ x hx _ => ?_).nodup ?_
    · obtain ⟨h₁, -, -, hsub, -⟩ := (settle_spec w i g).back x.1 x.2 hx
      exact ⟨by simp [h₁], hsub⟩
    · refine List.nodup_flatMap.2 ⟨fun g hg => placed_nodup w hs (List.mem_filter.1 hg).1, ?_⟩
      have hne := ((placed_right w hs (i := i)).ids.of_map _).filter fun g : SiteGroup => !g.solo
      refine hne.imp_of_mem fun hg hg' hneq c hcg hcg' => hneq ?_
      obtain ⟨hg, h₁⟩ := List.mem_filter.1 hg
      obtain ⟨hg', h₂⟩ := List.mem_filter.1 hg'
      exact placed_one w hs hc ha hg hg' (by simpa using h₁) (by simpa using h₂) hcg hcg'
  · -- the monitors of a recovery that goes out wait in no group
    rintro c hct c' hcg rfl
    obtain ⟨x, hx, hcx⟩ := List.mem_flatMap.1 hct
    obtain ⟨hx, hp⟩ := List.mem_filter.1 hx
    obtain ⟨e, he, hx⟩ := List.mem_filterMap.1 hx
    obtain ⟨hr, hsil, hids⟩ := textOut_report w hs hc hx hp
    obtain ⟨y, hy, hcy⟩ := List.mem_flatMap.1 hcg
    obtain ⟨g₁, hg₁, hy⟩ := List.mem_filterMap.1 (List.mem_filter.1 hy).1
    obtain ⟨⟨g, hg, -, hcg', hw⟩, -⟩ := ready_well w hs hc ha hg₁ (m := y.1) hy hcy
    exact waits_not_of_out w hs hc ha (List.fst_mem_of_mem_zipIdx he) hr hsil (hids ▸ hcx) hg hcg' hw

/-! ## One step -/

theorem toldKind_none {texts : List SiteText} {c : Nat} (h : c ∉ textChecks SiteText.fails texts) :
    toldKind texts c = none := by
  unfold toldKind
  rw [Option.map_eq_none_iff, List.find?_eq_none]
  intro t ht hp
  rw [Bool.and_eq_true, decide_eq_true_eq] at hp
  exact h (mem_textChecks.2 ⟨t, ht, hp.1, hp.2⟩)

theorem toldKind_some {texts : List SiteText} {c : Nat} (h : c ∈ textChecks SiteText.fails texts) :
    ∃ t ∈ texts, t.fails = true ∧ c ∈ t.msg.checks ∧ toldKind texts c = some t.msg.kind := by
  obtain ⟨t, ht, hf, hin⟩ := mem_textChecks.1 h
  have hsome : (texts.find? fun t => t.fails && c ∈ t.msg.checks).isSome :=
    List.find?_isSome.2 ⟨t, ht, by simp [hf, hin]⟩
  obtain ⟨t', ht'⟩ := Option.isSome_iff_exists.1 hsome
  have hp := List.find?_some ht'
  rw [Bool.and_eq_true, decide_eq_true_eq] at hp
  exact ⟨t', List.mem_of_find?_eq_some ht', hp.1, hp.2, by rw [toldKind, ht', Option.map_some]⟩

/-- What was announced and not reported stands when the batch begins. -/
theorem accounted_moved (hs : s.Sound) (hc : Coherent s i) (hk : KeepsRecoveries s i) {c : Nat}
    (ho : s.owed c = true) : (s.moved i c).kind ≠ none ∨ s.inGroup c := by
  rcases hs.accounted c ho with h | h
  · rcases moved_keeps hc h with h | ⟨⟨k, hr⟩, hf⟩
    · exact .inl h
    · exact .inr (hk c k hr hf)
  · exact .inr h

/-- A batch that did not go out moves the monitors and nothing else. -/
theorem sound_undelivered (hs : s.Sound) (hc : Coherent s i) (hk : KeepsRecoveries s i) :
    PlaceState.Sound { s with phase := s.moved i } where
  ids := hs.ids
  below := hs.below
  nodup := hs.nodup
  sort := hs.sort
  one := hs.one
  kinds g hg h₁ c hin k hkind := hs.kinds g hg h₁ c hin k (moved_kind hc hkind)
  waiting := hs.waiting
  announced c h := by
    obtain ⟨k, hkind⟩ := Option.ne_none_iff_exists'.1 h
    exact hs.announced c (by rw [moved_kind hc hkind]; simp)
  accounted _ ho := accounted_moved hs hc hk ho

theorem mem_groups {g₂ : SiteGroup} : g₂ ∈ (s.grouped w i).groups ↔
    (∃ g₁ ∈ (s.placed w i).groups, (PlaceState.settle w i g₁).1 = some g₂) ∧
      g₂.stale i.now = false := by
  rw [show (s.grouped w i).groups = (((s.placed w i).groups.map (PlaceState.settle w i)).filterMap
    Prod.fst).filter fun g => !g.stale i.now from rfl, List.mem_filter, List.filterMap_map,
    List.mem_filterMap, Bool.not_eq_true']
  rfl

/-- A monitor of an announced group that is not reported stays in it. -/
theorem stays (hs : s.Sound) (hc : Coherent s i) {g₁ : SiteGroup}
    (hg₁ : g₁ ∈ (s.placed w i).groups) (h₁ : g₁.solo = false) {c : Nat} (hin : c ∈ g₁.ids)
    (hout : c ∉ (s.grouped w i).reported) :
    ∃ g₂ ∈ (s.grouped w i).groups, g₂.solo = false ∧ c ∈ g₂.ids := by
  rcases (settle_spec w i g₁).split h₁ c hin with ⟨m, ready, hm, hr⟩ | ⟨g₂, hg₂, hin₂⟩
  · exact absurd ((mem_reported w hs hc c).2 (.inr ⟨g₁, hg₁, m, ready, hm, hr⟩)) hout
  · obtain ⟨-, -, -, hsolo, -⟩ := (settle_spec w i g₁).rest g₂ hg₂
    have hmem : g₂.members ≠ [] := by
      rintro he
      rw [SiteGroup.ids, he] at hin₂
      cases hin₂
    refine ⟨g₂, (mem_groups w).2 ⟨⟨g₁, hg₁, hg₂⟩, ?_⟩, hsolo.trans h₁, hin₂⟩
    simp [SiteGroup.stale, hmem, hsolo, h₁]

/-- A saved group that waits still holds a monitor that is not reported. -/
theorem waits_stays (hs : s.Sound) (hc : Coherent s i) {g : SiteGroup} (hg : g ∈ s.groups)
    (hw : g.waits s i) {c : Nat} (hin : c ∈ g.ids) (hout : c ∉ (s.grouped w i).reported) :
    ∃ g₂ ∈ (s.grouped w i).groups, g₂.solo = false ∧ c ∈ g₂.ids := by
  obtain ⟨g₁, hg₁, -, h₁, hsub⟩ := waits_placed w hs hg hw
  exact stays w hs hc hg₁ h₁ (hsub c hin) hout

/-- What an announced group holds after the batch was owed or announced by it, and is
not reported. -/
theorem rest_owed (hs : s.Sound) (hc : Coherent s i) (ha : Apart s i) {g₁ g₂ : SiteGroup}
    (hg₁ : g₁ ∈ (s.placed w i).groups) (hg₂ : (PlaceState.settle w i g₁).1 = some g₂)
    (h₁ : g₁.solo = false) {c : Nat} (hin : c ∈ g₂.ids) :
    (s.owed c = true ∨ c ∈ textChecks SiteText.fails i.texts) ∧
      c ∉ (s.grouped w i).reported := by
  obtain ⟨-, -, -, -, hsub, hgone⟩ := (settle_spec w i g₁).rest g₂ hg₂
  have hin₁ := hsub.subset hin
  constructor
  · rcases placed_member w hs hc hg₁ hin₁ with ⟨g, hg, -, -, -, hcg, hw⟩ | ⟨p, hp, hcp, -⟩
    · exact waiting_owed hs hc ha hg (hw h₁) hcg
    · exact .inr (placeIds_fail hc hp hcp)
  · intro hrep
    rcases (mem_reported w hs hc c).1 hrep with ⟨t, ht, hr, hsil, hct⟩ | ⟨g₁', hg₁', m, ready, hm, hr⟩
    · obtain ⟨g, hg, -, -, hcg, hw⟩ := well_member w hs hc hg₁ h₁ hin₁
        (not_fails_of_risen hc (hc.risen t ht hr c hct))
      exact waits_not_of_out w hs hc ha ht hr hsil hct hg hcg hw
    · obtain ⟨h₁', -, -, hsub', -⟩ := (settle_spec w i g₁').back m ready hm
      obtain rfl := placed_one w hs hc ha hg₁ hg₁' h₁ h₁' hin₁ (hsub'.subset hr)
      exact hgone m ready hm c hr hin

/-- The kind under which a monitor of an announced group stands after the batch. -/
theorem rest_kind (hs : s.Sound) (hc : Coherent s i) (ha : Apart s i) {g₁ : SiteGroup}
    (hg₁ : g₁ ∈ (s.placed w i).groups) (h₁ : g₁.solo = false) {c : Nat} (hin : c ∈ g₁.ids)
    {k : String} (hk : (markPhase i.texts (s.moved i) c).kind = some k) : k = g₁.kind := by
  unfold markPhase at hk
  by_cases hf : c ∈ textChecks SiteText.fails i.texts
  · obtain ⟨t, ht, hft, hct, htold⟩ := toldKind_some hf
    rw [htold] at hk
    obtain rfl := Option.some.inj hk
    rw [placed_sort w hs hc hg₁]
    rcases placed_member w hs hc hg₁ hin with ⟨g, hg, -, hlvl, -, hcg, hw⟩ | ⟨p, hp, hcp, -, hlvl⟩
    · obtain ⟨src, hsrc, ho⟩ := Option.bind_eq_some_iff.1 (ha.home t ht hft c hct g hg hcg (hw h₁))
      rw [(hc.src t ht src hsrc).2.1, ← hlvl, (openFor_some ho).2.2]
    · obtain ⟨e, he, hce⟩ := (mem_placeIds hc hp c).1 hcp
      obtain ⟨-, hfe, hke, -⟩ := place_text hc hp he
      obtain ⟨j, hj⟩ := List.getElem?_of_mem ht
      obtain ⟨rfl, -⟩ := text_of_monitor ha hj ((mem_byPlace hp e).1 he).1 (by rw [hft]; rfl)
        (by rw [hfe]; rfl) hct hce
      rw [hke, hlvl]
  · rw [toldKind_none hf] at hk
    dsimp only at hk
    split at hk
    · cases hk
    · rcases placed_member w hs hc hg₁ hin with ⟨g, hg, -, -, hkind, hcg, hw⟩ | ⟨p, hp, hcp, -⟩
      · rw [← hkind]
        exact open_kind hs hc ha hg (hw h₁) hcg hk hf
      · exact absurd (placeIds_fail hc hp hcp) hf

/-- A recovery is reported, or its monitors wait in a group. -/
theorem recovery_kept (hs : s.Sound) (hc : Coherent s i) (ha : Apart s i) {c : Nat}
    (h : c ∈ textChecks SiteText.recovers i.texts) (hout : c ∉ (s.grouped w i).reported) :
    ∃ g₂ ∈ (s.grouped w i).groups, g₂.solo = false ∧ c ∈ g₂.ids := by
  obtain ⟨t, ht, hr, hin⟩ := mem_textChecks.1 h
  cases hsil : silenced (s.placed w i).groups t.msg with
  | false => exact absurd ((mem_reported w hs hc c).2 (.inl ⟨t, ht, hr, hsil, hin⟩)) hout
  | true =>
    obtain ⟨g, hg, hcg, hw⟩ := ((silenced_iff w hs hc ha ht hr).1 hsil).2 c hin
    exact waits_stays w hs hc hg hw hcg hout

theorem step_delivered (hd : i.delivered = true) : s.step w i =
    { groups := (s.grouped w i).groups
      next := (s.grouped w i).next
      phase := markPhase i.texts (s.moved i)
      owed := fun c => (s.owed c || c ∈ (s.grouped w i).announced) &&
        c ∉ (s.grouped w i).reported } := by
  rw [PlaceState.step]
  exact if_pos hd

/-- A failure of the batch is not reported by it. -/
theorem failing_not_reported (hs : s.Sound) (hc : Coherent s i) (ha : Apart s i) {c : Nat}
    (hf : (s.moved i c).fails = true) : c ∉ (s.grouped w i).reported := by
  intro hrep
  rcases reported_rose w hs hc ha hrep with hr | hup
  · obtain ⟨k, hk⟩ := risen_of_text hc hr
    rw [hk] at hf
    cases hf
  · rw [hup] at hf
    cases hf

/-- A group after a delivered batch is the rest of one after the placing. -/
theorem rest_of_step (hd : i.delivered = true) {g₂ : SiteGroup} (hg₂ : g₂ ∈ (s.step w i).groups) :
    ∃ g₁ ∈ (s.placed w i).groups,
      (PlaceState.settle w i g₁).1 = some g₂ ∧ g₂.id = g₁.id ∧ g₂.lvl = g₁.lvl ∧
        g₂.kind = g₁.kind ∧ g₂.solo = g₁.solo ∧ g₂.ids.Sublist g₁.ids := by
  rw [step_delivered w hd] at hg₂
  obtain ⟨⟨g₁, hg₁, hset⟩, -⟩ := (mem_groups w).1 hg₂
  obtain ⟨h1, h2, h3, h4, h5, -⟩ := (settle_spec w i g₁).rest g₂ hset
  exact ⟨g₁, hg₁, hset, h1, h2, h3, h4, h5⟩

/-- What was announced, before or by this batch, stays owed until it is reported. -/
theorem step_owed (hs : s.Sound) (hc : Coherent s i) (hd : i.delivered = true) {c : Nat}
    (ho : s.owed c = true ∨ c ∈ textChecks SiteText.fails i.texts)
    (hout : c ∉ (s.grouped w i).reported) : (s.step w i).owed c = true := by
  rw [step_delivered w hd]
  rcases ho with ho | ho
  · simp [ho, hout]
  · simp [(mem_announced w hs hc c).2 ho, hout]

theorem announced_delivered (hs : s.Sound) (hc : Coherent s i) (ha : Apart s i)
    (hd : i.delivered = true) {c : Nat} (hkind : ((s.step w i).phase c).kind ≠ none) :
    (s.step w i).owed c = true := by
  have hphase : (s.step w i).phase = markPhase i.texts (s.moved i) := by rw [step_delivered w hd]
  rw [hphase] at hkind
  by_cases hf : c ∈ textChecks SiteText.fails i.texts
  · exact step_owed w hs hc hd (.inr hf) (failing_not_reported w hs hc ha (fails_of_text hc hf))
  rw [markPhase, toldKind_none hf] at hkind
  dsimp only at hkind
  split at hkind
  · exact absurd rfl hkind
  rename_i hrec
  obtain ⟨k, hk⟩ := Option.ne_none_iff_exists'.1 hkind
  refine step_owed w hs hc hd (.inl (hs.announced c ?_)) fun hrep => ?_
  · rw [moved_kind hc hk]
    simp
  · rcases reported_rose w hs hc ha hrep with h | h
    · exact hrec h
    · rw [h] at hkind
      exact hkind rfl

theorem accounted_delivered (hs : s.Sound) (hc : Coherent s i) (hk : KeepsRecoveries s i)
    (ha : Apart s i) (hd : i.delivered = true) : Accounted (s.step w i) := by
  intro c ho
  have hphase : (s.step w i).phase = markPhase i.texts (s.moved i) := by rw [step_delivered w hd]
  have hgroups : (s.step w i).groups = (s.grouped w i).groups := by rw [step_delivered w hd]
  have hin : (∃ g₂ ∈ (s.grouped w i).groups, g₂.solo = false ∧ c ∈ g₂.ids) →
      (s.step w i).inGroup c := by
    rw [PlaceState.inGroup, hgroups]
    exact id
  rw [step_delivered w hd] at ho
  simp only [Bool.and_eq_true, Bool.or_eq_true, decide_eq_true_eq] at ho
  obtain ⟨ho, hout⟩ := ho
  rw [mem_announced w hs hc] at ho
  rw [hphase, markPhase]
  by_cases hf : c ∈ textChecks SiteText.fails i.texts
  · obtain ⟨t, -, -, -, htold⟩ := toldKind_some hf
    rw [htold]
    exact .inl (by simp [Phase.kind])
  by_cases hrec : c ∈ textChecks SiteText.recovers i.texts
  · exact .inr (hin (recovery_kept w hs hc ha hrec hout))
  rw [toldKind_none hf]
  dsimp only
  rw [if_neg hrec]
  refine (accounted_moved hs hc hk (ho.resolve_right hf)).imp_right ?_
  rintro ⟨g, hg, h₁, hcg⟩
  exact hin (waits_stays w hs hc hg (.inl h₁) hcg hout)

theorem sound_delivered (hs : s.Sound) (hc : Coherent s i) (hk : KeepsRecoveries s i)
    (ha : Apart s i) (hd : i.delivered = true) : (s.step w i).Sound := by
  have hr := placed_right w hs (i := i)
  refine { ids := ?ids, below := ?below, nodup := ?nodup, sort := ?sort, one := ?one
           kinds := ?kinds, waiting := ?waiting
           announced := fun c hkind => announced_delivered w hs hc ha hd hkind
           accounted := accounted_delivered w hs hc hk ha hd }
  case ids =>
    rw [step_delivered w hd]
    refine List.Nodup.sublist (List.Sublist.trans (List.filter_sublist.map _) ?_) hr.ids
    rw [List.filterMap_map]
    exact map_filterMap_sublist fun g₁ _ g₂ h => ((settle_spec w i g₁).rest g₂ h).1
  case below =>
    intro g₂ hg₂
    obtain ⟨g₁, hg₁, -, hid, -⟩ := rest_of_step w hd hg₂
    rw [hid, step_delivered w hd]
    exact hr.below g₁ hg₁
  case nodup =>
    intro g₂ hg₂
    obtain ⟨g₁, hg₁, -, -, -, -, -, hsub⟩ := rest_of_step w hd hg₂
    exact (placed_nodup w hs hg₁).sublist hsub
  case sort =>
    intro g₂ hg₂
    obtain ⟨g₁, hg₁, -, -, hlvl, hkind, -⟩ := rest_of_step w hd hg₂
    rw [hkind, hlvl]
    exact placed_sort w hs hc hg₁
  case one =>
    intro g₂ hg₂ g₂' hg₂' h₂ h₂' c hin hin'
    obtain ⟨g₁, hg₁, hset, -, -, -, hsolo, hsub⟩ := rest_of_step w hd hg₂
    obtain ⟨g₁', hg₁', hset', -, -, -, hsolo', hsub'⟩ := rest_of_step w hd hg₂'
    obtain rfl := placed_one w hs hc ha hg₁ hg₁' (hsolo ▸ h₂) (hsolo' ▸ h₂') (hsub.subset hin)
      (hsub'.subset hin')
    exact Option.some.inj (hset.symm.trans hset')
  case kinds =>
    intro g₂ hg₂ h₂ c hin k hkind
    obtain ⟨g₁, hg₁, -, -, -, hk₁, hsolo, hsub⟩ := rest_of_step w hd hg₂
    rw [step_delivered w hd] at hkind
    rw [hk₁]
    exact rest_kind w hs hc ha hg₁ (hsolo ▸ h₂) (hsub.subset hin) hkind
  case waiting =>
    intro g₂ hg₂ h₂ c hin
    obtain ⟨g₁, hg₁, hset, -, -, -, hsolo, -⟩ := rest_of_step w hd hg₂
    obtain ⟨ho, hout⟩ := rest_owed w hs hc ha hg₁ hset (hsolo ▸ h₂) hin
    exact step_owed w hs hc hd ho hout

/-- What a batch that goes out reports, from a sound state. -/
theorem reports_once (hs : s.Sound) (hc : Coherent s i) (ha : Apart s i)
    (hd : i.delivered = true) : ReportsOnce w s i where
  once := reported_once w hs hc ha
  owed _ h := reported_owed w hs hc ha h
  well c h := (reported_rose w hs hc ha h).symm.imp_right (risen_of_text hc)
  kept c h := by
    refine or_iff_not_imp_left.2 fun hout => ?_
    rw [PlaceState.inGroup, step_delivered w hd]
    exact recovery_kept w hs hc ha h hout
  whole g hg h₁ hno hall c hin := by
    obtain ⟨g₁, hg₁, hid, hsolo, -⟩ := waits_placed w hs hg (.inl h₁)
    -- no failure of the batch joined the group, so that it is the saved one
    have hsame : g₁ = g := by
      have hinj : ∀ {g' : SiteGroup}, g' ∈ s.groups → g'.id = g.id → g' = g := fun hg' hid' =>
        List.inj_on_of_nodup_map hs.ids hg' hg hid'
      have hnew : ∀ {n : Nat}, s.next ≤ n → n ≠ g.id := fun hn he =>
        absurd (hs.below g hg) (by omega)
      cases (placed_right w hs).origin g₁ hg₁ with
      | old hg' _ => exact hinj hg' hid
      | joined hg' hp ho =>
        rename_i g' p
        obtain rfl := hinj hg' hid
        obtain ⟨e, es, hp2⟩ := List.exists_cons_of_ne_nil (byPlace_ne_nil hp)
        obtain ⟨ht, -, -, -, hj⟩ := place_text hc hp (by rw [hp2]; exact List.mem_cons_self)
        exact absurd (hj.trans ho) (hno _ ht)
      | single n hn hp ho h1 => exact absurd ((newGroup_fields n _ i.now).1.symm.trans hid) (hnew hn)
      | many n hn hp ho h1 => exact absurd ((newGroup_fields n _ i.now).1.symm.trans hid) (hnew hn)
    subst hsame
    obtain ⟨m, ready, hm, hr⟩ := (settle_spec w i g₁).whole h₁ hall c hin
    exact (mem_reported w hs hc c).2 (.inr ⟨g₁, hg₁, m, ready, hm, hr⟩)

end batch

/-! ## Runs -/

/-- What every batch of a run meets. -/
def KeepsApart (s : PlaceState) (i : PlaceTick) : Prop :=
  Coherent s i ∧ KeepsRecoveries s i ∧ (i.delivered = true → Apart s i)

theorem sound_init : PlaceState.Sound {} where
  ids := List.nodup_nil
  below := nofun
  nodup := nofun
  sort := nofun
  one := nofun
  kinds := nofun
  waiting := nofun
  announced _ h := absurd rfl h
  accounted := nofun

theorem sound_step (s : PlaceState) (i : PlaceTick) (hs : s.Sound) (h : KeepsApart s i) :
    (s.step w i).Sound := by
  obtain ⟨hc, hk, ha⟩ := h
  cases hd : i.delivered with
  | true => exact sound_delivered w hs hc hk (ha hd) hd
  | false =>
    have : s.step w i = { s with phase := s.moved i } := by simp [PlaceState.step, hd]
    rw [this]
    exact sound_undelivered hs hc hk

/-- The failure of a monitor at a place. -/
def failText (check : Nat) (place : String) : SiteText where
  msg := { text := "", kind := "down", ref := .chk [check] }
  src := some ⟨place, .down, check, ⟨"", ""⟩⟩

def recoveryText (checks : List Nat) : SiteText where
  msg := { text := "", kind := "down", recovery := true, ref := .chk checks }

/-- A batch that goes out. The monitors of `down` have an open episode. -/
def sentBatch (moves : List (Nat × Phase)) (texts : List SiteText) (fails recs down : List Nat) :
    PlaceTick where
  now := 0
  moves := moves
  texts := texts
  db :=
    { fails := fails
      recs := recs
      row := fun c => some ⟨true, if c ∈ down then .opened .down 0 else .never, false⟩ }
  delivered := true

def wordless : GroupWords := ⟨fun _ => "", fun _ _ _ => "", fun _ _ => ""⟩

theorem keepsRecoveries_of_moves {s : PlaceState} {i : PlaceTick}
    (h : ∀ e ∈ i.moves, e.2 = .failing → (s.phase e.1).kind = none) : KeepsRecoveries s i := by
  intro c k hr hf
  unfold PlaceState.moved at hf
  cases hl : i.moves.lookup c with
  | none =>
    rw [hl, Option.getD_none, hr] at hf
    cases hf
  | some q =>
    rw [hl, Option.getD_some] at hf
    have := h (c, q) (lookup_mem_swap hl) hf
    rw [hr] at this
    cases this

/-- Two monitors of a place fail, one of them is up again, and the other one later. -/
def pairFails : List PlaceTick :=
  [sentBatch [(1, .failing), (2, .failing)] [failText 1 "p", failText 2 "p"] [1, 2] [] [1, 2],
    sentBatch [(1, .risen "down")] [recoveryText [1]] [] [1] [2],
    sentBatch [(2, .risen "down")] [recoveryText [2]] [] [2] []]

/-- The first and the third of three monitors share a place. The second one is at
another place but watches the site of the first one, so that their recoveries are one
text. -/
def crossFails : List PlaceTick :=
  [sentBatch [(2, .failing)] [failText 2 "q"] [2] [] [2],
    sentBatch [(1, .failing), (3, .failing)] [failText 1 "p", failText 3 "p"] [1, 3] [] [1, 2, 3],
    sentBatch [(1, .risen "down"), (2, .risen "down")] [recoveryText [1, 2]] [] [1, 2] [3],
    sentBatch [(3, .risen "down")] [recoveryText [3]] [] [3] []]

end Kervax
