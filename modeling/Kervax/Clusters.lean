-- Things with a time, sorted and cut where the next one comes later than a gap
-- allows. A group never crosses a moment that has such a gap around it, and what
-- hangs together stays in one group. Nothing here is about a program.
import Mathlib.Data.List.Sort
import Mathlib.Data.List.SplitBy

namespace Clusters

variable {α : Type} {time : α → Int} {gap : Int}

/-- `b` comes at most a gap after `a`. -/
def near (time : α → Int) (gap : Int) (a b : α) : Bool := time b - time a ≤ gap

/-- In the order of time; what has the same time keeps its order. -/
def sorted (time : α → Int) (l : List α) : List α := l.insertionSort fun a b => time a ≤ time b

/-- The groups, each in the order of time. -/
def clusters (time : α → Int) (gap : Int) (l : List α) : List (List α) :=
  (sorted time l).splitBy (near time gap)

/-- In the order of time, without a gap. -/
structure Chain (time : α → Int) (gap : Int) (l : List α) : Prop where
  ordered : l.Pairwise fun a b => time a ≤ time b
  near : l.IsChain fun a b => time b - time a ≤ gap

/-! ## The order -/

@[simp] theorem mem_sorted {l : List α} {a : α} : a ∈ sorted time l ↔ a ∈ l :=
  List.mem_insertionSort _

theorem pairwise_sorted (l : List α) : (sorted time l).Pairwise fun a b => time a ≤ time b := by
  have : Std.Total fun a b : α => time a ≤ time b := ⟨fun a b => le_total _ _⟩
  have : IsTrans α fun a b => time a ≤ time b := ⟨fun a b c => le_trans⟩
  exact List.pairwise_insertionSort _ l

@[simp] theorem clusters_nil : clusters time gap [] = [] := by
  simp [clusters, sorted]

theorem flatten_clusters (l : List α) : (clusters time gap l).flatten = sorted time l :=
  List.flatten_splitBy _ _

/-- Every thing is in a group, and a group has nothing else. -/
theorem mem_clusters {l : List α} {a : α} : (∃ c ∈ clusters time gap l, a ∈ c) ↔ a ∈ l := by
  rw [← List.mem_flatten, flatten_clusters, mem_sorted]

theorem mem_of_cluster {l c : List α} {a : α} (hc : c ∈ clusters time gap l) (ha : a ∈ c) : a ∈ l :=
  mem_clusters.mp ⟨c, hc, ha⟩

theorem ne_nil_of_cluster {l c : List α} (hc : c ∈ clusters time gap l) : c ≠ [] :=
  List.ne_nil_of_mem_splitBy hc

theorem chain_of_cluster {l c : List α} (hc : c ∈ clusters time gap l) : Chain time gap c := by
  constructor
  · have hsub : c.Sublist (clusters time gap l).flatten := List.sublist_flatten_of_mem hc
    rw [flatten_clusters] at hsub
    exact (pairwise_sorted l).sublist hsub
  · have h := List.isChain_of_mem_splitBy hc
    simpa only [near, decide_eq_true_eq] using h

/-- The end of a group is its last moment. -/
theorem Chain.le_getLast {c : List α} (h : Chain time gap c) (hne : c ≠ []) {a : α} (ha : a ∈ c) :
    time a ≤ time (c.getLast hne) := by
  have hc := List.dropLast_append_getLast hne
  rw [← hc] at ha
  have hp := h.ordered
  rw [← hc, List.pairwise_append] at hp
  rcases List.mem_append.mp ha with hin | hlast
  · exact hp.2.2 a hin _ (by simp)
  · rw [List.mem_singleton.mp hlast]

theorem Chain.head_le {c : List α} (h : Chain time gap c) (hne : c ≠ []) {a : α} (ha : a ∈ c) :
    time (c.head hne) ≤ time a := by
  cases c with
  | nil => exact absurd rfl hne
  | cons b c =>
    rcases List.mem_cons.mp ha with rfl | hin
    · exact le_refl _
    · exact (List.pairwise_cons.mp h.ordered).1 a hin

/-- What comes after a moment is a chain again. -/
theorem Chain.later {c : List α} (h : Chain time gap c) (cut : Int) :
    Chain time gap (c.filter fun a => cut < time a) := by
  induction c with
  | nil => exact h
  | cons a c ih =>
    by_cases ha : cut < time a
    · have hall : (a :: c).filter (fun a => decide (cut < time a)) = a :: c := by
        apply List.filter_eq_self.mpr
        intro b hb
        rcases List.mem_cons.mp hb with rfl | hb
        · simpa using ha
        · have := (List.pairwise_cons.mp h.ordered).1 b hb
          simp only [decide_eq_true_eq]
          omega
      rw [hall]
      exact h
    · rw [List.filter_cons_of_neg (by simpa using ha)]
      exact ih ⟨h.ordered.tail, h.near.tail⟩

/-! ## Between the groups -/

/-- More than a gap lies between any two groups. -/
theorem pairwise_clusters (l : List α) :
    (clusters time gap l).Pairwise fun c d => ∀ a ∈ c, ∀ b ∈ d, gap < time b - time a := by
  have hflat : ((clusters time gap l).flatten).Pairwise fun a b => time a ≤ time b := by
    rw [flatten_clusters]
    exact pairwise_sorted l
  have hne : ∀ c ∈ clusters time gap l, c ≠ [] := fun c hc => ne_nil_of_cluster hc
  have hnext : (clusters time gap l).IsChain fun c d =>
      ∃ hc hd, near time gap (c.getLast hc) (d.head hd) = false :=
    List.isChain_getLast_head_splitBy _ _
  have hchain : ∀ c ∈ clusters time gap l, Chain time gap c := fun c hc => chain_of_cluster hc
  generalize clusters time gap l = cs at hflat hne hnext hchain
  induction cs with
  | nil => exact .nil
  | cons c cs ih =>
    rw [List.flatten_cons, List.pairwise_append] at hflat
    obtain ⟨-, hrest, hacross⟩ := hflat
    refine List.pairwise_cons.mpr ⟨?_, ih hrest (fun d hd => hne d (List.mem_cons_of_mem _ hd))
      hnext.tail fun d hd => hchain d (List.mem_cons_of_mem _ hd)⟩
    intro d hd a ha b hb
    -- the gap is at the head of the next group, and all that follows is later
    cases cs with
    | nil => cases hd
    | cons e cs =>
      obtain ⟨hc, he, hfar⟩ := (List.isChain_cons_cons.mp hnext).1
      simp only [near, decide_eq_false_iff_not, not_le] at hfar
      have hlast := (hchain c List.mem_cons_self).le_getLast hc ha
      have hhead : time (e.head he) ≤ time b := by
        rcases List.mem_cons.mp hd with rfl | hin
        · exact (hchain d (by simp)).head_le he hb
        · rw [List.flatten_cons, List.pairwise_append] at hrest
          exact hrest.2.2 _ (List.head_mem he) b (List.mem_flatten.mpr ⟨d, hin, hb⟩)
      omega

/-- Of two groups, one is more than a gap before the other. -/
theorem eq_or_apart {l c d : List α} (hc : c ∈ clusters time gap l) (hd : d ∈ clusters time gap l) :
    c = d ∨ (∀ a ∈ c, ∀ b ∈ d, gap < time b - time a) ∨ ∀ a ∈ c, ∀ b ∈ d, gap < time a - time b := by
  have hp : (clusters time gap l).Pairwise fun c d => ∀ a ∈ c, ∀ b ∈ d, gap < time b - time a :=
    pairwise_clusters l
  have hleft : (clusters time gap l).Pairwise fun c d => c = d ∨
      (∀ a ∈ c, ∀ b ∈ d, gap < time b - time a) ∨ ∀ a ∈ c, ∀ b ∈ d, gap < time a - time b :=
    hp.imp fun h => .inr (.inl h)
  have hright : (clusters time gap l).Pairwise fun d c => c = d ∨
      (∀ a ∈ c, ∀ b ∈ d, gap < time b - time a) ∨ ∀ a ∈ c, ∀ b ∈ d, gap < time a - time b :=
    hp.imp fun h => .inr (.inr fun a ha b hb => h b hb a ha)
  exact hleft.forall_of_forall_of_flip (fun _ _ => .inl rfl) hright hc hd

/-- Two groups that have things within a gap of each other are one group. -/
theorem cluster_unique {l c d : List α} (hc : c ∈ clusters time gap l)
    (hd : d ∈ clusters time gap l) {a b : α} (ha : a ∈ c) (hb : b ∈ d)
    (h1 : time b - time a ≤ gap) (h2 : time a - time b ≤ gap) : c = d := by
  rcases eq_or_apart hc hd with h | h | h
  · exact h
  · exact absurd (h a ha b hb) (by omega)
  · exact absurd (h a ha b hb) (by omega)

/-- A thing is in one group only. -/
theorem countP_clusters [DecidableEq α] {l : List α} {a : α} (hgap : 0 ≤ gap) (ha : a ∈ l) :
    (clusters time gap l).countP (fun c => decide (a ∈ c)) = 1 := by
  have hin : ∃ c ∈ clusters time gap l, a ∈ c := mem_clusters.mpr ha
  have hp : (clusters time gap l).Pairwise fun c d =>
      ∀ a ∈ c, ∀ b ∈ d, gap < time b - time a := pairwise_clusters l
  generalize clusters time gap l = cs at hp hin
  induction cs with
  | nil => simp at hin
  | cons c cs ih =>
    obtain ⟨hfirst, hrest⟩ := List.pairwise_cons.mp hp
    by_cases hac : a ∈ c
    · have hnot : cs.countP (fun d => decide (a ∈ d)) = 0 := by
        rw [List.countP_eq_zero]
        intro d hd had
        have := hfirst d hd a hac a (of_decide_eq_true had)
        omega
      rw [List.countP_cons_of_pos (by simpa using hac), hnot]
    · obtain ⟨d, hd, had⟩ := hin
      have hd' : d ∈ cs := by
        rcases List.mem_cons.mp hd with rfl | hd
        · exact absurd had hac
        · exact hd
      rw [List.countP_cons_of_neg (by simpa using hac)]
      exact ih hrest ⟨d, hd', had⟩

/-- What hangs together is in one group. -/
theorem exists_cluster {l m : List α} (hgap : 0 ≤ gap) (hm : Chain time gap m) (hne : m ≠ [])
    (hsub : ∀ a ∈ m, a ∈ l) : ∃ c ∈ clusters time gap l, ∀ a ∈ m, a ∈ c := by
  induction m with
  | nil => exact absurd rfl hne
  | cons a m ih =>
    obtain ⟨c, hc, hac⟩ := mem_clusters.mpr (hsub a List.mem_cons_self)
    cases m with
    | nil => exact ⟨c, hc, by simpa using hac⟩
    | cons b m =>
      have htail : Chain time gap (b :: m) := ⟨hm.ordered.tail, hm.near.tail⟩
      obtain ⟨d, hd, hin⟩ := ih htail (by simp) fun x hx => hsub x (List.mem_cons_of_mem _ hx)
      have hnear := (List.isChain_cons_cons.mp hm.near).1
      have hle := (List.pairwise_cons.mp hm.ordered).1 b List.mem_cons_self
      obtain rfl := cluster_unique hc hd hac (hin b List.mem_cons_self) hnear (by omega)
      refine ⟨c, hc, fun x hx => ?_⟩
      rcases List.mem_cons.mp hx with rfl | hx
      · exact hac
      · exact hin x hx

/-- A chain that has something on both sides of a moment has two neighbours there. -/
theorem Chain.crossing {c : List α} (h : Chain time gap c) {a b : α} (ha : a ∈ c) (hb : b ∈ c)
    {cut : Int} (hac : time a ≤ cut) (hbc : cut < time b) :
    ∃ x ∈ c, ∃ y ∈ c, time a ≤ time x ∧ time x ≤ cut ∧ cut < time y ∧ time y - time x ≤ gap := by
  induction c generalizing a with
  | nil => cases ha
  | cons e c ih =>
    obtain ⟨hfirst, hord⟩ := List.pairwise_cons.mp h.ordered
    have htail : Chain time gap c := ⟨hord, h.near.tail⟩
    have hup {a' : α} (hin : a' ∈ c) (hac' : time a' ≤ cut) (hb' : b ∈ c) : ∃ x ∈ e :: c,
        ∃ y ∈ e :: c, time a' ≤ time x ∧ time x ≤ cut ∧ cut < time y ∧ time y - time x ≤ gap := by
      obtain ⟨x, hx, y, hy, hrest⟩ := ih htail hin hb' hac'
      exact ⟨x, List.mem_cons_of_mem _ hx, y, List.mem_cons_of_mem _ hy, hrest⟩
    rcases List.mem_cons.mp ha with rfl | hain
    · rcases List.mem_cons.mp hb with rfl | hbin
      · omega
      · cases c with
        | nil => cases hbin
        | cons d c =>
          have hnear := (List.isChain_cons_cons.mp h.near).1
          have had := hfirst d List.mem_cons_self
          by_cases hd : time d ≤ cut
          · obtain ⟨x, hx, y, hy, hdx, hrest⟩ := hup List.mem_cons_self hd hbin
            exact ⟨x, hx, y, hy, le_trans had hdx, hrest⟩
          · exact ⟨a, List.mem_cons_self, d, by simp, le_refl _, hac, by omega, hnear⟩
    · rcases List.mem_cons.mp hb with rfl | hbin
      -- nothing of the chain is before its first
      · exact absurd (hfirst a hain) (by omega)
      · exact hup hain hac hbin

/-! ## Lists that grow -/

/-- What hangs on the last group goes to it. -/
theorem splitBy_join {r : α → α → Bool} {l c g : List α} {gs : List (List α)}
    (h : l.splitBy r = gs ++ [g]) (hg : g ≠ []) (hne : c ≠ []) (hc : c.IsChain fun a b => r a b)
    (hr : r (g.getLast hg) (c.head hne) = true) : (l ++ c).splitBy r = gs ++ [g ++ c] := by
  obtain ⟨hflat, hempty, hchains, hcuts⟩ := List.splitBy_eq_iff.mp h
  rw [List.splitBy_eq_iff]
  refine ⟨?_, ?_, ?_, ?_⟩
  · rw [hflat]
    simp
  · simp only [List.mem_append, List.mem_singleton, not_or] at hempty ⊢
    exact ⟨hempty.1, fun h => hg (List.append_eq_nil_iff.mp h.symm).1⟩
  · intro m hm
    rcases List.mem_append.mp hm with hin | hlast
    · exact hchains m (List.mem_append_left _ hin)
    · rw [List.mem_singleton.mp hlast, List.isChain_append]
      refine ⟨hchains g (by simp), hc, ?_⟩
      intro x hx y hy
      rw [List.getLast?_eq_some_getLast hg] at hx
      rw [List.head?_eq_some_head hne] at hy
      obtain rfl : g.getLast hg = x := by simpa using hx
      obtain rfl : c.head hne = y := by simpa using hy
      exact hr
  · rw [List.isChain_append] at hcuts ⊢
    refine ⟨hcuts.1, List.isChain_singleton _, ?_⟩
    intro x hx y hy
    obtain rfl : g ++ c = y := by simpa using hy
    obtain ⟨ha, hb, hfar⟩ := hcuts.2.2 x hx g (by simp)
    exact ⟨ha, by simp [hg], by rwa [List.head_append_of_ne_nil hb]⟩

/-- What is far from the last group is a new one. -/
theorem splitBy_open {r : α → α → Bool} {l c : List α} (hne : c ≠ [])
    (hc : c.IsChain fun a b => r a b) (hr : ∀ a ∈ l.getLast?, r a (c.head hne) = false) :
    (l ++ c).splitBy r = l.splitBy r ++ [c] := by
  rw [List.splitBy_append, List.splitBy_of_isChain hne hc]
  intro a ha b hb
  rw [List.head?_eq_some_head hne] at hb
  obtain rfl : c.head hne = b := by simpa using hb
  exact hr a ha

/-- The last group ends with the last thing. -/
theorem getLast_splitBy {r : α → α → Bool} {l g : List α} {gs : List (List α)}
    (h : l.splitBy r = gs ++ [g]) (hg : g ≠ []) : l.getLast? = some (g.getLast hg) := by
  have hflat := List.flatten_splitBy r l
  rw [h] at hflat
  rw [← hflat, List.flatten_append, List.flatten_singleton, List.getLast?_append,
    List.getLast?_eq_some_getLast hg]
  rfl

end Clusters
