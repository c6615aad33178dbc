-- The events of the timeline are those of the lines: whatever reports the lines came in, the
-- events are those of one cut of all the lines into runs, and each has one item for a package.
import Kervax.PackagesLaws

namespace Kervax.Packages

/-! ## The items of a run -/

/-- Each item stands under the name of its package, and no name twice. -/
structure Named (d : List (String × Item)) : Prop where
  nodup : (Dict.keys d).Nodup
  name : ∀ x ∈ d, x.2.p = x.1

theorem named_put {d : List (String × Item)} (h : Named d) {k : String} {i : Item}
    (hname : i.p = k) : Named (Dict.put d k i) := by
  constructor
  · exact Dict.nodup_put h.nodup _ _
  · intro x hx
    rcases Dict.mem_put hx with hx | rfl
    · exact h.name x hx
    · exact hname

theorem named_mergeItem {d : List (String × Item)} (h : Named d) (i : Item) :
    Named (mergeItem d i) := by
  unfold mergeItem
  split
  · exact named_put h rfl
  · split
    · exact named_put h rfl
    · exact named_put h rfl

theorem named_foldl {d : List (String × Item)} (h : Named d) (is : List Item) :
    Named (is.foldl mergeItem d) := by
  induction is generalizing d with
  | nil => exact h
  | cons i is ih => exact ih (named_mergeItem h i)

/-- The items of a dictionary make it again. -/
theorem foldl_values {d e : List (String × Item)} (h : Named (d ++ e)) :
    (e.map Prod.snd).foldl mergeItem d = d ++ e := by
  induction e generalizing d with
  | nil => simp
  | cons x e ih =>
    have hname : x.2.p = x.1 := h.name x (by simp)
    have hnew : x.1 ∉ Dict.keys d := by
      have hn := h.nodup
      simp only [Dict.keys, List.map_append, List.map_cons] at hn
      intro hmem
      exact (List.nodup_append.mp hn).2.2 x.1 hmem x.1 (by simp) rfl
    have hstep : mergeItem d x.2 = d ++ [x] := by
      unfold mergeItem
      rw [hname, Dict.get, Dict.lookup_eq_none.mpr hnew]
      simp only [Dict.put, if_neg hnew]
    rw [List.map_cons, List.foldl_cons, hstep, ih (by simpa using h)]
    simp

/-- Items that were merged go on as if they had not been. -/
theorem merge_merge (is js : List Item) : merge (merge [] is) js = merge [] (is ++ js) := by
  unfold merge
  have hd : Named (is.foldl mergeItem []) := named_foldl ⟨by simp [Dict.keys], by simp⟩ is
  have hsame := foldl_values (d := []) (e := is.foldl mergeItem []) hd
  rw [List.nil_append] at hsame
  rw [List.nil_append, List.nil_append, List.foldl_append, hsame, List.foldl_append]

/-- An event names a package once. -/
theorem nodup_merge (is : List Item) : ((merge [] is).map Item.p).Nodup := by
  have hd : Named ((([] : List Item) ++ is).foldl mergeItem []) :=
    named_foldl ⟨by simp [Dict.keys], by simp⟩ _
  have heq : (merge [] is).map Item.p = Dict.keys ((([] : List Item) ++ is).foldl mergeItem []) := by
    unfold merge Dict.keys
    rw [List.map_map]
    exact List.map_congr_left fun x hx => hd.name x hx
  rw [heq]
  exact hd.nodup

/-! ## Runs -/

/-- A line that comes soon after another. -/
abbrev soon : Line → Line → Bool := Clusters.near Line.t RUN_GAP

theorem grow_splitBy (l : List Line) (e : Line) :
    grow (l.splitBy soon) e = (l ++ [e]).splitBy soon := by
  unfold grow
  rcases List.eq_nil_or_concat' (l.splitBy soon) with hnil | ⟨gs, g, hgs⟩
  · rw [List.splitBy_eq_nil.mp hnil]
    rfl
  · have hg : g ≠ [] := List.ne_nil_of_mem_splitBy (r := soon) (l := l) (by simp [hgs])
    have hlast : g.getLast? = some (g.getLast hg) := List.getLast?_eq_some_getLast hg
    rw [hgs, List.getLast?_concat]
    simp only [hlast, Option.mem_some_iff, exists_eq_left', List.dropLast_concat]
    split
    · next hnear =>
      exact (Clusters.splitBy_join hgs hg (by simp) (List.isChain_singleton _)
        (by simpa [Clusters.near] using hnear)).symm
    · next hfar =>
      rw [← hgs]
      refine (Clusters.splitBy_open (by simp) (List.isChain_singleton _) ?_).symm
      intro a ha
      rw [Clusters.getLast_splitBy hgs hg] at ha
      obtain rfl : g.getLast hg = a := by simpa using ha
      simpa [Clusters.near] using hfar

theorem runs_eq (fresh : List Line) : runs fresh = fresh.splitBy soon := by
  induction fresh using List.reverseRecOn with
  | nil => rfl
  | append_singleton l e ih =>
    unfold runs at ih ⊢
    rw [List.foldl_append, ih]
    exact grow_splitBy l e

/-! ## The query -/

/-- The event that ended last is found, if it is in the window. -/
theorem prevEvent_concat {es : List Event} {x : Event} (lo hi : Int) (hlt : ∀ e ∈ es, e.ts < x.ts)
    (hlo : lo ≤ x.ts) (hhi : x.ts ≤ hi) : prevEvent (es ++ [x]) lo hi = some (x, es.length) := by
  unfold prevEvent
  have htotal : Std.Total fun a b : Event × Nat => b.1.ts ≤ a.1.ts := ⟨fun a b => le_total _ _⟩
  have htrans : IsTrans (Event × Nat) fun a b => b.1.ts ≤ a.1.ts :=
    ⟨fun a b c hab hbc => le_trans hbc hab⟩
  set found := (es ++ [x]).zipIdx.filter fun e => lo ≤ e.1.ts && e.1.ts ≤ hi with hfound
  have hx : (x, es.length) ∈ found := by
    rw [hfound, List.zipIdx_append]
    simp [hlo, hhi]
  have hsort := List.pairwise_insertionSort (fun a b : Event × Nat => b.1.ts ≤ a.1.ts) found
  have hmem : ∀ y, y ∈ found.insertionSort (fun a b : Event × Nat => b.1.ts ≤ a.1.ts) ↔ y ∈ found :=
    fun y => List.mem_insertionSort _
  cases hl : found.insertionSort (fun a b : Event × Nat => b.1.ts ≤ a.1.ts) with
  | nil =>
    rw [← hmem, hl] at hx
    cases hx
  | cons y ys =>
    rw [hl] at hsort hmem
    have hy : y ∈ found := (hmem y).mp List.mem_cons_self
    have hge : x.ts ≤ y.1.ts := by
      rcases List.mem_cons.mp ((hmem _).mpr hx) with heq | hin
      · rw [← heq]
      · exact (List.pairwise_cons.mp hsort).1 _ hin
    rw [hfound, List.zipIdx_append] at hy
    rcases List.mem_append.mp (List.mem_of_mem_filter hy) with hin | hin
    · -- an earlier event does not end as late
      have := hlt y.1 (List.fst_mem_of_mem_zipIdx hin)
      omega
    · simp only [List.zipIdx_cons, List.zipIdx_nil, List.mem_singleton, Nat.zero_add] at hin
      rw [List.head?_cons, hin]

theorem prevEvent_none {es : List Event} {lo hi : Int} (hlt : ∀ e ∈ es, e.ts < lo) :
    prevEvent es lo hi = none := by
  unfold prevEvent
  have hnil : (es.zipIdx.filter fun e => lo ≤ e.1.ts && e.1.ts ≤ hi) = [] := by
    rw [List.filter_eq_nil_iff]
    intro e he
    have := hlt e.1 (List.fst_mem_of_mem_zipIdx he)
    simp only [Bool.and_eq_true, decide_eq_true_eq]
    omega
  rw [hnil]
  rfl

/-! ## The timeline -/

/-- The event of a run. -/
def eventOf (run : List Line) : Event :=
  event ((run.getLast?.map Line.t).getD 0) (merge [] (items run))

theorem eventOf_ts {run : List Line} {l : Line} (h : run.getLast? = some l) :
    (eventOf run).ts = l.t := by
  simp [eventOf, event, h]

/-- The events are those of the lines `T`, and each ended later than the one before it. -/
structure Told (T : List Line) (es : List Event) : Prop where
  eq : es = (T.splitBy soon).map eventOf
  rising : es.Pairwise fun a b => a.ts < b.ts

theorem storeRun_of {es : List Event} {run : List Line} {first last : Line}
    (hf : run.head? = some first) (hl : run.getLast? = some last) :
    storeRun es run = match prevEvent es (first.t - RUN_GAP) last.t with
      | some (prev, i) => es.set i (event last.t (merge prev.data (items run)))
      | none => es ++ [eventOf run] := by
  unfold storeRun eventOf
  rw [hf, hl]
  rfl

/-- One run of new lines keeps the events those of the lines. -/
theorem Told.run {T run : List Line} {es : List Event} (h : Told T es) (hne : run ≠ [])
    (hchain : run.IsChain fun a b => soon a b) (hord : (T ++ run).Pairwise fun a b => a.t ≤ b.t) :
    Told (T ++ run) (storeRun es run) := by
  have hfirst := List.head?_eq_some_head hne
  have hlast := List.getLast?_eq_some_getLast hne
  have hends : (run.head hne).t ≤ (run.getLast hne).t := by
    have hrun : Clusters.Chain Line.t RUN_GAP run :=
      ⟨(List.pairwise_append.mp hord).2.1, by simpa [Clusters.near] using hchain⟩
    exact hrun.le_getLast hne (List.head_mem hne)
  rw [storeRun_of hfirst hlast]
  rcases List.eq_nil_or_concat' (T.splitBy soon) with hnil | ⟨gs, g, hgs⟩
  · -- nothing was told before
    obtain rfl := List.splitBy_eq_nil.mp hnil
    obtain rfl : es = [] := h.eq
    rw [prevEvent_none (by simp)]
    exact ⟨by simp [List.splitBy_of_isChain hne hchain], by simp⟩
  · have hg : g ≠ [] := List.ne_nil_of_mem_splitBy (r := soon) (l := T) (by simp [hgs])
    have hglast : g.getLast? = some (g.getLast hg) := List.getLast?_eq_some_getLast hg
    have hTlast : g.getLast hg ∈ T := List.mem_of_getLast? (Clusters.getLast_splitBy hgs hg)
    have hle : (g.getLast hg).t ≤ (run.head hne).t :=
      (List.pairwise_append.mp hord).2.2 _ hTlast _ (List.head_mem hne)
    have hes : es = gs.map eventOf ++ [eventOf g] := by simp [h.eq, hgs]
    have hrising := h.rising
    rw [hes, List.pairwise_append] at hrising
    have hbelow : ∀ e ∈ gs.map eventOf, e.ts < (eventOf g).ts := fun e he =>
      hrising.2.2 e he _ List.mem_cons_self
    have hts : (eventOf g).ts = (g.getLast hg).t := eventOf_ts hglast
    by_cases hnear : (run.head hne).t - (g.getLast hg).t ≤ RUN_GAP
    · -- the run goes on the last event
      have hjoin := Clusters.splitBy_join hgs hg hne hchain (by simpa [Clusters.near] using hnear)
      have hevent : event (run.getLast hne).t (merge (eventOf g).data (items run)) =
          eventOf (g ++ run) := by
        unfold eventOf items
        rw [List.getLast?_append, hlast, List.filterMap_append, ← merge_merge]
        rfl
      have hfound := prevEvent_concat ((run.head hne).t - RUN_GAP) (run.getLast hne).t hbelow
        (by omega) (by omega)
      rw [hes, hfound]
      simp only [hevent]
      have hset : (gs.map eventOf ++ [eventOf g]).set (gs.map eventOf).length (eventOf (g ++ run)) =
          gs.map eventOf ++ [eventOf (g ++ run)] := by simp
      rw [hset]
      refine ⟨by simp [hjoin], List.pairwise_append.mpr ⟨hrising.1, List.pairwise_singleton _ _, ?_⟩⟩
      intro e he x hx
      have hx' : (eventOf (g ++ run)).ts = (run.getLast hne).t :=
        eventOf_ts (by rw [List.getLast?_append, hlast]; rfl)
      rw [List.mem_singleton.mp hx, hx']
      have := hbelow e he
      omega
    · -- the run is an event of its own
      have hopen := Clusters.splitBy_open (l := T) hne hchain fun a ha => by
        rw [Clusters.getLast_splitBy hgs hg] at ha
        obtain rfl : g.getLast hg = a := by simpa using ha
        simpa [Clusters.near] using hnear
      have hall : ∀ e ∈ es, e.ts ≤ (g.getLast hg).t := by
        intro e he
        rw [hes] at he
        rcases List.mem_append.mp he with he | he
        · have := hbelow e he
          omega
        · rw [List.mem_singleton.mp he, hts]
      rw [prevEvent_none fun e he => by have := hall e he; omega]
      refine ⟨by simp [hopen, h.eq],
        List.pairwise_append.mpr ⟨h.rising, List.pairwise_singleton _ _, ?_⟩⟩
      intro e he x hx
      rw [List.mem_singleton.mp hx, eventOf_ts hlast]
      have := hall e he
      have hgap : 0 < RUN_GAP := by decide
      omega

/-- Several runs of new lines. -/
theorem Told.runs {T : List Line} {es : List Event} (h : Told T es) {gs : List (List Line)}
    (hne : ∀ g ∈ gs, g ≠ []) (hchain : ∀ g ∈ gs, g.IsChain fun a b => soon a b)
    (hord : (T ++ gs.flatten).Pairwise fun a b => a.t ≤ b.t) :
    Told (T ++ gs.flatten) (gs.foldl storeRun es) := by
  induction gs generalizing T es with
  | nil => simpa using h
  | cons g gs ih =>
    rw [List.flatten_cons, ← List.append_assoc] at hord ⊢
    have hfirst := h.run (hne g (by simp)) (hchain g (by simp)) (List.pairwise_append.mp hord).1
    exact ih hfirst (fun x hx => hne x (List.mem_cons_of_mem _ hx))
      (fun x hx => hchain x (List.mem_cons_of_mem _ hx)) hord

theorem Told.report {T : List Line} {s : Panel} (h : Told T s.events)
    (hk : Knows T s.row.evTs s.row.evKeys) (b : Report) :
    Told (T ++ (scan s.row b.1 b.2).fresh) (storeEvents s b.1 b.2).events := by
  unfold storeEvents
  simp only [runs_eq]
  have hflat := List.flatten_splitBy soon (scan s.row b.1 b.2).fresh
  have hord := (hk.report b.1 b.2).ordered
  rw [← hflat] at hord
  have htold := h.runs (fun g hg => List.ne_nil_of_mem_splitBy hg)
    (fun g hg => List.isChain_of_mem_splitBy hg) hord
  rwa [hflat] at htold

theorem Told.reports {T : List Line} {s : Panel} (h : Told T s.events)
    (hk : Knows T s.row.evTs s.row.evKeys) (bs : List Report) :
    Told (T ++ taken s.row bs) (stored s bs).events := by
  induction bs generalizing T s with
  | nil => simpa [taken, stored] using h
  | cons b bs ih =>
    have hrest := ih (h.report hk b) (hk.report b.1 b.2)
    rw [List.append_assoc] at hrest
    exact hrest

/-- The timeline does not depend on how the reports cut the journal: after any reports its
events are those of the taken lines cut into runs at once, and each names a package once. -/
theorem timeline_of_lines (bs : List Report) :
    (stored .new bs).events = ((taken .new bs).splitBy soon).map eventOf ∧
    (stored .new bs).events.Pairwise (fun a b => a.ts < b.ts) ∧
    ∀ e ∈ (stored .new bs).events, (e.data.map Item.p).Nodup ∧ e.n = e.data.length ∧
      e.text = text e.data := by
  have hnew : Told [] Panel.new.events := ⟨by simp [Panel.new], by simp [Panel.new]⟩
  have htold := hnew.reports knows_new bs
  rw [List.nil_append] at htold
  refine ⟨htold.eq, htold.rising, ?_⟩
  intro e he
  rw [htold.eq] at he
  obtain ⟨run, -, rfl⟩ := List.mem_map.mp he
  exact ⟨nodup_merge _, rfl, rfl⟩

end Kervax.Packages
