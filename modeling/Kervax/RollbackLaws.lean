-- The laws of the rollback of a server: what a failed server leaves behind,
-- and exactly when the rest of the tick is as if it had been skipped.
import Kervax.Rollback

namespace Kervax

open Journal

variable {V : Type}

/-! ## What one server adds to the tick -/

/-- The part of the shared state that one server writes. -/
structure Slice (V : Type) where
  lanes : Lane → List V := fun _ => []
  state : String → Option V
  changed : Bool := false
  closed : Option (List String) := none

/-- An effect, as the server alone sees it. -/
def Slice.exec (x : Slice V) : Eff V → Slice V
  | .queue l v => { x with lanes := push x.lanes l v }
  | .apply key value =>
    { x with state := Function.update x.state key (some value), changed := true }
  | .onboardClosed made => { x with closed := some made }
  | .onboarding | .dev | .probe => x

/-- What the server adds to the tick `t`: all its effects, or, when it raises,
those that the rollback leaves. -/
def queued (t : Tick V) (s : Srv V) : Slice V :=
  let x := (effects t s).foldl Slice.exec { state := t.cur s.id }
  if raises t s then
    { lanes := fun l => if l ∈ rolledBack then [] else x.lanes l, state := t.cur s.id }
  else x

/-- The tick `t'` is the tick `t` with the part `x` of server `i` added. -/
structure Grown (t : Tick V) (i : Nat) (x : Slice V) (t' : Tick V) : Prop where
  book : ∀ l, t'.book l = t.book l ++ (x.lanes l).map (i, ·)
  cur : t'.cur = Function.update t.cur i x.state
  changed : t'.changed = if x.changed then insert i t.changed else t.changed
  closed : t'.onboardClosed = Function.update t.onboardClosed i x.closed

/-- The tick holds nothing of server `i` yet. -/
structure Fresh (t : Tick V) (i : Nat) : Prop where
  book : ∀ l, ∀ e ∈ t.book l, e.1 ≠ i
  changed : i ∉ t.changed
  closed : t.onboardClosed i = none

theorem Grown.exec {t t' : Tick V} {i : Nat} {x : Slice V} (h : Grown t i x t') (e : Eff V) :
    Grown t i (x.exec e) (exec i t' e) := by
  obtain ⟨h1, h2, h3, h4⟩ := h
  rcases e with ⟨l, v⟩ | ⟨key, value⟩ | made | _ | _ | _
  · refine ⟨fun k => ?_, h2, h3, h4⟩
    simp only [Slice.exec, Kervax.exec]
    by_cases hk : k = l
    · subst hk
      rw [push_self, push_self, h1, List.map_append, List.append_assoc]
      rfl
    · rw [push_ne _ _ hk, push_ne _ _ hk, h1]
  · refine ⟨h1, ?_, ?_, h4⟩
    · simp [Slice.exec, Kervax.exec, h2]
    · simp only [Slice.exec, Kervax.exec, h3]
      split <;> simp
  · refine ⟨h1, h2, h3, ?_⟩
    simp [Slice.exec, Kervax.exec, h4]
  · exact ⟨h1, h2, h3, h4⟩
  · exact ⟨h1, h2, h3, h4⟩
  · exact ⟨h1, h2, h3, h4⟩

theorem Grown.foldl {t t' : Tick V} {i : Nat} {x : Slice V} (es : List (Eff V))
    (h : Grown t i x t') : Grown t i (es.foldl Slice.exec x) (es.foldl (Kervax.exec i) t') := by
  induction es generalizing x t' with
  | nil => exact h
  | cons e es ih => exact ih (h.exec e)

theorem Fresh.evaluated {t : Tick V} {s : Srv V} (h : Fresh t s.id) :
    Grown t s.id ((effects t s).foldl Slice.exec { state := t.cur s.id }) (evaluated t s) := by
  refine Grown.foldl _ ⟨fun l => by simp, by simp, by simp, ?_⟩
  funext j
  by_cases hj : j = s.id
  · subst hj
    simp [h.closed]
  · simp [hj]

/-- One turn of the loop adds what the server queues, and nothing else. -/
theorem Fresh.step {t : Tick V} {s : Srv V} (h : Fresh t s.id) :
    Grown t s.id (queued t s) (step t s) := by
  have hev := h.evaluated
  unfold queued Kervax.step
  by_cases hr : raises t s = true
  · simp only [hr, if_true]
    have hext : Extends t.book (Kervax.evaluated t s).book := fun l => ⟨_, hev.book l⟩
    refine ⟨fun l => ?_, ?_, ?_, ?_⟩
    · by_cases hl : l ∈ rolledBack
      · simp only [hl, if_true, List.map_nil, List.append_nil]
        exact cut_of_mem hext hl
      · simp only [hl, if_false]
        rw [cut_of_not_mem hl, hev.book]
    · simp [hev.cur]
    · simp only [h.changed, if_false, Bool.false_eq_true, hev.changed]
      split
      · exact Finset.erase_insert h.changed
      · exact Finset.erase_eq_of_notMem h.changed
    · simp [hev.closed]
  · simp only [hr]
    exact hev

/-- What another server adds leaves the tick without anything of server `i`. -/
theorem Fresh.grown {t t' : Tick V} {i j : Nat} {x : Slice V} (h : Fresh t i)
    (hg : Grown t j x t') (hij : i ≠ j) : Fresh t' i := by
  refine ⟨fun l e he => ?_, ?_, ?_⟩
  · rw [hg.book] at he
    rcases List.mem_append.mp he with h' | h'
    · exact h.book l e h'
    · obtain ⟨v, -, rfl⟩ := List.mem_map.mp h'
      exact hij.symm
  · rw [hg.changed]
    split
    · simp [hij, h.changed]
    · exact h.changed
  · rw [hg.closed, Function.update_of_ne hij, h.closed]

/-! ## The slice of a server after the tick -/

/-- The part of server `i` in a tick. -/
def slice (t : Tick V) (i : Nat) : Slice V :=
  { lanes := fun l => ((t.book l).filter (·.1 = i)).map (·.2)
    state := t.cur i
    changed := i ∈ t.changed
    closed := t.onboardClosed i }

theorem slice_fresh {t : Tick V} {i : Nat} (h : Fresh t i) : slice t i = { state := t.cur i } := by
  have hbook : ∀ l, (t.book l).filter (·.1 = i) = [] := fun l =>
    List.filter_eq_nil_iff.mpr fun e he => by simpa using h.book l e he
  simp only [slice, hbook, List.map_nil, h.changed, decide_false, h.closed]

theorem slice_grown_self {t t' : Tick V} {i : Nat} {x : Slice V} (h : Fresh t i)
    (hg : Grown t i x t') : slice t' i = x := by
  have hbook : ∀ l, (t.book l).filter (·.1 = i) = [] := fun l =>
    List.filter_eq_nil_iff.mpr fun e he => by simpa using h.book l e he
  unfold slice
  rw [hg.cur, hg.closed, hg.changed]
  rcases x with ⟨lanes, state, changed, closed⟩
  simp only [Slice.mk.injEq, Function.update_self, and_true, true_and]
  constructor
  · funext l
    simp [hg.book, hbook, List.filter_map, Function.comp_def]
  · rcases changed with _ | _ <;> simp [h.changed]

theorem slice_grown_ne {t t' : Tick V} {i j : Nat} {x : Slice V} (hg : Grown t j x t')
    (hij : i ≠ j) : slice t' i = slice t i := by
  unfold slice
  rw [hg.cur, hg.closed, hg.changed]
  simp only [Slice.mk.injEq, Function.update_of_ne hij, and_true, true_and]
  constructor
  · funext l
    simp [hg.book, List.filter_map, Function.comp_def, Ne.symm hij]
  · split <;> simp [hij]

/-- A server that is not in the list keeps its slice. -/
theorem slice_evalServers {ss : List (Srv V)} {t : Tick V} {i : Nat} (hi : i ∉ ss.map Srv.id)
    (hnd : (ss.map Srv.id).Nodup) (hfresh : ∀ s ∈ ss, Fresh t s.id) :
    slice (evalServers t ss) i = slice t i := by
  induction ss generalizing t with
  | nil => rfl
  | cons s ss ih =>
    simp only [List.map_cons, List.mem_cons, not_or] at hi
    obtain ⟨hs, hss⟩ := List.nodup_cons.mp hnd
    have hg := (hfresh s List.mem_cons_self).step
    have := ih hi.2 hss (t := step t s) fun s' hs' =>
      (hfresh s' (List.mem_cons_of_mem _ hs')).grown hg fun he =>
        hs (he ▸ List.mem_map_of_mem hs')
    unfold evalServers at this ⊢
    rw [List.foldl_cons, this, slice_grown_ne hg hi.1]

/-! ## The marks -/

/-- The marks give every message of the lane to the server that queued it. -/
def Owned (t : Tick V) (lane : Lane) (at' : Mark → Nat) : Prop :=
  messageOwners t lane at' = (t.book lane).map (·.1)

theorem exec_marks (i : Nat) (es : List (Eff V)) (t : Tick V) :
    (es.foldl (exec i) t).marks = t.marks := by
  induction es generalizing t with
  | nil => rfl
  | cons e es ih =>
    rw [List.foldl_cons, ih]
    rcases e with _ | _ | _ | _ | _ | _ <;> rfl

/-- A turn of the loop leaves one mark more, with or without a rollback. -/
theorem step_marks (t : Tick V) (s : Srv V) :
    (step t s).marks = t.marks ++ [markOf t s.id] := by
  have hev : (evaluated t s).marks = t.marks ++ [markOf t s.id] := exec_marks _ _ _
  unfold step
  by_cases hr : raises t s = true
  · simp [hr, hev]
  · simp [hr, hev]

theorem Owned.step {t : Tick V} {s : Srv V} {lane : Lane} {at' : Mark → Nat}
    (h : Owned t lane at') (hat : at' (markOf t s.id) = (t.book lane).length)
    (hfresh : Fresh t s.id) : Owned (step t s) lane at' := by
  have hg := hfresh.step.book lane
  unfold Owned messageOwners at h ⊢
  rw [step_marks, List.map_append, List.map_cons, List.map_nil, owners_snoc, hat, hg, h]
  simp [Function.comp_def, markOf]

theorem owned_evalServers {ss : List (Srv V)} {t : Tick V} {lane : Lane} {at' : Mark → Nat}
    (hat : ∀ (t : Tick V) (i : Nat), at' (markOf t i) = (t.book lane).length)
    (hnd : (ss.map Srv.id).Nodup) (hfresh : ∀ s ∈ ss, Fresh t s.id) (h : Owned t lane at') :
    Owned (evalServers t ss) lane at' := by
  induction ss generalizing t with
  | nil => exact h
  | cons s ss ih =>
    obtain ⟨hs, hss⟩ := List.nodup_cons.mp hnd
    have hs' := hfresh s List.mem_cons_self
    refine ih hss (fun s' hs'' => ?_) (h.step (hat t s.id) hs')
    exact (hfresh s' (List.mem_cons_of_mem _ hs'')).grown hs'.step fun he =>
      hs (he ▸ List.mem_map_of_mem hs'')

/-! ## When the rest of the tick is as if the failed servers were skipped -/

/-- After the loop the queues, the alert states and the closed onboardings are
those of a run without the failed servers, and the marks give each message to
the server that queued it. -/
structure RolledBack (t u : Tick V) : Prop where
  book : t.book = u.book
  cur : t.cur = u.cur
  changed : t.changed = u.changed
  closed : t.onboardClosed = u.onboardClosed
  fires : Owned t .fires Mark.fires
  recoveries : Owned t .recoveries Mark.recoveries

/-- What the server queues is the same with `probes` left in place of those of the tick. -/
def SameWith (t : Tick V) (probes : Nat) (s : Srv V) : Prop :=
  queued t s = queued { t with probesLeft := probes } s

/-- No failed server had queued a change of the term of a mute, and the probes that the failed
ones had spent change nothing for the others. `probes` is what would be left without them. -/
def CleanFrom (t : Tick V) (probes : Nat) : List (Srv V) → Prop
  | [] => True
  | s :: ss =>
    if raises t s then
      (∀ v, Eff.queue .snoozePut v ∉ effects t s) ∧ CleanFrom (step t s) probes ss
    else
      SameWith t probes s ∧
        CleanFrom (step t s) (step { t with probesLeft := probes } s).probesLeft ss

/-- What a server does depends on its alert state and on the probes. -/
theorem does_congr {t u : Tick V} {s : Srv V} (hcur : t.cur s.id = u.cur s.id)
    (hprobes : t.probesLeft = u.probesLeft) :
    effects t s = effects u s ∧ raises t s = raises u s := by
  unfold effects raises
  rw [hcur, hprobes]
  exact ⟨rfl, rfl⟩

/-- So does what it queues. -/
theorem queued_congr {t u : Tick V} {s : Srv V} (hcur : t.cur s.id = u.cur s.id)
    (hprobes : t.probesLeft = u.probesLeft) : queued t s = queued u s := by
  obtain ⟨heff, hraises⟩ := does_congr hcur hprobes
  rw [queued, queued, heff, hraises, hcur]

theorem exec_probes (i : Nat) {es : List (Eff V)} {t u : Tick V}
    (h : t.probesLeft = u.probesLeft) :
    (es.foldl (exec i) t).probesLeft = (es.foldl (exec i) u).probesLeft := by
  induction es generalizing t u with
  | nil => exact h
  | cons e es ih =>
    refine ih ?_
    rcases e with _ | _ | _ | _ | _ | _
    case probe => exact congrArg (· - 1) h
    all_goals exact h

theorem step_probes (t : Tick V) (s : Srv V) :
    (step t s).probesLeft = (evaluated t s).probesLeft := by
  unfold step
  split <;> rfl

/-- And so do the probes that it leaves. -/
theorem step_probes_congr {t u : Tick V} {s : Srv V} (hcur : t.cur s.id = u.cur s.id)
    (hprobes : t.probesLeft = u.probesLeft) : (step t s).probesLeft = (step u s).probesLeft := by
  obtain ⟨heff, -⟩ := does_congr hcur hprobes
  rw [step_probes, step_probes, evaluated, evaluated, heff]
  exact exec_probes s.id hprobes

theorem snooze_of_effects (es : List (Eff V)) (x : Slice V) :
    (es.foldl Slice.exec x).lanes .snoozePut = x.lanes .snoozePut ↔
      ∀ v, Eff.queue .snoozePut v ∉ es := by
  have hgrow : ∀ (es : List (Eff V)) (x : Slice V), ∃ vs : List V,
      (es.foldl Slice.exec x).lanes .snoozePut = x.lanes .snoozePut ++ vs := by
    intro es
    induction es with
    | nil => exact fun x => ⟨[], by simp⟩
    | cons e es ih =>
      intro x
      obtain ⟨vs, hvs⟩ := ih (x.exec e)
      have hext : ∃ ws, (x.exec e).lanes .snoozePut = x.lanes .snoozePut ++ ws := by
        rcases e with ⟨l, v⟩ | _ | _ | _ | _ | _
        · exact ((Extends.refl x.lanes).push l v) .snoozePut
        all_goals exact ⟨[], by simp [Slice.exec]⟩
      obtain ⟨ws, hws⟩ := hext
      exact ⟨ws ++ vs, by rw [List.foldl_cons, hvs, hws, List.append_assoc]⟩
  induction es generalizing x with
  | nil => simp
  | cons e es ih =>
    have hcons : (x.exec e).lanes .snoozePut = x.lanes .snoozePut ∨
        ∃ v, e = .queue .snoozePut v ∧
          (x.exec e).lanes .snoozePut = x.lanes .snoozePut ++ [v] := by
      rcases e with ⟨l, v⟩ | _ | _ | _ | _ | _
      · by_cases hl : l = .snoozePut
        · subst hl
          exact Or.inr ⟨v, rfl, push_self x.lanes .snoozePut v⟩
        · exact Or.inl (push_ne _ _ (Ne.symm hl))
      all_goals exact Or.inl rfl
    rw [List.foldl_cons]
    rcases hcons with h | ⟨v, rfl, h⟩
    · have hih := ih (x.exec e)
      rw [h] at hih
      refine hih.trans ⟨?_, ?_⟩
      · intro hno v hv
        rcases List.mem_cons.mp hv with rfl | hv
        · simp [Slice.exec, push_self] at h
        · exact hno v hv
      · exact fun hno v hv => hno v (List.mem_cons_of_mem _ hv)
    · obtain ⟨vs, hvs⟩ := hgrow es (x.exec (.queue .snoozePut v))
      rw [hvs, h]
      constructor
      · intro heq
        have := congrArg List.length heq
        simp at this
      · exact fun hno => absurd List.mem_cons_self (hno v)

/-- A failed server leaves nothing exactly when it had queued no change of the
term of a mute. -/
theorem queued_of_raises {t : Tick V} {s : Srv V} (hr : raises t s = true) :
    queued t s = { state := t.cur s.id } ↔ ∀ v, Eff.queue .snoozePut v ∉ effects t s := by
  rw [← snooze_of_effects (effects t s) { state := t.cur s.id }]
  simp only [queued, hr, if_true, Slice.mk.injEq, and_true]
  constructor
  · intro h
    simpa [rolledBack] using congrFun h .snoozePut
  · intro h
    funext l
    by_cases hl : l ∈ rolledBack
    · simp [hl]
    · have : l = .snoozePut := by rcases l <;> first | rfl | exact absurd (by decide) hl
      subst this
      simpa [hl] using h

/-- Two ticks that agree on all that the servers queue. -/
structure Agree (t u : Tick V) : Prop where
  book : t.book = u.book
  cur : t.cur = u.cur
  changed : t.changed = u.changed
  closed : t.onboardClosed = u.onboardClosed

theorem Agree.grown {t u t' u' : Tick V} {i : Nat} {x : Slice V} (h : Agree t u)
    (ht : Grown t i x t') (hu : Grown u i x u') : Agree t' u' := by
  refine ⟨?_, ?_, ?_, ?_⟩
  · funext l
    rw [ht.book, hu.book, h.book]
  · rw [ht.cur, hu.cur, h.cur]
  · rw [ht.changed, hu.changed, h.changed]
  · rw [ht.closed, hu.closed, h.closed]

/-- A failed server that leaves nothing leaves the tick as it was. -/
theorem Agree.nothing {t u t' : Tick V} {i : Nat} (h : Agree t u) (hfresh : Fresh t i)
    (ht : Grown t i { state := t.cur i } t') : Agree t' u := by
  refine ⟨?_, ?_, ?_, ?_⟩
  · funext l
    rw [ht.book, h.book]
    simp
  · rw [ht.cur, Function.update_eq_self, h.cur]
  · rw [ht.changed, h.changed]
    simp
  · rw [ht.closed, ← h.closed, ← hfresh.closed, Function.update_eq_self]

theorem Agree.slice {t u : Tick V} (h : Agree t u) (i : Nat) : slice t i = slice u i := by
  unfold Kervax.slice
  rw [h.book, h.cur, h.changed, h.closed]

theorem Fresh.agree {t u : Tick V} {i : Nat} (h : Fresh t i) (ha : Agree t u) : Fresh u i :=
  ⟨fun l => ha.book ▸ h.book l, ha.changed ▸ h.changed, ha.closed ▸ h.closed⟩

theorem survivors_sublist (t : Tick V) (ss : List (Srv V)) :
    ((survivors t ss).map Srv.id).Sublist (ss.map Srv.id) := by
  induction ss generalizing t with
  | nil => exact List.Sublist.refl _
  | cons s ss ih =>
    unfold survivors
    split
    · exact (ih _).cons _
    · exact (ih _).cons_cons _

/-- The two runs agree at the end exactly when no failed server left anything
and none changed what a later one queues. -/
theorem agree_iff_cleanFrom {ss : List (Srv V)} {t u : Tick V} (hnd : (ss.map Srv.id).Nodup)
    (ht : ∀ s ∈ ss, Fresh t s.id) (h : Agree t u) :
    Agree (evalServers t ss) (evalServers u (survivors t ss)) ↔
      CleanFrom t u.probesLeft ss := by
  induction ss generalizing t u with
  | nil => exact ⟨fun _ => trivial, fun _ => h⟩
  | cons s ss ih =>
    obtain ⟨hs, hss⟩ := List.nodup_cons.mp hnd
    have hts := ht s List.mem_cons_self
    have hus := hts.agree h
    have hne : ∀ s' ∈ ss, s'.id ≠ s.id := fun s' hs' he => hs (he ▸ List.mem_map_of_mem hs')
    have htail : ∀ s' ∈ ss, Fresh t s'.id := fun s' hs' => ht s' (List.mem_cons_of_mem _ hs')
    have ht' : ∀ s' ∈ ss, Fresh (step t s) s'.id := fun s' hs' =>
      (htail s' hs').grown hts.step (hne s' hs')
    have hsurv : s.id ∉ (survivors (step t s) ss).map Srv.id := fun hm =>
      hs ((survivors_sublist _ _).subset hm)
    have hsnd : ((survivors (step t s) ss).map Srv.id).Nodup := hss.sublist (survivors_sublist _ _)
    have hmem : ∀ s' ∈ survivors (step t s) ss, ∃ r ∈ ss, r.id = s'.id := fun s' hs' => by
      simpa using (survivors_sublist (step t s) ss).subset (List.mem_map_of_mem hs')
    -- no later turn touches the slice of `s`
    have hslice_t : slice (evalServers (step t s) ss) s.id = queued t s := by
      rw [slice_evalServers hs hss ht', slice_grown_self hts hts.step]
    have hcons : evalServers t (s :: ss) = evalServers (step t s) ss := rfl
    rw [hcons]
    by_cases hr : raises t s = true
    · simp only [survivors, CleanFrom, hr, if_true]
      have hslice_u : slice (evalServers u (survivors (step t s) ss)) s.id =
          { state := u.cur s.id } := by
        rw [slice_evalServers hsurv hsnd, slice_fresh hus]
        intro s' hs'
        obtain ⟨r, hr', he⟩ := hmem s' hs'
        exact he ▸ (htail r hr').agree h
      constructor
      · intro hagree
        have hq : queued t s = { state := t.cur s.id } := by
          rw [← hslice_t, hagree.slice, hslice_u, h.cur]
        refine ⟨(queued_of_raises hr).mp hq, ?_⟩
        exact (ih hss ht' (h.nothing hts (hq ▸ hts.step))).mp hagree
      · rintro ⟨hno, hclean⟩
        have hq := (queued_of_raises hr).mpr hno
        exact (ih hss ht' (h.nothing hts (hq ▸ hts.step))).mpr hclean
    · simp only [survivors, CleanFrom, hr]
      have hconsu : evalServers u (s :: survivors (step t s) ss) =
          evalServers (step u s) (survivors (step t s) ss) := rfl
      rw [if_neg (by simp), if_neg (by simp), hconsu]
      have hslice_u : slice (evalServers (step u s) (survivors (step t s) ss)) s.id =
          queued u s := by
        rw [slice_evalServers hsurv hsnd, slice_grown_self hus hus.step]
        intro s' hs'
        obtain ⟨r, hr', he⟩ := hmem s' hs'
        exact he ▸ ((htail r hr').agree h).grown hus.step (hne r hr')
      -- the run without the failed servers differs from this one in its probes only
      have hcur : t.cur s.id = u.cur s.id := by rw [h.cur]
      have hother : queued { t with probesLeft := u.probesLeft } s = queued u s :=
        queued_congr hcur rfl
      have hleft : (step { t with probesLeft := u.probesLeft } s).probesLeft =
          (step u s).probesLeft := step_probes_congr hcur rfl
      rw [SameWith, hother, hleft]
      constructor
      · intro hagree
        have hq : queued t s = queued u s := by rw [← hslice_t, hagree.slice, hslice_u]
        exact ⟨hq, (ih hss ht' (h.grown hts.step (hq ▸ hus.step))).mp hagree⟩
      · rintro ⟨hq, hclean⟩
        exact (ih hss ht' (h.grown hts.step (hq ▸ hus.step))).mpr hclean

/-- The loop over the servers of a tick rolls every failed server back whole
exactly when no failed server had queued a change of the term of a mute, and
the probes that failed servers had spent change nothing for the others. -/
theorem rolledBack_iff_cleanFrom (cur : Nat → String → Option V) (probes : Nat) (ss : List (Srv V))
    (hnd : (ss.map Srv.id).Nodup) :
    RolledBack (evalServers (.start cur probes) ss)
        (evalServers (.start cur probes) (survivors (.start cur probes) ss)) ↔
      CleanFrom (.start cur probes) probes ss := by
  have hfresh : ∀ s ∈ ss, Fresh (Tick.start cur probes) s.id := fun s _ =>
    ⟨fun l e he => (List.not_mem_nil he).elim, by simp [Tick.start], rfl⟩
  have hself : Agree (Tick.start cur probes) (Tick.start cur probes) := ⟨rfl, rfl, rfl, rfl⟩
  refine Iff.trans ?_ (agree_iff_cleanFrom hnd hfresh hself)
  constructor
  · exact fun h => ⟨h.book, h.cur, h.changed, h.closed⟩
  · intro h
    exact ⟨h.book, h.cur, h.changed, h.closed,
      owned_evalServers (fun _ _ => rfl) hnd hfresh rfl,
      owned_evalServers (fun _ _ => rfl) hnd hfresh rfl⟩

/-- A server whose mute runs out: it queues the change of the term, notes it in
its alert state, and then its evaluation raises. -/
def muteThenRaise : Srv String where
  id := 1
  oneServer := fun _ _ =>
    ([.queue .snoozePut "cpu", .apply "mute_over" "cpu", .queue .fires "cpu"], true)

/-- A server that spends a probe and then raises. -/
def probeThenRaise : Srv String where
  id := 2
  oneServer := fun _ _ => ([.probe, .queue .fires "load"], true)

/-- A server that says that it is silent when a probe is left to ask it. -/
def silent : Srv String where
  id := 3
  oneServer := fun _ probes =>
    (if probes = 0 then [] else [.probe, .queue .fires "silent", .apply "silent" "since"], false)

theorem rolledBack_iff_cleanFrom_mute :
    RolledBack (evalServers (.start (fun _ _ => none) 1) [muteThenRaise, probeThenRaise, silent])
        (evalServers (.start (fun _ _ => none) 1)
          (survivors (.start (fun _ _ => none) 1) [muteThenRaise, probeThenRaise, silent])) ↔
      CleanFrom (.start (fun _ _ => none) 1) 1 [muteThenRaise, probeThenRaise, silent] :=
  rolledBack_iff_cleanFrom (fun _ _ => none) 1 [muteThenRaise, probeThenRaise, silent] (by decide)

/-- The change of the term stays queued, though the server was rolled back. -/
theorem a_failed_server_keeps_its_mute_change :
    ¬ ∀ (cur : Nat → String → Option String) (probes : Nat) (ss : List (Srv String)),
      (ss.map Srv.id).Nodup →
        RolledBack (evalServers (.start cur probes) ss)
          (evalServers (.start cur probes) (survivors (.start cur probes) ss)) := by
  intro h
  have hbook := (h (fun _ _ => none) 3 [muteThenRaise] (by decide)).book
  have := congrFun hbook .snoozePut
  exact absurd this (by decide)

end Kervax
