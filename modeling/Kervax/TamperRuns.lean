-- Which signs of a page are there after an observation, and what the buttons settle, over
-- every run of observations, walls, failures and buttons on one site.
import Kervax.Tamper
import Mathlib.Data.List.Induction

namespace Kervax.Tamper

/-! ## Runs -/

/-- What happens to the state of a site. `files` is the stage of the site's files, which puts
and takes away its two signs. -/
inductive Event
  | parsed (o : Obs) (now : Int) (fleet : List String) (versions : Versions)
  | walled (who : String) (now : Int)
  | failed (why : String) (now : Int)
  | accept (k : Group) (arg : String)
  | acceptAll
  | later (k : Group) (now : Int)
  | files (php edit : Option Sign)

def putFiles (st : State) (php edit : Option Sign) : State :=
  { st with
    signs := drop (drop st.signs .php) .edit ++ (php.map fun s => (Group.php, s)).toList ++
      (edit.map fun s => (Group.edit, s)).toList }

def apply (w : Outside) (st : State) : Event → State
  | .parsed o now fleet versions => observe w st o now fleet versions
  | .walled who now => walled st who now
  | .failed why now => failed st why now
  | .accept k arg => accept w st k arg
  | .acceptAll => acceptAll w st
  | .later k now => later st k now
  | .files php edit => putFiles st php edit

def run (w : Outside) (evs : List Event) : State := evs.foldl (apply w) State.new

@[simp] theorem run_snoc (w : Outside) (evs : List Event) (e : Event) :
    run w (evs ++ [e]) = apply w (run w evs) e := by
  simp [run]

/-- The state, and what the last parsed observation saw. -/
def track (w : Outside) (acc : State × List (Group × Seen)) (e : Event) :
    State × List (Group × Seen) :=
  (apply w acc.1 e, match e with
    | .parsed o now fleet _ => sees w acc.1 o now fleet
    | _ => acc.2)

def lastSeen (w : Outside) (evs : List Event) : List (Group × Seen) :=
  (evs.foldl (track w) (State.new, [])).2

theorem track_state (w : Outside) (evs : List Event) :
    (evs.foldl (track w) (State.new, [])).1 = run w evs := by
  induction evs using List.reverseRecOn with
  | nil => rfl
  | append_singleton evs e ih => simp [track, ih]

theorem lastSeen_snoc (w : Outside) (evs : List Event) (e : Event) :
    lastSeen w (evs ++ [e]) =
      match e with
      | .parsed o now fleet _ => sees w (run w evs) o now fleet
      | _ => lastSeen w evs := by
  have h := track_state w evs
  simp only [lastSeen, List.foldl_append, List.foldl_cons, List.foldl_nil]
  cases e <;> simp [track, h]

/-! ## Lookups -/

section Lookups

variable {α : Type} (d : List (Group × α)) (k j : Group)

@[simp] theorem lookup_drop : (drop d k).lookup j = if j = k then none else d.lookup j := by
  unfold drop
  have h := Dict.lookup_filter_keys (fun i => decide (i ≠ k)) d j
  rw [h]
  by_cases hj : j = k <;> simp [hj]

theorem mem_keys_iff : k ∈ Dict.keys d ↔ ∃ a, d.lookup k = some a := by
  rw [← Option.isSome_iff_exists, Option.isSome_iff_ne_none, Ne, Dict.lookup_eq_none, not_not]

theorem lookup_out (ks : List Group) : (d.filter fun kv => kv.1 ∉ ks).lookup j =
    if j ∈ ks then none else d.lookup j := by
  have h := Dict.lookup_filter_keys (fun i => decide (i ∉ ks)) d j
  rw [h]
  by_cases hj : j ∈ ks <;> simp [hj]

end Lookups

/-! ## The groups of the page after an observation -/

/-- The sign of a group, by what is seen of it, its sign and its suspicion before. -/
def signAfter (s : Option Seen) (sign : Option Sign) (since : Option Int) (k : Group) (now : Int) :
    Option Sign :=
  match s, sign, since with
  | none, _, _ => none
  | some s, some prev, _ => some (goesOn prev s k now)
  | some s, none, some since => some (confirmed s since)
  | some _, none, none => none

def pendAfter (s : Option Seen) (sign : Option Sign) (since : Option Int) (now : Int) : Option Int :=
  match s, sign, since with
  | none, _, _ => none
  | some _, some _, since => since
  | some _, none, some _ => none
  | some _, none, none => some now

variable {seen : List (Group × Seen)} {now : Int}
  {acc : List (Group × Sign) × List (Group × Int)} {k j : Group}

theorem settle_lookup (k j : Group) :
    (settle seen now acc k).1.lookup j =
      (if j = k then signAfter (seen.lookup k) (acc.1.lookup k) (acc.2.lookup k) k now
        else acc.1.lookup j) ∧
    (settle seen now acc k).2.lookup j =
      if j = k then pendAfter (seen.lookup k) (acc.1.lookup k) (acc.2.lookup k) now
      else acc.2.lookup j := by
  unfold settle
  by_cases hj : j = k
  · subst hj
    cases hs : seen.lookup j with
    | none => simp [signAfter, pendAfter]
    | some s =>
      cases h1 : acc.1.lookup j <;> cases h2 : acc.2.lookup j <;>
        simp [signAfter, pendAfter, Dict.lookup_put, h1]
  · cases hs : seen.lookup k with
    | none => simp [hj]
    | some s =>
      cases h1 : acc.1.lookup k <;> cases h2 : acc.2.lookup k <;>
        simp [Dict.lookup_put, hj]

/-- Each group is settled by itself. -/
theorem settles_lookup {ks : List Group} (hks : ks.Nodup) (j : Group) :
    (ks.foldl (settle seen now) acc).1.lookup j =
      (if j ∈ ks then signAfter (seen.lookup j) (acc.1.lookup j) (acc.2.lookup j) j now
        else acc.1.lookup j) ∧
    (ks.foldl (settle seen now) acc).2.lookup j =
      if j ∈ ks then pendAfter (seen.lookup j) (acc.1.lookup j) (acc.2.lookup j) now
      else acc.2.lookup j := by
  induction ks generalizing acc with
  | nil => simp
  | cons k ks ih =>
    obtain ⟨hk, hks⟩ := List.nodup_cons.mp hks
    rw [List.foldl_cons, (ih hks).1, (ih hks).2, (settle_lookup k j).1, (settle_lookup k j).2]
    by_cases hj : j = k
    · subst hj
      simp [hk]
    · simp [hj]

variable (w : Outside) (st : State) (o : Obs) (fleet : List String) (versions : Versions)

/-- The groups of the page once all four are settled. -/
theorem page_settled (seen : List (Group × Seen)) (now : Int) (j : Group) :
    (pageSigns.foldl (settle seen now) (st.signs, st.pend)).1.lookup j =
      if j ∈ pageSigns then
        signAfter (seen.lookup j) (st.signs.lookup j) (st.pend.lookup j) j now
      else st.signs.lookup j :=
  (settles_lookup (by decide) j).1

theorem observe_sign (hk : k ∈ pageSigns) (now : Int) :
    (observe w st o now fleet versions).signs.lookup k =
      signAfter ((sees w st o now fleet).lookup k) (st.signs.lookup k) (st.pend.lookup k) k now := by
  have h := page_settled st (sees w st o now fleet) now k
  rw [if_pos hk] at h
  have hne : k ≠ .old := by
    rintro rfl
    exact absurd hk (by decide)
  rw [← h]
  unfold observe settleOld
  simp only
  split
  · rw [Dict.lookup_put, if_neg hne]
  · rw [lookup_drop, if_neg hne]

theorem observe_pend (now : Int) :
    (observe w st o now fleet versions).pend.lookup k =
      if k ∈ pageSigns then
        pendAfter ((sees w st o now fleet).lookup k) (st.signs.lookup k) (st.pend.lookup k) now
      else st.pend.lookup k :=
  (settles_lookup (by decide) k).2

theorem observe_files (hk : k ∉ pageSigns) (hold : k ≠ .old) (now : Int) :
    (observe w st o now fleet versions).signs.lookup k = st.signs.lookup k := by
  have h := page_settled st (sees w st o now fleet) now k
  rw [if_neg hk] at h
  rw [← h]
  unfold observe settleOld
  simp only
  split
  · rw [Dict.lookup_put, if_neg hold]
  · rw [lookup_drop, if_neg hold]

/-! ## What a button leaves of the groups -/

/-- The groups that a button on `k` settles: the page as it is has both a size and a title. -/
def settledBy (k : Group) : List Group :=
  if k = .empty ∨ k = .title then [.empty, .title] else [k]

/-- New values of one group only. -/
theorem lookup_at {α : Type} (d : List (Group × α)) (g j : Group) (f : α → α) :
    (d.map fun kv => (kv.1, if kv.1 = g then f kv.2 else kv.2)).lookup j =
      if j = g then (d.lookup j).map f else d.lookup j := by
  have h := Dict.lookup_values (fun i a => if i = g then f a else a) d j
  rw [h]
  by_cases hj : j = g
  · simp [hj]
  · cases d.lookup j <;> simp [hj]

variable (all : Bool) (arg : String)

/-- The domains of the base. -/
def known (st : State) : List (String × String) := (st.base.map Base.domains).getD []

/-- The listed domains that a button on the domains leaves. -/
def leftDomains : List (String × Listed) :=
  (domList st.signs).filter fun d => d.1 ∉ Dict.keys (known (okDomains st all arg))

theorem okDomains_sign : (okDomains st all arg).signs.lookup j =
    if j = .dom then
      if leftDomains st all arg = [] then none
      else (st.signs.lookup .dom).map fun s => { s with list := leftDomains st all arg }
    else st.signs.lookup j := by
  change List.lookup j (if leftDomains st all arg ≠ [] then
    st.signs.map fun kv => (kv.1, if kv.1 = .dom then
      { kv.2 with list := leftDomains st all arg } else kv.2)
    else drop st.signs .dom) = _
  have h := lookup_at st.signs .dom j fun s => { s with list := leftDomains st all arg }
  split
  · next hleft =>
    rw [h]
    by_cases hj : j = .dom <;> simp [hj]
  · next hleft =>
    rw [lookup_drop, if_pos (not_not.mp hleft)]

theorem okDomains_pend : (okDomains st all arg).pend.lookup j =
    if j = .dom ∧ leftDomains st all arg = [] then none else st.pend.lookup j := by
  change List.lookup j (if leftDomains st all arg ≠ [] then st.pend else drop st.pend .dom) = _
  split
  · next h => simp [h]
  · next h => simp [not_not.mp h]

/-- The versions that a button on the versions takes, and those it leaves. -/
def takenVersions : List String :=
  if !all && arg ≠ "" then [arg]
  else (((st.signs.lookup .old).map Sign.items).getD []).map OldItem.what

def accepted : List String :=
  (st.okOld.filter fun v => v ∉ takenVersions st all arg) ++
    (takenVersions st all arg).filter fun v => v ≠ ""

def leftVersions : List OldItem :=
  (((st.signs.lookup .old).map Sign.items).getD []).filter fun it =>
    it.what ∉ accepted st all arg

theorem okVersions_okOld : (okVersions st all arg).okOld =
    (accepted st all arg).drop ((accepted st all arg).length - 20) := by
  unfold okVersions accepted takenVersions
  simp only

theorem okVersions_sign : (okVersions st all arg).signs.lookup j =
    if j = .old then
      if leftVersions st all arg = [] then none
      else (st.signs.lookup .old).map fun s => { s with items := leftVersions st all arg }
    else st.signs.lookup j := by
  change List.lookup j (if leftVersions st all arg ≠ [] then
    st.signs.map fun kv => (kv.1, if kv.1 = .old then
      { kv.2 with items := leftVersions st all arg } else kv.2)
    else drop st.signs .old) = _
  have h := lookup_at st.signs .old j fun s => { s with items := leftVersions st all arg }
  split
  · next hleft =>
    rw [h]
    by_cases hj : j = .old <;> simp [hj]
  · next hleft =>
    rw [lookup_drop, if_pos (not_not.mp hleft)]

/-- A button leaves the other groups as they are. -/
theorem okGroup_others (hj : j ∉ settledBy k) :
    (okGroup w all arg st k).signs.lookup j = st.signs.lookup j ∧
      (okGroup w all arg st k).pend.lookup j = st.pend.lookup j := by
  cases k with
  | empty | title =>
    have hne : j ≠ .empty ∧ j ≠ .title := by simpa [settledBy] using hj
    simp [okGroup, okPage, hne]
  | dom =>
    have hne : j ≠ .dom := by simpa [settledBy] using hj
    simp [okGroup, okDomains_sign, okDomains_pend, hne]
  | bot =>
    have hne : j ≠ .bot := by simpa [settledBy] using hj
    simp [okGroup, okBot, hne]
  | old =>
    have hne : j ≠ .old := by simpa [settledBy] using hj
    refine ⟨?_, rfl⟩
    simp [okGroup, okVersions_sign, hne]
  | php | edit =>
    have hne := List.mem_singleton.not.mp hj
    simp [okGroup, hne]

/-- What a button leaves of the suspicions was there before. -/
theorem okGroup_pend {since : Int} (h : (okGroup w all arg st k).pend.lookup j = some since) :
    st.pend.lookup j = some since := by
  by_cases hj : j ∈ settledBy k
  · cases k with
    | empty | title =>
      obtain rfl | rfl : j = .empty ∨ j = .title := by simpa [settledBy] using hj
      all_goals simp [okGroup, okPage] at h
    | dom =>
      rw [okGroup, okDomains_pend] at h
      split at h
      · cases h
      · exact h
    | bot =>
      rw [List.mem_singleton.mp hj] at h
      simp [okGroup, okBot] at h
    | old | php | edit => exact h
  · rwa [(okGroup_others w st all arg hj).2] at h

/-- A sign that a button leaves was there before, with no version that it did not have. -/
theorem okGroup_sign {s' : Sign} (h : (okGroup w all arg st k).signs.lookup j = some s') :
    ∃ s, st.signs.lookup j = some s ∧ s'.items.Sublist s.items := by
  by_cases hj : j ∈ settledBy k
  · cases k with
    | empty | title =>
      obtain rfl | rfl : j = .empty ∨ j = .title := by simpa [settledBy] using hj
      all_goals simp [okGroup, okPage] at h
    | dom =>
      rw [List.mem_singleton.mp hj, okGroup, okDomains_sign, if_pos rfl] at h
      split at h
      · cases h
      · obtain ⟨s, hs, rfl⟩ := Option.map_eq_some_iff.mp h
        rw [List.mem_singleton.mp hj]
        exact ⟨s, hs, List.Sublist.refl _⟩
    | bot =>
      rw [List.mem_singleton.mp hj] at h
      simp [okGroup, okBot] at h
    | old =>
      rw [List.mem_singleton.mp hj, okGroup, okVersions_sign, if_pos rfl] at h
      split at h
      · cases h
      · obtain ⟨s, hs, rfl⟩ := Option.map_eq_some_iff.mp h
        rw [List.mem_singleton.mp hj]
        refine ⟨s, hs, ?_⟩
        unfold leftVersions
        rw [hs]
        exact List.filter_sublist
    | php | edit =>
      rw [List.mem_singleton.mp hj] at h
      simp [okGroup] at h
  · rw [(okGroup_others w st all arg hj).1] at h
    exact ⟨s', h, List.Sublist.refl _⟩

/-! ## What holds of every state of a run -/

/-- Suspicions are of the page, and of what the last parsed observation saw; a sign of versions
has at most two; a listed domain is not in the base. -/
structure Sane (st : State) (seen : List (Group × Seen)) : Prop where
  pend_page : ∀ k ∈ Dict.keys st.pend, k ∈ pageSigns
  pend_seen : ∀ k ∈ Dict.keys st.pend, k ∈ Dict.keys seen
  versions : ∀ s, st.signs.lookup .old = some s → s.items.length ≤ 2 ∧ ∀ it ∈ s.items, it.what ≠ ""
  listed : ∀ d ∈ Dict.keys (domList st.signs), d ∉ Dict.keys (known st)
  kept : st.okOld.length ≤ 20

theorem okDomains_domList : domList (okDomains st all arg).signs = leftDomains st all arg := by
  unfold domList
  rw [okDomains_sign, if_pos rfl]
  split
  · next h => rw [h]; rfl
  · next h =>
    cases hs : st.signs.lookup .dom with
    | none =>
      have hnone : leftDomains st all arg = [] := by simp [leftDomains, domList, hs]
      exact absurd hnone h
    | some s => rfl

theorem okGroup_domList (hk : k ≠ .dom) :
    domList (okGroup w all arg st k).signs = domList st.signs := by
  have hj : Group.dom ∉ settledBy k := by
    cases k <;> first | exact absurd rfl hk | decide
  unfold domList
  rw [(okGroup_others w st all arg hj).1]

theorem okGroup_known (hk : k ≠ .dom) : known (okGroup w all arg st k) = known st := by
  cases k with
  | empty | title =>
    unfold known okGroup okPage
    cases st.last <;> rfl
  | dom => exact absurd rfl hk
  | bot | old | php | edit => rfl

theorem okGroup_kept (h : st.okOld.length ≤ 20) : (okGroup w all arg st k).okOld.length ≤ 20 := by
  cases k with
  | old =>
    rw [okGroup, okVersions_okOld, List.length_drop]
    omega
  | _ => exact h

variable {w st} {last : List (Group × Seen)}

theorem Sane.okGroup (h : Sane st last) (k : Group) : Sane (okGroup w all arg st k) last where
  pend_page j hj := by
    obtain ⟨since, hs⟩ := (mem_keys_iff _ _).mp hj
    exact h.pend_page j ((mem_keys_iff _ _).mpr ⟨since, okGroup_pend w st all arg hs⟩)
  pend_seen j hj := by
    obtain ⟨since, hs⟩ := (mem_keys_iff _ _).mp hj
    exact h.pend_seen j ((mem_keys_iff _ _).mpr ⟨since, okGroup_pend w st all arg hs⟩)
  versions s' hs' := by
    obtain ⟨s, hs, hsub⟩ := okGroup_sign w st all arg hs'
    exact ⟨hsub.length_le.trans (h.versions s hs).1,
      fun it hit => (h.versions s hs).2 it (hsub.subset hit)⟩
  listed d hd := by
    by_cases hk : k = .dom
    · subst hk
      have hd' : d ∈ Dict.keys (leftDomains st all arg) := by
        rw [← okDomains_domList]
        exact hd
      obtain ⟨e, he, rfl⟩ := List.mem_map.mp hd'
      have hleft := (List.mem_filter.mp he).2
      exact of_decide_eq_true hleft
    · rw [okGroup_domList w st all arg hk] at hd
      rw [okGroup_known w st all arg hk]
      exact h.listed d hd
  kept := okGroup_kept w st all arg h.kept

theorem Sane.okGroups (h : Sane st last) (ks : List Group) :
    Sane (ks.foldl (Tamper.okGroup w all arg) st) last := by
  induction ks generalizing st with
  | nil => exact h
  | cons k ks ih => exact ih (h.okGroup all arg k)

/-! ## What an observation keeps -/

variable (w st)

/-- The sign of versions is what is seen of them. -/
theorem observe_old (now : Int) : (observe w st o now fleet versions).signs.lookup .old =
    if oldSeen w st o now versions = [] then none
    else some ⟨.none, [], oldSeen w st o now versions, [],
      ((st.signs.lookup .old).map Sign.since).getD now⟩ := by
  have h := page_settled st (sees w st o now fleet) now .old
  rw [if_neg (by decide)] at h
  unfold observe settleOld
  simp only [h]
  split
  · simp [Dict.lookup_put]
  · next hold => simp [not_not.mp hold]

/-- The base of an observation, whose size may be drawn towards that of the page. -/
theorem observe_known (now : Int) : known (observe w st o now fleet versions) =
    (baseFor w st o).domains := by
  unfold known observe
  simp only [Option.map_some, Option.getD_some]
  split <;> rfl

theorem oldItems_length (eng : Engine) (now : Int) : (oldItems w eng versions now).length ≤ 2 := by
  unfold oldItems
  rw [List.length_append]
  have h1 := Option.length_toList_le (o := wpVerdict w eng.wp versions.wp)
  have h2 := Option.length_toList_le (o := phpVerdict w eng.php versions.php now)
  omega

theorem append_ne_empty {a : String} (ha : a ≠ "") (b : String) : a ++ b ≠ "" := by
  intro h
  exact ha (String.append_eq_empty_iff.mp h).1

theorem mem_oldItems_what {it : OldItem} {eng : Engine} {now : Int}
    (h : it ∈ oldItems w eng versions now) : it.what ≠ "" := by
  rcases List.mem_append.mp h with h | h
  · rw [Option.mem_toList] at h
    unfold wpVerdict at h
    split at h
    · cases h
    · obtain rfl := Option.some.inj h
      exact append_ne_empty (by decide) _
  · rw [Option.mem_toList] at h
    unfold phpVerdict at h
    cases hphp : versions.php with
    | none => simp [hphp] at h
    | some php =>
      simp only [hphp] at h
      split at h
      · cases h
      · split at h
        · obtain rfl := Option.some.inj h
          exact append_ne_empty (by decide) _
        · obtain ⟨fix, _, rfl⟩ := Option.map_eq_some_iff.mp h
          exact append_ne_empty (by decide) _

/-- Each of the domains gathered is seen now. -/
theorem mem_gather {lst : List (String × Listed)} {new : List (String × String)} {d : String}
    (h : d ∈ Dict.keys (new.foldl (gather now) lst)) : d ∈ Dict.keys lst ∨ d ∈ Dict.keys new := by
  induction new generalizing lst with
  | nil => exact .inl h
  | cons e new ih =>
    rcases ih h with h | h
    · unfold gather at h
      split at h
      · exact .inl h
      · rw [Dict.keys_put] at h
        split at h
        · exact .inl h
        · rcases List.mem_append.mp h with h | h
          · exact .inl h
          · exact .inr (List.mem_cons.mpr (.inl (List.mem_singleton.mp h)))
    · exact .inr (List.mem_cons_of_mem _ h)

theorem observe_domains {now : Int} {d : String}
    (h : d ∈ Dict.keys (domList (observe w st o now fleet versions).signs)) :
    ∃ s, (sees w st o now fleet).lookup .dom = some s ∧ d ∈ Dict.keys s.list := by
  unfold domList at h
  rw [observe_sign w st o fleet versions (by decide)] at h
  cases hs : (sees w st o now fleet).lookup .dom with
  | none => simp [hs, signAfter, Dict.keys] at h
  | some s =>
    refine ⟨s, rfl, ?_⟩
    rw [hs] at h
    cases hsign : st.signs.lookup .dom with
    | some prev =>
      simp only [hsign, signAfter, goesOn, if_true, Option.map_some, Option.getD_some] at h
      rcases mem_gather h with h | h
      · obtain ⟨e, he, rfl⟩ := List.mem_map.mp h
        simpa using (List.mem_filter.mp he).2
      · exact h
    | none =>
      cases hp : st.pend.lookup .dom with
      | none => simp [hsign, hp, signAfter, Dict.keys] at h
      | some since =>
        simpa [hsign, hp, signAfter, confirmed, Dict.keys, Function.comp_def] using h

theorem sees_domains {now : Int} {s : Seen}
    (h : (sees w st o now fleet).lookup .dom = some s) :
    s.list = foreign (baseFor w st o) o (livePost st now) fleet := by
  have hm := (List.mem_filter.mp (Dict.mem_of_lookup h)).1
  rcases List.mem_append.mp hm with hm | hm
  · split at hm
    · cases hm
    · rcases List.mem_append.mp hm with hm | hm
      · repeat' split at hm
        all_goals simp at hm
      · split at hm
        · simp only [List.mem_singleton, Prod.mk.injEq, true_and] at hm
          rw [hm]
        · cases hm
  · obtain ⟨bot, _, hbot⟩ := List.mem_map.mp hm
    cases hbot

theorem Sane.observe (h : Sane st last) (now : Int) :
    Sane (observe w st o now fleet versions) (sees w st o now fleet) where
  pend_page k hk := by
    obtain ⟨since, hs⟩ := (mem_keys_iff _ _).mp hk
    rw [observe_pend] at hs
    by_contra hpage
    rw [if_neg hpage] at hs
    exact hpage (h.pend_page k ((mem_keys_iff _ _).mpr ⟨since, hs⟩))
  pend_seen k hk := by
    obtain ⟨since, hs⟩ := (mem_keys_iff _ _).mp hk
    rw [observe_pend] at hs
    rw [mem_keys_iff]
    cases hseen : (sees w st o now fleet).lookup k with
    | some s => exact ⟨s, rfl⟩
    | none =>
      split at hs
      · simp [hseen, pendAfter] at hs
      · next hpage => exact absurd (h.pend_page k ((mem_keys_iff _ _).mpr ⟨since, hs⟩)) hpage
  versions s hs := by
    rw [observe_old] at hs
    split at hs
    · cases hs
    · obtain rfl := Option.some.inj hs
      refine ⟨?_, ?_⟩
      · exact (List.length_filter_le _ _).trans (oldItems_length w versions o.engine now)
      · intro it hit
        exact mem_oldItems_what w versions (List.mem_filter.mp hit).1
  listed d hd := by
    obtain ⟨s, hs, hmem⟩ := observe_domains w st o fleet versions hd
    rw [sees_domains w st o fleet hs] at hmem
    rw [observe_known]
    obtain ⟨e, he, rfl⟩ := List.mem_map.mp hmem
    have hnew := (List.mem_filter.mp he).2
    simp only [Bool.and_eq_true, decide_eq_true_eq] at hnew
    exact hnew.1.1
  kept := h.kept

/-- A step that takes groups away, and leaves the base and what is accepted. -/
theorem Sane.less {st' : State} (h : Sane st last)
    (hsigns : ∀ k s, st'.signs.lookup k = some s → k = .dom ∨ k = .old → st.signs.lookup k = some s)
    (hpend : ∀ k since, st'.pend.lookup k = some since → st.pend.lookup k = some since)
    (hbase : st'.base = st.base) (hok : st'.okOld = st.okOld) : Sane st' last where
  pend_page k hk := by
    obtain ⟨since, hs⟩ := (mem_keys_iff _ _).mp hk
    exact h.pend_page k ((mem_keys_iff _ _).mpr ⟨since, hpend k since hs⟩)
  pend_seen k hk := by
    obtain ⟨since, hs⟩ := (mem_keys_iff _ _).mp hk
    exact h.pend_seen k ((mem_keys_iff _ _).mpr ⟨since, hpend k since hs⟩)
  versions s hs := h.versions s (hsigns .old s hs (.inr rfl))
  listed d hd := by
    have hknown : known st' = known st := by
      unfold known
      rw [hbase]
    rw [hknown]
    apply h.listed d
    unfold domList at hd ⊢
    cases hs : st'.signs.lookup .dom with
    | none => simp [hs, Dict.keys] at hd
    | some s =>
      rw [hsigns .dom s hs (.inl rfl)]
      rwa [hs] at hd
  kept := by
    rw [hok]
    exact h.kept

theorem lookup_sub_drop {α : Type} {d : List (Group × α)} {a : α}
    (h : (drop d k).lookup j = some a) : d.lookup j = some a := by
  rw [lookup_drop] at h
  split at h
  · cases h
  · exact h

theorem lookup_sub_out {α : Type} {d : List (Group × α)} {a : α} {ks : List Group}
    (h : (d.filter fun kv => kv.1 ∉ ks).lookup j = some a) : d.lookup j = some a := by
  rw [lookup_out] at h
  split at h
  · cases h
  · exact h

theorem later_sub (now : Int) :
    (∀ j s, (later st k now).signs.lookup j = some s → st.signs.lookup j = some s) ∧
    (∀ j since, (later st k now).pend.lookup j = some since → st.pend.lookup j = some since) ∧
    (later st k now).base = st.base ∧ (later st k now).okOld = st.okOld := by
  unfold later
  split
  · exact ⟨fun _ _ h => h, fun _ _ h => h, rfl, rfl⟩
  · exact ⟨fun _ _ h => lookup_sub_drop h, fun _ _ h => lookup_sub_drop h, rfl, rfl⟩

/-- The stage of the files touches its own two signs. -/
theorem putFiles_sign (php edit : Option Sign) (hj : j ≠ .php ∧ j ≠ .edit) :
    (putFiles st php edit).signs.lookup j = st.signs.lookup j := by
  have hne : (j == .php) = false ∧ (j == .edit) = false :=
    ⟨beq_false_of_ne hj.1, beq_false_of_ne hj.2⟩
  cases php <;> cases edit <;> simp [putFiles, List.lookup_append, List.lookup_cons, hj, hne]

/-- What one event preserves. -/
theorem Sane.apply (h : Sane st last) (e : Event) :
    Sane (apply w st e) (match e with
      | .parsed o now fleet _ => sees w st o now fleet
      | _ => last) := by
  cases e with
  | parsed o now fleet versions => exact Sane.observe w st o fleet versions h now
  | walled who now =>
    exact h.less st (fun _ _ hs _ => lookup_sub_out hs) (fun _ _ hs => lookup_sub_out hs) rfl rfl
  | failed why now => exact h.less st (fun _ _ hs _ => hs) (fun _ _ hs => hs) rfl rfl
  | accept k arg => exact h.okGroup false arg k
  | acceptAll => exact h.okGroups true "" _
  | later k now =>
    obtain ⟨hsigns, hpend, hbase, hok⟩ := later_sub (k := k) st now
    exact h.less st (fun j s hs _ => hsigns j s hs) hpend hbase hok
  | files php edit =>
    refine h.less st (fun j s hs hj => ?_) (fun _ _ hs => hs) rfl rfl
    have hne : j ≠ .php ∧ j ≠ .edit := by
      rcases hj with rfl | rfl <;> decide
    rwa [← putFiles_sign st php edit hne]

theorem run_sane (evs : List Event) : Sane (run w evs) (lastSeen w evs) := by
  induction evs using List.reverseRecOn with
  | nil =>
    constructor <;> simp [run, State.new, Dict.keys, domList]
  | append_singleton evs e ih =>
    rw [run_snoc, lastSeen_snoc]
    exact Sane.apply w _ ih e

/-! ## Everything accepted -/

theorem mem_puts (f : String → String) (ds : List String) (doms : List (String × String))
    (d : String) : d ∈ Dict.keys (ds.foldl (fun doms d => Dict.put doms d (f d)) doms) ↔
      d ∈ Dict.keys doms ∨ d ∈ ds := by
  induction ds generalizing doms with
  | nil => simp
  | cons e ds ih =>
    rw [List.foldl_cons, ih, Dict.keys_put]
    split
    · next he =>
      constructor
      · rintro (h | h)
        · exact .inl h
        · exact .inr (List.mem_cons_of_mem _ h)
      · rintro (h | h)
        · exact .inl h
        · rcases List.mem_cons.mp h with rfl | h
          · exact .inl he
          · exact .inr h
    · simp [or_assoc]

theorem okDomains_known (d : String) : d ∈ Dict.keys (known (okDomains st all arg)) ↔
    d ∈ Dict.keys (known st) ∨ d ∈ taken st all arg :=
  mem_puts (srcOf st) (taken st all arg) (known st) d

theorem leftDomains_all : leftDomains st true arg = [] := by
  unfold leftDomains
  rw [List.filter_eq_nil_iff]
  intro e he
  have hmem : e.1 ∈ taken st true arg := by
    simp only [taken, Bool.not_true, Bool.false_and, Bool.false_eq_true, if_false]
    exact List.mem_append_left _ (List.mem_map.mpr ⟨e, he, rfl⟩)
  have hknown := (okDomains_known st true arg e.1).mpr (.inr hmem)
  simpa using hknown

/-- What is taken is accepted. -/
theorem mem_accepted {v : String} (hv : v ∈ takenVersions st all arg) (hne : v ≠ "") :
    v ∈ accepted st all arg :=
  List.mem_append_right _ (List.mem_filter.mpr ⟨hv, decide_eq_true hne⟩)

theorem leftVersions_all (h : Sane st last) : leftVersions st true arg = [] := by
  unfold leftVersions
  rw [List.filter_eq_nil_iff]
  intro it hit
  cases hs : st.signs.lookup .old with
  | none => simp [hs] at hit
  | some s =>
    have hitems : it ∈ s.items := by simpa [hs] using hit
    have htaken : it.what ∈ takenVersions st true arg := by
      simp only [takenVersions, hs, Bool.not_true, Bool.false_and, Bool.false_eq_true, if_false]
      exact List.mem_map.mpr ⟨it, hitems, rfl⟩
    simp [mem_accepted st true arg htaken ((h.versions s hs).2 it hitems)]

/-- What a button settles is gone, when it takes everything. -/
theorem okGroup_settles (h : Sane st last) (hj : j ∈ settledBy k) :
    (okGroup w true "" st k).signs.lookup j = none ∧
      (okGroup w true "" st k).pend.lookup j = none := by
  have hpage : ∀ i, i ∉ pageSigns → st.pend.lookup i = none := by
    intro i hi
    rw [Dict.lookup_eq_none]
    exact fun hmem => hi (h.pend_page i hmem)
  cases k with
  | empty | title =>
    obtain rfl | rfl : j = .empty ∨ j = .title := by simpa [settledBy] using hj
    all_goals simp [okGroup, okPage]
  | dom =>
    rw [List.mem_singleton.mp hj]
    simp [okGroup, okDomains_sign, okDomains_pend, leftDomains_all]
  | bot =>
    rw [List.mem_singleton.mp hj]
    simp [okGroup, okBot]
  | old =>
    rw [List.mem_singleton.mp hj]
    refine ⟨?_, hpage _ (by decide)⟩
    rw [okGroup, okVersions_sign, if_pos rfl, if_pos (leftVersions_all st "" h)]
  | php | edit =>
    rw [List.mem_singleton.mp hj]
    exact ⟨by simp [okGroup], hpage _ (by decide)⟩

/-- A group that is gone stays gone, and a group that is accepted goes. -/
theorem okGroups_gone (h : Sane st last) (ks : List Group)
    (hj : j ∈ ks ∨ st.signs.lookup j = none ∧ st.pend.lookup j = none) :
    (ks.foldl (okGroup w true "") st).signs.lookup j = none ∧
      (ks.foldl (okGroup w true "") st).pend.lookup j = none := by
  induction ks generalizing st with
  | nil => exact hj.resolve_left List.not_mem_nil
  | cons k ks ih =>
    apply ih _ (h.okGroup true "" k)
    by_cases hk : j ∈ settledBy k
    · exact .inr (okGroup_settles w st h hk)
    · rw [(okGroup_others w st true "" hk).1, (okGroup_others w st true "" hk).2]
      refine hj.imp_left fun hmem => ?_
      rcases List.mem_cons.mp hmem with rfl | hmem
      · exact absurd (by cases j <;> decide) hk
      · exact hmem

/-- Once everything is accepted, there is neither a sign nor a suspicion. -/
theorem acceptAll_gone (h : Sane st last) (k : Group) :
    (acceptAll w st).signs.lookup k = none ∧ (acceptAll w st).pend.lookup k = none := by
  apply okGroups_gone w st h
  by_cases hsign : k ∈ Dict.keys st.signs
  · exact .inl (List.mem_append_left _ hsign)
  · by_cases hpend : k ∈ Dict.keys st.pend
    · exact .inl (List.mem_append_right _ hpend)
    · exact .inr ⟨Dict.lookup_eq_none.mpr hsign, Dict.lookup_eq_none.mpr hpend⟩

theorem okVersions_gone (hgone : st.signs.lookup .old = none) (hkept : st.okOld.length ≤ 20) :
    (okVersions st true "").okOld = st.okOld := by
  have htaken : takenVersions st true "" = [] := by simp [takenVersions, hgone]
  have haccepted : accepted st true "" = st.okOld := by simp [accepted, htaken]
  rw [okVersions_okOld, haccepted, Nat.sub_eq_zero_of_le hkept, List.drop_zero]

/-- The versions accepted once everything is accepted do not depend on the other groups. -/
theorem okGroup_versions (h : Sane st last) (k : Group) :
    (okVersions (okGroup w true "" st k) true "").okOld = (okVersions st true "").okOld := by
  by_cases hk : k = .old
  · subst hk
    exact okVersions_gone _ (okGroup_settles w st h (by decide)).1 (h.okGroup true "" .old).kept
  · have hj : Group.old ∉ settledBy k := by
      cases k <;> first | exact absurd rfl hk | decide
    have hsign := (okGroup_others w st true "" hj).1
    have hok : (okGroup w true "" st k).okOld = st.okOld := by
      cases k <;> first | exact absurd rfl hk | rfl
    have htaken : takenVersions (okGroup w true "" st k) true "" = takenVersions st true "" := by
      unfold takenVersions
      rw [hsign]
    have haccepted : accepted (okGroup w true "" st k) true "" = accepted st true "" := by
      unfold accepted
      rw [htaken, hok]
    rw [okVersions_okOld, okVersions_okOld, haccepted]

theorem okGroups_versions (h : Sane st last) (ks : List Group) :
    (okVersions (ks.foldl (okGroup w true "") st) true "").okOld =
      (okVersions st true "").okOld := by
  induction ks generalizing st with
  | nil => rfl
  | cons k ks ih => exact (ih _ (h.okGroup true "" k)).trans (okGroup_versions w st h k)

theorem acceptAll_okOld (h : Sane st last) :
    (acceptAll w st).okOld = (okVersions st true "").okOld := by
  rw [← okGroups_versions w st h]
  exact (okVersions_gone _ (acceptAll_gone w st h .old).1 (h.okGroups true "" _).kept).symm

/-- The versions of a sign. -/
def signedVersions : List String :=
  (((st.signs.lookup .old).map Sign.items).getD []).map OldItem.what

theorem signedVersions_few (h : Sane st last) :
    (signedVersions st).length ≤ 2 ∧ ∀ v ∈ signedVersions st, v ≠ "" := by
  unfold signedVersions
  cases hs : st.signs.lookup .old with
  | none => simp
  | some s =>
    obtain ⟨hlen, hne⟩ := h.versions s hs
    simpa using ⟨hlen, hne⟩

theorem accepted_all (h : Sane st last) : accepted st true "" =
    (st.okOld.filter fun v => v ∉ signedVersions st) ++ signedVersions st := by
  have htaken : takenVersions st true "" = signedVersions st := rfl
  have hall : (signedVersions st).filter (fun v => v ≠ "") = signedVersions st :=
    List.filter_eq_self.mpr fun v hv => decide_eq_true ((signedVersions_few st h).2 v hv)
  unfold accepted
  rw [htaken, hall]

/-- The versions of the sign are accepted, and those accepted before while they are few. -/
theorem mem_acceptAll (h : Sane st last) {v : String}
    (hv : v ∈ signedVersions st ∨ v ∈ st.okOld ∧ st.okOld.length ≤ 18) :
    v ∈ (acceptAll w st).okOld := by
  have hfew := (signedVersions_few st h).1
  have hfilter := List.length_filter_le (fun v => decide (v ∉ signedVersions st)) st.okOld
  rw [acceptAll_okOld w st h, okVersions_okOld, accepted_all st h, List.length_append]
  by_cases hsigned : v ∈ signedVersions st
  · rw [List.drop_append_of_le_length (by omega)]
    exact List.mem_append_right _ hsigned
  · obtain ⟨hok, hlen⟩ := hv.resolve_left hsigned
    rw [Nat.sub_eq_zero_of_le (by omega), List.drop_zero]
    exact List.mem_append_left _ (List.mem_filter.mpr ⟨hok, decide_eq_true hsigned⟩)

/-- The versions that a sign shows once everything was accepted. -/
theorem oldSeen_acceptAll (h : Sane st last) {now : Int} {it : OldItem}
    (hit : it ∈ oldSeen w (acceptAll w st) o now versions) :
    it ∈ oldItems w o.engine versions now ∧ it.what ∉ signedVersions st ∧
      (st.okOld.length ≤ 18 → it.what ∉ st.okOld) := by
  obtain ⟨hmem, hnew⟩ := List.mem_filter.mp hit
  simp only [Bool.and_eq_true, decide_eq_true_eq] at hnew
  refine ⟨hmem, fun hv => ?_, fun hlen hv => ?_⟩
  · exact hnew.1 (mem_acceptAll w st h (.inl hv))
  · exact hnew.1 (mem_acceptAll w st h (.inr ⟨hv, hlen⟩))

/-! ## The laws -/

/-- Page signs need two sightings, but for a domain that joins a sign; what is accepted is
settled, but for versions that show up later. -/
structure SignsRight (w : Outside) : Prop where
  /-- A page sign is there only if its group is seen now, and was signed or seen before. -/
  present : ∀ evs o now fleet versions, ∀ k ∈ pageSigns,
    k ∈ Dict.keys (observe w (run w evs) o now fleet versions).signs →
    k ∈ Dict.keys (sees w (run w evs) o now fleet) ∧
      (k ∈ Dict.keys (run w evs).signs ∨ k ∈ Dict.keys (lastSeen w evs))
  /-- A listed domain is seen now: neither the base nor the fleet has it. -/
  domains : ∀ evs o now fleet versions,
    ∀ d ∈ Dict.keys (domList (observe w (run w evs) o now fleet versions).signs),
    d ∈ Dict.keys o.domains ∧ d ∉ Dict.keys (baseFor w (run w evs) o).domains ∧ d ∉ fleet
  /-- Once everything is accepted, an observation raises at most the sign of versions, and of
  those none that was in the sign, and none accepted before while these are at most 18. -/
  settled : ∀ evs o now fleet versions k s,
    (observe w (acceptAll w (run w evs)) o now fleet versions).signs.lookup k = some s →
    k = .old ∧ ∀ it ∈ s.items, it ∈ oldItems w o.engine versions now ∧
      it.what ∉ signedVersions (run w evs) ∧
      ((run w evs).okOld.length ≤ 18 → it.what ∉ (run w evs).okOld)
  /-- The same page with the same versions raises no sign, when no version has a hole for long
  enough only since, and none was postponed. -/
  quiet : ∀ evs o «at» now fleet versions,
    oldItems w o.engine versions now ⊆ oldItems w o.engine versions «at» →
    (∀ it ∈ oldItems w o.engine versions «at»,
      hidden (livePost (run w evs) «at») .old it.what = false) →
    (run w evs).okOld.length ≤ 18 → ∀ k,
    k ∉ Dict.keys (observe w (acceptAll w (run w (evs ++ [.parsed o «at» fleet versions]))) o now
      fleet versions).signs
  /-- A button on one group leaves the others; the size and the title are one group here. -/
  others : ∀ evs k arg, ∀ j ∉ settledBy k,
    (accept w (run w evs) k arg).signs.lookup j = (run w evs).signs.lookup j ∧
      (accept w (run w evs) k arg).pend.lookup j = (run w evs).pend.lookup j
  /-- A button on one domain leaves the other ones, listed and of the base. -/
  otherDomains : ∀ evs d e, d ≠ "" → e ≠ d →
    (domList (accept w (run w evs) .dom d).signs).lookup e =
        (domList (run w evs).signs).lookup e ∧
      (known (accept w (run w evs) .dom d)).lookup e = (known (run w evs)).lookup e

theorem observe_present (h : Sane st last) {now : Int} (hk : k ∈ pageSigns)
    (hmem : k ∈ Dict.keys (observe w st o now fleet versions).signs) :
    k ∈ Dict.keys (sees w st o now fleet) ∧
      (k ∈ Dict.keys st.signs ∨ k ∈ Dict.keys last) := by
  obtain ⟨s, hs⟩ := (mem_keys_iff _ _).mp hmem
  rw [observe_sign w st o fleet versions hk] at hs
  cases hseen : (sees w st o now fleet).lookup k with
  | none => simp [hseen, signAfter] at hs
  | some seen =>
    refine ⟨(mem_keys_iff _ _).mpr ⟨seen, hseen⟩, ?_⟩
    cases hsign : st.signs.lookup k with
    | some prev => exact .inl ((mem_keys_iff _ _).mpr ⟨prev, hsign⟩)
    | none =>
      cases hpend : st.pend.lookup k with
      | none => simp [hseen, hsign, hpend, signAfter] at hs
      | some since => exact .inr (h.pend_seen k ((mem_keys_iff _ _).mpr ⟨since, hpend⟩))

theorem observe_foreign {now : Int} {d : String}
    (hd : d ∈ Dict.keys (domList (observe w st o now fleet versions).signs)) :
    d ∈ Dict.keys o.domains ∧ d ∉ Dict.keys (baseFor w st o).domains ∧ d ∉ fleet := by
  obtain ⟨s, hs, hmem⟩ := observe_domains w st o fleet versions hd
  rw [sees_domains w st o fleet hs] at hmem
  obtain ⟨e, he, rfl⟩ := List.mem_map.mp hmem
  obtain ⟨hon, hnew⟩ := List.mem_filter.mp he
  simp only [Bool.and_eq_true, decide_eq_true_eq] at hnew
  exact ⟨List.mem_map.mpr ⟨e, hon, rfl⟩, hnew.1⟩

/-- After everything is accepted, only versions can be signed at once. -/
theorem observe_accepted (h : Sane st last) {now : Int} {s : Sign}
    (hs : (observe w (acceptAll w st) o now fleet versions).signs.lookup k = some s) :
    k = .old ∧ s.items = oldSeen w (acceptAll w st) o now versions ∧ s.items ≠ [] := by
  obtain ⟨hsign, hpend⟩ := acceptAll_gone w st h k
  by_cases hold : k = .old
  · subst hold
    refine ⟨rfl, ?_⟩
    rw [observe_old] at hs
    split at hs
    · cases hs
    · next hne =>
      obtain rfl := Option.some.inj hs
      exact ⟨rfl, hne⟩
  · by_cases hk : k ∈ pageSigns
    · rw [observe_sign _ _ _ _ _ hk, hsign, hpend] at hs
      cases hseen : (sees w (acceptAll w st) o now fleet).lookup k with
      | none => simp [hseen, signAfter] at hs
      | some seen => simp [hseen, signAfter] at hs
    · rw [observe_files _ _ _ _ _ hk hold, hsign] at hs
      cases hs

/-- A version seen is in the sign, unless it is postponed or accepted. -/
theorem observe_signed {at_ : Int} {it : OldItem} (hit : it ∈ oldItems w o.engine versions at_)
    (hpost : hidden (livePost st at_) .old it.what = false) (hok : it.what ∉ st.okOld) :
    it.what ∈ signedVersions (observe w st o at_ fleet versions) := by
  have hmem : it ∈ oldSeen w st o at_ versions :=
    List.mem_filter.mpr ⟨hit, by simp [hpost, hok]⟩
  unfold signedVersions
  rw [observe_old, if_neg (List.ne_nil_of_mem hmem)]
  exact List.mem_map.mpr ⟨it, hmem, rfl⟩

theorem observe_quiet (h : Sane st last) {at_ now : Int}
    (hsub : oldItems w o.engine versions now ⊆ oldItems w o.engine versions at_)
    (hpost : ∀ it ∈ oldItems w o.engine versions at_,
      hidden (livePost st at_) .old it.what = false)
    (hlen : st.okOld.length ≤ 18) :
    k ∉ Dict.keys (observe w (acceptAll w (observe w st o at_ fleet versions)) o now fleet
      versions).signs := by
  intro hmem
  obtain ⟨s, hs⟩ := (mem_keys_iff _ _).mp hmem
  have hsane := Sane.observe w st o fleet versions h at_
  obtain ⟨-, hitems, hne⟩ := observe_accepted w _ o fleet versions hsane hs
  obtain ⟨it, hit⟩ := List.exists_mem_of_ne_nil _ hne
  rw [hitems] at hit
  obtain ⟨hnow, hsigned, hok⟩ := oldSeen_acceptAll w _ o versions hsane hit
  have hthen := hsub hnow
  exact hsigned (observe_signed w st o fleet versions hthen (hpost it hthen) (hok hlen))

/-- The other domains, when one is accepted. -/
theorem okDomains_others (h : Sane st last) {d e : String} (hd : d ≠ "") (hne : e ≠ d) :
    (domList (okDomains st false d).signs).lookup e = (domList st.signs).lookup e ∧
      (known (okDomains st false d)).lookup e = (known st).lookup e := by
  have htaken : taken st false d = [d] := by simp [taken, hd]
  have hknown : known (okDomains st false d) = Dict.put (known st) d (srcOf st d) := by
    unfold known okDomains
    simp [htaken]
  refine ⟨?_, ?_⟩
  · rw [okDomains_domList]
    unfold leftDomains
    have hfilter := Dict.lookup_filter_keys
      (fun i => decide (i ∉ Dict.keys (known (okDomains st false d)))) (domList st.signs) e
    rw [hfilter]
    split
    · rfl
    · next hin =>
      have hin' : e ∈ Dict.keys (known (okDomains st false d)) := by simpa using hin
      rw [okDomains_known, htaken, List.mem_singleton] at hin'
      have hmem := hin'.resolve_right hne
      symm
      rw [Dict.lookup_eq_none]
      exact fun hlisted => h.listed e hlisted hmem
  · rw [hknown, Dict.lookup_put, if_neg hne]

theorem signs_right (w : Outside) : SignsRight w where
  present evs o now fleet versions k hk hmem :=
    observe_present w _ o fleet versions (run_sane w evs) hk hmem
  domains evs o now fleet versions d hd := observe_foreign w _ o fleet versions hd
  settled evs o now fleet versions k s hs := by
    obtain ⟨hk, hitems, -⟩ := observe_accepted w _ o fleet versions (run_sane w evs) hs
    refine ⟨hk, fun it hit => ?_⟩
    rw [hitems] at hit
    exact oldSeen_acceptAll w _ o versions (run_sane w evs) hit
  quiet evs o at_ now fleet versions hsub hpost hlen k := by
    rw [run_snoc]
    exact observe_quiet w _ o fleet versions (run_sane w evs) hsub hpost hlen
  others evs k arg j hj := okGroup_others w _ false arg hj
  otherDomains evs d e hd hne := okDomains_others _ (run_sane w evs) hd hne

/-! ## A domain that joins a sign -/

def calmObs (domains : List (String × String)) : Obs :=
  ⟨0, "", domains, none, ⟨"", ""⟩, [], none⟩

def plain : Outside := ⟨id, fun _ => false, fun _ => false, fun _ => [], fun old _ => old⟩

/-- The page is looked at, then has a foreign script, and still has it an hour later. -/
def oneForeign : List Event :=
  [.parsed (calmObs []) 0 [] ⟨[], none⟩,
    .parsed (calmObs [("a.net", "main.js")]) scanEvery [] ⟨[], none⟩,
    .parsed (calmObs [("a.net", "main.js")]) (2 * scanEvery) [] ⟨[], none⟩]

/-- The events without a button: an observation, a wall or a failure. -/
def Event.looks : Event → Bool
  | .parsed .. | .walled .. | .failed .. => true
  | _ => false

/-- A second foreign domain is listed when it is seen for the first time. -/
theorem second_domain_at_once :
    ¬ ∀ (w : Outside) (evs : List Event) (o : Obs) (now : Int) (fleet : List String)
      (versions : Versions) (d : String), (∀ e ∈ evs, e.looks = true) →
      d ∈ Dict.keys (domList (observe w (run w evs) o now fleet versions).signs) →
      d ∈ Dict.keys (domList (run w evs).signs) ∨
        ∃ s, (lastSeen w evs).lookup .dom = some s ∧ d ∈ Dict.keys s.list := by
  intro h
  have hlast := h plain oneForeign (calmObs [("a.net", "main.js"), ("b.net", "main.js")])
    (3 * scanEvery) [] ⟨[], none⟩ "b.net"
    (by decide) (by decide)
  rcases hlast with hlist | ⟨s, hs, hmem⟩
  · exact absurd hlist (by decide)
  · have hseen : ((lastSeen plain oneForeign).lookup .dom).map (fun s => Dict.keys s.list) =
        some ["a.net"] := by decide
    rw [hs] at hseen
    have hkeys : Dict.keys s.list = ["a.net"] := Option.some.inj hseen
    rw [hkeys] at hmem
    exact absurd hmem (by decide)

end Kervax.Tamper
