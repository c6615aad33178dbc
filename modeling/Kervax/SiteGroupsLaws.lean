-- What one batch does with the groups: the loop over the places, and what becomes
-- of each group after it.
import Kervax.SiteGroups

namespace Kervax

open Grouping

variable (w : GroupWords)

/-! ## The open group -/

/-- The later one of the group so far and the next. -/
def laterGroup (best : Option SiteGroup) (g : SiteGroup) : Option SiteGroup :=
  match best with
  | none => some g
  | some b => if b.last < g.last then some g else best

theorem latestGroup_mem {groups : List SiteGroup} {g : SiteGroup}
    (h : latestGroup groups = some g) : g ∈ groups := by
  have hfold : ∀ (l : List SiteGroup) (best : Option SiteGroup),
      l.foldl laterGroup best = some g → g ∈ l ∨ best = some g := by
    intro l
    induction l with
    | nil => exact fun best h => .inr h
    | cons a l ih =>
      intro best h
      rcases ih _ h with h | h
      · exact .inl (List.mem_cons_of_mem _ h)
      · cases best with
        | none =>
          cases h
          exact .inl List.mem_cons_self
        | some b =>
          dsimp only [laterGroup] at h
          split at h
          · cases h
            exact .inl List.mem_cons_self
          · exact .inr h
  rcases hfold groups none h with h | h
  · exact h
  · cases h

theorem openFor_some {groups : List SiteGroup} {key : String} {lvl : PlaceLvl} {now : Time}
    {g : SiteGroup} (h : openFor groups key lvl now = some g) :
    g ∈ groups ∧ g.key = key ∧ g.lvl = lvl := by
  have := List.mem_filter.1 (latestGroup_mem h)
  simp only [decide_eq_true_eq] at this
  exact ⟨this.1, this.2.1, this.2.2.1⟩

/-! ## The members -/

theorem mem_withMembers (g : SiteGroup) (ms : List (Nat × Member)) (c : Nat) :
    c ∈ (g.withMembers ms).ids ↔ c ∈ g.ids ∨ c ∈ ms.map Prod.fst := by
  have hfold : ∀ (ms l : List (Nat × Member)),
      c ∈ (ms.foldl (fun l m => if m.1 ∈ l.map Prod.fst then l else l ++ [m]) l).map Prod.fst ↔
        c ∈ l.map Prod.fst ∨ c ∈ ms.map Prod.fst := by
    intro ms
    induction ms with
    | nil => simp
    | cons m ms ih =>
      intro l
      rw [List.foldl_cons, ih, List.map_cons, List.mem_cons]
      split
      · rename_i hin
        constructor
        · rintro (h | h)
          · exact .inl h
          · exact .inr (.inr h)
        · rintro (h | rfl | h)
          · exact .inl h
          · exact .inl hin
          · exact .inr h
      · rw [List.map_append, List.mem_append, List.map_cons, List.map_nil, List.mem_singleton, or_assoc]
  exact hfold ms g.members

theorem nodup_withMembers {g : SiteGroup} (h : g.ids.Nodup) (ms : List (Nat × Member)) :
    (g.withMembers ms).ids.Nodup := by
  have hfold : ∀ (ms l : List (Nat × Member)), (l.map Prod.fst).Nodup →
      ((ms.foldl (fun l m => if m.1 ∈ l.map Prod.fst then l else l ++ [m]) l).map Prod.fst).Nodup := by
    intro ms
    induction ms with
    | nil => exact fun l h => h
    | cons m ms ih =>
      intro l hl
      apply ih
      dsimp only
      split
      · exact hl
      · rename_i hout
        rw [List.map_append]
        exact List.nodup_append.2 ⟨hl, by simp, by simpa using fun x hx => ne_of_mem_of_not_mem hx hout⟩
  exact hfold ms g.members h

/-- The monitors of the failures of one place. -/
def placeIds (p : PlaceBatch) : List Nat := (p.2.flatMap fun e => e.1.members).map Prod.fst

theorem mem_grown (g : SiteGroup) (p : PlaceBatch) (now : Time) (c : Nat) :
    c ∈ (g.grown p now).ids ↔ c ∈ g.ids ∨ c ∈ placeIds p := mem_withMembers g _ c

theorem mem_newGrown (n : Nat) (p : PlaceBatch) (now : Time) (c : Nat) :
    c ∈ ((newGroup n p now).grown p now).ids ↔ c ∈ placeIds p := by
  rw [mem_grown]
  have hnil : (newGroup n p now).ids = [] := by
    unfold newGroup
    split <;> rfl
  simp [hnil]

/-! ## The loop over the places -/

/-- Where a group comes from: it was saved and no failure joined it, it was saved and
the failures of a place joined it, or the failures of a place opened it. -/
inductive Origin (groups : List SiteGroup) (next : Nat) (now : Time) (ps : List PlaceBatch) :
    SiteGroup → Prop
  | old {g : SiteGroup} (hg : g ∈ groups)
      (hno : ∀ p ∈ ps, openFor groups p.1.1 p.1.2 now ≠ some g) : Origin groups next now ps g
  | joined {g : SiteGroup} {p : PlaceBatch} (hg : g ∈ groups) (hp : p ∈ ps)
      (ho : openFor groups p.1.1 p.1.2 now = some g) :
      Origin groups next now ps { g.grown p now with solo := false }
  | single {p : PlaceBatch} (n : Nat) (hn : next ≤ n) (hp : p ∈ ps)
      (ho : openFor groups p.1.1 p.1.2 now = none) (h1 : ¬ 1 < p.2.length) :
      Origin groups next now ps ((newGroup n p now).grown p now)
  | many {p : PlaceBatch} (n : Nat) (hn : next ≤ n) (hp : p ∈ ps)
      (ho : openFor groups p.1.1 p.1.2 now = none) (h1 : 1 < p.2.length) :
      Origin groups next now ps { (newGroup n p now).grown p now with solo := false }

theorem Origin.mono {groups : List SiteGroup} {next : Nat} {now : Time} {ps : List PlaceBatch}
    {p : PlaceBatch} {g : SiteGroup} (h : Origin groups next now ps g)
    (hno : ∀ old, openFor groups p.1.1 p.1.2 now = some old → g.id ≠ old.id) :
    Origin groups next now (ps ++ [p]) g := by
  cases h with
  | old hg hps =>
    refine .old hg fun q hq => ?_
    rcases List.mem_append.1 hq with hq | hq
    · exact hps q hq
    · rw [List.mem_singleton.1 hq]
      exact fun ho => hno g ho rfl
  | joined hg hp ho => exact .joined hg (List.mem_append_left _ hp) ho
  | single n hn hp ho h1 => exact .single n hn (List.mem_append_left _ hp) ho h1
  | many n hn hp ho h1 => exact .many n hn (List.mem_append_left _ hp) ho h1

/-- What the loop has done with the places so far. -/
structure Placing.Right (groups : List SiteGroup) (next : Nat) (now : Time)
    (ps : List PlaceBatch) (st : Placing) : Prop where
  ids : (st.groups.map SiteGroup.id).Nodup
  below : ∀ g ∈ st.groups, g.id < st.next
  mono : next ≤ st.next
  opened : ∀ g ∈ st.groups, next ≤ g.id → (g.key, g.lvl) ∈ ps.map Prod.fst
  once : ∀ g ∈ st.groups, ∀ g' ∈ st.groups, next ≤ g.id → next ≤ g'.id →
    (g.key, g.lvl) = (g'.key, g'.lvl) → g = g'
  origin : ∀ g ∈ st.groups, Origin groups next now ps g
  kept : ∀ g ∈ groups, ∃ g' ∈ st.groups, g'.id = g.id ∧ (∀ c ∈ g.ids, c ∈ g'.ids) ∧
    (g.solo = false → g'.solo = false) ∧
    ((∃ p ∈ ps, openFor groups p.1.1 p.1.2 now = some g) → g'.solo = false)
  open_ : ∀ key lvl, (key, lvl) ∉ ps.map Prod.fst →
    openFor st.groups key lvl now = openFor groups key lvl now
  drop : ∀ i ∈ st.drop, ∃ p ∈ ps, ∃ e ∈ p.2, e.2 = i ∧
    ((∃ g, openFor groups p.1.1 p.1.2 now = some g) ∨
      openFor groups p.1.1 p.1.2 now = none ∧ 1 < p.2.length ∧ i ∈ (p.2.map Prod.snd).tail)
  quiet : ∀ m, m ∈ st.quiet ↔ ∃ p ∈ ps, (∃ g, openFor groups p.1.1 p.1.2 now = some g) ∧
    ∃ e ∈ p.2, e.1.msg = m
  swap : ∀ i m, (i, m) ∈ st.swap → ∃ p ∈ ps, openFor groups p.1.1 p.1.2 now = none ∧
    1 < p.2.length ∧ (p.2.map Prod.snd).head? = some i ∧ m.recovery = false ∧
    (∀ c, c ∈ m.checks ↔ c ∈ placeIds p) ∧ ∃ e ∈ p.2, m.kind = e.1.msg.kind
  swapped : ∀ p ∈ ps, openFor groups p.1.1 p.1.2 now = none → 1 < p.2.length →
    ∀ i, (p.2.map Prod.snd).head? = some i → ∃ m, (i, m) ∈ st.swap

/-- A list with a new entry that the test does not pick, or one entry changed that
it does not pick either. -/
theorem openFor_congr {gs gs' : List SiteGroup} {key : String} {lvl : PlaceLvl} {now : Time}
    (h : gs'.filter (fun g => g.key = key ∧ g.lvl = lvl) =
      gs.filter fun g => g.key = key ∧ g.lvl = lvl) :
    openFor gs' key lvl now = openFor gs key lvl now := by
  have hsplit : ∀ l : List SiteGroup,
      (l.filter fun g => g.key = key ∧ g.lvl = lvl ∧ now - g.last ≤ joinWindow) =
        (l.filter fun g => g.key = key ∧ g.lvl = lvl).filter fun g => now - g.last ≤ joinWindow := by
    intro l
    rw [List.filter_filter]
    congr 1
    funext g
    simp only [← Bool.decide_and]
    congr 1
    exact propext ⟨fun h => ⟨h.2.2, h.1, h.2.1⟩, fun h => ⟨h.2.1, h.2.2, h.1⟩⟩
  unfold openFor
  rw [hsplit, hsplit, h]

theorem filter_map_of_others {gs : List SiteGroup} {f : SiteGroup → SiteGroup}
    {test : SiteGroup → Bool} (h : ∀ g ∈ gs, f g = g ∨ test g = false ∧ test (f g) = false) :
    (gs.map f).filter test = gs.filter test := by
  induction gs with
  | nil => rfl
  | cons g gs ih =>
    have ih' := ih fun a ha => h a (List.mem_cons_of_mem _ ha)
    rw [List.map_cons]
    rcases h g List.mem_cons_self with hf | ⟨h1, h2⟩
    · rw [hf, List.filter_cons, List.filter_cons, ih']
    · rw [List.filter_cons_of_neg (by simp [h2]), List.filter_cons_of_neg (by simp [h1]), ih']

section place

variable {groups : List SiteGroup} {next : Nat} {now : Time} {ps : List PlaceBatch} {st : Placing}
  {p : PlaceBatch}

theorem eq_of_id (h : (st.groups.map SiteGroup.id).Nodup) {g g' : SiteGroup} (hg : g ∈ st.groups)
    (hg' : g' ∈ st.groups) (hid : g.id = g'.id) : g = g' :=
  List.inj_on_of_nodup_map h hg hg' hid

/-- What joining the open group makes of a group. -/
def joinInto (old : SiteGroup) (p : PlaceBatch) (now : Time) (g : SiteGroup) : SiteGroup :=
  if g.id = old.id then { g.grown p now with solo := false } else g

@[simp] theorem joinInto_id (old : SiteGroup) (p : PlaceBatch) (now : Time) (g : SiteGroup) :
    (joinInto old p now g).id = g.id := by
  unfold joinInto
  split <;> rfl

@[simp] theorem joinInto_key (old : SiteGroup) (p : PlaceBatch) (now : Time) (g : SiteGroup) :
    (joinInto old p now g).key = g.key := by
  unfold joinInto
  split <;> rfl

@[simp] theorem joinInto_lvl (old : SiteGroup) (p : PlaceBatch) (now : Time) (g : SiteGroup) :
    (joinInto old p now g).lvl = g.lvl := by
  unfold joinInto
  split <;> rfl

theorem joinInto_other {old g : SiteGroup} (hne : g.id ≠ old.id) (p : PlaceBatch) (now : Time) :
    joinInto old p now g = g := if_neg hne

/-- The failures of a place join the open group. -/
theorem Placing.Right.join (h : st.Right groups next now ps) (hp : p.1 ∉ ps.map Prod.fst)
    {old : SiteGroup} (ho : openFor groups p.1.1 p.1.2 now = some old) :
    Placing.Right groups next now (ps ++ [p])
      { st with
        groups := st.groups.map (joinInto old p now)
        drop := st.drop ++ p.2.map Prod.snd
        quiet := st.quiet ++ p.2.map (·.1.msg) } := by
  obtain ⟨hin, hkey, hlvl⟩ := openFor_some ((h.open_ _ _ hp).trans ho)
  have hold : ∀ g ∈ st.groups, g.id = old.id → g = old := fun g hg hid => eq_of_id h.ids hg hin hid
  refine { ids := ?ids, below := ?below, mono := h.mono, opened := ?opened, once := ?once
           origin := ?origin, kept := ?kept, open_ := ?open_, drop := ?drop, quiet := ?quiet
           swap := ?swap, swapped := ?swapped }
  case ids =>
    have hid : (st.groups.map (joinInto old p now)).map SiteGroup.id = st.groups.map SiteGroup.id := by
      simp [List.map_map, Function.comp_def]
    rw [hid]
    exact h.ids
  case below =>
    intro g' hg'
    obtain ⟨g, hg, rfl⟩ := List.mem_map.1 hg'
    rw [joinInto_id]
    exact h.below g hg
  case opened =>
    intro g' hg' hn
    obtain ⟨g, hg, rfl⟩ := List.mem_map.1 hg'
    rw [joinInto_id] at hn
    rw [List.map_append, List.mem_append, joinInto_key, joinInto_lvl]
    exact .inl (h.opened g hg hn)
  case once =>
    intro a ha b hb hna hnb hk
    obtain ⟨g, hg, rfl⟩ := List.mem_map.1 ha
    obtain ⟨g', hg', rfl⟩ := List.mem_map.1 hb
    rw [joinInto_id] at hna hnb
    simp only [joinInto_key, joinInto_lvl] at hk
    rw [h.once g hg g' hg' hna hnb hk]
  case origin =>
    intro g' hg'
    obtain ⟨g, hg, rfl⟩ := List.mem_map.1 hg'
    by_cases hid : g.id = old.id
    · rw [hold g hg hid, joinInto, if_pos rfl]
      exact .joined (openFor_some ho).1 (by simp) ho
    · rw [joinInto_other hid]
      refine (h.origin g hg).mono fun old' ho' => ?_
      rw [ho, Option.some.injEq] at ho'
      rwa [← ho']
  case kept =>
    intro g hg
    obtain ⟨g', hg', hid, hsub, hsolo, hjoin⟩ := h.kept g hg
    refine ⟨_, List.mem_map.2 ⟨g', hg', rfl⟩, ?_⟩
    by_cases heq : g'.id = old.id
    · rw [joinInto, if_pos heq]
      exact ⟨hid, fun c hc => (mem_grown g' p now c).2 (.inl (hsub c hc)), fun _ => rfl, fun _ => rfl⟩
    · rw [joinInto_other heq]
      refine ⟨hid, hsub, hsolo, ?_⟩
      rintro ⟨q, hq, hqo⟩
      rcases List.mem_append.1 hq with hq | hq
      · exact hjoin ⟨q, hq, hqo⟩
      · rw [List.mem_singleton.1 hq, ho, Option.some.injEq] at hqo
        exact absurd (hqo ▸ hid) heq
  case open_ =>
    intro key lvl hk
    rw [List.map_append, List.mem_append, not_or] at hk
    rw [← h.open_ key lvl hk.1]
    refine openFor_congr (filter_map_of_others fun g hg => ?_)
    by_cases hid : g.id = old.id
    · have hne : ¬ (g.key = key ∧ g.lvl = lvl) := by
        rw [hold g hg hid, hkey, hlvl]
        rintro ⟨rfl, rfl⟩
        exact hk.2 (by simp)
      rw [joinInto_key, joinInto_lvl]
      exact .inr ⟨decide_eq_false hne, decide_eq_false hne⟩
    · exact .inl (joinInto_other hid p now)
  case drop =>
    intro i hi
    rcases List.mem_append.1 hi with hi | hi
    · obtain ⟨q, hq, e, he, hei, hc⟩ := h.drop i hi
      exact ⟨q, List.mem_append_left _ hq, e, he, hei, hc⟩
    · obtain ⟨e, he, rfl⟩ := List.mem_map.1 hi
      exact ⟨p, by simp, e, he, rfl, .inl ⟨old, ho⟩⟩
  case quiet =>
    intro m
    rw [List.mem_append, h.quiet]
    constructor
    · rintro (⟨q, hq, hqo, hm⟩ | hm)
      · exact ⟨q, List.mem_append_left _ hq, hqo, hm⟩
      · obtain ⟨e, he, rfl⟩ := List.mem_map.1 hm
        exact ⟨p, by simp, ⟨old, ho⟩, e, he, rfl⟩
    · rintro ⟨q, hq, hqo, e, he, rfl⟩
      rcases List.mem_append.1 hq with hq | hq
      · exact .inl ⟨q, hq, hqo, e, he, rfl⟩
      · rw [List.mem_singleton.1 hq] at he
        exact .inr (List.mem_map.2 ⟨e, he, rfl⟩)
  case swap =>
    intro i m him
    obtain ⟨q, hq, hrest⟩ := h.swap i m him
    exact ⟨q, List.mem_append_left _ hq, hrest⟩
  case swapped =>
    intro q hq hqo h1 i hi
    rcases List.mem_append.1 hq with hq | hq
    · exact h.swapped q hq hqo h1 i hi
    · rw [List.mem_singleton.1 hq, ho] at hqo
      cases hqo

theorem place_joined (h : st.Right groups next now ps) (hp : p.1 ∉ ps.map Prod.fst)
    {old : SiteGroup} (ho : openFor groups p.1.1 p.1.2 now = some old) :
    (placeOne w now st p).Right groups next now (ps ++ [p]) := by
  unfold placeOne
  rw [(h.open_ _ _ hp).trans ho]
  exact h.join hp ho

/-- A new group, and what the loop notes of it. -/
theorem Placing.Right.add (h : st.Right groups next now ps) (hp : p.1 ∉ ps.map Prod.fst)
    (ho : openFor groups p.1.1 p.1.2 now = none) {g : SiteGroup} (hid : g.id = st.next)
    (hkey : g.key = p.1.1 ∧ g.lvl = p.1.2) (horigin : Origin groups next now (ps ++ [p]) g)
    (drop : List Nat) (swap : List (Nat × Msg))
    (hdrop : ∀ i ∈ drop, 1 < p.2.length ∧ i ∈ (p.2.map Prod.snd).tail)
    (hswap : ∀ i m, (i, m) ∈ swap → 1 < p.2.length ∧ (p.2.map Prod.snd).head? = some i ∧
      m.recovery = false ∧ (∀ c, c ∈ m.checks ↔ c ∈ placeIds p) ∧ ∃ e ∈ p.2, m.kind = e.1.msg.kind)
    (hswapped : 1 < p.2.length → ∀ i, (p.2.map Prod.snd).head? = some i → ∃ m, (i, m) ∈ swap) :
    Placing.Right groups next now (ps ++ [p])
      { groups := st.groups ++ [g], next := st.next + 1, drop := st.drop ++ drop
        swap := st.swap ++ swap, quiet := st.quiet } := by
  have hmono : ∀ g ∈ st.groups, Origin groups next now (ps ++ [p]) g := fun g hg =>
    (h.origin g hg).mono fun old ho' => by rw [ho] at ho'; cases ho'
  refine { ids := ?ids, below := ?below, mono := ?mono, opened := ?opened, once := ?once
           origin := ?origin, kept := ?kept, open_ := ?open_, drop := ?drop, quiet := ?quiet
           swap := ?swap, swapped := ?swapped }
  case ids =>
    rw [List.map_append]
    refine List.nodup_append.2 ⟨h.ids, by simp, fun a ha b hb => ?_⟩
    obtain ⟨g', hg', rfl⟩ := List.mem_map.1 ha
    have := h.below g' hg'
    simp only [List.map_cons, List.map_nil, List.mem_singleton] at hb
    omega
  case below =>
    intro g' hg'
    dsimp only
    rcases List.mem_append.1 hg' with hg' | hg'
    · have := h.below g' hg'
      omega
    · rw [List.mem_singleton.1 hg', hid]
      omega
  case mono =>
    exact h.mono.trans (Nat.le_succ _)
  case opened =>
    intro g' hg' hn
    rw [List.map_append, List.mem_append]
    rcases List.mem_append.1 hg' with hg' | hg'
    · exact .inl (h.opened g' hg' hn)
    · rw [List.mem_singleton.1 hg', hkey.1, hkey.2]
      exact .inr (by simp)
  case once =>
    have hother : ∀ g' ∈ st.groups, next ≤ g'.id → (g'.key, g'.lvl) ≠ (g.key, g.lvl) := by
      intro g' hg' hn he
      have hin := h.opened g' hg' hn
      rw [he, hkey.1, hkey.2] at hin
      exact hp hin
    intro a ha b hb hna hnb hk
    rcases List.mem_append.1 ha with ha | ha <;> rcases List.mem_append.1 hb with hb | hb
    · exact h.once a ha b hb hna hnb hk
    · rw [List.mem_singleton.1 hb] at hk
      exact absurd hk (hother a ha hna)
    · rw [List.mem_singleton.1 ha] at hk
      exact absurd hk.symm (hother b hb hnb)
    · rw [List.mem_singleton.1 ha, List.mem_singleton.1 hb]
  case origin =>
    intro g' hg'
    rcases List.mem_append.1 hg' with hg' | hg'
    · exact hmono g' hg'
    · rw [List.mem_singleton.1 hg']
      exact horigin
  case kept =>
    intro g' hg'
    obtain ⟨g'', hg'', hid', hsub, hsolo, hjoin⟩ := h.kept g' hg'
    refine ⟨g'', List.mem_append_left _ hg'', hid', hsub, hsolo, ?_⟩
    rintro ⟨q, hq, hqo⟩
    rcases List.mem_append.1 hq with hq | hq
    · exact hjoin ⟨q, hq, hqo⟩
    · rw [List.mem_singleton.1 hq, ho] at hqo
      cases hqo
  case open_ =>
    intro key lvl hk
    rw [List.map_append, List.mem_append, not_or] at hk
    rw [← h.open_ key lvl hk.1]
    refine openFor_congr ?_
    have hne : ¬ (g.key = key ∧ g.lvl = lvl) := by
      rw [hkey.1, hkey.2]
      rintro ⟨rfl, rfl⟩
      exact hk.2 (by simp)
    rw [List.filter_append, List.filter_cons_of_neg (by simpa using hne), List.filter_nil,
      List.append_nil]
  case drop =>
    intro i hi
    rcases List.mem_append.1 hi with hi | hi
    · obtain ⟨q, hq, e, he, hei, hc⟩ := h.drop i hi
      exact ⟨q, List.mem_append_left _ hq, e, he, hei, hc⟩
    · obtain ⟨h1, htail⟩ := hdrop i hi
      obtain ⟨e, he, rfl⟩ := List.mem_map.1 (List.mem_of_mem_tail htail)
      exact ⟨p, by simp, e, he, rfl, .inr ⟨ho, h1, htail⟩⟩
  case quiet =>
    intro m
    rw [h.quiet]
    constructor
    · rintro ⟨q, hq, hrest⟩
      exact ⟨q, List.mem_append_left _ hq, hrest⟩
    · rintro ⟨q, hq, ⟨old, hqo⟩, hrest⟩
      rcases List.mem_append.1 hq with hq | hq
      · exact ⟨q, hq, ⟨old, hqo⟩, hrest⟩
      · rw [List.mem_singleton.1 hq, ho] at hqo
        cases hqo
  case swap =>
    intro i m him
    rcases List.mem_append.1 him with him | him
    · obtain ⟨q, hq, hrest⟩ := h.swap i m him
      exact ⟨q, List.mem_append_left _ hq, hrest⟩
    · obtain ⟨h1, hrest⟩ := hswap i m him
      exact ⟨p, by simp, ho, h1, hrest⟩
  case swapped =>
    intro q hq hqo h1 i hi
    rcases List.mem_append.1 hq with hq | hq
    · obtain ⟨m, hm⟩ := h.swapped q hq hqo h1 i hi
      exact ⟨m, List.mem_append_left _ hm⟩
    · rw [List.mem_singleton.1 hq] at h1 hi
      obtain ⟨m, hm⟩ := hswapped h1 i hi
      exact ⟨m, List.mem_append_right _ hm⟩

theorem newGroup_fields (n : Nat) (p : PlaceBatch) (now : Time) :
    (newGroup n p now).id = n ∧ (newGroup n p now).key = p.1.1 ∧ (newGroup n p now).lvl = p.1.2 ∧
      ∀ e es, p.2 = e :: es → (newGroup n p now).kind = e.1.msg.kind := by
  unfold newGroup
  split
  · rename_i t i hh
    refine ⟨rfl, rfl, rfl, fun e es he => ?_⟩
    rw [he] at hh
    cases hh
    rfl
  · rename_i hh
    refine ⟨rfl, rfl, rfl, fun e es he => ?_⟩
    rw [he] at hh
    cases hh

/-- The failures of a place open a group. -/
theorem place_opened (h : st.Right groups next now ps) (hp : p.1 ∉ ps.map Prod.fst)
    (hne : p.2 ≠ []) (ho : openFor groups p.1.1 p.1.2 now = none) :
    (placeOne w now st p).Right groups next now (ps ++ [p]) := by
  have host : openFor st.groups p.1.1 p.1.2 now = none := (h.open_ _ _ hp).trans ho
  obtain ⟨hid, hkey, hlvl, hkind⟩ := newGroup_fields st.next p now
  unfold placeOne
  rw [host]
  dsimp only
  split
  · rename_i h1
    refine h.add hp ho (g := { (newGroup st.next p now).grown p now with solo := false }) hid
      ⟨hkey, hlvl⟩ (.many _ h.mono (by simp) ho h1) (p.2.map Prod.snd).tail _
      (fun i hi => ⟨h1, hi⟩) ?_ ?_
    · intro i m him
      obtain ⟨e, es, hp2⟩ := List.exists_cons_of_ne_nil hne
      rw [hp2] at him
      simp only [List.map_cons, List.head?_cons, Option.toList_some, List.mem_singleton,
        Prod.mk.injEq] at him
      obtain ⟨rfl, rfl⟩ := him
      refine ⟨h1, by rw [hp2]; rfl, rfl, fun c => ?_, e, by rw [hp2]; simp, hkind e es hp2⟩
      exact mem_newGrown st.next p now c
    · intro _ i hi
      obtain ⟨e, es, hp2⟩ := List.exists_cons_of_ne_nil hne
      rw [hp2] at hi ⊢
      simp only [List.map_cons, List.head?_cons, Option.some.injEq] at hi
      subst hi
      simp only [List.map_cons, List.head?_cons, Option.toList_some]
      exact ⟨_, List.mem_singleton.2 rfl⟩
  · rename_i h1
    have := h.add hp ho (g := (newGroup st.next p now).grown p now) hid ⟨hkey, hlvl⟩
      (.single _ h.mono (by simp) ho h1) [] [] (by simp) (by simp) fun h1' => absurd h1' h1
    simpa using this

theorem place_right (hn : (ps.map Prod.fst).Nodup) (hne : ∀ p ∈ ps, p.2 ≠ [])
    (hids : (groups.map SiteGroup.id).Nodup) (hbelow : ∀ g ∈ groups, g.id < next) :
    (ps.foldl (placeOne w now) { groups := groups, next := next }).Right groups next now ps := by
  induction ps using List.reverseRecOn with
  | nil =>
    have hold : ∀ g ∈ groups, ¬ next ≤ g.id := fun g hg => not_le.2 (hbelow g hg)
    refine ⟨hids, hbelow, le_refl _, fun g hg hn => absurd hn (hold g hg),
      fun g hg _ _ hn => absurd hn (hold g hg), fun g hg => .old hg (by simp), fun g hg => ?_,
      fun _ _ _ => rfl, by simp, by simp, by simp, by simp⟩
    exact ⟨g, hg, rfl, fun _ hc => hc, fun hs => hs, by simp⟩
  | append_singleton ps p ih =>
    rw [List.map_append, List.nodup_append] at hn
    have hih := ih hn.1 fun q hq => hne q (List.mem_append_left _ hq)
    have hp : p.1 ∉ ps.map Prod.fst := fun hin => hn.2.2 _ hin _ (by simp) rfl
    rw [List.foldl_append, List.foldl_cons, List.foldl_nil]
    cases ho : openFor groups p.1.1 p.1.2 now with
    | none => exact place_opened w hih hp (hne p (by simp)) ho
    | some old => exact place_joined w hih hp ho

end place

/-! ## The places of a batch -/

theorem mem_byPlace {texts : List SiteText} {p : PlaceBatch} (hp : p ∈ byPlace texts)
    (e : SiteText × Nat) :
    e ∈ p.2 ↔ texts[e.2]? = some e.1 ∧ ∃ src ∈ e.1.src, (src.key, src.lvl) = p.1 := by
  obtain ⟨-, hl⟩ := mem_groupsBy.1 (show (p.1, p.2) ∈ _ from hp)
  rw [hl, List.mem_filter, List.mk_mem_zipIdx_iff_getElem?]
  simp only [decide_eq_true_eq, Option.map_eq_some_iff]
  rfl

theorem byPlace_ne_nil {texts : List SiteText} {p : PlaceBatch} (hp : p ∈ byPlace texts) :
    p.2 ≠ [] := (mem_groupsBy.1 (show (p.1, p.2) ∈ _ from hp)).1

/-- Each text with a place is in the batch of its place. -/
theorem exists_place {texts : List SiteText} {t : SiteText} {i : Nat} (ht : texts[i]? = some t)
    {src : PlaceSrc} (hs : t.src = some src) :
    ∃ p ∈ byPlace texts, (t, i) ∈ p.2 ∧ p.1 = (src.key, src.lvl) := by
  have hmem : (t, i) ∈ texts.zipIdx.filter fun e : SiteText × Nat =>
      (e.1.src.map fun s => (s.key, s.lvl)) = some (src.key, src.lvl) := by
    rw [List.mem_filter, List.mk_mem_zipIdx_iff_getElem?]
    exact ⟨ht, by simp [hs]⟩
  exact ⟨((src.key, src.lvl), _), mem_groupsBy.2 ⟨List.ne_nil_of_mem hmem, rfl⟩, hmem, rfl⟩

/-- A place is known by its key. -/
theorem place_inj {texts : List SiteText} {p q : PlaceBatch} (hp : p ∈ byPlace texts)
    (hq : q ∈ byPlace texts) (h : p.1 = q.1) : p = q :=
  List.inj_on_of_nodup_map (nodup_groupsBy _ _) hp hq h

/-- An index is of one place. -/
theorem place_of_index {texts : List SiteText} {p q : PlaceBatch} (hp : p ∈ byPlace texts)
    (hq : q ∈ byPlace texts) {e e' : SiteText × Nat} (he : e ∈ p.2) (he' : e' ∈ q.2)
    (h : e'.2 = e.2) : q = p := by
  obtain ⟨ht, src, hsrc, hk⟩ := (mem_byPlace hp e).1 he
  obtain ⟨ht', src', hsrc', hk'⟩ := (mem_byPlace hq e').1 he'
  rw [h, ht, Option.some.injEq] at ht'
  rw [← ht', Option.mem_def.1 hsrc, Option.mem_some_iff] at hsrc'
  subst hsrc'
  exact place_inj hq hp (hk'.symm.trans hk)

theorem place_indices_nodup {texts : List SiteText} {p : PlaceBatch} (hp : p ∈ byPlace texts) :
    (p.2.map Prod.snd).Nodup := by
  obtain ⟨-, hl⟩ := mem_groupsBy.1 (show (p.1, p.2) ∈ _ from hp)
  rw [hl]
  refine List.Nodup.sublist (List.filter_sublist.map _) ?_
  rw [List.zipIdx_map_snd]
  exact List.nodup_range'

/-! ## A group after the batch -/

theorem okSince_fields (g : SiteGroup) (c : Nat) (ok : Bool) (now : Time) :
    (g.okSince c ok now).1 = { g with ok := (g.okSince c ok now).1.ok } ∧
      (g.okSince c ok now).2.isSome = ok := by
  unfold SiteGroup.okSince
  cases ok
  · exact ⟨rfl, rfl⟩
  · simp only [Bool.not_true, Bool.false_eq_true, if_false]
    split <;> exact ⟨rfl, rfl⟩

theorem okSinceAll_fields (g : SiteGroup) (ok : Nat → Bool) (now : Time) :
    (okSinceAll g ok now).1 = { g with ok := (okSinceAll g ok now).1.ok } ∧
      (okSinceAll g ok now).2.map Prod.fst = g.ids ∧
      ∀ e ∈ (okSinceAll g ok now).2, e.2.isSome = ok e.1 := by
  unfold okSinceAll
  generalize g.ids = cs
  induction cs using List.reverseRecOn with
  | nil => exact ⟨rfl, rfl, by simp⟩
  | append_singleton cs c ih =>
    rw [List.foldl_append, List.foldl_cons, List.foldl_nil]
    obtain ⟨h1, h2, h3⟩ := ih
    generalize cs.foldl _ (g, []) = r at h1 h2 h3 ⊢
    obtain ⟨hf, hs⟩ := okSince_fields r.1 c (ok c) now
    dsimp only
    refine ⟨?_, by rw [List.map_append, h2]; rfl, fun e he => ?_⟩
    · rw [hf]
      rw [h1]
    · rcases List.mem_append.1 he with he | he
      · exact h3 e he
      · rw [List.mem_singleton.1 he]
        exact hs

theorem map_filterMap_sublist {α β γ : Type} {l : List α} {f : α → Option β} {p : β → γ}
    {q : α → γ} (h : ∀ a ∈ l, ∀ b, f a = some b → p b = q a) :
    ((l.filterMap f).map p).Sublist (l.map q) := by
  induction l with
  | nil => exact .slnil
  | cons a l ih =>
    have ih' := ih fun b hb => h b (List.mem_cons_of_mem _ hb)
    cases hf : f a with
    | none =>
      rw [List.filterMap_cons_none hf, List.map_cons]
      exact ih'.cons _
    | some b =>
      rw [List.filterMap_cons_some hf, List.map_cons, List.map_cons, h a List.mem_cons_self b hf]
      exact ih'.cons_cons _

theorem readyOf_spec (oks : List (Nat × Option Time)) (now : Time) :
    (readyOf oks now).Sublist (oks.map Prod.fst) ∧
      (∀ c ∈ readyOf oks now, ∃ e ∈ oks, e.1 = c ∧ e.2.isSome) ∧
      ((∀ e ∈ oks, e.2.isSome) → readyOf oks now = oks.map Prod.fst) := by
  have hgood : ((oks.filterMap fun e => e.2.map fun t => (e.1, t)).map Prod.fst).Sublist
      (oks.map Prod.fst) := map_filterMap_sublist fun e _ x hx => by
    obtain ⟨t, -, rfl⟩ := Option.map_eq_some_iff.1 hx
    rfl
  have hmem : ∀ x ∈ oks.filterMap (fun e => e.2.map fun t => (e.1, t)),
      ∃ e ∈ oks, e.1 = x.1 ∧ e.2.isSome := by
    intro x hx
    obtain ⟨e, he, hx⟩ := List.mem_filterMap.1 hx
    obtain ⟨t, ht, rfl⟩ := Option.map_eq_some_iff.1 hx
    exact ⟨e, he, rfl, by simp [ht]⟩
  have hall : (∀ e ∈ oks, e.2.isSome) →
      (oks.filterMap fun e => e.2.map fun t => (e.1, t)).map Prod.fst = oks.map Prod.fst := by
    clear hgood hmem
    intro h
    induction oks with
    | nil => rfl
    | cons e oks ih =>
      obtain ⟨t, ht⟩ := Option.isSome_iff_exists.1 (h e List.mem_cons_self)
      rw [List.filterMap_cons_some (b := (e.1, t)) (by simp [ht]), List.map_cons, List.map_cons,
        ih fun a ha => h a (List.mem_cons_of_mem _ ha)]
  unfold readyOf
  dsimp only
  split
  · refine ⟨hgood, fun c hc => ?_, hall⟩
    obtain ⟨x, hx, rfl⟩ := List.mem_map.1 hc
    exact hmem x hx
  · rename_i hlen
    refine ⟨(List.filter_sublist.map _).trans hgood, fun c hc => ?_, fun h => ?_⟩
    · obtain ⟨x, hx, rfl⟩ := List.mem_map.1 hc
      exact hmem x (List.mem_filter.1 hx).1
    · have := congrArg List.length (hall h)
      simp only [List.length_map] at this
      exact absurd this hlen

/-- What becomes of a group: the monitors that it reports are well and leave it, the
others stay. -/
structure GroupSettled (ok : Nat → Bool) (g : SiteGroup)
    (r : Option SiteGroup × Option (Msg × List Nat)) : Prop where
  back : ∀ m ready, r.2 = some (m, ready) → g.solo = false ∧ m.recovery = true ∧
    m.kind = g.kind ∧ ready.Sublist g.ids ∧ ∀ c ∈ ready, ok c = true
  rest : ∀ g', r.1 = some g' → g'.id = g.id ∧ g'.lvl = g.lvl ∧ g'.kind = g.kind ∧
    g'.solo = g.solo ∧ g'.ids.Sublist g.ids ∧ ∀ m ready, r.2 = some (m, ready) →
      ∀ c ∈ ready, c ∉ g'.ids
  split : g.solo = false → ∀ c ∈ g.ids, (∃ m ready, r.2 = some (m, ready) ∧ c ∈ ready) ∨
    ∃ g', r.1 = some g' ∧ c ∈ g'.ids
  whole : g.solo = false → (∀ c ∈ g.ids, ok c = true) → ∀ c ∈ g.ids,
    ∃ m ready, r.2 = some (m, ready) ∧ c ∈ ready

theorem settleGroup_spec (ok : Nat → Bool) (now : Time) (g : SiteGroup) :
    GroupSettled ok g (settleGroup w ok now g) := by
  obtain ⟨hf, hids, hok⟩ := okSinceAll_fields g ok now
  unfold settleGroup
  generalize okSinceAll g ok now = r at hf hids hok ⊢
  obtain ⟨g₁, oks⟩ := r
  dsimp only at hf hids hok ⊢
  obtain ⟨hsub, hwell, hwhole⟩ := readyOf_spec oks now
  rw [hids] at hsub hwhole
  have hwell' : ∀ c ∈ readyOf oks now, ok c = true := by
    intro c hc
    obtain ⟨e, he, rfl, hs⟩ := hwell c hc
    rw [← hok e he, hs]
  have hg : g₁.id = g.id ∧ g₁.lvl = g.lvl ∧ g₁.kind = g.kind ∧ g₁.solo = g.solo ∧
      g₁.members = g.members := by
    rw [hf]
    exact ⟨rfl, rfl, rfl, rfl, rfl⟩
  obtain ⟨h1, h2, h3, h4, h5⟩ := hg
  have hids₁ : g₁.ids = g.ids := by rw [SiteGroup.ids, h5, SiteGroup.ids]
  have hall : (∀ c ∈ g.ids, ok c = true) → readyOf oks now = g.ids := by
    intro h
    refine hwhole fun e he => ?_
    rw [hok e he]
    exact h e.1 (hids ▸ List.mem_map_of_mem he)
  by_cases hsolo : g₁.solo = true
  · have hs : g.solo = true := h4 ▸ hsolo
    rw [if_pos hsolo]
    refine ⟨nofun, fun g' hg' => ?_, fun h => ?_, fun h => ?_⟩
    · dsimp only at hg'
      split at hg'
      · cases hg'
      · cases hg'
        exact ⟨h1, h2, h3, h4, hids₁ ▸ .refl _, nofun⟩
    · rw [hs] at h
      cases h
    · rw [hs] at h
      cases h
  · rw [if_neg hsolo]
    have hs : g.solo = false := by rw [← h4]; simpa using hsolo
    by_cases hr : readyOf oks now = []
    · rw [if_pos hr]
      refine ⟨nofun, fun g' hg' => ?_, fun _ c hc => .inr ⟨g₁, rfl, hids₁ ▸ hc⟩, fun _ h c hc => ?_⟩
      · cases hg'
        exact ⟨h1, h2, h3, h4, hids₁ ▸ .refl _, nofun⟩
      · rw [← hall h, hr] at hc
        cases hc
    · rw [if_neg hr]
      have hleft : g₁.members.all (fun x => x.1 ∈ readyOf oks now) = true ↔
          ∀ c ∈ g.ids, c ∈ readyOf oks now := by
        rw [← hids₁]
        simp [SiteGroup.ids]
      split
      · rename_i hw
        refine ⟨?_, nofun, fun _ c hc => .inl ⟨_, _, rfl, hleft.1 hw c hc⟩,
          fun _ h c hc => ⟨_, _, rfl, hleft.1 hw c hc⟩⟩
        intro m ready hm
        cases hm
        exact ⟨hs, rfl, h3, hsub, hwell'⟩
      · have hrest : ∀ c, c ∈ SiteGroup.ids { g₁ with
            members := g₁.members.filter (·.1 ∉ readyOf oks now)
            ok := g₁.ok.filter (·.1 ∉ readyOf oks now) } ↔ c ∈ g.ids ∧ c ∉ readyOf oks now := by
          intro c
          rw [← hids₁]
          simp only [SiteGroup.ids, List.mem_map, List.mem_filter, decide_eq_true_eq]
          constructor
          · rintro ⟨x, ⟨hx, hn⟩, rfl⟩
            exact ⟨⟨x, hx, rfl⟩, hn⟩
          · rintro ⟨⟨x, hx, rfl⟩, hn⟩
            exact ⟨x, ⟨hx, hn⟩, rfl⟩
        refine ⟨?_, ?_, fun _ c hc => ?_, fun _ h c hc => ⟨_, _, rfl, (hall h).symm ▸ hc⟩⟩
        · intro m ready hm
          cases hm
          exact ⟨hs, rfl, h3, hsub, hwell'⟩
        · intro g' hg'
          cases hg'
          refine ⟨h1, h2, h3, h4, hids₁ ▸ (List.filter_sublist.map _), fun m ready hm c hc hin => ?_⟩
          cases hm
          exact ((hrest c).1 hin).2 hc
        · by_cases hcr : c ∈ readyOf oks now
          · exact .inl ⟨_, _, rfl, hcr⟩
          · exact .inr ⟨_, rfl, (hrest c).2 ⟨hc, hcr⟩⟩

end Kervax
