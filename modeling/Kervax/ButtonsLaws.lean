-- What one press does to the lists of a server and of a monitor: it adds keys that were not
-- there, takes out the keys that it gives back, or leaves the list alone.
import Kervax.Buttons
import Kervax.Holdings
import Mathlib.Data.List.Induction
import Mathlib.Data.Option.Defs

namespace Kervax.TgBot

open Holdings (Move)

/-! ## The loop over the objects -/

section Sweep

variable {σ β γ : Type} {f : Nat → σ → σ} {note : σ → Option β} {db : Nat → Option σ}

theorem sweep_snoc (ids : List Nat) (j : Nat) :
    sweep f note db (ids ++ [j]) = pass f note (sweep f note db ids) j := by
  simp [sweep]

theorem pass_fst (acc : (Nat → Option σ) × List (Nat × β)) (i j : Nat) :
    (pass f note acc j).1 i = if i = j then (acc.1 j).map (f j) else acc.1 i := by
  unfold pass
  by_cases hij : i = j
  · subst hij
    cases h : acc.1 i <;> simp [h]
  · cases h : acc.1 j <;> simp [hij]

theorem pass_snd (acc : (Nat → Option σ) × List (Nat × β)) (i j : Nat) :
    (pass f note acc j).2.lookup i =
      if i = j then ((acc.1 j).bind note).or (acc.2.lookup i) else acc.2.lookup i := by
  unfold pass
  cases h : acc.1 j with
  | none => by_cases hij : i = j <;> simp
  | some s =>
    cases hn : note s with
    | none => by_cases hij : i = j <;> simp [hn]
    | some b =>
      simp only [Option.bind_some, hn, Option.some_or]
      exact Dict.lookup_put _ _ _ _

/-- Each object is changed once, as far as a second pass does nothing more. -/
theorem sweep_map {g : σ → γ} {h : Nat → γ → γ} (hg : ∀ i s, g (f i s) = h i (g s))
    (hh : ∀ i x, h i (h i x) = h i x) (ids : List Nat) (i : Nat) :
    ((sweep f note db ids).1 i).map g =
      if i ∈ ids then ((db i).map g).map (h i) else (db i).map g := by
  induction ids using List.reverseRecOn with
  | nil => simp [sweep]
  | append_singleton ids j ih =>
    rw [sweep_snoc, pass_fst]
    by_cases hij : i = j
    · subst hij
      have hmap : ∀ o : Option σ, (o.map (f i)).map g = (o.map g).map (h i) := by
        intro o
        cases o <;> simp [hg]
      simp only [if_true, List.mem_append, List.mem_singleton, or_true, hmap, ih]
      split
      · cases (db i).map g <;> simp [hh]
      · rfl
    · simp [hij, ih]

theorem sweep_at (hf : ∀ i s, f i (f i s) = f i s) (ids : List Nat) (i : Nat) :
    (sweep f note db ids).1 i = if i ∈ ids then (db i).map (f i) else db i := by
  have h := @sweep_map σ β σ f note db id f (fun _ _ => rfl) hf ids i
  simpa using h

/-- And it is noted once. -/
theorem sweep_noted (hf : ∀ i s, f i (f i s) = f i s) (hnote : ∀ i s, note (f i s) = none)
    (ids : List Nat) (i : Nat) :
    (sweep f note db ids).2.lookup i = if i ∈ ids then (db i).bind note else none := by
  induction ids using List.reverseRecOn with
  | nil => simp [sweep]
  | append_singleton ids j ih =>
    rw [sweep_snoc, pass_snd]
    by_cases hij : i = j
    · subst hij
      simp only [if_true, List.mem_append, List.mem_singleton, or_true, ih, sweep_at hf ids i]
      split
      · cases db i <;> simp [hnote]
      · simp
    · simp [hij, ih]

end Sweep

/-! ## What a row gives back -/

/-- The muted keys of a server that an undo takes out. -/
def How.mutes (kind : String) (i : Nat) : How → List String
  | .muteKeys added => (added.lookup i).getD []
  | .mute added => if i ∈ added then [kind] else []
  | _ => []

/-- The marks at deadlines that an undo takes out. -/
def How.marks (_ : String) (i : Nat) : How → List String
  | .kexp added => (added.lookup i).getD []
  | _ => []

/-- The muted kinds of a monitor that an undo takes out. -/
def How.checkMutes (kind : String) (i : Nat) : How → List String
  | .chkMute added => if i ∈ added then [kind] else []
  | _ => []

def TgAlert.gives (row : TgAlert) (obj : Obj) (part : String → Nat → How → List String)
    (i : Nat) : List String :=
  match row.ref, row.undo.mute with
  | some (o, ids), some how => if o = obj ∧ i ∈ ids then part row.kind i how else []
  | _, _ => []

/-- What each row would take out of the list of an object. -/
def World.held (w : World) (obj : Obj) (part : String → Nat → How → List String) (i r : Nat) :
    List String :=
  match w.rows r with
  | some row => row.gives obj part i
  | none => []

theorem held_of_row {w : World} {r : Nat} {row : TgAlert} (h : w.rows r = some row) (obj : Obj)
    (part : String → Nat → How → List String) (i : Nat) :
    w.held obj part i r = row.gives obj part i := by
  simp [World.held, h]

theorem gives_none {row : TgAlert} (h : row.undo.mute = none) (obj : Obj)
    (part : String → Nat → How → List String) (i : Nat) : row.gives obj part i = [] := by
  unfold TgAlert.gives
  rw [h]
  cases row.ref <;> rfl

/-! ## Muting -/

@[simp] theorem noted_getD (new : List String) : (noted new).getD [] = new := by
  unfold noted
  split <;> simp [*]

theorem newKeys_new {keys mutes : List String} {k : String} (h : k ∈ newKeys keys mutes) :
    k ∉ mutes := by
  simpa using (List.mem_filter.mp h).2

@[simp] theorem newKeys_again (keys mutes : List String) :
    newKeys keys (mutes ++ newKeys keys mutes) = [] := by
  apply List.filter_eq_nil_iff.mpr
  intro k hk
  by_cases hm : k ∈ mutes <;> simp [newKeys, hk, hm]

theorem newMarks_new {keys : List String} {who : String} {now : Int} {s : Server}
    {p : String × Ignored} (h : p ∈ newMarks keys who now s) :
    p.1 ∉ Dict.keys s.kubeExpiryIgnored := by
  obtain ⟨q, hq, rfl⟩ := List.mem_map.mp h
  simpa using (List.mem_filter.mp hq).2

theorem newMarks_again (keys : List String) (who : String) (now : Int) (s : Server)
    (d : List (String × Ignored)) (hd : d = s.kubeExpiryIgnored ++ newMarks keys who now s) :
    newMarks keys who now { s with kubeExpiryIgnored := d } = [] := by
  subst hd
  refine List.map_eq_nil_iff.mpr (List.filter_eq_nil_iff.mpr fun p hp => ?_)
  suffices hin : p.1 ∈ Dict.keys (s.kubeExpiryIgnored ++ newMarks keys who now s) by simpa using hin
  unfold Dict.keys
  rw [List.map_append, List.mem_append]
  by_cases hold : p.1 ∈ Dict.keys s.kubeExpiryIgnored
  · exact .inl hold
  · refine .inr (List.mem_map.mpr
      ⟨(p.1, entry p.2 (if who = "" then "telegram" else who) now), ?_, rfl⟩)
    exact List.mem_map.mpr ⟨p, List.mem_filter.mpr ⟨hp, by simpa using hold⟩, rfl⟩

/-- The two lists of a server that buttons add to for ever. -/
def Server.lists (s : Server) : List String × List (String × Ignored) :=
  (s.alertMutes, s.kubeExpiryIgnored)

/-- How the lists of an object move, seen from one holder. -/
def ServerMoves (g g' : List String) (m m' : List String) (s s' : Server) : Prop :=
  Move id s.alertMutes g s'.alertMutes g' ∧ Move Prod.fst s.kubeExpiryIgnored m s'.kubeExpiryIgnored m'

/-- How the list of a monitor moves, seen from one holder. -/
def CheckMoves (g g' : List String) (c c' : Check) : Prop := Move id c.alertMutes g c'.alertMutes g'

theorem sweep_lists_kept {β : Type} {f : Nat → Server → Server} {note : Server → Option β}
    (hf : ∀ i s, (f i s).lists = s.lists) (db : Nat → Option Server) (ids : List Nat) (i : Nat) :
    ((sweep f note db ids).1 i).map Server.lists = (db i).map Server.lists := by
  have h := @sweep_map Server β _ f note db Server.lists (fun _ x => x) hf (fun _ _ => rfl) ids i
  rw [h]
  split
  · exact Option.map_id' 
  · rfl

theorem rel_of_lists {o o' : Option Server} (h : o'.map Server.lists = o.map Server.lists)
    (g m : List String) : Option.Rel (ServerMoves g g m m) o o' := by
  cases o with
  | none =>
    cases o' with
    | none => exact .none
    | some s' => cases h
  | some s =>
    cases o' with
    | none => cases h
    | some s' =>
      obtain ⟨hm, hk⟩ :
          s'.alertMutes = s.alertMutes ∧ s'.kubeExpiryIgnored = s.kubeExpiryIgnored := by
        simpa [Server.lists] using h
      refine .some ⟨?_, ?_⟩
      · rw [hm]
        exact .stay _ _
      · rw [hk]
        exact .stay _ _

theorem muteEach_at (keys : List String) (db : Nat → Option Server) (ids : List Nat) (i : Nat) :
    (muteEach keys db ids).1 i = if i ∈ ids then (db i).map fun s =>
      { s with alertMutes := s.alertMutes ++ newKeys keys s.alertMutes } else db i :=
  sweep_at (by simp) ids i

theorem muteEach_noted (keys : List String) (db : Nat → Option Server) (ids : List Nat) (i : Nat) :
    (muteEach keys db ids).2.lookup i =
      if i ∈ ids then (db i).bind fun s => noted (newKeys keys s.alertMutes) else none :=
  sweep_noted (by simp) (by simp [noted]) ids i

theorem muteEachCheck_at (kind : String) (db : Nat → Option Check) (ids : List Nat) (i : Nat) :
    (muteEachCheck kind db ids).1 i = if i ∈ ids then (db i).map fun c =>
      { c with alertMutes := c.alertMutes ++ newKeys [kind] c.alertMutes } else db i :=
  sweep_at (by simp) ids i

theorem muteEachCheck_noted (kind : String) (db : Nat → Option Check) (ids : List Nat) (i : Nat) :
    (muteEachCheck kind db ids).2.lookup i =
      if i ∈ ids then (db i).bind fun c => noted (newKeys [kind] c.alertMutes) else none :=
  sweep_noted (by simp) (by simp [noted]) ids i

theorem markEach_at (keys : List String) (who : String) (now : Int) (db : Nat → Option Server)
    (ids : List Nat) (i : Nat) :
    (markEach keys who now db ids).1 i = if i ∈ ids then (db i).map fun s =>
      { s with kubeExpiryIgnored := s.kubeExpiryIgnored ++ newMarks keys who now s } else db i :=
  sweep_at (by intro _ s; simp [newMarks_again keys who now s _ rfl]) ids i

theorem markEach_noted (keys : List String) (who : String) (now : Int) (db : Nat → Option Server)
    (ids : List Nat) (i : Nat) : (markEach keys who now db ids).2.lookup i =
      if i ∈ ids then (db i).bind fun s => noted (Dict.keys (newMarks keys who now s)) else none :=
  sweep_noted (by intro _ s; simp [newMarks_again keys who now s _ rfl])
    (by intro _ s; simp [newMarks_again keys who now s _ rfl, noted, Dict.keys]) ids i

/-- New keys are put behind the old ones. -/
theorem move_added {mutes new g : List String} (hg : g = new) (hnew : ∀ k ∈ new, k ∉ mutes) :
    Move id mutes [] (mutes ++ new) g := by
  have h : Move id mutes [] (mutes ++ new) (new.map id) := .take mutes new (by simpa using hnew)
  rw [hg]
  simpa using h

theorem newKeys_one (k : String) (mutes : List String) :
    newKeys [k] mutes = if k ∈ mutes then [] else [k] := by
  by_cases h : k ∈ mutes <;> simp [newKeys, h]

/-- The numbers under which something new is noted. -/
theorem one_of_noted {added : List (Nat × List String)} {kind : String} {i : Nat}
    {mutes : List String} (h : added.lookup i = noted (newKeys [kind] mutes)) :
    (if i ∈ Dict.keys added then [kind] else []) = newKeys [kind] mutes := by
  rw [newKeys_one] at h ⊢
  by_cases hm : kind ∈ mutes
  · have hnone : i ∉ Dict.keys added := Dict.lookup_eq_none.mp (by simpa [hm, noted] using h)
    simp [hm, hnone]
  · have hsome : i ∈ Dict.keys added := by
      by_contra hout
      rw [Dict.lookup_eq_none.mpr hout] at h
      simp [hm, noted] at h
    simp [hm, hsome]

theorem muteEach_moves {keys : List String} {db : Nat → Option Server} {ids : List Nat} {i : Nat}
    {g : List String}
    (hg : ∀ s, db i = some s → g = if i ∈ ids then newKeys keys s.alertMutes else []) :
    Option.Rel (ServerMoves [] g [] []) (db i) ((muteEach keys db ids).1 i) := by
  rw [muteEach_at]
  cases hdb : db i with
  | none => split <;> exact .none
  | some s =>
    have hgs := hg s hdb
    split
    · next hi =>
      rw [if_pos hi] at hgs
      exact .some ⟨move_added hgs fun _ hk => newKeys_new hk, .stay _ _⟩
    · next hi =>
      rw [if_neg hi] at hgs
      subst hgs
      exact .some ⟨.stay _ _, .stay _ _⟩

/-- A loop that mutes: to each list it adds what its undo takes out again. -/
def Adds (db : Nat → Option Server) (ids : List Nat) (kind : String)
    (r : (Nat → Option Server) × How) : Prop :=
  ∀ i, Option.Rel (ServerMoves [] (if i ∈ ids then r.2.mutes kind i else [])
    [] (if i ∈ ids then r.2.marks kind i else [])) (db i) (r.1 i)

theorem adds_nothing {db : Nat → Option Server} {ids : List Nat} {kind : String}
    {r : (Nat → Option Server) × How} (hm : ∀ i, r.2.mutes kind i = [])
    (hk : ∀ i, r.2.marks kind i = [])
    (hr : ∀ i, (r.1 i).map Server.lists = (db i).map Server.lists) : Adds db ids kind r := by
  intro i
  rw [hm, hk, ite_self]
  exact rel_of_lists (hr i) [] []

theorem muteKind_adds (kind : String) (db : Nat → Option Server) (ids : List Nat) :
    Adds db ids kind (muteKind kind ids db) := by
  intro i
  have hmarks : (if i ∈ ids then (muteKind kind ids db).2.marks kind i else []) = [] := by
    simp [muteKind, How.marks]
  rw [hmarks]
  refine muteEach_moves fun s hs => ?_
  split
  · next hi =>
    refine one_of_noted (i := i) ?_
    rw [muteEach_noted, if_pos hi, hs]
    rfl
  · rfl

theorem muteKeys_adds (keys : List String) (kind : String) (db : Nat → Option Server)
    (ids : List Nat) :
    Adds db ids kind ((muteEach keys db ids).1, .muteKeys (muteEach keys db ids).2) := by
  intro i
  have hmarks : (if i ∈ ids then How.marks kind i (.muteKeys (muteEach keys db ids).2) else []) =
      [] := by
    simp [How.marks]
  rw [hmarks]
  refine muteEach_moves fun s hs => ?_
  split
  · next hi => simp [How.mutes, muteEach_noted, hi, hs]
  · rfl

theorem kexp_adds (keys : List String) (who : String) (now : Int) (kind : String)
    (db : Nat → Option Server) (ids : List Nat) :
    Adds db ids kind ((markEach keys who now db ids).1, .kexp (markEach keys who now db ids).2) := by
  intro i
  rw [markEach_at]
  cases hdb : db i with
  | none => split <;> exact .none
  | some s =>
    split
    · next hi =>
      have hmarks : How.marks kind i (.kexp (markEach keys who now db ids).2) =
          Dict.keys (newMarks keys who now s) := by
        simp [How.marks, markEach_noted, hi, hdb]
      refine .some ⟨.stay _ _, ?_⟩
      rw [hmarks]
      exact .take _ _ fun p hp => newMarks_new hp
    · exact .some ⟨.stay _ _, .stay _ _⟩

theorem muteServers_adds (row : TgAlert) (until_ : Option Int) (who : String) (now : Int)
    (ids : List Nat) (db : Nat → Option Server) :
    Adds db ids row.kind (muteServers row until_ who now ids db) := by
  unfold muteServers
  cases until_ with
  | some u =>
    dsimp only
    split
    · refine adds_nothing (fun _ => rfl) (fun _ => rfl) fun i => ?_
      unfold snoozeKeysEach
      apply sweep_lists_kept
      intro _ _
      rfl
    · refine adds_nothing (fun _ => rfl) (fun _ => rfl) fun i => ?_
      unfold snoozeEach
      apply sweep_lists_kept
      intro _ _
      rfl
  | none =>
    dsimp only
    split
    · exact muteKind_adds row.kind db ids
    split
    · split
      · exact muteKind_adds row.kind db ids
      · exact kexp_adds _ who now row.kind db ids
    · exact muteKeys_adds _ row.kind db ids

theorem muteChecks_moves (row : TgAlert) (until_ : Option Int) (ids : List Nat)
    (db : Nat → Option Check) (i : Nat) :
    Option.Rel (CheckMoves []
      (if i ∈ ids then (muteChecks row until_ ids db).2.checkMutes row.kind i else []))
      (db i) ((muteChecks row until_ ids db).1 i) := by
  unfold muteChecks
  cases until_ with
  | some u =>
    simp only [How.checkMutes, ite_self]
    unfold snoozeEachCheck
    rw [sweep_at (by simp)]
    cases db i with
    | none => split <;> exact .none
    | some c => split <;> exact .some (.stay _ _)
  | none =>
    simp only [How.checkMutes]
    rw [muteEachCheck_at]
    cases hdb : db i with
    | none => split <;> exact .none
    | some c =>
      split
      · next hi =>
        refine .some (move_added (one_of_noted ?_) fun _ hk => newKeys_new hk)
        rw [muteEachCheck_noted, if_pos hi, hdb]
        rfl
      · exact .some (.stay _ _)

/-! ## Giving back -/

theorem unmuteServer_lists (kind : String) (now : Int) (how : How) (i : Nat) (s : Server) :
    (unmuteServer kind now how i s).lists =
      (s.alertMutes.filter (· ∉ how.mutes kind i),
        s.kubeExpiryIgnored.filter fun p => p.1 ∉ how.marks kind i) := by
  refine Prod.ext ?_ ?_ <;> cases how <;>
    first | rfl | simp [unmuteServer, Server.lists, How.mutes, How.marks]

theorem unmuteCheck_mutes (kind : String) (how : How) (i : Nat) (c : Check) :
    (unmuteCheck kind how i c).alertMutes = c.alertMutes.filter (· ∉ how.checkMutes kind i) := by
  cases how <;> first | rfl | simp [unmuteCheck, How.checkMutes]

theorem unmuteServers_moves (kind : String) (now : Int) (how : How) (ids : List Nat)
    (db : Nat → Option Server) (i : Nat) :
    Option.Rel (ServerMoves (if i ∈ ids then how.mutes kind i else []) []
      (if i ∈ ids then how.marks kind i else []) [])
      (db i) (sweepAll (unmuteServer kind now how) db ids i) := by
  have h := @sweep_map Server Unit _ (unmuteServer kind now how) (fun _ => none) db Server.lists
    (fun i x => (x.1.filter (· ∉ how.mutes kind i), x.2.filter fun p => p.1 ∉ how.marks kind i))
    (fun i s => unmuteServer_lists kind now how i s) (by simp [List.filter_filter]) ids i
  unfold sweepAll
  generalize (sweep (unmuteServer kind now how) (fun _ => (none : Option Unit)) db ids).1 i = o at h
  split
  · next hi =>
    rw [if_pos hi] at h
    cases hdb : db i with
    | none =>
      rw [hdb] at h
      cases o with
      | none => exact .none
      | some s' => cases h
    | some s =>
      rw [hdb] at h
      cases o with
      | none => cases h
      | some s' =>
        simp only [Option.map_some, Server.lists, Option.some.injEq, Prod.mk.injEq] at h
        refine .some ⟨?_, ?_⟩
        · rw [h.1]
          exact .give _ _
        · rw [h.2]
          exact .give _ _
  · next hi =>
    rw [if_neg hi] at h
    exact rel_of_lists h [] []

theorem unmuteChecks_moves (kind : String) (how : How) (ids : List Nat) (db : Nat → Option Check)
    (i : Nat) :
    Option.Rel (CheckMoves (if i ∈ ids then how.checkMutes kind i else []) [])
      (db i) (sweepAll (unmuteCheck kind how) db ids i) := by
  have h := @sweep_map Check Unit _ (unmuteCheck kind how) (fun _ => none) db Check.alertMutes
    (fun i x => x.filter (· ∉ how.checkMutes kind i))
    (fun i c => unmuteCheck_mutes kind how i c) (by simp [List.filter_filter]) ids i
  unfold sweepAll
  generalize (sweep (unmuteCheck kind how) (fun _ => (none : Option Unit)) db ids).1 i = o at h
  cases hdb : db i with
  | none =>
    rw [hdb] at h
    cases o with
    | none => exact .none
    | some c' => split at h <;> cases h
  | some c =>
    rw [hdb] at h
    cases o with
    | none => split at h <;> cases h
    | some c' =>
      refine .some ?_
      split
      · next hi =>
        have hc : c'.alertMutes = c.alertMutes.filter (· ∉ how.checkMutes kind i) := by
          simpa [hi] using h
        unfold CheckMoves
        rw [hc]
        exact .give _ _
      · next hi =>
        have hc : c'.alertMutes = c.alertMutes := by simpa [hi] using h
        unfold CheckMoves
        rw [hc]
        exact .stay _ _

/-! ## A press -/

/-- What a row can do to the lists: nothing to another row, and to each list of each object a
move of this one holder. -/
structure Moved (w w' : World) (r : Nat) : Prop where
  rows : ∀ q, q ≠ r → w'.rows q = w.rows q
  servers : ∀ i, Option.Rel
    (ServerMoves (w.held .srv How.mutes i r) (w'.held .srv How.mutes i r)
      (w.held .srv How.marks i r) (w'.held .srv How.marks i r)) (w.servers i) (w'.servers i)
  checks : ∀ i, Option.Rel
    (CheckMoves (w.held .chk How.checkMutes i r) (w'.held .chk How.checkMutes i r))
    (w.checks i) (w'.checks i)

theorem rel_checks_stay (o : Option Check) (g : List String) : Option.Rel (CheckMoves g g) o o := by
  cases o with
  | none => exact .none
  | some c => exact .some (.stay _ _)

/-- Nothing of the lists and nothing of what is held is touched. -/
theorem Moved.same {w w' : World} {r : Nat} (hrows : ∀ q, q ≠ r → w'.rows q = w.rows q)
    (hheld : ∀ obj part i, w'.held obj part i r = w.held obj part i r)
    (hs : ∀ i, (w'.servers i).map Server.lists = (w.servers i).map Server.lists)
    (hc : w'.checks = w.checks) : Moved w w' r where
  rows := hrows
  servers i := by
    rw [hheld, hheld]
    exact rel_of_lists (hs i) _ _
  checks i := by
    rw [hheld, hc]
    exact rel_checks_stay _ _

theorem Moved.refl (w : World) (r : Nat) : Moved w w r :=
  .same (fun _ _ => rfl) (fun _ _ _ => rfl) (fun _ => rfl) rfl

@[simp] theorem setRow_servers (w : World) (r : Nat) (row : TgAlert) :
    (w.setRow r row).servers = w.servers := rfl

@[simp] theorem setRow_checks (w : World) (r : Nat) (row : TgAlert) :
    (w.setRow r row).checks = w.checks := rfl

theorem setRow_other (w : World) {q r : Nat} (h : q ≠ r) (row : TgAlert) :
    (w.setRow r row).rows q = w.rows q := by
  simp [World.setRow, h]

theorem held_setRow (w : World) (r : Nat) (row : TgAlert) (obj : Obj)
    (part : String → Nat → How → List String) (i : Nat) :
    (w.setRow r row).held obj part i r = row.gives obj part i :=
  held_of_row (by simp [World.setRow]) obj part i

variable {w : World} {r : Nat} {row : TgAlert}

/-- A row is written anew with what it gives back; servers get what is in no list. -/
theorem moved_setRow (hrow : w.rows r = some row) {row' : TgAlert} (href : row'.ref = row.ref)
    (hkind : row'.kind = row.kind) (hmute : row'.undo.mute = row.undo.mute)
    {db : Nat → Option Server}
    (hs : ∀ i, (db i).map Server.lists = (w.servers i).map Server.lists) :
    Moved w ({ w with servers := db }.setRow r row') r := by
  refine .same (fun q hq => setRow_other _ hq _) (fun obj part i => ?_) hs rfl
  rw [held_setRow, held_of_row hrow]
  unfold TgAlert.gives
  rw [href, hkind, hmute]

theorem pressAck_moved (hrow : w.rows r = some row) (who : String) (now : Int) :
    Moved w (pressAck w r row who now).world r := by
  unfold pressAck
  split
  · exact .refl w r
  · refine moved_setRow hrow ?_ ?_ ?_ fun _ => rfl <;> rfl

theorem pressUs_moved (hrow : w.rows r = some row) (who : String) (now : Int) :
    Moved w (pressUs w r row who now).world r := by
  unfold pressUs
  split
  · next first _ _ =>
    split
    · exact .refl w r
    split
    · exact .refl w r
    split
    · exact .refl w r
    · next s hs =>
      refine moved_setRow hrow ?_ ?_ ?_ fun i => ?_
      iterate 3 rfl
      by_cases hi : i = first
      · subst hi
        simp [hs, Server.lists]
      · simp [hi]
  · exact .refl w r

theorem pressFix_moved (hrow : w.rows r = some row) (still : Nat → String) (who : String) :
    Moved w (pressFix still w r row who).world r := by
  unfold pressFix
  split
  · split
    · exact .refl w r
    split
    · exact .refl w r
    dsimp only
    generalize List.filterMap _ _ = left
    split
    · exact .refl w r
    · refine moved_setRow hrow ?_ ?_ ?_ fun _ => rfl <;> rfl
  · exact .refl w r

theorem pressUndo_moved (z : Zone) (hrow : w.rows r = some row) (who : String) (now : Int) :
    Moved w (pressUndo z w r row who now).world r := by
  unfold pressUndo
  cases hmute : row.undo.mute with
  | none => exact .refl w r
  | some how =>
    have hold : ∀ obj part i, w.held obj part i r = row.gives obj part i := held_of_row hrow
    have hnew : ∀ row' : TgAlert, row'.undo.mute = none → ∀ (w' : World) obj part i,
        (w'.setRow r row').held obj part i r = [] := by
      intro row' h w' obj part i
      rw [held_setRow, gives_none h]
    refine ⟨fun q hq => ?_, fun i => ?_, fun i => ?_⟩
    · rw [setRow_other _ hq]
      unfold unmute
      split <;> rfl
    · rw [hold, hold, hnew _ rfl, hnew _ rfl]
      unfold unmute TgAlert.gives
      rw [hmute]
      rcases hr : row.ref with - | ⟨- | -, ids⟩
      · exact rel_of_lists rfl _ _
      · simpa using unmuteServers_moves row.kind now how ids w.servers i
      · simpa using rel_of_lists rfl _ _
    · rw [hold, hnew _ rfl]
      unfold unmute TgAlert.gives
      rw [hmute]
      rcases hr : row.ref with - | ⟨- | -, ids⟩
      · exact rel_checks_stay _ _
      · simpa using rel_checks_stay (w.checks i) []
      · simpa using unmuteChecks_moves row.kind how ids w.checks i

theorem pressMute_moved (z : Zone) (hrow : w.rows r = some row) (op : Op) (who : String)
    (now : Int) : Moved w (pressMute z w r row op who now).world r := by
  unfold pressMute
  split
  · exact .refl w r
  next hno =>
  have hmute : row.undo.mute = none := by simpa using hno
  have hold : ∀ obj part i, w.held obj part i r = [] := fun obj part i => by
    rw [held_of_row hrow, gives_none hmute]
  dsimp only
  generalize (muteTime z op now).1 = until_
  unfold mute
  rcases hr : row.ref with - | ⟨- | -, ids⟩
  · exact .refl w r
  · by_cases hany : (ids.any fun i => (w.servers i).isSome) = true
    · simp only [hany, if_true]
      refine ⟨fun q hq => setRow_other _ hq _, fun i => ?_, fun i => ?_⟩
      · rw [hold, hold, held_setRow, held_setRow]
        simpa [TgAlert.gives, hr] using muteServers_adds row until_ who now ids w.servers i
      · rw [hold, held_setRow]
        simpa [TgAlert.gives, hr] using rel_checks_stay (w.checks i) []
    · simp only [hany]
      exact .refl w r
  · by_cases hany : (ids.any fun i => (w.checks i).isSome) = true
    · simp only [hany, if_true]
      refine ⟨fun q hq => setRow_other _ hq _, fun i => ?_, fun i => ?_⟩
      · rw [hold, hold, held_setRow, held_setRow]
        simpa [TgAlert.gives, hr] using rel_of_lists (o := w.servers i) rfl [] []
      · rw [hold, held_setRow]
        simpa [TgAlert.gives, hr] using muteChecks_moves row until_ ids w.checks i
    · simp only [hany]
      exact .refl w r

theorem apply_moved (z : Zone) (still : Nat → String) (hrow : w.rows r = some row) (op : Op)
    (who : String) (user : Option User) (now : Int) :
    Moved w (apply z still w r row op who user now).world r := by
  unfold apply
  split
  · exact .refl w r
  split
  · exact .refl w r
  cases op with
  | ack => exact pressAck_moved hrow who now
  | us => exact pressUs_moved hrow who now
  | fix => exact pressFix_moved hrow still who
  | undo => exact pressUndo_moved z hrow who now
  | hour => exact pressMute_moved z hrow .hour who now
  | morning => exact pressMute_moved z hrow .morning who now
  | forever => exact pressMute_moved z hrow .forever who now

/-- Whatever is pressed and whoever presses it. -/
theorem handleCallback_moved (z : Zone) (w : World) (p : Press) :
    Moved w (handleCallback z w p).world p.id := by
  unfold handleCallback
  cases hrow : w.rows p.id with
  | none => exact .refl w p.id
  | some row =>
    dsimp only
    split
    · exact .refl w p.id
    · exact apply_moved z p.still hrow p.op _ _ p.now

end Kervax.TgBot
