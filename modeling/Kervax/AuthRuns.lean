-- Runs of the account handlers in any order of their steps: what a token that is
-- accepted says about its user, as long as no write is lost.
import Kervax.AuthGenerations
import Mathlib.Data.List.Nodup
import Mathlib.Order.Nat
import Mathlib.Tactic.Push

namespace Kervax.Auth

variable {key : String → String}

/-! ## What a step does to the rows -/

/-- Names, ids and rows are told apart. -/
structure Rows (db : DB) (births : Nat) : Prop where
  names : (db.users.map User.username).Nodup
  ids : (db.users.map User.id).Nodup
  rows : (db.users.map User.birth).Nodup
  fresh : ∀ u ∈ db.users, u.birth < births

theorem Rows.eq_of_name {db : DB} {births : Nat} (h : Rows db births) {u w : User}
    (hu : u ∈ db.users) (hw : w ∈ db.users) (he : u.username = w.username) : u = w :=
  List.inj_on_of_nodup_map h.names hu hw he

theorem Rows.eq_of_id {db : DB} {births : Nat} (h : Rows db births) {u w : User}
    (hu : u ∈ db.users) (hw : w ∈ db.users) (he : u.id = w.id) : u = w :=
  List.inj_on_of_nodup_map h.ids hu hw he

theorem Rows.eq_of_birth {db : DB} {births : Nat} (h : Rows db births) {u w : User}
    (hu : u ∈ db.users) (hw : w ∈ db.users) (he : u.birth = w.birth) : u = w :=
  List.inj_on_of_nodup_map h.rows hu hw he

/-- All that a commit may do: a row keeps its name and does not get an older
version, and a newer one if it is revoked; a new row starts at the setting of its
name; a row goes only when the setting is newer; and no setting gets older. -/
structure Moves (key : String → String) (db : DB) (births : Nat) (db' : DB) (births' : Nat)
    (es : List Event) : Prop where
  rows : ∀ w ∈ db'.users,
    (∃ u ∈ db.users, u.birth = w.birth ∧ u.username = w.username ∧ u.version ≤ w.version ∧
      (.revoked w.birth ∈ es → u.version < w.version)) ∨
    (w.birth = births ∧ (∀ u ∈ db.users, u.username ≠ w.username) ∧
      initialVersion key db w.username ≤ w.version)
  gone : ∀ u ∈ db.users, (∃ w ∈ db'.users, w.birth = u.birth) ∨
    u.version < initialVersion key db' u.username
  seeds : ∀ name, initialVersion key db name ≤ initialVersion key db' name
  births : births ≤ births'

/-- A commit that leaves accounts and settings as they are. -/
theorem Moves.same {db db' : DB} {births : Nat} (hu : db'.users = db.users)
    (hs : db'.settings = db.settings) {es : List Event} (he : ∀ g, .revoked g ∉ es) :
    Moves key db births db' births es := by
  refine ⟨?_, ?_, ?_, le_refl births⟩
  · intro w hw
    rw [hu] at hw
    exact .inl ⟨w, hw, rfl, rfl, le_refl _, fun h => absurd h (he _)⟩
  · intro u hm
    rw [hu]
    exact .inl ⟨u, hm, rfl⟩
  · intro name
    unfold initialVersion
    rw [hs]

theorem Rows.same {db db' : DB} {births : Nat} (h : Rows db births) (hu : db'.users = db.users) :
    Rows db' births := by
  obtain ⟨h1, h2, h3, h4⟩ := h
  rw [← hu] at h1 h2 h3 h4
  exact ⟨h1, h2, h3, h4⟩

/-! ## What stands for a name and a version -/

/-- A name and a version that a row had at some time, and what has become of it:
it is there with no older version, and whoever else has the name has a newer one;
or it is gone, and the setting is newer. -/
structure Cred (key : String → String) (db : DB) (births : Nat) (name : String) (version birth : Nat) :
    Prop where
  own : ∀ u ∈ db.users, u.birth = birth → u.username = name ∧ version ≤ u.version
  other : ∀ u ∈ db.users, u.username = name → u.birth ≠ birth → version < u.version
  gone : (∀ u ∈ db.users, u.birth ≠ birth) → version < initialVersion key db name
  born : birth < births

/-- A row stands for itself. -/
theorem cred_of_row {db : DB} {births : Nat} (h : Rows db births) {u : User} (hu : u ∈ db.users) :
    Cred key db births u.username u.version u.birth := by
  refine ⟨?_, ?_, ?_, h.fresh u hu⟩
  · intro w hw he
    obtain rfl := h.eq_of_birth hw hu he
    exact ⟨rfl, le_refl _⟩
  · intro w hw hn hne
    exact absurd (congrArg User.birth (h.eq_of_name hw hu hn)) hne
  · intro hno
    exact absurd rfl (hno u hu)

theorem Cred.move {db db' : DB} {births births' : Nat} {es : List Event} {name : String}
    {version birth : Nat} (h : Cred key db births name version birth)
    (hm : Moves key db births db' births' es) : Cred key db' births' name version birth := by
  refine ⟨?_, ?_, ?_, lt_of_lt_of_le h.born hm.births⟩
  · intro w hw hb
    rcases hm.rows w hw with ⟨u, hu, hub, hun, hle, -⟩ | ⟨hnew, -, -⟩
    · obtain ⟨hname, hv⟩ := h.own u hu (hub.trans hb)
      exact ⟨hun.symm.trans hname, le_trans hv hle⟩
    · exact absurd h.born (by omega)
  · intro w hw hn hne
    rcases hm.rows w hw with ⟨u, hu, hub, hun, hle, -⟩ | ⟨-, hfree, hseed⟩
    · exact lt_of_lt_of_le (h.other u hu (hun.trans hn) (hub ▸ hne)) hle
    · -- the name was free, so its old row was gone
      have hgone : ∀ u ∈ db.users, u.birth ≠ birth := by
        intro u hu hub
        exact hfree u hu ((h.own u hu hub).1.trans hn.symm)
      rw [hn] at hseed
      exact lt_of_lt_of_le (h.gone hgone) hseed
  · intro hno
    by_cases hwas : ∃ u ∈ db.users, u.birth = birth
    · obtain ⟨u, hu, hub⟩ := hwas
      obtain ⟨hname, hv⟩ := h.own u hu hub
      rcases hm.gone u hu with ⟨w, hw, hwb⟩ | hlt
      · exact absurd (hwb.trans hub) (hno w hw)
      · rw [hname] at hlt
        exact lt_of_le_of_lt hv hlt
    · push Not at hwas
      exact lt_of_lt_of_le (h.gone hwas) (hm.seeds name)

/-- An identity in a token, with what has happened since: if its row was revoked,
the row has a newer version. -/
def Stands (key : String → String) (db : DB) (births : Nat) (name : String) (version birth : Nat)
    (since : List Event) : Prop :=
  Cred key db births name version birth ∧
    (.revoked birth ∈ since → ∀ u ∈ db.users, u.birth = birth → version < u.version)

theorem Stands.move {db db' : DB} {births births' : Nat} {es since : List Event} {name : String}
    {version birth : Nat} (h : Stands key db births name version birth since)
    (hm : Moves key db births db' births' es) :
    Stands key db' births' name version birth (since ++ es) := by
  refine ⟨h.1.move hm, ?_⟩
  intro hrev w hw hb
  rcases hm.rows w hw with ⟨u, hu, hub, -, hle, hlt⟩ | ⟨hnew, -, -⟩
  · rcases List.mem_append.mp hrev with hold | hnow
    · exact lt_of_lt_of_le (h.2 hold u hu (hub.trans hb)) hle
    · rw [← hb] at hnow
      exact lt_of_le_of_lt (h.1.own u hu (hub.trans hb)).2 (hlt hnow)
  · exact absurd h.1.born (by omega)

/-- An identity that stands and is shown by a row is the row's own, and nothing
has revoked it. -/
theorem Stands.accepted {db : DB} {births : Nat} {since : List Event} {birth : Nat} {u : User}
    (h : Stands key db births u.username u.version birth since) (hu : u ∈ db.users) :
    birth = u.birth ∧ .revoked birth ∉ since := by
  have hb : u.birth = birth := by
    by_contra hne
    exact lt_irrefl _ (h.1.other u hu rfl hne)
  exact ⟨hb.symm, fun hrev => lt_irrefl _ (h.2 hrev u hu hb)⟩

/-! ## The commits -/

/-- A write that changes nothing that tells rows apart. -/
structure Keeps (set : User → User) : Prop where
  id : ∀ u, (set u).id = u.id
  name : ∀ u, (set u).username = u.username
  birth : ∀ u, (set u).birth = u.birth

theorem mem_write {db : DB} {picks : User → Bool} {set : User → User} {w : User} :
    w ∈ (db.write picks set).users ↔ ∃ u ∈ db.users, (if picks u then set u else u) = w := by
  simp [DB.write]

theorem rows_write {db : DB} {births : Nat} (h : Rows db births) (picks : User → Bool)
    {set : User → User} (hk : Keeps set) : Rows (db.write picks set) births := by
  have hsame {α : Type} (f : User → α) (hf : ∀ u, f (set u) = f u) :
      (db.write picks set).users.map f = db.users.map f := by
    unfold DB.write
    rw [List.map_map]
    apply List.map_congr_left
    intro u _
    dsimp only [Function.comp]
    split
    · exact hf u
    · rfl
  refine ⟨?_, ?_, ?_, ?_⟩
  · rw [hsame _ hk.name]
    exact h.names
  · rw [hsame _ hk.id]
    exact h.ids
  · rw [hsame _ hk.birth]
    exact h.rows
  · intro w hw
    obtain ⟨u, hu, rfl⟩ := mem_write.mp hw
    split
    · rw [hk.birth]
      exact h.fresh u hu
    · exact h.fresh u hu

/-- A write that makes no version older, and a newer one where it revokes. -/
theorem moves_write {db : DB} {births : Nat} {picks : User → Bool} {set : User → User}
    (hk : Keeps set) {es : List Event}
    (hup : ∀ u ∈ db.users, picks u → u.version ≤ (set u).version)
    (hrev : ∀ u ∈ db.users, .revoked u.birth ∈ es → picks u ∧ u.version < (set u).version) :
    Moves key db births (db.write picks set) births es := by
  refine ⟨?_, ?_, fun _ => le_refl _, le_refl births⟩
  · intro w hw
    obtain ⟨u, hu, rfl⟩ := mem_write.mp hw
    refine .inl ⟨u, hu, ?_⟩
    cases hp : picks u with
    | true =>
      simp only [if_true]
      refine ⟨(hk.birth u).symm, (hk.name u).symm, hup u hu hp, ?_⟩
      intro he
      rw [hk.birth] at he
      exact (hrev u hu he).2
    | false =>
      simp only [Bool.false_eq_true, if_false]
      refine ⟨trivial, trivial, le_refl _, ?_⟩
      intro he
      rw [(hrev u hu he).1] at hp
      cases hp
  · intro u hu
    refine .inl ⟨_, mem_write.mpr ⟨u, hu, rfl⟩, ?_⟩
    split
    · exact hk.birth u
    · rfl

theorem initialVersion_merge (db : DB) (k : String) (version : Nat) (name : String) :
    initialVersion key db name ≤ initialVersion key (mergeRevocation db k version) name ∧
      (key name = k → version ≤ initialVersion key (mergeRevocation db k version) name) := by
  unfold initialVersion mergeRevocation
  dsimp only
  split
  · next hk =>
    subst hk
    split
    · next hnone => simp [hnone]
    · next old hold =>
      rw [hold]
      dsimp only [Option.getD_some]
      split <;> omega
  · next hk => exact ⟨le_refl _, fun h => absurd h hk⟩

theorem moves_merge (db : DB) (births : Nat) (k : String) (version : Nat) :
    Moves key db births (mergeRevocation db k version) births [] := by
  refine ⟨?_, ?_, fun name => (initialVersion_merge db k version name).1, le_refl births⟩
  · intro w hw
    exact .inl ⟨w, hw, rfl, rfl, le_refl _, fun h => by cases h⟩
  · intro u hu
    exact .inl ⟨u, hu, rfl⟩

/-- `retire` leaves the version of the row behind it. -/
theorem retire_spec {db db' : DB} {births : Nat} (h : Rows db births) {user : User}
    (hr : retire key db user = some db') {es : List Event}
    (hes : ∀ u ∈ db.users, .revoked u.birth ∈ es → u.id = user.id) :
    Moves key db births db' births es ∧ Rows db' births := by
  unfold retire at hr
  split at hr
  · cases hr
  · next row hrow =>
    obtain rfl := Option.some.inj hr
    have hmem := List.mem_of_find?_eq_some hrow
    have hids := List.find?_some hrow
    simp only [decide_eq_true_eq] at hids
    obtain ⟨hid, hname⟩ := hids
    constructor
    · refine ⟨?_, ?_, fun name => (initialVersion_merge db _ _ name).1, le_refl births⟩
      · intro w hw
        obtain ⟨hwas, hne⟩ := List.mem_filter.mp hw
        simp only [decide_eq_true_eq] at hne
        exact .inl ⟨w, hwas, rfl, rfl, le_refl _, fun he => absurd (hes w hwas he) hne⟩
      · intro u hu
        by_cases hgone : u.id = user.id
        · obtain rfl := h.eq_of_id hu hmem (hgone.trans hid.symm)
          have hkey : key u.username = key user.username := by rw [hname]
          have hle := (initialVersion_merge db _ (u.version + 1) u.username).2 hkey
          exact .inr (Nat.lt_of_succ_le hle)
        · exact .inl ⟨u, List.mem_filter.mpr ⟨hu, by simpa using hgone⟩, rfl⟩
    · have hsub := List.filter_sublist (l := db.users) (p := fun u => decide (u.id ≠ user.id))
      exact ⟨(hsub.map _).nodup h.names, (hsub.map _).nodup h.ids, (hsub.map _).nodup h.rows,
        fun u hu => h.fresh u (hsub.subset hu)⟩

/-- The row of a free name, at the setting of this name or above. -/
theorem insert_spec {db : DB} {births : Nat} (h : Rows db births) {new : User}
    (hname : db.named new.username = none) (hid : db.byId new.id = none)
    (hbirth : new.birth = births) (hseed : initialVersion key db new.username ≤ new.version) :
    Moves key db births { db with users := db.users ++ [new] } (births + 1) [] ∧
      Rows { db with users := db.users ++ [new] } (births + 1) := by
  have hfree : ∀ u ∈ db.users, u.username ≠ new.username := by
    simpa [DB.named] using hname
  have hfreeId : ∀ u ∈ db.users, u.id ≠ new.id := by
    simpa [DB.byId] using hid
  have hsnoc {α : Type} (f : User → α) (hf : (db.users.map f).Nodup)
      (hnew : ∀ u ∈ db.users, f u ≠ f new) : ((db.users ++ [new]).map f).Nodup := by
    rw [List.map_append, List.nodup_append]
    refine ⟨hf, List.nodup_singleton _, ?_⟩
    intro a ha b hb hab
    obtain ⟨u, hu, rfl⟩ := List.mem_map.mp ha
    rw [List.mem_singleton.mp hb] at hab
    exact hnew u hu hab
  constructor
  · refine ⟨?_, ?_, fun _ => le_refl _, Nat.le_succ births⟩
    · intro w hw
      rcases List.mem_append.mp hw with hw | hw
      · exact .inl ⟨w, hw, rfl, rfl, le_refl _, fun he => by cases he⟩
      · obtain rfl := List.mem_singleton.mp hw
        exact .inr ⟨hbirth, hfree, hseed⟩
    · intro u hu
      exact .inl ⟨u, List.mem_append_left _ hu, rfl⟩
  · refine ⟨hsnoc _ h.names hfree, hsnoc _ h.ids hfreeId, hsnoc _ h.rows ?_, ?_⟩
    · intro u hu he
      have := h.fresh u hu
      omega
    · intro u hu
      rcases List.mem_append.mp hu with hu | hu
      · exact Nat.lt_succ_of_lt (h.fresh u hu)
      · obtain rfl := List.mem_singleton.mp hu
        omega

/-! ## The steps -/

/-- The objects that a request holds. -/
def Local.users : Local → List User
  | .login u => [u]
  | .current u => [u]
  | .changed u => [u]
  | .deleting u => [u]
  | .target admin u => [admin, u]
  | .opening admin u => [admin, u]
  | .opened admin u _ _ => [admin, u]
  | .idle => []
  | .creating _ => []
  | .seeded _ _ => []

/-- No stored row of this id has a newer version than the object. -/
def upToDate (db : DB) (user : User) : Bool :=
  db.users.all fun w => w.id = user.id → w.version ≤ user.version

/-- No write is lost: what a logout or a reset has loaded is still the newest, and
so is the version that a new account was given. -/
def timely (key : String → String) (s : State) (a : Act) : Bool :=
  match a with
  | .logout i =>
    match s.locals i with
    | .current user => upToDate s.db user
    | _ => true
  | .resetPassword i =>
    match s.locals i with
    | .target _ user => upToDate s.db user
    | _ => true
  | .insert i _ _ =>
    match s.locals i with
    | .seeded name version => initialVersion key s.db name ≤ version
    | _ => true
  | _ => true

/-- A token is made from what a request holds. -/
def IssuedFrom (users : List User) (t : Token) (user : Nat) (admin : Option Nat) : Prop :=
  ∃ u ∈ users, t.sub = u.username ∧ t.ver = u.version ∧ user = u.birth ∧
    ∀ m, t.imp = some m →
      ∃ w ∈ users, m.imp = w.username ∧ m.impVer = w.version ∧ admin = some w.birth

/-- What a step does: its commit, its event, and what its request holds then. -/
structure Spec (key : String → String) (s s' : State) (es : List Event) : Prop where
  history : s'.history = s.history ++ es
  moves : Moves key s.db s.births s'.db s'.births es
  rows : Rows s'.db s'.births
  locals : ∀ i, ∀ u ∈ (s'.locals i).users, u ∈ (s.locals i).users ∨ u ∈ s'.db.users
  issued : ∀ t g a, .issued t g a ∈ es →
    es = [.issued t g a] ∧ ∃ i, IssuedFrom (s.locals i).users t g a

theorem locals_put {s : State} {i : Nat} {l : Local} {users : List User}
    (hl : ∀ u ∈ l.users, u ∈ (s.locals i).users ∨ u ∈ users) :
    ∀ j, ∀ u ∈ ((s.put i l).locals j).users, u ∈ (s.locals j).users ∨ u ∈ users := by
  intro j u hu
  unfold State.put at hu
  dsimp only at hu
  split at hu
  · next hj =>
    subst hj
    exact hl u hu
  · exact .inl hu

/-- A step that leaves the accounts and the history as they are. -/
theorem spec_quiet {s s' : State} (hr : Rows s.db s.births) (hu : s'.db.users = s.db.users)
    (hset : s'.db.settings = s.db.settings) (hh : s'.history = s.history)
    (hb : s'.births = s.births)
    (hl : ∀ i, ∀ u ∈ (s'.locals i).users, u ∈ (s.locals i).users ∨ u ∈ s.db.users) :
    Spec key s s' [] := by
  refine ⟨by simpa using hh, ?_, ?_, by rwa [hu], fun _ _ _ h => by cases h⟩
  · rw [hb]
    exact Moves.same hu hset fun _ h => by cases h
  · rw [hb]
    exact hr.same hu

theorem spec_same {s : State} (hr : Rows s.db s.births) : Spec key s s [] :=
  spec_quiet hr rfl rfl rfl rfl fun _ _ h => .inl h

theorem spec_put {s : State} (hr : Rows s.db s.births) {i : Nat} {l : Local}
    (hl : ∀ u ∈ l.users, u ∈ (s.locals i).users ∨ u ∈ s.db.users) :
    Spec key s (s.put i l) [] :=
  spec_quiet hr rfl rfl rfl rfl (locals_put hl)

theorem spec_issue {s : State} (hr : Rows s.db s.births) {i : Nat} {t : Token} {u : User}
    {a : Option User} (hi : IssuedFrom (s.locals i).users t u.birth (a.map User.birth)) :
    Spec key s ((s.issue t u a).put i .idle) [.issued t u.birth (a.map User.birth)] := by
  refine ⟨rfl, Moves.same rfl rfl (by simp), hr, locals_put (by simp [Local.users]), ?_⟩
  intro t' g a' h
  obtain ⟨rfl, rfl, rfl⟩ : t' = t ∧ g = u.birth ∧ a' = a.map User.birth := by simpa using h
  exact ⟨rfl, i, hi⟩

/-- A request comes to hold one user. -/
theorem spec_hold {s : State} (hr : Rows s.db s.births) {i : Nat} {l : Local} {user : User}
    (hl : l.users = [user]) (hu : user ∈ s.db.users ∨ user ∈ (s.locals i).users) :
    Spec key s (s.put i l) [] := by
  apply spec_put hr
  intro u h
  rw [hl] at h
  obtain rfl := List.mem_singleton.mp h
  exact hu.symm

/-- A token of its own account, for a user that the request holds. -/
theorem spec_issueOwn {s : State} (hr : Rows s.db s.births) {i : Nat} {user : User} {exp : Time}
    (hu : user ∈ (s.locals i).users) :
    Spec key s ((s.issue (createAccessToken user exp) user none).put i .idle)
      [.issued (createAccessToken user exp) user.birth none] := by
  refine spec_issue hr ⟨user, hu, rfl, rfl, rfl, ?_⟩
  intro m hm
  cases hm

/-- A commit that revokes. -/
theorem spec_revoke {s : State} {i : Nat} {l : Local} {picks : User → Bool} {db : DB}
    (hm : Moves key s.db s.births db s.births
      ((s.db.users.filter picks).map fun u => .revoked u.birth))
    (hr : Rows db s.births) (hl : ∀ u ∈ l.users, u ∈ (s.locals i).users ∨ u ∈ db.users) :
    Spec key s ((s.revoke picks db).put i l)
      ((s.db.users.filter picks).map fun u => .revoked u.birth) := by
  refine ⟨rfl, hm, hr, locals_put (s := s.revoke picks db) hl, ?_⟩
  intro t g a h
  simp at h

/-- Only rows that are picked are revoked. -/
theorem picked_of_revoked {db : DB} {births : Nat} (hr : Rows db births) {picks : User → Bool}
    {u : User} (hu : u ∈ db.users)
    (h : Event.revoked u.birth ∈ (db.users.filter picks).map fun u => .revoked u.birth) :
    picks u = true := by
  obtain ⟨w, hw, he⟩ := List.mem_map.mp h
  obtain ⟨hmem, hp⟩ := List.mem_filter.mp hw
  obtain rfl := hr.eq_of_birth hmem hu (Event.revoked.inj he)
  exact hp

/-- The write of a logout or a reset, where the object is up to date. -/
theorem spec_raise {s : State} (hr : Rows s.db s.births) {i : Nat} {user : User}
    (hup : upToDate s.db user = true) :
    Spec key s ((s.revoke (fun u => u.id = user.id) (raiseLoaded s.db user)).put i .idle)
      ((s.db.users.filter fun u => u.id = user.id).map fun u => .revoked u.birth) := by
  have hk : Keeps fun u => { u with version := user.version + 1 } :=
    ⟨fun _ => rfl, fun _ => rfl, fun _ => rfl⟩
  have hle : ∀ u ∈ s.db.users, u.id = user.id → u.version ≤ user.version := by
    intro u hu he
    simpa [he] using List.all_eq_true.mp hup u hu
  refine spec_revoke (moves_write hk ?_ ?_) (rows_write hr _ hk) (by simp [Local.users])
  · intro u hu hp
    exact Nat.le_succ_of_le (hle u hu (by simpa using hp))
  · intro u hu he
    have hp := picked_of_revoked hr hu he
    exact ⟨hp, Nat.lt_succ_of_le (hle u hu (by simpa using hp))⟩

theorem named_mem {db : DB} {name : String} {u : User} (h : db.named name = some u) :
    u ∈ db.users ∧ u.username = name :=
  ⟨List.mem_of_find?_eq_some h, by simpa using List.find?_some h⟩

/-- The user whom `get_current_user` gives is a row, and the token shows it. -/
theorem getCurrentUser_user {t : Token} {now : Time} {db dbAdmin dbImp : DB} {u : User}
    {admin : Option User} (h : getCurrentUser t now db dbAdmin dbImp = some (u, admin)) :
    u ∈ db.users ∧ t.sub = u.username ∧ t.ver = u.version ∧
      ∀ m, t.imp = some m → ∃ w, admin = some w ∧ w ∈ dbAdmin.users ∧ m.imp = w.username ∧
        m.impVer = w.version := by
  unfold getCurrentUser at h
  split at h
  · cases h
  · split at h
    · cases h
    · next user huser =>
      obtain ⟨hmem, hname⟩ := named_mem huser
      split at h
      · cases h
      · next hver =>
        simp only [not_or, not_not] at hver
        split at h
        · next himp =>
          obtain ⟨rfl, rfl⟩ : user = u ∧ none = admin := by simpa using h
          exact ⟨hmem, hname.symm, hver.1, fun m hm => by rw [himp] at hm; cases hm⟩
        · next m himp =>
          obtain ⟨w, hw, he⟩ := Option.map_eq_some_iff.mp h
          obtain ⟨rfl, rfl⟩ : user = u ∧ some w = admin := by simpa using he
          refine ⟨hmem, hname.symm, hver.1, ?_⟩
          intro m' hm'
          obtain rfl : m = m' := Option.some.inj (himp.symm.trans hm')
          unfold checkImpersonation at hw
          split at hw
          · next found _ hfound _ =>
            split at hw
            · next hall =>
              obtain rfl := Option.some.inj hw
              obtain ⟨hw1, hw2⟩ := named_mem hfound
              exact ⟨found, rfl, hw1, hw2.symm, hall.2.2.2.1⟩
            · cases hw
          · cases hw

theorem spec_target {s : State} (hr : Rows s.db s.births) {i id : Nat} {admin user : User}
    (hl : s.locals i = .current admin) (hg : getUser s admin id = some user) :
    Spec key s (s.put i (.target admin user)) [] := by
  apply spec_put hr
  intro u hu
  simp only [Local.users, List.mem_cons, List.not_mem_nil, or_false] at hu
  rcases hu with rfl | rfl
  · exact .inl (by simp [hl, Local.users])
  · unfold getUser at hg
    split at hg
    · obtain rfl := Option.some.inj hg
      exact .inl (by simp [hl, Local.users])
    · exact .inr (List.mem_of_find?_eq_some hg)

/-- A role is no credential. -/
theorem spec_setRole {s : State} (hr : Rows s.db s.births) {i : Nat} {user : User} {role : Role} :
    Spec key s { s.put i .idle with
      db := s.db.write (fun u => u.id = user.id) fun u => { u with role := role } } [] := by
  have hk : Keeps fun u => { u with role := role } := ⟨fun _ => rfl, fun _ => rfl, fun _ => rfl⟩
  refine ⟨by simp [State.put], moves_write hk ?_ ?_, rows_write hr _ hk,
    locals_put (by simp [Local.users]), fun _ _ _ h => by cases h⟩
  · intro u _ _
    exact le_refl u.version
  · intro u _ he
    cases he

theorem spec_changePassword {s : State} (hr : Rows s.db s.births) {i : Nat} {user : User} :
    ∃ es, Spec key s (changePassword s i user) es := by
  unfold changePassword
  dsimp only
  split
  · exact ⟨[], spec_put hr (by simp [Local.users])⟩
  · next row hrow =>
    have hk : Keeps fun u => { u with version := u.version + 1 } :=
      ⟨fun _ => rfl, fun _ => rfl, fun _ => rfl⟩
    refine ⟨_, spec_revoke (moves_write hk ?_ ?_) (rows_write hr _ hk) ?_⟩
    · intro u _ _
      exact Nat.le_succ u.version
    · intro u hu he
      exact ⟨picked_of_revoked hr hu he, Nat.lt_succ_self u.version⟩
    · intro u hu
      obtain rfl := List.mem_singleton.mp hu
      refine .inr (mem_write.mpr ⟨row, List.mem_of_find?_eq_some hrow, ?_⟩)
      exact if_pos (List.find?_some hrow)

theorem spec_deleteUser {s : State} (hr : Rows s.db s.births) {i : Nat} {user : User} :
    ∃ es, Spec key s (deleteUser key s i user) es := by
  unfold deleteUser
  split
  · exact ⟨[], spec_put hr (by simp [Local.users])⟩
  · next db hdb =>
    have hes : ∀ u ∈ s.db.users,
        Event.revoked u.birth ∈ (s.db.users.filter fun u => u.id = user.id).map
          (fun u => Event.revoked u.birth) → u.id = user.id :=
      fun u hu he => by simpa using picked_of_revoked hr hu he
    obtain ⟨hm, hrows⟩ := retire_spec hr hdb hes
    exact ⟨_, spec_revoke hm hrows (by simp [Local.users])⟩

theorem spec_insertUser {s : State} (hr : Rows s.db s.births) {i id : Nat} {name : String}
    {version : Nat} {role : Role} (hv : initialVersion key s.db name ≤ version) :
    ∃ es, Spec key s (insertUser s i id name version role) es := by
  unfold insertUser
  split
  · exact ⟨[], spec_put hr (by simp [Local.users])⟩
  · next hfree =>
    simp only [not_or, Bool.not_eq_true, Option.isSome_eq_false_iff, Option.isNone_iff_eq_none]
      at hfree
    have hnamed : s.db.named (User.mk id name version role s.births).username = none := hfree.1
    obtain ⟨hm, hrows⟩ := insert_spec hr hnamed hfree.2 rfl hv
    exact ⟨[], by simp [State.put], hm, hrows, locals_put (by simp [Local.users]),
      fun _ _ _ h => by cases h⟩

/-- One step of any request, if it loses no write. -/
theorem step_spec {s : State} (hr : Rows s.db s.births) {a : Act} (ht : timely key s a = true) :
    ∃ es, Spec key s (step key s a) es := by
  have hsame : ∃ es, Spec key s s es := ⟨[], spec_same hr⟩
  cases a with
  | login i name =>
    unfold step
    dsimp only
    split
    · next user _ hn => exact ⟨[], spec_hold hr rfl (.inl (named_mem hn).1)⟩
    · exact hsame
  | loginIssue i exp =>
    unfold step
    dsimp only
    split
    · next user hl => exact ⟨_, spec_issueOwn hr (by simp [hl, Local.users])⟩
    · exact hsame
  | authenticate i t now =>
    unfold step
    dsimp only
    split
    · next user _ hg =>
      split
      · exact ⟨[], spec_hold hr rfl (.inl (getCurrentUser_user hg).1)⟩
      · exact hsame
    · exact hsame
  | changePassword i =>
    unfold step
    dsimp only
    split
    · exact spec_changePassword hr
    · exact hsame
  | changeIssue i exp =>
    unfold step
    dsimp only
    split
    · next user hl => exact ⟨_, spec_issueOwn hr (by simp [hl, Local.users])⟩
    · exact hsame
  | logout i =>
    unfold step timely at *
    dsimp only at ht ⊢
    split
    · next user hl =>
      rw [hl] at ht
      exact ⟨_, spec_raise hr ht⟩
    · exact hsame
  | target i id =>
    unfold step
    dsimp only
    split
    · next admin hl =>
      split
      · next user hg =>
        split
        · exact ⟨[], spec_target hr hl hg⟩
        · exact hsame
      · exact hsame
    · exact hsame
  | resetPassword i =>
    unfold step timely at *
    dsimp only at ht ⊢
    split
    · next admin user hl =>
      rw [hl] at ht
      exact ⟨_, spec_raise hr ht⟩
    · exact hsame
  | setRole i role =>
    unfold step
    dsimp only
    split
    · exact ⟨[], spec_setRole hr⟩
    · exact hsame
  | countAdmins i =>
    unfold step
    dsimp only
    split
    · next admin user hl =>
      split
      · exact ⟨[], spec_hold hr rfl (.inr (by simp [hl, Local.users]))⟩
      · exact ⟨[], spec_put hr (by simp [Local.users])⟩
    · exact hsame
  | delete i =>
    unfold step
    dsimp only
    split
    · exact spec_deleteUser hr
    · exact hsame
  | create i name =>
    unfold step
    dsimp only
    split
    · split
      · exact hsame
      · exact ⟨[], spec_put hr (by simp [Local.users])⟩
    · split
      · exact hsame
      · exact ⟨[], spec_put hr (by simp [Local.users])⟩
    · exact hsame
  | seed i =>
    unfold step
    dsimp only
    split
    · exact ⟨[], spec_put hr (by simp [Local.users])⟩
    · exact hsame
  | insert i id role =>
    unfold step timely at *
    dsimp only at ht ⊢
    split
    · next name version hl =>
      rw [hl] at ht
      exact spec_insertUser hr (by simpa using ht)
    · exact hsame
  | closeOpen i =>
    unfold step
    dsimp only
    split
    · next admin user hl =>
      split
      · refine ⟨[], spec_quiet hr rfl rfl rfl rfl (locals_put ?_)⟩
        intro u hu
        exact .inl (by simpa [hl, Local.users] using hu)
      · exact ⟨[], spec_put hr (by simp [Local.users])⟩
    · exact hsame
  | openImp i imp exp =>
    unfold step
    dsimp only
    split
    · next admin user hl =>
      refine ⟨[], spec_quiet hr rfl rfl rfl rfl (locals_put ?_)⟩
      intro u hu
      exact .inl (by simpa [hl, Local.users] using hu)
    · exact hsame
  | issueImp i =>
    unfold step
    dsimp only
    split
    · next admin user imp exp hl =>
      refine ⟨_, spec_issue hr (a := some admin)
        ⟨user, by simp [hl, Local.users], rfl, rfl, rfl, ?_⟩⟩
      intro m hm
      obtain rfl := Option.some.inj hm
      exact ⟨admin, by simp [hl, Local.users], rfl, rfl, rfl⟩
    · exact hsame
  | stop i imp =>
    unfold step
    dsimp only
    split
    · split
      · exact ⟨[], spec_quiet hr rfl rfl rfl rfl (locals_put (by simp [Local.users]))⟩
      · exact hsame
    · exact hsame
  | restore k version =>
    exact ⟨[], by simp [step], moves_merge s.db s.births k version, hr.same rfl, fun _ _ h => .inl h,
      fun _ _ _ h => by cases h⟩

/-! ## Runs -/

/-- What holds between the steps: every loaded object and every identity in an
issued token stand. -/
structure Inv (key : String → String) (s : State) : Prop where
  rows : Rows s.db s.births
  loaded : ∀ i, ∀ u ∈ (s.locals i).users, Cred key s.db s.births u.username u.version u.birth
  issued : ∀ pre t g a post, s.history = pre ++ .issued t g a :: post →
    Stands key s.db s.births t.sub t.ver g post ∧
      ∀ m, t.imp = some m → ∃ w, a = some w ∧ Stands key s.db s.births m.imp m.impVer w post

/-- An event of a longer history is an old one, or one of those that came. -/
theorem split_history {old es pre post : List Event} {e : Event}
    (h : old ++ es = pre ++ e :: post) :
    (∃ rest, old = pre ++ e :: rest ∧ post = rest ++ es) ∨ ∃ pre', es = pre' ++ e :: post := by
  rcases List.append_eq_append_iff.mp h with ⟨pre', -, hes⟩ | ⟨rest, hold, hrest⟩
  · exact .inr ⟨pre', hes⟩
  · rcases rest with - | ⟨e', rest⟩
    · exact .inr ⟨[], by simpa using hrest.symm⟩
    · obtain ⟨rfl, rfl⟩ : e = e' ∧ post = rest ++ es := by simpa using hrest
      exact .inl ⟨rest, hold, rfl⟩

theorem inv_step {s : State} (hi : Inv key s) {a : Act} (ht : timely key s a = true) :
    Inv key (step key s a) := by
  obtain ⟨es, hspec⟩ := step_spec hi.rows ht
  refine ⟨hspec.rows, ?_, ?_⟩
  · intro i u hu
    rcases hspec.locals i u hu with hold | hrow
    · exact (hi.loaded i u hold).move hspec.moves
    · exact cred_of_row hspec.rows hrow
  · intro pre t g admin post hsplit
    rw [hspec.history] at hsplit
    rcases split_history hsplit with ⟨rest, hold, rfl⟩ | ⟨pre', hes⟩
    · obtain ⟨huser, hadmin⟩ := hi.issued pre t g admin rest hold
      refine ⟨huser.move hspec.moves, ?_⟩
      intro m hm
      obtain ⟨w, hw, hst⟩ := hadmin m hm
      exact ⟨w, hw, hst.move hspec.moves⟩
    · -- the token is made by this step, of objects that stand
      obtain ⟨hone, i, u, hu, hsub, hver, hbirth, hacting⟩ :=
        hspec.issued t g admin (by rw [hes]; simp)
      obtain rfl : post = [] := by
        have hlen := congrArg List.length (hes.symm.trans hone)
        simp only [List.length_append, List.length_cons, List.length_nil] at hlen
        exact List.length_eq_zero_iff.mp (by omega)
      constructor
      · rw [hsub, hver, hbirth]
        exact ⟨(hi.loaded i u hu).move hspec.moves, fun h => by cases h⟩
      · intro m hm
        obtain ⟨w, hw, hname, hv, ha⟩ := hacting m hm
        rw [hname, hv]
        exact ⟨w.birth, ha, (hi.loaded i w hw).move hspec.moves, fun h => by cases h⟩

theorem inv_after {acts : List Act}
    (h : Runs.Along (step key) (fun s a => timely key s a = true) {} acts) :
    Inv key (after key acts) := by
  refine Runs.inv_run (I := Inv key) (C := fun s a => timely key s a = true) ?_
    (fun _ _ hi ht => inv_step hi ht) h
  refine ⟨⟨List.nodup_nil, List.nodup_nil, List.nodup_nil, fun u hu => by cases hu⟩, ?_, ?_⟩
  · intro i u hu
    cases hu
  · intro pre t g a post he
    simp at he

/-- As long as no write is lost, a token dies with what it was issued for. The user
and the admin may be read at different moments of the run (`acts`, and `acts`
with `more`): a token that is then accepted was issued to these very rows, and
nothing committed between the issue and the read has revoked them. -/
theorem tokens_die_with_their_account (key : String → String) (acts more : List Act)
    (h : Runs.Along (step key) (fun s a => timely key s a = true) {} (acts ++ more))
    (t : Token) (now : Time) (dbImp : DB) (user : User) (admin : Option User)
    (ha : getCurrentUser t now (after key acts).db (after key (acts ++ more)).db dbImp =
      some (user, admin)) :
    (∀ pre g a since, (after key acts).history = pre ++ .issued t g a :: since →
      g = user.birth ∧ .revoked user.birth ∉ since) ∧
    ∀ m, t.imp = some m → ∃ w, admin = some w ∧
      ∀ pre g a since, (after key (acts ++ more)).history = pre ++ .issued t g a :: since →
        a = some w.birth ∧ .revoked w.birth ∉ since := by
  have hacts := (Runs.along_append.mp h).1
  obtain ⟨hmem, hsub, hver, hacting⟩ := getCurrentUser_user ha
  constructor
  · intro pre g a since hsplit
    obtain ⟨hst, -⟩ := (inv_after hacts).issued pre t g a since hsplit
    rw [hsub, hver] at hst
    obtain ⟨rfl, hno⟩ := hst.accepted hmem
    exact ⟨rfl, hno⟩
  · intro m hm
    obtain ⟨w, rfl, hw, hname, hv⟩ := hacting m hm
    refine ⟨w, rfl, ?_⟩
    intro pre g a since hsplit
    obtain ⟨-, hst⟩ := (inv_after h).issued pre t g a since hsplit
    obtain ⟨b, rfl, hb⟩ := hst m hm
    rw [hname, hv] at hb
    obtain ⟨rfl, hno⟩ := hb.accepted hw
    exact ⟨rfl, hno⟩

/-! ## Two accounts -/

/-- An account as it is made, and the token that a login gives it. -/
def anna : User := { id := 1, username := "anna", version := 0, role := .admin, birth := 0 }
def bob : User := { id := 2, username := "bob", version := 0, role := .viewer, birth := 1 }

def makeAnna : List Act := [.create 0 "anna", .seed 0, .insert 0 1 .admin]
def makeBob : List Act := [.create 0 "bob", .seed 0, .insert 0 2 .viewer]

/-- Anna logs in, and then Bob logs in and out. -/
def annaThenBob : List Act :=
  makeAnna ++ makeBob ++ [.login 1 "anna", .loginIssue 1 50, .login 2 "bob", .loginIssue 2 50,
    .authenticate 3 (createAccessToken bob 50) 10, .logout 3]

/-- The logout of Bob leaves the token of Anna hers. -/
theorem tokens_die_with_their_account_bob :
    Event.revoked 0 ∉ [Event.issued (createAccessToken bob 50) 1 none, .revoked 1] :=
  ((tokens_die_with_their_account (fun name => name) annaThenBob []
    (by simp only [annaThenBob, makeAnna, makeBob, List.cons_append, List.nil_append, Runs.Along]
        decide)
    (createAccessToken anna 50) 20 {} anna none (by decide)).1 [] 0 none _ (by decide)).2

/-- A logout loads Anna's row, her password is changed and a token issued, and then
the logout writes the version that this token has. -/
def lateLogout : List Act :=
  makeAnna ++ [.login 1 "anna", .loginIssue 1 50, .authenticate 2 (createAccessToken anna 50) 10,
    .authenticate 3 (createAccessToken anna 50) 10, .changePassword 3, .changeIssue 3 60, .logout 2]

/-- The token that was there when Anna logged out is still accepted. -/
theorem a_late_logout_revokes_nothing :
    ¬ ∀ (acts : List Act) (t : Token) (now : Time) (user : User),
      getCurrentUser t now (after (fun name => name) acts).db (after (fun name => name) acts).db
        (after (fun name => name) acts).db = some (user, none) →
      ∀ pre g a since, (after (fun name => name) acts).history = pre ++ .issued t g a :: since →
        g = user.birth ∧ .revoked user.birth ∉ since := by
  intro h
  have := h lateLogout (createAccessToken { anna with version := 1 } 60) 20
    { anna with version := 1 } (by decide)
    [.issued (createAccessToken anna 50) 0 none, .revoked 0] 0 none [.revoked 0] (by decide)
  exact absurd this (by decide)

end Kervax.Auth
