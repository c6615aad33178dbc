-- The guard of the last administrator (`update_user`, `delete_user` in `api/users.py`):
-- the reads and the commits of both handlers, each a step of its own, so that the steps
-- of other requests may come between them.
import Kervax.AuthGenerations

namespace Kervax.Admins

open Auth (Role)
open Runs

/-! ## The rows -/

structure User where
  id : Nat
  username : String
  role : Role
deriving DecidableEq, Repr

/-- The table: no two rows have the same id. -/
structure Users where
  rows : List User
  unique : (rows.map User.id).Nodup

/-- `select(func.count()).where(User.role == "admin")`. -/
def Users.admins (us : Users) : Nat := us.rows.countP fun u => u.role = .admin

/-- The UPDATE of one role. -/
def Users.setRole (us : Users) (id : Nat) (role : Role) : Users where
  rows := us.rows.map fun u => if u.id = id then { u with role := role } else u
  unique := by
    have hids : (us.rows.map fun u => if u.id = id then { u with role := role } else u).map User.id =
        us.rows.map User.id := by
      rw [List.map_map]
      refine List.map_congr_left fun u _ => ?_
      simp only [Function.comp_apply]
      split <;> rfl
    rw [hids]
    exact us.unique

/-- The DELETE of one row. -/
def Users.delete (us : Users) (id : Nat) : Users where
  rows := us.rows.filter fun u => u.id ≠ id
  unique := us.unique.sublist (List.filter_sublist.map User.id)

/-! ## The handlers -/

/-- What a request holds between its steps; `admins` is the count that it made. -/
inductive Local
  | idle
  | current (admin : User)
  | target (admin user : User)
  | writing (user : User) (role : Role) (admins : Option Nat)
  | deleting (user : User) (admins : Option Nat)
deriving DecidableEq, Repr

structure State where
  users : Users
  locals : Nat → Local := fun _ => .idle

/-- One step of a request: a read or a commit. -/
inductive Act
  /-- `get_admin_user`. -/
  | authenticate (i id : Nat)
  /-- `session.get(User, user_id)`. -/
  | load (i id : Nat)
  /-- `update_user` up to its commit, with the role of the body. -/
  | checkRole (i : Nat) (role : Option Role)
  | commitRole (i : Nat)
  /-- `delete_user` up to `retire`, and from `retire` to its commit. -/
  | checkDelete (i : Nat)
  | commitDelete (i : Nat)
deriving Repr

def State.put (s : State) (i : Nat) (l : Local) : State :=
  { s with locals := fun j => if j = i then l else s.locals j }

/-- Only an administrator's role needs the count. -/
def counted (us : Users) (user : User) : Option Nat :=
  if user.role = .admin then some us.admins else none

/-- `(admins or 0) <= 1`. -/
def refused (admins : Option Nat) : Bool := admins.any (· ≤ 1)

/-- One step of a request. A step that is not the request's turn does nothing. -/
def step (s : State) (a : Act) : State :=
  match a with
  | .authenticate i id =>
    match s.locals i, s.users.rows.find? fun u => u.id = id with
    | .idle, some admin => if admin.role = .admin then s.put i (.current admin) else s
    | _, _ => s
  | .load i id =>
    match s.locals i with
    | .current admin =>
      -- the session gives its own object for the id that it already has
      if id = admin.id then s.put i (.target admin admin)
      else
        match s.users.rows.find? fun u => u.id = id with
        | some user => s.put i (.target admin user)
        | none => s.put i .idle
    | _ => s
  | .checkRole i role =>
    match s.locals i, role with
    | .target _ user, some role =>
      if role = user.role ∨ refused (counted s.users user) = true then s.put i .idle
      else s.put i (.writing user role (counted s.users user))
    | .target _ _, none => s.put i .idle
    | _, _ => s
  | .commitRole i =>
    match s.locals i with
    | .writing user role _ => { s.put i .idle with users := s.users.setRole user.id role }
    | _ => s
  | .checkDelete i =>
    match s.locals i with
    | .target admin user =>
      if user.id = admin.id ∨ refused (counted s.users user) = true then s.put i .idle
      else s.put i (.deleting user (counted s.users user))
    | _ => s
  | .commitDelete i =>
    match s.locals i with
    | .deleting user _ =>
      if s.users.rows.any fun u => u.id = user.id ∧ u.username = user.username then
        { s.put i .idle with users := s.users.delete user.id }
      else s.put i .idle
    | _ => s

/-! ## One commit -/

/-- The administrators beside one row. -/
def Users.others (us : Users) (id : Nat) : Nat :=
  (us.rows.filter fun u => u.id ≠ id).countP fun u => u.role = .admin

theorem admins_split (us : Users) (id : Nat) :
    us.admins = (us.rows.filter fun u => u.id = id).countP (fun u => u.role = .admin) +
      us.others id := by
  unfold Users.admins Users.others
  rw [List.countP_eq_countP_filter_add us.rows _ fun u => decide (u.id = id)]
  simp only [decide_not]

theorem length_filter_id (us : Users) (id : Nat) :
    (us.rows.filter fun u => u.id = id).length ≤ 1 := by
  have hsub : ((us.rows.filter fun u => u.id = id).map User.id).Nodup :=
    us.unique.sublist (List.filter_sublist.map User.id)
  have hrep : (us.rows.filter fun u => u.id = id).map User.id =
      List.replicate (us.rows.filter fun u => u.id = id).length id := by
    rw [List.eq_replicate_iff]
    refine ⟨by simp, fun n hn => ?_⟩
    obtain ⟨u, hu, rfl⟩ := List.mem_map.mp hn
    simpa using (List.mem_filter.mp hu).2
  rw [hrep] at hsub
  exact List.nodup_replicate.mp hsub

/-- A row is one administrator at most. -/
theorem admins_le_others (us : Users) (id : Nat) : us.admins ≤ us.others id + 1 := by
  have hone := length_filter_id us id
  have hle := List.countP_le_length (p := fun u : User => decide (u.role = .admin))
    (l := us.rows.filter fun u => u.id = id)
  rw [admins_split us id]
  omega

theorem admins_eq_others {us : Users} {id : Nat}
    (h : ∀ u ∈ us.rows, u.id = id → u.role ≠ .admin) : us.admins = us.others id := by
  have hzero : (us.rows.filter fun u => u.id = id).countP (fun u => u.role = .admin) = 0 := by
    rw [List.countP_eq_zero]
    intro u hu
    obtain ⟨hin, hid⟩ := List.mem_filter.mp hu
    simpa using h u hin (by simpa using hid)
  rw [admins_split us id, hzero, Nat.zero_add]

/-- A write of one role leaves the other rows alone. -/
theorem others_le_setRole (us : Users) (id : Nat) (role : Role) :
    us.others id ≤ (us.setRole id role).admins := by
  have hsame : (us.setRole id role).others id = us.others id := by
    unfold Users.others Users.setRole
    rw [List.filter_map, List.countP_map]
    have hfilter : us.rows.filter ((fun u => decide (u.id ≠ id)) ∘
        fun u => if u.id = id then { u with role := role } else u) =
          us.rows.filter fun u => decide (u.id ≠ id) := by
      apply List.filter_congr
      intro u _
      simp only [Function.comp_apply]
      split <;> rfl
    rw [hfilter]
    apply List.countP_congr
    intro u hu
    have hne : u.id ≠ id := by simpa using (List.mem_filter.mp hu).2
    simp [hne]
  rw [admins_split (us.setRole id role) id, hsame]
  omega

/-! ## Runs -/

/-- What the request has read is still so: the row has the role that was loaded, and no
administrator has gone since they were counted. -/
def asRead (us : Users) (user : User) (admins : Option Nat) : Bool :=
  (us.rows.all fun u => u.id ≠ user.id || u.role = user.role) && admins.all (· ≤ us.admins)

/-- At a commit, what its request has read is still so. -/
def InTime (s : State) (a : Act) : Prop :=
  match a with
  | .commitRole i =>
    ∀ user role admins, s.locals i = .writing user role admins → asRead s.users user admins = true
  | .commitDelete i =>
    ∀ user admins, s.locals i = .deleting user admins → asRead s.users user admins = true
  | _ => True

/-- A request that goes on to its commit has seen a second administrator, if it takes the
role from one. -/
def Guarded (l : Local) : Prop :=
  match l with
  | .writing user _ admins => user.role = .admin → ∃ n, admins = some n ∧ 1 < n
  | .deleting user admins => user.role = .admin → ∃ n, admins = some n ∧ 1 < n
  | _ => True

structure Inv (s : State) : Prop where
  admin : 0 < s.users.admins
  locals : ∀ i, Guarded (s.locals i)

theorem guarded_of_counted {us : Users} {user : User} (h : ¬refused (counted us user) = true)
    (hrole : user.role = .admin) : ∃ n, counted us user = some n ∧ 1 < n := by
  have hcount : counted us user = some us.admins := if_pos hrole
  rw [hcount] at h ⊢
  exact ⟨us.admins, rfl, by simpa [refused] using h⟩

theorem locals_put {s : State} {i : Nat} {l : Local} (h : ∀ j, Guarded (s.locals j))
    (hl : Guarded l) : ∀ j, Guarded ((s.put i l).locals j) := by
  intro j
  by_cases hj : j = i
  · simpa [State.put, hj] using hl
  · simpa [State.put, hj] using h j

theorem Inv.put {s : State} (h : Inv s) (i : Nat) {l : Local} (hl : Guarded l) :
    Inv (s.put i l) :=
  ⟨h.admin, locals_put h.locals hl⟩

/-- The guard holds for the other rows as long as it was read in time. -/
theorem others_pos {us : Users} {user : User} {admins : Option Nat} (hpos : 0 < us.admins)
    (hguard : user.role = .admin → ∃ n, admins = some n ∧ 1 < n)
    (hread : asRead us user admins = true) : 0 < us.others user.id := by
  obtain ⟨hrole, hcount⟩ := Bool.and_eq_true_iff.mp hread
  by_cases hadmin : user.role = .admin
  · obtain ⟨n, rfl, hn⟩ := hguard hadmin
    have hle : n ≤ us.admins := by simpa using hcount
    have hone := admins_le_others us user.id
    omega
  · rw [← admins_eq_others]
    · exact hpos
    · intro u hu hid
      have hu' := List.all_eq_true.mp hrole u hu
      simp only [hid, ne_eq, not_true_eq_false, decide_false, Bool.false_or,
        decide_eq_true_eq] at hu'
      rw [hu']
      exact hadmin

theorem inv_step {s : State} {a : Act} (hi : Inv s) (ht : InTime s a) : Inv (step s a) := by
  cases a with
  | authenticate i id =>
    unfold step
    dsimp only
    split
    · split
      · exact hi.put i trivial
      · exact hi
    · exact hi
  | load i id =>
    unfold step
    dsimp only
    split
    · split
      · exact hi.put i trivial
      · split
        · exact hi.put i trivial
        · exact hi.put i trivial
    · exact hi
  | checkRole i role =>
    unfold step
    dsimp only
    split
    · split
      · exact hi.put i trivial
      · next hpass =>
        exact hi.put i (guarded_of_counted fun href => hpass (Or.inr href))
    · exact hi.put i trivial
    · exact hi
  | commitRole i =>
    unfold step
    dsimp only
    split
    · next user role admins hl =>
      refine ⟨?_, locals_put hi.locals trivial⟩
      have hguard : Guarded (.writing user role admins) := hl ▸ hi.locals i
      exact Nat.lt_of_lt_of_le (others_pos hi.admin hguard (ht user role admins hl))
        (others_le_setRole s.users user.id role)
    · exact hi
  | checkDelete i =>
    unfold step
    dsimp only
    split
    · split
      · exact hi.put i trivial
      · next hpass =>
        exact hi.put i (guarded_of_counted fun href => hpass (Or.inr href))
    · exact hi
  | commitDelete i =>
    unfold step
    dsimp only
    split
    · next user admins hl =>
      split
      · refine ⟨?_, locals_put hi.locals trivial⟩
        have hguard : Guarded (.deleting user admins) := hl ▸ hi.locals i
        exact others_pos hi.admin hguard (ht user admins hl)
      · exact hi.put i trivial
    · exact hi

/-- Between requests. -/
def start (us : Users) : State := { users := us }

/-- In every run whose commits come in time, after every step someone is an administrator. -/
theorem an_admin_stays (us : Users) (acts : List Act) (hadmin : 0 < us.admins)
    (htime : Along step InTime (start us) acts) :
    Along step (fun s a => 0 < (step s a).users.admins) (start us) acts := by
  have h0 : Inv (start us) := ⟨hadmin, fun _ => trivial⟩
  refine step_of_run h0 (fun s a => inv_step) (fun s a hi ht => ?_) htime
  exact (inv_step hi ht).admin

/-! ## Two administrators -/

def anna : User := { id := 1, username := "anna", role := .admin }
def bob : User := { id := 2, username := "bob", role := .admin }
def both : Users := { rows := [anna, bob], unique := by decide }

/-- Anna takes the role from Bob, then asks to take it from herself and is refused. -/
def annaTwice : List Act :=
  [.authenticate 0 1, .load 0 2, .checkRole 0 (some .viewer), .commitRole 0, .authenticate 0 1,
    .load 0 1, .checkRole 0 (some .viewer), .commitRole 0]

theorem an_admin_stays_after_anna :
    Along step (fun s a => 0 < (step s a).users.admins) (start both) annaTwice :=
  an_admin_stays both annaTwice (by decide) (by
    refine ⟨trivial, trivial, trivial, ?_, trivial, trivial, trivial, ?_, trivial⟩
    · intro user role admins hl
      obtain ⟨rfl, rfl, rfl⟩ : bob = user ∧ Role.viewer = role ∧ some 2 = admins :=
        Local.writing.inj hl
      decide
    · intro user role admins hl
      cases hl)

/-- Anna and Bob take the role from each other, and each has counted two. -/
def atOnce : List Act :=
  [.authenticate 0 1, .authenticate 1 2, .load 0 2, .load 1 1, .checkRole 0 (some .viewer),
    .checkRole 1 (some .viewer), .commitRole 0, .commitRole 1]

theorem no_admin_is_left :
    ¬∀ (us : Users) (acts : List Act), 0 < us.admins →
      Along step (fun s a => 0 < (step s a).users.admins) (start us) acts := by
  intro h
  obtain ⟨-, -, -, -, -, -, -, hlast, -⟩ := h both atOnce (by decide)
  revert hlast
  decide

end Kervax.Admins
