-- Accounts and their tokens (`auth_generations.py`, `deps.py`, `api/auth.py`,
-- `api/users.py`): the rows, the version that outlives a row, what a token must
-- show, and the handlers step by step between their reads and commits.
import Kervax.Runs
import Kervax.Kinds

namespace Kervax.Auth

/-! ## The database -/

inductive Role
  | admin
  | editor
  | viewer
deriving DecidableEq, Repr

/-- A row of `users`, and the object that is loaded from it. The database may give
a name or an id again; `birth` is the row itself, which it never gives again. -/
structure User where
  id : Nat
  username : String
  version : Nat
  role : Role
  birth : Nat
deriving DecidableEq, Repr

/-- A row of `impersonations`. -/
structure Impersonation where
  id : Nat
  admin : String
  target : String
  expires : Time
  ended : Bool := false
deriving DecidableEq, Repr

/-- What is committed. -/
structure DB where
  users : List User := []
  settings : String → Option Nat := fun _ => none
  imps : List Impersonation := []

/-- The row of a name, of an id. -/
def DB.named (db : DB) (name : String) : Option User := db.users.find? fun u => u.username = name
def DB.byId (db : DB) (id : Nat) : Option User := db.users.find? fun u => u.id = id

variable (key : String → String)

/-- `initial_version`; `key` is the name of the setting that an account name has. -/
def initialVersion (db : DB) (name : String) : Nat := (db.settings (key name)).getD 0

/-- `merge_revocation`: one UPSERT that never lowers. -/
def mergeRevocation (db : DB) (k : String) (version : Nat) : DB :=
  { db with settings := fun j =>
      if j = k then
        match db.settings k with
        | none => some version
        | some old => some (if old < version then version else old)
      else db.settings j }

/-- A write of the rows that a `WHERE` picks. -/
def DB.write (db : DB) (picks : User → Bool) (set : User → User) : DB :=
  { db with users := db.users.map fun u => if picks u then set u else u }

/-- The commit of `user.token_version += 1`: the row of this id gets the version
that the object has now. -/
def raiseLoaded (db : DB) (user : User) : DB :=
  db.write (fun u => u.id = user.id) fun u => { u with version := user.version + 1 }

/-- `retire` with the rest of the transaction of `delete_user`: the stored version
goes up and into the setting of the name, open impersonations end, the row goes. -/
def retire (db : DB) (user : User) : Option DB :=
  match db.users.find? fun u => u.id = user.id ∧ u.username = user.username with
  | none => none
  | some row =>
    let merged := mergeRevocation db (key user.username) (row.version + 1)
    some { merged with
      users := db.users.filter fun u => u.id ≠ user.id
      imps := db.imps.map fun i =>
        if i.admin = user.username ∨ i.target = user.username then { i with ended := true } else i }

/-! ## Tokens -/

/-- The second identity of a token for the panel as another user sees it. -/
structure Acting where
  imp : String
  impUid : Nat
  impVer : Nat
  impId : Nat
deriving DecidableEq, Repr

/-- The payload of a token. -/
structure Token where
  sub : String
  ver : Nat
  uid : Option Nat
  exp : Time
  imp : Option Acting := none
deriving DecidableEq, Repr

/-- `create_access_token` as the handlers call it. -/
def createAccessToken (user : User) (exp : Time) : Token :=
  { sub := user.username, ver := user.version, uid := some user.id, exp := exp }

/-- `create_impersonation_token`. -/
def createImpersonationToken (user admin : User) (imp : Nat) (exp : Time) : Token :=
  { sub := user.username, ver := user.version, uid := some user.id, exp := exp
    imp := some { imp := admin.username, impUid := admin.id, impVer := admin.version, impId := imp } }

/-- `_check_impersonation`, from its two reads; `admin` is the row that it found. -/
def checkImpersonation (t : Token) (m : Acting) (user : User) (db : DB) (row : Option Impersonation)
    (now : Time) : Option User :=
  match db.named m.imp, row with
  | some admin, some row =>
    if admin.role = .admin ∧ t.uid = some user.id ∧ m.impUid = admin.id ∧ m.impVer = admin.version ∧
        user.role ≠ .admin ∧ row.ended = false ∧ row.admin = admin.username ∧
        row.target = user.username ∧ now < row.expires then
      some admin
    else none
  | _, _ => none

/-- `get_current_user` up to the gates by method, role and section, which refuse
more: the user, and the admin behind an impersonation. Each read has the database
of its own moment. -/
def getCurrentUser (t : Token) (now : Time) (db dbAdmin dbImp : DB) : Option (User × Option User) :=
  if t.exp ≤ now then none
  else
    match db.named t.sub with
    | none => none
    | some user =>
      if t.ver ≠ user.version ∨ t.uid.any (· ≠ user.id) then none
      else
        match t.imp with
        | none => some (user, none)
        | some m =>
          (checkImpersonation t m user dbAdmin (dbImp.imps.find? fun i => i.id = m.impId) now).map
            fun admin => (user, some admin)

/-! ## The handlers -/

/-- What a request holds between its steps. -/
inductive Local
  | idle
  | login (user : User)
  | current (user : User)
  | changed (user : User)
  | target (admin user : User)
  | deleting (user : User)
  | creating (name : String)
  | seeded (name : String) (version : Nat)
  | opening (admin user : User)
  | opened (admin user : User) (imp : Nat) (exp : Time)
deriving DecidableEq, Repr

/-- What has been committed or issued, in order. -/
inductive Event
  | issued (t : Token) (user : Nat) (admin : Option Nat)
  | revoked (user : Nat)
deriving DecidableEq, Repr

structure State where
  db : DB := {}
  locals : Nat → Local := fun _ => .idle
  history : List Event := []
  births : Nat := 0

/-- One step of a request: a read, a commit or the making of a token. -/
inductive Act
  /-- `login`: the read; the password and the code are right. -/
  | login (i : Nat) (name : String)
  | loginIssue (i : Nat) (exp : Time)
  /-- `get_current_user` of a request with a token of the panel. -/
  | authenticate (i : Nat) (t : Token) (now : Time)
  /-- `change_password`: the UPDATE and its commit. -/
  | changePassword (i : Nat)
  | changeIssue (i : Nat) (exp : Time)
  | logout (i : Nat)
  /-- `session.get(User, id)` of an admin's request. -/
  | target (i : Nat) (id : Nat)
  | resetPassword (i : Nat)
  | setRole (i : Nat) (role : Role)
  /-- `delete_user`: the count of the admins, then `retire` up to the commit. -/
  | countAdmins (i : Nat)
  | delete (i : Nat)
  /-- `create_user` and the first start of the panel: the name is free, the
  version is read, the row is inserted with an id that the database gives. -/
  | create (i : Nat) (name : String)
  | seed (i : Nat)
  | insert (i : Nat) (id : Nat) (role : Role)
  /-- `impersonate_start`: the commit of `_close_open`, the new row, the token. -/
  | closeOpen (i : Nat)
  | openImp (i : Nat) (imp : Nat) (exp : Time)
  | issueImp (i : Nat)
  /-- `impersonate_stop`. -/
  | stop (i : Nat) (imp : Nat)
  /-- A row of a backup that is restored. -/
  | restore (k : String) (version : Nat)
deriving Repr

def State.put (s : State) (i : Nat) (l : Local) : State :=
  { s with locals := fun j => if j = i then l else s.locals j }

def State.issue (s : State) (t : Token) (user : User) (admin : Option User) : State :=
  { s with history := s.history ++ [.issued t user.birth (admin.map User.birth)] }

/-- A commit that revokes the tokens of the rows that a `WHERE` picks. -/
def State.revoke (s : State) (picks : User → Bool) (db : DB) : State :=
  { s with
    db := db
    history := s.history ++ (s.db.users.filter picks).map fun u => .revoked u.birth }

/-- The panel made this token. -/
def State.hasIssued (s : State) (t : Token) : Bool :=
  s.history.any fun e =>
    match e with
    | .issued t' _ _ => t' = t
    | .revoked _ => false

/-- `change_password`: the UPDATE finds the row only as it was loaded. -/
def changePassword (s : State) (i : Nat) (user : User) : State :=
  let picks := fun u : User =>
    decide (u.id = user.id ∧ u.username = user.username ∧ u.version = user.version)
  match s.db.users.find? picks with
  | none => s.put i .idle
  | some row =>
    let next := fun u : User => { u with version := u.version + 1 }
    (s.revoke picks (s.db.write picks next)).put i (.changed (next row))

/-- `delete_user` from `retire` on. -/
def deleteUser (s : State) (i : Nat) (user : User) : State :=
  match retire key s.db user with
  | none => s.put i .idle
  | some db => (s.revoke (fun u => u.id = user.id) db).put i .idle

/-- The row of a new account; the name and the id must be free. -/
def insertUser (s : State) (i : Nat) (id : Nat) (name : String) (version : Nat) (role : Role) :
    State :=
  if (s.db.named name).isSome ∨ (s.db.byId id).isSome then s.put i .idle
  else
    { s.put i .idle with
      db := { s.db with users := s.db.users ++ [⟨id, name, version, role, s.births⟩] }
      births := s.births + 1 }

/-- `session.get(User, id)`: the object of this id that the session already has. -/
def getUser (s : State) (admin : User) (id : Nat) : Option User :=
  if id = admin.id then some admin else s.db.byId id

/-- One step of a request. A step that is not the request's turn does nothing. -/
def step (s : State) (a : Act) : State :=
  match a with
  | .login i name =>
    match s.locals i, s.db.named name with
    | .idle, some user => s.put i (.login user)
    | _, _ => s
  | .loginIssue i exp =>
    match s.locals i with
    | .login user => (s.issue (createAccessToken user exp) user none).put i .idle
    | _ => s
  | .authenticate i t now =>
    match s.locals i, getCurrentUser t now s.db s.db s.db with
    | .idle, some (user, none) => if s.hasIssued t then s.put i (.current user) else s
    | _, _ => s
  | .changePassword i =>
    match s.locals i with
    | .current user => changePassword s i user
    | _ => s
  | .changeIssue i exp =>
    match s.locals i with
    | .changed user => (s.issue (createAccessToken user exp) user none).put i .idle
    | _ => s
  | .logout i =>
    match s.locals i with
    | .current user =>
      (s.revoke (fun u => u.id = user.id) (raiseLoaded s.db user)).put i .idle
    | _ => s
  | .target i id =>
    match s.locals i with
    | .current admin =>
      match getUser s admin id with
      | some user => if admin.role = .admin then s.put i (.target admin user) else s
      | none => s
    | _ => s
  | .resetPassword i =>
    match s.locals i with
    | .target _ user =>
      (s.revoke (fun u => u.id = user.id) (raiseLoaded s.db user)).put i .idle
    | _ => s
  | .setRole i role =>
    match s.locals i with
    | .target _ user =>
      { s.put i .idle with db := s.db.write (fun u => u.id = user.id) fun u => { u with role := role } }
    | _ => s
  | .countAdmins i =>
    match s.locals i with
    | .target admin user =>
      if user.id ≠ admin.id ∧
          (user.role = .admin → 1 < (s.db.users.filter fun u => u.role = .admin).length) then
        s.put i (.deleting user)
      else s.put i .idle
    | _ => s
  | .delete i =>
    match s.locals i with
    | .deleting user => deleteUser key s i user
    | _ => s
  | .create i name =>
    match s.locals i with
    | .idle => if (s.db.named name).isSome then s else s.put i (.creating name)
    | .current admin =>
      if admin.role ≠ .admin ∨ (s.db.named name).isSome then s else s.put i (.creating name)
    | _ => s
  | .seed i =>
    match s.locals i with
    | .creating name => s.put i (.seeded name (initialVersion key s.db name))
    | _ => s
  | .insert i id role =>
    match s.locals i with
    | .seeded name version => insertUser s i id name version role
    | _ => s
  | .closeOpen i =>
    match s.locals i with
    | .target admin user =>
      if user.id ≠ admin.id ∧ user.role ≠ .admin then
        { s.put i (.opening admin user) with
          db := { s.db with imps := s.db.imps.map fun r =>
            if r.admin = admin.username then { r with ended := true } else r } }
      else s.put i .idle
    | _ => s
  | .openImp i imp exp =>
    match s.locals i with
    | .opening admin user =>
      { s.put i (.opened admin user imp exp) with
        db := { s.db with
          imps := s.db.imps ++ [⟨imp, admin.username, user.username, exp, false⟩] } }
    | _ => s
  | .issueImp i =>
    match s.locals i with
    | .opened admin user imp exp =>
      (s.issue (createImpersonationToken user admin imp exp) user (some admin)).put i .idle
    | _ => s
  | .stop i imp =>
    match s.locals i with
    | .current admin =>
      if admin.role = .admin then
        { s.put i .idle with
          db := { s.db with imps := s.db.imps.map fun r =>
            if r.id = imp ∧ r.admin = admin.username then { r with ended := true } else r } }
      else s
    | _ => s
  | .restore k version => { s with db := mergeRevocation s.db k version }

/-- The state after the steps of a panel that starts empty. -/
def after (acts : List Act) : State := Runs.run (step key) {} acts

end Kervax.Auth
