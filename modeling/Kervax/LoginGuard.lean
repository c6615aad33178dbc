-- The login guard (`ratelimit.py`): failed logins of an address are counted in a
-- window, and enough of them ban the address.
import Kervax.Kinds
import Kervax.Runs
import Kervax.Changes

namespace Kervax.Login

/-! ## The tables -/

/-- `WINDOW`, `REPEAT_MINUTES`, `FAIL_CHOICES`, `BAN_CHOICES`. -/
def window : Time := sec 900
def repeatMinutes : Nat := 24 * 60
def failChoices : List Nat := [3, 5, 10, 20]
def banChoices : List Nat := [15, 60, 360, 1440]

def minutes (n : Nat) : Time := sec (60 * n)

/-- The guard as it is loaded: both numbers are among the choices. -/
structure Guard where
  maxFailures : Nat := 5
  banMinutes : Nat := 60
  max_mem : maxFailures ∈ failChoices := by decide
  ban_mem : banMinutes ∈ banChoices := by decide

/-- A row of `login_failures`. -/
structure Failure where
  key : String
  ts : Time
  username : String
deriving DecidableEq, Repr

/-- A row of `login_bans`. -/
structure Ban where
  key : String
  createdAt : Time
  bannedUntil : Time
  failures : Nat
  logins : String
  repeated : Bool
  blocked : Nat := 0
deriving DecidableEq, Repr

/-- The two tables, the rows in the order of their ids. -/
@[ext]
structure Db where
  failures : List Failure := []
  bans : List Ban := []
deriving DecidableEq, Repr

/-! ## The operations -/

/-- `_recent`. -/
def recent (db : Db) (key : String) (moment : Time) : Nat :=
  (db.failures.filter fun f => f.key = key ∧ moment - window ≤ f.ts).length

/-- `active_ban`: the latest of the key that is not over. -/
def activeBan (db : Db) (key : String) (now : Time) : Option Ban :=
  (db.bans.filter fun b => b.key = key ∧ now < b.bannedUntil).getLast?

/-- `note_blocked`: one more attempt during the ban. -/
def noteBlocked (db : Db) (key : String) (now : Time) : Db :=
  match activeBan db key now with
  | none => db
  | some ban =>
    { db with bans := db.bans.map fun b => if b = ban then { b with blocked := b.blocked + 1 } else b }

/-- The rows that no window reaches any more go, whoever they are of. -/
def purge (db : Db) (moment : Time) : Db where
  failures := db.failures.filter fun f => ¬ f.ts < moment - window
  bans := db.bans.filter fun b => ¬ b.bannedUntil < moment - 2 * day

/-- `delete(LoginFailure).where(key == key)`. -/
def dropFailures (db : Db) (key : String) : Db :=
  { db with failures := db.failures.filter fun f => f.key ≠ key }

def firstChars (n : Nat) (s : String) : String := String.ofList (s.toList.take n)

/-- The user names that were tried, as the ban has them. -/
def loginsOf (db : Db) (key : String) : String :=
  firstChars 255 (", ".intercalate (sortedSet
    (((db.failures.filter fun f => f.key = key).map Failure.username).filter (· ≠ ""))))

/-- The ban that a failure sets. -/
def banOf (g : Guard) (db : Db) (key : String) (moment : Time) : Ban :=
  let prev := db.bans.any fun b => b.key = key ∧ moment - day ≤ b.bannedUntil
  { key := key
    createdAt := moment
    bannedUntil := moment + minutes (if prev then max g.banMinutes repeatMinutes else g.banMinutes)
    failures := recent db key moment
    logins := loginsOf db key
    repeated := prev }

/-- `record_failure`: the tables, and the ban if this failure has set one. -/
def recordFailure (g : Guard) (db : Db) (key username : String) (moment : Time) :
    Db × Option Ban :=
  let db := { db with failures := db.failures ++ [⟨key, moment, firstChars 64 username⟩] }
  let db := purge db moment
  if g.maxFailures ≤ recent db key moment ∧ activeBan db key moment = none then
    let ban := banOf g db key moment
    (dropFailures { db with bans := db.bans ++ [ban] } key, some ban)
  else (db, none)

/-- `clear`. -/
def clear (db : Db) (key : String) : Db := dropFailures db key

/-- `unban`. -/
def unban (db : Db) (key : String) : Db :=
  dropFailures { db with bans := db.bans.filter fun b => b.key ≠ key } key

/-! ## Runs -/

/-- What may happen at an address: a failed login, a good one, a ban lifted by hand, an
attempt that is turned away. -/
inductive Act
  | fail (username : String)
  | success
  | unban
  | blocked
deriving DecidableEq, Repr

structure Event where
  key : String
  time : Time
  act : Act
deriving DecidableEq, Repr

def step (g : Guard) (db : Db) (e : Event) : Db :=
  match e.act with
  | .fail u => (recordFailure g db e.key u e.time).1
  | .success => clear db e.key
  | .unban => unban db e.key
  | .blocked => noteBlocked db e.key e.time

/-- What the event returns: the ban that it has set. -/
def outcome (g : Guard) (db : Db) (e : Event) : Option Ban :=
  match e.act with
  | .fail u => (recordFailure g db e.key u e.time).2
  | _ => none

/-- The tables after the events. -/
def after (g : Guard) (es : List Event) : Db := Runs.run (step g) {} es

/-- An attempt is made only without a ban, and turned away only with one. -/
def Allowed (db : Db) (e : Event) : Prop :=
  match e.act with
  | .fail _ | .success => activeBan db e.key e.time = none
  | .blocked => activeBan db e.key e.time ≠ none
  | .unban => True

/-- A run of the panel: the clock does not go back, and the ban is asked first. -/
structure Run (g : Guard) (es : List Event) : Prop where
  clock : es.Pairwise fun a b => a.time ≤ b.time
  asked : Runs.Along (step g) Allowed {} es

end Kervax.Login
