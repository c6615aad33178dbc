-- The lists of a backup server's broken repositories (`collector.py`): stuck locks, failed
-- checks, lagging copies, prunes that do not work and repositories without fresh backups.
-- What each block notes, what it tells at once, and the round that runs the five.
import Kervax.Changes
import Kervax.Dict
import Kervax.Notices
import Kervax.TgFmt
import Mathlib.Data.List.Sort

namespace Kervax.BackupLists

/-! ## What is noted and told -/

inductive BackupList
  | repos | locks | checks | prunes | copies
deriving DecidableEq, Repr

/-- `{"repos": [...], "ts": ...}` of the state (`"keys"` for the copies); `{}` is empty. -/
structure Noted where
  repos : List String := []
  ts : Option Time := none
deriving DecidableEq

/-- The list in the text of an alert: its items, each with the name that it is about. -/
structure Listed where
  head : String := ""
  sep : String
  limit : Nat
  items : List (String × String)
deriving DecidableEq

def Listed.text (x : Listed) : String :=
  x.head ++ TgFmt.listText x.sep x.limit (x.items.map Prod.snd)

/-- The names whose items the text has, and those that it only counts. -/
def Listed.named (x : Listed) : List String := (x.items.take x.limit).map Prod.fst
def Listed.counted (x : Listed) : List String := (x.items.drop x.limit).map Prod.fst

/-- What a block adds to `fires`, `recoveries` or `quiet_closed`. -/
inductive Out
  | fire (kind : Kind) (field : String) (shown : Listed) (names whys : List String)
  | recovery (kind : Kind) (text : String)
  | quietClosed (kind : Kind) (why : String)
deriving DecidableEq

inductive PruneKind
  | access | failed | skipped | idle
deriving DecidableEq, Repr

/-- What a round knows of a backup server: whether each block runs, its rule applies, and
what it says is delivered; and what the report says is broken. -/
structure Round where
  now : Time
  looks : BackupList → Bool
  on : BackupList → Bool
  sent : BackupList → Bool
  /-- `long_locked_repos`, with whole days. -/
  locks : List (String × Int)
  /-- `failed_checks`. -/
  bad : List String
  /-- `copy_problems`: the level of each copy, and what its text says after its name. -/
  mp : List (String × (Int × String))
  /-- `prune_problems`. -/
  cur : List (String × (PruneKind × String))
  /-- `_backup_problem_repos`, without what is muted or archived, and with it. -/
  probs : List String
  all : List String
  /-- `repo_reason`. -/
  reason : String → String

/-- The keys of `alert_state` that the blocks use. -/
structure ServerState where
  backupLocks : Noted := {}
  backupChecks : Noted := {}
  backupMirror : Noted := {}
  backupPrunes : Noted := {}
  backupRepos : Noted := {}
  pruneFail : List (String × Time) := []

/-- `sorted(set(names) - set(prev))`. -/
def freshNames (names prev : List String) : List String := sortedSet (names.filter (· ∉ prev))

/-! ## The blocks -/

/-- What the blocks of locks, checks, copies and prunes share. -/
def noteNew (kind : Kind) (field : String) (shown : List String → Listed) (recovered : String)
    (on sent : Bool) (now : Time) (names : List String) (prev : Noted) : Noted × Option Out :=
  let fresh := freshNames names prev.repos
  if fresh ≠ [] ∧ on then
    (if sent then ⟨names, some now⟩ else prev, some (.fire kind field (shown fresh) fresh []))
  else if names ≠ [] ∧ prev.repos ≠ [] ∧ names ≠ prev.repos then
    -- written at once, new names of a rule that is off among them
    (⟨names, some (prev.ts.getD 0)⟩, none)
  else if names = [] ∧ prev.repos ≠ [] then
    (if sent then {} else prev, some (.recovery kind recovered))
  else (prev, none)

def backupLock (r : Round) (prev : Noted) : Noted × Option Out :=
  noteNew .backupLock "repos"
    (fun fresh => {
      sep := ", "
      limit := 6
      items := (r.locks.filter (·.1 ∈ fresh)).map fun (n, d) =>
        (n, n ++ " (" ++ toString d ++ " дн)") })
    "висячих локов в репозиториях больше нет"
    (r.on .locks) (r.sent .locks) r.now (r.locks.map Prod.fst) prev

def backupCheck (r : Round) (prev : Noted) : Noted × Option Out :=
  noteNew .backupCheck "repos"
    (fun fresh => {
      sep := ", "
      limit := 6
      items := fresh.map fun n => (n, n) })
    "проверка целостности репозиториев снова проходит"
    (r.on .checks) (r.sent .checks) r.now r.bad prev

/-- The new problems, the worst first. -/
def copyItems (mp : List (String × (Int × String))) (fresh : List String) :
    List (String × String) :=
  ((fresh.filterMap fun n => (mp.lookup n).map fun p => (n, p)).insertionSort
    fun a b => b.2.1 ≤ a.2.1).map fun (n, _, t) => (n, n ++ ": " ++ t)

def backupMirror (r : Round) (prev : Noted) : Noted × Option Out :=
  noteNew .backupMirror "copies"
    (fun fresh => {
      sep := "; "
      limit := 4
      items := copyItems r.mp fresh })
    "копии на резервном снова в порядке"
    (r.on .copies) (r.sent .copies) r.now (sortedSet (Dict.keys r.mp)) prev

/-- `_PRUNE_FAIL_HOLD`. -/
def pruneFailHold : Time := sec (26 * 3600)

/-- Since when each failing prune fails: `float(held.get(n) or now.timestamp())`. -/
def fails (held : List (String × Time)) (r : Round) : List (String × Time) :=
  (r.cur.filter (·.2.1 = .failed)).map fun (n, _) =>
    (n, match held.lookup n with
      | some t => if t = 0 then r.now else t
      | none => r.now)

/-- A failed prune is shown when it fails for long enough, any other at once. -/
def shownNow (held : List (String × Time)) (r : Round) : List (String × String) :=
  (r.cur.filter fun (n, k, _) =>
      k ≠ .failed || ((fails held r).lookup n).any (pruneFailHold ≤ r.now - ·)).map
    fun (n, _, reason) => (n, reason)

def backupPrune (held : List (String × Time)) (r : Round) (prev : Noted) : Noted × Option Out :=
  noteNew .backupPrune "repos"
    (fun fresh => {
      sep := ", "
      limit := 6
      items := fresh.map fun n => (n, n ++ " (" ++ ((shownNow held r).lookup n).getD "" ++ ")") })
    "чистка репозиториев снова работает"
    (r.on .prunes) (r.sent .prunes) r.now (sortedSet (Dict.keys (shownNow held r))) prev

/-- The block of the repositories notes a narrower set as what is left of the announced, and
closes without a message while those are still broken but archived or muted. -/
def backupRepo (r : Round) (prev : Noted) : Noted × Option Out :=
  let newNames := freshNames r.probs prev.repos
  if newNames ≠ [] ∧ r.on .repos then
    let whys := newNames.map r.reason
    let lst : Listed := {
      head := toString newNames.length ++ " шт.: "
      sep := ", "
      limit := 8
      items := (newNames.zip whys).map fun (p, why) => (p, p ++ " (" ++ why ++ ")") }
    (if r.sent .repos then ⟨r.probs, some r.now⟩ else prev,
      some (.fire .backupRepo "repos" lst newNames whys))
  else if r.probs ≠ [] ∧ prev.repos.any (· ∉ r.probs) then
    (⟨sortedSet (prev.repos.filter (· ∈ r.probs)), none⟩, none)
  else if r.probs = [] ∧ prev.repos ≠ [] then
    (if r.sent .repos then {} else prev,
      if prev.repos.any (· ∈ r.all) then
        some (.quietClosed .backupRepo "оставшиеся репозитории в архиве или заглушены")
      else some (.recovery .backupRepo "все репозитории снова в норме"))
  else (prev, none)

/-! ## A round -/

def ServerState.noted (st : ServerState) : BackupList → Noted
  | .repos => st.backupRepos
  | .locks => st.backupLocks
  | .checks => st.backupChecks
  | .prunes => st.backupPrunes
  | .copies => st.backupMirror

/-- The set that a block looks at. -/
def names (st : ServerState) (r : Round) : BackupList → List String
  | .repos => r.probs
  | .locks => r.locks.map Prod.fst
  | .checks => r.bad
  | .prunes => sortedSet (Dict.keys (shownNow st.pruneFail r))
  | .copies => sortedSet (Dict.keys r.mp)

def block (st : ServerState) (r : Round) : BackupList → Noted × Option Out
  | .repos => backupRepo r st.backupRepos
  | .locks => backupLock r st.backupLocks
  | .checks => backupCheck r st.backupChecks
  | .prunes => backupPrune st.pruneFail r st.backupPrunes
  | .copies => backupMirror r st.backupMirror

/-- A block whose condition fails touches nothing. -/
def noteAfter (st : ServerState) (r : Round) (l : BackupList) : Noted :=
  if r.looks l then (block st r l).1 else st.noted l

def step (st : ServerState) (r : Round) : ServerState where
  backupLocks := noteAfter st r .locks
  backupChecks := noteAfter st r .checks
  backupMirror := noteAfter st r .copies
  backupPrunes := noteAfter st r .prunes
  backupRepos := noteAfter st r .repos
  pruneFail := if r.looks .prunes then fails st.pruneFail r else st.pruneFail

theorem noted_step (st : ServerState) (r : Round) (l : BackupList) :
    (step st r).noted l = noteAfter st r l := by
  cases l <;> rfl

end Kervax.BackupLists
