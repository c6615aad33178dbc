-- The changes of a server (`changes.py`): what one snapshot of the helper says
-- against the one before it, and the log that it goes into.
import Kervax.Runs
import Kervax.Routine
import Mathlib.Data.List.Dedup

namespace Kervax

open Runs

/-! ## A snapshot -/

structure SshKey where
  user : String := "?"
  fp : String
  type : String := "?"
  comment : String := ""
deriving DecidableEq

structure SysUser where
  name : String
  uid : Option Int := none
  shell : String := ""
deriving DecidableEq

/-- A login over SSH: the user, the address and the method. -/
structure Login where
  user : String
  ip : String
  method : String := ""
deriving DecidableEq

/-- A snapshot of the helper, at the time of the node. -/
structure Snapshot where
  ts : Time
  keys : List SshKey := []
  users : List SysUser := []
  groups : List (String × List String) := []
  files : List (String × String) := []
  cron : List (String × String) := []
  units : List String := []
  /-- Older helpers tell no logins. -/
  logins : Option (List Login) := none
deriving DecidableEq

/-- A change, before it has a stamp. -/
structure Change where
  kind : String
  act : String
  text : String
  alert : Bool
  fp : String := ""
  known : Bool := false
deriving DecidableEq

/-! ## Dictionaries -/

/-- `d[k] = v`. -/
def dictSet {α : Type} (k : String) (v : α) : List (String × α) → List (String × α)
  | [] => [(k, v)]
  | (k', v') :: d => if k' = k then (k, v) :: d else (k', v') :: dictSet k v d

/-- `_keys`: one key twice in a file is one. -/
def keysOf (snap : Snapshot) : List SshKey :=
  (snap.keys.filter fun k => k.fp ≠ "").foldl
    (fun out k => if out.any fun k' => k'.user = k.user ∧ k'.fp = k.fp then out else out ++ [k]) []

/-- `_users`. -/
def usersOf (snap : Snapshot) : List (String × SysUser) :=
  (snap.users.filter fun u => u.name ≠ "").foldl (fun out u => dictSet u.name u out) []

/-- `_key_text`. -/
def keyText (k : SshKey) : String :=
  k.type ++ " " ++ k.fp ++ if k.comment = "" then "" else " (" ++ k.comment ++ ")"

def sortedSet (l : List String) : List String := l.dedup.mergeSort fun a b => a ≤ b

theorem mem_sortedSet {l : List String} {m : String} : m ∈ sortedSet l ↔ m ∈ l := by
  unfold sortedSet
  rw [List.mem_mergeSort, List.mem_dedup]

theorem nodup_sortedSet (l : List String) : (sortedSet l).Nodup := by
  unfold sortedSet
  exact (List.mergeSort_perm _ _).nodup_iff.mpr (List.nodup_dedup l)

theorem sortedSet_of_sorted {l : List String} (h : l.Pairwise (· < ·)) : sortedSet l = l := by
  have hnodup : l.Nodup := h.imp fun hlt => by
    rintro rfl
    exact String.lt_irrefl _ hlt
  unfold sortedSet
  rw [hnodup.dedup]
  exact List.mergeSort_of_pairwise (h.imp fun hlt => decide_eq_true (Std.le_of_lt hlt))

/-! ## The difference of two snapshots -/

def hasKey (ks : List SshKey) (k : SshKey) : Bool := ks.any fun k' => k'.user = k.user ∧ k'.fp = k.fp

def diffKeys (old new : Snapshot) : List Change :=
  ((keysOf new).filter fun k => !hasKey (keysOf old) k).map (fun k =>
      ⟨"key", "add", "добавлен SSH-ключ пользователю " ++ k.user ++ ": " ++ keyText k, true, k.fp,
        false⟩) ++
    ((keysOf old).filter fun k => !hasKey (keysOf new) k).map fun k =>
      ⟨"key", "del", "удален SSH-ключ пользователя " ++ k.user ++ ": " ++ keyText k, false, "", false⟩

def uidText (uid : Option Int) : String :=
  match uid with
  | none => "None"
  | some n => toString n

def diffUsers (old new : Snapshot) : List Change :=
  (usersOf new).filterMap (fun (name, u) =>
      match (usersOf old).lookup name with
      | none =>
        some ⟨"user", "add", "новый пользователь " ++ name ++ " (uid " ++ uidText u.uid ++ ", " ++
          (if u.shell = "" then "?" else u.shell) ++ ")", true, "", false⟩
      | some o =>
        if u.uid = some 0 ∧ o.uid ≠ some 0 then
          some ⟨"user", "mod", "пользователь " ++ name ++ " получил uid 0", true, "", false⟩
        else none) ++
    ((usersOf old).filter fun (name, _) => ((usersOf new).lookup name).isNone).map fun (name, _) =>
      ⟨"user", "del", "пользователь " ++ name ++ " больше не может войти или удален", false, "", false⟩

def diffGroups (old new : Snapshot) : List Change :=
  new.groups.flatMap fun (g, members) =>
    let before := (old.groups.lookup g).getD []
    (sortedSet (members.filter (· ∉ before))).map (fun m =>
        ⟨"sudo", "add", m ++ " добавлен в группу " ++ g, true, "", false⟩) ++
      (sortedSet (before.filter (· ∉ members))).map fun m =>
        ⟨"sudo", "del", m ++ " убран из группы " ++ g, false, "", false⟩

/-- Files with hashes: the `sudoers` and the crons. -/
def diffFiles (kind added changed removed : String) (alert : Bool)
    (old new : List (String × String)) : List Change :=
  new.filterMap (fun (path, h) =>
      match old.lookup path with
      | none => some ⟨kind, "add", added ++ path, alert, "", false⟩
      | some h' => if h' ≠ h then some ⟨kind, "mod", changed ++ path, alert, "", false⟩ else none) ++
    (old.filter fun (path, _) => (new.lookup path).isNone).map fun (path, _) =>
      ⟨kind, "del", removed ++ path, false, "", false⟩

def diffUnits (old new : List String) : List Change :=
  (sortedSet (new.filter (· ∉ old))).map (fun u => ⟨"unit", "add", "включен " ++ u, false, "", false⟩) ++
    (sortedSet (old.filter (· ∉ new))).map fun u => ⟨"unit", "del", "выключен " ++ u, false, "", false⟩

/-- `diff`. -/
def diff (old new : Snapshot) : List Change :=
  diffKeys old new ++ diffUsers old new ++ diffGroups old new ++
    diffFiles "sudo" "добавлен " "изменен " "удален " true old.files new.files ++
    diffFiles "cron" "добавлен крон " "изменен крон " "удален крон " false old.cron new.cron ++
    diffUnits old.units new.units

/-! ## The state of a server -/

/-- A change in the log. -/
structure Entry where
  change : Change
  ts : Time
deriving DecidableEq

/-- `servers.changes`, as far as the alert reads it. -/
structure Changes where
  snap : Option Snapshot := none
  log : List Entry := []
  alertTs : Option Time := none
  sshSeen : Option (List (String × Time)) := none
deriving DecidableEq

/-- `LOG_MAX`, `LOG_KEEP`, `SSH_SEEN_KEEP`. -/
def logMax : Nat := 200
def logKeep : Time := 90 * day
def sshSeenKeep : Time := 90 * day

def passwordMethods : List String := ["password", "keyboard-interactive", "keyboard-interactive/pam"]

/-- One login: an event when it was by password, from an address that is new. -/
def loginNext (baseline : Bool) (stamp : Time) (x : List (String × Time) × List Change) (lg : Login) :
    List (String × Time) × List Change :=
  if lg.user = "" ∨ lg.ip = "" then x
  else
    let key := lg.user ++ "|" ++ lg.ip
    (dictSet key stamp x.1,
      if (x.1.lookup key).isNone ∧ !baseline ∧ lg.method ∈ passwordMethods then
        x.2 ++ [⟨"login", "add", "вход по паролю: " ++ lg.user ++ " с " ++ lg.ip ++
          ", раньше с этого адреса не входил", true, "", false⟩]
      else x.2)

/-- `ssh_login_events`: what was seen of the logins, and the events. -/
def sshLoginEvents (st : Changes) (logins : List Login) (stamp : Time) : Changes × List Change :=
  let out := logins.foldl (loginNext st.sshSeen.isNone stamp) (st.sshSeen.getD [], [])
  let kept := out.1.filter fun p => stamp - sshSeenKeep ≤ p.2
  ({ st with sshSeen := some (lastN 500 (kept.mergeSort fun a b => a.2 ≤ b.2)) }, out.2)

/-- A key that the park has seen does not alert. -/
def markKnown (known : List String) (e : Change) : Change :=
  if e.alert ∧ e.kind = "key" ∧ e.act = "add" ∧ e.fp ∈ known then
    { e with alert := false, known := true }
  else e

/-- The snapshot that is stored comes again. -/
def repeated (st : Changes) (snap : Snapshot) : Bool := st.snap.any fun prev => prev.ts = snap.ts

/-- `apply_snapshot`: the new state, and what it put into the log. -/
def applySnapshot (st : Changes) (snap : Snapshot) (now : Time) (known : List String) :
    Changes × List Entry :=
  if repeated st snap then (st, [])
  else
    let x := match snap.logins with
      | none => (st, [])
      | some logins => sshLoginEvents st logins snap.ts
    let found := (match st.snap with | none => [] | some prev => diff prev snap) ++ x.2
    let events := found.map fun e => ⟨markKnown known e, snap.ts⟩
    let log := (events ++ st.log).filter fun e => now - logKeep ≤ e.ts
    ({ x.1 with
        snap := some snap
        log := log.take logMax
        alertTs := if events.any (·.change.alert) then some snap.ts else st.alertTs }, events)

/-- `alert_events`. -/
def alertEvents (st : Changes) (after : Time) : List Entry :=
  st.log.filter fun e => e.change.alert ∧ after < e.ts

end Kervax
