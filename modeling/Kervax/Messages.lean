-- The alert messages of the panel, the storms that are merged before they
-- are sent, and the chats that each message goes to (`alerts.py`).
import Kervax.Dict
import Mathlib.Data.List.Basic
import Mathlib.Data.List.Nodup
import Mathlib.Data.List.Range

namespace Kervax

/-! ## A message -/

/-- What a message points at: `"srv:5"`, `"chk:3,4"`, no `ref` at all, or a
text that `_ref_ids` cannot read. -/
inductive Ref
  | empty
  | srv (ids : List Nat)
  | chk (ids : List Nat)
  | other
deriving DecidableEq, Repr

/-- A message inside a message: a storm has one for each server. It has no
parts of its own. -/
structure Part where
  text : String := ""
  sect : String := ""
  group : String := ""
  kind : String
  target : String
  recovery : Bool := false
  ref : Ref
deriving DecidableEq, Repr

/-- A message. A plain text of the source is a message whose fields are empty. -/
structure Msg where
  text : String
  sect : String := ""
  group : String := ""
  kind : String := ""
  target : String := ""
  recovery : Bool := false
  ref : Ref := .empty
  parts : List Part := []
deriving DecidableEq, Repr, Inhabited

/-- The message as a part of another. -/
def Msg.part (m : Msg) : Part := ⟨m.text, m.sect, m.group, m.kind, m.target, m.recovery, m.ref⟩

/-- `getattr(m, "parts", None) or [m]`. -/
def Msg.partsOr (m : Msg) : List Part := if m.parts = [] then [m.part] else m.parts

/-- How the panel words a message. These functions change texts only, and the
rest of the code reads from them no more than stands here. -/
structure Wording where
  /-- `with_notes`: the text with the note about the server or the monitor. -/
  note : Msg → String
  /-- `short_message`: the text bounded for the chat. -/
  short : Msg → String
  /-- The escaped name of the target stands in the text. -/
  named : Msg → Bool
  /-- The text without the name, the links and "N min ago". -/
  norm : Msg → String
  /-- `_storm_msg`: one text with the list of the servers. -/
  storm : List Msg → String

def withNotes (w : Wording) (ms : List Msg) : List Msg :=
  ms.map fun m => if m.recovery then m else { m with text := w.note m }

def shortMessage (w : Wording) (m : Msg) : Msg := { m with text := w.short m }

/-! ## Storms -/

def stormMin : Nat := 3

/-- The sections whose objects live in the groups of servers. -/
def serverSections : List String := ["servers", "docker", "kuber", "services", "backups"]

/-- The kinds whose button is about one server. -/
def stormSkip : List String := ["access_change"]

/-- What two messages share to be one storm, and nothing for a message that
is never merged. -/
def stormKey (w : Wording) (m : Msg) : Option (String × String × String × Bool × String) :=
  if m.target = "" ∨ m.kind ∈ stormSkip then none
  else
    let key := if w.named m then some (m.kind, m.sect, m.group, m.recovery, w.norm m) else none
    match m.ref with
    | .srv _ => key
    | .empty => if m.recovery ∧ m.sect ∈ serverSections then key else none
    | .chk _ | .other => none

/-- `groups[k]`: the indices of the messages with one key, in their order. -/
def stormGroup (w : Wording) (ms : List Msg) (k : String × String × String × Bool × String) :
    List Nat :=
  (List.range ms.length).filter fun i => (ms[i]?.bind (stormKey w)) = some k

/-- The storm that message `i` is in: its group, when the group names enough
servers. -/
def bigAt (w : Wording) (ms : List Msg) (i : Nat) : Option (List Nat) :=
  match ms[i]?.bind (stormKey w) with
  | none => none
  | some k =>
    let idx := stormGroup w ms k
    if stormMin ≤ (idx.filterMap fun j => ms[j]?.map (·.target)).eraseDups.length then some idx
    else none

/-- A message of a storm that is not its first one. -/
def dropped (w : Wording) (ms : List Msg) (i : Nat) : Bool :=
  match bigAt w ms i with
  | none => false
  | some idx => idx.head? ≠ some i

def kept (w : Wording) (ms : List Msg) : List Nat :=
  (List.range ms.length).filter fun i => !dropped w ms i

/-- `origins` of `merge_storm`: for each merged message, the original ones. -/
def origins (w : Wording) (ms : List Msg) : List (List Nat) :=
  (kept w ms).map fun i => (bigAt w ms i).getD [i]

/-- The digits of a `ref`, whatever its object is. -/
def Ref.ids : Ref → List Nat
  | .srv ids => ids
  | .chk ids => ids
  | _ => []

/-- `_storm_msg`: the fields of the first message over the list of servers. -/
def stormMsg (w : Wording) (parts : List Msg) : Msg :=
  let first := parts.headD default
  let ids := (parts.flatMap fun p => p.ref.ids).eraseDups
  { first with
    text := w.storm parts
    target := ", ".intercalate (parts.map (·.target)).eraseDups
    ref := if ids = [] then .empty else .srv ids
    parts := parts.map Msg.part }

def mergeStorm (w : Wording) (ms : List Msg) : List Msg :=
  (kept w ms).map fun i =>
    match bigAt w ms i with
    | some idx => stormMsg w (idx.map fun j => ms.getD j default)
    | none => ms.getD i default

/-! ## The settings of the channels -/

/-- A chat of the groups: `routes.chats[…]`. -/
structure Route where
  chat : String
  serverGroups : List String := []
  siteGroups : List String := []
deriving DecidableEq, Repr

/-- `dup_pause.until`: none, a text that is no time, or a time. -/
inductive PauseEnd
  | forever
  | unreadable
  | at (t : Int)
deriving DecidableEq, Repr

structure DupPause where
  on : Bool := false
  ends : PauseEnd := .forever
deriving DecidableEq, Repr

/-- The settings of the channels. An empty text is a channel that is not set. -/
structure Cfg where
  telegramToken : String := ""
  telegramChat : String := ""
  webhook : String := ""
  tgButtons : Bool := false
  chats : List Route := []
  /-- `routes.main`: `"rest"` or all. -/
  main : String := ""
  /-- `routes.main_by`, under keys such as `"srv:<group>"`. -/
  mainBy : List (String × Bool) := []
  dupPause : DupPause := {}
  /-- What went to the main chat during the pause: kind and object. -/
  mainPassed : List (String × String) := []
  now : Int := 0
deriving DecidableEq, Repr

/-! ## Where a message goes -/

/-- `route_hits`: the chats of the groups that are due this message. -/
def routeHits (cfg : Cfg) (m : Msg) : List Route :=
  if m.sect = "" ∨ m.group = "" then []
  else cfg.chats.filter fun r =>
    m.group ∈ (if m.sect ∈ serverSections then r.serverGroups else r.siteGroups)

def critKinds : List String := ["offline"]

/-- `tg_fmt.LEVEL[3]`. -/
def level3 : String := "🚨"

/-- A critical alert: the server is gone, or the text has the top level. -/
def critical (m : Msg) : Bool :=
  !m.recovery && (m.kind ∈ critKinds || level3.toList.isPrefixOf m.text.toList)

/-- The pause of the copies into the main chat is on. -/
def dupPaused (cfg : Cfg) : Bool :=
  cfg.dupPause.on &&
    match cfg.dupPause.ends with
    | .forever => true
    | .unreadable => false
    | .at t => cfg.now < t

def pairs (m : Msg) : List (String × String) := m.partsOr.map fun p => (p.kind, p.target)

/-- The recovery of what went to the main chat during the pause. -/
def passed (cfg : Cfg) (m : Msg) : Bool :=
  m.recovery && (pairs m).any fun p => p ∈ cfg.mainPassed

def buttonsOn (cfg : Cfg) : Bool := cfg.tgButtons && cfg.telegramToken ≠ ""

/-- The main chat is due a copy of a message that goes to a chat of the groups. -/
def mainCopy (cfg : Cfg) (m : Msg) : Bool :=
  if passed cfg m then true
  else if dupPaused cfg then critical m && !buttonsOn cfg
  else
    let key := (if m.sect ∈ serverSections then "srv" else "site") ++ ":" ++ m.group
    (cfg.mainBy.lookup key).getD (cfg.main ≠ "rest")

/-- The main chat, when Telegram is set. -/
def Cfg.mainChat (cfg : Cfg) : String :=
  if cfg.telegramToken = "" then "" else cfg.telegramChat

/-- `chats_for`: the chats of a message, the main one first, none twice. -/
def chatsFor (cfg : Cfg) (m : Msg) : List String :=
  if cfg.telegramToken = "" then []
  else
    let hits := (routeHits cfg m).map (·.chat)
    let out := if cfg.mainChat ≠ "" ∧ (hits = [] ∨ mainCopy cfg m) then [cfg.mainChat] else []
    hits.foldl (fun out c => if c ∈ out then out else out ++ [c]) out

/-- `on_main` of `dispatch`: the main chat is among the chats of the message. -/
def onMain (cfg : Cfg) (m : Msg) : Bool :=
  cfg.mainChat ≠ "" && cfg.mainChat ∈ chatsFor cfg m

end Kervax
