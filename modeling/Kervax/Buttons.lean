-- The buttons under an alert in Telegram (`tg_buttons.py`, `tg_bot.py`): who may press them,
-- what a press mutes and for how long, and how it is given back.
import Kervax.Dict
import Mathlib.Logic.Function.Basic

namespace Kervax.TgBot

/-! ## The records -/

inductive Op
  | hour | morning | forever | ack | us | undo | fix
deriving DecidableEq

/-- What an alert is about: servers or monitors, `srv:1,2` or `chk:7`. -/
inductive Obj
  | srv | chk
deriving DecidableEq

/-- A deadline of the cluster in a report of a server. -/
structure Deadline where
  kind : String
  place : String
  expires : Int
  fp : String
deriving DecidableEq

/-- `kube_expiry.key`. -/
def Deadline.key (it : Deadline) : String := it.kind ++ "|" ++ it.place

/-- The note "do not watch" at a deadline. -/
structure Ignored where
  who : String
  at_ : Int
  expires : Int
  fp : String
  goneAt : Option Int
deriving DecidableEq

/-- `kube_expiry.entry`. -/
def entry (it : Deadline) (who : String) (now : Int) : Ignored :=
  { who, at_ := now, expires := it.expires, fp := it.fp, goneAt := none }

structure Server where
  name : String
  enabled : Bool
  snoozeUntil : Option Int
  alertMutes : List String
  alertSnoozes : List (String × Int)
  kubeExpiryIgnored : List (String × Ignored)
  alertState : List (String × Int)
  kubeExpiry : List Deadline
  changesAck : Option (Int × String)

structure Check where
  enabled : Bool
  down : Bool
  snoozeUntil : Option Int
  alertMutes : List String

/-- How a mute is given back: what was there before, or what was added, under the number of
each server or monitor. -/
inductive How
  | snooze (prev : List (Nat × Option Int))
  | snoozeKeys (keys : List String) (prev : List (Nat × List (String × Option Int)))
  | mute (added : List Nat)
  | muteKeys (added : List (Nat × List String))
  | kexp (added : List (Nat × List String))
  | chkSnooze (prev : List (Nat × Option Int))
  | chkMute (added : List Nat)

/-- `TgAlert.undo`. -/
structure Undo where
  keys : List String
  mute : Option How
  us : Option String
  fix : Option String
  held : Option String

structure TgAlert where
  ts : Int
  ref : Option (Obj × List Nat)
  kind : String
  target : String
  text : String
  messages : List (String × Int)
  ackedBy : String
  ackedAt : Option Int
  muted : String
  undo : Undo
  escLevel : Nat
  escAt : Option Int
  resolvedAt : Option Int

structure World where
  rows : Nat → Option TgAlert
  servers : Nat → Option Server
  checks : Nat → Option Check

inductive Role
  | viewer | operator | admin
deriving DecidableEq

structure User where
  username : String
  role : Role
  tgChatId : String
  tgToken : String

/-- The zone of the panel: the next nine o'clock, and a moment as it is written now. -/
structure Zone where
  nextMorning : Int → Int
  hhmm : Int → Int → String

/-! ## What an alert is about -/

/-- `ITEM_MUTE`: how the keys of the things of an alert begin, and whether one thing can be
muted for a time. -/
def ITEM_MUTE : List (String × String × Bool) :=
  [("windows_service", "winsvc:", true), ("units", "unit:", true), ("workers", "worker:", true),
   ("queue_stuck", "qstuck:", true), ("queue_failed", "qfail:", true),
   ("cron_stuck", "cron:", true), ("log_errors", "logerr:", true), ("fpm", "fpm:", true),
   ("vpn_torrent", "torrent:", true), ("vpn_heavy", "vpnheavy:", true),
   ("gitlab", "gitlab:", true), ("autoban", "autoban:", true), ("kube_cron", "kube_cron:", true),
   ("kube_job", "kube_job:", true), ("kube_pod", "kube_pod:", true),
   ("docker_down", "docker_down:", true), ("docker_loop", "docker_loop:", true),
   ("kube_restarts", "restarts:", false), ("docker_restarts", "restarts:", false),
   ("mem_limit", "memlim:", false), ("mem_leak", "leak:", false), ("listen_gone", "listen:", false),
   ("cf_realip", "cfip:", false), ("docker_risk", "dockrisk:", false),
   ("kube_expiry", "kube_expiry:", false)]

/-- `_item_keys`. -/
def itemKeys (row : TgAlert) : List String :=
  match ITEM_MUTE.lookup row.kind with
  | none => []
  | some spec => row.undo.keys.filter fun k => k ≠ "" && spec.1.toList.isPrefixOf k.toList

/-- A key without `kube_expiry:`. -/
def expiryKey (k : String) : String := String.ofList (k.toList.drop "kube_expiry:".length)

/-- `_kexp_items`. -/
def kexpItems (s : Server) (keys : List String) : List (String × Deadline) :=
  (s.kubeExpiry.filter fun it => it.key ∈ keys.map expiryKey).foldl
    (fun d it => Dict.put d it.key it) []

/-! ## Muting -/

/-- One object in the loop over the objects of an alert: where it exists it is changed, and what
the loop notes of it goes under its number. -/
def pass {σ β : Type} (f : Nat → σ → σ) (note : σ → Option β)
    (acc : (Nat → Option σ) × List (Nat × β)) (i : Nat) : (Nat → Option σ) × List (Nat × β) :=
  match acc.1 i with
  | none => acc
  | some s =>
    (Function.update acc.1 i (some (f i s)),
      match note s with
      | none => acc.2
      | some b => Dict.put acc.2 i b)

def sweep {σ β : Type} (f : Nat → σ → σ) (note : σ → Option β) (db : Nat → Option σ)
    (ids : List Nat) : (Nat → Option σ) × List (Nat × β) :=
  ids.foldl (pass f note) (db, [])

/-- The loop that notes nothing. -/
def sweepAll {σ : Type} (f : Nat → σ → σ) (db : Nat → Option σ) (ids : List Nat) :
    Nat → Option σ :=
  (sweep f (fun _ => (none : Option Unit)) db ids).1

/-- What is noted of new entries: nothing where there are none. -/
def noted (new : List String) : Option (List String) := if new = [] then none else some new

/-- The marks that a press adds at the deadlines of the alert. -/
def newMarks (keys : List String) (who : String) (now : Int) (s : Server) :
    List (String × Ignored) :=
  ((kexpItems s keys).filter fun p => p.1 ∉ Dict.keys s.kubeExpiryIgnored).map fun p =>
    (p.1, entry p.2 (if who = "" then "telegram" else who) now)

def newKeys (keys mutes : List String) : List String := keys.filter (· ∉ mutes)

/-- The snoozes that have not run out. -/
def running (now : Int) (d : List (String × Int)) : List (String × Int) :=
  d.filter fun p => now < p.2

/-- A snooze in place of the one of the same kind. -/
def putLast (kind : String) (until_ : Int) (d : List (String × Int)) : List (String × Int) :=
  (d.filter fun p => p.1 ≠ kind) ++ [(kind, until_)]

def snoozeAll (keys : List String) (until_ : Int) (d : List (String × Int)) :
    List (String × Int) :=
  keys.foldl (fun d k => Dict.put d k until_) d

/-- The keys that are not muted yet are muted. -/
def muteEach (keys : List String) (db : Nat → Option Server) (ids : List Nat) :
    (Nat → Option Server) × List (Nat × List String) :=
  sweep (fun _ s => { s with alertMutes := s.alertMutes ++ newKeys keys s.alertMutes })
    (fun s => noted (newKeys keys s.alertMutes)) db ids

def muteEachCheck (kind : String) (db : Nat → Option Check) (ids : List Nat) :
    (Nat → Option Check) × List (Nat × List String) :=
  sweep (fun _ c => { c with alertMutes := c.alertMutes ++ newKeys [kind] c.alertMutes })
    (fun c => noted (newKeys [kind] c.alertMutes)) db ids

def markEach (keys : List String) (who : String) (now : Int) (db : Nat → Option Server)
    (ids : List Nat) : (Nat → Option Server) × List (Nat × List String) :=
  sweep (fun _ s =>
      { s with kubeExpiryIgnored := s.kubeExpiryIgnored ++ newMarks keys who now s })
    (fun s => noted (Dict.keys (newMarks keys who now s))) db ids

def snoozeKeysEach (keys : List String) (until_ now : Int) (db : Nat → Option Server)
    (ids : List Nat) : (Nat → Option Server) × List (Nat × List (String × Option Int)) :=
  sweep (fun _ s => { s with alertSnoozes := snoozeAll keys until_ (running now s.alertSnoozes) })
    (fun s => some (keys.map fun k => (k, s.alertSnoozes.lookup k))) db ids

def snoozeEach (kind : String) (until_ now : Int) (db : Nat → Option Server) (ids : List Nat) :
    (Nat → Option Server) × List (Nat × Option Int) :=
  sweep (fun _ s => { s with alertSnoozes := putLast kind until_ (running now s.alertSnoozes) })
    (fun s => some (s.alertSnoozes.lookup kind)) db ids

def snoozeEachCheck (until_ : Int) (db : Nat → Option Check) (ids : List Nat) :
    (Nat → Option Check) × List (Nat × Option Int) :=
  sweep (fun _ c => { c with snoozeUntil := some until_ }) (fun c => some c.snoozeUntil) db ids

/-- The branch of `_mute` that mutes the whole kind for ever. -/
def muteKind (kind : String) (ids : List Nat) (db : Nat → Option Server) :
    (Nat → Option Server) × How :=
  ((muteEach [kind] db ids).1, .mute (Dict.keys (muteEach [kind] db ids).2))

def muteServers (row : TgAlert) (until_ : Option Int) (who : String) (now : Int) (ids : List Nat)
    (db : Nat → Option Server) : (Nat → Option Server) × How :=
  match until_ with
  | some u =>
    if itemKeys row ≠ [] ∧ (ITEM_MUTE.lookup row.kind).map Prod.snd = some true then
      let r := snoozeKeysEach (itemKeys row) u now db ids
      (r.1, .snoozeKeys (itemKeys row) r.2)
    else
      let r := snoozeEach row.kind u now db ids
      (r.1, .snooze r.2)
  | none =>
    if itemKeys row = [] then muteKind row.kind ids db
    else if row.kind = "kube_expiry" then
      let r := markEach (itemKeys row) who now db ids
      -- nothing left to mark: the whole kind is muted instead
      if r.2 = [] then muteKind row.kind ids db else (r.1, .kexp r.2)
    else
      let r := muteEach (itemKeys row) db ids
      (r.1, .muteKeys r.2)

def muteChecks (row : TgAlert) (until_ : Option Int) (ids : List Nat) (db : Nat → Option Check) :
    (Nat → Option Check) × How :=
  match until_ with
  | some u => ((snoozeEachCheck u db ids).1, .chkSnooze (snoozeEachCheck u db ids).2)
  | none =>
    let r := muteEachCheck row.kind db ids
    (r.1, .chkMute (Dict.keys r.2))

/-- `_mute`: `none` where no object of the alert is left. -/
def mute (row : TgAlert) (until_ : Option Int) (who : String) (now : Int) (w : World) :
    Option (World × How) :=
  match row.ref with
  | some (.srv, ids) =>
    if ids.any fun i => (w.servers i).isSome then
      let r := muteServers row until_ who now ids w.servers
      some ({ w with servers := r.1 }, r.2)
    else none
  | some (.chk, ids) =>
    if ids.any fun i => (w.checks i).isSome then
      let r := muteChecks row until_ ids w.checks
      some ({ w with checks := r.1 }, r.2)
    else none
  | none => none

/-! ## Giving back -/

/-- A snooze is taken out, and the one before it put back where it still runs. -/
def restore (now : Int) (d : List (String × Int)) (k : String) (prev : Option Int) :
    List (String × Int) :=
  let rest := d.filter fun p => p.1 ≠ k
  match prev with
  | some t => if now < t then rest ++ [(k, t)] else rest
  | none => rest

def restoreAll (now : Int) (keys : List String) (prev : List (String × Option Int))
    (d : List (String × Int)) : List (String × Int) :=
  keys.foldl (fun d k => restore now d k ((prev.lookup k).getD none)) d

def unmarked (gone : List String) (d : List (String × Ignored)) : List (String × Ignored) :=
  d.filter fun p => p.1 ∉ gone

def unmuteServer (kind : String) (now : Int) (how : How) (i : Nat) (s : Server) : Server :=
  match how with
  | .snoozeKeys keys prev =>
    let p := (prev.lookup i).getD []
    { s with alertSnoozes := restoreAll now keys p s.alertSnoozes }
  | .snooze prev =>
    { s with alertSnoozes := restore now s.alertSnoozes kind ((prev.lookup i).getD none) }
  | .muteKeys added =>
    { s with alertMutes := s.alertMutes.filter (· ∉ (added.lookup i).getD []) }
  | .mute added =>
    { s with alertMutes := s.alertMutes.filter (· ∉ if i ∈ added then [kind] else []) }
  | .kexp added =>
    { s with kubeExpiryIgnored := unmarked ((added.lookup i).getD []) s.kubeExpiryIgnored }
  | .chkSnooze _ => s
  | .chkMute _ => s

def unmuteCheck (kind : String) (how : How) (i : Nat) (c : Check) : Check :=
  match how with
  | .chkSnooze prev => { c with snoozeUntil := (prev.lookup i).getD none }
  | .chkMute added =>
    { c with alertMutes := c.alertMutes.filter (· ∉ if i ∈ added then [kind] else []) }
  | .snooze _ => c
  | .snoozeKeys _ _ => c
  | .mute _ => c
  | .muteKeys _ => c
  | .kexp _ => c

/-- `_unmute`. -/
def unmute (row : TgAlert) (how : How) (now : Int) (w : World) : World :=
  match row.ref with
  | some (.srv, ids) =>
    { w with servers := sweepAll (unmuteServer row.kind now how) w.servers ids }
  | some (.chk, ids) =>
    { w with checks := sweepAll (unmuteCheck row.kind how) w.checks ids }
  | none => w

/-! ## A press -/

/-- `fixed.KINDS`. -/
def FIXED_KINDS : List String :=
  ["docker_restarts", "kube_restarts", "oom", "unit_loop", "docker_loop", "web_5xx", "log_errors",
   "kube_job", "disk_health", "cpu", "mem", "temp", "throttle", "conntrack", "db_conn", "disktemp",
   "disk", "inode", "pressure", "net_health", "link", "disk_slow", "dns", "clock", "units",
   "kube_pod", "kube_node", "flux_down", "flux_stale", "kube_cron", "listen_gone", "cron_stuck",
   "queue_stuck", "queue_failed", "workers", "fpm", "mem_limit", "gpu", "gpu_heat", "llm", "qdrant",
   "windows_service", "cpu_spin", "db_health", "web_config", "gre_down", "autoban", "vpn_torrent",
   "vpn_heavy"]

def HOUR : Int := 3600000000

def World.setRow (w : World) (id : Nat) (row : TgAlert) : World :=
  { w with rows := Function.update w.rows id (some row) }

def takeText (n : Nat) (s : String) : String := String.ofList (s.toList.take n)

/-- What a press does to the panel, the text that pops up and the action for the journal. -/
structure Pressed where
  world : World
  toast : String
  action : String

def pressAck (w : World) (id : Nat) (row : TgAlert) (who : String) (now : Int) : Pressed :=
  if row.ackedBy ≠ "" then ⟨w, "Уже взял " ++ row.ackedBy, ""⟩
  else ⟨w.setRow id { row with ackedBy := takeText 128 who, ackedAt := some now }, "Взял", "tg_ack"⟩

def pressUs (w : World) (id : Nat) (row : TgAlert) (who : String) (now : Int) : Pressed :=
  match row.ref with
  | some (.srv, first :: _) =>
    if row.kind ≠ "access_change" then ⟨w, "Не к чему применить", ""⟩
    else if row.undo.us.isSome then ⟨w, "Уже отмечено", ""⟩
    else
      match w.servers first with
      | none => ⟨w, "Сервер удален", ""⟩
      | some s =>
        let acked := { s with changesAck := some (now, who) }
        let w := { w with servers := Function.update w.servers first (some acked) }
        ⟨w.setRow id { row with undo := { row.undo with us := some (takeText 64 who) } },
          "Отмечено: это мы", "changes_ack"⟩
  | _ => ⟨w, "Не к чему применить", ""⟩

/-- `still i` is what `fixed.mark` answers for a server: the trouble that the panel still sees. -/
def pressFix (still : Nat → String) (w : World) (id : Nat) (row : TgAlert) (who : String) :
    Pressed :=
  match row.ref with
  | some (.srv, first :: rest) =>
    if row.kind ∉ FIXED_KINDS then ⟨w, "Не к чему применить", ""⟩
    else if row.undo.fix.isSome then ⟨w, "Уже отмечено", ""⟩
    else
      let left := (first :: rest).filterMap fun i => (w.servers i).bind fun s =>
        if still i = "" then none
        else some (if rest = [] then still i else s.name ++ ": " ++ still i)
      if left ≠ [] then
        ⟨w, takeText 190 ("Еще не починено: " ++ String.intercalate "; " left), ""⟩
      else
        ⟨w.setRow id { row with undo := { row.undo with fix := some (takeText 64 who) } },
          "Отмечено: починили, алерт закроется", "alert_fixed"⟩
  | _ => ⟨w, "Не к чему применить", ""⟩

def pressUndo (z : Zone) (w : World) (id : Nat) (row : TgAlert) (who : String) (now : Int) :
    Pressed :=
  match row.undo.mute with
  | none => ⟨w, "Уже не заглушено", ""⟩
  | some how =>
    ⟨(unmute row how now w).setRow id
        { row with
          undo := { row.undo with mute := none }
          muted := "↩️ " ++ who ++ " вернул алерты в " ++ z.hhmm now now },
      "Алерты вернулись", "tg_unmute"⟩

/-- Until when a button mutes, `none` for ever, and how that is called. -/
def muteTime (z : Zone) (op : Op) (now : Int) : Option Int × String :=
  match op with
  | .hour => (some (now + HOUR), "на 1 ч")
  | .morning => (some (z.nextMorning now), "до утра")
  | _ => (none, "насовсем")

def pressMute (z : Zone) (w : World) (id : Nat) (row : TgAlert) (op : Op) (who : String)
    (now : Int) : Pressed :=
  if row.undo.mute.isSome then ⟨w, "Уже заглушено", ""⟩
  else
    let u := muteTime z op now
    match mute row u.1 who now w with
    | none => ⟨w, "Объект удален из панели", ""⟩
    | some (w', how) =>
      let tail := match u.1 with
        | some t => ", до " ++ z.hhmm t now
        | none => ""
      ⟨w'.setRow id
          { row with
            undo := { row.undo with mute := some how }
            muted := "🔕 " ++ who ++ ": заглушено " ++ u.2 ++ tail },
        "Заглушено " ++ u.2, "tg_mute"⟩

/-- `apply`. -/
def apply (z : Zone) (still : Nat → String) (w : World) (id : Nat) (row : TgAlert) (op : Op)
    (who : String) (user : Option User) (now : Int) : Pressed :=
  if op ≠ .ack ∧ user.isNone then
    ⟨w, "Привяжите Telegram к учетке панели (/link), тогда кнопки заработают", ""⟩
  else if op ≠ .ack ∧ user.map User.role = some .viewer then ⟨w, "Нужны права оператора", ""⟩
  else
    match op with
    | .ack => pressAck w id row who now
    | .us => pressUs w id row who now
    | .fix => pressFix still w id row who
    | .undo => pressUndo z w id row who now
    | .hour => pressMute z w id row op who now
    | .morning => pressMute z w id row op who now
    | .forever => pressMute z w id row op who now

/-- Who pressed, as Telegram says. -/
structure From where
  id : String
  username : String
  firstName : String
  lastName : String

/-- `_who`: the name in the status lines, and the account that the person is linked to. -/
def who (users : List User) (frm : From) : String × Option User :=
  match if frm.id = "" then none else users.find? fun u => u.tgChatId = frm.id with
  | some u => (u.username, some u)
  | none =>
    if frm.username ≠ "" then ("@" ++ frm.username, none)
    else
      let name := String.intercalate " " ([frm.firstName, frm.lastName].filter (· ≠ ""))
      (if name ≠ "" then name else if frm.id ≠ "" then frm.id else "?", none)

/-- A press as it comes: the row and the operation of the button, the chat and the person. -/
structure Press where
  id : Nat
  op : Op
  chat : String
  frm : From
  users : List User
  now : Int
  still : Nat → String

/-- The part of `handle_callback` in the database. -/
def handleCallback (z : Zone) (w : World) (p : Press) : Pressed :=
  match w.rows p.id with
  | none => ⟨w, "Алерт устарел", ""⟩
  | some row =>
    if p.chat ∉ row.messages.map Prod.fst then ⟨w, "Алерт устарел", ""⟩
    else apply z p.still w p.id row p.op (who p.users p.frm).1 (who p.users p.frm).2 p.now

end Kervax.TgBot
