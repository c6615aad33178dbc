-- The answer of a node to a verification (`alert_recheck.py`): the fields of a collector,
-- `apply_snapshot`, which checks a snapshot and merges it into the report, and `ingest`,
-- which settles the job by it.
import Kervax.Values
import Kervax.Kinds

namespace Kervax.Recheck

open Values

abbrev Fields := List (String × Json)

/-! ## The job and the server -/

/-- The collectors of `SOURCES`. -/
inductive Source
  | kubeExpiry | changes | software | docker | kube | backup | mem | disk | conntrack | temp
deriving DecidableEq, Repr

inductive Status
  | checking | fixed | remains | unavailable
deriving DecidableEq, Repr

/-- What `spec_for` and `take_tasks` put into a job. The source is empty for a kind that no
collector serves. -/
structure Spec where
  identity : String
  source : Option Source
  required : List String := []
  dbStats : Bool := false
  baseline : Option String := none
  hostBaseline : Option String := none
deriving DecidableEq

structure Job where
  objectType : String
  objectId : Nat
  kind : String
  requestedBy : String
  deadline : Time
  takenAt : Option Time
  doneAt : Option Time := none
  status : Status := .checking
  message : String := "Проверяю"
  activeKey : Option String
  spec : Spec
deriving DecidableEq

/-- `fixed.new_entry`, with `verified`. -/
structure FixedEntry where
  text : String
  by_ : String
  at_ : Time
  done : Option Time
  verified : Bool
deriving DecidableEq

/-- A server: what an answer changes, and all its other columns. -/
structure Server (κ : Type) where
  id : Nat
  columns : κ
  lastReport : Option Fields
  swHost : Json
  pkgHash : Json
  alertFixed : Option (List (String × FixedEntry))

structure ServerPackages where
  items : Json
  hash : Json
  mgr : Json
  n : Nat
  ts : Time
  pending : Json

/-- The rows that an answer of one server reads and writes. -/
structure Db (κ : Type) where
  server : Server κ
  packages : Option ServerPackages
  jobs : List (String × Job)

/-- The code that `ingest` calls: the digest of a value, `str`, `software.host_versions`, the
digest of the server's settings, `home_mute._sig` and `fixed.left`. -/
structure Env (κ : Type) where
  digest : Json → String
  str : Json → String
  hostVersions : List Json → Json
  identity : κ → String
  sig : String → Server κ → Time → Option String
  left : Server κ → String → Time → Except Exc String

variable {κ : Type} (env : Env κ)

/-! ## The fields of a collector -/

def snapshotFields : Source → List String
  | .kubeExpiry => ["kube_expiry", "flux"]
  | .changes => ["extras"]
  | .software => ["docker", "db_stats"]
  | .docker => ["docker"]
  | .kube => ["kube"]
  | .backup => ["backup", "db_engines", "db_stats", "extras"]
  | .mem => ["mem_used", "mem_total"]
  | .disk => ["disks"]
  | .conntrack => ["conntrack_count", "conntrack_max"]
  | .temp => ["cpu_temp"]

/-- The block of the extras that a collector owns. -/
def extrasKey (src : Source) : String := if src = .changes then "changes" else "custom-backups"

/-- `rep.get(k)` of a dictionary. -/
def field (rep : Fields) (k : String) : Json := (rep.lookup k).getD .null

def Server.report (server : Server κ) : Fields := server.lastReport.getD []

/-- `scoped_snapshot`. -/
def scopedSnapshot (rep : Fields) (src : Source) : Except Exc Json :=
  let out := (snapshotFields src).map fun k => (k, field rep k)
  if "extras" ∈ snapshotFields src then
    ((field rep "extras").orEmpty.get (extrasKey src)).map fun block =>
      .obj (Dict.put out "extras" (.obj [(extrasKey src, block)]))
  else .ok (.obj out)

/-! ## The checks of a snapshot -/

/-- `kube_expiry.key`. -/
def certKey (it : Json) : Except Exc String := do
  let kind ← it.get "kind"
  let place ← it.get "where"
  let text := fun v : Json => if v.truthy then env.str v else ""
  return text kind ++ "|" ++ text place

def checkKubeExpiry (spec : Spec) (snap : Fields) : Except Exc Unit :=
  match field snap "kube_expiry", field snap "flux" with
  | .arr certs, .arr _ => do
    let have_ ← certs.mapM (certKey env)
    need (spec.required.all (· ∈ have_)) "сертификат исчез из отчета, обновление не подтверждено"
  | _, _ => .error (.value "неполный ответ коллектора Kubernetes")

def checkDocker (snap : Fields) : Except Exc Unit :=
  match field snap "docker" with
  | .obj dk =>
    need (!((field dk "present").truthy && !(field dk "access").truthy)) "нет доступа для чтения Docker"
  | _ => .error (.value "нет доступа для чтения Docker")

def checkKube (snap : Fields) : Except Exc Unit := do
  let access ← (field snap "kube").orEmpty.get "access"
  need access.truthy "нет доступа для чтения Kubernetes"

def rootPolicies : List String :=
  ["yes", "no", "prohibit-password", "without-password", "forced-commands-only"]

def checkChanges (snap : Fields) : Except Exc Unit := do
  let changes ← (field snap "extras").orEmpty.get "changes"
  let ssh ← changes.orEmpty.get "ssh"
  let ports ← ssh.orEmpty.get "ports"
  need ports.truthy "нет свежего разбора SSH"
  let pass ← ssh.get "pass"
  let passOk ← pass.inSet ["yes", "no"]
  need passOk "нет полного разбора политики SSH"
  let root ← ssh.get "root"
  let rootOk ← root.inSet rootPolicies
  need rootOk "нет полного разбора политики SSH"

def checkMem (snap : Fields) : Except Exc Unit := do
  let total := field snap "mem_total"
  need total.isNumber "нет свежих метрик памяти"
  let none_ ← total.le (.int 0)
  need (!none_) "нет свежих метрик памяти"
  let low ← (Json.int 0).le (field snap "mem_used")
  need low "нет свежих метрик памяти"
  let high ← (field snap "mem_used").le total
  need high "нет свежих метрик памяти"

def checkConntrack (snap : Fields) : Except Exc Unit := do
  let none_ ← (field snap "conntrack_max").le (.int 0)
  need (!none_) "нет свежих метрик conntrack"
  let low ← (field snap "conntrack_count").lt (.int 0)
  need (!low) "нет свежих метрик conntrack"

def checkTemp (snap : Fields) : Except Exc Unit :=
  need (field snap "cpu_temp").isNumber "нет свежей температуры"

def checkDisk (snap : Fields) : Except Exc Unit :=
  need ((field snap "disks").isList && (field snap "disks").truthy) "нет свежего инвентаря дисков"

def checkBackup (spec : Spec) (snap : Fields) : Except Exc Unit :=
  need (!(spec.dbStats && !(field snap "db_stats").truthy && (field snap "db_engines").truthy))
    "работающая СУБД не отдала свежий инвентарь"

/-- The checks of the blocks that the collector must give. -/
def checkSource (spec : Spec) (snap : Fields) : Source → Except Exc Unit
  | .kubeExpiry => checkKubeExpiry env spec snap
  | .changes => checkChanges snap
  | .software => checkDocker snap
  | .docker => checkDocker snap
  | .kube => checkKube snap
  | .backup => checkBackup spec snap
  | .mem => checkMem snap
  | .disk => checkDisk snap
  | .conntrack => checkConntrack snap
  | .temp => checkTemp snap

/-! ## `apply_snapshot` -/

/-- `{**(rep.get("extras") or {}), **new}`, where `new` is the collector's own block. -/
def mergeExtras (rep snap : Fields) (key : String) : Except Exc Json := do
  let extras := field snap "extras"
  let has ← extras.contains key
  match (field rep "extras").orEmpty with
  | .obj old =>
    if has then (extras.item key).map fun block => .obj (Dict.put old key block)
    else .ok (.obj old)
  | _ => .error .type

def mergeField (src : Source) (snap : Fields) (rep : Fields) (k : String) : Except Exc Fields :=
  if k = "extras" then (mergeExtras rep snap (extrasKey src)).map (Dict.put rep k)
  else .ok (Dict.put rep k (field snap k))

/-- The last checks of the collector of packages, and what it merges. -/
def applySoftware (server : Server κ) (spec : Spec) (snap rep : Fields) :
    Except Exc (Server κ) := do
  let packages := field snap "packages"
  need (packages.isList && packages.truthy) "нет свежего списка пакетов"
  let pkgs := field snap "pkgs"
  need pkgs.isDict "нет отпечатка свежего списка пакетов"
  let h ← pkgs.get "h"
  need h.truthy "нет отпечатка свежего списка пакетов"
  need (!(spec.dbStats && !(field snap "db_stats").truthy)) "нет свежего инвентаря СУБД"
  match packages, spec.hostBaseline with
  | .arr items, some hostBaseline =>
    let new := env.hostVersions items
    let current := env.digest (.arr [server.swHost, server.pkgHash])
    need (!(current ≠ hostBaseline && env.digest (.arr [new, h]) ≠ current))
      "уже получен более свежий список пакетов"
    return { server with swHost := new, lastReport := some (Dict.put rep "pkgs" pkgs) }
  | _, _ => .error .key

def applySnapshot (server : Server κ) (spec : Spec) (snap : Fields) : Except Exc (Server κ) :=
  match spec.source with
  | none => .error .key
  | some src => do
    need ((snapshotFields src).all fun k => (snap.lookup k).isSome) "нужный блок не получен"
    checkSource env spec snap src
    let current ← scopedSnapshot server.report src
    let incoming ← scopedSnapshot snap src
    need (!(some (env.digest current) ≠ spec.baseline && env.digest current ≠ env.digest incoming))
      "автоматический сбор уже изменил нужный блок; его нельзя затирать"
    let rep ← (snapshotFields src).foldlM (mergeField src snap) server.report
    if src = .software then applySoftware env server spec snap rep
    else return { server with lastReport := some rep }

/-! ## `ingest` -/

/-- `job.kind.startswith("home:")`. -/
def isHome (kind : String) : Bool := "home:".toList.isPrefixOf kind.toList

/-- `server_left`: what of the problem is left, `none` if that is not known. -/
def serverLeft (server : Server κ) (kind : String) (now : Time) : Except Exc (Option String) :=
  if isHome kind then
    .ok ((env.sig (String.ofList (kind.toList.drop 5)) server now).map fun sig =>
      if sig = "" then "" else "Проблема осталась")
  else (env.left server kind now).map some

def finish (job : Job) (state : Status) (message : String) (now : Time) : Job :=
  { job with
    status := state
    message := String.ofList (message.toList.take 512)
    doneAt := some now
    activeKey := none }

def expire (job : Job) (now : Time) : Job :=
  if job.status = .checking ∧ job.deadline ≤ now then
    finish job .unavailable "Не удалось проверить: нет свежих данных за отведенное время" now
  else job

/-- `ResultIn`, and when it comes. -/
structure Answer where
  id : String
  ok : Bool
  snapshot : Fields
  now : Time

inductive Failure
  | http (code : Nat) (detail : String)
  | raised (e : Exc)
deriving DecidableEq

def Db.putJob (db : Db κ) (id : String) (job : Job) : Db κ :=
  { db with jobs := Dict.put db.jobs id job }

/-- The guarded part: the merge, and what is left of the problem after it. -/
def verify (server : Server κ) (job : Job) (a : Answer) : Except Exc (Server κ × String) := do
  let server ← applySnapshot env server job.spec a.snapshot
  match ← serverLeft env server job.kind a.now with
  | some left => return (server, left)
  | none => .error (.value "нужный результат не получен")

def markFixed (server : Server κ) (job : Job) (now : Time) : Server κ :=
  if isHome job.kind then server
  else
    let entry : FixedEntry := ⟨"Свежая проверка", job.requestedBy, now, none, true⟩
    { server with alertFixed := some (Dict.put (server.alertFixed.getD []) job.kind entry) }

/-- The verdict, written into the job and, when nothing is left, into the server. -/
def conclude (db : Db κ) (server : Server κ) (job : Job) (left : String) (a : Answer) : Db κ :=
  if left ≠ "" then
    { db.putJob a.id (finish job .remains "Проблема осталась" a.now) with server := server }
  else
    { db.putJob a.id (finish job .fixed "Исправление подтверждено свежей проверкой" a.now) with
      server := markFixed server job a.now }

/-- The packages of a verified answer: after the guarded part. -/
def storePackages (db : Db κ) (a : Answer) : Except Exc (Db κ) := do
  let pkgs ← (Json.obj a.snapshot).item "pkgs"
  let items ← (Json.obj a.snapshot).item "packages"
  let h ← pkgs.item "h"
  let mgr ← pkgs.item "mgr"
  match items with
  | .arr l => return { db with
      packages := some ⟨items, h, mgr, l.length, a.now, .null⟩
      server := { db.server with pkgHash := h } }
  | _ => .error .type

/-- The exceptions that the guarded part catches. -/
def caught (e : Exc) : Bool := e ≠ .other

def ingest (db : Db κ) (a : Answer) : Except Failure (Db κ) :=
  match db.jobs.lookup a.id with
  | none => .error (.http 404 "Проверка не найдена")
  | some job0 =>
    if job0.objectType ≠ "server" ∨ job0.objectId ≠ db.server.id then
      .error (.http 404 "Проверка не найдена")
    else
      let job := expire job0 a.now
      if job.status ≠ .checking then .ok (db.putJob a.id job)
      else if job.takenAt = none ∨ env.identity db.server.columns ≠ job.spec.identity then
        .ok (db.putJob a.id (finish job .unavailable
          "Не удалось проверить: ответ не относится к текущим настройкам" a.now))
      else if !a.ok then
        .ok (db.putJob a.id (finish job .unavailable
          "Не удалось проверить: коллектор не получил свежие данные" a.now))
      else match verify env db.server job a with
        | .error e =>
          if caught e then .ok (db.putJob a.id (finish job .unavailable
            "Не удалось проверить: нет полного свежего результата нужной проверки" a.now))
          else .error (.raised e)
        | .ok (server, left) =>
          let db' := conclude db server job left a
          if job.spec.source = some .software then
            (storePackages db' a).mapError .raised
          else .ok db'

end Kervax.Recheck
