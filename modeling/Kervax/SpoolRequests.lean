-- The requests that the agent leaves for its root helpers (`runBackupCommand`): one
-- builder for each command of the panel, the spool it goes to, and the file that is
-- written. A line `key=value` is a pair here, and `Fields.line` is its text.
import Kervax.Fields
import Kervax.SpoolChecks

namespace Kervax.Spools

/-! ## Commands -/

/-- `mirrorSource`. -/
structure Source where
  name : Text
  host : Text
  port : Int
  hostKey : Text
  repos : List Text
deriving DecidableEq, Repr

/-- `backupCommand`. -/
structure Command where
  action : Text
  mode : Text := []
  paths : List Text := []
  schedule : Text := []
  repoURL : Text := []
  repopass : Text := []
  delay : Text := []
  resticVersion : Text := []
  cacertB64 : Text := []
  name : Text := []
  hpass : Text := []
  clientIP : Text := []
  keepLast : Int := 0
  keepDaily : Int := 0
  keepWeekly : Int := 0
  keepMonthly : Int := 0
  sanIP : Text := []
  sanDNS : Text := []
  port : Int := 0
  mount : Text := []
  engine : Text := []
  container : Text := []
  dumpDir : Text := []
  dumpKeep : Int := 0
  dumpMinFree : Int := 0
  storageMount : Text := []
  since : Int := 0
  lines : Int := 0
  prio : Text := []
  pubKey : Text := []
  repos : List Text := []
  sources : List Source := []
deriving DecidableEq, Repr

/-- What the agent has beside the command: the panel's address, `backup-allow` if it can
be read, and the host that `url.Parse` finds in an address. -/
structure Env where
  panelURL : Text
  allowFile : Option Text
  hostname : Text → Option Text

/-! ## Requests -/

/-- The keys of the lines. -/
inductive Key
  | action | op | mode | path | schedule | engine | container | dumpDir | dumpKeep | dumpMinfree
  | repoUrl | repopass | delay | resticVersion | cacertB64 | port | storageMount | name | hpass
  | clientIp | keepLast | keepDaily | keepWeekly | keepMonthly | sanIp | sanDns | pubkey | repo
  | panelUrl | unit | source | ip | net | since | lines | prio | mount
deriving DecidableEq, Repr

def Key.text : Key → Text
  | .action => "action".toList
  | .op => "op".toList
  | .mode => "mode".toList
  | .path => "path".toList
  | .schedule => "schedule".toList
  | .engine => "engine".toList
  | .container => "container".toList
  | .dumpDir => "dump_dir".toList
  | .dumpKeep => "dump_keep".toList
  | .dumpMinfree => "dump_minfree".toList
  | .repoUrl => "repo_url".toList
  | .repopass => "repopass".toList
  | .delay => "delay".toList
  | .resticVersion => "restic_version".toList
  | .cacertB64 => "cacert_b64".toList
  | .port => "port".toList
  | .storageMount => "storage_mount".toList
  | .name => "name".toList
  | .hpass => "hpass".toList
  | .clientIp => "client_ip".toList
  | .keepLast => "keep_last".toList
  | .keepDaily => "keep_daily".toList
  | .keepWeekly => "keep_weekly".toList
  | .keepMonthly => "keep_monthly".toList
  | .sanIp => "san_ip".toList
  | .sanDns => "san_dns".toList
  | .pubkey => "pubkey".toList
  | .repo => "repo".toList
  | .panelUrl => "panel_url".toList
  | .unit => "unit".toList
  | .source => "source".toList
  | .ip => "ip".toList
  | .net => "net".toList
  | .since => "since".toList
  | .lines => "lines".toList
  | .prio => "prio".toList
  | .mount => "mount".toList

abbrev Pair := Key × Text

/-- The spools of the helpers. -/
inductive Spool
  | backup | bsrv | timesync | du | units | mirror | autoban
deriving DecidableEq, Repr

/-- `action=…` and `op=…` of a fixed word. -/
def action (s : String) : Pair := (.action, s.toList)
def op (s : String) : Pair := (.op, s.toList)

/-- One of the words. -/
def oneOf (words : List String) (s : Text) : Bool := words.any fun w => s = w.toList

/-! ## The client of the backup -/

/-- `path=…` for every path. -/
def pathLines (paths : List Text) : Except String (List Pair) :=
  match paths.find? fun p => !backupPathOK p with
  | some p => .error ("недопустимый путь: " ++ String.ofList p)
  | none => .ok (paths.map fun p => (.path, p))

def setPaths (cmd : Command) : Except String (List Pair) :=
  if oneOf ["include", "exclude"] cmd.mode = false then .error "неизвестный режим"
  else if cmd.paths = [] then .error "пустой список путей"
  else (pathLines cmd.paths).map fun ps => [action "set_paths", (.mode, cmd.mode)] ++ ps

def setSchedule (cmd : Command) : Except String (List Pair) :=
  if backupTimeRe.rmatch cmd.schedule = false then .error "неверное время (нужно HH:MM)"
  else .ok [action "set_schedule", (.schedule, cmd.schedule)]

def engines : List String :=
  ["pg", "mysql", "mongo", "ch", "redis", "rabbitmq", "k8s", "grafana", "neo4j", "qdrant"]

/-- The directory of the dumps, if one is given. -/
def dumpPathOK (d : Text) : Bool := hasPrefix d "/" && !contains d ".." && dumpDirOK d

/-- `dump_setup` has the parameters of the dump too. -/
def dump (cmd : Command) (verb : String) (setup : Bool) : Except String (List Pair) :=
  if oneOf engines cmd.engine = false then .error "неизвестный движок дампа"
  else if cmd.container ≠ [] ∧ backupNameOK cmd.container = false then
    .error "недопустимое имя контейнера"
  else
    let lines := [action verb, (.engine, cmd.engine), (.container, cmd.container)]
    if setup = false then .ok lines
    else if cmd.dumpDir ≠ [] ∧ dumpPathOK cmd.dumpDir = false then
      .error "недопустимый каталог дампов"
    else .ok (lines ++ (if cmd.dumpDir ≠ [] then [(.dumpDir, cmd.dumpDir)] else []) ++
      (if 0 < cmd.dumpKeep then [(.dumpKeep, itoa cmd.dumpKeep)] else []) ++
      [(.dumpMinfree, itoa cmd.dumpMinFree)])

/-- `backupHostAllowed`: why the server of the backup is refused. -/
def backupHostAllowed (env : Env) (repoURL : Text) : Option String :=
  match env.hostname (trimPrefix repoURL "rest:") with
  | none => some "недопустимый адрес репозитория"
  | some host =>
    if host = [] then some "недопустимый адрес репозитория"
    else match env.allowFile with
    | none => none
    | some b =>
      if (b.splitOn '\n').any fun ln => trimSpace (ln.takeWhile (· ≠ '#')) = host then none
      else some ("сервер бэкапов " ++ String.ofList host ++ " не в /etc/kervax/backup-allow " ++
        "на ноде: добавить его можно только от root на самой ноде")

/-- The value, or a default where there is none. -/
def orElse (s : Text) (default : String) : Text := if s = [] then default.toList else s

def provision (env : Env) (cmd : Command) : Except String (List Pair) :=
  if hasPrefix cmd.repoURL "rest:" = false ∨ cmd.repopass = [] then .error "нет repo_url/repopass"
  else if backupRepoURLRe.rmatch cmd.repoURL = false then .error "недопустимый адрес репозитория"
  else if backupSecretRe.rmatch cmd.repopass = false then .error "недопустимый пароль репозитория"
  else match backupHostAllowed env cmd.repoURL with
  | some why => .error why
  | none =>
    if oneOf ["include", "exclude"] cmd.mode = false then .error "неизвестный режим"
    else if backupTimeRe.rmatch cmd.schedule = false ∨ cmd.paths = [] then
      .error "нет времени/путей"
    else (pathLines cmd.paths).map fun ps =>
      [action "provision", (.repoUrl, cmd.repoURL), (.repopass, cmd.repopass), (.mode, cmd.mode),
        (.schedule, cmd.schedule), (.delay, orElse cmd.delay "1h"),
        (.resticVersion, orElse cmd.resticVersion "0.18.1"),
        (.cacertB64, orElse cmd.cacertB64 "-")] ++ ps

def toHTTPSLines (cmd : Command) : Option (List Pair) :=
  if cmd.port < 1 ∨ 65535 < cmd.port ∨ cmd.cacertB64 = [] ∨ 16384 < len cmd.cacertB64 then none
  else if cmd.cacertB64.all (alnumOr "+/=") = false then none
  else some [action "to_https", (.port, itoa cmd.port), (.cacertB64, cmd.cacertB64)]

/-! ## The backup server -/

def deployServer (cmd : Command) : Option (List Pair) :=
  if cmd.port < 1024 ∨ 65535 < cmd.port then none
  else if cmd.storageMount = [] then some [action "deploy_server", (.port, itoa cmd.port)]
  else if backupStorageMountOK cmd.storageMount = false then none
  else some [action "deploy_server", (.port, itoa cmd.port), (.storageMount, cmd.storageMount)]

def provisionClient (cmd : Command) : Option (List Pair) :=
  if backupRepoNameOK cmd.name = false ∨ backupIPOK cmd.clientIP = false then none
  else if backupHpassRe.rmatch cmd.hpass = false ∨ backupSecretRe.rmatch cmd.repopass = false then
    none
  else some [action "provision_client", (.name, cmd.name), (.hpass, cmd.hpass),
    (.repopass, cmd.repopass), (.clientIp, cmd.clientIP), (.keepLast, itoa cmd.keepLast),
    (.keepDaily, itoa cmd.keepDaily), (.keepWeekly, itoa cmd.keepWeekly),
    (.keepMonthly, itoa cmd.keepMonthly)]

def deployTLSFront (cmd : Command) : Option (List Pair) :=
  if backupIPOK cmd.sanIP = false then none
  else some [action "deploy_tls_front", (.sanIp, cmd.sanIP), (.sanDns, cmd.sanDNS)]

def getClientCreds (cmd : Command) : Option (List Pair) :=
  if backupRepoNameOK cmd.name = false then none
  else some [action "get_client_creds", (.name, cmd.name)]

def allowTLS (cmd : Command) : Option (List Pair) :=
  if backupIPOK cmd.clientIP = false then none
  else some [action "allow_tls", (.clientIp, cmd.clientIP)]

def mirrorAllow (cmd : Command) : Option (List Pair) :=
  if backupRepoNameOK cmd.name = false ∨ 500 < cmd.repos.length then none
  else if cmd.repos = [] then some [action "mirror_allow", (.name, cmd.name)]
  else if backupIPOK cmd.clientIP = false ∨ mirrorPubKeyOK cmd.pubKey = false then none
  else if cmd.repos.all backupRepoNameOK = false then none
  else some ([action "mirror_allow", (.name, cmd.name), (.clientIp, cmd.clientIP),
    (.pubkey, cmd.pubKey)] ++ cmd.repos.map fun r => (.repo, r))

/-- `backupServerLines`. -/
def backupServerLines (cmd : Command) : Option (List Pair) :=
  if cmd.action = "deploy_server".toList then deployServer cmd
  else if cmd.action = "update_image".toList then some [action "update_image"]
  else if cmd.action = "provision_client".toList then provisionClient cmd
  else if cmd.action = "deploy_tls_front".toList then deployTLSFront cmd
  else if cmd.action = "get_cert".toList then some [action "get_cert"]
  else if cmd.action = "get_client_creds".toList then getClientCreds cmd
  else if cmd.action = "allow_tls".toList then allowTLS cmd
  else if cmd.action = "mirror_allow".toList then mirrorAllow cmd
  else none

/-! ## The reserve server -/

/-- What the loop of `mirrorLines` asks of a source, its name among the others apart. -/
def sourceOK (src : Source) : Bool :=
  backupRepoNameOK src.name && mirrorHostOK src.host && 1 ≤ src.port && src.port ≤ 65535 &&
    mirrorHostKeyOK src.hostKey && src.repos.length ≤ 500 && src.repos.all backupRepoNameOK

/-- The repositories between commas, `-` for none. -/
def repoText (repos : List Text) : Text := if repos = [] then ['-'] else [','].intercalate repos

/-- The value of `source=…`. -/
def sourceValue (src : Source) : Text :=
  src.name ++ ' ' :: src.host ++ ' ' :: itoa src.port ++ ' ' :: src.hostKey ++
    ' ' :: repoText src.repos

/-- `mirrorLines`: no two sources have the same name. -/
def mirrorLines (cmd : Command) : Option (List Pair) :=
  if cmd.mode = "pull".toList then some [action "pull"]
  else if cmd.mode ≠ "set".toList then none
  else if 200 < cmd.sources.length then none
  else if cmd.sources.all sourceOK = false ∨ ¬(cmd.sources.map Source.name).Nodup then none
  else some ([action "set"] ++ cmd.sources.map fun src => (.source, sourceValue src))

/-! ## Disks and units -/

def diskFixActions : List String :=
  ["journal", "rotated-logs", "apt-cache", "dnf-cache", "coredumps", "crash-reports",
    "docker-dangling", "docker-build-cache", "container-log", "analyze"]

/-- A name of a container that starts with a letter or a digit. -/
def containerOK (c : Text) : Bool := backupNameOK c && (c.head?.map isAlnum).getD false

/-- `diskFixLines`. -/
def diskFixLines (cmd : Command) : Option (List Pair) :=
  if oneOf diskFixActions cmd.name = false ∨ oneOf ["preview", "run"] cmd.mode = false then none
  else if cmd.name = "analyze".toList then
    if cmd.mode ≠ "run".toList ∨ diskMountOK cmd.mount = false then none
    else some [action "analyze", (.mode, "run".toList), (.mount, cmd.mount)]
  else if cmd.name = "container-log".toList then
    if containerOK cmd.container = false then none
    else some [(.action, cmd.name), (.mode, cmd.mode), (.container, cmd.container)]
  else some [(.action, cmd.name), (.mode, cmd.mode)]

/-- `unitFixLines`. -/
def unitFixLines (mode name : Text) : Option (List Pair) :=
  if oneOf ["restart", "reset"] mode = false then none
  else if unitOK name = false then none
  else some [(.op, mode), (.unit, name)]

/-- `unitJournalLines`. -/
def unitJournalLines (cmd : Command) : Option (List Pair) :=
  if oneOf ["_all", "_kernel"] cmd.name = false ∧
      (unitFixLines "restart".toList cmd.name).isNone then none
  else
    let n := if cmd.lines ≤ 0 then 300 else cmd.lines
    let prio := if oneOf ["err", "warning"] cmd.prio then cmd.prio else "info".toList
    some [op "journal", (.unit, cmd.name), (.since, itoa (min (max cmd.since 1) 10080)),
      (.lines, itoa (min (max n 10) 1000)), (.prio, prio)]

/-! ## The ban of scanners -/

/-- A label keeps no control character, quote or backslash, and forty characters. -/
def labelChar (c : Char) : Bool :=
  !(c.toNat < 0x20 || c.toNat = 0x7f || c.toNat = 0x22 || c.toNat = 0x5c)
def cleanLabel (label : Text) : Text := ((trimSpace label).filter labelChar).take 40

/-- `TrimSpace("net=" + c + " " + label)`, after its key. -/
def netValue (c label : Text) : Text := (c ++ ' ' :: label).rdropWhile isSpace

/-- A row of the panel's white list: a network and its label. -/
def netLine (p : Text) : Option Pair :=
  let (c, label, _) := cutAt ' ' (trimSpace p)
  if cidrOK c = false ∧ parseIP c = none then none
  else some (.net, netValue c (cleanLabel label))

/-- `autobanLines`. -/
def autobanLines (cmd : Command) : Option (List Pair) :=
  if oneOf ["on", "watch", "off"] cmd.mode then some [op "mode", (.mode, cmd.mode)]
  else if cmd.mode = "unban".toList then
    (parseIP cmd.name).map fun ip => [op "unban", (.ip, ipString ip)]
  else if cmd.mode = "allow".toList then
    if 2000 < cmd.paths.length then none
    else (cmd.paths.mapM netLine).map fun ps => [op "allow"] ++ ps
  else none

/-! ## The command -/

/-- The commands of the backup server. -/
def serverActions : List String :=
  ["deploy_server", "update_image", "provision_client", "deploy_tls_front", "get_cert",
    "get_client_creds", "allow_tls", "mirror_allow"]

/-- The lines of a builder for a spool, or why there are none. -/
def linesFor (spool : Spool) (why : String) (lines : Option (List Pair)) :
    Except String (Spool × List Pair) :=
  match lines with
  | some ps => .ok (spool, ps)
  | none => .error why

def forBackup (lines : Except String (List Pair)) : Except String (Spool × List Pair) :=
  lines.map fun ps => (.backup, ps)

/-- `runBackupCommand` up to the spool. -/
def request (env : Env) (cmd : Command) : Except String (Spool × List Pair) :=
  if cmd.action = "set_paths".toList then forBackup (setPaths cmd)
  else if cmd.action = "set_schedule".toList then forBackup (setSchedule cmd)
  else if cmd.action = "run_now".toList then .ok (.backup, [action "run_now"])
  else if cmd.action = "restic_update".toList then .ok (.backup, [action "restic_update"])
  else if cmd.action = "get_creds".toList then .ok (.backup, [action "get_creds"])
  else if cmd.action = "deprovision".toList then .ok (.backup, [action "deprovision"])
  else if cmd.action = "dump_setup".toList then forBackup (dump cmd "dump_setup" true)
  else if cmd.action = "dump_remove".toList then forBackup (dump cmd "dump_remove" false)
  else if cmd.action = "provision".toList then forBackup (provision env cmd)
  else if cmd.action = "to_https".toList then
    linesFor .backup "неверный порт или сертификат" (toHTTPSLines cmd)
  else if oneOf serverActions cmd.action then
    linesFor .bsrv "неверные параметры провижининга" (backupServerLines cmd)
  else if cmd.action = "timesync".toList then
    .ok (.timesync, [action "sync", (.panelUrl, env.panelURL)])
  else if cmd.action = "disk_fix".toList then
    linesFor .du "неизвестное действие или параметры" (diskFixLines cmd)
  else if cmd.action = "unit_fix".toList then
    linesFor .units "неизвестное действие или юнит" (unitFixLines cmd.mode cmd.name)
  else if cmd.action = "mirror".toList then
    linesFor .mirror "неверный список копий" (mirrorLines cmd)
  else if cmd.action = "autoban".toList then
    linesFor .autoban "неизвестное действие или адрес" (autobanLines cmd)
  else if cmd.action = "unit_journal".toList then
    linesFor .units "неизвестный юнит" (unitJournalLines cmd)
  else .error "неизвестное действие"

/-! ## The file -/

/-- `strings.ContainsAny(ln, "\r\n\x00")`. -/
def breaks (c : Char) : Bool := c = '\r' || c = '\n' || c.toNat = 0

def asText (ps : List Pair) : List (Text × Text) := ps.map fun p => (p.1.text, p.2)

/-- `spoolInFor` up to the file: its content, unless a line has a break in it. -/
def fileOf (ps : List Pair) : Except String Text :=
  if (asText ps).any fun p => (Fields.line p).any breaks then
    .error "недопустимый символ в параметрах запроса"
  else .ok (Fields.text (asText ps))

/-- The file that a command leaves, and where. -/
def written (env : Env) (cmd : Command) : Except String (Spool × Text) :=
  match request env cmd with
  | .error why => .error why
  | .ok (spool, ps) =>
    match fileOf ps with
    | .error why => .error why
    | .ok body => .ok (spool, body)

end Kervax.Spools
