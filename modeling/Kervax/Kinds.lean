-- The kinds of server alerts (`SERVER_ALERT_KINDS`), the sets of kinds that
-- the tick treats apart, and the spans of time that its rules use.
import Mathlib.Data.List.Basic

namespace Kervax

/-! ## Time -/

/-- A moment, in microseconds: what a Python `datetime` resolves. -/
abbrev Time := Int

/-- So many seconds. -/
def sec (n : Int) : Time := n * 1000000

/-- `_FLAP_WINDOW`, `_FLAP_LIMIT`. -/
def flapWindow : Time := sec (30 * 60)
def flapLimit : Nat := 4

/-- `_FLAP_METRIC_WINDOW`, `_FLAP_METRIC_LIMIT`. -/
def flapMetricWindow : Time := sec (6 * 3600)
def flapMetricLimit : Nat := 3

/-- `_SIG_STORY_S`. -/
def sigStoryS : Time := sec 3600

/-- `_SETTLE_S`, `_AGAIN_S`, `_AGAIN_MAX`, `_AGAIN_TELL`. -/
def settleS : Time := sec (15 * 60)
def againS : Time := sec (6 * 3600)
def againMax : Time := sec (24 * 3600)
def againTell : Time := sec (3 * 3600)

/-- `_ROUTINE_DAYS`, `_ROUTINE_SLACK`, `_ROUTINE_MAX`, `_ROUTINE_OVER`, `_ROUTINE_KEEP`. -/
def routineDays : Nat := 2
def routineSlack : Time := sec (45 * 60)
def routineMax : Time := sec (6 * 3600)
def routineOver : Time := sec 3600
def routineKeep : Time := sec (8 * 86400)

/-- A day. -/
def day : Time := sec 86400

/-- `_KIDS_WAIT`. -/
def kidsWait : Time := sec 180

/-- `fixed.LIFE`. -/
def fixedLife : Time := sec 86400

/-- `fill_alert.CRIT`: the level of a full disk that nothing holds back. -/
def fillCrit : Nat := 3

/-- The last `n` of a list: `l[-n:]`. -/
def lastN {α : Type} (n : Nat) (l : List α) : List α := l.drop (l.length - n)

/-! ## The kinds -/

inductive Kind
  | offline | cpu | mem | disk | temp | throttle | conntrack | dbConn | disktemp | diskHealth
  | inode | diskForecast | windowsService | units | unitLoop | kubeCron | cpuSpin | backupGrowth
  | dockerSock | dockerRisk | accessRisk | exposed | cfRealip | portNew | pressure | netHealth
  | link | traffic | kubeNode | kubeJob | accessChange | backupRestore | dockerRestarts
  | kubeRestarts | memLeak | memLimit | sshRisk | dbHealth | webConfig | webfiles | webCert
  | listenGone | diskSlow | backupTransfer | gpu | gpuHeat | llm | qdrant | reboot | oom
  | dockerDown | dockerLoop | backupMissing | backupFailed | backupStale | backupRepo
  | backupUnmonitored | backupPrune | dns | backupCheck | backupMirror | backupLock | backupDump
  | backupDumpSpace | backupCron | backupCustom | backupRotation | queue | queueStuck | queueFailed
  | workers | cronStuck | logErrors | fpm | vpnTorrent | vpnHeavy | greDown | gitlab | autoban
  | web5xx | kubePod | clock | kubeExpiry | fluxDown | fluxStale | uncovered | bogusRequests
deriving DecidableEq, Repr

/-- `_SIG_STORY`: slow counts over a day, where one more object is the same story. -/
def sigStory : List Kind := [.dockerRestarts, .kubeRestarts, .dbHealth]

/-- `_ROUTINE_KINDS`. -/
def routineKinds : List Kind := [.pressure, .diskSlow, .cpu, .kubeRestarts, .dockerRestarts]

/-- `_SILENT_RECOVERY`. -/
def silentRecovery : List Kind := [.backupGrowth]

/-- `_NO_SETTLE`: kinds with rules of their own. -/
def noSettle : List Kind := [.offline, .backupGrowth]

/-- `_OWN_SETTLE`: kinds that hold each object on its own. -/
def ownSettle : List Kind := [.units, .dockerRestarts, .kubeRestarts]

/-- `_DAYTIME_KINDS`. -/
def daytimeKinds : List Kind := [.memLeak, .diskForecast]

/-- `_FLAP_METRIC_KINDS`. -/
def flapMetricKinds : List Kind :=
  [.cpu, .mem, .disk, .inode, .temp, .conntrack, .dbConn, .disktemp, .web5xx]

/-- `_FLAP_METRIC_LIMIT_OF.get(key, _FLAP_METRIC_LIMIT)`. -/
def flapMetricLimitOf (k : Kind) : Nat := if k ∈ [Kind.disk, .inode] then 2 else flapMetricLimit

/-- `tracks_members`: kinds that remember each broken object. -/
def tracksMembers : List Kind :=
  [.windowsService, .diskHealth, .units, .dockerRestarts, .kubeRestarts, .memLeak, .memLimit,
   .dbHealth, .webConfig, .webCert, .webfiles, .listenGone, .dockerRisk, .accessRisk, .link, .gpu,
   .cfRealip, .queueStuck, .queueFailed, .workers, .cronStuck, .logErrors, .fpm, .gitlab, .autoban,
   .vpnTorrent, .vpnHeavy]

/-- `_BOOT_HOLD`: what is still coming up after a boot. -/
def bootHold : List Kind :=
  [.windowsService, .units, .kubePod, .kubeNode, .kubeRestarts, .dockerRestarts, .fluxDown,
   .fluxStale, .workers, .fpm, .cronStuck, .logErrors, .queueStuck, .queueFailed, .dbConn, .dbHealth,
   .web5xx, .listenGone, .link, .netHealth, .dns, .llm, .gpu, .pressure, .cpu, .mem]

/-- `fixed.STATE`: trouble that is there now. -/
def fixedState : List Kind :=
  [.cpu, .mem, .temp, .throttle, .conntrack, .dbConn, .disktemp, .disk, .inode, .pressure,
   .netHealth, .link, .diskSlow, .dns, .clock, .units, .kubePod, .kubeNode, .fluxDown, .fluxStale,
   .kubeCron, .listenGone, .cronStuck, .queueStuck, .queueFailed, .workers, .fpm, .memLimit, .gpu,
   .gpuHeat, .llm, .qdrant, .windowsService, .cpuSpin, .dbHealth, .webConfig, .greDown, .autoban,
   .vpnTorrent, .vpnHeavy]

/-- `onboard._SEND`: kinds that go out while a server is being connected. -/
def onboardSend : List Kind := [.offline, .disk, .inode]

/-- `dev_mode.APP`: how applications behave, which a server of development does not send. -/
def devApp : List Kind :=
  [.dockerDown, .dockerLoop, .dockerRestarts, .kubePod, .kubeJob, .kubeCron, .kubeRestarts,
   .windowsService, .units, .unitLoop, .workers, .queue, .queueStuck, .queueFailed, .cronStuck,
   .logErrors, .fpm, .llm, .qdrant, .listenGone, .dbConn, .dbHealth, .web5xx, .webConfig, .cpuSpin,
   .memLeak, .memLimit]

/-! ## The sets do not meet where the rules must not -/

theorem tracks_ne_offline {k : Kind} (h : k ∈ tracksMembers) : k ≠ .offline := by
  rintro rfl
  exact absurd h (by decide)

theorem tracks_noSettle {k : Kind} (h : k ∈ tracksMembers) : k ∉ noSettle := by
  intro hn
  simp only [noSettle, List.mem_cons, List.not_mem_nil, or_false] at hn
  rcases hn with rfl | rfl <;> exact absurd h (by decide)

theorem tracks_flapMetric {k : Kind} (h : k ∈ tracksMembers) : k ∉ flapMetricKinds := by
  intro hn
  simp only [flapMetricKinds, List.mem_cons, List.not_mem_nil, or_false] at hn
  rcases hn with rfl | rfl | rfl | rfl | rfl | rfl | rfl | rfl | rfl <;> exact absurd h (by decide)

theorem noSettle_routine {k : Kind} (h : k ∈ noSettle) : k ∉ routineKinds := by
  simp only [noSettle, List.mem_cons, List.not_mem_nil, or_false] at h
  rcases h with rfl | rfl <;> decide

end Kervax
