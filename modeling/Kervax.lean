import Kervax.SiteAlertsLaws
import Kervax.FlapRuns
import Kervax.CalmRuns
import Kervax.RollbackLaws
import Kervax.Runs
import Kervax.KindTick
import Kervax.HeardRuns
import Kervax.RoutineRuns
import Kervax.Known
import Kervax.Progress
import Kervax.Storms
import Kervax.Acks
import Kervax.Expiry
import Kervax.DomainRuns
import Kervax.Changes
import Kervax.SiteFolds
import Kervax.SiteGroupRuns
import Kervax.SiteAlternation
import Kervax.Visibility
import Kervax.ClientIp
import Kervax.MaintenanceRuns
import Kervax.SelfUpdateRuns
import Kervax.UpdateRetries
import Kervax.MemTrendRuns
import Kervax.AuthRuns
import Kervax.MuteRuns
import Kervax.OomRuns
import Kervax.SpoolLaws
import Kervax.LastAdmin
import Kervax.TrafficRuns
import Kervax.AccessRuns
import Kervax.AccessDiff
import Kervax.Flaky
import Kervax.FillRuns
import Kervax.UsageRuns
import Kervax.RestartRuns
import Kervax.TotpRuns
import Kervax.BackupRuns
import Kervax.RecheckLaws
import Kervax.LocationRuns
import Kervax.ParentsLaws
import Kervax.LoginRuns
import Kervax.NetGuardLaws
import Kervax.Dpkg
import Kervax.Vulns
import Kervax.VulnsLaws
import Kervax.Series
import Kervax.QueueWatch
import Kervax.QueueRuns
import Kervax.ListenWatch
import Kervax.ListenRuns
import Kervax.Tamper
import Kervax.TamperRuns
import Kervax.Markup
import Kervax.TgText
import Kervax.TgTextLaws
import Kervax.RichText
import Kervax.Brief
import Kervax.RichTextLaws
import Kervax.BriefLaws
import Kervax.OomCounter
import Kervax.OomCounterRuns
import Kervax.DumpPaths
import Kervax.DomainCache
import Kervax.DomainCacheLaws
import Kervax.Episodes
import Kervax.Podnames
import Kervax.MemLimit
import Kervax.MemLimitRuns
import Kervax.BackupTransfer
import Kervax.BackupTransferRuns
import Kervax.KubeCron
import Kervax.KubeCronRuns
import Kervax.ResumedDownload
import Kervax.Spells
import Kervax.LogErrors
import Kervax.LogErrorsRuns
import Kervax.LlmMetrics
import Kervax.LlmMetricsLaws
import Kervax.Packages
import Kervax.PackagesLaws
import Kervax.PackageEvents
import Kervax.Lines
import Kervax.Firsts
import Kervax.PackageTail
import Kervax.PackageRuns
import Kervax.PackageList
import Kervax.PackageListLaws
import Kervax.Holdings
import Kervax.Buttons
import Kervax.ButtonsLaws
import Kervax.ButtonRuns
import Kervax.Escalation
import Kervax.EscalationRuns
import Kervax.Cursor
import Kervax.BotPoll
import Kervax.Debounce
import Kervax.Damping
import Kervax.Timeline
import Kervax.TimelineLaws
import Kervax.TimelineRuns
import Kervax.TimelinePorts
import Kervax.TimelineBoots
import Kervax.Conf
import Kervax.ConfLaws
import Kervax.ConfIncludes
