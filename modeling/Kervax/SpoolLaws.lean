-- A command of the panel leaves a file that reads back as the pairs the agent built, and
-- nothing of the command's texts reaches over its own value: the first line is a fixed
-- word, no key comes twice, and every value passes the check of its field.
import Kervax.SpoolRequests

namespace Kervax.Spools

/-! ## What a request has to be -/

/-- The key of the first line in a spool, and its words. -/
def verbs : Spool → Key × List String
  | .backup => (.action, ["set_paths", "set_schedule", "run_now", "restic_update", "get_creds",
      "deprovision", "dump_setup", "dump_remove", "provision", "to_https"])
  | .bsrv => (.action, serverActions)
  | .timesync => (.action, ["sync"])
  | .du => (.action, diskFixActions)
  | .units => (.op, ["restart", "reset", "journal"])
  | .mirror => (.action, ["set", "pull"])
  | .autoban => (.op, ["mode", "unban", "allow"])

/-- The keys that may come more than once. -/
def repeats : Key → Bool
  | .path | .repo | .source | .net => true
  | _ => false

/-- A network or an address without a blank, and a label without control characters. -/
def NetOK (v : Text) : Prop :=
  ∃ c label, v = netValue c label ∧ ' ' ∉ c ∧ (cidrOK c = true ∨ (parseIP c).isSome) ∧
    label.length ≤ 40 ∧ ∀ r ∈ label, labelChar r = true

/-- The check of a field: paths, names, addresses, keys and secrets. -/
def FieldOK (cmd : Command) (spool : Spool) (v : Text) : Key → Prop
  | .path => backupPathOK v = true
  | .dumpDir => dumpPathOK v = true
  | .storageMount => backupStorageMountOK v = true
  | .mount => diskMountOK v = true
  | .schedule => backupTimeRe.rmatch v = true
  | .repoUrl => hasPrefix v "rest:" = true ∧ backupRepoURLRe.rmatch v = true
  | .repopass => backupSecretRe.rmatch v = true
  | .hpass => backupHpassRe.rmatch v = true
  | .name | .repo => backupRepoNameOK v = true
  | .clientIp | .sanIp => backupIPOK v = true
  | .pubkey => mirrorPubKeyOK v = true
  | .engine => oneOf engines v = true
  | .container =>
    if spool = .du then containerOK v = true else v = [] ∨ backupNameOK v = true
  | .unit => unitOK v = true ∨ oneOf ["_all", "_kernel"] v = true
  | .ip => (parseIP v).isSome
  | .net => NetOK v
  | .source => ∃ src ∈ cmd.sources, sourceOK src = true ∧ v = sourceValue src
  | .port => ∃ n, 1 ≤ n ∧ n ≤ 65535 ∧ v = itoa n
  | _ => True

structure Sound (cmd : Command) (spool : Spool) (ps : List Pair) : Prop where
  verb : ∃ p, ps.head? = some p ∧ p.1 = (verbs spool).1 ∧ oneOf (verbs spool).2 p.2 = true
  once : ((ps.map Prod.fst).filter fun k => !repeats k).Nodup
  checked : ∀ p ∈ ps, FieldOK cmd spool p.2 p.1

section

variable {cmd : Command} {spool : Spool} {ps qs : List Pair}

theorem oneOf_self {words : List String} {w : String} (h : w ∈ words) :
    oneOf words w.toList = true := by
  simp only [oneOf, List.any_eq_true, decide_eq_true_eq]
  exact ⟨w, h, rfl⟩

theorem fieldOK_verb (v : Text) : FieldOK cmd spool v (verbs spool).1 := by
  cases spool <;> trivial

/-- A request of fixed keys, the first of them with a word of the spool. -/
theorem sound_cons {v : Text} (hword : oneOf (verbs spool).2 v = true)
    (honce : ((((verbs spool).1 :: ps.map Prod.fst)).filter fun k => !repeats k).Nodup)
    (hchecked : ∀ q ∈ ps, FieldOK cmd spool q.2 q.1) :
    Sound cmd spool (((verbs spool).1, v) :: ps) := by
  refine ⟨⟨_, rfl, rfl, hword⟩, honce, fun q hq => ?_⟩
  rcases List.mem_cons.mp hq with rfl | hq
  · exact fieldOK_verb v
  · exact hchecked q hq

/-- Which keys come more than once does not depend on the values. -/
theorem sound_keys (keys : List Key) {v : Text} (hword : oneOf (verbs spool).2 v = true)
    (hkeys : ps.map Prod.fst = keys)
    (honce : (((verbs spool).1 :: keys).filter fun k => !repeats k).Nodup)
    (hchecked : ∀ q ∈ ps, FieldOK cmd spool q.2 q.1) :
    Sound cmd spool (((verbs spool).1, v) :: ps) :=
  sound_cons hword (hkeys ▸ honce) hchecked

/-- Keys that may repeat do not count. -/
theorem once_append (h : ∀ p ∈ qs, repeats p.1 = true) :
    ((ps ++ qs).map Prod.fst).filter (fun k => !repeats k) =
      (ps.map Prod.fst).filter fun k => !repeats k := by
  have hnil : (qs.map Prod.fst).filter (fun k => !repeats k) = [] := by
    rw [List.filter_eq_nil_iff]
    intro k hk
    obtain ⟨p, hp, rfl⟩ := List.mem_map.mp hk
    simp [h p hp]
  rw [List.map_append, List.filter_append, hnil, List.append_nil]

/-- Rows of one key that may repeat come after the request. -/
theorem Sound.append (h : Sound cmd spool ps) (hrep : ∀ p ∈ qs, repeats p.1 = true)
    (hchecked : ∀ p ∈ qs, FieldOK cmd spool p.2 p.1) : Sound cmd spool (ps ++ qs) := by
  obtain ⟨p, hp, hkey, hword⟩ := h.verb
  refine ⟨⟨p, ?_, hkey, hword⟩, ?_, fun q hq => ?_⟩
  · rw [List.head?_append, hp]
    rfl
  · rw [once_append hrep]
    exact h.once
  · rcases List.mem_append.mp hq with hin | hin
    · exact h.checked q hin
    · exact hchecked q hin

theorem Sound.append_map {α : Type} {k : Key} {f : α → Text} {xs : List α}
    (h : Sound cmd spool ps) (hk : repeats k = true)
    (hchecked : ∀ x ∈ xs, FieldOK cmd spool (f x) k) :
    Sound cmd spool (ps ++ xs.map fun x => (k, f x)) := by
  apply h.append
  · intro p hp
    obtain ⟨x, -, rfl⟩ := List.mem_map.mp hp
    exact hk
  · intro p hp
    obtain ⟨x, hx, rfl⟩ := List.mem_map.mp hp
    exact hchecked x hx

/-! ## The client of the backup -/

theorem ok_of_map {α β : Type} {x : Except String α} {f : α → β} {y : β}
    (h : x.map f = .ok y) : ∃ a, x = .ok a ∧ y = f a := by
  cases x with
  | error e => cases h
  | ok a =>
    cases h
    exact ⟨a, rfl, rfl⟩

theorem pathLines_ok {paths : List Text} (h : pathLines paths = .ok ps) :
    ps = paths.map (fun p => (.path, p)) ∧ ∀ p ∈ paths, backupPathOK p = true := by
  unfold pathLines at h
  split at h
  · cases h
  · next hnone =>
    cases h
    refine ⟨rfl, fun p hp => ?_⟩
    have hp' := List.find?_eq_none.mp hnone p hp
    simpa using hp'

theorem sound_paths {paths : List Text} (h : Sound cmd .backup ps)
    (hpaths : pathLines paths = .ok qs) : Sound cmd .backup (ps ++ qs) := by
  obtain ⟨rfl, hok⟩ := pathLines_ok hpaths
  exact h.append_map rfl hok

/-- A request of one word. -/
theorem sound_word {w : String} (hw : w ∈ (verbs spool).2) :
    Sound cmd spool [((verbs spool).1, w.toList)] := by
  apply sound_cons (oneOf_self hw)
  · cases spool <;> decide
  · simp

theorem sound_setPaths (h : setPaths cmd = .ok ps) : Sound cmd .backup ps := by
  unfold setPaths at h
  split at h
  · cases h
  split at h
  · cases h
  obtain ⟨qs, hqs, rfl⟩ := ok_of_map h
  apply sound_paths _ hqs
  refine sound_keys [.mode] (oneOf_self (by decide)) rfl (by decide) ?_
  simp [FieldOK]

theorem sound_setSchedule (h : setSchedule cmd = .ok ps) : Sound cmd .backup ps := by
  unfold setSchedule at h
  split at h
  · cases h
  next htime =>
  cases h
  refine sound_keys [.schedule] (oneOf_self (by decide)) rfl (by decide) ?_
  simpa [FieldOK] using htime

theorem sound_dump {verb : String} {setup : Bool} (hverb : verb ∈ (verbs .backup).2)
    (h : dump cmd verb setup = .ok ps) : Sound cmd .backup ps := by
  unfold dump at h
  split at h
  · cases h
  next hengine =>
  split at h
  · cases h
  next hcontainer =>
  have hengine' : oneOf engines cmd.engine = true := by simpa using hengine
  have hcontainer' : cmd.container = [] ∨ backupNameOK cmd.container = true := by
    by_cases hc : cmd.container = []
    · exact Or.inl hc
    · exact Or.inr (by simpa [hc] using hcontainer)
  dsimp only at h
  split at h
  · cases h
    refine sound_keys [.engine, .container] (oneOf_self hverb) rfl (by decide) ?_
    simp [FieldOK, hengine', hcontainer']
  split at h
  · cases h
  next hdir =>
  cases h
  refine sound_cons (oneOf_self hverb) ?_ ?_
  · split_ifs <;> simp [verbs, repeats]
  · intro q hq
    have hq' : q = (.engine, cmd.engine) ∨ q = (.container, cmd.container) ∨
        (cmd.dumpDir ≠ [] ∧ q = (.dumpDir, cmd.dumpDir)) ∨
        (0 < cmd.dumpKeep ∧ q = (.dumpKeep, itoa cmd.dumpKeep)) ∨
        q = (.dumpMinfree, itoa cmd.dumpMinFree) := by
      simpa using hq
    rcases hq' with rfl | rfl | ⟨hd, rfl⟩ | ⟨-, rfl⟩ | rfl
    · exact hengine'
    · simpa [FieldOK] using hcontainer'
    · simpa [FieldOK, hd] using hdir
    · trivial
    · trivial

theorem sound_provision {env : Env} (h : provision env cmd = .ok ps) : Sound cmd .backup ps := by
  unfold provision at h
  split at h
  · cases h
  next hrest =>
  split at h
  · cases h
  next hurl =>
  split at h
  · cases h
  next hpass =>
  split at h
  · cases h
  split at h
  · cases h
  split at h
  · cases h
  next htime =>
  obtain ⟨qs, hqs, rfl⟩ := ok_of_map h
  simp only [not_or, Bool.not_eq_false] at hrest hurl hpass htime
  apply sound_paths _ hqs
  refine sound_keys [.repoUrl, .repopass, .mode, .schedule, .delay, .resticVersion, .cacertB64]
    (oneOf_self (by decide)) rfl (by decide) ?_
  simp only [List.forall_mem_cons]
  exact ⟨⟨hrest.1, hurl⟩, hpass, trivial, htime.1, trivial, trivial, trivial,
    List.forall_mem_nil _⟩

theorem sound_toHTTPSLines (h : toHTTPSLines cmd = some ps) : Sound cmd .backup ps := by
  unfold toHTTPSLines at h
  split at h
  · cases h
  next hport =>
  split at h
  · cases h
  cases h
  refine sound_keys [.port, .cacertB64] (oneOf_self (by decide)) rfl (by decide) ?_
  simp only [List.forall_mem_cons, FieldOK]
  refine ⟨⟨cmd.port, ?_, ?_, rfl⟩, trivial, by simp⟩
  · omega
  · omega

/-! ## The backup server -/

theorem sound_deployServer (h : deployServer cmd = some ps) : Sound cmd .bsrv ps := by
  unfold deployServer at h
  split at h
  · cases h
  next hport =>
  have hok : ∃ n : Int, 1 ≤ n ∧ n ≤ 65535 ∧ itoa cmd.port = itoa n :=
    ⟨cmd.port, by omega, by omega, rfl⟩
  split at h
  · cases h
    refine sound_keys [.port] (oneOf_self (by decide)) rfl (by decide) ?_
    simpa [FieldOK] using hok
  split at h
  · cases h
  next hmount =>
  cases h
  refine sound_keys [.port, .storageMount] (oneOf_self (by decide)) rfl (by decide) ?_
  simp only [List.forall_mem_cons, FieldOK]
  exact ⟨hok, by simpa using hmount, by simp⟩

theorem sound_provisionClient (h : provisionClient cmd = some ps) : Sound cmd .bsrv ps := by
  unfold provisionClient at h
  split at h
  · cases h
  next hname =>
  split at h
  · cases h
  next hpass =>
  cases h
  simp only [not_or, Bool.not_eq_false] at hname hpass
  refine sound_keys [.name, .hpass, .repopass, .clientIp, .keepLast, .keepDaily, .keepWeekly, .keepMonthly]
    (oneOf_self (by decide)) rfl (by decide) ?_
  simp only [List.forall_mem_cons]
  exact ⟨hname.1, hpass.1, hpass.2, hname.2, trivial, trivial, trivial, trivial,
    List.forall_mem_nil _⟩

theorem sound_deployTLSFront (h : deployTLSFront cmd = some ps) : Sound cmd .bsrv ps := by
  unfold deployTLSFront at h
  split at h
  · cases h
  next hip =>
  cases h
  refine sound_keys [.sanIp, .sanDns] (oneOf_self (by decide)) rfl (by decide) ?_
  simpa [FieldOK] using hip

theorem sound_getClientCreds (h : getClientCreds cmd = some ps) : Sound cmd .bsrv ps := by
  unfold getClientCreds at h
  split at h
  · cases h
  next hname =>
  cases h
  refine sound_keys [.name] (oneOf_self (by decide)) rfl (by decide) ?_
  simpa [FieldOK] using hname

theorem sound_allowTLS (h : allowTLS cmd = some ps) : Sound cmd .bsrv ps := by
  unfold allowTLS at h
  split at h
  · cases h
  next hip =>
  cases h
  refine sound_keys [.clientIp] (oneOf_self (by decide)) rfl (by decide) ?_
  simpa [FieldOK] using hip

theorem sound_mirrorAllow (h : mirrorAllow cmd = some ps) : Sound cmd .bsrv ps := by
  unfold mirrorAllow at h
  split at h
  · cases h
  next hname =>
  simp only [not_or, Bool.not_eq_false] at hname
  split at h
  · cases h
    refine sound_keys [.name] (oneOf_self (by decide)) rfl (by decide) ?_
    simpa [FieldOK] using hname.1
  split at h
  · cases h
  next hkey =>
  split at h
  · cases h
  next hrepos =>
  cases h
  simp only [not_or, Bool.not_eq_false] at hkey
  apply Sound.append_map _ rfl
  · intro r hr
    have hall := List.all_eq_true.mp (Bool.not_eq_false _ ▸ hrepos)
    exact hall r hr
  · refine sound_keys [.name, .clientIp, .pubkey] (oneOf_self (by decide)) rfl (by decide) ?_
    simp [FieldOK, hname.1, hkey]

theorem sound_backupServerLines (h : backupServerLines cmd = some ps) : Sound cmd .bsrv ps := by
  unfold backupServerLines at h
  split at h
  · exact sound_deployServer h
  split at h
  · cases h
    exact sound_word (by decide)
  split at h
  · exact sound_provisionClient h
  split at h
  · exact sound_deployTLSFront h
  split at h
  · cases h
    exact sound_word (by decide)
  split at h
  · exact sound_getClientCreds h
  split at h
  · exact sound_allowTLS h
  split at h
  · exact sound_mirrorAllow h
  · cases h

/-! ## The reserve server, disks and units -/

theorem sound_mirrorLines (h : mirrorLines cmd = some ps) : Sound cmd .mirror ps := by
  unfold mirrorLines at h
  split at h
  · cases h
    exact sound_word (by decide)
  split at h
  · cases h
  split at h
  · cases h
  split at h
  · cases h
  next hsources =>
  cases h
  simp only [not_or, Bool.not_eq_false] at hsources
  apply Sound.append_map _ rfl
  · intro src hsrc
    exact ⟨src, hsrc, List.all_eq_true.mp hsources.1 src hsrc, rfl⟩
  · exact sound_word (by decide)

theorem sound_diskFixLines (h : diskFixLines cmd = some ps) : Sound cmd .du ps := by
  unfold diskFixLines at h
  split at h
  · cases h
  next hname =>
  simp only [not_or, Bool.not_eq_false] at hname
  split at h
  · split at h
    · cases h
    next hmount =>
    cases h
    simp only [not_or, Bool.not_eq_false] at hmount
    refine sound_keys [.mode, .mount] (oneOf_self (by decide)) rfl (by decide) ?_
    simp [FieldOK, hmount.2]
  split at h
  · split at h
    · cases h
    next hcontainer =>
    cases h
    refine sound_keys [.mode, .container] hname.1 rfl (by decide) ?_
    simpa [FieldOK] using hcontainer
  · cases h
    refine sound_keys [.mode] hname.1 rfl (by decide) ?_
    simp [FieldOK]

theorem unitFixLines_ok {mode name : Text} (h : unitFixLines mode name = some ps) :
    ps = [(.op, mode), (.unit, name)] ∧ oneOf ["restart", "reset"] mode = true ∧
      unitOK name = true := by
  unfold unitFixLines at h
  split at h
  · cases h
  next hmode =>
  split at h
  · cases h
  next hname =>
  cases h
  exact ⟨rfl, by simpa using hmode, by simpa using hname⟩

theorem sound_unitFixLines {mode name : Text} (h : unitFixLines mode name = some ps) :
    Sound cmd .units ps := by
  obtain ⟨rfl, hmode, hname⟩ := unitFixLines_ok h
  refine sound_keys [.unit] ?_ rfl (by decide) ?_
  · simp only [oneOf, verbs, List.any_cons, List.any_nil, Bool.or_eq_true] at hmode ⊢
    rcases hmode with h | h | h
    · exact Or.inl h
    · exact Or.inr (Or.inl h)
    · cases h
  · simp [FieldOK, hname]

theorem sound_unitJournalLines (h : unitJournalLines cmd = some ps) : Sound cmd .units ps := by
  unfold unitJournalLines at h
  split at h
  · cases h
  next hname =>
  cases h
  have hunit : unitOK cmd.name = true ∨ oneOf ["_all", "_kernel"] cmd.name = true := by
    by_cases hall : oneOf ["_all", "_kernel"] cmd.name = true
    · exact Or.inr hall
    · have hsome : (unitFixLines "restart".toList cmd.name).isSome := by
        simpa [hall, Option.isSome_iff_ne_none] using hname
      obtain ⟨qs, hqs⟩ := Option.isSome_iff_exists.mp hsome
      exact Or.inl (unitFixLines_ok hqs).2.2
  refine sound_keys [.unit, .since, .lines, .prio] (oneOf_self (by decide)) rfl (by decide) ?_
  simp only [List.forall_mem_cons]
  exact ⟨hunit, trivial, trivial, trivial, List.forall_mem_nil _⟩

/-! ## The ban of scanners -/

theorem netOK_netLine {p : Text} {q : Pair} (h : netLine p = some q) :
    q.1 = .net ∧ NetOK q.2 := by
  unfold netLine at h
  rcases hcut : cutAt ' ' (trimSpace p) with ⟨c, label, found⟩
  rw [hcut] at h
  dsimp only at h
  split at h
  · cases h
  next hnet =>
  cases h
  refine ⟨rfl, c, cleanLabel label, rfl, ?_, ?_, ?_, ?_⟩
  · intro hin
    have hc : (cutAt ' ' (trimSpace p)).1 = c := congrArg Prod.fst hcut
    rw [← hc] at hin
    have hne := List.mem_takeWhile_imp hin
    simp at hne
  · by_cases hcidr : cidrOK c = true
    · exact Or.inl hcidr
    · refine Or.inr (Option.isSome_iff_ne_none.mpr fun hnone => hnet ⟨?_, hnone⟩)
      simpa using hcidr
  · exact List.length_take_le _ _
  · intro r hr
    exact (List.mem_filter.mp (List.mem_of_mem_take hr)).2

/-- What a row gives, some row of the panel was read as. -/
theorem nets_of_mapM {paths : List Text} (h : paths.mapM netLine = some ps) :
    ∀ q ∈ ps, q.1 = .net ∧ NetOK q.2 := by
  induction paths generalizing ps with
  | nil =>
    cases h
    simp
  | cons p paths ih =>
    simp only [List.mapM_cons, Option.pure_def, Option.bind_eq_bind, Option.bind_eq_some_iff,
      Option.some.injEq] at h
    obtain ⟨q, hq, qs, hqs, rfl⟩ := h
    intro r hr
    rcases List.mem_cons.mp hr with rfl | hr
    · exact netOK_netLine hq
    · exact ih hqs r hr

theorem sound_autobanLines (h : autobanLines cmd = some ps) : Sound cmd .autoban ps := by
  unfold autobanLines at h
  split at h
  · cases h
    refine sound_keys [.mode] (oneOf_self (by decide)) rfl (by decide) ?_
    simp [FieldOK]
  split at h
  · obtain ⟨ip, -, rfl⟩ := Option.map_eq_some_iff.mp h
    refine sound_keys [.ip] (oneOf_self (by decide)) rfl (by decide) ?_
    simp [FieldOK, parseIP_ipString]
  split at h
  · split at h
    · cases h
    obtain ⟨qs, hqs, rfl⟩ := Option.map_eq_some_iff.mp h
    have hnets := nets_of_mapM hqs
    apply Sound.append (sound_word (by decide))
    · intro q hq
      rw [(hnets q hq).1]
      rfl
    · intro q hq
      rw [(hnets q hq).1]
      exact (hnets q hq).2
  · cases h

/-! ## The command -/

theorem sound_linesFor {dest : Spool} {why : String} {lines : Option (List Pair)}
    (h : linesFor dest why lines = .ok (spool, ps))
    (hlines : ∀ qs, lines = some qs → Sound cmd dest qs) : Sound cmd spool ps := by
  unfold linesFor at h
  split at h
  · cases h
    exact hlines _ rfl
  · cases h

theorem sound_forBackup {lines : Except String (List Pair)}
    (h : forBackup lines = .ok (spool, ps))
    (hlines : ∀ qs, lines = .ok qs → Sound cmd .backup qs) : Sound cmd spool ps := by
  obtain ⟨qs, hqs, heq⟩ := ok_of_map h
  cases heq
  exact hlines _ hqs

theorem sound_of_word (dest : Spool) {w : String} (hw : w ∈ (verbs dest).2)
    (h : (.ok (dest, [((verbs dest).1, w.toList)]) : Except String _) = .ok (spool, ps)) :
    Sound cmd spool ps := by
  cases h
  exact sound_word hw

theorem of_ite {α : Type} {p : Prop} [Decidable p] {a b c : α} {P : Prop}
    (h : (if p then a else b) = c) (hpos : a = c → P) (hneg : b = c → P) : P := by
  by_cases hp : p
  · exact hpos (by rw [← h, if_pos hp])
  · exact hneg (by rw [← h, if_neg hp])

/-- Whatever the panel asks, the request is sound. -/
theorem sound_request {env : Env} (h : request env cmd = .ok (spool, ps)) :
    Sound cmd spool ps := by
  unfold request at h
  refine of_ite h (fun h => sound_forBackup h fun _ => sound_setPaths) fun h => ?_
  refine of_ite h (fun h => sound_forBackup h fun _ => sound_setSchedule) fun h => ?_
  refine of_ite h (sound_of_word .backup (by decide)) fun h => ?_
  refine of_ite h (sound_of_word .backup (by decide)) fun h => ?_
  refine of_ite h (sound_of_word .backup (by decide)) fun h => ?_
  refine of_ite h (sound_of_word .backup (by decide)) fun h => ?_
  refine of_ite h (fun h => sound_forBackup h fun _ => sound_dump (by decide)) fun h => ?_
  refine of_ite h (fun h => sound_forBackup h fun _ => sound_dump (by decide)) fun h => ?_
  refine of_ite h (fun h => sound_forBackup h fun _ => sound_provision) fun h => ?_
  refine of_ite h (fun h => sound_linesFor h fun _ => sound_toHTTPSLines) fun h => ?_
  refine of_ite h (fun h => sound_linesFor h fun _ => sound_backupServerLines) fun h => ?_
  refine of_ite h (fun h => ?_) fun h => ?_
  · cases h
    refine sound_keys [.panelUrl] (oneOf_self (by decide)) rfl (by decide) ?_
    simp [FieldOK]
  refine of_ite h (fun h => sound_linesFor h fun _ => sound_diskFixLines) fun h => ?_
  refine of_ite h (fun h => sound_linesFor h fun _ => sound_unitFixLines) fun h => ?_
  refine of_ite h (fun h => sound_linesFor h fun _ => sound_mirrorLines) fun h => ?_
  refine of_ite h (fun h => sound_linesFor h fun _ => sound_autobanLines) fun h => ?_
  refine of_ite h (fun h => sound_linesFor h fun _ => sound_unitJournalLines) fun h => ?_
  cases h

end

/-! ## The row of a source -/

/-- `strings.Split(s, ",")` of the helper, `-` for none. -/
def repoList (s : Text) : List Text := if s = ['-'] then [] else s.splitOn ','

/-- Six words: name, address, port, the type of the key and the key, repositories. -/
def Splits (src : Source) (v : Text) : Prop :=
  ∃ kind key repos, Fields.words isSpace v = [src.name, src.host, itoa src.port, kind, key, repos] ∧
    src.hostKey = kind ++ ' ' :: key ∧ repoList repos = src.repos

theorem notSpace_of_range {c : Char} (hlo : 33 ≤ c.toNat) (hhi : c.toNat ≤ 126) :
    isSpace c = false := by
  simp only [isSpace, List.contains_cons, List.contains_nil, Bool.or_eq_false_iff,
    beq_eq_false_iff_ne, Bool.and_eq_false_imp, decide_eq_true_eq, decide_eq_false_iff_not]
  refine ⟨⟨?_, ?_, ?_, ?_, ?_, ?_, ?_, ?_, ?_, ?_, ?_, ?_, ?_, ?_, trivial⟩, ?_⟩ <;> omega

theorem range_of_alnum {c : Char} (h : isAlnum c = true) : 48 ≤ c.toNat ∧ c.toNat ≤ 122 := by
  simp only [isAlnum, isLower, isUpper, isNum, Bool.or_eq_true, Bool.and_eq_true,
    decide_eq_true_eq, Char.le_def, UInt32.le_iff_toNat_le] at h
  simp only [Char.toNat]
  rcases h with (⟨hlo, hhi⟩ | ⟨hlo, hhi⟩) | ⟨hlo, hhi⟩
  · exact ⟨le_trans (by decide) hlo, le_trans hhi (by decide)⟩
  · exact ⟨le_trans (by decide) hlo, le_trans hhi (by decide)⟩
  · exact ⟨le_trans (by decide) hlo, le_trans hhi (by decide)⟩

/-- The signs beside letters and digits are signs too. -/
theorem notSpace_of_alnumOr {more : String} {c : Char}
    (hmore : more.toList.all (fun m => !isSpace m) = true) (h : alnumOr more c = true) :
    isSpace c = false := by
  rcases Bool.or_eq_true_iff.mp h with hc | hc
  · obtain ⟨hlo, hhi⟩ := range_of_alnum hc
    exact notSpace_of_range (by omega) (by omega)
  · have hall := List.all_eq_true.mp hmore c (List.contains_iff_mem.mp hc)
    simpa using hall

theorem notSpace_of_all {more : String} {s : Text}
    (hmore : more.toList.all (fun m => !isSpace m) = true) (h : s.all (alnumOr more) = true) :
    ∀ c ∈ s, isSpace c = false :=
  fun c hc => notSpace_of_alnumOr hmore (List.all_eq_true.mp h c hc)

theorem backupNameOK_chars {s : Text} (h : backupNameOK s = true) :
    s ≠ [] ∧ s.all (alnumOr "._-") = true := by
  unfold backupNameOK at h
  simpa only [Bool.and_eq_true, decide_eq_true_eq] using h

theorem backupRepoNameOK_name {s : Text} (h : backupRepoNameOK s = true) :
    backupNameOK s = true ∧ s.head? ≠ some '-' := by
  unfold backupRepoNameOK at h
  simp only [Bool.and_eq_true, decide_eq_true_eq] at h
  exact ⟨h.1.1.1, h.2⟩

theorem name_word {s : Text} (h : backupRepoNameOK s = true) :
    s ≠ [] ∧ ∀ c ∈ s, isSpace c = false := by
  obtain ⟨hne, hall⟩ := backupNameOK_chars (backupRepoNameOK_name h).1
  exact ⟨hne, notSpace_of_all (by decide) hall⟩

theorem backupIPOK_chars {s : Text} (h : backupIPOK s = true) :
    s ≠ [] ∧ s.all (alnumOr ".:") = true := by
  unfold backupIPOK at h
  simp only [Bool.and_eq_true, decide_eq_true_eq] at h
  refine ⟨h.1, List.all_eq_true.mpr fun c hc => ?_⟩
  have hc' := List.all_eq_true.mp h.2 c hc
  simp only [Bool.or_eq_true, Bool.and_eq_true, decide_eq_true_eq, alnumOr, isAlnum, isNum,
    isLower, isUpper] at hc' ⊢
  rcases hc' with (((h | h) | h) | rfl) | rfl
  · exact Or.inl (Or.inr h)
  · exact Or.inl (Or.inl (Or.inl ⟨h.1, Char.le_trans h.2 (show 'f' ≤ 'z' by decide)⟩))
  · exact Or.inl (Or.inl (Or.inr ⟨h.1, Char.le_trans h.2 (show 'F' ≤ 'Z' by decide)⟩))
  · exact Or.inr (by decide)
  · exact Or.inr (by decide)

theorem host_word {s : Text} (h : mirrorHostOK s = true) :
    s ≠ [] ∧ ∀ c ∈ s, isSpace c = false := by
  unfold mirrorHostOK at h
  rcases Bool.or_eq_true_iff.mp h with h | h
  · obtain ⟨hne, hall⟩ := backupIPOK_chars h
    exact ⟨hne, notSpace_of_all (by decide) hall⟩
  · simp only [Bool.and_eq_true, decide_eq_true_eq] at h
    exact ⟨h.1.1.1.1, notSpace_of_all (by decide) h.2⟩

theorem itoa_ofNat (n : Nat) : itoa (n : Int) = Nat.toDigits 10 n := by
  show (toString n).toList = _
  rw [Nat.toString_eq_ofList_toDigits, String.toList_ofList]

theorem itoa_word {n : Int} (h : 0 ≤ n) : itoa n ≠ [] ∧ ∀ c ∈ itoa n, isSpace c = false := by
  obtain ⟨m, rfl⟩ := Int.eq_ofNat_of_zero_le h
  rw [itoa_ofNat]
  refine ⟨Nat.toDigits_ne_nil, fun c hc => ?_⟩
  have hdigit := Nat.isDigit_of_mem_toDigits (by decide) (by decide) hc
  simp only [Char.isDigit, Bool.and_eq_true, decide_eq_true_eq, ge_iff_le,
    UInt32.le_iff_toNat_le] at hdigit
  exact notSpace_of_range (le_trans (by decide) hdigit.1) (le_trans hdigit.2 (by decide))

theorem cutAt_found {sep : Char} {s t b : Text} (h : cutAt sep s = (t, b, true)) :
    s = t ++ sep :: b := by
  unfold cutAt at h
  simp only [Prod.mk.injEq, List.contains_iff_mem] at h
  obtain ⟨rfl, rfl, hmem⟩ := h
  induction s with
  | nil => cases hmem
  | cons c s ih =>
    by_cases hc : c = sep
    · simp [hc]
    · have hs : sep ∈ s := by
        rcases List.mem_cons.mp hmem with rfl | hin
        · exact absurd rfl hc
        · exact hin
      simpa [hc] using ih hs

theorem hostKey_words {s : Text} (h : mirrorHostKeyOK s = true) :
    ∃ kind key, s = kind ++ ' ' :: key ∧ (kind ≠ [] ∧ ∀ c ∈ kind, isSpace c = false) ∧
      key ≠ [] ∧ ∀ c ∈ key, isSpace c = false := by
  unfold mirrorHostKeyOK at h
  rcases hcut : cutAt ' ' s with ⟨kind, key, found⟩
  rw [hcut] at h
  simp only [Bool.and_eq_true, decide_eq_true_eq, List.any_eq_true] at h
  obtain ⟨⟨⟨⟨rfl, hlen⟩, -⟩, k, hk, rfl⟩, hbody⟩ := h
  refine ⟨_, key, cutAt_found hcut, ?_, ?_, ?_⟩
  · have hall : hostKeyTypes.all (fun k => !k.toList.isEmpty &&
        k.toList.all fun c => !isSpace c) = true := by decide
    have hk' := List.all_eq_true.mp hall k hk
    simp only [Bool.and_eq_true, List.all_eq_true, Bool.not_eq_true', List.isEmpty_eq_false_iff]
      at hk'
    exact hk'
  · rintro rfl
    simp [len] at hlen
  · intro c hc
    obtain ⟨i, hi, rfl⟩ := List.mem_iff_getElem.mp hc
    have hin : (key[i], i) ∈ key.zipIdx := by
      rw [List.mem_zipIdx_iff_getElem?, List.getElem?_eq_getElem hi]
    have hchar := List.all_eq_true.mp hbody _ hin
    simp only [Bool.or_eq_true, Bool.and_eq_true, decide_eq_true_eq] at hchar
    rcases hchar with ⟨heq, -⟩ | hchar
    · rw [heq]
      decide
    · exact notSpace_of_alnumOr (by decide) hchar

theorem comma_notMem_name {s : Text} (h : backupRepoNameOK s = true) : ',' ∉ s := by
  intro hin
  have hc := List.all_eq_true.mp (backupNameOK_chars (backupRepoNameOK_name h).1).2 _ hin
  revert hc
  decide

theorem repoText_word {repos : List Text} (h : repos.all backupRepoNameOK = true) :
    repoText repos ≠ [] ∧ ∀ c ∈ repoText repos, isSpace c = false := by
  unfold repoText
  split
  · simp
    decide
  next hne =>
  refine ⟨?_, fun c hc => ?_⟩
  · cases repos with
    | nil => exact absurd rfl hne
    | cons r rs =>
      have hr := (name_word (List.all_eq_true.mp h r (by simp))).1
      cases rs with
      | nil => simpa [List.intercalate] using hr
      | cons r' rs => simp [List.intercalate]
  · rcases IpAddress.mem_intercalate hc with hc | ⟨r, hr, hc⟩
    · rw [hc]
      decide
    · exact (name_word (List.all_eq_true.mp h r hr)).2 c hc

theorem repoList_repoText {repos : List Text} (h : repos.all backupRepoNameOK = true) :
    repoList (repoText repos) = repos := by
  unfold repoText
  split
  · next hnil => rw [hnil, repoList, if_pos rfl]
  next hne =>
  have hcomma : ∀ r ∈ repos, ',' ∉ r := fun r hr => comma_notMem_name (List.all_eq_true.mp h r hr)
  have hsplit := List.splitOn_intercalate ',' hcomma hne
  unfold repoList
  rw [if_neg, hsplit]
  -- A single dash is no name.
  intro hdash
  rw [hdash] at hsplit
  have hone : repos = [['-']] := hsplit.symm.trans (by decide)
  rw [hone] at h
  revert h
  decide

theorem splits_sourceValue {src : Source} (h : sourceOK src = true) :
    Splits src (sourceValue src) := by
  unfold sourceOK at h
  simp only [Bool.and_eq_true, decide_eq_true_eq] at h
  obtain ⟨⟨⟨⟨⟨⟨hname, hhost⟩, hlo⟩, hhi⟩, hkey⟩, -⟩, hrepos⟩ := h
  obtain ⟨kind, key, heq, hkind, hbody⟩ := hostKey_words hkey
  have hn := name_word hname
  have hh := host_word hhost
  have hp := itoa_word (n := src.port) (by omega)
  have hr := repoText_word hrepos
  refine ⟨kind, key, repoText src.repos, ?_, heq, repoList_repoText hrepos⟩
  unfold sourceValue
  rw [heq]
  simp only [List.append_assoc, List.cons_append]
  rw [Fields.words_cons hn.1 hn.2 (by decide), Fields.words_cons hh.1 hh.2 (by decide),
    Fields.words_cons hp.1 hp.2 (by decide), Fields.words_cons hkind.1 hkind.2 (by decide),
    Fields.words_cons hbody.1 hbody.2 (by decide), Fields.words_single hr.1 hr.2]

/-! ## The file -/

theorem eq_notMem_key (k : Key) : '=' ∉ k.text := by
  cases k <;> decide

/-- The key that a text names. -/
def keyOf (s : Text) : Option Key :=
  [Key.action, .op, .mode, .path, .schedule, .engine, .container, .dumpDir, .dumpKeep, .dumpMinfree,
    .repoUrl, .repopass, .delay, .resticVersion, .cacertB64, .port, .storageMount, .name, .hpass,
    .clientIp, .keepLast, .keepDaily, .keepWeekly, .keepMonthly, .sanIp, .sanDns, .pubkey, .repo,
    .panelUrl, .unit, .source, .ip, .net, .since, .lines, .prio, .mount].find? fun k => k.text = s

theorem keyOf_text (k : Key) : keyOf k.text = some k := by
  cases k <;> decide

theorem text_injective : Function.Injective Key.text := by
  intro a b h
  have hsome : some a = some b := by rw [← keyOf_text a, ← keyOf_text b, h]
  exact Option.some.inj hsome

/-- What does not repeat in the request does not repeat in the file. -/
theorem Sound.once_text {cmd : Command} {spool : Spool} {ps : List Pair} (h : Sound cmd spool ps) :
    ((asText (ps.filter fun p => !repeats p.1)).map Prod.fst).Nodup := by
  have hkeys : (asText (ps.filter fun p => !repeats p.1)).map Prod.fst =
      ((ps.map Prod.fst).filter fun k => !repeats k).map Key.text := by
    simp only [asText, List.filter_map, List.map_map]
    rfl
  rw [hkeys]
  exact h.once.map text_injective

theorem fileOf_ok {ps : List Pair} {body : Text} (h : fileOf ps = .ok body) :
    body = Fields.text (asText ps) ∧
      ∀ p ∈ asText ps, ∀ c ∈ Fields.line p, breaks c = false := by
  unfold fileOf at h
  split at h
  · cases h
  next hbreaks =>
  cases h
  refine ⟨rfl, fun p hp c hc => ?_⟩
  simp only [List.any_eq_true, not_exists, not_and] at hbreaks
  exact Bool.eq_false_iff.mpr (hbreaks p hp c hc)

/-- What is in the file reads back as what the agent built. -/
theorem parse_fileOf {ps : List Pair} {body : Text} (hne : ps ≠ []) (h : fileOf ps = .ok body) :
    Fields.parse body = asText ps ∧ ∀ p ∈ ps, ∀ c ∈ p.2, breaks c = false := by
  obtain ⟨rfl, hclean⟩ := fileOf_ok h
  constructor
  · apply Fields.parse_text
    · simpa [asText] using hne
    · intro p hp
      obtain ⟨q, -, rfl⟩ := List.mem_map.mp hp
      exact eq_notMem_key q.1
    · intro p hp hin
      have hbreak := hclean p hp _ hin
      revert hbreak
      decide
  · intro p hp c hc
    apply hclean (p.1.text, p.2) (List.mem_map.mpr ⟨p, hp, rfl⟩)
    exact List.mem_append.mpr (Or.inr (List.mem_cons_of_mem _ hc))

/-- A captured panel cannot smuggle requests: a file that is written reads back as the pairs
that the agent built, and they are a sound request. -/
theorem written_request_is_sound (env : Env) (cmd : Command) (spool : Spool) (body : Text)
    (h : written env cmd = .ok (spool, body)) :
    ∃ ps, request env cmd = .ok (spool, ps) ∧ Fields.parse body = asText ps ∧
      Sound cmd spool ps ∧ ((asText (ps.filter fun p => !repeats p.1)).map Prod.fst).Nodup ∧
      (∀ p ∈ ps, ∀ c ∈ p.2, breaks c = false) ∧
      ∀ p ∈ ps, p.1 = .source → ∃ src ∈ cmd.sources, p.2 = sourceValue src ∧ Splits src p.2 := by
  unfold written at h
  split at h
  · cases h
  next dest ps hreq =>
  split at h
  · cases h
  next text hfile =>
  cases h
  have hsound := sound_request hreq
  have hne : ps ≠ [] := by
    obtain ⟨p, hp, -⟩ := hsound.verb
    rintro rfl
    cases hp
  obtain ⟨hparse, hclean⟩ := parse_fileOf hne hfile
  refine ⟨ps, hreq, hparse, hsound, hsound.once_text, hclean, fun p hp hkey => ?_⟩
  have hfield := hsound.checked p hp
  rw [hkey] at hfield
  obtain ⟨src, hsrc, hok, heq⟩ := hfield
  rw [heq]
  exact ⟨src, hsrc, rfl, splits_sourceValue hok⟩

/-- A node without `backup-allow`, and a list of one source for its reserve server. -/
def bareNode : Env where
  panelURL := "https://panel".toList
  allowFile := none
  hostname := fun _ => none

def oneSource : Command where
  action := "mirror".toList
  mode := "set".toList
  sources := [{ name := "main".toList, host := "10.0.0.1".toList, port := 22
                hostKey := "ssh-ed25519 AAAAC3NzaC1lZDI1NTE5".toList
                repos := ["web".toList, "db".toList] }]

def oneSourceFile : Text :=
  "action=set\nsource=main 10.0.0.1 22 ssh-ed25519 AAAAC3NzaC1lZDI1NTE5 web,db\n".toList

theorem one_source_request_is_sound :
    ∃ ps, request bareNode oneSource = .ok (.mirror, ps) ∧
      Fields.parse oneSourceFile = asText ps ∧ Sound oneSource .mirror ps ∧
      ((asText (ps.filter fun p => !repeats p.1)).map Prod.fst).Nodup ∧
      (∀ p ∈ ps, ∀ c ∈ p.2, breaks c = false) ∧
      ∀ p ∈ ps, p.1 = .source →
        ∃ src ∈ oneSource.sources, p.2 = sourceValue src ∧ Splits src p.2 :=
  written_request_is_sound bareNode oneSource .mirror oneSourceFile (by decide +kernel)

end Kervax.Spools
