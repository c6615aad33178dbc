-- The end of a tick (`evaluate_servers`): which of the queued state writes are
-- made, once the messages went out. A write waits for the message of its kind,
-- and the kind is read from the name of the key.
import Kervax.DispatchLaws

namespace Kervax

/-! ## The names of the keys -/

/-- `settings_store.SERVER_ALERT_KINDS`. -/
def serverAlertKinds : List String :=
  ["offline", "cpu", "mem", "disk", "temp", "throttle", "conntrack", "db_conn", "disktemp",
    "disk_health", "inode", "disk_forecast", "windows_service", "units", "unit_loop", "kube_cron",
    "cpu_spin", "backup_growth", "docker_sock", "docker_risk", "access_risk", "exposed",
    "cf_realip", "port_new", "pressure", "net_health", "link", "traffic", "kube_node", "kube_job",
    "access_change", "backup_restore", "docker_restarts", "kube_restarts", "mem_leak", "mem_limit",
    "ssh_risk", "db_health", "web_config", "webfiles", "web_cert", "listen_gone", "disk_slow",
    "backup_transfer", "gpu", "gpu_heat", "llm", "qdrant", "reboot", "oom", "docker_down",
    "docker_loop", "backup_missing", "backup_failed", "backup_stale", "backup_repo",
    "backup_unmonitored", "backup_prune", "dns", "backup_check", "backup_mirror", "backup_lock",
    "backup_dump", "backup_dump_space", "backup_cron", "backup_custom", "backup_rotation", "queue",
    "queue_stuck", "queue_failed", "workers", "cron_stuck", "log_errors", "fpm", "vpn_torrent",
    "vpn_heavy", "gre_down", "gitlab", "autoban", "web_5xx", "kube_pod", "clock", "kube_expiry",
    "flux_down", "flux_stale", "uncovered", "bogus_requests"]

/-- The kinds of the messages of a server. A reminder of a known problem is
`"known"`. -/
def messageKinds : List String := "known" :: serverAlertKinds

/-- `state_kinds`: the keys that are named after something else. -/
def stateKinds : List (String × String) :=
  [("kube_jobs_seen", "kube_job"), ("rotation_stale", "backup_rotation"),
    ("backup_locks", "backup_lock"), ("backup_checks", "backup_check"),
    ("backup_prunes", "backup_prune"), ("bsrv_clients", "backup_unmonitored"),
    ("backup_repos", "backup_repo")]

def stateSuffixes : List String :=
  ["_told_lvl", "_sig", "_told", "_calm", "_hush", "_said", "_was", "_who", "_val", "_at"]

def hasPrefix (key start : String) : Bool := start.toList.isPrefixOf key.toList

def hasSuffix (key suffix : String) : Bool := suffix.toList.isSuffixOf key.toList

/-- `removesuffix`, of a suffix that is there. -/
def removeSuffix (key suffix : String) : String :=
  String.ofList (key.toList.take (key.toList.length - suffix.toList.length))

/-- `key.partition("_")[0]`. -/
def beforeUnderscore (key : String) : String := String.ofList (key.toList.takeWhile (· ≠ '_'))

/-- The kind that a key belongs to, as `confirmed` reads it from the name.
`named` are the kinds of the messages of the server. -/
def ownerKind (named : List String) (key : String) : String :=
  let kind := (stateKinds.lookup key).getD key
  if hasPrefix key "offline_" || hasPrefix key "oom_" then beforeUnderscore key
  else if kind = key ∧ key ∉ serverAlertKinds ∧ key ∉ named then
    match stateSuffixes.find? (hasSuffix key) with
    | some suffix => removeSuffix key suffix
    | none => key
  else kind

/-- The keys that are queued with the messages of one kind only. -/
def ownKeys : List (String × List String) :=
  [("offline", ["offline_probe", "offline_before", "offline_kids", "offline_back"]),
    ("oom", ["oom_end", "oom_seen", "oom_wait", "oom_held", "oom_sent", "oom_sent_lvl"]),
    ("backup_growth", ["backup_growth_at"]), ("reboot", ["reboot_at"]),
    ("port_new", ["port_new_at"]), ("access_change", ["access_change_at"]),
    ("kube_job", ["kube_jobs_seen"]), ("backup_rotation", ["rotation_stale"]),
    ("backup_lock", ["backup_locks"]), ("backup_check", ["backup_checks"]),
    ("backup_prune", ["backup_prunes"]), ("backup_unmonitored", ["bsrv_clients"]),
    ("backup_repo", ["backup_repos"])]

/-- The state keys of the kind `K`: what is queued with its messages is one of
them. -/
def queuedKeys (K : String) : List String :=
  K :: stateSuffixes.map (K ++ ·) ++ (ownKeys.lookup K).getD []

/-! ## The end of the tick -/

/-- A message of the batch, and what `message_owners` says of it: the panel's
own message about silent servers has none. -/
structure OwnedMsg where
  sid : Option Nat
  msg : Msg
deriving DecidableEq

/-- A queued write: `(sid, key, value)`. -/
structure StateWrite (V : Type) where
  sid : Nat
  key : String
  value : V
deriving DecidableEq

/-- The kinds of the messages of a server whose index meets `p`: `sent` and
`pending` of `acknowledged`. -/
def kindsOf (batch : List OwnedMsg) (p : Nat → Bool) (sid : Nat) : List String :=
  ((List.range batch.length).filter p).filterMap fun i =>
    batch[i]?.bind fun o => if o.sid = some sid then some o.msg.kind else none

/-- `confirmed`. -/
def confirmedWrite (canSend : Bool) (batch : List OwnedMsg) (finished : Finset Nat) (sid : Nat)
    (key : String) : Bool :=
  if !canSend then false
  else
    let unfinished := kindsOf batch (· ∉ finished) sid
    if unfinished = [] then true
    else
      let complete := kindsOf batch (· ∈ finished) sid
      let kind := ownerKind (complete ++ unfinished) key
      kind ∈ complete ∧ kind ∉ unfinished

/-- The channels of the tick. -/
structure Channels where
  words : Wording
  cfg : Cfg
  canSend : Bool
  threshold : Nat

/-- `dispatch` of one of the two batches. -/
def sendBatchOf (c : Channels) (net : Net) (oom : Bool) (batch : List OwnedMsg) : Dispatched :=
  dispatch c.words c.cfg net c.canSend (batch.map (·.msg)) c.threshold oom

/-- The batch of fires asks for `oom_finished`. -/
def asksOom (fires : List OwnedMsg) : Bool := fires.any fun o => o.msg.kind = "oom"

variable {V : Type}

/-- The writes of `fire_apply` that are made. -/
def firedWrites (c : Channels) (net : Net) (fires : List OwnedMsg) (fireApply : List (StateWrite V)) :
    List (StateWrite V) :=
  let d := sendBatchOf c net (asksOom fires) fires
  fireApply.filter fun e =>
    d.ok || confirmedWrite c.canSend fires d.finished e.sid e.key ||
      (e.sid ∈ d.oomFinished && hasPrefix e.key "oom_")

/-- The writes of `rec_apply` that are made. -/
def recoveredWrites (c : Channels) (net : Net) (recoveries : List OwnedMsg)
    (recApply : List (StateWrite V)) : List (StateWrite V) :=
  let d := sendBatchOf c net false recoveries
  recApply.filter fun e => d.ok || confirmedWrite c.canSend recoveries d.finished e.sid e.key

/-- `apply`. -/
def applyWrite (cur : Nat → String → Option V) (e : StateWrite V) : Nat → String → Option V :=
  Function.update cur e.sid (Function.update (cur e.sid) e.key (some e.value))

/-- The alert states at the end of the tick: what was written at once, then the
writes of the fires, then those of the recoveries. -/
def settled (c : Channels) (net net' : Net) (cur : Nat → String → Option V)
    (fires : List OwnedMsg) (fireApply : List (StateWrite V)) (recoveries : List OwnedMsg)
    (recApply : List (StateWrite V)) : Nat → String → Option V :=
  (firedWrites c net fires fireApply ++ recoveredWrites c net' recoveries recApply).foldl
    applyWrite cur

/-! ## The name of a key tells its kind -/

/-- What the names of the kinds begin and end with, and which of them begin the two
prefixes. -/
theorem kinds_named : ∀ K ∈ messageKinds,
    (∀ suffix ∈ stateSuffixes, hasSuffix K suffix = false) ∧
      (hasPrefix K "offline_" = false ∧ hasPrefix K "oom_" = false) ∧
      (hasPrefix "offline_" K = true → K = "offline") ∧
      (hasPrefix "oom_" K = true → K = "oom") := by
  decide +kernel

theorem kinds_no_suffix (k : String) (hk : k ∈ messageKinds) (suffix : String)
    (hs : suffix ∈ stateSuffixes) : hasSuffix k suffix = false := (kinds_named k hk).1 suffix hs

theorem table_no_suffix :
    ∀ p ∈ stateKinds, ∀ suffix ∈ stateSuffixes, hasSuffix p.1 suffix = false := by
  decide +kernel

theorem suffixes_apart :
    ∀ a ∈ stateSuffixes, ∀ b ∈ stateSuffixes, hasSuffix b a = true → a = b := by
  decide +kernel

/-- Of two texts that begin a third one, one begins the other. -/
theorem start_of_append {start K : List Char} (t : List Char)
    (h : start.isPrefixOf (K ++ t) = true) :
    start.isPrefixOf K = true ∨ K.isPrefixOf start = true := by
  simp only [List.isPrefixOf_iff_prefix] at h ⊢
  exact List.prefix_or_prefix_of_prefix h (List.prefix_append K t)

/-- The kinds whose keys have a prefix of their own. -/
theorem prefix_kinds (K : String) (hK : K ∈ messageKinds) (suffix : String) :
    ("offline_".toList.isPrefixOf (K.toList ++ suffix.toList) = true → K = "offline") ∧
      ("oom_".toList.isPrefixOf (K.toList ++ suffix.toList) = true → K = "oom") := by
  obtain ⟨-, ⟨hoff, hoom⟩, hoff', hoom'⟩ := kinds_named K hK
  constructor
  · intro h
    rcases start_of_append _ h with h | h
    · exact absurd h (Bool.eq_false_iff.mp hoff)
    · exact hoff' h
  · intro h
    rcases start_of_append _ h with h | h
    · exact absurd h (Bool.eq_false_iff.mp hoom)
    · exact hoom' h

theorem kinds_not_in_table : ∀ K ∈ messageKinds, stateKinds.lookup K = none := by decide +kernel

theorem hasSuffix_append {K suffix : String} (t : String) :
    hasSuffix (K ++ suffix) t = t.toList.isSuffixOf (K.toList ++ suffix.toList) := by
  simp [hasSuffix, String.toList_append]

theorem removeSuffix_append (K suffix : String) : removeSuffix (K ++ suffix) suffix = K := by
  simp [removeSuffix, String.toList_append]

theorem lookup_table {key : String} (h : ∀ p ∈ stateKinds, p.1 ≠ key) :
    stateKinds.lookup key = none := by
  rw [List.lookup_eq_none_iff]
  intro p hp
  simpa using fun heq : key = p.1 => h p hp heq.symm

/-- The first suffix that matches is the one the key was made with. -/
theorem find_suffix {K suffix : String} (h : suffix ∈ stateSuffixes) :
    stateSuffixes.find? (hasSuffix (K ++ suffix)) = some suffix := by
  have hself : hasSuffix (K ++ suffix) suffix = true := by
    rw [hasSuffix_append, List.isSuffixOf_iff_suffix]
    exact List.suffix_append _ _
  cases hf : stateSuffixes.find? (hasSuffix (K ++ suffix)) with
  | none => simp [List.find?_eq_none.1 hf suffix h] at hself
  | some t =>
    have ht := List.mem_of_find?_eq_some hf
    have hts := List.find?_some hf
    have hs := List.isSuffixOf_iff_suffix.1 (hasSuffix_append suffix ▸ hself)
    have ht' := List.isSuffixOf_iff_suffix.1 (hasSuffix_append t ▸ hts)
    congr 1
    rcases le_total t.toList.length suffix.toList.length with hle | hle
    · exact suffixes_apart t ht suffix h
        (List.isSuffixOf_iff_suffix.2 (List.suffix_of_suffix_length_le ht' hs hle))
    · exact (suffixes_apart suffix h t ht
        (List.isSuffixOf_iff_suffix.2 (List.suffix_of_suffix_length_le hs ht' hle))).symm

/-- A kind with a suffix is read back, whatever messages the server has. -/
theorem ownerKind_suffix {K suffix : String} {named : List String} (hK : K ∈ messageKinds)
    (hs : suffix ∈ stateSuffixes) (hn : ∀ k ∈ named, k ∈ messageKinds) (hoff : K ≠ "offline")
    (hoom : K ≠ "oom") : ownerKind named (K ++ suffix) = K := by
  have hself : hasSuffix (K ++ suffix) suffix = true := by
    rw [hasSuffix_append, List.isSuffixOf_iff_suffix]
    exact List.suffix_append _ _
  have hkind : K ++ suffix ∉ messageKinds := fun h =>
    Bool.false_ne_true ((kinds_no_suffix _ h suffix hs).symm.trans hself)
  have htable : stateKinds.lookup (K ++ suffix) = none := lookup_table fun p hp heq =>
    Bool.false_ne_true ((table_no_suffix p hp suffix hs).symm.trans (heq ▸ hself))
  obtain ⟨hp1, hp2⟩ := prefix_kinds K hK suffix
  have hoff' : hasPrefix (K ++ suffix) "offline_" = false := by
    rw [hasPrefix, String.toList_append]
    exact Bool.eq_false_iff.2 fun h => hoff (hp1 h)
  have hoom' : hasPrefix (K ++ suffix) "oom_" = false := by
    rw [hasPrefix, String.toList_append]
    exact Bool.eq_false_iff.2 fun h => hoom (hp2 h)
  have hcond : K ++ suffix ∉ serverAlertKinds ∧ K ++ suffix ∉ named :=
    ⟨fun h => hkind (List.mem_cons_of_mem _ h), fun h => hkind (hn _ h)⟩
  unfold ownerKind
  simp only [htable, hoff', hoom', Option.getD_none, Bool.or_self, Bool.false_eq_true, if_false]
  rw [if_pos ⟨trivial, hcond⟩, find_suffix hs]
  exact removeSuffix_append K suffix

theorem ownerKind_self {K : String} (named : List String) (hK : K ∈ messageKinds) :
    ownerKind named K = K := by
  obtain ⟨hoff, hoom⟩ := (kinds_named K hK).2.1
  unfold ownerKind
  simp only [kinds_not_in_table K hK, hoff, hoom, Option.getD_none, Bool.or_self,
    Bool.false_eq_true, if_false]
  split
  · have hnone : stateSuffixes.find? (hasSuffix K) = none :=
      List.find?_eq_none.2 fun t ht => by simp [kinds_no_suffix K hK t ht]
    rw [hnone]
  · rfl

/-- A key of the two kinds that are read from the beginning of the name. -/
theorem ownerKind_of_start {key : String} (named : List String)
    (h : hasPrefix key "offline_" = true ∨ hasPrefix key "oom_" = true) :
    ownerKind named key = beforeUnderscore key := by
  unfold ownerKind
  rw [if_pos (by simpa using h)]

/-- A key of the table. -/
theorem ownerKind_table {key K : String} (named : List String)
    (h : stateKinds.lookup key = some K) (hne : K ≠ key)
    (hp : hasPrefix key "offline_" = false ∧ hasPrefix key "oom_" = false) :
    ownerKind named key = K := by
  unfold ownerKind
  simp [h, hne, hp.1, hp.2]

/-- Each way in which a name tells its kind. -/
def NamesKind (K key : String) : Prop :=
  ((hasPrefix key "offline_" = true ∨ hasPrefix key "oom_" = true) ∧ beforeUnderscore key = K) ∨
    (stateKinds.lookup key = some K ∧ K ≠ key ∧ hasPrefix key "offline_" = false ∧
      hasPrefix key "oom_" = false) ∨
    (K ≠ "offline" ∧ K ≠ "oom" ∧ ∃ suffix ∈ stateSuffixes, key = K ++ suffix)

instance (K key : String) : Decidable (NamesKind K key) := by
  unfold NamesKind
  infer_instance

theorem ownKeys_name : ∀ p ∈ ownKeys, ∀ key ∈ p.2, NamesKind p.1 key := by decide +kernel

theorem suffix_keys_name : ∀ K ∈ ["offline", "oom"], ∀ suffix ∈ stateSuffixes,
    NamesKind K (K ++ suffix) := by
  decide +kernel

theorem ownerKind_named {K key : String} {named : List String} (hK : K ∈ messageKinds)
    (hn : ∀ k ∈ named, k ∈ messageKinds) (h : NamesKind K key) : ownerKind named key = K := by
  rcases h with ⟨hp, rfl⟩ | ⟨ht, hne, hp⟩ | ⟨hoff, hoom, suffix, hs, rfl⟩
  · exact ownerKind_of_start named hp
  · exact ownerKind_table named ht hne hp
  · exact ownerKind_suffix hK hs hn hoff hoom

/-- The kind that `confirmed` reads from a queued key is the kind of the message
that the write was queued with. -/
theorem ownerKind_queued {K key : String} {named : List String} (hK : K ∈ messageKinds)
    (hn : ∀ k ∈ named, k ∈ messageKinds) (h : key ∈ queuedKeys K) : ownerKind named key = K := by
  simp only [queuedKeys, List.mem_append, List.mem_cons, List.mem_map] at h
  rcases h with (rfl | ⟨suffix, hs, rfl⟩) | h
  · exact ownerKind_self named hK
  · apply ownerKind_named hK hn
    by_cases hoff : K = "offline"
    · exact suffix_keys_name K (by simp [hoff]) suffix hs
    · by_cases hoom : K = "oom"
      · exact suffix_keys_name K (by simp [hoom]) suffix hs
      · exact .inr (.inr ⟨hoff, hoom, suffix, hs, rfl⟩)
  · cases hl : ownKeys.lookup K with
    | none => simp [hl] at h
    | some keys =>
      obtain ⟨l₁, l₂, heq, -⟩ := List.lookup_eq_some_iff.1 hl
      have hin : (K, keys) ∈ ownKeys := by simp [heq]
      rw [hl] at h
      exact ownerKind_named hK hn (ownKeys_name _ hin key h)

/-! ## A write waits for its message -/

/-- The messages of the server are finished, or those of the kind: one at
least, and none is left. -/
def Finished (batch : List OwnedMsg) (finished : Finset Nat) (sid : Nat) (K : String) : Prop :=
  (∀ i o, batch[i]? = some o → o.sid = some sid → i ∈ finished) ∨
    (∃ i o, batch[i]? = some o ∧ o.sid = some sid ∧ o.msg.kind = K ∧ i ∈ finished) ∧
      ∀ i o, batch[i]? = some o → o.sid = some sid → o.msg.kind = K → i ∈ finished

theorem mem_kindsOf {batch : List OwnedMsg} {p : Nat → Bool} {sid : Nat} {K : String} :
    K ∈ kindsOf batch p sid ↔
      ∃ i o, batch[i]? = some o ∧ o.sid = some sid ∧ o.msg.kind = K ∧ p i = true := by
  simp only [kindsOf, List.mem_filterMap, List.mem_filter, List.mem_range, Option.bind_eq_some_iff,
    Option.ite_none_right_eq_some, Option.some.injEq]
  constructor
  · rintro ⟨i, ⟨-, hp⟩, o, ho, hsid, hkind⟩
    exact ⟨i, o, ho, hsid, hkind, hp⟩
  · rintro ⟨i, o, ho, hsid, hkind, hp⟩
    exact ⟨i, ⟨(List.getElem?_eq_some_iff.1 ho).1, hp⟩, o, ho, hsid, hkind⟩

/-- The kinds of the messages of the servers. -/
def OwnKinds (batch : List OwnedMsg) : Prop := ∀ o ∈ batch, o.sid ≠ none → o.msg.kind ∈ messageKinds

theorem kindsOf_known {batch : List OwnedMsg} (h : OwnKinds batch) {p : Nat → Bool} {sid : Nat} :
    ∀ k ∈ kindsOf batch p sid, k ∈ messageKinds := by
  intro k hk
  obtain ⟨i, o, ho, hsid, rfl, -⟩ := mem_kindsOf.1 hk
  exact h o (List.mem_of_getElem? ho) (by simp [hsid])

theorem confirmedWrite_iff {batch : List OwnedMsg} (hb : OwnKinds batch) {canSend : Bool}
    {finished : Finset Nat} {sid : Nat} {K key : String} (hK : K ∈ messageKinds)
    (hkey : key ∈ queuedKeys K) :
    confirmedWrite canSend batch finished sid key = true ↔
      canSend = true ∧ Finished batch finished sid K := by
  unfold confirmedWrite
  cases canSend with
  | false => simp
  | true =>
    have hown : ownerKind (kindsOf batch (· ∈ finished) sid ++ kindsOf batch (· ∉ finished) sid) key =
        K := by
      refine ownerKind_queued hK (fun k hk => ?_) hkey
      rcases List.mem_append.1 hk with h | h
      · exact kindsOf_known hb k h
      · exact kindsOf_known hb k h
    have hall : kindsOf batch (· ∉ finished) sid = [] ↔
        ∀ i o, batch[i]? = some o → o.sid = some sid → i ∈ finished := by
      rw [List.eq_nil_iff_forall_not_mem]
      constructor
      · intro h i o ho hsid
        by_contra hno
        exact h _ (mem_kindsOf.2 ⟨i, o, ho, hsid, rfl, by simpa using hno⟩)
      · intro h k hk
        obtain ⟨i, o, ho, hsid, -, hno⟩ := mem_kindsOf.1 hk
        exact absurd (h i o ho hsid) (by simpa using hno)
    have hsome : K ∈ kindsOf batch (· ∈ finished) sid ↔
        ∃ i o, batch[i]? = some o ∧ o.sid = some sid ∧ o.msg.kind = K ∧ i ∈ finished := by
      simp [mem_kindsOf]
    have hnone : K ∉ kindsOf batch (· ∉ finished) sid ↔
        ∀ i o, batch[i]? = some o → o.sid = some sid → o.msg.kind = K → i ∈ finished := by
      rw [mem_kindsOf]
      push Not
      simp
    simp only [Bool.not_true, Bool.false_eq_true, if_false, true_and, hown, Finished]
    split
    · rename_i h
      exact iff_of_true rfl (.inl (hall.1 h))
    · rename_i h
      rw [decide_eq_true_eq, hsome, hnone]
      exact ⟨fun h' => .inr h', fun h' => h'.resolve_left fun h'' => h (hall.2 h'')⟩

/-- An OOM key belongs to the OOM. -/
theorem of_oom_key {K key : String} (hK : K ∈ messageKinds) (hkey : key ∈ queuedKeys K)
    (h : hasPrefix key "oom_" = true) : K = "oom" := by
  have hown : ownerKind [] key = K := ownerKind_queued hK (by simp) hkey
  rw [ownerKind_of_start [] (.inr h)] at hown
  rw [← hown]
  obtain ⟨t, ht⟩ := List.isPrefixOf_iff_prefix.1 h
  simp [beforeUnderscore, ← ht]

/-- `dispatch` of one batch says yes when there is nothing to send, or all of it
is finished. -/
theorem sendBatchOf_ok (c : Channels) (net : Net) (oom : Bool) (batch : List OwnedMsg) :
    (sendBatchOf c net oom batch).ok = true ↔
      batch = [] ∨ c.canSend = true ∧
        ∀ j < batch.length, j ∈ (sendBatchOf c net oom batch).finished := by
  have hiff := dispatch_ok_iff c.words (batch.map (·.msg)) c.cfg net c.threshold oom c.canSend
  rw [List.length_map] at hiff
  unfold sendBatchOf
  rw [hiff]
  by_cases hb : batch = []
  · simp [hb]
  cases hs : c.canSend with
  | true => simp [hb]
  | false =>
    have hpos : 0 < batch.length := List.length_pos_iff.2 hb
    simp only [hb, Bool.false_eq_true, false_and, or_self, iff_false, not_forall]
    exact ⟨0, hpos, by simp [dispatch, hb]⟩

theorem write_made {batch : List OwnedMsg} (hb : OwnKinds batch) (c : Channels) (net : Net)
    (oom : Bool) {sid : Nat} {K key : String} (hK : K ∈ messageKinds) (hkey : key ∈ queuedKeys K) :
    ((sendBatchOf c net oom batch).ok ||
        confirmedWrite c.canSend batch (sendBatchOf c net oom batch).finished sid key) = true ↔
      batch = [] ∨ c.canSend = true ∧
        Finished batch (sendBatchOf c net oom batch).finished sid K := by
  rw [Bool.or_eq_true, sendBatchOf_ok, confirmedWrite_iff hb hK hkey]
  constructor
  · rintro ((h | ⟨hs, hall⟩) | h)
    · exact .inl h
    · exact .inr ⟨hs, .inl fun i o ho _ => hall i (List.getElem?_eq_some_iff.1 ho).1⟩
    · exact .inr h
  · rintro (h | h)
    · exact .inl (.inl h)
    · exact .inr h

/-- What no made write is about stays as it was. -/
theorem settled_frame (ws : List (StateWrite V)) (cur : Nat → String → Option V) {sid : Nat}
    {key : String} (h : ∀ e ∈ ws, e.sid = sid → e.key ≠ key) :
    ws.foldl applyWrite cur sid key = cur sid key := by
  induction ws generalizing cur with
  | nil => rfl
  | cons e ws ih =>
    rw [List.foldl_cons, ih _ fun e' he' => h e' (by simp [he']), applyWrite]
    by_cases hs : e.sid = sid
    · have hne : key ≠ e.key := fun hk => h e (by simp) hs hk.symm
      rw [← hs, Function.update_self, Function.update_of_ne hne]
    · rw [Function.update_of_ne fun he => hs he.symm]

/-- The last write to a key is what the key holds. -/
theorem settled_last (pre post : List (StateWrite V)) (e : StateWrite V)
    (cur : Nat → String → Option V) (h : ∀ e' ∈ post, e'.sid = e.sid → e'.key ≠ e.key) :
    (pre ++ e :: post).foldl applyWrite cur e.sid e.key = some e.value := by
  rw [List.foldl_append, List.foldl_cons, settled_frame post _ h, applyWrite, Function.update_self,
    Function.update_self]

/-- A queued write is made at the end of the tick exactly when nothing was to be
sent, or the messages of its server or of its kind are finished. A key holds the
value of the last write to it that was made; where none was made it is as it
was. -/
theorem writes_wait_for_their_messages (c : Channels) (net net' : Net)
    (cur : Nat → String → Option V) (fires recoveries : List OwnedMsg)
    (fireApply recApply : List (StateWrite V)) (hf : OwnKinds fires) (hr : OwnKinds recoveries) :
    (∀ e ∈ fireApply, ∀ K ∈ messageKinds, e.key ∈ queuedKeys K →
      (e ∈ firedWrites c net fires fireApply ↔
        (fires = [] ∨ c.canSend = true ∧
          Finished fires (sendBatchOf c net (asksOom fires) fires).finished e.sid K) ∨
        K = "oom" ∧ hasPrefix e.key "oom_" = true ∧
          e.sid ∈ (sendBatchOf c net (asksOom fires) fires).oomFinished)) ∧
    (∀ e ∈ recApply, ∀ K ∈ messageKinds, e.key ∈ queuedKeys K →
      (e ∈ recoveredWrites c net' recoveries recApply ↔
        recoveries = [] ∨ c.canSend = true ∧
          Finished recoveries (sendBatchOf c net' false recoveries).finished e.sid K)) ∧
    (∀ pre e post,
      firedWrites c net fires fireApply ++ recoveredWrites c net' recoveries recApply =
        pre ++ e :: post →
      (∀ e' ∈ post, e'.sid = e.sid → e'.key ≠ e.key) →
      settled c net net' cur fires fireApply recoveries recApply e.sid e.key = some e.value) ∧
    (∀ sid key, (∀ e ∈ firedWrites c net fires fireApply, e.sid = sid → e.key ≠ key) →
      (∀ e ∈ recoveredWrites c net' recoveries recApply, e.sid = sid → e.key ≠ key) →
      settled c net net' cur fires fireApply recoveries recApply sid key = cur sid key) := by
  refine ⟨fun e he K hK hkey => ?_, fun e he K hK hkey => ?_, fun pre e post hmade hlast => ?_,
    fun sid key h h' => ?_⟩
  · simp only [firedWrites, List.mem_filter, he, true_and]
    rw [Bool.or_eq_true, write_made hf c net _ hK hkey, Bool.and_eq_true, decide_eq_true_eq]
    refine or_congr_right ⟨fun ⟨hin, hp⟩ => ⟨of_oom_key hK hkey hp, hp, hin⟩, fun h => ⟨h.2.2, h.2.1⟩⟩
  · simp only [recoveredWrites, List.mem_filter, he, true_and]
    exact write_made hr c net' _ hK hkey
  · unfold settled
    rw [hmade]
    exact settled_last pre post e cur hlast
  · refine settled_frame _ cur fun e he => ?_
    rcases List.mem_append.1 he with hin | hin
    · exact h e hin
    · exact h' e hin

/-! ## A batch that went out in part -/

/-- The main chat takes the first of two texts. -/
def firstOnly : Net :=
  ⟨fun i => if i = .one 0 then .accepted else .failed false, fun _ => true,
    fun _ _ => .accepted, fun _ => .accepted⟩

def mainOnly (canSend : Bool) : Channels :=
  ⟨⟨Msg.text, Msg.text, fun _ => true, Msg.text, fun _ => ""⟩,
    { telegramToken := "t", telegramChat := "main" }, canSend, 6⟩

def cpuAndDisk : List OwnedMsg :=
  [⟨some 1,
      { text := "CPU 95%", sect := "servers", kind := "cpu", target := "web-1"
        ref := .srv [1] }⟩,
    ⟨some 1,
      { text := "disk 91%", sect := "servers", kind := "disk", target := "web-1"
        ref := .srv [1] }⟩]

def cpuAndDiskWrites : List (StateWrite Nat) := [⟨1, "cpu_told_lvl", 2⟩, ⟨1, "disk", 2⟩]

/-- The alert of the CPU went out and that of the disk did not: the write of the
disk waits, and the state holds that of the CPU. -/
theorem writes_wait_for_their_messages_disk :
    (⟨1, "disk", 2⟩ ∉ firedWrites (mainOnly true) firstOnly cpuAndDisk cpuAndDiskWrites) ∧
      settled (mainOnly true) firstOnly firstOnly (fun _ _ => none) cpuAndDisk cpuAndDiskWrites [] []
          1 "cpu_told_lvl" = some 2 ∧
      settled (mainOnly true) firstOnly firstOnly (fun _ _ => none) cpuAndDisk cpuAndDiskWrites [] []
          1 "disk" = none := by
  have hkinds : OwnKinds cpuAndDisk := by
    intro o ho _
    simp only [cpuAndDisk, List.mem_cons, List.not_mem_nil, or_false] at ho
    rcases ho with rfl | rfl <;> decide +kernel
  obtain ⟨hfired, -, hlast, hframe⟩ := writes_wait_for_their_messages (mainOnly true) firstOnly
    firstOnly (fun _ _ => none) cpuAndDisk [] cpuAndDiskWrites [] hkinds (by simp [OwnKinds])
  have hdisk : (⟨1, "disk", 2⟩ : StateWrite Nat) ∉
      firedWrites (mainOnly true) firstOnly cpuAndDisk cpuAndDiskWrites := by
    rw [hfired ⟨1, "disk", 2⟩ (by simp [cpuAndDiskWrites]) "disk" (by decide +kernel)
      List.mem_cons_self]
    -- the message of the disk is the second one, and it is not finished
    have hopen : 1 ∉ (sendBatchOf (mainOnly true) firstOnly (asksOom cpuAndDisk) cpuAndDisk).finished := by
      decide +kernel
    rintro ((h | ⟨-, h | ⟨-, h⟩⟩) | ⟨h, -⟩)
    · cases h
    · exact hopen (h 1 _ rfl rfl)
    · exact hopen (h 1 _ rfl rfl rfl)
    · exact absurd h (by decide)
  have hmade : firedWrites (mainOnly true) firstOnly cpuAndDisk cpuAndDiskWrites =
      [⟨1, "cpu_told_lvl", 2⟩] := by decide +kernel
  refine ⟨hdisk, hlast [] ⟨1, "cpu_told_lvl", 2⟩ [] ?_ fun _ he => absurd he List.not_mem_nil,
    hframe 1 "disk" ?_ (by simp [recoveredWrites])⟩
  · rw [hmade]
    rfl
  · rw [hmade]
    simp

/-- With no channel at all a write that no message goes with is made: there is
nothing to wait for. -/
theorem a_write_without_messages_is_made :
    ¬ ∀ (c : Channels) (net : Net) (fires : List OwnedMsg) (fireApply : List (StateWrite Nat)),
      OwnKinds fires → ∀ e ∈ fireApply, ∀ K ∈ messageKinds, e.key ∈ queuedKeys K →
        (e ∈ firedWrites c net fires fireApply ↔
          c.canSend = true ∧
            Finished fires (sendBatchOf c net (asksOom fires) fires).finished e.sid K ∨
          K = "oom" ∧ hasPrefix e.key "oom_" = true ∧
            e.sid ∈ (sendBatchOf c net (asksOom fires) fires).oomFinished) := by
  intro h
  have hiff := h (mainOnly false) firstOnly [] [⟨1, "cpu", 2⟩] (by simp [OwnKinds]) ⟨1, "cpu", 2⟩
    (by simp) "cpu" (by decide +kernel) List.mem_cons_self
  have hmade : (⟨1, "cpu", 2⟩ : StateWrite Nat) ∈
      firedWrites (mainOnly false) firstOnly [] [⟨1, "cpu", 2⟩] := by
    simp [firedWrites, sendBatchOf, dispatch]
  rcases hiff.1 hmade with ⟨hs, -⟩ | ⟨hoom, -⟩
  · cases hs
  · exact absurd hoom (by decide)

end Kervax
