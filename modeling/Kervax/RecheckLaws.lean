-- What an answer to a verification does: which job it settles, what it merges, and exactly
-- when `ingest` returns. A snapshot whose print of the packages has no manager is merged
-- before it is found to be incomplete.
import Kervax.RecheckChecks
import Kervax.Runs

namespace Kervax.Recheck

open Values

variable {κ : Type}

/-! ## The job of an answer -/

/-- The job that the answer names, of this server. -/
def OwnJob (db : Db κ) (a : Answer) (job : Job) : Prop :=
  db.jobs.lookup a.id = some job ∧ job.objectType = "server" ∧ job.objectId = db.server.id

/-- The job waits for this answer: it has no verdict, its time is not over, a node took it,
the settings are the same, and the collector did its work. -/
def Open (env : Env κ) (db : Db κ) (job : Job) (a : Answer) : Prop :=
  job.status = .checking ∧ a.now < job.deadline ∧ job.takenAt ≠ none ∧
    env.identity db.server.columns = job.spec.identity ∧ a.ok = true

/-- What is left of the problem once the snapshot is merged. -/
def leftAfter (env : Env κ) (db : Db κ) (job : Job) (a : Answer) (src : Source) :
    Except Exc (Option String) :=
  serverLeft env (merged env db.server a.snapshot src) job.kind a.now

/-- The answer settles the job: every check of it passed, and what is left is known. -/
def Verdict (env : Env κ) (db : Db κ) (job : Job) (a : Answer) (src : Source) (left : String) :
    Prop :=
  Open env db job a ∧ job.spec.source = some src ∧
    Accepted env db.server job.spec a.snapshot src ∧ leftAfter env db job a src = .ok (some left)

section Job

variable {env : Env κ} {db db' : Db κ} {a : Answer} {job : Job} {src : Source} {left : String}
  {server : Server κ} {e : Exc}

theorem expire_of_lt (hnow : a.now < job.deadline) :
    expire job a.now = job := by
  unfold expire
  rw [if_neg]
  rintro ⟨-, hle⟩
  exact absurd hnow (Int.not_lt.mpr hle)

theorem expire_of_final (hstatus : job.status ≠ .checking) (now : Time) : expire job now = job :=
  if_neg fun h => hstatus h.1

/-- An answer that the job does not wait for changes the job alone, and not one that has a
verdict. -/
theorem ingest_of_not_open (hown : OwnJob db a job) (hopen : ¬ Open env db job a) :
    ∃ job', ingest env db a = .ok (db.putJob a.id job') ∧
      (job.status ≠ .checking → job' = job) := by
  obtain ⟨hl, htype, hid⟩ := hown
  unfold ingest
  rw [hl]
  dsimp only
  rw [if_neg (by simp [htype, hid])]
  by_cases hstatus : (expire job a.now).status ≠ .checking
  · rw [if_pos hstatus]
    exact ⟨_, rfl, fun h => expire_of_final h a.now⟩
  · rw [if_neg hstatus]
    have hchecking : job.status = .checking := by
      by_contra h
      exact hstatus (by rwa [expire_of_final h])
    have hnow : a.now < job.deadline := by
      by_contra hlate
      apply hstatus
      unfold expire
      rw [if_pos ⟨hchecking, Int.not_lt.mp hlate⟩]
      exact nofun
    rw [expire_of_lt hnow]
    by_cases hask : job.takenAt = none ∨ env.identity db.server.columns ≠ job.spec.identity
    · rw [if_pos hask]
      exact ⟨_, rfl, fun h => absurd hchecking h⟩
    · rw [if_neg hask]
      obtain ⟨htaken, hsame⟩ := not_or.mp hask
      have hok : a.ok ≠ true := fun hok => hopen ⟨hchecking, hnow, htaken, not_not.mp hsame, hok⟩
      rw [if_pos (by simpa using hok)]
      exact ⟨_, rfl, fun h => absurd hchecking h⟩

/-- An answer that the job waits for. -/
theorem ingest_of_open (hown : OwnJob db a job) (hopen : Open env db job a) :
    ingest env db a = match verify env db.server job a with
      | .error e =>
        if caught e then .ok (db.putJob a.id (finish job .unavailable
          "Не удалось проверить: нет полного свежего результата нужной проверки" a.now))
        else .error (.raised e)
      | .ok (server, left) =>
        if job.spec.source = some .software then
          (storePackages (conclude db server job left a) a).mapError .raised
        else .ok (conclude db server job left a) := by
  obtain ⟨hl, htype, hid⟩ := hown
  obtain ⟨hstatus, hnow, htaken, hsame, hok⟩ := hopen
  unfold ingest
  rw [hl]
  dsimp only
  rw [if_neg (by simp [htype, hid]), expire_of_lt hnow, if_neg (by simp [hstatus]),
    if_neg (by simp [htaken, hsame])]
  exact if_neg (by simp [hok])

theorem verify_ok : verify env db.server job a = .ok (server, left) ↔
    ∃ src, job.spec.source = some src ∧ Accepted env db.server job.spec a.snapshot src ∧
      server = merged env db.server a.snapshot src ∧ leftAfter env db job a src = .ok (some left) := by
  unfold verify leftAfter
  simp only [bind_eq_ok, applySnapshot_ok]
  constructor
  · rintro ⟨server', ⟨src, hsrc, hacc, rfl⟩, found, hfound, hlast⟩
    cases found with
    | none => cases hlast
    | some left' =>
      cases hlast
      exact ⟨src, hsrc, hacc, rfl, hfound⟩
  · rintro ⟨src, hsrc, hacc, rfl, hleft⟩
    exact ⟨_, ⟨src, hsrc, hacc, rfl⟩, some left, hleft, rfl⟩

/-- An exception that is not caught comes from the evaluation of an accepted snapshot. -/
theorem verify_other (h : verify env db.server job a = .error e) (he : caught e = false) :
    ∃ src, job.spec.source = some src ∧ Accepted env db.server job.spec a.snapshot src ∧
      leftAfter env db job a src = .error e := by
  have hother : ¬ Known e := by simpa [caught, Known] using he
  unfold verify at h
  rcases bind_eq_error.mp h with happly | ⟨server', happly, h⟩
  · exact absurd (known_applySnapshot env job.spec a.snapshot db.server _ happly) hother
  · obtain ⟨src, hsrc, hacc, rfl⟩ := applySnapshot_ok.mp happly
    refine ⟨src, hsrc, hacc, ?_⟩
    rcases bind_eq_error.mp h with hleft | ⟨found, -, h⟩
    · exact hleft
    · cases found with
      | none =>
        cases h
        exact absurd nofun hother
      | some left' => cases h

end Job

/-! ## The packages of an answer -/

/-- The print of the packages names the package manager. -/
def NamesManager (snap : Fields) : Prop :=
  ((field snap "pkgs").entries.lookup "mgr").isSome = true

section Packages

variable {spec : Spec} {a : Answer}

theorem item_field {snap : Fields} {k : String} {v : Json} (h : field snap k = v)
    (hv : v ≠ .null) : (Json.obj snap).item k = .ok v := by
  refine item_eq_ok.mpr ⟨snap, rfl, ?_⟩
  unfold field at h
  cases hl : snap.lookup k with
  | none =>
    rw [hl] at h
    exact absurd h.symm hv
  | some w =>
    rw [hl] at h
    exact congrArg some h

/-- The packages are stored if and only if their print names the manager. -/
theorem storePackages_ok (db : Db κ) (h : PackagesComplete spec a.snapshot) :
    (∃ packages hash, storePackages db a =
        .ok { db with packages := some packages, server := { db.server with pkgHash := hash } }) ∧
      NamesManager a.snapshot ∨
    storePackages db a = .error .key ∧ ¬ NamesManager a.snapshot := by
  obtain ⟨⟨items, harr, -⟩, ⟨pkgs, hobj, htrue⟩, -⟩ := h
  have hpkgs := item_field hobj (by simp)
  have hitems := item_field harr (by simp)
  have hhash : (Json.obj pkgs).item "h" = .ok (field pkgs "h") := by
    apply item_field rfl
    intro hnull
    rw [hnull] at htrue
    cases htrue
  unfold storePackages NamesManager
  rw [hpkgs, hitems, hobj, Json.entries]
  cases hmgr : pkgs.lookup "mgr" with
  | some mgr =>
    refine .inl ⟨⟨⟨.arr items, field pkgs "h", mgr, items.length, a.now, .null⟩, field pkgs "h", ?_⟩,
      rfl⟩
    have hitem : (Json.obj pkgs).item "mgr" = .ok mgr := item_eq_ok.mpr ⟨pkgs, rfl, hmgr⟩
    simp only [bind, Except.bind, hhash, hitem]
    rfl
  | none =>
    refine .inr ⟨?_, Bool.false_ne_true⟩
    have hitem : (Json.obj pkgs).item "mgr" = .error .key := by
      unfold Json.item
      dsimp only
      rw [hmgr]
    simp only [bind, Except.bind, hhash, hitem]

end Packages

/-! ## What is merged -/

/-- The fields of the report that the collector owns. -/
def ownFields (src : Source) : List String :=
  snapshotFields src ++ if src = .software then ["pkgs"] else []

/-- Nothing but what belongs to the collector, the kind of the job and the job has changed. -/
structure OnlyOwn (src : Source) (kind id : String) (db db' : Db κ) : Prop where
  columns : db'.server.columns = db.server.columns ∧ db'.server.id = db.server.id
  report : ∀ k, k ∉ ownFields src → db'.server.report.lookup k = db.server.report.lookup k
  extras : ∀ key, key ≠ extrasKey src →
    (field db'.server.report "extras").entries.lookup key =
      (field db.server.report "extras").entries.lookup key
  packages : src ≠ .software → db'.server.swHost = db.server.swHost ∧
    db'.server.pkgHash = db.server.pkgHash ∧ db'.packages = db.packages
  fixed : ∀ other, other ≠ kind →
    (db'.server.alertFixed.getD []).lookup other = (db.server.alertFixed.getD []).lookup other
  jobs : ∀ other, other ≠ id → db'.jobs.lookup other = db.jobs.lookup other

section Merged

variable {env : Env κ} {db db' : Db κ} {a : Answer} {job : Job} {src : Source} {left : String}
  {server : Server κ} {rep snap : Fields}

theorem lookup_foldl_put {α : Type} {ks : List String} {r : List (String × α)} (f : String → α)
    (j : String) : (ks.foldl (fun r k => Dict.put r k (f k)) r).lookup j =
      if j ∈ ks then some (f j) else r.lookup j := by
  induction ks generalizing r with
  | nil => rfl
  | cons k ks ih =>
    rw [List.foldl_cons, ih, Dict.lookup_put]
    by_cases hj : j ∈ ks
    · rw [if_pos hj, if_pos (List.mem_cons_of_mem _ hj)]
    · rw [if_neg hj]
      by_cases hk : j = k
      · subst hk
        rw [if_pos rfl, if_pos List.mem_cons_self]
      · rw [if_neg hk, if_neg (by simp [hj, hk])]

theorem lookup_mergedReport (k : String) : (mergedReport rep src snap).lookup k =
    if k ∈ snapshotFields src then some (newField rep src snap k) else rep.lookup k :=
  lookup_foldl_put _ k

theorem report_merged : (merged env server snap src).report =
    if src = .software then
      Dict.put (mergedReport server.report src snap) "pkgs" (field snap "pkgs")
    else mergedReport server.report src snap := by
  unfold merged
  dsimp only
  split <;> rfl

theorem lookup_merged {k : String} (hk : k ∉ ownFields src) :
    (merged env server snap src).report.lookup k = server.report.lookup k := by
  obtain ⟨hfields, hpkgs⟩ := not_or.mp (List.mem_append.not.mp hk)
  rw [report_merged]
  split
  next hsw =>
    have hne : k ≠ "pkgs" := by
      rw [if_pos hsw] at hpkgs
      exact List.mem_singleton.not.mp hpkgs
    rw [Dict.lookup_put, if_neg hne, lookup_mergedReport, if_neg hfields]
  next => rw [lookup_mergedReport, if_neg hfields]

theorem extras_notMem_iff : "extras" ∉ ownFields src ↔ "extras" ∉ snapshotFields src := by
  cases src <;> decide

theorem entries_mergedExtras (key : String) : (mergedExtras rep snap key).entries =
    ((field snap "extras").entries.lookup key).elim (field rep "extras").entries
      (Dict.put (field rep "extras").entries key) := rfl

/-- Of the extras, only the block of the collector is taken from the snapshot. -/
theorem lookup_extras {key : String} (hkey : key ≠ extrasKey src) :
    (field (merged env server snap src).report "extras").entries.lookup key =
      (field server.report "extras").entries.lookup key := by
  by_cases hin : "extras" ∈ snapshotFields src
  · have hsw : src ≠ .software := by
      rintro rfl
      exact absurd hin (by decide)
    have hfield : field (merged env server snap src).report "extras" =
        mergedExtras server.report snap (extrasKey src) := by
      unfold field
      rw [report_merged, if_neg hsw, lookup_mergedReport, if_pos hin, Option.getD_some]
      exact if_pos rfl
    rw [hfield, entries_mergedExtras]
    cases (field snap "extras").entries.lookup (extrasKey src) with
    | none => rfl
    | some block =>
      rw [Option.elim_some, Dict.lookup_put, if_neg hkey]
  · unfold field
    rw [lookup_merged (extras_notMem_iff.mpr hin)]

theorem onlyOwn_putJob (src : Source) (kind id : String) (db : Db κ) (job : Job) :
    OnlyOwn src kind id db (db.putJob id job) where
  columns := ⟨rfl, rfl⟩
  report _ _ := rfl
  extras _ _ := rfl
  packages _ := ⟨rfl, rfl, rfl⟩
  fixed _ _ := rfl
  jobs other hne := by
    unfold Db.putJob
    rw [Dict.lookup_put, if_neg hne]

theorem merged_columns : (merged env server snap src).columns = server.columns ∧
    (merged env server snap src).id = server.id ∧
    (merged env server snap src).alertFixed = server.alertFixed ∧
    (merged env server snap src).pkgHash = server.pkgHash := by
  unfold merged
  dsimp only
  split <;> exact ⟨rfl, rfl, rfl, rfl⟩

theorem swHost_merged (hsrc : src ≠ .software) :
    (merged env server snap src).swHost = server.swHost := by
  unfold merged
  rw [if_neg hsrc]

/-- What the verdict adds to the merged server: the mark of the kind. -/
theorem conclude_server (db : Db κ) (server : Server κ) (job : Job) (left : String) (a : Answer) :
    (conclude db server job left a).server = server ∨
      (conclude db server job left a).server = markFixed server job a.now := by
  unfold conclude
  split
  · exact .inl rfl
  · exact .inr rfl

theorem conclude_rest (db : Db κ) (server : Server κ) (job : Job) (left : String) (a : Answer) :
    (conclude db server job left a).packages = db.packages ∧
      ∃ job', (conclude db server job left a).jobs = Dict.put db.jobs a.id job' := by
  unfold conclude
  split
  · exact ⟨rfl, _, rfl⟩
  · exact ⟨rfl, _, rfl⟩

theorem markFixed_rest (server : Server κ) (job : Job) (now : Time) :
    ∃ fixed, markFixed server job now = { server with alertFixed := fixed } ∧
      ∀ other, other ≠ job.kind →
        (fixed.getD []).lookup other = (server.alertFixed.getD []).lookup other := by
  unfold markFixed
  split
  · exact ⟨server.alertFixed, rfl, fun _ _ => rfl⟩
  · refine ⟨_, rfl, fun other hne => ?_⟩
    rw [Option.getD_some, Dict.lookup_put, if_neg hne]

/-- A verdict changes only what belongs to it. -/
theorem onlyOwn_conclude (env : Env κ) (db : Db κ) (job : Job) (left : String) (a : Answer) (src : Source) :
    OnlyOwn src job.kind a.id db
      (conclude db (merged env db.server a.snapshot src) job left a) := by
  obtain ⟨hpackages, job', hjobs⟩ := conclude_rest db (merged env db.server a.snapshot src) job left a
  obtain ⟨fixed, hserver, hfixed⟩ : ∃ fixed, (conclude db (merged env db.server a.snapshot src)
      job left a).server = { merged env db.server a.snapshot src with alertFixed := fixed } ∧
      ∀ other, other ≠ job.kind →
        (fixed.getD []).lookup other = (db.server.alertFixed.getD []).lookup other := by
    rcases conclude_server db (merged env db.server a.snapshot src) job left a with h | h
    · refine ⟨(merged env db.server a.snapshot src).alertFixed, h, fun other _ => ?_⟩
      rw [merged_columns.2.2.1]
    · obtain ⟨fixed, hmark, hfixed⟩ := markFixed_rest (merged env db.server a.snapshot src) job a.now
      rw [merged_columns.2.2.1] at hfixed
      exact ⟨fixed, h.trans hmark, hfixed⟩
  refine ⟨?_, ?_, ?_, ?_, ?_, ?_⟩
  · rw [hserver]
    exact ⟨merged_columns.1, merged_columns.2.1⟩
  · intro k hk
    rw [hserver]
    exact lookup_merged hk
  · intro key hkey
    rw [hserver]
    exact lookup_extras hkey
  · intro hsrc
    rw [hserver, hpackages]
    exact ⟨swHost_merged hsrc, merged_columns.2.2.2, rfl⟩
  · intro other hne
    rw [hserver]
    exact hfixed other hne
  · intro other hne
    rw [hjobs, Dict.lookup_put, if_neg hne]

end Merged

/-! ## A bad snapshot is harmless -/

/-- What is asked of an answer. -/
structure Harmless (env : Env κ) (db : Db κ) (a : Answer) : Prop where
  /-- `ingest` returns. -/
  returns : ∃ db', ingest env db a = .ok db'
  /-- The server and its packages are as they were unless every check passed: a snapshot that
  is malformed, or not newer than the job, changes nothing there. -/
  unchanged : ∀ db' job, ingest env db a = .ok db' → OwnJob db a job →
    (∀ src left, ¬ Verdict env db job a src left) →
    db'.server = db.server ∧ db'.packages = db.packages
  /-- Only what belongs to the collector is merged. -/
  merges : ∀ db' job src, ingest env db a = .ok db' → OwnJob db a job →
    job.spec.source = some src → OnlyOwn src job.kind a.id db db'
  /-- A verdict is never rewritten. -/
  final : ∀ db' id job, ingest env db a = .ok db' → db.jobs.lookup id = some job →
    job.status ≠ .checking → db'.jobs.lookup id = some job

/-- When `ingest` returns: the job is one of this server and, if the answer settles it, the
evaluation of the merged report raises nothing but what is caught, and the print of the
packages names the manager. -/
def Answerable (env : Env κ) (db : Db κ) (a : Answer) : Prop :=
  ∃ job, OwnJob db a job ∧
    (Open env db job a → ∀ src, job.spec.source = some src →
      Accepted env db.server job.spec a.snapshot src →
      (∀ e, leftAfter env db job a src = .error e → caught e = true) ∧
      (src = .software → (∃ left, leftAfter env db job a src = .ok (some left)) →
        NamesManager a.snapshot))

section Answers

variable {env : Env κ} {db db' : Db κ} {a : Answer} {job : Job} {src : Source} {left : String}

/-- How an answer that returns leaves the rows. -/
inductive Returned (env : Env κ) (db : Db κ) (a : Answer) (job : Job) : Db κ → Prop
  | noted {job' : Job} : (∀ src left, ¬ Verdict env db job a src left) →
      (job.status ≠ .checking → job' = job) → Returned env db a job (db.putJob a.id job')
  | settled {src : Source} {left : String} : Verdict env db job a src left → src ≠ .software →
      Returned env db a job (conclude db (merged env db.server a.snapshot src) job left a)
  | stored {left : String} {packages : ServerPackages} {hash : Json} : Verdict env db job a .software left →
      NamesManager a.snapshot →
      Returned env db a job
        { conclude db (merged env db.server a.snapshot .software) job left a with
          packages := some packages
          server := { (conclude db (merged env db.server a.snapshot .software) job left a).server
            with pkgHash := hash } }

theorem not_verdict_of_not_open (h : ¬ Open env db job a) (src : Source) (left : String) :
    ¬ Verdict env db job a src left := fun hv => h hv.1

/-- The one way that the guarded part ends well is a verdict. -/
theorem verify_verdict (hopen : Open env db job a) {server : Server κ} :
    verify env db.server job a = .ok (server, left) ↔
      ∃ src, Verdict env db job a src left ∧ server = merged env db.server a.snapshot src := by
  rw [verify_ok]
  refine exists_congr fun src => ?_
  constructor
  · rintro ⟨hsrc, hacc, hserver, hleft⟩
    exact ⟨⟨hopen, hsrc, hacc, hleft⟩, hserver⟩
  · rintro ⟨⟨-, hsrc, hacc, hleft⟩, hserver⟩
    exact ⟨hsrc, hacc, hserver, hleft⟩

theorem returned_of_ingest (hown : OwnJob db a job) (h : ingest env db a = .ok db') :
    Returned env db a job db' := by
  by_cases hopen : Open env db job a
  · rw [ingest_of_open hown hopen] at h
    cases hverify : verify env db.server job a with
    | error e =>
      rw [hverify] at h
      dsimp only at h
      split at h
      next =>
        cases h
        refine .noted (fun src left hv => ?_) fun hfinal => absurd hopen.1 hfinal
        rw [(verify_verdict hopen).mpr ⟨src, hv, rfl⟩] at hverify
        cases hverify
      next => cases h
    | ok found =>
      obtain ⟨server, left⟩ := found
      obtain ⟨src, hv, rfl⟩ := (verify_verdict hopen).mp hverify
      rw [hverify] at h
      dsimp only at h
      split at h
      next hsw =>
        obtain rfl : src = .software := Option.some.inj (hv.2.1.symm.trans hsw)
        rcases storePackages_ok (conclude db (merged env db.server a.snapshot .software) job left a)
          (hv.2.2.1.packages rfl) with ⟨⟨packages, hash, hstore⟩, hmgr⟩ | ⟨hstore, -⟩
        · rw [hstore] at h
          cases h
          exact .stored hv hmgr
        · rw [hstore] at h
          cases h
      next hsw =>
        cases h
        exact .settled hv fun he => hsw (he ▸ hv.2.1)
  · obtain ⟨job', hjob', hfinal⟩ := ingest_of_not_open hown hopen
    rw [hjob'] at h
    cases h
    exact .noted (not_verdict_of_not_open hopen) hfinal

theorem ownJob_of_ingest (h : ingest env db a = .ok db') : ∃ job, OwnJob db a job := by
  unfold ingest at h
  split at h
  next => cases h
  next job hl =>
    split at h
    next => cases h
    next hown =>
      obtain ⟨htype, hid⟩ := not_or.mp hown
      exact ⟨job, hl, not_not.mp htype, not_not.mp hid⟩

/-- `ingest` returns if and only if the answer can be taken. -/
theorem returns_iff : (∃ db', ingest env db a = .ok db') ↔ Answerable env db a := by
  constructor
  · rintro ⟨db', h⟩
    obtain ⟨job, hown⟩ := ownJob_of_ingest h
    refine ⟨job, hown, fun hopen src hsrc hacc => ⟨fun e he => ?_, ?_⟩⟩
    · by_contra hcaught
      have hverify : verify env db.server job a = .error e := by
        unfold verify
        rw [applySnapshot_ok.mpr ⟨src, hsrc, hacc, rfl⟩]
        exact bind_eq_error.mpr (.inr ⟨_, rfl, bind_eq_error.mpr (.inl he)⟩)
      rw [ingest_of_open hown hopen, hverify] at h
      dsimp only at h
      rw [if_neg hcaught] at h
      cases h
    · rintro rfl ⟨left, hleft⟩
      have hv : Verdict env db job a .software left := ⟨hopen, hsrc, hacc, hleft⟩
      cases returned_of_ingest hown h with
      | noted hno => exact absurd hv (hno _ _)
      | settled hv' hne => exact absurd (Option.some.inj (hv'.2.1.symm.trans hsrc)) hne
      | stored _ hmgr => exact hmgr
  · rintro ⟨job, hown, hsafe⟩
    by_cases hopen : Open env db job a
    · rw [ingest_of_open hown hopen]
      cases hverify : verify env db.server job a with
      | error e =>
        dsimp only
        by_cases hcaught : caught e = true
        · exact ⟨_, if_pos hcaught⟩
        · obtain ⟨src, hsrc, hacc, hleft⟩ := verify_other hverify (by simpa using hcaught)
          exact absurd ((hsafe hopen src hsrc hacc).1 e hleft) hcaught
      | ok found =>
        obtain ⟨server, left⟩ := found
        obtain ⟨src, hv, rfl⟩ := (verify_verdict hopen).mp hverify
        dsimp only
        by_cases hsw : job.spec.source = some .software
        · obtain rfl : src = .software := Option.some.inj (hv.2.1.symm.trans hsw)
          have hmgr := (hsafe hopen .software hsw hv.2.2.1).2 rfl ⟨left, hv.2.2.2⟩
          rcases storePackages_ok (conclude db (merged env db.server a.snapshot .software) job left a)
            (hv.2.2.1.packages rfl) with ⟨⟨packages, hash, hstore⟩, -⟩ | ⟨-, hno⟩
          · rw [if_pos hsw, hstore]
            exact ⟨_, rfl⟩
          · exact absurd hmgr hno
        · exact ⟨_, if_neg hsw⟩
    · obtain ⟨job', hjob', -⟩ := ingest_of_not_open hown hopen
      exact ⟨_, hjob'⟩

theorem unchanged_of_returned (h : Returned env db a job db')
    (hno : ∀ src left, ¬ Verdict env db job a src left) :
    db'.server = db.server ∧ db'.packages = db.packages := by
  cases h with
  | noted _ _ => exact ⟨rfl, rfl⟩
  | settled hv _ => exact absurd hv (hno _ _)
  | stored hv _ => exact absurd hv (hno _ _)

theorem onlyOwn_of_returned (h : Returned env db a job db') (hsrc : job.spec.source = some src) :
    OnlyOwn src job.kind a.id db db' := by
  cases h with
  | noted _ _ => exact onlyOwn_putJob src job.kind a.id db _
  | settled hv _ =>
    obtain rfl := Option.some.inj (hsrc.symm.trans hv.2.1)
    exact onlyOwn_conclude env db job _ a src
  | @stored left _ _ hv _ =>
    obtain rfl := Option.some.inj (hsrc.symm.trans hv.2.1)
    have hown := onlyOwn_conclude env db job left a .software
    exact ⟨hown.columns, hown.report, hown.extras, fun hne => absurd rfl hne, hown.fixed, hown.jobs⟩

/-- A verdict stays, whatever answers come. -/
theorem final_of_returned (h : Returned env db a job db') (hown : OwnJob db a job) {id : String}
    {job' : Job} (hl : db.jobs.lookup id = some job') (hfinal : job'.status ≠ .checking) :
    db'.jobs.lookup id = some job' := by
  by_cases hid : id = a.id
  · subst hid
    obtain rfl : job' = job := Option.some.inj (hl.symm.trans hown.1)
    cases h with
    | noted _ hsame =>
      unfold Db.putJob
      rw [Dict.lookup_put, if_pos rfl, hsame hfinal]
    | settled hv _ => exact absurd hv.1.1 hfinal
    | stored hv _ => exact absurd hv.1.1 hfinal
  · cases h with
    | noted _ _ =>
      unfold Db.putJob
      rw [Dict.lookup_put, if_neg hid]
      exact hl
    | @settled src left _ _ =>
      rw [(onlyOwn_conclude env db job left a src).jobs id hid]
      exact hl
    | @stored left _ _ _ _ =>
      have hjobs := (onlyOwn_conclude env db job left a .software).jobs id hid
      exact hjobs.trans hl

end Answers

/-- Whatever a node sends, whatever the job: a bad snapshot is harmless if and only if the
answer can be taken. -/
theorem bad_snapshot_is_harmless_iff (env : Env κ) (db : Db κ) (a : Answer) :
    Harmless env db a ↔ Answerable env db a := by
  constructor
  · exact fun h => returns_iff.mp h.returns
  · intro hanswer
    refine ⟨returns_iff.mpr hanswer, ?_, ?_, ?_⟩
    · exact fun db' job h hown hno => unchanged_of_returned (returned_of_ingest hown h) hno
    · exact fun db' job src h hown hsrc => onlyOwn_of_returned (returned_of_ingest hown h) hsrc
    · intro db' id job h hl hfinal
      obtain ⟨own, hown⟩ := ownJob_of_ingest h
      exact final_of_returned (returned_of_ingest hown h) hown hl hfinal

/-- The rows after an answer: what is not returned is rolled back. -/
def step (env : Env κ) (db : Db κ) (a : Answer) : Db κ := (ingest env db a).toOption.getD db

/-! ## A print without a manager -/

/-- A node whose software is up to date, as the panel sees it. -/
def nodeEnv : Env Unit where
  digest v := if v.isDict then "blocks" else "packages"
  str _ := ""
  hostVersions _ := .arr []
  identity _ := "settings"
  sig _ _ _ := some ""
  left _ _ _ := .ok ""

def nodeJob : Job where
  objectType := "server"
  objectId := 7
  kind := "home:sw-eol"
  requestedBy := "ops"
  deadline := sec 180
  takenAt := some (sec 1)
  activeKey := some "server:7:home:sw-eol"
  spec := ⟨"settings", some .software, [], false, some "blocks", some "packages"⟩

def nodeDb : Db Unit where
  server := ⟨7, (), some [("docker", .obj []), ("db_stats", .null)], .arr [], .str "old", none⟩
  packages := none
  jobs := [("job", nodeJob)]

/-- A list of packages whose print lacks `"mgr"`. -/
def nodeAnswer : Answer where
  id := "job"
  ok := true
  snapshot := [("docker", .obj []), ("db_stats", .null),
    ("packages", .arr [.arr [.str "bash", .str "5.1"]]), ("pkgs", .obj [("h", .str "new")])]
  now := sec 5

def failure {α : Type} : Except Failure α → Option Failure
  | .error e => some e
  | .ok _ => none

/-- The answer is for a job of the server that waits for it, and `ingest` raises. -/
theorem print_without_manager_raises : OwnJob nodeDb nodeAnswer nodeJob ∧
    Open nodeEnv nodeDb nodeJob nodeAnswer ∧
    failure (ingest nodeEnv nodeDb nodeAnswer) = some (.raised .key) ∧
    ¬ Harmless nodeEnv nodeDb nodeAnswer := by
  have hraised : failure (ingest nodeEnv nodeDb nodeAnswer) = some (.raised .key) := by
    decide +kernel
  refine ⟨⟨rfl, rfl, rfl⟩, ⟨rfl, by decide, nofun, rfl, rfl⟩, hraised, fun h => ?_⟩
  obtain ⟨db', hdb'⟩ := h.returns
  rw [hdb'] at hraised
  cases hraised

end Kervax.Recheck
