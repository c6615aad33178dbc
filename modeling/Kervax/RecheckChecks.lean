-- The snapshots that `apply_snapshot` accepts, said without its code: the blocks of the
-- collector are complete and no older than what the job began with. And what an accepted
-- one makes of the report.
import Kervax.Recheck

namespace Kervax.Recheck

open Values

variable {κ : Type}

/-! ## Complete blocks -/

def certsComplete (env : Env κ) (spec : Spec) (snap : Fields) : Prop :=
  ∃ certs flux, field snap "kube_expiry" = .arr certs ∧ field snap "flux" = .arr flux ∧
    (∀ it ∈ certs, it.isDict = true) ∧ ∀ r ∈ spec.required, ∃ it ∈ certs, certKey env it = .ok r

def sshComplete (snap : Fields) : Prop :=
  ∃ extras changes ssh, field snap "extras" = .obj extras ∧
    extras.lookup "changes" = some (.obj changes) ∧ changes.lookup "ssh" = some (.obj ssh) ∧
    (field ssh "ports").truthy = true ∧ (∃ s ∈ ["yes", "no"], field ssh "pass" = .str s) ∧
    ∃ s ∈ rootPolicies, field ssh "root" = .str s

def dockerComplete (snap : Fields) : Prop :=
  ∃ dk, field snap "docker" = .obj dk ∧
    ((field dk "present").truthy = true → (field dk "access").truthy = true)

def kubeComplete (snap : Fields) : Prop :=
  ∃ kube, field snap "kube" = .obj kube ∧ (field kube "access").truthy = true

def backupComplete (spec : Spec) (snap : Fields) : Prop :=
  spec.dbStats = true → (field snap "db_engines").truthy = true →
    (field snap "db_stats").truthy = true

def memComplete (snap : Fields) : Prop :=
  ∃ total used, (field snap "mem_total").number = some total ∧
    (field snap "mem_used").number = some used ∧ total.le (.fin 0) = false ∧
    FloatVal.le (.fin 0) used = true ∧ used.le total = true

def conntrackComplete (snap : Fields) : Prop :=
  ∃ most count, (field snap "conntrack_max").number = some most ∧
    (field snap "conntrack_count").number = some count ∧ most.le (.fin 0) = false ∧
    count.lt (.fin 0) = false

/-- The blocks that a collector must give are there, and of their shape. -/
def Complete (env : Env κ) (spec : Spec) (snap : Fields) : Source → Prop
  | .kubeExpiry => certsComplete env spec snap
  | .changes => sshComplete snap
  | .software => dockerComplete snap
  | .docker => dockerComplete snap
  | .kube => kubeComplete snap
  | .backup => backupComplete spec snap
  | .mem => memComplete snap
  | .disk => ∃ disks, field snap "disks" = .arr disks ∧ disks ≠ []
  | .conntrack => conntrackComplete snap
  | .temp => (field snap "cpu_temp").isNumber = true

section Checks

variable {env : Env κ} {spec : Spec} {snap : Fields} {u : Unit}

theorem certKey_eq_ok {it : Json} {text : String} (h : certKey env it = .ok text) :
    it.isDict = true := by
  obtain ⟨kind, hkind, -⟩ := bind_eq_ok.mp h
  obtain ⟨d, rfl, -⟩ := get_eq_ok.mp hkind
  rfl

theorem certKey_of_isDict {it : Json} (h : it.isDict = true) : ∃ text, certKey env it = .ok text := by
  cases it with
  | obj d => exact ⟨_, rfl⟩
  | _ => cases h

theorem checkKubeExpiry_ok : checkKubeExpiry env spec snap = .ok u ↔ certsComplete env spec snap := by
  unfold checkKubeExpiry certsComplete
  split
  next certs flux hcerts hflux =>
    rw [bind_eq_ok]
    constructor
    · rintro ⟨texts, htexts, hneed⟩
      obtain ⟨hall, hmem⟩ := mem_of_mapM htexts
      refine ⟨certs, flux, hcerts, hflux, fun it hit => ?_, fun r hr => ?_⟩
      · obtain ⟨text, htext⟩ := hall it hit
        exact certKey_eq_ok htext
      · have hin := List.all_eq_true.mp (need_eq_ok.mp hneed) r hr
        exact (hmem r).mp (of_decide_eq_true hin)
    · rintro ⟨certs', flux', hcerts', -, hdict, hreq⟩
      obtain rfl : certs = certs' := by simpa [hcerts] using hcerts'
      obtain ⟨texts, htexts⟩ := mapM_of_ok fun it hit => certKey_of_isDict (hdict it hit)
      refine ⟨texts, htexts, need_eq_ok.mpr (List.all_eq_true.mpr fun r hr => ?_)⟩
      exact decide_eq_true (((mem_of_mapM htexts).2 r).mpr (hreq r hr))
  next hno => exact ⟨nofun, fun ⟨certs, flux, hcerts, hflux, _⟩ => absurd hflux (hno _ _ hcerts)⟩

theorem checkDocker_ok : checkDocker snap = .ok u ↔ dockerComplete snap := by
  unfold checkDocker dockerComplete
  split
  next dk hdk =>
    rw [need_eq_ok]
    constructor
    · intro h
      refine ⟨dk, hdk, fun hp => ?_⟩
      simpa [hp] using h
    · rintro ⟨dk', hdk', h⟩
      obtain rfl : dk = dk' := by simpa [hdk] using hdk'
      cases hp : (field dk "present").truthy with
      | false => rfl
      | true => simp [h hp]
  next hno => exact ⟨nofun, fun ⟨dk, hdk, _⟩ => absurd hdk (hno dk)⟩

theorem checkKube_ok : checkKube snap = .ok u ↔ kubeComplete snap := by
  unfold checkKube kubeComplete
  rw [bind_eq_ok]
  constructor
  · rintro ⟨access, haccess, hneed⟩
    obtain ⟨kube, hkube, hl⟩ := get_orEmpty_truthy haccess (need_eq_ok.mp hneed)
    exact ⟨kube, hkube, by simpa [field, hl] using need_eq_ok.mp hneed⟩
  · rintro ⟨kube, hkube, haccess⟩
    refine ⟨field kube "access", ?_, need_eq_ok.mpr haccess⟩
    rw [get_orEmpty_eq_ok, hkube]
    exact ⟨fun _ => rfl, rfl⟩

/-- A dictionary that is read through `or {}`. -/
theorem get_orEmpty_obj (d : Fields) (k : String) : (Json.obj d).orEmpty.get k = .ok (field d k) :=
  get_orEmpty_eq_ok.mpr ⟨fun _ => rfl, rfl⟩

theorem field_of_lookup {d : Fields} {k : String} {v : Json} (h : d.lookup k = some v) :
    field d k = v := by
  unfold field
  rw [h]
  rfl

theorem checkChanges_ok : checkChanges snap = .ok u ↔ sshComplete snap := by
  unfold checkChanges
  simp only [bind_eq_ok, need_eq_ok]
  constructor
  · rintro ⟨changes, hchanges, ssh, hssh, ports, hports, _, hpt, pass, hpass, passOk, hpo, _, rfl,
      root, hroot, rootOk, hro, rfl⟩
    obtain ⟨sshd, rfl, hportsd⟩ := get_orEmpty_truthy hports hpt
    obtain ⟨changesd, rfl, hsshd⟩ := get_orEmpty_truthy hssh (truthy_of_lookup hportsd)
    obtain ⟨extras, hextras, hchangesd⟩ := get_orEmpty_truthy hchanges (truthy_of_lookup hsshd)
    obtain rfl : field sshd "pass" = pass := Except.ok.inj hpass
    obtain rfl : field sshd "root" = root := Except.ok.inj hroot
    refine ⟨extras, changesd, _, hextras, hchangesd, hsshd, ?_, inSet_eq_true.mp hpo,
      inSet_eq_true.mp hro⟩
    rw [field_of_lookup hportsd]
    exact hpt
  · rintro ⟨extras, changes, ssh, hextras, hchanges, hssh, hports, hpass, hroot⟩
    refine ⟨.obj changes, ?_, .obj ssh, ?_, _, get_orEmpty_obj ssh "ports", (), hports, _, rfl, true,
      inSet_eq_true.mpr hpass, (), rfl, _, rfl, true, inSet_eq_true.mpr hroot, rfl⟩
    · rw [hextras, get_orEmpty_obj, field_of_lookup hchanges]
    · rw [get_orEmpty_obj, field_of_lookup hssh]

theorem checkMem_ok : checkMem snap = .ok u ↔ memComplete snap := by
  unfold checkMem memComplete
  simp only [bind_eq_ok, need_eq_ok, le_eq_ok]
  constructor
  · rintro ⟨_, -, none_, ⟨total, zero, htotal, hzero, hnone⟩, _, hn, low,
      ⟨zero', used, hzero', hused, hlow⟩, _, rfl, high, ⟨used', total', hused', htotal', hhigh⟩, rfl⟩
    obtain rfl : zero = .fin 0 := by simpa [Json.number, eq_comm] using hzero
    obtain rfl : zero' = .fin 0 := by simpa [Json.number, eq_comm] using hzero'
    obtain rfl : used = used' := by simpa [hused] using hused'
    obtain rfl : total = total' := by simpa [htotal] using htotal'
    exact ⟨total, used, htotal, hused, by simpa [hnone] using hn, hlow, hhigh⟩
  · rintro ⟨total, used, htotal, hused, hnone, hlow, hhigh⟩
    refine ⟨(), ?_, false, ⟨total, .fin 0, htotal, by simp [Json.number], hnone⟩, (), rfl, true,
      ⟨.fin 0, used, by simp [Json.number], hused, hlow⟩, (), rfl, true,
      ⟨used, total, hused, htotal, hhigh⟩, rfl⟩
    simp [Json.isNumber, htotal]

theorem checkConntrack_ok : checkConntrack snap = .ok u ↔ conntrackComplete snap := by
  unfold checkConntrack conntrackComplete
  simp only [bind_eq_ok, need_eq_ok, le_eq_ok, lt_eq_ok]
  constructor
  · rintro ⟨none_, ⟨most, zero, hmost, hzero, hnone⟩, _, hn, low,
      ⟨count, zero', hcount, hzero', hlow⟩, hl⟩
    obtain rfl : zero = .fin 0 := by simpa [Json.number, eq_comm] using hzero
    obtain rfl : zero' = .fin 0 := by simpa [Json.number, eq_comm] using hzero'
    exact ⟨most, count, hmost, hcount, by simpa [hnone] using hn, by simpa [hlow] using hl⟩
  · rintro ⟨most, count, hmost, hcount, hnone, hlow⟩
    exact ⟨false, ⟨most, .fin 0, hmost, by simp [Json.number], hnone⟩, (), rfl, false,
      ⟨count, .fin 0, hcount, by simp [Json.number], hlow⟩, rfl⟩

theorem checkDisk_ok :
    checkDisk snap = .ok u ↔ ∃ disks, field snap "disks" = .arr disks ∧ disks ≠ [] := by
  unfold checkDisk
  rw [need_eq_ok]
  cases field snap "disks" <;> simp [Json.isList, Json.truthy]

theorem checkBackup_ok : checkBackup spec snap = .ok u ↔ backupComplete spec snap := by
  unfold checkBackup backupComplete
  rw [need_eq_ok]
  cases spec.dbStats <;> cases (field snap "db_stats").truthy <;>
    cases (field snap "db_engines").truthy <;> simp

theorem checkSource_ok {src : Source} :
    checkSource env spec snap src = .ok u ↔ Complete env spec snap src := by
  cases src with
  | kubeExpiry => exact checkKubeExpiry_ok
  | changes => exact checkChanges_ok
  | software => exact checkDocker_ok
  | docker => exact checkDocker_ok
  | kube => exact checkKube_ok
  | backup => exact checkBackup_ok
  | mem => exact checkMem_ok
  | disk => exact checkDisk_ok
  | conntrack => exact checkConntrack_ok
  | temp => exact need_eq_ok

end Checks

/-! ## The merge -/

/-- What the digests compare: the blocks of a collector. -/
def scope (rep : Fields) (src : Source) : Json :=
  let out := (snapshotFields src).map fun k => (k, field rep k)
  if "extras" ∈ snapshotFields src then
    .obj (Dict.put out "extras"
      (.obj [(extrasKey src, field (field rep "extras").entries (extrasKey src))]))
  else .obj out

/-- The extras of the report, with the collector's own block from the snapshot. -/
def mergedExtras (rep snap : Fields) (key : String) : Json :=
  let old := (field rep "extras").entries
  .obj (((field snap "extras").entries.lookup key).elim old (Dict.put old key))

def newField (rep : Fields) (src : Source) (snap : Fields) (k : String) : Json :=
  if k = "extras" then mergedExtras rep snap (extrasKey src) else field snap k

def mergedReport (rep : Fields) (src : Source) (snap : Fields) : Fields :=
  (snapshotFields src).foldl (fun r k => Dict.put r k (newField rep src snap k)) rep

/-- A block that can be merged: a dictionary, or something empty that can be searched. -/
def Searchable (v : Json) : Prop := v.isDict = true ∨ v = .str "" ∨ v = .arr []

section Merge

variable {env : Env κ} {spec : Spec} {rep rep' snap : Fields} {src : Source} {key : String} {v : Json}

theorem scopedSnapshot_ok : scopedSnapshot rep src = .ok v ↔
    ("extras" ∈ snapshotFields src → (field rep "extras").OptDict) ∧ v = scope rep src := by
  unfold scopedSnapshot scope
  dsimp only
  split
  next hin =>
    rw [map_eq_ok]
    constructor
    · rintro ⟨block, hblock, rfl⟩
      obtain ⟨hopt, rfl⟩ := get_orEmpty_eq_ok.mp hblock
      exact ⟨fun _ => hopt, rfl⟩
    · rintro ⟨hopt, rfl⟩
      exact ⟨_, get_orEmpty_eq_ok.mpr ⟨hopt hin, rfl⟩, rfl⟩
  next hout =>
    constructor
    · intro h
      cases h
      exact ⟨fun hin => absurd hin hout, rfl⟩
    · rintro ⟨-, rfl⟩
      rfl

theorem orEmpty_obj_iff {d : Fields} : v.orEmpty = .obj d ↔ v.OptDict ∧ d = v.entries := by
  unfold Json.orEmpty Json.OptDict
  cases ht : v.truthy with
  | true => cases v <;> simp [Json.isDict, Json.entries, eq_comm]
  | false =>
    have hentries : v.entries = [] := by
      cases v with
      | obj d => simpa [Json.truthy, Json.entries] using ht
      | _ => rfl
    rw [hentries, if_neg Bool.false_ne_true]
    exact ⟨fun h => ⟨fun he => absurd he Bool.false_ne_true, (Json.obj.inj h).symm⟩,
      fun h => congrArg _ h.2.symm⟩

/-- The search of a block that `or {}` lets pass. -/
theorem contains_ok {b : Bool} (hkey : key ≠ "") (hopt : v.OptDict) :
    v.contains key = .ok b ↔ Searchable v ∧ (v.entries.lookup key).isSome = b := by
  cases v with
  | obj d => simp [Json.contains, Searchable, Json.isDict, Json.entries]
  | arr l =>
    have hl : l = [] := by
      by_contra hne
      have htrue : (Json.arr l).truthy = true := by simpa [Json.truthy] using hne
      exact Bool.false_ne_true (hopt htrue)
    subst hl
    simp [Json.contains, Searchable, Json.entries]
  | str s =>
    have hs : s = "" := by
      by_contra hne
      exact Bool.false_ne_true (hopt (decide_eq_true hne))
    subst hs
    simp [Json.contains, Searchable, Json.entries, hkey]
  | _ => simp [Json.contains, Searchable, Json.isDict]

theorem extrasKey_ne (src : Source) : extrasKey src ≠ "" := by
  unfold extrasKey
  split <;> decide

theorem mergeExtras_ok (hkey : key ≠ "") (hopt : (field snap "extras").OptDict) :
    mergeExtras rep snap key = .ok v ↔ Searchable (field snap "extras") ∧
      (field rep "extras").OptDict ∧ v = mergedExtras rep snap key := by
  unfold mergeExtras mergedExtras
  rw [bind_eq_ok]
  constructor
  · rintro ⟨has, hhas, hmerge⟩
    obtain ⟨hsearch, rfl⟩ := (contains_ok hkey hopt).mp hhas
    refine ⟨hsearch, ?_⟩
    split at hmerge
    next old hold =>
      obtain ⟨hopt', rfl⟩ := orEmpty_obj_iff.mp hold
      refine ⟨hopt', ?_⟩
      cases hl : (field snap "extras").entries.lookup key with
      | none =>
        rw [hl] at hmerge
        exact (Except.ok.inj hmerge).symm
      | some block =>
        rw [hl] at hmerge
        obtain ⟨block', hitem, rfl⟩ := map_eq_ok.mp hmerge
        obtain ⟨d, hd, hl'⟩ := item_eq_ok.mp hitem
        rw [hd, Json.entries, hl'] at hl
        cases hl
        rfl
    next => cases hmerge
  · rintro ⟨hsearch, hopt', rfl⟩
    refine ⟨_, (contains_ok hkey hopt).mpr ⟨hsearch, rfl⟩, ?_⟩
    rw [orEmpty_obj_iff.mpr ⟨hopt', rfl⟩]
    dsimp only
    cases hl : (field snap "extras").entries.lookup key with
    | none => rfl
    | some block =>
      have hitem : (field snap "extras").item key = .ok block := by
        cases hv : field snap "extras" with
        | obj d =>
          rw [hv, Json.entries] at hl
          exact item_eq_ok.mpr ⟨d, rfl, hl⟩
        | _ => simp [hv, Json.entries] at hl
      rw [hitem]
      rfl

/-- The extras can be merged. -/
def ExtrasMergeable (rep snap : Fields) (src : Source) : Prop :=
  "extras" ∈ snapshotFields src →
    (field rep "extras").OptDict ∧ Searchable (field snap "extras")

theorem Searchable.optDict (h : Searchable v) : v.OptDict := by
  rcases h with h | rfl | rfl
  · exact fun _ => h
  · exact fun ht => absurd ht (by decide)
  · exact fun ht => absurd ht (by decide)

/-- A field of the report is put, while its extras are still the old ones. -/
theorem mergeField_ok {r : Fields} {k : String}
    (hsame : k = "extras" → field r "extras" = field rep "extras")
    (hopt : k = "extras" → (field snap "extras").OptDict) :
    mergeField src snap r k = .ok rep' ↔
      (k = "extras" → (field rep "extras").OptDict ∧ Searchable (field snap "extras")) ∧
        rep' = Dict.put r k (newField rep src snap k) := by
  unfold mergeField newField
  split
  next hk =>
    have hmerged : mergedExtras r snap (extrasKey src) = mergedExtras rep snap (extrasKey src) := by
      unfold mergedExtras
      rw [hsame hk]
    rw [map_eq_ok]
    constructor
    · rintro ⟨block, hblock, rfl⟩
      obtain ⟨hsearch, hopt', rfl⟩ := (mergeExtras_ok (extrasKey_ne src) (hopt hk)).mp hblock
      exact ⟨fun _ => ⟨hsame hk ▸ hopt', hsearch⟩, by rw [hmerged]⟩
    · rintro ⟨hall, rfl⟩
      obtain ⟨hopt', hsearch⟩ := hall hk
      refine ⟨_, (mergeExtras_ok (extrasKey_ne src) (hopt hk)).mpr ⟨hsearch, ?_, rfl⟩, by rw [hmerged]⟩
      rw [hsame hk]
      exact hopt'
  next hk =>
    constructor
    · intro h
      exact ⟨fun he => absurd he hk, (Except.ok.inj h).symm⟩
    · rintro ⟨-, rfl⟩
      rfl

theorem field_put (r : Fields) (j k : String) (v : Json) :
    field (Dict.put r k v) j = if j = k then v else field r j := by
  unfold field
  rw [Dict.lookup_put]
  split <;> rfl

theorem foldlM_mergeField {ks : List String} {r : Fields} (hks : ks.Nodup)
    (hsame : "extras" ∈ ks → field r "extras" = field rep "extras")
    (hopt : "extras" ∈ ks → (field snap "extras").OptDict) :
    ks.foldlM (mergeField src snap) r = .ok rep' ↔
      ("extras" ∈ ks → (field rep "extras").OptDict ∧ Searchable (field snap "extras")) ∧
        rep' = ks.foldl (fun r k => Dict.put r k (newField rep src snap k)) r := by
  induction ks generalizing r with
  | nil =>
    constructor
    · intro h
      cases h
      exact ⟨nofun, rfl⟩
    · rintro ⟨-, rfl⟩
      rfl
  | cons k ks ih =>
    obtain ⟨hk, hks⟩ := List.nodup_cons.mp hks
    have hsame' : "extras" ∈ ks → field (Dict.put r k (newField rep src snap k)) "extras" =
        field rep "extras" := by
      intro hin
      have hne : "extras" ≠ k := fun he => hk (he ▸ hin)
      rw [field_put, if_neg hne]
      exact hsame (List.mem_cons_of_mem _ hin)
    have hopt' : "extras" ∈ ks → (field snap "extras").OptDict :=
      fun hin => hopt (List.mem_cons_of_mem _ hin)
    have hhead : ∀ r', mergeField src snap r k = .ok r' ↔
        (k = "extras" → (field rep "extras").OptDict ∧ Searchable (field snap "extras")) ∧
          r' = Dict.put r k (newField rep src snap k) := fun r' =>
      mergeField_ok (fun he => hsame (he ▸ List.mem_cons_self))
        fun he => hopt (he ▸ List.mem_cons_self)
    rw [List.foldlM_cons, bind_eq_ok, List.foldl_cons]
    constructor
    · rintro ⟨r', hr', hrest⟩
      obtain ⟨hall, rfl⟩ := (hhead r').mp hr'
      obtain ⟨hall', rfl⟩ := (ih hks hsame' hopt').mp hrest
      refine ⟨fun hin => ?_, rfl⟩
      rcases List.mem_cons.mp hin with he | hin
      · exact hall he.symm
      · exact hall' hin
    · rintro ⟨hall, rfl⟩
      refine ⟨_, (hhead _).mpr ⟨fun he => hall (he ▸ List.mem_cons_self), rfl⟩, ?_⟩
      exact (ih hks hsame' hopt').mpr ⟨fun hin => hall (List.mem_cons_of_mem _ hin), rfl⟩

theorem nodup_snapshotFields (src : Source) : (snapshotFields src).Nodup := by
  cases src <;> decide

theorem mergeFields_ok (hopt : "extras" ∈ snapshotFields src → (field snap "extras").OptDict) :
    (snapshotFields src).foldlM (mergeField src snap) rep = .ok rep' ↔
      ExtrasMergeable rep snap src ∧ rep' = mergedReport rep src snap :=
  foldlM_mergeField (nodup_snapshotFields src) (fun _ => rfl) hopt

end Merge

/-! ## The snapshots that are accepted -/

/-- The digest of what the node's packages are on the panel. -/
def hostDigest (env : Env κ) (server : Server κ) : String :=
  env.digest (.arr [server.swHost, server.pkgHash])

/-- The list of packages, its print and, where the job asks for them, the databases. -/
def PackagesComplete (spec : Spec) (snap : Fields) : Prop :=
  (∃ items, field snap "packages" = .arr items ∧ items ≠ []) ∧
    (∃ pkgs, field snap "pkgs" = .obj pkgs ∧ (field pkgs "h").truthy = true) ∧
    (spec.dbStats = true → (field snap "db_stats").truthy = true)

/-- The report has not changed since the job began, or not to other than the snapshot. -/
def Fresh (env : Env κ) (server : Server κ) (spec : Spec) (snap : Fields) (src : Source) : Prop :=
  some (env.digest (scope server.report src)) = spec.baseline ∨
    env.digest (scope server.report src) = env.digest (scope snap src)

def newHost (env : Env κ) (snap : Fields) : Json :=
  env.hostVersions (field snap "packages").elements

/-- The same of the packages. -/
def HostFresh (env : Env κ) (server : Server κ) (spec : Spec) (snap : Fields) : Prop :=
  ∃ base, spec.hostBaseline = some base ∧
    (hostDigest env server = base ∨
      env.digest (.arr [newHost env snap, field (field snap "pkgs").entries "h"]) =
        hostDigest env server)

/-- The snapshot is well formed, and not older than what the panel has. -/
structure Accepted (env : Env κ) (server : Server κ) (spec : Spec) (snap : Fields)
    (src : Source) : Prop where
  present : ∀ k ∈ snapshotFields src, (snap.lookup k).isSome = true
  complete : Complete env spec snap src
  extras : ExtrasMergeable server.report snap src
  fresh : Fresh env server spec snap src
  packages : src = .software → PackagesComplete spec snap
  hostFresh : src = .software → HostFresh env server spec snap

/-- The server with the fields of an accepted snapshot. -/
def merged (env : Env κ) (server : Server κ) (snap : Fields) (src : Source) : Server κ :=
  let rep := mergedReport server.report src snap
  if src = .software then
    { server with
      swHost := newHost env snap
      lastReport := some (Dict.put rep "pkgs" (field snap "pkgs")) }
  else { server with lastReport := some rep }

section Apply

variable {env : Env κ} {server server' : Server κ} {spec : Spec} {snap rep : Fields} {src : Source}

/-- What is refused when two digests both differ. -/
theorem not_both_ne {α β : Type} [DecidableEq α] [DecidableEq β] {a b : α} {c d : β} :
    (!(decide (a ≠ b) && decide (c ≠ d))) = true ↔ a = b ∨ c = d := by
  by_cases hab : a = b <;> by_cases hcd : c = d <;> simp [hab, hcd]

theorem applySoftware_ok : applySoftware env server spec snap rep = .ok server' ↔
    PackagesComplete spec snap ∧ HostFresh env server spec snap ∧
      server' = { server with
        swHost := newHost env snap
        lastReport := some (Dict.put rep "pkgs" (field snap "pkgs")) } := by
  unfold applySoftware PackagesComplete HostFresh newHost hostDigest
  simp only [bind_eq_ok, need_eq_ok]
  constructor
  · rintro ⟨_, hpackages, _, hpkgs, h, hh, _, htrue, _, hdb, hrest⟩
    obtain ⟨pkgs, hobj, rfl⟩ := get_eq_ok.mp hh
    split at hrest
    next items base harr hbase =>
      obtain ⟨_, hfresh, hserver⟩ := bind_eq_ok.mp hrest
      rw [need_eq_ok, not_both_ne] at hfresh
      have hne : items ≠ [] := by
        intro hnil
        simp [harr, hnil, Json.isList, Json.truthy] at hpackages
      refine ⟨⟨⟨items, harr, hne⟩, ⟨pkgs, hobj, htrue⟩, fun hdbs => ?_⟩, ⟨base, hbase, ?_⟩, ?_⟩
      · simpa [hdbs] using hdb
      · rw [harr, hobj]
        exact hfresh
      · rw [harr]
        exact (Except.ok.inj hserver).symm
    next => cases hrest
  · rintro ⟨⟨⟨items, harr, hne⟩, ⟨pkgs, hobj, htrue⟩, hdb⟩, ⟨base, hbase, hfresh⟩, rfl⟩
    rw [harr, hobj] at hfresh
    refine ⟨(), ?_, (), ?_, field pkgs "h", ?_, (), htrue, (), ?_, ?_⟩
    · simpa [harr, Json.isList, Json.truthy] using hne
    · rw [hobj]
      rfl
    · rw [hobj]
      rfl
    · cases hdbs : spec.dbStats with
      | false => rfl
      | true => simp [hdb hdbs]
    · rw [harr, hbase]
      dsimp only
      rw [bind_eq_ok]
      exact ⟨(), need_eq_ok.mpr (not_both_ne.mpr hfresh), rfl⟩

theorem applySnapshot_ok : applySnapshot env server spec snap = .ok server' ↔
    ∃ src, spec.source = some src ∧ Accepted env server spec snap src ∧
      server' = merged env server snap src := by
  unfold applySnapshot
  cases spec.source with
  | none => exact ⟨nofun, fun ⟨_, h, _⟩ => nomatch h⟩
  | some src =>
    simp only [bind_eq_ok, need_eq_ok, checkSource_ok, scopedSnapshot_ok, not_both_ne]
    constructor
    · rintro ⟨_, hpresent, _, hcomplete, _, ⟨hopt, rfl⟩, _, ⟨hopt', rfl⟩, _, hfresh, rep, hrep, hlast⟩
      obtain ⟨hextras, rfl⟩ := (mergeFields_ok hopt').mp hrep
      have hpresent' := List.all_eq_true.mp hpresent
      unfold merged
      split at hlast
      next hsw =>
        obtain ⟨hpackages, hhost, rfl⟩ := applySoftware_ok.mp hlast
        exact ⟨src, rfl, ⟨hpresent', hcomplete, hextras, hfresh, fun _ => hpackages, fun _ => hhost⟩,
          (if_pos hsw).symm⟩
      next hsw =>
        exact ⟨src, rfl, ⟨hpresent', hcomplete, hextras, hfresh, fun h => absurd h hsw,
          fun h => absurd h hsw⟩, (Except.ok.inj hlast).symm.trans (if_neg hsw).symm⟩
    · rintro ⟨src', hsrc, hacc, rfl⟩
      obtain rfl := Option.some.inj hsrc
      have hopt' : "extras" ∈ snapshotFields src → (field snap "extras").OptDict :=
        fun hin => (hacc.extras hin).2.optDict
      refine ⟨(), List.all_eq_true.mpr hacc.present, (), hacc.complete, _,
        ⟨fun hin => (hacc.extras hin).1, rfl⟩, _, ⟨hopt', rfl⟩, (), hacc.fresh, _,
        (mergeFields_ok hopt').mpr ⟨hacc.extras, rfl⟩, ?_⟩
      unfold merged
      dsimp only
      split
      next hsw =>
        exact applySoftware_ok.mpr ⟨hacc.packages hsw, hacc.hostFresh hsw, rfl⟩
      next => rfl

end Apply

/-! ## What `apply_snapshot` raises -/

section Raises

variable (env : Env κ) (spec : Spec) (snap : Fields)

theorem known_scopedSnapshot (rep : Fields) (src : Source) : Only Known (scopedSnapshot rep src) :=
  only_ite (fun _ => only_map (known_get _ _)) fun _ => only_ok _

theorem known_certKey (it : Json) : Only Known (certKey env it) := by
  apply only_bind (known_get _ _)
  intro kind _
  apply only_bind (known_get _ _)
  exact fun place _ => only_ok _

theorem known_checkKubeExpiry : Only Known (checkKubeExpiry env spec snap) := by
  unfold checkKubeExpiry
  split
  next certs flux _ _ =>
    apply only_bind (only_mapM fun it _ => known_certKey env it)
    exact fun texts _ => known_need _ _
  next => exact only_error nofun

theorem known_checkDocker : Only Known (checkDocker snap) := by
  unfold checkDocker
  split
  next => exact known_need _ _
  next => exact only_error nofun

theorem known_checkKube : Only Known (checkKube snap) := by
  apply only_bind (known_get _ _)
  exact fun access _ => known_need _ _

theorem known_checkChanges : Only Known (checkChanges snap) := by
  apply only_bind (known_get _ _)
  intro changes _
  apply only_bind (known_get _ _)
  intro ssh _
  apply only_bind (known_get _ _)
  intro ports _
  apply only_bind (known_need _ _)
  intro _ _
  apply only_bind (known_get _ _)
  intro pass _
  apply only_bind (known_inSet _ _)
  intro passOk _
  apply only_bind (known_need _ _)
  intro _ _
  apply only_bind (known_get _ _)
  intro root _
  apply only_bind (known_inSet _ _)
  exact fun rootOk _ => known_need _ _

theorem known_checkMem : Only Known (checkMem snap) := by
  apply only_bind (known_need _ _)
  intro _ _
  apply only_bind (known_le _ _)
  intro none_ _
  apply only_bind (known_need _ _)
  intro _ _
  apply only_bind (known_le _ _)
  intro low _
  apply only_bind (known_need _ _)
  intro _ _
  apply only_bind (known_le _ _)
  exact fun high _ => known_need _ _

theorem known_checkConntrack : Only Known (checkConntrack snap) := by
  apply only_bind (known_le _ _)
  intro none_ _
  apply only_bind (known_need _ _)
  intro _ _
  apply only_bind (known_lt _ _)
  exact fun low _ => known_need _ _

theorem known_checkSource (src : Source) : Only Known (checkSource env spec snap src) := by
  cases src with
  | kubeExpiry => exact known_checkKubeExpiry env spec snap
  | changes => exact known_checkChanges snap
  | software => exact known_checkDocker snap
  | docker => exact known_checkDocker snap
  | kube => exact known_checkKube snap
  | backup => exact known_need _ _
  | mem => exact known_checkMem snap
  | disk => exact known_need _ _
  | conntrack => exact known_checkConntrack snap
  | temp => exact known_need _ _

theorem known_mergeExtras (rep : Fields) (key : String) : Only Known (mergeExtras rep snap key) := by
  apply only_bind (known_contains _ _)
  intro has _
  split
  next => exact only_ite (fun _ => only_map (known_item _ _)) fun _ => only_ok _
  next => exact only_error nofun

theorem known_mergeField (src : Source) (rep : Fields) (k : String) :
    Only Known (mergeField src snap rep k) :=
  only_ite (fun _ => only_map (known_mergeExtras snap rep _)) fun _ => only_ok _

theorem known_applySoftware (server : Server κ) (rep : Fields) :
    Only Known (applySoftware env server spec snap rep) := by
  apply only_bind (known_need _ _)
  intro _ _
  apply only_bind (known_need _ _)
  intro _ _
  apply only_bind (known_get _ _)
  intro h _
  apply only_bind (known_need _ _)
  intro _ _
  apply only_bind (known_need _ _)
  intro _ _
  split
  next =>
    apply only_bind (known_need _ _)
    exact fun _ _ => only_ok _
  next => exact only_error nofun

/-- Whatever the snapshot is, what is raised is one of the four that `ingest` catches. -/
theorem known_applySnapshot (server : Server κ) :
    Only Known (applySnapshot env server spec snap) := by
  unfold applySnapshot
  split
  next => exact only_error nofun
  next src _ =>
    apply only_bind (known_need _ _)
    intro _ _
    apply only_bind (known_checkSource env spec snap src)
    intro _ _
    apply only_bind (known_scopedSnapshot _ _)
    intro current _
    apply only_bind (known_scopedSnapshot _ _)
    intro incoming _
    apply only_bind (known_need _ _)
    intro _ _
    apply only_bind (only_foldlM fun rep k _ => known_mergeField snap src rep k)
    intro rep _
    exact only_ite (fun _ => known_applySoftware env spec snap server rep) fun _ => only_ok _

end Raises

end Kervax.Recheck
