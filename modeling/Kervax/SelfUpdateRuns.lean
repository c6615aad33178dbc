-- Runs of updates on one node: only a signed and newer binary takes the
-- place of the agent, and no run comes back to an earlier version.
import Kervax.Runs
import Kervax.SelfUpdate

namespace Kervax.Agent

/-! ## The order of versions -/

theorem versionNewer_irrefl (v : String) : versionNewer v v = false :=
  PadOrder.after_irrefl 0 _

theorem versionNewer_asymm {v w : String} (h : versionNewer v w = true) :
    versionNewer w v = false :=
  PadOrder.after_asymm 0 h

theorem versionNewer_trans {u v w : String} (h : versionNewer u v = true)
    (h' : versionNewer v w = true) : versionNewer u w = true :=
  PadOrder.after_trans 0 h h'

/-- Neither of two versions is newer. -/
def SameAge (v w : String) : Prop := versionNewer v w = false ∧ versionNewer w v = false

theorem sameAge_iff (v w : String) :
    SameAge v w ↔ PadOrder.pad 0 (versionParts v) = PadOrder.pad 0 (versionParts w) :=
  PadOrder.neither_after 0

theorem SameAge.trans {u v w : String} (h : SameAge u v) (h' : SameAge v w) : SameAge u w := by
  rw [sameAge_iff] at *
  exact h.trans h'

/-- `"2.9"` is older than `"2.10"`, and a part that is no number is a zero. -/
example : versionNewer "2.10" "2.9" = true ∧ versionNewer "2.10.beta" "2.10.0" = false := by
  decide +kernel

/-! ## What an attempt installs -/

/-- The binary of a manifest that the attempt was right to install. -/
structure Signed (L : Libs) (b : Build) (running : String) (a : Attempt) (bin : Bytes)
    (m : Manifest) : Prop where
  verified : ∃ man raw sig pub, httpGetLimited a.manifest (2 ^ 20) = some man ∧
    httpGetLimited a.sig (4 * 2 ^ 10) = some raw ∧ L.decodeSig raw = some sig ∧
    L.decodeKey b.updatePubKeyB64 = some pub ∧ L.verify pub man sig = true ∧
    L.unmarshal man = some m
  asked : m.version = a.want
  newer : versionNewer m.version running = true
  fresh : ∃ t, L.parseTime m.releasedAt = some t ∧ a.now - t ≤ otaMaxAge ∧ t - a.now ≤ day
  artifact : ∃ art, m.artifacts b.arch = some art ∧ L.sha256Hex bin = art.sha256 ∧
    (bin.length : Int) = art.size

theorem manifestFresh_iff (L : Libs) (m : Manifest) (now : Time) :
    manifestFresh L m now = true ↔
      ∃ t, L.parseTime m.releasedAt = some t ∧ now - t ≤ otaMaxAge ∧ t - now ≤ day := by
  unfold manifestFresh
  cases L.parseTime m.releasedAt <;> simp

/-- A manifest that passed. -/
structure Passed (L : Libs) (b : Build) (running : String) (a : Attempt) (man raw sig pub : Bytes)
    (m : Manifest) (art : Artifact) : Prop where
  manifest : httpGetLimited a.manifest (2 ^ 20) = some man
  sigGet : httpGetLimited a.sig (4 * 2 ^ 10) = some raw
  base64 : L.decodeSig raw = some sig
  key : L.decodeKey b.updatePubKeyB64 = some pub
  keySize : pub.length = 32
  verified : L.verify pub man sig = true
  json : L.unmarshal man = some m
  asked : m.version = a.want
  newer : versionNewer m.version running = true
  fresh : manifestFresh L m a.now = true
  artifact : m.artifacts b.arch = some art

theorem signedManifest_iff {L : Libs} {b : Build} {running : String} {a : Attempt} {m : Manifest}
    {art : Artifact} :
    signedManifest L b running a = .ok (m, art) ↔
      ∃ man raw sig pub, Passed L b running a man raw sig pub m art := by
  constructor
  · intro h
    unfold signedManifest at h
    split at h
    · cases h
    next man hman =>
    split at h
    · cases h
    next raw hraw =>
    split at h
    · cases h
    next sig hsig =>
    split at h
    · cases h
    next pub hpub =>
    split at h
    · cases h
    next hlen =>
    split at h
    · cases h
    next hver =>
    split at h
    · cases h
    next m' hm =>
    split at h
    · cases h
    next hask =>
    split at h
    · cases h
    next hnew =>
    split at h
    · cases h
    next hfresh =>
    split at h
    · cases h
    next art' hart =>
    obtain ⟨rfl, rfl⟩ : m' = m ∧ art' = art := by simpa using h
    exact ⟨man, raw, sig, pub, hman, hraw, hsig, hpub, by simpa using hlen, by simpa using hver, hm,
      by simpa using hask, by simpa using hnew, by simpa using hfresh, hart⟩
  · rintro ⟨man, raw, sig, pub, h⟩
    have hn : versionNewer a.want running = true := h.asked ▸ h.newer
    unfold signedManifest
    rw [h.manifest, h.sigGet]
    simp [h.base64, h.key, h.keySize, h.verified, h.json, h.asked, h.fresh, h.artifact, hn]

/-- Whatever the panel, the network and the disk did, a binary that was put in
place is the signed one. -/
theorem selfUpdate_replaced {L : Libs} {b : Build} {running : String} {a : Attempt}
    {parts parts' : Parts} {bin : Bytes} {m : Manifest}
    (h : selfUpdate L b running a parts = (.replaced bin m, parts')) :
    Signed L b running a bin m := by
  unfold selfUpdate at h
  split at h
  · cases h
  next m' art hman =>
  split at h
  · cases h
  next bin' parts'' hbin =>
  dsimp only at h
  split at h
  · cases h
  next hsha =>
  split at h
  · cases h
  next hsize =>
  split at h
  · obtain ⟨⟨rfl, rfl⟩, -⟩ : (bin' = bin ∧ m' = m) ∧ _ := by simpa using h
    obtain ⟨man, raw, sig, pub, hp⟩ := signedManifest_iff.mp hman
    exact
      { verified := ⟨man, raw, sig, pub, hp.manifest, hp.sigGet, hp.base64, hp.key, hp.verified,
          hp.json⟩
        asked := hp.asked
        newer := hp.newer
        fresh := (manifestFresh_iff L m' a.now).mp hp.fresh
        artifact := ⟨art, hp.artifact, by simpa using hsha, by simpa using hsize⟩ }
  · cases h

/-! ## Runs -/

/-- A node: the version that runs, the binary on the disk and the version it was
signed as, the version refused for good, and the files of unfinished
downloads. -/
structure Node where
  version : String
  binary : Bytes
  installed : String
  rejected : Option String := none
  parts : Parts := fun _ => none

/-- What happens to a node: an attempt to update, a restart of the agent, and
whatever befalls the files of unfinished downloads. -/
inductive Event
  | attempt (a : Attempt)
  | restart
  | disk (parts : Parts)

/-- The agent's loop tries no update without a key, none to its own version,
and none that it refused for good. -/
def tries (b : Build) (s : Node) (a : Attempt) : Bool :=
  b.updatePubKeyB64 ≠ "" ∧ a.want ≠ "" ∧ a.want ≠ s.version ∧ s.rejected ≠ some a.want

/-- What the agent's loop makes of an attempt. A new process starts with nothing
refused. -/
def tryUpdate (L : Libs) (b : Build) (s : Node) (a : Attempt) : Node :=
  if tries b s a then
    match selfUpdate L b s.version a s.parts with
    | (.failed e, parts) =>
      { s with parts, rejected := if e.isPermanent then some a.want else s.rejected }
    | (.replaced bin m, parts) =>
      if a.exec then { version := m.version, binary := bin, installed := m.version, parts }
      else { s with binary := bin, installed := m.version, parts }
  else s

/-- One step of a node. -/
def step (L : Libs) (b : Build) (s : Node) : Event → Node
  | .attempt a => tryUpdate L b s a
  | .restart => { s with version := s.installed, rejected := none }
  | .disk parts => { s with parts }

/-- An attempt leaves the binary alone or installs a signed one. -/
theorem tryUpdate_cases (L : Libs) (b : Build) (s : Node) (a : Attempt) :
    ((tryUpdate L b s a).binary = s.binary ∧ (tryUpdate L b s a).installed = s.installed ∧
      (tryUpdate L b s a).version = s.version) ∨
    ∃ m, Signed L b s.version a (tryUpdate L b s a).binary m ∧
      (tryUpdate L b s a).installed = m.version ∧
      ((tryUpdate L b s a).version = m.version ∨ (tryUpdate L b s a).version = s.version) := by
  unfold tryUpdate
  split
  · split
    · exact .inl ⟨rfl, rfl, rfl⟩
    · next bin m parts h =>
      have hs := selfUpdate_replaced h
      refine .inr ⟨m, ?_⟩
      split
      · exact ⟨hs, rfl, .inl rfl⟩
      · exact ⟨hs, rfl, .inr rfl⟩
  · exact .inl ⟨rfl, rfl, rfl⟩

/-- A step that changes the binary on the disk installs a signed one. -/
def InstallsSigned (L : Libs) (b : Build) (s : Node) (e : Event) : Prop :=
  ((step L b s e).binary = s.binary ∧ (step L b s e).installed = s.installed) ∨
    ∃ a m, e = .attempt a ∧ Signed L b s.version a (step L b s e).binary m ∧
      (step L b s e).installed = m.version

theorem step_installs (L : Libs) (b : Build) (s : Node) (e : Event) : InstallsSigned L b s e := by
  cases e with
  | restart => exact .inl ⟨rfl, rfl⟩
  | disk parts => exact .inl ⟨rfl, rfl⟩
  | attempt a =>
    rcases tryUpdate_cases L b s a with ⟨hb, hi, -⟩ | ⟨m, hs, hi, -⟩
    · exact .inl ⟨hb, hi⟩
    · exact .inr ⟨a, m, rfl, hs, hi⟩

/-- The same version or a newer one. -/
def NotOlder (v w : String) : Prop := v = w ∨ versionNewer v w = true

theorem NotOlder.trans {u v w : String} (h : NotOlder u v) (h' : NotOlder v w) : NotOlder u w := by
  rcases h with rfl | h
  · exact h'
  · rcases h' with rfl | h'
    · exact .inr h
    · exact .inr (versionNewer_trans h h')

/-- The binary on the disk is not older than the one that runs. -/
def Ready (s : Node) : Prop := NotOlder s.installed s.version

/-- One step keeps the node ready and its version does not go back. -/
theorem step_forward {L : Libs} {b : Build} {s : Node} (h : Ready s) (e : Event) :
    Ready (step L b s e) ∧ NotOlder (step L b s e).version s.version := by
  cases e with
  | restart => exact ⟨.inl rfl, h⟩
  | disk parts => exact ⟨h, .inl rfl⟩
  | attempt a =>
    change Ready (tryUpdate L b s a) ∧ NotOlder (tryUpdate L b s a).version s.version
    unfold Ready
    rcases tryUpdate_cases L b s a with ⟨-, hi, hv⟩ | ⟨m, hs, hi, hv | hv⟩
    · rw [hi, hv]
      exact ⟨h, .inl rfl⟩
    · rw [hi, hv]
      exact ⟨.inl rfl, .inr hs.newer⟩
    · rw [hi, hv]
      exact ⟨.inr hs.newer, .inl rfl⟩

theorem run_ready {L : Libs} {b : Build} {s : Node} (h : Ready s) (es : List Event) :
    Ready (Runs.run (step L b) s es) := by
  induction es generalizing s with
  | nil => exact h
  | cons e es ih => exact ih (step_forward h e).1

theorem run_forward {L : Libs} {b : Build} {s : Node} (h : Ready s) (es : List Event) :
    NotOlder (Runs.run (step L b) s es).version s.version := by
  induction es generalizing s with
  | nil => exact .inl rfl
  | cons e es ih =>
    obtain ⟨hr, hv⟩ := step_forward (L := L) (b := b) h e
    exact (ih hr).trans hv

/-- In every run of updates, whatever the panel, the network and the disk do,
the binary is replaced by signed and newer ones only; `versionNewer` is a
strict weak order; and the version that runs never goes back. -/
theorem updates_move_forward (L : Libs) (b : Build) :
    (∀ s es, Runs.Along (step L b) (InstallsSigned L b) s es) ∧
    (∀ s es fs, s.installed = s.version →
      NotOlder (Runs.run (step L b) s (es ++ fs)).version (Runs.run (step L b) s es).version) ∧
    (∀ v, versionNewer v v = false) ∧
    (∀ v w, versionNewer v w = true → versionNewer w v = false) ∧
    (∀ u v w, versionNewer u v = true → versionNewer v w = true → versionNewer u w = true) ∧
    (∀ u v w, SameAge u v → SameAge v w → SameAge u w) := by
  refine ⟨?_, ?_, versionNewer_irrefl, fun _ _ => versionNewer_asymm,
    fun _ _ _ => versionNewer_trans, fun _ _ _ => SameAge.trans⟩
  · intro s es
    induction es generalizing s with
    | nil => trivial
    | cons e es ih => exact ⟨step_installs L b s e, ih _⟩
  · intro s es fs h
    have hr := run_ready (L := L) (b := b) (s := s) (.inl h) es
    have hrun : Runs.run (step L b) s (es ++ fs) =
        Runs.run (step L b) (Runs.run (step L b) s es) fs := by
      simp [Runs.run]
    rw [hrun]
    exact run_forward hr fs

end Kervax.Agent
