-- Updates that fail for a while: when a failed attempt leaves the version to
-- be tried again, and when it is refused for good.
import Kervax.Downloads
import Kervax.SelfUpdateRuns

namespace Kervax.Agent

/-! ## A release and an attempt to install it -/

/-- A release that the panel serves: its manifest and signature pass every check
but that of the clock, and its binary is the signed one. -/
structure Release (L : Libs) (b : Build) (running : String) where
  man : Bytes
  raw : Bytes
  sig : Bytes
  pub : Bytes
  m : Manifest
  art : Artifact
  bin : Bytes
  released : Time
  keyed : b.updatePubKeyB64 ≠ ""
  named : m.version ≠ ""
  manFits : man.length ≤ 2 ^ 20
  rawFits : raw.length ≤ 4 * 2 ^ 10
  base64 : L.decodeSig raw = some sig
  key : L.decodeKey b.updatePubKeyB64 = some pub
  keySize : pub.length = 32
  verified : L.verify pub man sig = true
  json : L.unmarshal man = some m
  newer : versionNewer m.version running = true
  date : L.parseTime m.releasedAt = some released
  artifact : m.artifacts b.arch = some art
  sha : L.sha256Hex bin = art.sha256
  size : (bin.length : Int) = art.size
  nonempty : 0 < art.size
  fits : art.size ≤ dlSizeMax

/-- The attempt ends in an error that is final. -/
def UpdateResult.bans : UpdateResult → Bool
  | .failed e => e.isPermanent
  | .replaced _ _ => false

/-- Both the manifest and the signature arrive. -/
def Arrives (a : Attempt) : Prop :=
  (httpGetLimited a.manifest (2 ^ 20)).isSome = true ∧
    (httpGetLimited a.sig (4 * 2 ^ 10)).isSome = true

/-- The attempt goes on to the plain binary: there is no packed one, or it does
not fit. -/
def GoesPlain (L : Libs) (a : Attempt) (ver : String) (art : Artifact) (parts : Parts) : Prop :=
  (fetchCompressed L a ver art parts).1 = .error .noCompressed ∨
    (fetchCompressed L a ver art parts).1 = .error .broken

section
variable {L : Libs} {b : Build} {running : String} (r : Release L b running)

/-- An attempt at the release whose troubles pass: what comes of the manifest and
of the signature comes from this release if both come, the clock is right when
they do, and the file of an earlier plain download is the beginning of the
binary when the attempt goes on with it. -/
structure Calm (parts : Parts) (a : Attempt) : Prop where
  want : a.want = r.m.version
  pair : Arrives a → httpGetLimited a.manifest (2 ^ 20) = some r.man ∧
    httpGetLimited a.sig (4 * 2 ^ 10) = some r.raw
  clock : Arrives a → a.now - r.released ≤ otaMaxAge ∧ r.released - a.now ≤ day
  plain : a.plain.From r.bin
  part : GoesPlain L a r.m.version r.art parts →
    PartOk r.bin a.plain (fetchCompressed L a r.m.version r.art parts).2
      (partPath a.exe r.m.version r.art.size)

/-- An attempt that nothing disturbs. -/
structure Undisturbed (parts : Parts) (a : Attempt) : Prop extends Calm r parts a where
  arrives : Arrives a
  packed : a.head = none ∨ ∃ file, a.head = some (file.length : Int) ∧ a.gz.Serves file
  serves : a.plain.Serves r.bin
  placed : a.exe = true ∧ a.write = true ∧ a.chmod = true ∧ a.rename = true
  started : a.exec = true

/-! ## One attempt -/

/-- Where no packed binary is served, the files stay as they are. -/
theorem fetchCompressed_none {a : Attempt} (h : a.head = none) (ver : String) (art : Artifact)
    (parts : Parts) : (fetchCompressed L a ver art parts).2 = parts := by
  unfold fetchCompressed
  rw [h]

/-- The packed binary is taken only if it is the signed one. -/
theorem fetchCompressed_ok {a : Attempt} {ver : String} {art : Artifact} {parts : Parts}
    {bin : Bytes} (h : (fetchCompressed L a ver art parts).1 = .ok bin) :
    L.sha256Hex bin = art.sha256 ∧ (bin.length : Int) = art.size := by
  unfold fetchCompressed at h
  split at h
  · cases h
  · split at h
    · cases h
    · split at h
      · cases h
      · dsimp only at h
        split at h
        · cases h
        · next out hout =>
          dsimp only at h
          split at h
          · next hsha =>
            obtain rfl : out = bin := by simpa using h
            unfold gunzipLimited at hout
            split at hout
            · cases hout
            · split at hout
              · next hlen =>
                cases hout
                exact ⟨hsha, hlen⟩
              · cases hout
          · cases h

/-- The four ways on from the packed download. -/
theorem downloadBinary_cases (L : Libs) (a : Attempt) (ver : String) (art : Artifact)
    (parts : Parts) :
    (∃ bin, (downloadBinary L a ver art parts).1 = some bin ∧
      (fetchCompressed L a ver art parts).1 = .ok bin) ∨
    ((downloadBinary L a ver art parts).1 = none ∧
      (fetchCompressed L a ver art parts).1 = .error .net) ∨
    (GoesPlain L a ver art parts ∧ downloadBinary L a ver art parts =
      httpGetChunked a.plain art.size (partPath a.exe ver art.size)
        (fetchCompressed L a ver art parts).2) := by
  unfold downloadBinary GoesPlain
  rcases hf : fetchCompressed L a ver art parts with ⟨res, parts'⟩
  rcases res with e | bin
  · cases e with
    | noCompressed => exact .inr (.inr ⟨.inl rfl, rfl⟩)
    | broken => exact .inr (.inr ⟨.inr rfl, rfl⟩)
    | net => exact .inr (.inl ⟨rfl, rfl⟩)
  · exact .inl ⟨bin, rfl, rfl⟩

/-- What a calm attempt downloads has the signed digest and size. -/
theorem downloadBinary_signed {parts : Parts} {a : Attempt} (h : Calm r parts a) {bin : Bytes}
    (hd : (downloadBinary L a r.m.version r.art parts).1 = some bin) :
    L.sha256Hex bin = r.art.sha256 ∧ (bin.length : Int) = r.art.size := by
  rcases downloadBinary_cases L a r.m.version r.art parts with
    ⟨bin', hb, hf⟩ | ⟨hn, -⟩ | ⟨hp, he⟩
  · rw [hd] at hb
    obtain rfl : bin = bin' := by simpa using hb
    exact fetchCompressed_ok hf
  · rw [hd] at hn
    cases hn
  · rw [he] at hd
    rw [httpGetChunked_from h.plain r.size (h.part hp) hd]
    exact ⟨r.sha, r.size⟩

/-- When both arrive, the manifest of a calm attempt passes every check. -/
theorem signedManifest_arrives {parts : Parts} {a : Attempt} (h : Calm r parts a)
    (ha : Arrives a) : signedManifest L b running a = .ok (r.m, r.art) := by
  obtain ⟨hman, hsig⟩ := h.pair ha
  apply signedManifest_iff.mpr
  exact ⟨r.man, r.raw, r.sig, r.pub,
    { manifest := hman
      sigGet := hsig
      base64 := r.base64
      key := r.key
      keySize := r.keySize
      verified := r.verified
      json := r.json
      asked := h.want.symm
      newer := r.newer
      fresh := (manifestFresh_iff L r.m a.now).mpr ⟨r.released, r.date, h.clock ha⟩
      artifact := r.artifact }⟩

/-- When one of them does not, the attempt ends there. -/
theorem signedManifest_missing (L : Libs) (b : Build) (running : String) {a : Attempt}
    (ha : ¬ Arrives a) :
    signedManifest L b running a = .error .manifestGet ∨
      signedManifest L b running a = .error .sigGet := by
  unfold signedManifest
  cases hm : httpGetLimited a.manifest (2 ^ 20) with
  | none => exact .inl rfl
  | some man =>
    cases hs : httpGetLimited a.sig (4 * 2 ^ 10) with
    | none => exact .inr rfl
    | some raw => exact absurd ⟨by rw [hm]; rfl, by rw [hs]; rfl⟩ ha

/-- `selfUpdate` after a manifest that passed. -/
theorem selfUpdate_of_ok {a : Attempt} (parts : Parts) {m : Manifest} {art : Artifact}
    (hok : signedManifest L b running a = .ok (m, art)) :
    ((downloadBinary L a m.version art parts).1 = none ∧
      (selfUpdate L b running a parts).1 = .failed .download) ∨
    ∃ bin, (downloadBinary L a m.version art parts).1 = some bin ∧
      (L.sha256Hex bin = art.sha256 → (bin.length : Int) = art.size →
        (selfUpdate L b running a parts).1 =
          if a.exe ∧ a.write ∧ a.chmod ∧ a.rename then .replaced bin m else .failed .place) := by
  unfold selfUpdate
  rw [hok]
  dsimp only
  rcases downloadBinary L a m.version art parts with ⟨got, parts'⟩
  cases got with
  | none => exact .inl ⟨rfl, rfl⟩
  | some bin =>
    refine .inr ⟨bin, rfl, ?_⟩
    intro hsha hlen
    dsimp only
    rw [if_neg (not_not.mpr hsha), if_neg (not_not.mpr hlen)]
    split <;> rfl

theorem selfUpdate_of_error {a : Attempt} {parts : Parts} {e : UpdateError}
    (herr : signedManifest L b running a = .error e) :
    (selfUpdate L b running a parts).1 = .failed e := by
  unfold selfUpdate
  rw [herr]

/-- A calm attempt installs the release or fails in a way that may pass. -/
theorem calm_attempt {parts : Parts} {a : Attempt} (h : Calm r parts a) :
    (∃ e, (selfUpdate L b running a parts).1 = .failed e ∧ e.isPermanent = false) ∨
      ∃ bin, (selfUpdate L b running a parts).1 = .replaced bin r.m := by
  by_cases ha : Arrives a
  · rcases selfUpdate_of_ok parts (signedManifest_arrives r h ha) with ⟨-, hu⟩ | ⟨bin, hd, hu⟩
    · exact .inl ⟨_, hu, rfl⟩
    · obtain ⟨hsha, hlen⟩ := downloadBinary_signed r h hd
      have hu := hu hsha hlen
      split at hu
      · exact .inr ⟨bin, hu⟩
      · exact .inl ⟨_, hu, rfl⟩
  · rcases signedManifest_missing L b running ha with hm | hm
    · exact .inl ⟨_, selfUpdate_of_error hm, rfl⟩
    · exact .inl ⟨_, selfUpdate_of_error hm, rfl⟩

/-- The packed download that nothing disturbs ends. -/
theorem fetchCompressed_ends {parts : Parts} {a : Attempt} (h : Undisturbed r parts a) :
    (fetchCompressed L a r.m.version r.art parts).1 ≠ .error .net := by
  unfold fetchCompressed
  rcases h.packed with hn | ⟨file, hs, hserve⟩
  · rw [hn]
    simp
  · rw [hs]
    dsimp only
    split
    · simp
    · next hsize =>
      have hmax := r.fits
      obtain ⟨got, hgot, -⟩ := httpGetChunked_serves (partPath a.exe r.m.version file.length)
        parts hserve rfl (by omega) (by omega)
      rcases hc : httpGetChunked a.gz (file.length : Int)
        (partPath a.exe r.m.version (file.length : Int)) parts with ⟨res, parts'⟩
      rw [hc] at hgot
      obtain rfl : res = some got := hgot
      dsimp only
      split
      · simp
      · split <;> simp

/-- An attempt that nothing disturbs installs the release. -/
theorem undisturbed_attempt {parts : Parts} {a : Attempt} (h : Undisturbed r parts a) :
    ∃ bin, (selfUpdate L b running a parts).1 = .replaced bin r.m := by
  rcases selfUpdate_of_ok parts (signedManifest_arrives r h.toCalm h.arrives) with
    ⟨hn, -⟩ | ⟨bin, hd, hu⟩
  · exfalso
    rcases downloadBinary_cases L a r.m.version r.art parts with
      ⟨bin', hb, -⟩ | ⟨-, hf⟩ | ⟨hp, he⟩
    · rw [hn] at hb
      cases hb
    · exact fetchCompressed_ends r h hf
    · obtain ⟨got, hgot, -⟩ := httpGetChunked_serves (partPath a.exe r.m.version r.art.size)
        (fetchCompressed L a r.m.version r.art parts).2 h.serves r.size r.nonempty r.fits
      rw [he, hgot] at hn
      cases hn
  · obtain ⟨hsha, hlen⟩ := downloadBinary_signed r h.toCalm hd
    refine ⟨bin, ?_⟩
    rw [hu hsha hlen, if_pos (by simpa using h.placed)]

/-! ## Runs of attempts -/

/-- The node runs the old version or the new one, and has not refused the new
one. -/
structure OnTheWay (s : Node) : Prop where
  accepts : s.rejected ≠ some r.m.version
  version : s.version = running ∨ s.version = r.m.version
  installed : s.installed = running ∨ s.installed = r.m.version

/-- Every attempt of the run is calm. Restarts and whatever happens to the files
of unfinished downloads between the attempts are not restricted. -/
def CalmEvent (s : Node) (e : Event) : Prop := ∀ a, e = .attempt a → Calm r s.parts a

/-- No attempt that the agent makes is final. -/
def NeverBans (L : Libs) (b : Build) (s : Node) (e : Event) : Prop :=
  ∀ a, e = .attempt a → tries b s a = true → (selfUpdate L b s.version a s.parts).1.bans = false

/-- An attempt at the release is made by the old version only. -/
theorem OnTheWay.old {s : Node} (h : OnTheWay r s) {a : Attempt} (hw : a.want = r.m.version)
    (ht : tries b s a = true) : s.version = running := by
  rcases h.version with hv | hv
  · exact hv
  · simp only [tries, decide_eq_true_eq] at ht
    exact absurd (hw.trans hv.symm) ht.2.2.1

theorem OnTheWay.neverBans {s : Node} (h : OnTheWay r s) {e : Event} (hc : CalmEvent r s e) :
    NeverBans L b s e := by
  rintro a rfl ht
  have ha := hc a rfl
  rw [h.old r ha.want ht]
  rcases calm_attempt r ha with ⟨e, he, hp⟩ | ⟨bin, hr⟩
  · rw [he]
    exact hp
  · rw [hr]
    rfl

theorem OnTheWay.step {s : Node} (h : OnTheWay r s) {e : Event} (hc : CalmEvent r s e) :
    OnTheWay r (step L b s e) := by
  cases e with
  | restart => exact ⟨by simp [Agent.step], h.installed, h.installed⟩
  | disk parts => exact ⟨h.accepts, h.version, h.installed⟩
  | attempt a =>
    change OnTheWay r (tryUpdate L b s a)
    have ha := hc a rfl
    unfold tryUpdate
    split
    · next ht =>
      rw [h.old r ha.want ht]
      rcases hu : selfUpdate L b running a s.parts with ⟨res, parts⟩
      have hres := calm_attempt r ha
      rw [hu] at hres
      rcases hres with ⟨e, he, hp⟩ | ⟨bin, hr⟩
      · obtain rfl : res = .failed e := he
        dsimp only
        rw [hp]
        exact ⟨h.accepts, .inl rfl, h.installed⟩
      · obtain rfl : res = .replaced bin r.m := hr
        dsimp only
        split
        · exact ⟨by simp, .inr rfl, .inr rfl⟩
        · exact ⟨h.accepts, .inl rfl, .inr rfl⟩
    · exact h

/-- An attempt that nothing disturbs ends with the new version. -/
theorem OnTheWay.lands {s : Node} (h : OnTheWay r s) {a : Attempt}
    (hu : Undisturbed r s.parts a) : (tryUpdate L b s a).version = r.m.version := by
  unfold tryUpdate
  rcases h.version with hv | hv
  · have hne : r.m.version ≠ running := by
      intro he
      have hn := r.newer
      rw [he, versionNewer_irrefl] at hn
      cases hn
    have ht : tries b s a = true := by
      simp only [tries, decide_eq_true_eq, hu.want, hv]
      exact ⟨r.keyed, r.named, hne, h.accepts⟩
    rw [if_pos ht, hv]
    rcases hs : selfUpdate L b running a s.parts with ⟨res, parts⟩
    obtain ⟨bin, hr⟩ := undisturbed_attempt r hu
    rw [hs] at hr
    obtain rfl : res = .replaced bin r.m := hr
    dsimp only
    rw [if_pos hu.started]
  · have ht : ¬ tries b s a = true := by
      simp [tries, hu.want, hv]
    rw [if_neg ht]
    exact hv

end

/-- In every run of calm attempts at a release no attempt is final, and an
attempt that nothing disturbs then ends with the new version. -/
theorem trouble_passes (L : Libs) (b : Build) (running : String) (r : Release L b running)
    (s : Node) (hs : s.version = running ∧ s.installed = running ∧ s.rejected = none)
    (es : List Event) (hes : Runs.Along (step L b) (CalmEvent r) s es) :
    Runs.Along (step L b) (NeverBans L b) s es ∧
      ∀ a, Undisturbed r (Runs.run (step L b) s es).parts a →
        (Runs.run (step L b) s (es ++ [.attempt a])).version = r.m.version := by
  have h0 : OnTheWay r s := ⟨by simp [hs.2.2], .inl hs.1, .inl hs.2.1⟩
  constructor
  · exact Runs.step_of_run h0 (fun s e h hc => h.step r hc) (fun s e h hc => h.neverBans r hc) hes
  · intro a ha
    have hend : OnTheWay r (Runs.run (step L b) s es) :=
      Runs.inv_run h0 (fun s e h hc => h.step r hc) hes
    rw [Runs.run_snoc]
    exact hend.lands r ha

/-! ## A release of three bytes -/

/-- The SHA-256 of the bytes 1, 2, 3. -/
def shaText : String := "039058c6f2c0cb492c533b0a4d14ef77cc0f78abccced5287d84a1a2011cfb81"

/-- The manifest of version 2.67, released on 2026-10-01, with one artifact of
three bytes for amd64, as JSON. -/
def manBytes : Bytes :=
  [123, 34, 118, 101, 114, 115, 105, 111, 110, 34, 58, 34, 50, 46, 54, 55, 34, 44, 34, 114, 101,
   108, 101, 97, 115, 101, 100, 95, 97, 116, 34, 58, 34, 50, 48, 50, 54, 45, 49, 48, 45, 48, 49,
   84, 48, 48, 58, 48, 48, 58, 48, 48, 90, 34, 44, 34, 97, 114, 116, 105, 102, 97, 99, 116, 115,
   34, 58, 123, 34, 97, 109, 100, 54, 52, 34, 58, 123, 34, 115, 104, 97, 50, 53, 54, 34, 58, 34,
   48, 51, 57, 48, 53, 56, 99, 54, 102, 50, 99, 48, 99, 98, 52, 57, 50, 99, 53, 51, 51, 98, 48,
   97, 52, 100, 49, 52, 101, 102, 55, 55, 99, 99, 48, 102, 55, 56, 97, 98, 99, 99, 99, 101, 100,
   53, 50, 56, 55, 100, 56, 52, 97, 49, 97, 50, 48, 49, 49, 99, 102, 98, 56, 49, 34, 44, 34, 115,
   105, 122, 101, 34, 58, 51, 125, 125, 125]

def keyText : String := "J9cf67LCVHzFbO37iRoAIHGecK9KD7wfeqZ1C0+hSc0="

def keyBytes : Bytes :=
  [39, 215, 31, 235, 178, 194, 84, 124, 197, 108, 237, 251, 137, 26, 0, 32, 113, 158, 112, 175,
   74, 15, 188, 31, 122, 166, 117, 11, 79, 161, 73, 205]

/-- The signature of `manBytes` under `keyBytes`. -/
def sigBytes : Bytes :=
  [30, 10, 118, 222, 78, 218, 231, 104, 13, 228, 188, 241, 75, 40, 60, 137, 126, 238, 50, 223, 91,
   158, 178, 242, 39, 247, 23, 253, 185, 139, 249, 4, 120, 218, 32, 201, 184, 27, 100, 204, 238,
   121, 72, 162, 200, 17, 83, 48, 18, 46, 240, 66, 41, 52, 212, 35, 175, 152, 104, 35, 82, 46,
   235, 10]

/-- The signature in base 64. -/
def rawBytes : Bytes :=
  [72, 103, 112, 50, 51, 107, 55, 97, 53, 50, 103, 78, 53, 76, 122, 120, 83, 121, 103, 56, 105,
   88, 55, 117, 77, 116, 57, 98, 110, 114, 76, 121, 74, 47, 99, 88, 47, 98, 109, 76, 43, 81, 82,
   52, 50, 105, 68, 74, 117, 66, 116, 107, 122, 79, 53, 53, 83, 75, 76, 73, 69, 86, 77, 119, 69,
   105, 55, 119, 81, 105, 107, 48, 49, 67, 79, 118, 109, 71, 103, 106, 85, 105, 55, 114, 67, 103,
   61, 61]

def smallArtifact : Artifact := ⟨shaText, 3⟩

def smallManifest : Manifest :=
  ⟨"2.67", "2026-10-01T00:00:00Z", fun arch => if arch = "amd64" then some smallArtifact else none⟩

/-- The library on the texts of this release. -/
def smallLibs : Libs where
  verify pub man sig := pub == keyBytes && man == manBytes && sig == sigBytes
  sha256Hex b := if b = [1, 2, 3] then shaText else ""
  gunzip _ := none
  unmarshal man := if man = manBytes then some smallManifest else none
  parseTime s := if s = "2026-10-01T00:00:00Z" then some (sec 1790812800) else none
  decodeSig raw := if raw = rawBytes then some sigBytes else none
  decodeKey s := if s = keyText then some keyBytes else none

def smallBuild : Build := ⟨keyText, "amd64"⟩

def smallRelease : Release smallLibs smallBuild "2.66" where
  man := manBytes
  raw := rawBytes
  sig := sigBytes
  pub := keyBytes
  m := smallManifest
  art := smallArtifact
  bin := [1, 2, 3]
  released := sec 1790812800
  keyed := by decide
  named := by decide
  manFits := by decide +kernel
  rawFits := by decide +kernel
  base64 := by decide +kernel
  key := by decide +kernel
  keySize := by decide
  verified := by decide +kernel
  json := by simp [smallLibs]
  newer := by decide +kernel
  date := by decide +kernel
  artifact := by decide +kernel
  sha := by decide +kernel
  size := by decide
  nonempty := by decide
  fits := by decide

/-- An attempt at the release, at a time of the node's clock. -/
def smallAttempt (now : Time) : Attempt where
  want := "2.67"
  now := now
  manifest := .answered 200 manBytes false
  sig := .answered 200 rawBytes false
  gz := { range := fun _ _ _ => .failed }
  plain := { range := fun _ first last => served [1, 2, 3] first last }

theorem smallAttempt_from (now : Time) : (smallAttempt now).plain.From [1, 2, 3] where
  range _ _ _ _ _ := List.take_prefix _ _
  whole := trivial

/-- An answer with the whole file. -/
theorem Reply.from_whole (file : Bytes) : Reply.From file (.answered 200 file false) :=
  fun _ => ⟨List.prefix_refl file, fun _ => rfl⟩

/-- A node with the old version. -/
def oldNode : Node := { version := "2.66", binary := [0], installed := "2.66" }

/-- An attempt whose download is cut after two bytes, and then out of time. -/
def cutAttempt : Attempt :=
  { smallAttempt (sec 1790812800) with
    plain :=
      { range := fun _ first _ =>
          .answered 206 ("bytes " ++ toString first ++ "-2/3") (([1, 2, 3].drop first).take 2)
        late := fun n => 0 < n } }

theorem cutAttempt_calm : Calm smallRelease (fun _ => none) cutAttempt where
  want := rfl
  pair _ := by decide +kernel
  clock _ := by decide
  plain := ⟨fun _ _ _ _ _ => List.take_prefix _ _, trivial⟩
  part _ n old _ hp := by cases hp

/-- The node after the attempt that was cut. -/
def cutNode : Node := Runs.run (step smallLibs smallBuild) oldNode [.attempt cutAttempt]

/-- The two bytes are kept. -/
theorem cutNode_part : cutNode.parts ("2.67".toList, 3) = some [1, 2] := by decide +kernel

theorem smallAttempt_calm : Undisturbed smallRelease cutNode.parts (smallAttempt (sec 1790812800)) where
  want := rfl
  pair _ := by decide +kernel
  clock _ := by decide
  plain := smallAttempt_from _
  part _ n old hn hp _ _ := by
    have hname : partPath true "2.67" 3 = some ("2.67".toList, 3) := by decide +kernel
    obtain rfl : ("2.67".toList, 3) = n := Option.some.inj (hname.symm.trans hn)
    rw [fetchCompressed_none rfl, cutNode_part] at hp
    obtain rfl : [1, 2] = old := Option.some.inj hp
    exact ⟨[3], rfl⟩
  arrives := by
    constructor <;> decide +kernel
  packed := .inl rfl
  serves := ⟨fun _ _ _ => rfl, fun _ => rfl⟩
  placed := by decide
  started := rfl

/-- The first attempt is cut, and the second one goes on from the two bytes and installs. -/
theorem trouble_passes_small :
    Runs.Along (step smallLibs smallBuild) (NeverBans smallLibs smallBuild) oldNode
        [.attempt cutAttempt] ∧
      (Runs.run (step smallLibs smallBuild) oldNode
        ([.attempt cutAttempt] ++ [.attempt (smallAttempt (sec 1790812800))])).version = "2.67" := by
  have h := trouble_passes smallLibs smallBuild "2.66" smallRelease oldNode ⟨rfl, rfl, rfl⟩
    [.attempt cutAttempt] ⟨by rintro a ⟨⟩; exact cutAttempt_calm, trivial⟩
  exact ⟨h.1, h.2 (smallAttempt (sec 1790812800)) smallAttempt_calm⟩

/-- A clock that is two days behind makes the release one of the future, and the
version is refused for good. -/
theorem a_wrong_clock_bans_a_version :
    ¬ ∀ (L : Libs) (b : Build) (running : String) (r : Release L b running) (parts : Parts)
      (a : Attempt), a.want = r.m.version → a.manifest.From r.man → a.sig.From r.raw →
      a.plain.From r.bin → (selfUpdate L b running a parts).1.bans = false := by
  intro h
  have hbans := h smallLibs smallBuild "2.66" smallRelease (fun _ => none)
    (smallAttempt (sec 1790640000)) rfl (Reply.from_whole manBytes)
    (Reply.from_whole rawBytes) (smallAttempt_from _)
  exact absurd hbans (by decide +kernel)

end Kervax.Agent
