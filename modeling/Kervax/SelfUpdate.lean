-- The agent's update of itself (`selfUpdate` of `main.go`): the signed
-- manifest and its checks, the download by pieces with what earlier attempts
-- left on the disk, and the replacement of the binary.
import Kervax.Kinds
import Kervax.PadOrder
import Mathlib.Algebra.Group.Int.Defs
import Mathlib.Algebra.Group.Nat.Defs

namespace Kervax.Agent

/-! ## Versions -/

/-- `strconv.ParseUint(s, 10, 64)` from the number read so far; a number that is
too large ends the scan at the largest one. -/
def parseUint (n : Nat) : List Char → Option Nat
  | [] => some n
  | c :: cs =>
    if c.isDigit then
      if 2 ^ 64 - 1 < n * 10 + (c.toNat - '0'.toNat) then some (2 ^ 64 - 1)
      else parseUint (n * 10 + (c.toNat - '0'.toNat)) cs
    else none

/-- The sign of a number and the digits after it. -/
def signed (s : List Char) : Bool × List Char :=
  match s with
  | '-' :: cs => (true, cs)
  | '+' :: cs => (false, cs)
  | _ => (false, s)

/-- `x, _ = strconv.Atoi(s)`: zero for what is no number, and the largest or the
smallest integer for what is out of range. -/
def atoi (s : List Char) : Int :=
  let (neg, ds) := signed s
  if ds = [] then 0
  else
    match parseUint 0 ds with
    | none => 0
    | some n =>
      if neg then (if 2 ^ 63 < n then -2 ^ 63 else -(n : Int))
      else if 2 ^ 63 ≤ n then 2 ^ 63 - 1 else n

/-- The numbers of a version. -/
def versionParts (v : String) : List Int := (v.toList.splitOn '.').map atoi

/-- `versionNewer`: a part that is missing counts as zero. -/
def versionNewer (a b : String) : Bool := PadOrder.after 0 (versionParts a) (versionParts b)

/-! ## Answers of the panel -/

abbrev Bytes := List UInt8

/-- An answer to a plain request: none, or a status with the body as far as it
came; `broken` when the connection ended before the body did. -/
inductive Reply
  | failed
  | answered (status : Nat) (body : Bytes) (broken : Bool)
deriving DecidableEq, Repr

/-- `httpGetLimited`. -/
def httpGetLimited (r : Reply) (max : Nat) : Option Bytes :=
  match r with
  | .failed => none
  | .answered status body broken =>
    if status ≠ 200 then none
    else if broken ∧ body.length < max then none
    else some (body.take max)

/-- An answer to a request for a range. However a short body ended, the piece
is not whole. -/
inductive RangeReply
  | failed
  | answered (status : Nat) (contentRange : String) (body : Bytes)
deriving DecidableEq, Repr

/-- What `fetchRange` gives: the bytes that came, whether the panel knows no
ranges, and whether the piece is whole. -/
structure Piece where
  bytes : Bytes := []
  noRange : Bool := false
  whole : Bool := false
deriving DecidableEq, Repr

/-- `fetchRange` for the bytes `first..last`. -/
def fetchRange (r : RangeReply) (first last : Nat) : Piece :=
  match r with
  | .failed => {}
  | .answered status contentRange body =>
    if status ≠ 206 then { noRange := status = 200 }
    else if ¬ ("bytes " ++ toString first ++ "-").toList.isPrefixOf contentRange.toList then {}
    else
      let want := last - first + 1
      let b := body.take want
      { bytes := b, whole := b.length = want }

/-! ## The download by pieces -/

def dlChunkMax : Nat := 2 ^ 20
def dlChunkMin : Nat := 8 * 2 ^ 10
def dlFailsMax : Nat := 8
def dlAttemptsMax : Nat := 4000

/-- The largest download. -/
def dlSizeMax : Int := 128 * 2 ^ 20

/-- What the world does during one download: the answer to the `n`-th request,
for the bytes `first..last`, the answer to the request without ranges, whether the deadline has passed
before the `n`-th request, how many bytes a write that fails leaves behind, and
whether the file of the earlier attempts can be read, removed and opened. -/
structure Download where
  range : Nat → Nat → Nat → RangeReply
  whole : Reply := .failed
  late : Nat → Bool := fun _ => false
  writes : Nat → Option Nat := fun _ => none
  reads : Bool := true
  removes : Bool := true
  opens : Bool := true

/-- The variables of the loop of `httpGetChunked`, and the file beside it. -/
structure Transfer where
  buf : Bytes
  chunk : Nat := dlChunkMax
  ceiling : Nat := dlChunkMax
  fails : Nat := 0
  attempts : Nat := 0
  file : Option Bytes
  isOpen : Bool

/-- The bytes that came go to the buffer and to the file; a write that fails
closes the file. -/
def Transfer.take (s : Transfer) (b : Bytes) (wrote : Option Nat) : Transfer :=
  let s := { s with buf := s.buf ++ b }
  if b ≠ [] ∧ s.isOpen then
    match wrote with
    | none => { s with file := some (s.file.getD [] ++ b) }
    | some n => { s with file := some (s.file.getD [] ++ b.take n), isOpen := false }
  else s

/-- The loop of `httpGetChunked`, with so many attempts left: the whole download
if it came, and the file. -/
def chunkLoop (e : Download) (size : Nat) : Nat → Transfer → Option Bytes × Option Bytes
  | left, s =>
    if size ≤ s.buf.length then (some s.buf, s.file)
    else
      match left with
      | 0 => (none, s.file)
      | left + 1 =>
        if e.late s.attempts then (none, s.file)
        else
          let first := s.buf.length
          let last := min (first + s.chunk - 1) (size - 1)
          let p := fetchRange (e.range s.attempts first last) first last
          let t := { s with attempts := s.attempts + 1 }
          if p.noRange then (httpGetLimited e.whole (size + 1), s.file)
          else if p.whole then
            let t := t.take p.bytes (e.writes s.attempts)
            chunkLoop e size left
              { t with
                fails := 0
                chunk := if s.chunk < s.ceiling then min (s.chunk * 2) s.ceiling else s.chunk }
          else
            let t :=
              { t.take p.bytes (e.writes s.attempts) with
                ceiling := max dlChunkMin (s.chunk / 2), chunk := max dlChunkMin (s.chunk / 8) }
            if p.bytes ≠ [] then chunkLoop e size left { t with fails := 0 }
            else if dlFailsMax ≤ s.fails + 1 then (none, t.file)
            else chunkLoop e size left { t with fails := s.fails + 1 }

/-- The name of a file of an unfinished download: the version and the size. -/
abbrev PartName := List Char × Nat

/-- The files of unfinished downloads. -/
abbrev Parts := PartName → Option Bytes

/-- `partPath`; there is none when the path of the agent is unknown. -/
def partPath (exe : Bool) (ver : String) (size : Int) : Option PartName :=
  if exe then
    some (ver.toList.map fun c => if c.isDigit ∨ c = '.' then c else '-', size.toNat)
  else none

/-- `os.Remove`. -/
def Parts.remove (parts : Parts) : Option PartName → Parts
  | none => parts
  | some name => Function.update parts name none

/-- What the loop starts from, with the file of the earlier attempts. A file
that is too long is removed, if that works. -/
def Transfer.start (e : Download) (size : Nat) (old : Option Bytes) : Transfer :=
  let had := if e.reads then old.getD [] else []
  let buf := if had.length < size then had else []
  let file := if size ≤ had.length ∧ e.removes then none else old
  { buf, file := if e.opens then some (file.getD []) else file, isOpen := e.opens }

/-- `httpGetChunked`. -/
def httpGetChunked (e : Download) (size : Int) (name : Option PartName) (parts : Parts) :
    Option Bytes × Parts :=
  if size ≤ 0 ∨ dlSizeMax < size then (none, parts)
  else
    match name with
    | none =>
      ((chunkLoop e size.toNat dlAttemptsMax { buf := [], file := none, isOpen := false }).1, parts)
    | some name =>
      let r := chunkLoop e size.toNat dlAttemptsMax (Transfer.start e size.toNat (parts name))
      (r.1, Function.update parts name r.2)

/-! ## The signed release -/

structure Artifact where
  sha256 : String
  size : Int
deriving DecidableEq, Repr

structure Manifest where
  version : String
  releasedAt : String
  artifacts : String → Option Artifact

/-- The library functions that the update calls: the signature, the digest in
hexadecimal, the unpacking, and the readings of the manifest, of its date and
of the texts in base 64. -/
structure Libs where
  verify : Bytes → Bytes → Bytes → Bool
  sha256Hex : Bytes → String
  gunzip : Bytes → Option Bytes
  unmarshal : Bytes → Option Manifest
  parseTime : String → Option Time
  decodeSig : Bytes → Option Bytes
  decodeKey : String → Option Bytes

/-- What the build put into the agent. -/
structure Build where
  updatePubKeyB64 : String
  arch : String

/-- `otaMaxAge`. -/
def otaMaxAge : Time := sec (120 * 86400)

/-- `manifestFresh`. -/
def manifestFresh (L : Libs) (m : Manifest) (now : Time) : Bool :=
  match L.parseTime m.releasedAt with
  | none => false
  | some t => now - t ≤ otaMaxAge ∧ t - now ≤ day

/-- `gunzipLimited`. -/
def gunzipLimited (L : Libs) (gz : Bytes) (size : Int) : Option Bytes :=
  match L.gunzip gz with
  | none => none
  | some out => if (out.length : Int) = size then some out else none

/-- What the world does during one attempt to update. -/
structure Attempt where
  want : String
  now : Time
  manifest : Reply
  sig : Reply
  /-- The size that the panel gives for the packed binary, if it answers 200. -/
  head : Option Int := none
  gz : Download
  plain : Download
  /-- The path of the agent is known. -/
  exe : Bool := true
  /-- The new file was written, made executable and moved into place; the new
  process was started. -/
  write : Bool := true
  chmod : Bool := true
  rename : Bool := true
  exec : Bool := true

inductive GzError
  | noCompressed
  | broken
  | net
deriving DecidableEq, Repr

/-- `fetchCompressed`. -/
def fetchCompressed (L : Libs) (a : Attempt) (ver : String) (art : Artifact) (parts : Parts) :
    Except GzError Bytes × Parts :=
  match a.head with
  | none => (.error .noCompressed, parts)
  | some size =>
    if size ≤ 0 ∨ art.size ≤ size then (.error .noCompressed, parts)
    else
      match httpGetChunked a.gz size (partPath a.exe ver size) parts with
      | (none, parts) => (.error .net, parts)
      | (some gz, parts) =>
        let parts := parts.remove (partPath a.exe ver size)
        match gunzipLimited L gz art.size with
        | none => (.error .broken, parts)
        | some bin => (if L.sha256Hex bin = art.sha256 then .ok bin else .error .broken, parts)

/-- `downloadBinary`: the packed binary first, the plain one only if there is no
packed one or it does not fit. -/
def downloadBinary (L : Libs) (a : Attempt) (ver : String) (art : Artifact) (parts : Parts) :
    Option Bytes × Parts :=
  match fetchCompressed L a ver art parts with
  | (.ok bin, parts) => (some bin, parts)
  | (.error .net, parts) => (none, parts)
  | (.error _, parts) => httpGetChunked a.plain art.size (partPath a.exe ver art.size) parts

/-! ## The update -/

/-- Where an attempt ended without a new binary. -/
inductive UpdateError
  | manifestGet | sigGet | sigNotBase64 | badKey | badSignature | notJson | wrongVersion
  | notNewer | notFresh | noArtifact | download | badSha | badSize | place
deriving DecidableEq, Repr

/-- `isPermanent`: the errors that `selfUpdate` wraps in `permanent`. -/
def UpdateError.isPermanent : UpdateError → Bool
  | .manifestGet | .sigGet | .download | .place => false
  | _ => true

/-- `selfUpdate` up to the download: the manifest with all its checks, and the
artifact for this architecture. -/
def signedManifest (L : Libs) (b : Build) (version : String) (a : Attempt) :
    Except UpdateError (Manifest × Artifact) :=
  match httpGetLimited a.manifest (2 ^ 20) with
  | none => .error .manifestGet
  | some man =>
    match httpGetLimited a.sig (4 * 2 ^ 10) with
    | none => .error .sigGet
    | some raw =>
      match L.decodeSig raw with
      | none => .error .sigNotBase64
      | some sig =>
        match L.decodeKey b.updatePubKeyB64 with
        | none => .error .badKey
        | some pub =>
          if pub.length ≠ 32 then .error .badKey
          else if L.verify pub man sig = false then .error .badSignature
          else
            match L.unmarshal man with
            | none => .error .notJson
            | some m =>
              if m.version ≠ a.want then .error .wrongVersion
              else if versionNewer m.version version = false then .error .notNewer
              else if manifestFresh L m a.now = false then .error .notFresh
              else
                match m.artifacts b.arch with
                | none => .error .noArtifact
                | some art => .ok (m, art)

/-- What came of an attempt. -/
inductive UpdateResult
  | failed (e : UpdateError)
  | replaced (bin : Bytes) (m : Manifest)

/-- `selfUpdate`. A replaced binary runs when `exec` succeeds; the file of the
unfinished download is removed either way. -/
def selfUpdate (L : Libs) (b : Build) (version : String) (a : Attempt) (parts : Parts) :
    UpdateResult × Parts :=
  match signedManifest L b version a with
  | .error e => (.failed e, parts)
  | .ok (m, art) =>
    match downloadBinary L a m.version art parts with
    | (none, parts) => (.failed .download, parts)
    | (some bin, parts) =>
      let parts := parts.remove (partPath a.exe m.version art.size)
      if L.sha256Hex bin ≠ art.sha256 then (.failed .badSha, parts)
      else if (bin.length : Int) ≠ art.size then (.failed .badSize, parts)
      else if a.exe ∧ a.write ∧ a.chmod ∧ a.rename then (.replaced bin m, parts)
      else (.failed .place, parts)

end Kervax.Agent
