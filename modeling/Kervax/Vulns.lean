-- The packages of a server against the database of fixes (`vulns.py`, `match`): one row
-- for each source package that is behind, and one for the running kernel. Names and
-- versions are ASCII texts, scores are rationals.
import Kervax.Dict
import Kervax.Dpkg
import Mathlib.Algebra.Order.Ring.Unbundled.Rat
import Mathlib.Data.List.Sort
import Mathlib.Data.String.Basic
import Mathlib.Algebra.Order.Ring.Int

namespace Kervax.Vulns

open Dpkg (vercmp ShortEpoch)

/-! ## The database -/

/-- A CVE of the database: id, priority, score. -/
abbrev Item := String × String × ℚ

structure Fix where
  src : String
  fixed : String
  items : List Item

structure KernelFix where
  src : String
  rx : String
  fixed : String
  items : List Item

structure Feed where
  pkgs : List (String × List Fix)
  kernel : List KernelFix
  kev : List String

structure Cve where
  id : String
  prio : String
  cvss : ℚ
  kev : Bool

/-- A row of the answer. -/
structure Found where
  src : String
  pkgs : List (String × String)
  fixed : String
  kernel : Bool
  cves : List Cve
  pro : Bool

/-- The keys of `by_src`; `running` is the key `\0kernel`, which no source has. -/
inductive RowKey
  | source (name : String)
  | running
  deriving DecidableEq

/-- The rows while they are built. -/
abbrev Rows := List (RowKey × Found)

/-! ## The kernel that runs -/

def isNumber (c : Char) : Bool := c.isDigit || c = '.'
def isFlavor (c : Char) : Bool := c.isAlphanum || c = '_' || c = '-'

/-- `$` also stands before a newline at the end. -/
def dropNewline (s : List Char) : List Char := if s.getLast? = some '\n' then s.dropLast else s

/-- The group of numbers and ABI; with no flavor after it the last digit is the flavor. -/
def runFrom (numbers abi flavor : List Char) : Option (List Char) :=
  if numbers = [] then none
  else if flavor = [] then
    if 2 ≤ abi.length then some (numbers ++ '-' :: abi.dropLast) else none
  else if abi ≠ [] ∧ flavor.all isFlavor then some (numbers ++ '-' :: abi)
  else none

/-- The first group of `re.match(r"^([\d.]+-\d+)[-\w]+$", kernel)`. -/
def runOf (kernel : List Char) : Option (List Char) :=
  match kernel.dropWhile isNumber with
  | '-' :: rest =>
    runFrom (kernel.takeWhile isNumber) (rest.takeWhile Char.isDigit)
      (dropNewline (rest.dropWhile Char.isDigit))
  | _ => none

def archNames : List String :=
  ["riscv", "raspi", "allwinner", "starfive", "xilinx", "armadaxp", "ti-omap", "nvidia-tegra",
    "bluefield"]

/-- `_ARCH_KERNEL.search`. -/
def archKernel (s : List Char) : Bool := archNames.any fun name => name.toList <:+: s

/-- The fixes that name the kernel that runs; `matches rx kernel` says that the expression
`rx` compiles and matches at the start of `kernel`. -/
def kernelHits (rxMatches : String → String → Bool) (feed : Feed) (kernel : String)
    (run : List Char) : List KernelFix :=
  feed.kernel.filter fun k =>
    !(archKernel k.src.toList && !archKernel (kernel.toList.drop run.length)) &&
      rxMatches k.rx kernel

/-! ## The rows -/

/-- `_cves`; the set of the ids already seen is that of `cves`. -/
def addCves (kev : List String) (cves : List Cve) (items : List Item) : List Cve :=
  items.foldl (fun out i =>
    if i.1 ∈ out.map Cve.id then out else out ++ [⟨i.1, i.2.1, i.2.2, i.1 ∈ kev⟩]) cves

/-- `by_src.setdefault(key, fresh)`, and what is then changed in that row. -/
def upsert (key : RowKey) (fresh : Found) (change : Found → Option Found) (rows : Rows) :
    Option Rows :=
  (change ((rows.lookup key).getD fresh)).map fun f => Dict.put rows key f

/-- The greater of two fixing versions, and the CVEs of both. -/
def raise (kev : List String) (fixed : String) (items : List Item) (f : Found) : Option Found :=
  (vercmp fixed.toList f.fixed.toList).map fun d : Int =>
    { f with fixed := if 0 < d then fixed else f.fixed, cves := addCves kev f.cves items }

/-- An installed package and a fix that it is looked up in. -/
structure Candidate where
  name : String
  ver : String
  fix : Fix

def fixesOf (feed : Feed) (name : String) : List Fix := (feed.pkgs.lookup name).getD []

/-- The packages in turn, each with its fixes; a row of fewer than two is skipped. -/
def candidates (feed : Feed) (items : List (List String)) : List Candidate :=
  items.flatMap fun it =>
    match it with
    | name :: ver :: _ => (fixesOf feed name).map fun fix => ⟨name, ver, fix⟩
    | _ => []

def withPkg (name ver : String) (f : Found) : Found :=
  { f with pkgs := if (name, ver) ∈ f.pkgs then f.pkgs else f.pkgs ++ [(name, ver)] }

def pkgTurn (kev : List String) (rows : Rows) (c : Candidate) : Option Rows :=
  (vercmp c.ver.toList c.fix.fixed.toList).bind fun d =>
    if 0 ≤ d then some rows
    else
      upsert (.source c.fix.src) ⟨c.fix.src, [], c.fix.fixed, false, [], false⟩
        (fun f => raise kev c.fix.fixed c.fix.items (withPkg c.name c.ver f)) rows

def withSrc (src : String) (f : Found) : Found :=
  { f with src := if src.length < f.src.length then src else f.src }

def kernelTurn (kev : List String) (kernel : String) (run : List Char) (rows : Rows)
    (k : KernelFix) : Option Rows :=
  (vercmp run k.fixed.toList).bind fun d =>
    if 0 ≤ d then some rows
    else
      upsert .running ⟨k.src, [("uname", kernel)], k.fixed, true, [], false⟩
        (fun f => raise kev k.fixed k.items (withSrc k.src f)) rows

/-! ## The answer -/

/-- `_PRIO_RANK.get(prio, 9)`. -/
def prioRank (prio : String) : Int :=
  ((["critical", "high", "medium", "low", "negligible"].idxOf? prio).map Int.ofNat).getD 9

def cveKey (c : Cve) : Bool ×ₗ Int ×ₗ ℚ ×ₗ String :=
  toLex (!c.kev, toLex (prioRank c.prio, toLex (-c.cvss, c.id)))

/-- `_sort_key`. -/
def sortKey (f : Found) : Int ×ₗ ℚ ×ₗ String :=
  toLex (((f.cves.map fun c => prioRank c.prio - if c.kev then 10 else 0).min?).getD 9,
    toLex (-((f.cves.map Cve.cvss).max?).getD 0, f.src))

def close (f : Found) : Found :=
  { f with
    pro := "esm".toList <:+: f.fixed.toList
    cves := f.cves.insertionSort fun a b => cveKey a ≤ cveKey b }

def answer (rows : Rows) : List Found :=
  (rows.map fun r => close r.2).insertionSort fun a b => sortKey a ≤ sortKey b

def pkgRows (feed : Feed) (items : List (List String)) : Option Rows :=
  (candidates feed items).foldlM (pkgTurn feed.kev) []

def kernelRows (rxMatches : String → String → Bool) (feed : Feed) (kernel : String)
    (rows : Rows) : Option Rows :=
  match runOf kernel.toList with
  | none => some rows
  | some run =>
    (kernelHits rxMatches feed kernel run).foldlM (kernelTurn feed.kev kernel run) rows

/-- `match`; `none` where a comparison raises. -/
def matchFeed (rxMatches : String → String → Bool) (feed : Option Feed)
    (items : List (List String)) (kernel : String) : Option (List Found) :=
  match feed with
  | none => some []
  | some feed =>
    ((pkgRows feed items).bind (kernelRows rxMatches feed kernel)).map answer

end Kervax.Vulns
