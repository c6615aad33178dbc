-- The list of installed packages on its way to the panel: the agent cuts it into parts
-- (`uploadPkgs`), the panel puts them together (`store_part`), and a report carries only the
-- fingerprint of the list (`want_pkgs`).
import Kervax.Packages
import Mathlib.Data.List.Nodup
import Mathlib.Data.Finset.Card

namespace Kervax.Packages

/-! ## The agent -/

def pkgChunk : Nat := 250
def pkgMaxParts : Nat := 80

/-- A package of the list: its name and its version. -/
abbrev Pkg := String × String

/-- A part as the agent sends it. -/
structure Part where
  h : String
  mgr : String
  part : Nat
  parts : Nat
  items : List (List String)
deriving DecidableEq

/-- The packages that are sent. -/
def uploaded (items : List Pkg) : List Pkg := items.take (pkgChunk * pkgMaxParts)

def partsOf (items : List Pkg) : Nat :=
  max (((uploaded items).length + pkgChunk - 1) / pkgChunk) 1

def chunk (items : List Pkg) (i : Nat) : List Pkg := ((uploaded items).drop (i * pkgChunk)).take pkgChunk

def partOf (h mgr : String) (items : List Pkg) (i : Nat) : Part :=
  { h, mgr, part := i, parts := partsOf items, items := (chunk items i).map fun x => [x.1, x.2] }

/-- `uploadPkgs`: the parts of a list under its fingerprint. -/
def uploadPkgs (h mgr : String) (items : List Pkg) : List Part :=
  (List.range (partsOf items)).map (partOf h mgr items)

/-! ## The panel -/

/-- The parts that have come of a list. -/
structure Pending where
  h : String
  parts : Nat
  mgr : String
  got : List (Nat × List Pkg)
deriving DecidableEq

/-- The row of the list, and the fingerprint at the server. -/
structure Store where
  mgr : String
  hash : String
  n : Nat
  items : List Pkg
  ts : Option Int
  pending : Option Pending
  pkgHash : String
deriving DecidableEq

def Store.new : Store := ⟨"", "", 0, [], none, none, ""⟩

/-- The row with a whole list. -/
def Store.whole (h mgr : String) (items : List Pkg) (now : Int) : Store :=
  { mgr := cut 8 mgr, hash := h, n := items.length, items, ts := some now, pending := none, pkgHash := h }

/-- The packages of a part; what is no pair is left out. -/
def pairs (items : List (List String)) : List Pkg :=
  items.filterMap fun x => match x with
    | [name, version] => some (cut 200 name, cut 200 version)
    | _ => none

/-- The parts of this list that have come so far. -/
def pendingFor (s : Store) (m : Part) : Pending :=
  match s.pending with
  | some p => if p.h = m.h ∧ p.parts = m.parts then p else ⟨m.h, m.parts, m.mgr, []⟩
  | none => ⟨m.h, m.parts, m.mgr, []⟩

/-- `store_part`; `reported` is the fingerprint of the last report. -/
def storePart (s : Store) (reported : String) (now : Int) (m : Part) : Store × Bool :=
  if reported ≠ "" ∧ reported ≠ m.h then (s, false)
  else
    let p := pendingFor s m
    let got := Dict.put p.got m.part (pairs m.items)
    if got.length < m.parts then ({ s with pending := some { p with got } }, false)
    else
      let full := (List.range m.parts).flatMap fun i => (Dict.get got i).getD []
      (Store.whole m.h m.mgr full now, true)

/-- `agent_packages`: a part whose number is too large is refused. -/
def agentPackages (s : Store) (reported : String) (now : Int) (m : Part) : Store :=
  if m.parts ≤ m.part then s else (storePart s reported now m).1

/-- `want_pkgs`: the panel asks for the list that is reported. -/
def wantPkgs (s : Store) (h : String) : Bool := h ≠ "" && cut 32 h ≠ s.pkgHash

end Kervax.Packages
