-- Where the panel may go on behalf of an account (`net_guard.py`): the class of an
-- address and of a host, and the hook that every request of a chain of redirects
-- passes.
import Kervax.ClientIp
import Kervax.IpKinds
import Kervax.Texts
import Kervax.Runs

namespace Kervax.NetGuard

open IpAddress

/-! ## Classes -/

/-- `PUBLIC`, `INTERNAL` and `FORBIDDEN`. -/
inductive Class
  | outside | internal | forbidden
deriving DecidableEq, Repr

/-- `_RANK`. -/
def Class.rank : Class → Nat
  | .outside => 0
  | .internal => 1
  | .forbidden => 2

/-- `_METADATA`: outside of the link-local ones. -/
def metadata : List Address :=
  [.v6 0xfd000ec2000000000000000000000254 none, .v4 0x646464c8]

/-- `_METADATA_NAMES`. -/
def metadataNames : List (List Char) :=
  ["metadata.google.internal".toList, "metadata".toList, "instance-data".toList,
    "instance-data.ec2.internal".toList]

def forbiddenText : String :=
  "адрес закрыт для проверок из панели (метаданные облака, link-local)"
def internalText : String := "редирект во внутреннюю сеть не выполняется"

/-- The class of an address: one that is mapped into the sixth version is the address of
the fourth that it maps. -/
def addrClass (a : Address) : Class :=
  let addr := unmapped a
  if addr ∈ metadata ∨ addr.isLinkLocal ∨ addr.isUnspecified ∨ addr.isMulticast then .forbidden
  else if addr.isLoopback ∨ addr.isPrivate ∨ addr.isReserved ∨ ¬ addr.isGlobal then .internal
  else .outside

/-- `ip_address(ip.strip("[]").split("%")[0])`. -/
def readHost (ip : List Char) : Option Address :=
  ipAddress ((Texts.stripBy (fun c => c = '[' ∨ c = ']') ip).takeWhile (· ≠ '%'))

/-- `ip_class`. -/
def ipClass (ip : List Char) : Class :=
  match readHost ip with
  | none => .outside
  | some a => addrClass a

/-- `_is_ip`. -/
def isIp (host : List Char) : Bool := (readHost host).isSome

/-! ## Hosts -/

section Hosts

-- `str.lower`
variable (lower : List Char → List Char)

/-- The class of a name by its looks: without a dot, or of an inner zone. -/
def nameClass (h : List Char) : Class :=
  if '.' ∉ h ∨ Texts.endsWith h ".local".toList ∨ Texts.endsWith h ".internal".toList ∨
      Texts.endsWith h ".localhost".toList ∨ h = "localhost".toList then
    .internal
  else .outside

def worse (a b : Class) : Class := if a.rank < b.rank then b else a

/-- The name as `host_class` compares it. -/
def normal (host : List Char) : List Char := Texts.rstripBy (· = '.') (lower (strip host))

/-- `host_class`, with what the name resolves to at that time; nothing where it does not. -/
def hostClass (host : List Char) (resolved : List (List Char)) : Class :=
  let h := normal lower host
  if h = [] then .outside
  else if isIp h then ipClass h
  else if h ∈ metadataNames then .forbidden
  else (resolved.map ipClass).foldl worse (nameClass h)

/-! ## The hook -/

/-- A request: its host, and what the name resolves to when it is asked for it. -/
structure Request where
  host : List Char
  resolved : List (List Char) := []
deriving DecidableEq, Repr

/-- The class that the hook finds. A proxy resolves names itself, so that there only the
name or the address is looked at. -/
def classify (proxy : Bool) (r : Request) : Class :=
  let cls := if isIp r.host ∨ proxy then ipClass r.host else hostClass lower r.host r.resolved
  if proxy ∧ ¬ isIp r.host ∧ Texts.rstripBy (· = '.') (lower r.host) ∈ metadataNames then .forbidden
  else cls

/-- `hook`: `state["first"]` after it, and the text of the error that it raises. -/
def hook (proxy : Bool) (first : Option Class) (r : Request) : Option Class × Option String :=
  let cls := classify lower proxy r
  let first := first.getD cls
  (some first,
    if cls = .forbidden then some forbiddenText
    else if cls = .internal ∧ first = .outside then some internalText
    else none)

/-- `state` after the requests of the chain. -/
def after (proxy : Bool) (past : List Request) : Option Class :=
  Runs.run (fun first r => (hook lower proxy first r).1) none past

/-- Every request of the chain is let through. -/
def Sent (proxy : Bool) (chain : List Request) : Prop :=
  Runs.Along (fun first r => (hook lower proxy first r).1)
    (fun first r => (hook lower proxy first r).2 = none) none chain

/-! ## What the host of a request is -/

/-- The class of the host: that of the address, or what `host_class` says of the name; of a
name that the proxy resolves, what it says without any address. -/
def classOf (proxy : Bool) (r : Request) : Class :=
  if isIp r.host then ipClass r.host
  else hostClass lower r.host (if proxy then [] else r.resolved)

end Hosts

end Kervax.NetGuard
