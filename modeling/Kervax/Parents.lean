-- What depends on what (`parents.py`): the server that a monitor stands on, found by
-- unambiguous signs only, and the servers that stand behind one another.
import Kervax.ClientIp
import Kervax.Dict
import Kervax.Chains
import Kervax.Texts
import Kervax.Runs

namespace Kervax.Parents

/-! ## Hosts and domains -/

/-- Of Python's library, on which nothing here depends: `str.lower`, and the `hostname`
of `urlparse`, none too where `urlparse` raises. -/
structure Library where
  lower : List Char → List Char
  hostname : List Char → Option (List Char)

inductive CheckType
  | http | push | dns | address
deriving DecidableEq, Repr

inductive Mode
  | auto | server | off
deriving DecidableEq, Repr

/-- The columns of a monitor that are read. -/
structure Check where
  target : List Char := []
  type : CheckType := .http
  probeLocal : Bool := false
  probeServerId : Option Nat := none
  parentMode : Mode := .auto
  parentServerId : Option Nat := none
deriving DecidableEq, Repr

def schemeEnd : List Char := [':', '/', '/']

/-- `s.strip(".")`. -/
def stripDots (s : List Char) : List Char := Texts.stripBy (· = '.') s

/-- `target_host`. -/
def targetHost (py : Library) (c : Check) : List Char :=
  let target := py.lower (strip c.target)
  if target = [] ∨ c.type = .push ∨ c.type = .dns then []
  else if c.type = .http then
    let url := if Texts.fromEach schemeEnd target = [] then "http://".toList ++ target else target
    stripDots ((py.hostname url).getD [])
  else
    let t := (Texts.afterLast schemeEnd target).takeWhile (· ≠ '/')
    if t.head? = some '[' then (t.drop 1).takeWhile (· ≠ ']')
    else if 1 < t.count ':' then t
    else stripDots (t.takeWhile (· ≠ ':'))

/-- `norm_domain`. -/
def normDomain (py : Library) (raw : List Char) : List Char :=
  let d := Texts.rstripBy (· = '.') (py.lower (strip raw))
  ((Texts.afterFirst schemeEnd d).takeWhile (· ≠ '/')).takeWhile (· ≠ ':')

/-- `_is_ip`. -/
def isIp (host : List Char) : Bool := (IpAddress.ipAddress host).isSome

/-! ## The index -/

/-- The columns of a server that are read; `sites` are those of its `web_services`. -/
structure Server where
  id : Nat
  name : String := ""
  parentId : Option Nat := none
  externalIp : List Char := []
  agentIp : List Char := []
  sites : List (List Char) := []
deriving DecidableEq, Repr

/-- The server serves the domain: it is one of its sites, and a plain name. -/
def Server.serves (py : Library) (s : Server) (d : List Char) : Bool :=
  decide (d ≠ [] ∧ '*' ∉ d ∧ d.head? ≠ some '~') && s.sites.any fun raw => normDomain py raw = d

/-- The address is one of the server's outer ones. -/
def Server.owns (s : Server) (ip : List Char) : Bool :=
  decide (ip ≠ []) && isIp ip && decide (ip = strip s.externalIp ∨ ip = strip s.agentIp)

/-- `Index`: sets are lists without repetition, and an absent key is the empty set. -/
structure Index where
  names : List (Nat × String)
  domains : List Char → List Nat
  ips : List Char → List Nat
  resolved : List Char → List (List Char)

/-- The ids of the servers that meet `p`. -/
def idsWhere (servers : List Server) (p : Server → Bool) : List Nat :=
  ((servers.filter p).map Server.id).dedup

/-- The index of the servers, with what the names resolve to. -/
def index (py : Library) (servers : List Server) (resolved : List Char → List (List Char)) :
    Index where
  names := servers.map fun s => (s.id, s.name)
  domains d := idsWhere servers fun s => s.serves py d
  ips ip := idsWhere servers fun s => s.owns ip
  resolved := resolved

def Index.has (idx : Index) (pid : Nat) : Bool := idx.names.any fun n => n.1 = pid

/-! ## The parents of a monitor -/

/-- Where a parent comes from. -/
inductive Why
  | local | site | ip | manual
deriving DecidableEq, Repr

/-- The one element of a set of one. -/
def only : List Nat → Option Nat
  | [a] => some a
  | _ => none

/-- `_dns_owner`: the server that has all addresses of the domain to itself. -/
def dnsOwner (host : List Char) (idx : Index) : Option Nat :=
  let ips := idx.resolved host
  if ips = [] ∨ ∃ ip ∈ ips, only (idx.ips ip) = none then none
  else only (ips.flatMap idx.ips).dedup

/-- `parents_of`. -/
def parentsOf (py : Library) (c : Check) (idx : Index) : List (Nat × Why) :=
  match c.parentMode with
  | .off => []
  | .server => (c.parentServerId.filter idx.has).toList.map fun pid => (pid, .manual)
  | .auto =>
    match (c.probeServerId.filter fun pid => c.probeLocal && idx.has pid) with
    | some pid => [(pid, .local)]
    | none =>
      let host := targetHost py c
      if host = [] then []
      else if isIp host then (only (idx.ips host)).toList.map fun pid => (pid, .ip)
      else
        match (dnsOwner host idx).filter fun o => idx.domains host ≠ [o] with
        -- the name leads elsewhere than the config says, or no config is seen
        | some owner => [(owner, .ip)]
        | none => (only (idx.domains host)).toList.map fun pid => (pid, .site)

/-! ## Servers behind servers -/

/-- `would_cycle`: along the chain from the new parent, none when the steps run out. -/
def wouldCycle (steps serverId parentId : Nat) (parentOf : List (Nat × Nat)) : Option Bool :=
  Chains.walk (fun a => parentOf.lookup a) steps [serverId] (some parentId)

/-- The servers of the panel, by their ids. -/
structure Fleet where
  servers : List Server := []
  nodup : (servers.map Server.id).Nodup := by decide

def Fleet.ids (f : Fleet) : List Nat := f.servers.map Server.id

/-- Of each server the one it stands behind. The ids begin at one, so that `if p` drops
only what stands behind nothing. -/
def Fleet.chain (f : Fleet) : List (Nat × Nat) :=
  f.servers.filterMap fun s => s.parentId.map fun p => (s.id, p)

/-- The rows changed but for their ids. -/
def Fleet.mapRows (f : Fleet) (g : Server → Server) (hg : ∀ s, (g s).id = s.id) : Fleet where
  servers := f.servers.map g
  nodup := by
    have : Server.id ∘ g = Server.id := funext hg
    rw [List.map_map, this]
    exact f.nodup

def Fleet.setParent (f : Fleet) (id : Nat) (p : Option Nat) : Fleet :=
  f.mapRows (fun s => if s.id = id then { s with parentId := p } else s) fun s => by
    split <;> rfl

/-- `parent_id` put to NULL where the deleted server stood. -/
def Fleet.orphan (f : Fleet) (id : Nat) : Fleet :=
  f.mapRows (fun s => if s.parentId = some id then { s with parentId := none } else s) fun s => by
    split <;> rfl

def Fleet.remove (f : Fleet) (id : Nat) : Fleet where
  servers := f.servers.filter fun s => s.id ≠ id
  nodup := f.nodup.sublist (List.filter_sublist.map _)

def Fleet.insert (f : Fleet) (s : Server) : Fleet :=
  if h : s.id ∈ f.ids then f
  else
    { servers := f.servers ++ [{ s with parentId := none }]
      nodup := by
        rw [List.map_append, List.nodup_append]
        refine ⟨f.nodup, by simp, ?_⟩
        intro a ha b hb
        obtain rfl : b = s.id := by simpa using hb
        exact fun hab => h (hab ▸ ha) }

/-- What is done to the servers: a server is put behind another or behind none, added
or deleted. -/
inductive Edit
  | link (server parent : Nat)
  | unlink (server : Nat)
  | add (server : Server)
  | delete (server : Nat)

/-- The edit as the API does it: a parent is another server of the panel, and what
closes the chain is refused. -/
def edited (f : Fleet) : Edit → Fleet
  | .link id p =>
    if id ∈ f.ids ∧ p ∈ f.ids ∧ p ≠ id ∧
        wouldCycle (f.chain.length + 2) id p f.chain = some false then
      f.setParent id (some p)
    else f
  | .unlink id => f.setParent id none
  | .add s => f.insert s
  | .delete id => (f.remove id).orphan id

end Kervax.Parents
