-- What `mem_trend.py` reads from a report: whose memory is known, who is
-- there, whether a list is complete, and how much memory a node has left.
import Kervax.Kinds
import Kervax.Dict
import Mathlib.Algebra.Group.Int.Defs
import Mathlib.Algebra.Group.Nat.Defs

namespace Kervax.Mem

/-! ## The report -/

/-- A Docker container. A row that is no object, or has no name, has the empty
name here. -/
structure Container where
  name : String
  state : String
  mem : Int
  image : String := ""
deriving DecidableEq, Repr

/-- The metrics of a pod from the cluster. -/
structure Usage where
  mem : Int
  ts : Option Time
deriving DecidableEq, Repr

structure Pod where
  ns : String := ""
  name : String
  owner : String
  image : String := ""
  phase : String := ""
  node : String := ""
  uid : String := ""
  mem : Int := 0
  use : Option Usage := none
deriving DecidableEq, Repr

/-- A process of the top by private memory. -/
structure Proc where
  comm : String
  user : String := ""
  rss : Int
  shared : Int := 0
deriving DecidableEq, Repr

/-- A node of the cluster: its memory, what of it is used, and since when. A
number that is none stands as `none`. -/
structure WorkerNode where
  name : String
  cap : Option Int
  used : Option Int
  ts : Option Time
deriving DecidableEq, Repr

/-- The block of a container runtime or of a cluster: whether the list could be
read, the list (`none` when it is no list) and the mark that it is complete. -/
structure Block (α : Type) where
  access : Bool
  items : Option (List α)
  complete : Option Bool

structure Report where
  agentVersion : String := ""
  hostname : String := ""
  docker : Option (Block Container) := none
  kube : Option (Block Pod) := none
  nodes : List WorkerNode := []
  topMem : List Proc := []
  memTotal : Option Int := none
  memUsed : Option Int := none

/-! ## Keys -/

inductive KeyKind
  | docker
  | pod
  | proc
deriving DecidableEq, Repr

/-- `"docker:<name>"`, `"pod:<ns>/<name>"`, `"proc:<comm>@<user>"`. -/
structure Key where
  kind : KeyKind
  name : String
deriving DecidableEq, Repr

def KeyKind.text : KeyKind → String
  | .docker => "docker"
  | .pod => "pod"
  | .proc => "proc"

def Key.text (k : Key) : String := k.kind.text ++ ":" ++ k.name

/-- `x or "?"`. -/
def orUnknown (s : String) : String := if s = "" then "?" else s

def Container.key (c : Container) : Key := ⟨.docker, c.name⟩
def Pod.key (p : Pod) : Key := ⟨.pod, orUnknown p.ns ++ "/" ++ p.name⟩
def Proc.key (p : Proc) : Key := ⟨.proc, p.comm ++ "@" ++ orUnknown p.user⟩

/-- `_BUFFER_POOL`. -/
def bufferPool : List String := ["mysql", "mariadb", "percona", "clickhouse", "mongo"]

/-- `_cache_db`: one of the words stands in the name. -/
def cacheDb (name : String) : Bool :=
  bufferPool.any fun w => name.toLower.toList.tails.any fun t => w.toList.isPrefixOf t

/-- `_POD_OWNERS`. -/
def podOwners : List String := ["Deployment", "StatefulSet", "ReplicaSet", "DaemonSet"]

/-! ## Samples and members -/

/-- A megabyte. -/
def mb : Int := 2 ^ 20

/-- The rows of a block that was read as a list. -/
def Block.rows {α : Type} (b : Option (Block α)) : List α := (b.bind Block.items).getD []

/-- The memory of a pod: its own reading, else the metrics of the cluster. -/
def Pod.memory (p : Pod) : Int := if p.mem ≠ 0 then p.mem else (p.use.map Usage.mem).getD 0

/-- A pod whose memory is judged. -/
def Pod.judged (p : Pod) : Bool := podOwners.contains p.owner && p.name ≠ "" && p.image = ""

def addContainer (out : List (Key × Int)) (c : Container) : List (Key × Int) :=
  if c.state = "running" ∧ c.name ≠ "" ∧ mb ≤ c.mem ∧ cacheDb c.image = false then
    Dict.put out c.key (c.mem / mb)
  else out

def addPod (out : List (Key × Int)) (p : Pod) : List (Key × Int) :=
  if p.judged ∧ mb ≤ p.memory then Dict.put out p.key (p.memory / mb) else out

/-- The largest of the processes of one name. -/
def addProc (out : List (Key × Int)) (p : Proc) : List (Key × Int) :=
  let own := (p.rss - p.shared) / mb
  if p.comm ≠ "" ∧ cacheDb p.comm = false ∧ 0 < own ∧ (out.lookup p.key).getD 0 < own then
    Dict.put out p.key own
  else out

/-- `targets`: the memory now, in megabytes. -/
def targets (rep : Report) : List (Key × Int) :=
  let docker := if rep.docker.any Block.access then Block.rows rep.docker else []
  rep.topMem.foldl addProc ((Block.rows rep.kube).foldl addPod (docker.foldl addContainer []))

/-- What `members` gives for a key: for a pod its row, for the others only that
they are there. -/
abbrev Member := Option Pod

/-- `members`: who is there, with or without a sample. -/
def members (rep : Report) : List (Key × Member) :=
  let containers := (Block.rows rep.docker).foldl (fun out c =>
    if c.name ≠ "" ∧ c.state = "running" ∧ cacheDb c.image = false then
      Dict.put out c.key none else out) ([] : List (Key × Member))
  let pods := (Block.rows rep.kube).foldl (fun out p =>
    if p.judged ∧ (p.phase = "" ∨ p.phase = "Running") then
      Dict.put out p.key (some p) else out) containers
  rep.topMem.foldl (fun out p =>
    if p.comm ≠ "" ∧ cacheDb p.comm = false then Dict.put out p.key none else out) pods

/-- The row of a pod that is there. -/
def podOf (rep : Report) (k : Key) : Option Pod := ((members rep).lookup k).bind id

/-- `key in members(rep)`. -/
def isMember (rep : Report) (k : Key) : Bool := ((members rep).lookup k).isSome

/-- A full list proves absence: the marker says so, or an old agent read a list
that is neither empty nor cut. -/
def Block.full {α : Type} (b : Option (Block α)) (named : α → Bool) (legacy : List α → Bool) :
    Bool :=
  match b with
  | none => false
  | some b =>
    match b.access, b.items with
    | true, some items =>
      if items.all named then
        match b.complete with
        | some mark => mark
        | none => legacy items
      else false
    | _, _ => false

/-- `inventory_complete`; the top of the processes is never complete. -/
def inventoryComplete (rep : Report) : KeyKind → Bool
  | .docker => Block.full rep.docker (fun c => c.name ≠ "") fun items =>
      rep.agentVersion = "2.61" ∧ items ≠ []
  | .pod => Block.full rep.kube (fun p => p.name ≠ "") fun items =>
      rep.agentVersion = "2.61" ∧ items ≠ [] ∧ items.length < 400
  | .proc => false

/-- `SAMPLE_MAX_AGE`. -/
def sampleMaxAge : Time := sec 180

/-- A time stamp of the cluster that is recent. -/
def recent (ts : Option Time) (now : Time) : Bool :=
  ts.any fun t => -sec 60 ≤ now - t ∧ now - t ≤ sampleMaxAge

/-- `_sample_fresh`. -/
def sampleFresh (rep : Report) (k : Key) (now : Time) : Bool :=
  if (targets rep).lookup k = none then false
  else if k.kind ≠ .pod then true
  else
    match podOf rep k with
    | none => false
    | some p => 0 < p.mem ∨ recent (p.use.bind Usage.ts) now

/-- The sample of a key that counts. -/
def sample (rep : Report) (k : Key) (now : Time) : Option Int :=
  if sampleFresh rep k now then (targets rep).lookup k else none

/-! ## The memory left -/

/-- `_budget`. -/
def budget (total used : Option Int) : Option Int :=
  match total, used with
  | some t, some u => if 0 < t ∧ 0 ≤ u ∧ u ≤ t then some (t - u) else none
  | _, _ => none

/-- `_node_budget`: the first row of the node whose numbers are good and recent. -/
def nodeBudget (rep : Report) (node : String) (now : Time) : Option Int :=
  rep.nodes.findSome? fun n =>
    if n.name = node ∧ recent n.ts now then budget n.cap n.used else none

/-- Whose memory it is. -/
inductive Pool
  | node (name : String)
  | host
  | unknown (k : Key)
deriving DecidableEq, Repr

/-- `_pool`: the memory that a key lives in, and how much of it is left. -/
def pool (rep : Report) (k : Key) (now : Time) : Pool × Option Int :=
  if k.kind ≠ .pod then
    match if rep.hostname ≠ "" then nodeBudget rep rep.hostname now else none with
    | some free => (.node rep.hostname, some free)
    | none => (.host, budget rep.memTotal rep.memUsed)
  else
    let node := ((podOf rep k).map Pod.node).getD ""
    if node = "" then (.unknown k, none) else (.node node, nodeBudget rep node now)

/-- What every put keeps, the targets have. -/
theorem targets_induct (P : List (Key × Int) → Prop) (h0 : P []) (rep : Report)
    (hput : ∀ d k v, P d → 0 < v → P (Dict.put d k v)) : P (targets rep) := by
  have hfold {β : Type} (add : List (Key × Int) → β → List (Key × Int))
      (hadd : ∀ d b, P d → P (add d b)) (bs : List β) (d : List (Key × Int)) (hd : P d) :
      P (bs.foldl add d) := by
    induction bs generalizing d with
    | nil => exact hd
    | cons b bs ih => exact ih _ (hadd d b hd)
  have hmb {n : Int} (h : mb ≤ n) : 0 < n / mb := by
    unfold mb at h ⊢
    omega
  unfold targets
  apply hfold
  · intro d p hd
    unfold addProc
    dsimp only
    split
    · next h => exact hput _ _ _ hd h.2.2.1
    · exact hd
  · apply hfold
    · intro d p hd
      unfold addPod
      split
      · next h => exact hput _ _ _ hd (hmb h.2)
      · exact hd
    · apply hfold
      · intro d c hd
        unfold addContainer
        split
        · next h => exact hput _ _ _ hd (hmb h.2.2.1)
        · exact hd
      · exact h0

theorem nodup_targets (rep : Report) : (Dict.keys (targets rep)).Nodup :=
  targets_induct (fun d => (Dict.keys d).Nodup) List.nodup_nil rep fun _ k v hd _ =>
    Dict.nodup_put hd k v

/-- A sample is a megabyte at least. -/
theorem targets_pos {rep : Report} {k : Key} {v : Int} (h : (targets rep).lookup k = some v) :
    0 < v := by
  refine targets_induct (fun d => ∀ p ∈ d, 0 < p.2) (by simp) rep ?_ (k, v)
    (Dict.mem_of_lookup h)
  intro d k v hd hv p hp
  rcases Dict.mem_put hp with hp | rfl
  · exact hd p hp
  · exact hv

end Kervax.Mem
