-- Ports that were listened on for weeks and are gone (`listen_watch.py`): the history of
-- each port and which are told, without the texts. Times are microseconds.
import Kervax.Dict
import Kervax.Texts
import Mathlib.Data.List.Sort
import Mathlib.Data.String.Basic
import Mathlib.Algebra.Order.Ring.Int

namespace Kervax.ListenWatch

/-! ## The report -/

def minutes (n : Int) : Int := n * 60 * 1000000
def days (n : Int) : Int := n * 86400 * 1000000

/-- `STABLE`, `GONE`, `FORGET`, `RESET`, `STEP`. -/
def stable : Int := days 7
def gone : Int := minutes 15
def forget : Int := days 7
def reset : Int := days 1
def step : Int := minutes 5
def truncated : Nat := 150
def ephemeral : Int := 32768

def skipProcs : List String :=
  ["docker-proxy", "kube-proxy", "containerd", "containerd-shim", "rootlessport"]

/-- A row of `listen`; a port that is no number counts as zero. -/
structure Socket where
  p : String
  port : Int

structure Report where
  now : Int
  listen : Option (List Socket)
  /-- The processes by port, of `extras.changes.listen`. -/
  procs : List (String × String)

def keyOf (port : Int) : String := "tcp:" ++ toString port

def procOf (r : Report) (port : Int) : String := (r.procs.lookup (toString port)).getD ""

/-- A TCP port below the dynamic ones that no container proxy holds. -/
def counted (r : Report) (s : Socket) : Bool :=
  "tcp".toList.isPrefixOf s.p.toList && 0 < s.port && s.port < ephemeral &&
    procOf r s.port ∉ skipProcs

/-- `current`: the ports that are listened on, with their processes. -/
def current (r : Report) : Option (List (String × String)) :=
  r.listen.map fun sockets => (sockets.filter (counted r)).foldl (fun out s =>
    Dict.put out (keyOf s.port) (if procOf r s.port ≠ "" then procOf r s.port
      else (out.lookup (keyOf s.port)).getD "")) []

/-! ## The history -/

structure Entry where
  first : Int
  last : Int
  proc : String
  miss : Option Int
  deriving DecidableEq

abbrev History := List (String × Entry)

/-- A port that the list does not name; on a truncated list nothing is known of it. -/
def missed (full : Bool) (now : Int) (e : Entry) : Option Entry :=
  if forget < now - e.last then none
  else some { e with miss := if full then some (e.miss.getD now) else none }

/-- A port that the list names; its `last` is written no more often than `STEP`. -/
def sighted (o : Option Entry) (proc : String) (now : Int) : Entry :=
  match o with
  | none => ⟨now, now, proc, none⟩
  | some e =>
    if e.miss = none ∧ now - e.last < step ∧ (proc = "" ∨ proc = e.proc) then e
    else
      { first := if e.miss.all fun m => now - m < reset then e.first else now
        last := now
        proc := if proc ≠ "" then proc else e.proc
        miss := none }

def full (r : Report) : Bool := (r.listen.getD []).length < truncated

/-- `update`; without a list the history stays. -/
def update (old : History) (r : Report) : History :=
  match current r with
  | none => old
  | some cur =>
    cur.foldl (fun new x => Dict.put new x.1 (sighted (old.lookup x.1) x.2 r.now))
      (Dict.choose (fun k e => if k ∈ Dict.keys cur then none else missed (full r) r.now e) old)

/-! ## What is told -/

structure Problem where
  key : String
  port : String
  proc : String
  deriving DecidableEq

/-- The port has been gone for `GONE`, and had been listened on for `STABLE`. -/
def lost (e : Entry) (now : Int) : Bool :=
  e.miss.any fun miss => gone ≤ now - miss && stable ≤ e.last - e.first

def portOf (key : String) : String := String.ofList (Texts.afterFirst [':'] key.toList)

def muted (mutes : List String) (key : String) : Bool := "listen:" ++ portOf key ∈ mutes

def problems (st : History) (mutes : List String) (now : Int) : List Problem :=
  ((st.insertionSort fun a b => a.1 ≤ b.1).filter fun kv =>
    lost kv.2 now && !muted mutes kv.1).map fun kv => ⟨kv.1, portOf kv.1, kv.2.proc⟩

end Kervax.ListenWatch
