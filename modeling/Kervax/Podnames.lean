-- The workload of a pod (`podnames.py`), from what the agent says of it or from the suffixes
-- that Kubernetes puts behind its name.
import Kervax.Texts
import Kervax.Dict

namespace Kervax.Podnames

abbrev Text := List Char

/-- The alphabet of the generated suffixes. -/
def alphabet : Text := "bcdfghjklmnpqrstvwxz2456789".toList

/-- `$` also stands before a line end at the end. -/
def core (name : Text) : Text := if name.getLast? = some '\n' then name.dropLast else name

/-- What stands before the last dash, when what is behind it is such a suffix. -/
def cutSuffix (p : Text → Bool) (name : Text) : Option Text :=
  match Texts.lastOf '-' name with
  | some i => if p (name.drop (i + 1)) then some (name.take i) else none
  | none => none

def generated (least most : Nat) (s : Text) : Bool :=
  least ≤ s.length && s.length ≤ most && s.all (· ∈ alphabet)

def number (s : Text) : Bool := s ≠ [] && s.all Char.isDigit

/-- `.+`. -/
def named (s : Text) : Bool := s ≠ [] && '\n' ∉ s

/-- `_FROM_DEPLOYMENT`, `_FROM_DAEMONSET`, `_FROM_STATEFULSET`. -/
def fromDeployment (name : Text) : Option Text :=
  ((cutSuffix (generated 5 5) (core name)).bind (cutSuffix (generated 6 10))).filter named
def fromDaemonset (name : Text) : Option Text :=
  (cutSuffix (generated 5 5) (core name)).filter named
def fromStatefulset (name : Text) : Option Text := (cutSuffix number (core name)).filter named

/-- What stands before the first separator, and behind it. -/
def before (c : Char) (s : Text) : Text := s.takeWhile (· ≠ c)
def behind (c : Char) (s : Text) : Text := (s.dropWhile (· ≠ c)).tail

def workload (name ctrl : Text) : Text :=
  if '/' ∈ ctrl then behind '/' ctrl
  else (((fromDeployment name).or (fromDaemonset name)).or (fromStatefulset name)).getD name

/-- A pod of a report; what is missing is empty. -/
structure Pod where
  ns : Text := []
  name : Text := []
  ctrl : Text := []

def ctrls (pods : List Pod) : List (Text × Text) :=
  (pods.filter fun p => p.name ≠ [] ∧ p.ctrl ≠ []).foldl (fun out p =>
    Dict.put out ("pod:".toList ++ (if p.ns = [] then ['?'] else p.ns) ++ '/' :: p.name) p.ctrl) []

def podKey (key ctrl : Text) : Text :=
  if "pod:".toList.isPrefixOf key then
    "pod:".toList ++ before '/' (key.drop 4) ++ '/' :: workload (behind '/' (key.drop 4)) ctrl
  else key

def muted (keys : List Text) (key : Text) : Bool :=
  key ∈ keys || "pod:".toList.isPrefixOf key &&
    (podKey key [] ∈ keys ||
      keys.any fun k => "pod:".toList.isPrefixOf k && podKey k [] = podKey key [])

/-- The pods of a rollout have one workload. -/
example : workload "mail-worker-6b8b56c769-f4k8m".toList [] = "mail-worker".toList := by
  decide +kernel

end Kervax.Podnames
