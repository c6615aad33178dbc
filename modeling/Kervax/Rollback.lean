-- The loop of `evaluate_servers` over the servers: what one server queues,
-- and the rollback of a server whose evaluation raises.
import Kervax.Journal
import Mathlib.Data.Finset.Basic
import Mathlib.Data.Finset.Image

namespace Kervax

open Journal

/-! ## The shared queues of one tick -/

/-- The lists that `one_server` appends to, but for the marks. -/
inductive Lane
  | fires | fireApply | recoveries | recApply | knownUpd | knownAdd | muteLift | kexpUpd
  | quietClosed | muteSwap | knownRemind | fixedUpd | snoozePut
deriving DecidableEq, Repr

/-- The lists that the rollback cuts. `snooze_put` is not one of them. -/
def rolledBack : List Lane :=
  [.fires, .fireApply, .recoveries, .recApply, .knownUpd, .knownAdd, .muteLift, .kexpUpd,
   .quietClosed, .muteSwap, .knownRemind, .fixedUpd]

/-- An entry of `marks`: the server, and where its part of the four lists of
messages and writes begins. -/
structure Mark where
  sid : Nat
  fires : Nat
  fireApply : Nat
  recoveries : Nat
  recApply : Nat
deriving DecidableEq, Repr

variable {V : Type}

/-- The state that the servers of one tick share. Every entry of a list stands
with the server that queued it; for the messages that is not in the source,
which reads their servers from the marks. -/
structure Tick (V : Type) where
  book : Book Lane (Nat × V)
  marks : List Mark := []
  /-- `cur_by_id`: the alert state of each server. -/
  cur : Nat → String → Option V
  changed : Finset Nat := ∅
  onboardClosed : Nat → Option (List String) := fun _ => none
  onboarding : Finset Nat := ∅
  dev : Finset Nat := ∅
  probesLeft : Nat

/-- The tick before the first server. -/
def Tick.start (cur : Nat → String → Option V) (probes : Nat) : Tick V :=
  { book := fun _ => [], cur := cur, probesLeft := probes }

/-- One thing that `one_server` does to the shared state. -/
inductive Eff (V : Type)
  | queue (lane : Lane) (v : V)
  /-- `apply(sid, key, value)`. -/
  | apply (key : String) (value : V)
  /-- `onboard_closed[s.id] = made`. -/
  | onboardClosed (made : List String)
  /-- `onboarding.add(s.id)`. -/
  | onboarding
  /-- `dev_srv.add(s.id)`. -/
  | dev
  /-- `probes_left -= 1`. -/
  | probe

/-- A server of the tick. `oneServer` says what its evaluation does, given its
alert state and the probes that are left: the effects in their order, and
whether it raised after the last of them. -/
structure Srv (V : Type) where
  id : Nat
  oneServer : (String → Option V) → Nat → List (Eff V) × Bool

def exec (sid : Nat) (t : Tick V) : Eff V → Tick V
  | .queue l v => { t with book := push t.book l (sid, v) }
  | .apply key value =>
    { t with
      cur := Function.update t.cur sid (Function.update (t.cur sid) key (some value))
      changed := insert sid t.changed }
  | .onboardClosed made =>
    { t with onboardClosed := Function.update t.onboardClosed sid (some made) }
  | .onboarding => { t with onboarding := insert sid t.onboarding }
  | .dev => { t with dev := insert sid t.dev }
  | .probe => { t with probesLeft := t.probesLeft - 1 }

/-- The mark of a server that begins now. -/
def markOf (t : Tick V) (sid : Nat) : Mark :=
  ⟨sid, (t.book .fires).length, (t.book .fireApply).length, (t.book .recoveries).length,
    (t.book .recApply).length⟩

/-- The evaluation of the server raises. -/
def raises (t : Tick V) (s : Srv V) : Bool := (s.oneServer (t.cur s.id) t.probesLeft).2

/-- What the evaluation of the server does. -/
def effects (t : Tick V) (s : Srv V) : List (Eff V) := (s.oneServer (t.cur s.id) t.probesLeft).1

/-- `one_server` on the shared state, up to its end or to the exception. -/
def evaluated (t : Tick V) (s : Srv V) : Tick V :=
  (effects t s).foldl (exec s.id) { t with marks := t.marks ++ [markOf t s.id] }

/-- One turn of the loop over the servers. -/
def step (t : Tick V) (s : Srv V) : Tick V :=
  let t' := evaluated t s
  if raises t s then
    { t' with
      book := cut rolledBack (lens t.book) t'.book
      marks := t'.marks.take t.marks.length ++ [markOf t s.id]
      cur := Function.update t'.cur s.id (t.cur s.id)
      onboardClosed := Function.update t'.onboardClosed s.id none
      changed := if s.id ∈ t.changed then t'.changed else t'.changed.erase s.id }
  else t'

/-- The whole loop. -/
def evalServers (t : Tick V) (ss : List (Srv V)) : Tick V := ss.foldl step t

/-- The servers whose evaluation does not raise. -/
def survivors (t : Tick V) : List (Srv V) → List (Srv V)
  | [] => []
  | s :: ss => if raises t s then survivors (step t s) ss else s :: survivors (step t s) ss

/-- `message_owners` for one of the two lists of messages. -/
def messageOwners (t : Tick V) (lane : Lane) (at' : Mark → Nat) : List Nat :=
  owners (t.marks.map fun m => (m.sid, at' m)) (t.book lane).length

end Kervax
