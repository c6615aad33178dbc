-- The restarts of a container or a pod (`restarts.py`): the growth of its counter as
-- events of the last day, each with what is known of the end it came from.
import Kervax.Kinds
import Mathlib.Algebra.BigOperators.Group.List.Basic
import Mathlib.Algebra.GroupWithZero.Nat

namespace Kervax.Restarts

/-! ## The newest of each class -/

section Newest
variable {α : Type} (p : α → Bool)

/-- From the head on, so many of those that meet `p` and so many of the others. -/
def keepFirst : Nat → Nat → List α → List α
  | _, _, [] => []
  | n, m, e :: es =>
    if p e then
      match n with
      | 0 => keepFirst 0 m es
      | n + 1 => e :: keepFirst n m es
    else
      match m with
      | 0 => keepFirst n 0 es
      | m + 1 => e :: keepFirst n m es

variable {p}

theorem keepFirst_sublist (n m : Nat) (l : List α) : (keepFirst p n m l).Sublist l := by
  fun_induction keepFirst p n m l with
  | case1 n m => exact .slnil
  | case2 m e es he ih => exact ih.cons e
  | case3 m e es he n ih => exact ih.cons_cons e
  | case4 n e es he ih => exact ih.cons e
  | case5 n e es he m ih => exact ih.cons_cons e

/-- Those that meet `p` are left out only for others of them. -/
theorem filter_keepFirst (n m : Nat) (l : List α) :
    (keepFirst p n m l).filter p = (l.filter p).take n := by
  fun_induction keepFirst p n m l with
  | case1 n m => simp
  | case2 m e es he ih => simp [he, ih]
  | case3 m e es he n ih => simp [he, ih]
  | case4 n e es he ih => simp [he, ih]
  | case5 n e es he m ih => simp [he, ih]

theorem filter_not_keepFirst (n m : Nat) (l : List α) :
    (keepFirst p n m l).filter (!p ·) = (l.filter (!p ·)).take m := by
  fun_induction keepFirst p n m l with
  | case1 n m => simp
  | case2 m e es he ih => simp [he, ih]
  | case3 m e es he n ih => simp [he, ih]
  | case4 n e es he ih => simp [he, ih]
  | case5 n e es he m ih => simp [he, ih]

/-- The same from the end of the list. -/
def keepLast (p : α → Bool) (n m : Nat) (l : List α) : List α := (keepFirst p n m l.reverse).reverse

theorem keepLast_sublist (n m : Nat) (l : List α) : (keepLast p n m l).Sublist l := by
  have h := (keepFirst_sublist (p := p) n m l.reverse).reverse
  rwa [List.reverse_reverse] at h

theorem reverse_take_reverse (n : Nat) (l : List α) : (l.reverse.take n).reverse = lastN n l := by
  rw [List.take_reverse, List.reverse_reverse, lastN]

theorem filter_keepLast (n m : Nat) (l : List α) :
    (keepLast p n m l).filter p = lastN n (l.filter p) := by
  rw [keepLast, List.filter_reverse, filter_keepFirst, List.filter_reverse, reverse_take_reverse]

theorem filter_not_keepLast (n m : Nat) (l : List α) :
    (keepLast p n m l).filter (!p ·) = lastN m (l.filter (!p ·)) := by
  rw [keepLast, List.filter_reverse, filter_not_keepFirst, List.filter_reverse,
    reverse_take_reverse]

theorem lastN_eq_self {n : Nat} {l : List α} (h : l.length ≤ n) : lastN n l = l := by
  rw [lastN, Nat.sub_eq_zero_of_le h, List.drop_zero]

/-- A list with few enough of each class stays as it is. -/
theorem keepLast_eq_self {n m : Nat} {l : List α} (hn : (l.filter p).length ≤ n)
    (hm : (l.filter (!p ·)).length ≤ m) : keepLast p n m l = l := by
  apply (keepLast_sublist n m l).eq_of_length
  have hsplit : ∀ l : List α, l.length = (l.filter p).length + (l.filter (!p ·)).length :=
    fun l => by rw [← List.countP_eq_length_filter, ← List.countP_eq_length_filter,
      List.length_eq_countP_add_countP p]; simp
  rw [hsplit, hsplit l, filter_keepLast, filter_not_keepLast, lastN_eq_self hn, lastN_eq_self hm]

end Newest

/-! ## How a run of a pod ended -/

/-- `last`: how the last run of a pod ended. Text that is missing is empty, and 0 is a
finish time that is not known. -/
structure Record where
  c : String := ""
  r : String := ""
  x : Int := 0
  t : Int := 0
  lim : String := ""
  probe : String := ""
  pmsg : String := ""
  log : String := ""
  msg : String := ""
deriving DecidableEq, Repr

/-- What `re.I` takes for one letter. -/
def foldCase (c : Char) : Char :=
  if c = 'İ' ∨ c = 'ı' then 'i' else if c = 'ſ' then 's' else if c = 'K' then 'k' else c.toLower

/-- `_NODE_SIGNS`: the words of a pod that fell with its node. -/
def nodeSigns : List String :=
  ["leader election", "leaderelection", "lease", "context deadline exceeded", "client.timeout",
    "awaiting headers", "request canceled", "i/o timeout", "tls handshake timeout"]

def hasNodeSign (line : String) : Bool :=
  nodeSigns.any fun w => (line.toList.map foldCase).tails.any fun t => w.toList.isPrefixOf t

inductive CauseKind
  | unknown | oom | probe | exit0 | crash
deriving DecidableEq, Repr

/-- `cause`, without its text. -/
def cause : Option Record → CauseKind
  | none => .unknown
  | some l =>
    if l.r = "OOMKilled" then .oom
    else if l.probe ≠ "" then .probe
    else if l.x = 0 ∧ (l.r = "Completed" ∨ l.r = "") ∧
        hasNodeSign (if l.msg ≠ "" then l.msg else l.log) = false then .exit0
    else .crash

/-! ## `step` -/

/-- `WINDOW`, `_KEEP`. -/
def window : Time := sec 86400
def keep : Nat := 60

/-- An event: when the growth was seen, how much, and for a pod how the run ended. An old
event and one of a container say nothing of that. -/
structure Event where
  time : Time
  n : Nat
  info : Option (Option Record)
deriving DecidableEq, Repr

/-- `_event_last`. -/
def Event.last (e : Event) (legacy : Option Record) : Option Record := e.info.getD legacy

/-- A planned exit. -/
def Event.clean (e : Event) : Bool := cause (e.last none) = .exit0

/-- `_trim_pod_events`. -/
def trimPodEvents (ev : List Event) : List Event := keepLast Event.clean keep keep ev

/-- What is stored of one counter. -/
structure Counter where
  rc : Nat
  ev : List Event := []
  last : Option Record := none
  seen : Option Time := none
deriving DecidableEq, Repr

/-- A report of one counter. -/
structure Call where
  rc : Nat
  now : Time
  last : Option Record := none
deriving DecidableEq, Repr

/-- The event is not older than the window. -/
def Event.recent (now : Time) (e : Event) : Bool := now - e.time ≤ window

/-- The finish time of a record that has one. -/
def finish (last : Option Record) : Option Int :=
  last.bind fun r => if r.t = 0 then none else some r.t

/-- The first record is known to be from before the second. -/
def before (last known : Option Record) : Bool :=
  match finish last, finish known with
  | some t, some t' => t < t'
  | _, _ => false

/-- A record that was there before the counter grew does not say how this run ended. -/
def stale (last known : Option Record) : Bool :=
  known.isSome && (last = known ||
    match finish last, finish known with
    | some t, some t' => t ≤ t'
    | _, _ => false)

/-- The growth of a pod: a record says how one run ended, the last one. -/
def podEvents (now : Time) (delta : Nat) (latest : Option Record) : List Event :=
  (if latest.isSome ∧ 1 < delta then [⟨now, delta - 1, some none⟩] else []) ++
    [⟨now, if latest.isSome then 1 else delta, some latest⟩]

/-- An old event keeps the exemption of a planned exit. -/
def Event.upgrade (legacy : Option Record) (e : Event) : Event :=
  { e with info := some (e.last legacy) }

/-- The pod is another one: its counter has fallen. -/
def isReset (pod : Bool) (prev : Option Counter) (rc : Nat) : Bool :=
  pod && prev.any fun p => rc < p.rc

/-- The events from before, those of the window. -/
def kept (pod : Bool) (prev : Option Counter) (c : Call) : List Event :=
  if isReset pod prev c.rc then [] else ((prev.map Counter.ev).getD []).filter (Event.recent c.now)

/-- The record that the panel remembers. -/
def known (pod : Bool) (prev : Option Counter) (rc : Nat) : Option Record :=
  if isReset pod prev rc then none else prev.bind Counter.last

/-- The record of the report, unless it is older than the remembered one. -/
def reported (pod : Bool) (prev : Option Counter) (c : Call) : Option Record :=
  if before c.last (known pod prev c.rc) then none else c.last

/-- The growth since the last report. -/
def growth (prev : Option Counter) (rc : Nat) : Nat := (prev.map fun p => rc - p.rc).getD 0

/-- The record that the growth is put down to. -/
def latest (pod : Bool) (prev : Option Counter) (c : Call) : Option Record :=
  if stale (reported pod prev c) (known pod prev c.rc) then none else reported pod prev c

/-- The events with the growth, before they are cut to `_KEEP`. -/
def events (pod : Bool) (prev : Option Counter) (c : Call) : List Event :=
  if growth prev c.rc = 0 then kept pod prev c
  else if pod then
    let legacy := if cause (known pod prev c.rc) = .exit0 then known pod prev c.rc else none
    (kept pod prev c).map (fun e => if e.info.isSome then e else e.upgrade legacy) ++
      podEvents c.now (growth prev c.rc) (latest pod prev c)
  else kept pod prev c ++ [⟨c.now, growth prev c.rc, none⟩]

def step (pod : Bool) (prev : Option Counter) (c : Call) : Counter :=
  { rc := c.rc
    ev := if pod then trimPodEvents (events pod prev c) else lastN keep (events pod prev c)
    last := if c.rc = 0 then none else (reported pod prev c).or (known pod prev c.rc)
    seen := if pod then
        if prev = none ∨ isReset pod prev c.rc then some c.now else prev.bind Counter.seen
      else none }

/-- `count`, the number. -/
def count (cs : Option Counter) (now : Time) : Nat :=
  ((((cs.map Counter.ev).getD []).filter (Event.recent now)).map Event.n).sum

end Kervax.Restarts
