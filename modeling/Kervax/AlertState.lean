-- The alert state of one kind of one server, the writes into it that wait for
-- a delivery, and what one tick reads of the server.
import Kervax.Kinds
import Mathlib.Data.Finset.Basic
import Mathlib.Data.Finset.Image

namespace Kervax

/-! ## The state -/

/-- `pressure_res`: what the server lacks. -/
inductive PressRes
  | thrash | mem | io | dstate | fds
deriving DecidableEq, Repr

/-- `<kind>_was`: what the last closing remembers. `ts` is that closing and
`first` the first one of the chain. -/
structure Was where
  ts : Time
  first : Time
  lvl : Nat
  sig : Finset String
deriving DecidableEq

/-- The marks of the flap guard. The link (`flap_…`) has no `last`. -/
structure Flap where
  muted : Bool := false
  count : Nat := 0
  since : Option Time := none
  last : Option Time := none
deriving DecidableEq

/-- The alert state of one kind. An absent key of the source is `0`, the empty
set or `none` here. -/
structure KindSt where
  /-- `<kind>`: the level. -/
  level : Nat := 0
  sig : Finset String := ∅
  told : Finset String := ∅
  who : Finset String := ∅
  toldLvl : Nat := 0
  calm : Option Time := none
  hush : Option Time := none
  said : Option Time := none
  /-- `<kind>_from`. -/
  begun : Option Time := none
  was : Option Was := none
  quiet : Option Time := none
  hist : List (Time × Option Time) := []
  res : Option PressRes := none
  pressureTold : Finset PressRes := ∅
  growthAt : Option Int := none
  flap : Flap := {}
  offSaid : Bool := false
  offBack : Option Time := none
  offKids : List Nat := []
deriving DecidableEq

/-! ## What waits for a delivery -/

/-- An entry of `fire_apply` or `rec_apply`. -/
inductive KWrite
  | level (n : Nat)
  | sig (x : Finset String)
  | told (x : Finset String)
  | who (x : Finset String)
  | toldLvl (n : Nat)
  | calm
  | hush
  | said (t : Option Time)
  | was (w : Option Was)
  | quiet
  | pressureTold (x : Finset PressRes)
  | growthAt (t : Option Int)
  | offSaid (b : Bool)
  | offBack
  | offKids (l : List Nat)
deriving DecidableEq

def KWrite.set (st : KindSt) : KWrite → KindSt
  | .level n => { st with level := n }
  | .sig x => { st with sig := x }
  | .told x => { st with told := x }
  | .who x => { st with who := x }
  | .toldLvl n => { st with toldLvl := n }
  | .calm => { st with calm := none }
  | .hush => { st with hush := none }
  | .said t => { st with said := t }
  | .was w => { st with was := w }
  | .quiet => { st with quiet := none }
  | .pressureTold x => { st with pressureTold := x }
  | .growthAt t => { st with growthAt := t }
  | .offSaid b => { st with offSaid := b }
  | .offBack => { st with offBack := none }
  | .offKids l => { st with offKids := l }

/-- A write that is made on a condition. -/
def onlyIf (c : Prop) [Decidable c] (w : KWrite) : List KWrite := if c then [w] else []

/-- All writes at once: `apply` for each of them. -/
def applyAll (ws : List KWrite) (st : KindSt) : KindSt := ws.foldl KWrite.set st

@[simp] theorem applyAll_nil (st : KindSt) : applyAll [] st = st := rfl

@[simp] theorem applyAll_cons (w : KWrite) (ws : List KWrite) (st : KindSt) :
    applyAll (w :: ws) st = applyAll ws (w.set st) := rfl

@[simp] theorem applyAll_append (ws vs : List KWrite) (st : KindSt) :
    applyAll (ws ++ vs) st = applyAll vs (applyAll ws st) := List.foldl_append

@[simp] theorem mem_onlyIf {c : Prop} [Decidable c] {w v : KWrite} :
    w ∈ onlyIf c v ↔ c ∧ w = v := by
  unfold onlyIf
  split <;> simp [*]

theorem applyAll_onlyIf (c : Prop) [Decidable c] (w : KWrite) (st : KindSt) :
    applyAll (onlyIf c w) st = if c then w.set st else st := by
  unfold onlyIf
  split <;> rfl

/-- A write that would change nothing is as good as made. -/
theorem applyAll_onlyIf_of {c : Prop} [Decidable c] {w : KWrite} {st : KindSt}
    (h : ¬ c → w.set st = st) : applyAll (onlyIf c w) st = w.set st := by
  rw [applyAll_onlyIf]
  split
  · rfl
  · exact (h ‹_›).symm

/-- `onboard.state_kept`: the write waits with its message while the server is
being connected. The others are done at once, as if the message had arrived. -/
def onboardKept (k : Kind) (w : KWrite) : Bool :=
  k ∈ onboardSend &&
    match w with
    | .level _ | .toldLvl _ => true
    | .offSaid _ => k = .offline
    | _ => false

/-- The writes of one kind after `dispatch`: all of them once their message is
acknowledged, and before that those that an onboarding does at once. -/
def commit (k : Kind) (onb ack : Bool) (ws : List KWrite) (st : KindSt) : KindSt :=
  ws.foldl (fun st w => if ack || (onb && !onboardKept k w) then w.set st else st) st

@[simp] theorem commit_nil (k : Kind) (onb ack : Bool) (st : KindSt) :
    commit k onb ack [] st = st := rfl

/-- The message is on its way, and nothing is done yet. -/
theorem commit_pending (k : Kind) (ws : List KWrite) (st : KindSt) :
    commit k false false ws st = st := by simp [commit]

theorem commit_ack (k : Kind) (onb : Bool) (ws : List KWrite) (st : KindSt) :
    commit k onb true ws st = applyAll ws st := by simp [commit, applyAll]

@[simp] theorem KWrite.set_flap (st : KindSt) (w : KWrite) : (w.set st).flap = st.flap := by
  cases w <;> rfl

@[simp] theorem commit_flap (k : Kind) (onb ack : Bool) (ws : List KWrite) (st : KindSt) :
    (commit k onb ack ws st).flap = st.flap := by
  induction ws generalizing st with
  | nil => rfl
  | cons w ws ih =>
    change (commit k onb ack ws _).flap = _
    rw [ih]
    dsimp only
    split
    · exact w.set_flap st
    · rfl

/-- A level comes from the state, or from a write. -/
theorem commit_level_mem (k : Kind) (onb ack : Bool) (ws : List KWrite) (st : KindSt) :
    (commit k onb ack ws st).level = st.level ∨
      .level (commit k onb ack ws st).level ∈ ws := by
  induction ws generalizing st with
  | nil => exact .inl rfl
  | cons w ws ih =>
    have hcons : commit k onb ack (w :: ws) st = commit k onb ack ws
        (if (ack || (onb && !onboardKept k w)) = true then w.set st else st) := rfl
    rw [hcons]
    rcases ih (if (ack || (onb && !onboardKept k w)) = true then w.set st else st) with h | h
    · rw [h]
      split
      · cases w <;> simp [KWrite.set]
      · exact .inl rfl
    · exact .inr (List.mem_cons_of_mem _ h)

/-- A calm comes from the state only. -/
theorem commit_calm {k : Kind} {onb ack : Bool} {ws : List KWrite} {st : KindSt} {t : Time}
    (h : (commit k onb ack ws st).calm = some t) : st.calm = some t := by
  induction ws generalizing st with
  | nil => exact h
  | cons w ws ih =>
    have := ih h
    dsimp only at this
    split at this
    · cases w <;> simp_all [KWrite.set]
    · exact this

/-- The level of a kind that an onboarding sends waits for its message. -/
theorem commit_level_waits {k : Kind} (hk : k ∈ onboardSend) (onb : Bool) (ws : List KWrite)
    (st : KindSt) : (commit k onb false ws st).level = st.level := by
  induction ws generalizing st with
  | nil => rfl
  | cons w ws ih =>
    change (commit k onb false ws _).level = _
    rw [ih]
    cases w <;> simp [onboardKept, hk, KWrite.set] <;> split <;> rfl

/-- And so does the mark that the outage was told. -/
theorem commit_offSaid_waits (onb : Bool) (ws : List KWrite) (st : KindSt) :
    (commit .offline onb false ws st).offSaid = st.offSaid := by
  induction ws generalizing st with
  | nil => rfl
  | cons w ws ih =>
    change (commit .offline onb false ws _).offSaid = _
    rw [ih]
    cases w <;> simp [onboardKept, onboardSend, KWrite.set] <;> split <;> rfl

/-! ## What goes out -/

/-- What a message says. -/
inductive What
  /-- The level rose. -/
  | alert
  /-- New objects at the same level. -/
  | news
  /-- The series: "unstable, going quiet". -/
  | flapping
  /-- Back to normal. -/
  | recovery
  /-- A person said that it is fixed. -/
  | fixed
  /-- The end of a series: "stable again", "back to normal". -/
  | seriesEnd
  /-- The mute of a replaced disk is lifted. -/
  | muteLift
deriving DecidableEq, Repr

structure Notice where
  what : What
  level : Nat := 0
  objs : Finset String := ∅
deriving DecidableEq

/-- What one tick of one kind hands to the end of `evaluate_servers`. -/
structure Out where
  fires : List Notice := []
  fireApply : List KWrite := []
  recs : List Notice := []
  recApply : List KWrite := []
  /-- An entry of `quiet_closed`. -/
  closed : Bool := false
deriving DecidableEq

/-! ## What one tick reads -/

/-- The context of a condition. `sig`, `who` and `res` are `none` where the
source has no such key. -/
structure Ctx where
  sig : Option (Finset String) := none
  who : Option (Finset String) := none
  mount : Option String := none
  /-- `_complete`. -/
  complete : Bool := true
  cool : Option Time := none
  /-- `items` is a list, and empty. -/
  itemsEmpty : Bool := false
  /-- `res`, which the tick stores for the pressure. -/
  res : Option (Option PressRes) := none
  /-- The `thrash` and `dstate` among the items of the pressure. -/
  causes : Finset PressRes := ∅
  /-- The disk fills up fast. -/
  fast : Bool := false
  /-- `items["ts"]`: the run of the backup that grew. -/
  growthTs : Option Int := none
  /-- `raw`: the level at this very moment. -/
  raw : Option Nat := none
  /-- `since` is set. -/
  since : Bool := false
deriving DecidableEq

/-- What `_server_conditions` says of the kind. -/
structure Cond where
  level : Nat
  ctx : Ctx := {}
deriving DecidableEq

/-- A mark "fixed" of a person (`alert_fixed[kind]`). -/
structure FixedMark where
  at' : Option Time
  done : Bool := false
deriving DecidableEq

/-- A known problem (`known_now[kind]`). -/
structure KnownEntry where
  level : Option Nat
  sig : Option (Finset String) := none
deriving DecidableEq

/-- A monitor behind the server. -/
structure KidState where
  checkedAt : Option Time
  up : Bool := false
deriving DecidableEq

/-- What one tick reads of the server, as far as one kind is concerned. -/
structure Seen where
  now : Time
  /-- The server is new and not looked at yet, or its evaluation raised. -/
  skip : Bool := false
  talking : Bool := true
  /-- `report_fresh`, `report_epoch`. -/
  fresh : Bool := true
  epoch : Bool := false
  /-- `quiet_srv` as the tick begins, and as it stands after `mute_life`. -/
  quietBefore : Bool := false
  quietSrv : Bool := false
  backupHost : Bool := false
  cond : Option Cond := none
  fixedMark : Option FixedMark := none
  /-- The rule is enabled and reaches the server. -/
  ruleOk : Bool := true
  /-- Most servers went silent at once. -/
  gap : Bool := false
  /-- The server stands behind a silent one. -/
  parentHeld : Bool := false
  warm : Bool := false
  /-- The kind is muted, and the levels that `kind@n` mutes. -/
  muted : Bool := false
  mutedUpTo : List Int := []
  known : Option KnownEntry := none
  onb : Bool := false
  growthAck : Option Int := none
  /-- `_sig_all_quiet` for the kind. -/
  sigQuiet : Finset String → Bool := fun _ => false
  day : Bool := true
  /-- The disk whose mute is lifted has been replaced. -/
  diskLift : Bool := false
  kidsDown : List Nat := []
  kids : Nat → Option KidState := fun _ => none

/-! ## The questions that the rules ask of a context -/

/-- `_who`: whom the alert is about. -/
def whoOf (c : Ctx) : Finset String :=
  match c.sig, c.who, c.mount with
  | some x, _, _ => x
  | none, some x, _ => x
  | none, none, some m => {m}
  | none, none, none => ∅

/-- `_held_only`: the trouble is gone, and only a hold keeps the level. -/
def heldOnly (c : Ctx) : Bool := c.cool.isSome || c.itemsEmpty

/-- `_muted`. -/
def isMuted (s : Seen) (level : Nat) : Bool :=
  s.muted || s.mutedUpTo.any fun n => (level : Int) ≤ n

/-- `known.covers`. -/
def covers (e : Option KnownEntry) (level : Nat) (sig : Option (Finset String)) : Bool :=
  match e with
  | none => false
  | some e =>
    level ≠ 0 &&
      match e.level with
      | none => true
      | some known =>
        level ≤ known &&
          match sig, e.sig with
          | some x, some y => x ⊆ y
          | _, _ => true

/-- `onboard.cond_ok`. -/
def condOk (k : Kind) (level : Nat) : Bool :=
  k = .offline || (k ∈ [Kind.disk, .inode] && 3 ≤ level)

/-- `fixed.expired`. -/
def FixedMark.expired (m : FixedMark) (now : Time) : Bool :=
  match m.at' with
  | none => true
  | some t => fixedLife ≤ now - t

/-- `fixed.broken`: the trouble is there, and not only its hold. -/
def broken (k : Kind) (c : Cond) : Bool :=
  match c.ctx.raw with
  | some n => n ≠ 0
  | none => c.level ≠ 0 && !heldOnly c.ctx && !(k = .web5xx && c.ctx.since)

end Kervax
