-- Alerts that nobody took (`tg_bot.escalate`, `tg_bot.dup_catchup`): the repeats, the alert that
-- a pause of copies held back, and how often either can come.
import Kervax.ButtonRuns
import Mathlib.Data.List.Chain

namespace Kervax.TgBot

/-! ## The settings -/

def ESC_KINDS_DEFAULT : List String := ["down", "offline"]

/-- The settings as they are stored; `none` is not a number, or not a list. -/
structure RawEsc where
  enabled : Bool
  afterMin : Option Int
  times : Option Int
  chat : String
  users : List String
  kinds : Option (List String)

/-- The settings as they are read: minutes and times within their bounds. -/
structure Esc where
  enabled : Bool
  afterMin : Int
  times : Int
  chat : String
  users : List String
  kinds : List String
  after_ok : 5 ≤ afterMin ∧ afterMin ≤ 720
  times_ok : 1 ≤ times ∧ times ≤ 5

/-- `num`. -/
def num (v : Option Int) (lo hi dflt : Int) : Int :=
  match v with
  | some v => max lo (min hi v)
  | none => dflt

theorem num_bounds {lo hi dflt : Int} (hd : lo ≤ dflt ∧ dflt ≤ hi) (v : Option Int) :
    lo ≤ num v lo hi dflt ∧ num v lo hi dflt ≤ hi := by
  cases v with
  | none => exact hd
  | some v =>
    simp only [num]
    omega

/-- `str.strip`, for the blanks of ASCII. -/
def strip (s : String) : String :=
  String.ofList ((s.toList.dropWhile Char.isWhitespace).reverse.dropWhile Char.isWhitespace).reverse

/-- `_esc_clean`. -/
def escClean (d : RawEsc) : Esc where
  enabled := d.enabled
  afterMin := num d.afterMin 5 720 15
  times := num d.times 1 5 1
  chat := takeText 64 (strip d.chat)
  users := ((d.users.filter fun u => strip u ≠ "").map (takeText 64)).take 50
  kinds :=
    match d.kinds with
    | some ks => (ks.take 50).map (takeText 40)
    | none => ESC_KINDS_DEFAULT
  after_ok := num_bounds (by decide) _
  times_ok := num_bounds (by decide) _

/-! ## Is the alert still wanted -/

/-- `_server_mutes`: the kinds that are muted, for ever or still for a time. -/
def serverMutes (s : Server) (now : Int) : List String :=
  s.alertMutes.filter (fun m => ':' ∉ m.toList) ++ Dict.keys (running now s.alertSnoozes)

def snoozed (until_ : Option Int) (now : Int) : Bool :=
  match until_ with
  | some t => now < t
  | none => false

/-- `_srv_wanted`; `none` is a trouble that went away without a word. -/
def srvWanted (w : World) (row : TgAlert) (i : Nat) (now : Int) : Option Bool :=
  match w.servers i with
  | none => some false
  | some s =>
    if !s.enabled then some false
    else if snoozed s.snoozeUntil now ∨ row.kind ∈ serverMutes s now then some false
    else if itemKeys row ≠ [] ∧ ∀ k ∈ itemKeys row,
        k ∈ s.alertMutes ++ Dict.keys (running now s.alertSnoozes) ∨
          expiryKey k ∈ Dict.keys s.kubeExpiryIgnored then some false
    else
      match s.alertState.lookup row.kind with
      | some lvl => if lvl ≤ 0 then none else some true
      | none => some true

/-- `_still_wanted`. -/
def stillWanted (w : World) (row : TgAlert) (now : Int) : Option Bool :=
  match row.ref with
  | some (.srv, i :: is) =>
    let res := (i :: is).map fun i => srvWanted w row i now
    if some true ∈ res then some true else if none ∈ res then none else some false
  | some (.chk, i :: _) =>
    match w.checks i with
    | none => some false
    | some c =>
      if !c.enabled then some false
      else if snoozed c.snoozeUntil now ∨ row.kind ∈ c.alertMutes then some false
      else if row.kind = "down" ∧ !c.down then none
      else some true
  | _ => some false

/-! ## A pass -/

def MIN : Int := 60000000
def DAY : Int := 24 * HOUR
def DUP_HOLD_MIN : Int := 10

/-- What came of a message: an exception, or it was taken, with its number where one came. -/
inductive Sent
  | failed
  | taken (mid : Option Int)

/-- A pass of `escalate`: the settings that it reads and what comes of its messages. -/
structure Pass where
  now : Int
  esc : Esc
  buttonsOn : Bool
  muted : Bool
  listening : Bool
  token : String
  accounts : List User
  send : Nat → String → Sent

def Pass.open (p : Pass) : Bool := p.buttonsOn && p.esc.enabled && !p.muted && p.listening

/-- The chats of a repeat, each once. -/
def Pass.chats (p : Pass) : List String :=
  let users := p.accounts.filter fun u =>
    u.username ∈ p.esc.users && u.tgChatId ≠ "" && (u.tgToken = "" || u.tgToken = p.token)
  ((p.esc.chat :: users.map User.tgChatId).filter (· ≠ "")).eraseDups

def numbered (send : String → Sent) (chat : String) : Option (String × Int) :=
  match send chat with
  | .taken (some mid) => some (chat, mid)
  | .taken none => none
  | .failed => none

/-- What `escalate` looks at a row for. -/
def Pass.due (p : Pass) (row : TgAlert) : Bool :=
  row.ackedBy = "" && row.resolvedAt.isNone && row.escLevel < p.esc.times &&
    row.kind ∈ p.esc.kinds && p.now - 2 * DAY < row.ts &&
    p.esc.afterMin * MIN ≤ p.now - row.escAt.getD row.ts && row.undo.mute.isNone

/-- The chats that a repeat of a row has reached. -/
def Pass.reached (p : Pass) (w : World) (r : Nat) (row : TgAlert) : List (String × Int) :=
  if p.open && p.due row && stillWanted w row p.now = some true then
    p.chats.filterMap (numbered (p.send r))
  else []

/-- A row in a pass of `escalate`. -/
def Pass.row (p : Pass) (w : World) (r : Nat) (row : TgAlert) : TgAlert :=
  if !p.open || p.chats = [] || !p.due row then row
  else
    match stillWanted w row p.now with
    | none => { row with resolvedAt := some p.now }
    | some false => { row with escLevel := p.esc.times.toNat }
    | some true =>
      if p.reached w r row = [] then row
      else
        { row with
          messages := row.messages ++ p.reached w r row
          escLevel := row.escLevel + 1
          escAt := some p.now }

/-- A pass of `dup_catchup`. -/
structure CatchUp where
  now : Int
  token : String
  muted : Bool
  send : Nat → String → Sent

def CatchUp.open (p : CatchUp) : Bool := p.token ≠ "" && !p.muted

def dropHeld (row : TgAlert) : TgAlert := { row with undo := { row.undo with held := none } }

/-- The main chat of a row that was held back, where the time has come to give it there. -/
def CatchUp.late (p : CatchUp) (row : TgAlert) : Option String :=
  match row.undo.held with
  | none => none
  | some chat =>
    if p.open && row.resolvedAt.isNone && p.now - DAY < row.ts && row.ackedBy = "" &&
        row.undo.mute.isNone && DUP_HOLD_MIN * MIN ≤ p.now - row.ts then some chat
    else none

/-- The row was given to the main chat. -/
def CatchUp.gave (p : CatchUp) (w : World) (r : Nat) (row : TgAlert) : Bool :=
  match p.late row with
  | none => false
  | some chat =>
    match p.send r chat with
    | .failed => false
    | .taken _ => stillWanted w row p.now = some true

def CatchUp.row (p : CatchUp) (w : World) (r : Nat) (row : TgAlert) : TgAlert :=
  match row.undo.held with
  | none => row
  | some chat =>
    if !p.open || row.resolvedAt.isSome || row.ts ≤ p.now - DAY then row
    else if row.ackedBy ≠ "" ∨ row.undo.mute.isSome then dropHeld row
    else if p.now - row.ts < DUP_HOLD_MIN * MIN then row
    else
      match stillWanted w row p.now with
      | none => dropHeld { row with resolvedAt := some p.now }
      | some false => dropHeld row
      | some true =>
        match p.send r chat with
        | .failed => row
        | .taken none => dropHeld row
        | .taken (some mid) => dropHeld { row with messages := row.messages ++ [(chat, mid)] }

def escalate (w : World) (p : Pass) : World :=
  { w with rows := fun r => (w.rows r).map (p.row w r) }

def dupCatchup (w : World) (p : CatchUp) : World :=
  { w with rows := fun r => (w.rows r).map (p.row w r) }

/-! ## Runs -/

inductive Tick
  | world (i : Input)
  | escalate (p : Pass)
  | catchUp (p : CatchUp)

def tick (z : Zone) (w : World) : Tick → World
  | .world i => step z w i
  | .escalate p => escalate w p
  | .catchUp p => dupCatchup w p

/-- The moment of a repeat of the row in a step, if there is one. -/
def repeatedAt (w : World) (r : Nat) : Tick → Option Int
  | .escalate p =>
    (w.rows r).bind fun row => if p.reached w r row = [] then none else some p.now
  | _ => none

/-- The moment at which a step gives the held row to the main chat. -/
def gaveAt (w : World) (r : Nat) : Tick → Option Int
  | .catchUp p => (w.rows r).bind fun row => if p.gave w r row then some p.now else none
  | _ => none

/-- What is seen of each step of a run. -/
def watch (z : Zone) (see : World → Tick → Option Int) (w : World) : List Tick → List Int
  | [] => []
  | t :: ts => (see w t).toList ++ watch z see (tick z w t) ts

/-- What never changes back in a row: when it was sent, that it is taken or resolved, and that
it is not held back any more. -/
structure Onward (row row' : TgAlert) : Prop where
  ts : row'.ts = row.ts
  acked : row.ackedBy ≠ "" → row'.ackedBy ≠ ""
  resolved : row.resolvedAt.isSome → row'.resolvedAt.isSome
  held : row'.undo.held = row.undo.held ∨ row'.undo.held = none

/-- A row as the rest of the panel leaves it: the repeats are not its business. -/
structure Later (row row' : TgAlert) : Prop extends Onward row row' where
  escLevel : row'.escLevel = row.escLevel
  escAt : row'.escAt = row.escAt

/-- The others write the row like that, and a number is not given out again. -/
def Steady (r : Nat) (w : World) : Tick → Prop
  | .world (.row q o) => q = r →
      match w.rows r, o with
      | some row, some row' => Later row row'
      | none, some _ => False
      | _, none => True
  | _ => True

end Kervax.TgBot
