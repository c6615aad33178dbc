-- The sending of one batch of alerts (`dispatch` of `alerts.py`): the main
-- chat and the webhook, the chats of the groups, the copy that falls back
-- into the main chat, and the two sets that come out, `got` and `again`.
import Kervax.Messages
import Mathlib.Data.Finset.Basic
import Mathlib.Data.Finset.Image

namespace Kervax

/-! ## One send and its outcome -/

/-- What became of one request to Telegram: taken, refused for good
(`TgRejected`), or failed in a way that a repeat may cure. After an uncertain
failure the message may have arrived all the same. -/
inductive Outcome
  | accepted
  | rejected
  | failed (uncertain : Bool)
deriving DecidableEq, Repr

/-- The failure that calls for a repeat. -/
def Outcome.transient : Outcome → Bool
  | .failed _ => true
  | _ => false

/-- What one request carries: the digest of a batch, or one message of it. -/
inductive Item
  | digest
  | one (i : Nat)
deriving DecidableEq, Repr

/-- Where a request goes. -/
inductive Place
  | mainChat
  | webhook
  | route (chat : String)
  | fallback
deriving DecidableEq, Repr

/-- The two common channels. -/
def Place.common : Place → Bool
  | .mainChat | .webhook => true
  | _ => false

/-- The world outside: what becomes of each request of one `dispatch`. No
request is made twice in one `dispatch`, so a function says it all. -/
structure Net where
  mainChat : Item → Outcome
  /-- The webhook takes the text or does not; no refusal of it is for good. -/
  hook : Item → Bool
  route : String → Item → Outcome
  /-- The copies that fall back into the main chat, by their place in that list. -/
  fallback : Item → Outcome

/-- A request that was made: the merged messages that it carried. -/
structure Sent where
  place : Place
  carries : List Nat
  outcome : Outcome
deriving DecidableEq, Repr

/-! ## The common channels -/

/-- `SendErrors` of `send_alert`, with the requests that it made. -/
structure SendErrors where
  len : Nat := 0
  rejected : Nat := 0
  uncertain : Bool := false
  log : List Sent := []
deriving DecidableEq, Repr

/-- The Telegram half of `send_alert`. -/
def sendTg (place : Place) (carries : List Nat) (o : Outcome) : SendErrors :=
  match o with
  | .accepted => { log := [⟨place, carries, o⟩] }
  | .rejected => { len := 1, rejected := 1, log := [⟨place, carries, o⟩] }
  | .failed u => { len := 1, uncertain := u, log := [⟨place, carries, o⟩] }

/-- The webhook half of `send_alert`. -/
def sendHook (e : SendErrors) (carries : List Nat) (ok : Bool) : SendErrors :=
  if ok then { e with log := e.log ++ [⟨.webhook, carries, .accepted⟩] }
  else { e with len := e.len + 1, log := e.log ++ [⟨.webhook, carries, .failed false⟩] }

/-- `send_alert`: one text into every common channel that is set. `place` is
what Telegram's main chat is used for here. -/
def sendAlert (cfg : Cfg) (place : Place) (tg : Item → Outcome) (hook : Item → Bool)
    (carries : List Nat) (item : Item) : SendErrors :=
  let e : SendErrors :=
    if cfg.telegramToken ≠ "" ∧ cfg.telegramChat ≠ "" then sendTg place carries (tg item) else {}
  if cfg.webhook ≠ "" then sendHook e carries (hook item) else e

/-- `_channel_count`. -/
def channelCount (cfg : Cfg) : Nat :=
  (if cfg.telegramToken ≠ "" ∧ cfg.telegramChat ≠ "" then 1 else 0) +
    (if cfg.webhook ≠ "" then 1 else 0)

/-- `_outcome`: did it arrive anywhere, and is a repeat due. -/
def outcome (e : SendErrors) (channels : Nat) : Bool × Bool :=
  let got : Bool := e.len < channels
  (got, !got && e.rejected < e.len)

/-- The sets that a stage of `dispatch` hands on, with the requests it made. -/
structure Stage where
  got : Finset Nat := ∅
  again : Finset Nat := ∅
  uncertain : Finset Nat := ∅
  log : List Sent := []
deriving DecidableEq

/-- One request of `_send_common` for the positions `idx`. -/
def Stage.note (s : Stage) (e : SendErrors) (channels : Nat) (idx : List Nat) : Stage :=
  let o := outcome e channels
  { got := if o.1 then s.got ∪ idx.toFinset else s.got
    again := if o.2 then s.again ∪ idx.toFinset else s.again
    uncertain := if e.uncertain then s.uncertain ∪ idx.toFinset else s.uncertain
    log := s.log ++ e.log }

/-- `_send_common`: one digest when the positions are many, else one by one.
`orig` gives the message that stands at a position. -/
def sendCommon (cfg : Cfg) (place : Place) (tg : Item → Outcome) (hook : Item → Bool)
    (idx : List Nat) (orig : Nat → Nat) (threshold : Nat) : Stage :=
  let channels := channelCount cfg
  if idx = [] ∨ channels = 0 then {}
  else if threshold ≠ 0 ∧ threshold ≤ idx.length then
    Stage.note {} (sendAlert cfg place tg hook (idx.map orig) .digest) channels idx
  else
    idx.foldl (fun s i => s.note (sendAlert cfg place tg hook [orig i] (.one i)) channels [i]) {}

/-! ## The chats of the groups -/

/-- A batch sent to one chat: what failed, and how. -/
structure Batch where
  failed : List Nat := []
  uncertain : Finset Nat := ∅
  log : List Sent := []
deriving DecidableEq

def Batch.note (b : Batch) (chat : String) (items : List Nat) (o : Outcome) : Batch :=
  { failed := if o = .accepted then b.failed else b.failed ++ items
    uncertain := if o = .failed true then b.uncertain ∪ items.toFinset else b.uncertain
    log := b.log ++ [⟨.route chat, items, o⟩] }

/-- `_send_batch_via`. -/
def sendBatch (net : Net) (chat : String) (items : List Nat) (threshold : Nat) : Batch :=
  if threshold ≠ 0 ∧ threshold ≤ items.length then
    Batch.note {} chat items (net.route chat .digest)
  else items.foldl (fun b i => b.note chat [i] (net.route chat (.one i))) {}

/-- `plan` of `_send_routes`: the chats in the order of their first message. -/
def plan (cfg : Cfg) (ms : List Msg) : List (String × List Nat) :=
  let chats := ((ms.flatMap (chatsFor cfg)).filter (· ≠ cfg.telegramChat)).eraseDups
  chats.map fun c =>
    (c, (List.range ms.length).filter fun i => c ∈ chatsFor cfg (ms.getD i default))

/-- What the loop over the chats carries along: `got`, `uncertain` and the
messages `back` that fall back into the main chat. -/
structure Routes where
  got : Finset Nat := ∅
  uncertain : Finset Nat := ∅
  back : List Nat := []
  log : List Sent := []
deriving DecidableEq

/-- A message that a chat of the groups did not take falls back into the main
chat, unless the main chat had its own copy. An OOM alert with an uncertain
outcome does not (`oom` says that the caller counts these). -/
def fallsBack (cfg : Cfg) (ms : List Msg) (oom : Bool) (b : Batch) (back : List Nat) (i : Nat) :
    Bool :=
  let m := ms.getD i default
  !(oom && i ∈ b.uncertain && m.kind = "oom") &&
    (cfg.telegramChat ≠ "" && cfg.telegramChat ∉ chatsFor cfg m && i ∉ back)

def sendRoute (cfg : Cfg) (net : Net) (ms : List Msg) (threshold : Nat) (oom : Bool) (r : Routes)
    (p : String × List Nat) : Routes :=
  let b := sendBatch net p.1 p.2 threshold
  { got := r.got ∪ (p.2.filter (· ∉ b.failed)).toFinset
    uncertain := if oom then r.uncertain ∪ b.uncertain else r.uncertain
    back := b.failed.foldl
      (fun back i => if fallsBack cfg ms oom b back i then back ++ [i] else back) r.back
    log := r.log ++ b.log }

/-- `_send_routes`: `(again, got)`, what is uncertain and the requests. -/
def sendRoutes (cfg : Cfg) (net : Net) (ms : List Msg) (threshold : Nat) (oom : Bool) : Stage :=
  let r := (plan cfg ms).foldl (sendRoute cfg net ms threshold oom) {}
  if r.back = [] then { got := r.got, uncertain := r.uncertain, log := r.log }
  else
    let at' := fun j => r.back.getD j 0
    let f := sendCommon { cfg with webhook := "" } .fallback net.fallback (fun _ => false)
      (List.range r.back.length) at' threshold
    let fagain := if oom then f.again.filter fun j =>
        ¬ (j ∈ f.uncertain ∧ (ms.getD (at' j) default).kind = "oom") else f.again
    { got := r.got ∪ f.got.image at'
      again := fagain.image at'
      uncertain := if oom then r.uncertain ∪ f.uncertain.image at' else r.uncertain
      log := r.log ++ f.log }

/-! ## The whole batch -/

/-- What `dispatch` gives: its result, `finished`, `oom_finished`, and what
was sent. -/
structure Dispatched where
  ok : Bool
  finished : Finset Nat := ∅
  oomFinished : List Nat := []
  delivered : Finset Nat := ∅
  log : List Sent := []
deriving DecidableEq

/-- The merged messages, as they are sent. -/
def batch (w : Wording) (ms : List Msg) : List Msg :=
  (mergeStorm w (withNotes w ms)).map (shortMessage w)

/-- The main chat and the webhook: both together when every message goes to
the main chat, else each on its own. -/
def sendMain (cfg : Cfg) (net : Net) (ms : List Msg) (threshold : Nat) : Stage :=
  let everything := List.range ms.length
  if cfg.mainChat = "" ∨ ms.all (onMain cfg) then
    sendCommon cfg .mainChat net.mainChat net.hook everything id threshold
  else
    let a := sendCommon { cfg with webhook := "" } .mainChat net.mainChat net.hook
      (everything.filter fun i => onMain cfg (ms.getD i default)) id threshold
    if cfg.webhook = "" then a
    else
      let b := sendCommon { cfg with telegramChat := "" } .mainChat net.mainChat net.hook
        everything id threshold
      { got := a.got ∪ b.got, again := a.again ∪ b.again, uncertain := a.uncertain
        log := a.log ++ b.log }

/-- The ids of the servers whose OOM alert needs no repeat. -/
def oomIds (ms : List Msg) (done : Finset Nat) : List Nat :=
  ((List.range ms.length).filter (· ∈ done)).flatMap fun i =>
    (ms.getD i default).partsOr.flatMap fun p =>
      match p.kind, p.ref with
      | "oom", .srv ids => ids
      | _, _ => []

/-- `dispatch` with `finished` given; `oom` says whether `oom_finished` is. -/
def dispatch (w : Wording) (cfg : Cfg) (net : Net) (canSend : Bool) (messages : List Msg)
    (threshold : Nat) (oom : Bool) : Dispatched :=
  if messages = [] then { ok := true }
  else if !canSend then { ok := false }
  else
    let orig := origins w (withNotes w messages)
    let ms := batch w messages
    let c := sendMain cfg net ms threshold
    let again := c.again \ c.got
    let r : Stage := if cfg.telegramToken = "" then {} else sendRoutes cfg net ms threshold oom
    let got := c.got ∪ r.got
    -- a chat of the groups covers a message that the main chat is not due
    let again := again \ (r.got.filter fun i => ¬ onMain cfg (ms.getD i default))
    let uncertain := c.uncertain ∪ r.uncertain
    let again := if oom then
        again \ (uncertain.filter fun i => (ms.getD i default).kind = "oom") else again
    let again := again ∪ r.again
    { ok := again = ∅
      finished := (((List.range orig.length).filter (· ∉ again)).flatMap (orig.getD · [])).toFinset
      oomFinished := if oom then oomIds ms (got ∪ uncertain) else []
      delivered := got
      log := c.log ++ r.log }

end Kervax
