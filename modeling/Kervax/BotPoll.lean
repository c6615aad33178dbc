-- The bot's long polling (`tg_bot.poll_once`): the offset that the panel keeps, the queue of
-- updates at Telegram, and what reaches `handle_update` when answers are lost, the panel stops
-- in the middle of a batch or the offset is not saved. Telegram is a parameter, with what its
-- documentation says of `getUpdates`.
import Kervax.Cursor
import Kervax.Firsts
import Kervax.Runs
import Mathlib.Logic.Function.Basic

namespace Kervax.BotPoll

/-! ## What the panel keeps -/

def BACKOFF_ERR : Nat := 30
def BACKOFF_CONFLICT : Nat := 300
def IDLE : Nat := 20
def STATE_EVERY_S : Int := 60

/-- The state of the polling in the settings; a key that is not there is `none`. -/
structure PollState where
  tok : Option String
  offset : Option Nat
  status : Option String
  error : Option String
  bot : Option String
  ts : Option Int

/-- What `_save_state` is given: some of the keys. -/
structure Patch where
  tok : Option String
  offset : Option Nat
  status : Option String
  error : Option String
  bot : Option String

/-- A key is not as it was; one that is not given counts as empty. -/
def changed (old : PollState) (st : Patch) : Bool :=
  old.tok ≠ st.tok || old.offset ≠ st.offset || old.status ≠ st.status || old.error ≠ st.error ||
    old.bot ≠ st.bot

/-- The clock is in seconds. -/
def stale (old : PollState) (now : Int) : Bool :=
  match old.ts with
  | none => true
  | some last => STATE_EVERY_S ≤ now - last

/-- `_save_state`. -/
def saveState (old : PollState) (st : Patch) (force : Bool) (now : Int) : PollState :=
  if force || changed old st || stale old now then
    { tok := st.tok.or old.tok
      offset := st.offset.or old.offset
      status := st.status.or old.status
      error := st.error.or old.error
      bot := st.bot.or old.bot
      ts := some now }
  else old

/-! ## Telegram -/

/-- An update: its number, when it came to Telegram, and what handling it is about. -/
structure Update where
  updateId : Nat
  came : Int
  text : String
deriving DecidableEq

/-- How long Telegram keeps an update. -/
def DAY : Int := 86400

/-- The service, with a queue of its own for each bot: the updates that wait in it, a new one,
`getUpdates` from an offset on, and what is left at a moment. -/
structure Telegram (Q : Type) where
  waits : Q → List Update
  arrive : Q → Update → Q
  getUpdates : Q → Int → Q × List Update
  left : Q → Int → Q

/-- What the panel relies on. A request with an offset confirms all before it, and is answered
with the first updates from it on, a hundred at most; an update that is not confirmed is kept
for a day. -/
structure Telegram.Documented {Q : Type} (T : Telegram Q) : Prop where
  arrives : ∀ q u, T.waits (T.arrive q u) = T.waits q ++ [u]
  confirms : ∀ q (k : Nat),
    T.waits (T.getUpdates q k).1 = Cursor.onward Update.updateId k (T.waits q)
  answers : ∀ q (k : Nat), (T.getUpdates q k).2 <+: Cursor.onward Update.updateId k (T.waits q)
  few : ∀ q (k : Nat), (T.getUpdates q k).2.length ≤ 100
  keeps : ∀ q now, T.waits (T.left q now) = (T.waits q).filter fun u => now - DAY ≤ u.came

/-! ## A poll -/

/-- The settings that a poll reads: the token, as its hash, and whether the buttons are on. -/
structure Cfg where
  tok : String
  buttonsOn : Bool

/-- How a request ends. A request that was lost may have reached Telegram; with an answer the
panel gets through some of the updates before it stops, if it stops. -/
inductive Reply
  | lost (reached : Bool) (error : String)
  | refused (code : Nat) (desc : String)
  | answered (through : Nat) (me : String)

/-- A poll: the settings, the clock, how the request ends and whether the state is written. -/
structure Poll where
  cfg : Cfg
  now : Int
  reply : Reply
  saved : Bool

/-- The panel and, for each token, the queue at Telegram and all that was handled, in order. -/
structure Bot (Q : Type) where
  st : PollState
  queue : String → Q
  handled : String → List Update

section Panel

variable {Q : Type} (T : Telegram Q)

def cutText (n : Nat) (s : String) : String := String.ofList (s.toList.take n)

/-- The offset of this bot; `none` on its first poll. -/
def Bot.offset (b : Bot Q) (tok : String) : Option Nat :=
  if b.st.tok = some tok then b.st.offset else none

/-- The first poll asks for the last update only. -/
def request (offset : Option Nat) (queue : Q) : Q × List Update :=
  match offset with
  | none => T.getUpdates queue (-1)
  | some k => T.getUpdates queue k

/-- On the first poll the old updates are not handled. -/
def toHandle (offset : Option Nat) (updates : List Update) : List Update :=
  match offset with
  | none => []
  | some _ => updates

def nextOffset (offset : Option Nat) (updates : List Update) : Nat :=
  match offset with
  | none =>
    match updates.getLast? with
    | none => 0
    | some upd => upd.updateId + 1
  | some k => Cursor.next Update.updateId k updates

theorem toHandle_some (k : Nat) (updates : List Update) : toHandle (some k) updates = updates := rfl

theorem nextOffset_some (k : Nat) (updates : List Update) :
    nextOffset (some k) updates = Cursor.next Update.updateId k updates := rfl

def Bot.save (b : Bot Q) (p : Poll) (st : Patch) (force : Bool) (wait : Nat) : Bot Q × Nat :=
  if p.saved then ({ b with st := saveState b.st st force p.now }, wait) else (b, BACKOFF_ERR)

/-- The request has reached Telegram. -/
def Bot.asked (b : Bot Q) (tok : String) : Bot Q :=
  { b with queue := Function.update b.queue tok (request T (b.offset tok) (b.queue tok)).1 }

def Bot.handle (b : Bot Q) (tok : String) (upds : List Update) : Bot Q :=
  { b with handled := Function.update b.handled tok (b.handled tok ++ upds) }

/-- The name of the bot is asked for once. -/
def Bot.named (b : Bot Q) (tok me : String) : Option String :=
  if b.st.tok = some tok ∧ b.st.bot.getD "" ≠ "" then b.st.bot else some me

/-- `poll_once`, and how long to wait after it. -/
def pollOnce (b : Bot Q) (p : Poll) : Bot Q × Nat :=
  let tok := p.cfg.tok
  if !p.cfg.buttonsOn then
    if b.st.status.isSome ∧ b.st.status ≠ some "off" then
      b.save p ⟨none, none, some "off", some "", none⟩ true IDLE
    else (b, IDLE)
  else
    match p.reply with
    | .lost reached error =>
      (if reached then b.asked T tok else b).save p
        ⟨some tok, none, some "error", some (cutText 300 error), none⟩ false BACKOFF_ERR
    | .refused code desc =>
      b.save p ⟨some tok, none, some (if code = 409 then "conflict" else "error"),
          some (cutText 300 desc), none⟩ false
        (if code = 401 ∨ code = 404 ∨ code = 409 then BACKOFF_CONFLICT else BACKOFF_ERR)
    | .answered through me =>
      let updates := (request T (b.offset tok) (b.queue tok)).2
      let todo := toHandle (b.offset tok) updates
      let done := (b.asked T tok).handle tok (todo.take through)
      if through < todo.length then (done, BACKOFF_ERR)
      else
        done.save p ⟨some tok, some (nextOffset (b.offset tok) updates), some "ok", some "",
          b.named tok me⟩ false 0

inductive Event
  | arrive (tok : String) (upd : Update)
  /-- Telegram drops the updates of a bot that it kept for a day. -/
  | age (tok : String) (now : Int)
  | poll (p : Poll)

def step (b : Bot Q) : Event → Bot Q
  | .arrive tok upd => { b with queue := Function.update b.queue tok (T.arrive (b.queue tok) upd) }
  | .age tok now => { b with queue := Function.update b.queue tok (T.left (b.queue tok) now) }
  | .poll p => (pollOnce T b p).1

/-- What the panel has still to ask for is not dropped: it is younger than a day. -/
def Kept (tok : String) (b : Bot Q) : Event → Prop
  | .age t now => t = tok → ∀ k, b.offset tok = some k →
    ∀ u ∈ Cursor.onward Update.updateId k (T.waits (b.queue tok)), now - DAY ≤ u.came
  | _ => True

end Panel

/-! ## What one poll does -/

/-- The updates that have come for a token. -/
def arrivals (tok : String) (es : List Event) : List Update :=
  es.filterMap fun e => match e with
    | .arrive t upd => if t = tok then some upd else none
    | _ => none

/-- The polls are those of one bot. -/
def OfBot (tok : String) : Event → Prop
  | .poll p => p.cfg.tok = tok
  | _ => True

/-- A poll whose answer is handled to its end and whose offset is saved, or that got none. -/
def Whole : Event → Prop
  | .poll p =>
    match p.reply with
    | .answered through _ => 100 ≤ through ∧ p.saved = true
    | .lost _ _ => True
    | .refused _ _ => True
  | _ => True

theorem saveState_offset {old : PollState} {tok : String} {k : Nat} (ht : old.tok = some tok)
    (hk : old.offset = some k) {st : Patch} (hst : st.tok = none ∨ st.tok = some tok) (force : Bool)
    (now : Int) :
    (saveState old st force now).tok = some tok ∧
      (saveState old st force now).offset = some (st.offset.getD k) := by
  unfold saveState
  split
  · rcases hst with h | h <;> cases ho : st.offset <;> simp [h, ht, hk]
  · next hno =>
    have hsame : old.offset = st.offset := by
      by_contra hne
      simp [changed, hne] at hno
    refine ⟨ht, ?_⟩
    rw [← hsame, hk]
    rfl

/-- The updates of a log, each where it came for the first time. -/
abbrev distinct : List Update → List Update := Firsts.firsts (fun _ => false) fun a b => a = b

theorem distinct_take {all : List Update} (h : Cursor.Sorted Update.updateId all) (n : Nat) :
    distinct (all.take n) = all.take n := by
  refine Firsts.firsts_distinct (fun _ _ => rfl) ((h.sublist (List.take_sublist n all)).imp ?_)
  intro a b hab
  have hne : a ≠ b := fun he => lt_irrefl _ (he ▸ hab)
  simpa using hne

/-- The state of a bot whose offset is known: Telegram still has all from the offset on, and what
was handled, each time for the first time, is a beginning of all. -/
structure Reading {Q : Type} (T : Telegram Q) (tok : String) (first : Nat) (all : List Update)
    (b : Bot Q) (k n : Nat) : Prop where
  own : b.st.tok = some tok
  offset : b.st.offset = some k
  queue : Cursor.onward Update.updateId k (T.waits (b.queue tok)) =
    Cursor.onward Update.updateId k all
  far : k = first ∨ ∃ u ∈ all, k = u.updateId + 1
  handled : distinct (b.handled tok) = all.take n
  reached : Cursor.below Update.updateId k all ≤ n
  few : n ≤ all.length

section

variable {Q : Type} {T : Telegram Q} {tok : String} {first : Nat} {all : List Update} {b : Bot Q}
  {k n : Nat}

theorem Reading.asks (h : Reading T tok first all b k n) : b.offset tok = some k := by
  simp [Bot.offset, h.own, h.offset]

/-- A request confirms what is before the offset. -/
theorem Reading.confirms (h : Reading T tok first all b k n) (hT : T.Documented) :
    T.waits (request T (b.offset tok) (b.queue tok)).1 = Cursor.onward Update.updateId k all := by
  rw [h.asks, ← h.queue]
  exact hT.confirms _ _

/-- What it gets: a piece from the offset on. -/
theorem Reading.gets (h : Reading T tok first all b k n) (hT : T.Documented)
    (hall : Cursor.Sorted Update.updateId all) :
    (request T (b.offset tok) (b.queue tok)).2 <+:
        all.drop (Cursor.below Update.updateId k all) ∧
      (request T (b.offset tok) (b.queue tok)).2.length ≤ 100 := by
  rw [h.asks, ← Cursor.onward_eq_drop hall, ← h.queue]
  exact ⟨hT.answers _ _, hT.few _ _⟩

theorem Reading.forget (h : Reading T tok first all b k n) (hT : T.Documented) :
    Reading T tok first all (b.asked T tok) k n where
  own := h.own
  offset := h.offset
  queue := by simp [Bot.asked, h.confirms hT, Cursor.onward_onward le_rfl]
  far := h.far
  handled := h.handled
  reached := h.reached
  few := h.few

/-- A piece from the offset on is handled, some of it perhaps for another time. -/
theorem Reading.piece (h : Reading T tok first all b k n)
    (hall : Cursor.Sorted Update.updateId all) {ls : List Update}
    (hls : ls <+: all.drop (Cursor.below Update.updateId k all)) :
    Reading T tok first all (b.handle tok ls) k
      (max n (Cursor.below Update.updateId k all + ls.length)) where
  own := h.own
  offset := h.offset
  queue := h.queue
  far := h.far
  handled := by
    have hnew : (b.handle tok ls).handled tok = b.handled tok ++ ls := by simp [Bot.handle]
    have hold : Firsts.firsts (fun _ => false) (fun a b => decide (a = b)) (b.handled tok) =
        distinct (all.take n) := h.handled.trans (distinct_take hall n).symm
    unfold distinct
    rw [hnew, Firsts.firsts_append, hold, Firsts.foldl_piece (by simp) h.reached hls]
    exact distinct_take hall _
  reached := h.reached.trans (le_max_left _ _)
  few := by
    have hlen := hls.length_le
    rw [List.length_drop] at hlen
    have hbelow : Cursor.below Update.updateId k all ≤ all.length := Cursor.below_le _ _
    have hfew := h.few
    omega

/-- The state is written, or not. -/
theorem Reading.save (h : Reading T tok first all b k n) (p : Poll) {st : Patch}
    (hst : st.tok = none ∨ st.tok = some tok) (force : Bool) (wait : Nat)
    (hfar : st.offset.getD k = first ∨ ∃ u ∈ all, st.offset.getD k = u.updateId + 1)
    (hk : k ≤ st.offset.getD k)
    (hreached : Cursor.below Update.updateId (st.offset.getD k) all ≤ n) :
    Reading T tok first all (b.save p st force wait).1 (if p.saved then st.offset.getD k else k) n := by
  unfold Bot.save
  cases p.saved with
  | true =>
    obtain ⟨htok, hoff⟩ := saveState_offset h.own h.offset hst force p.now
    have hqueue : Cursor.onward Update.updateId (st.offset.getD k) (T.waits (b.queue tok)) =
        Cursor.onward Update.updateId (st.offset.getD k) all := by
      rw [← Cursor.onward_onward hk (T.waits (b.queue tok)), h.queue, Cursor.onward_onward hk]
    exact ⟨htok, hoff, hqueue, hfar, h.handled, hreached, h.few⟩
  | false => exact h

/-- A state without an offset. -/
theorem Reading.note (h : Reading T tok first all b k n) (p : Poll) {st : Patch}
    (hst : st.tok = none ∨ st.tok = some tok) (hoff : st.offset = none) (force : Bool) (wait : Nat) :
    Reading T tok first all (b.save p st force wait).1 k n := by
  have hd : st.offset.getD k = k := by simp [hoff]
  have hs := h.save p hst force wait (by rw [hd]; exact h.far) hd.ge
    (by rw [hd]; exact h.reached)
  simpa [hd] using hs

theorem save_handled (b : Bot Q) (p : Poll) (st : Patch) (force : Bool) (wait : Nat) :
    (b.save p st force wait).1.handled = b.handled := by
  unfold Bot.save
  split <;> rfl

/-- The step lemma of a poll. -/
theorem reading_poll (h : Reading T tok first all b k n) (hT : T.Documented)
    (hall : Cursor.Sorted Update.updateId all) {p : Poll} (hp : p.cfg.tok = tok) :
    ∃ k' n', Reading T tok first all (pollOnce T b p).1 k' n' ∧
      (Whole (.poll p) → b.handled tok = all.take (Cursor.below Update.updateId k all) →
        (pollOnce T b p).1.handled tok = all.take (Cursor.below Update.updateId k' all)) := by
  subst hp
  unfold pollOnce
  dsimp only
  split
  · split
    · exact ⟨k, n, h.note p (.inl rfl) rfl true IDLE, fun _ he => by rwa [save_handled]⟩
    · exact ⟨k, n, h, fun _ he => he⟩
  cases hr : p.reply with
  | lost reached error =>
    dsimp only
    cases reached with
    | true =>
      refine ⟨k, n, (h.forget hT).note p (.inr rfl) rfl false BACKOFF_ERR, fun _ he => ?_⟩
      rw [save_handled]
      exact he
    | false =>
      refine ⟨k, n, h.note p (.inr rfl) rfl false BACKOFF_ERR, fun _ he => ?_⟩
      rw [save_handled]
      exact he
  | refused code desc =>
    refine ⟨k, n, h.note p (.inr rfl) rfl false _, fun _ he => ?_⟩
    rw [save_handled]
    exact he
  | answered through me =>
    dsimp only
    obtain ⟨hpre, hlen⟩ := h.gets hT hall
    rw [h.asks] at hpre hlen ⊢
    rw [toHandle_some, nextOffset_some]
    generalize (request T (some k) (b.queue p.cfg.tok)).2 = piece at hpre hlen ⊢
    have hsome : piece.take through <+: all.drop (Cursor.below Update.updateId k all) :=
      (List.take_prefix _ _).trans hpre
    have hread := (h.forget hT).piece hall hsome
    by_cases hstop : through < piece.length
    · refine ⟨k, _, by rw [if_pos hstop]; exact hread, fun hw he => ?_⟩
      have hthrough : 100 ≤ through ∧ p.saved = true := by simpa [Whole, hr] using hw
      omega
    · rw [if_neg hstop]
      have hall' : piece.take through = piece := List.take_of_length_le (by omega)
      rw [hall'] at hread ⊢
      have hnext := Cursor.below_next hall hpre
      have hin : ∀ u ∈ piece, u ∈ all := fun u hu => List.mem_of_mem_drop (hpre.subset hu)
      have hfar : Cursor.next Update.updateId k piece = first ∨
          ∃ u ∈ all, Cursor.next Update.updateId k piece = u.updateId + 1 := by
        rcases @Cursor.next_cases _ Update.updateId k piece with hk | ⟨u, hu, hk⟩
        · rw [hk]
          exact h.far
        · exact .inr ⟨u, hin u hu, hk⟩
      refine ⟨_, _, hread.save p (.inr rfl) false 0 hfar (Cursor.le_next _ _) ?_, fun hw he => ?_⟩
      · rw [Option.getD_some, hnext]
        exact le_max_right _ _
      have hsaved : 100 ≤ through ∧ p.saved = true := by simpa [Whole, hr] using hw
      rw [save_handled, hsaved.2, if_pos rfl, Option.getD_some, hnext, List.take_add,
        ← List.prefix_iff_eq_take.mp hpre, ← he]
      simp [Bot.handle, Bot.asked]

/-- The step lemma of an update that comes. -/
theorem reading_arrive (h : Reading T tok first all b k n) (hT : T.Documented) {upd : Update}
    (hlast : ∀ u ∈ all, u.updateId < upd.updateId) (hfirst : first ≤ upd.updateId) :
    Reading T tok first (all ++ [upd]) (step T b (.arrive tok upd)) k n ∧
      Cursor.below Update.updateId k (all ++ [upd]) = Cursor.below Update.updateId k all := by
  have hk : k ≤ upd.updateId := by
    rcases h.far with hk | ⟨u, hu, hk⟩
    · omega
    · have := hlast u hu
      omega
  have hbelow : Cursor.below Update.updateId k (all ++ [upd]) =
      Cursor.below Update.updateId k all := Cursor.below_append (by simpa using hk)
  refine ⟨⟨h.own, h.offset, ?_, ?_, ?_, ?_, ?_⟩, hbelow⟩
  · have hqueue : T.waits ((step T b (.arrive tok upd)).queue tok) =
        T.waits (b.queue tok) ++ [upd] := by
      simp [step, hT.arrives]
    rw [hqueue, Cursor.onward_append, Cursor.onward_append, h.queue]
  · exact h.far.imp id fun ⟨u, hu, hk⟩ => ⟨u, List.mem_append_left _ hu, hk⟩
  · exact h.handled.trans (List.take_append_of_le_length h.few).symm
  · rw [hbelow]
    exact h.reached
  · exact h.few.trans (by simp)

/-- The step lemma of a queue that ages. -/
theorem reading_age (h : Reading T tok first all b k n) (hT : T.Documented) {now : Int}
    (hkept : Kept T tok b (.age tok now)) :
    Reading T tok first all (step T b (.age tok now)) k n where
  own := h.own
  offset := h.offset
  queue := by
    have hall := hkept rfl k h.asks
    have hleft : T.waits ((step T b (.age tok now)).queue tok) =
        (T.waits (b.queue tok)).filter fun u => now - DAY ≤ u.came := by
      simp [step, hT.keeps]
    rw [hleft, ← h.queue]
    unfold Cursor.onward at hall ⊢
    rw [List.filter_comm, List.filter_eq_self.mpr fun u hu => decide_eq_true (hall u hu)]
  far := h.far
  handled := h.handled
  reached := h.reached
  few := h.few

/-- What happens to the queue of another bot is nothing to this one. -/
theorem Reading.other (h : Reading T tok first all b k n) {t : String} (ht : t ≠ tok) (q : Q) :
    Reading T tok first all { b with queue := Function.update b.queue t q } k n where
  own := h.own
  offset := h.offset
  queue := by simpa [Ne.symm ht] using h.queue
  far := h.far
  handled := h.handled
  reached := h.reached
  few := h.few

end

/-! ## Runs -/

theorem arrivals_snoc (tok : String) (es : List Event) (e : Event) :
    arrivals tok (es ++ [e]) = arrivals tok es ++ arrivals tok [e] := by
  simp [arrivals]

theorem arrivals_other {tok t : String} (h : t ≠ tok) (upd : Update) :
    arrivals tok [.arrive t upd] = [] := by
  simp [arrivals, h]

section

variable {Q : Type} {T : Telegram Q} {tok : String} {start : Bot Q} {k : Nat} {es : List Event}

/-- All updates of a run from the offset on: those that wait at its beginning, and the new ones. -/
def ahead (T : Telegram Q) (tok : String) (k : Nat) (start : Bot Q) (es : List Event) :
    List Update :=
  Cursor.onward Update.updateId k (T.waits (start.queue tok)) ++ arrivals tok es

theorem ahead_snoc (e : Event) :
    ahead T tok k start (es ++ [e]) = ahead T tok k start es ++ arrivals tok [e] := by
  unfold ahead
  rw [arrivals_snoc, List.append_assoc]

/-- Every run of polls of one bot. -/
theorem reading_run (hT : T.Documented) (hown : start.st.tok = some tok)
    (hoff : start.st.offset = some k) (hnone : start.handled tok = [])
    (bot : ∀ e ∈ es, OfBot tok e) (kept : Runs.Along (step T) (Kept T tok) start es)
    (sorted : Cursor.Sorted Update.updateId (ahead T tok k start es))
    (later : ∀ u ∈ arrivals tok es, k ≤ u.updateId) :
    ∃ k' n, Reading T tok k (ahead T tok k start es) (Runs.run (step T) start es) k' n ∧
      ((∀ e ∈ es, Whole e) → (Runs.run (step T) start es).handled tok = (ahead T tok k start es).take
        (Cursor.below Update.updateId k' (ahead T tok k start es))) := by
  induction es using List.reverseRecOn with
  | nil =>
    have hall : ∀ u ∈ ahead T tok k start [], k ≤ u.updateId := by
      intro u hu
      have hin : u ∈ Cursor.onward Update.updateId k (T.waits (start.queue tok)) := by
        simpa [ahead, arrivals] using hu
      exact (Cursor.mem_onward.mp hin).2
    have hzero := Cursor.below_eq_zero hall
    refine ⟨k, 0, ⟨hown, hoff, ?_, .inl rfl, ?_, hzero.le, Nat.zero_le _⟩, fun _ => ?_⟩
    · simp [ahead, arrivals, Cursor.onward_onward le_rfl]
    · simp [hnone, Firsts.firsts]
    · simp [hnone, hzero]
  | append_singleton es e ih =>
    rw [ahead_snoc] at sorted ⊢
    obtain ⟨hsorted, -, hcross⟩ := List.pairwise_append.mp sorted
    rw [arrivals_snoc] at later
    obtain ⟨hkept, hlast⟩ := Runs.along_snoc.mp kept
    obtain ⟨k', n, hread, hexact⟩ := ih (fun x hx => bot x (List.mem_append_left _ hx)) hkept hsorted
      fun u hu => later u (List.mem_append_left _ hu)
    rw [Runs.run_snoc]
    cases e with
    | arrive t upd =>
      by_cases ht : t = tok
      · subst ht
        have hone : arrivals t [.arrive t upd] = [upd] := by simp [arrivals]
        rw [hone] at hcross later ⊢
        obtain ⟨hnew, hbelow⟩ := reading_arrive hread hT (fun u hu => hcross u hu upd (by simp))
          (later upd (by simp))
        refine ⟨k', n, hnew, fun hw => ?_⟩
        have hold := hexact fun x hx => hw x (List.mem_append_left _ hx)
        rw [hbelow, List.take_append_of_le_length (Cursor.below_le _ _)]
        exact hold
      · rw [arrivals_other ht, List.append_nil]
        exact ⟨k', n, hread.other ht _, fun hw => hexact fun x hx => hw x (List.mem_append_left _ hx)⟩
    | age t now =>
      have hnil : arrivals tok [.age t now] = [] := rfl
      rw [hnil, List.append_nil]
      refine ⟨k', n, ?_, fun hw => hexact fun x hx => hw x (List.mem_append_left _ hx)⟩
      by_cases ht : t = tok
      · subst ht
        exact reading_age hread hT hlast
      · exact hread.other ht _
    | poll p =>
      have hnil : arrivals tok [.poll p] = [] := rfl
      rw [hnil, List.append_nil]
      obtain ⟨k2, n2, hnew, hstep⟩ := reading_poll hread hT hsorted (bot (.poll p) (by simp))
      exact ⟨k2, n2, hnew, fun hw => hstep (hw (.poll p) (by simp))
        (hexact fun x hx => hw x (List.mem_append_left _ hx))⟩

/-- From an offset that is kept, over every run of polls of one bot whose updates come with
growing numbers, and are asked for within a day: each update is handled in the order they came,
when it is handled first; none is lost, for what was not handled is still to be asked for; and
where no batch was broken off and each offset was saved, each is handled once. -/
theorem updates_handled (hT : T.Documented) (hown : start.st.tok = some tok)
    (hoff : start.st.offset = some k) (hnone : start.handled tok = [])
    (bot : ∀ e ∈ es, OfBot tok e) (kept : Runs.Along (step T) (Kept T tok) start es)
    (sorted : Cursor.Sorted Update.updateId (ahead T tok k start es))
    (later : ∀ u ∈ arrivals tok es, k ≤ u.updateId) :
    distinct ((Runs.run (step T) start es).handled tok) <+: ahead T tok k start es ∧
      (∀ u ∈ ahead T tok k start es, u ∈ (Runs.run (step T) start es).handled tok ∨
        u ∈ T.waits (request T ((Runs.run (step T) start es).offset tok)
          ((Runs.run (step T) start es).queue tok)).1) ∧
      ((∀ e ∈ es, Whole e) →
        (Runs.run (step T) start es).handled tok <+: ahead T tok k start es) := by
  obtain ⟨k', n, hread, hexact⟩ := reading_run hT hown hoff hnone bot kept sorted later
  refine ⟨hread.handled ▸ List.take_prefix _ _, fun u hu => ?_, fun hw => ?_⟩
  · rw [hread.confirms hT]
    by_cases hk : k' ≤ u.updateId
    · exact .inr (Cursor.mem_onward.mpr ⟨hu, hk⟩)
    · left
      have hin := Cursor.mem_take_below sorted hu (not_le.mp hk)
      have hn : u ∈ (ahead T tok k start es).take n :=
        (List.take_prefix_take_left hread.reached).subset hin
      rw [← hread.handled] at hn
      exact Firsts.mem_firsts hn
  · rw [hexact hw]
    exact List.take_prefix _ _

end

/-- A queue that is a list, and does as the documentation says. -/
def listTelegram : Telegram (List Update) where
  waits := id
  arrive q u := q ++ [u]
  getUpdates q offset :=
    let rest := if offset < 0 then q.drop (q.length - offset.natAbs)
      else Cursor.onward Update.updateId offset.toNat q
    (rest, rest.take 100)
  left q now := q.filter fun u => now - DAY ≤ u.came

theorem listTelegram_documented : listTelegram.Documented where
  arrives _ _ := rfl
  confirms _ _ := rfl
  answers _ _ := List.take_prefix _ _
  few _ _ := List.length_take_le _ _
  keeps _ _ := rfl

def restarted : Bot (List Update) where
  st := { tok := some "t", offset := some 5, status := some "ok", error := some "",
          bot := some "@bot", ts := some 0 }
  queue _ := []
  handled _ := []

def answer (through : Nat) : Event :=
  .poll { cfg := { tok := "t", buttonsOn := true }, now := 1, reply := .answered through "@bot",
          saved := true }

/-- Two updates, the panel stops between them, and Telegram drops what is a day old. -/
def stoppedRun : List Event :=
  [.arrive "t" ⟨5, 100, "a"⟩, .arrive "t" ⟨6, 200, "b"⟩, answer 1, .age "t" 86500, answer 100]

theorem updates_handled_twice :
    distinct ((Runs.run (step listTelegram) restarted stoppedRun).handled "t") <+:
        [⟨5, 100, "a"⟩, ⟨6, 200, "b"⟩] ∧
      (Runs.run (step listTelegram) restarted stoppedRun).handled "t" =
        [⟨5, 100, "a"⟩, ⟨5, 100, "a"⟩, ⟨6, 200, "b"⟩] := by
  have kept : Runs.Along (step listTelegram) (Kept listTelegram "t") restarted stoppedRun := by
    refine ⟨trivial, trivial, trivial, fun _ k hk => ?_, trivial, trivial⟩
    obtain rfl : 5 = k := Option.some.inj hk
    decide +kernel
  have h := updates_handled listTelegram_documented (show restarted.st.tok = some "t" from rfl)
    (show restarted.st.offset = some 5 from rfl) rfl (by simp [stoppedRun, OfBot, answer]) kept
    (by unfold Cursor.Sorted; decide +kernel) (by decide +kernel)
  exact ⟨h.1, by decide +kernel⟩

end Kervax.BotPoll
