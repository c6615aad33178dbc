-- The OOM alert tick after tick. Beside its keys stands what it has counted: the items
-- that are held and the messages that went out. What is asked of a run and what it has
-- to keep is said here, and what one step of `alert_step` can come to.
import Kervax.OomAlert
import Kervax.Runs

namespace Kervax.Oom

open Clusters

/-! ## The world -/

/-- A message that was delivered, and what it counts. -/
structure Told where
  at_ : Time
  alert : Alert
  items : List Item
deriving DecidableEq, Repr

/-- The keys of the alert, and the records of its run: the kills of the last block and
of all blocks, the mark of the first block, what is held, and the messages, the newest
first. -/
structure World where
  st : St := {}
  clock : Time := 0
  block : List Kill := []
  known : List Kill := []
  base : Option Time := none
  held : List Item := []
  told : List Told := []
deriving DecidableEq, Repr

/-- What has been counted so far. -/
def entries (w : World) : List Item := w.held ++ w.told.flatMap Told.items

def Item.kills (x : Item) : List Kill := (x.ep.map Episode.kills).getD []

/-- A report is read. -/
def arrive (w : World) (t : Tick) : World :=
  { w with
    clock := t.now
    block := t.kills
    known := w.known ++ t.kills
    base := w.base.or (if t.block.isSome then some (doneAt w.st t) else none) }

/-- A tick of the alert. What it writes after the delivery is lost with the message. -/
def next (w : World) (t : Tick) : World :=
  let o := alertStep w.st t
  let st := w.st.apply o.now
  match o.fire with
  | none => { arrive w t with st := st, held := w.held ++ o.items }
  | some a =>
    if t.delivered then
      { arrive w t with
        st := st.apply o.done
        held := []
        told := ⟨t.now, a, w.held ++ o.items⟩ :: w.told }
    else { arrive w t with st := st }

/-! ## What is asked of a run -/

/-- The run goes on in time, nothing is muted, the block is there once it was, and a
record that is gone does not come back. -/
structure Admits (w : World) (t : Tick) : Prop where
  later : w.clock ≤ t.now
  unmuted : t.oomMuted = false ∧ ∀ e, t.muted e = false
  present : w.base.isSome → t.block.isSome
  records : ∀ k ∈ t.kills, k ∈ w.block ∨ k ∉ w.known

/-- The end of the last episode that was counted. -/
def World.done (w : World) : Time := w.st.oomEnd.getD 0

/-- The records are in time: a new one is later than all that was counted, by more than
the gap of an episode, and a record stays until it is counted. -/
structure Timely (w : World) (t : Tick) : Prop where
  new : ∀ base ∈ w.base, ∀ k ∈ t.kills, k ∉ w.known → base < k.ts →
    w.done < k.ts ∧ ∀ p ∈ t.kills, base < p.ts → p.ts ≤ w.done → gap < k.ts - p.ts
  stays : ∀ base ∈ w.base, ∀ k ∈ w.block, base < k.ts → w.done < k.ts → k ∈ t.kills

/-! ## What a run keeps -/

/-- The kills of an episode that are no history. -/
def own (base : Time) (c : List Kill) : List Kill := c.filter fun k => base < k.ts

/-- Nothing of these kills has been counted. -/
def Waits (w : World) (c : List Kill) : Prop := ∀ x ∈ entries w, ∀ k ∈ c, k ∉ x.kills

/-- One item counts all of these kills, and no other has any of them. -/
def CountedOnce (w : World) (c : List Kill) : Prop :=
  ∃ x, (entries w).filter (fun x => c.any fun k => k ∈ x.kills) = [x] ∧ ∀ k ∈ c, k ∈ x.kills

/-- Every episode of the block that is no history waits after the last one that was
counted, or is counted once; every kill that was ever reported waits in the block, or is
counted once; and within the hour after a message only a higher level goes out. -/
structure Right (w : World) : Prop where
  episodes : ∀ base ∈ w.base, ∀ c ∈ clusters Kill.ts gap w.block, own base c ≠ [] →
    (∀ k ∈ own base c, w.done < k.ts) ∧ Waits w (own base c) ∨
      (∀ k ∈ own base c, k.ts ≤ w.done) ∧ CountedOnce w (own base c)
  kills : ∀ base ∈ w.base, ∀ k ∈ w.known, base < k.ts →
    w.done < k.ts ∧ k ∈ w.block ∧ Waits w [k] ∨ k.ts ≤ w.done ∧ CountedOnce w [k]
  quiet : w.told.Pairwise fun m p => m.at_ - p.at_ < repeatS → p.alert.level < m.alert.level

/-- How many times a text says that it happened. -/
def Text.times : Text → Option Nat
  | .episode _ _ _ more _ => some (more + 1)
  | .again n => some n
  | .counter _ _ => none

/-- The outcome tells or holds a growth of the counter of its own. -/
def TellsGrowth (o : Outcome) : Prop :=
  (∃ x ∈ o.items, x.ep = none) ∨ ∃ lvl n victim, o.fire = some ⟨lvl, .counter n victim⟩

/-- What a tick does: an episode that is over is counted unless the message of the tick
is lost; past the hour nothing stays held, unless it is lost; a text says how many it
counts; and a growth is told only when the kernel had not counted it with an episode
before, and none that was counted ended within ten minutes before it was noticed. -/
structure Does (w : World) (t : Tick) : Prop where
  counts : ∀ e ∈ t.eps, settle ≤ t.ref - e.stop →
    e.stop ≤ (next w t).done ∨ (alertStep w.st t).fire.isSome ∧ t.delivered = false
  empties : recent w.st t = false → t.delivered = true → (next w t).held = []
  number : ∀ a, (alertStep w.st t).fire = some a → ∀ n, a.text.times = some n →
    n = (w.held ++ (alertStep w.st t).items).length
  growth : TellsGrowth (alertStep w.st t) → (∀ x ∈ entries w, x.total < t.total) ∧
    ∀ e ∈ t.eps, e.stop ≤ doneAt w.st t → e.stop < noticed w.st t - growthS

/-! ## The results of the step -/

/-- A growth that has no episode in the journal. -/
structure Growth (st : St) (t : Tick) : Prop where
  grown : st.oomSeen < t.total
  none_fresh : fresh st t = []
  none_near : ∀ e ∈ t.eps, e.stop < noticed st t - growthS

/-- The items of the episodes that are over. -/
def readyItems (st : St) (t : Tick) : List Item := (ready st t).map fun e => ⟨some e, t.total⟩

def growthItem (t : Tick) : Item := ⟨none, t.total⟩

/-- What is written after a message. -/
def sentUpd (t : Tick) (lvl : Nat) : Upd :=
  { oomHeld := some [], oomSent := some t.now, oomSentLvl := some lvl }

/-- The outcomes of `alert_step` without mutes. -/
inductive Result (st : St) (t : Tick) : Outcome → Prop
  | held (hready : ready st t ≠ []) (hrecent : recent st t = true) (ids : List HeldId)
      (hids : ids.length = (ready st t).length) :
      Result st t
        { now := ((firstApply st t).and (readyUpd st t)).and { oomHeld := some (st.oomHeld ++ ids) }
          items := readyItems st t }
  | told (hready : ready st t ≠ []) (lvl : Nat) (hlvl : recent st t = true → st.oomSentLvl < lvl)
      (text : Text) (htimes : text.times = some (st.oomHeld.length + (ready st t).length)) :
      Result st t
        { fire := some ⟨lvl, text⟩
          done := (readyUpd st t).and (sentUpd t lvl)
          now := firstApply st t
          items := readyItems st t }
  | again (hready : ready st t = []) (hrecent : recent st t = false) (lvl : Nat)
      (text : Text) (htimes : text.times = some st.oomHeld.length) :
      Result st t { fire := some ⟨lvl, text⟩, done := sentUpd t lvl, now := firstApply st t }
  | silent (hready : ready st t = []) (hheld : st.oomHeld ≠ [] → recent st t = true)
      (seen : Option Int) (hseen : ∀ n, seen = some n → st.oomSeen ≤ n) (wait : Option Time) :
      Result st t { now := (firstApply st t).and { oomSeen := seen, oomWait := wait } }
  | growthHeld (hready : ready st t = []) (hrecent : recent st t = true) (hgrowth : Growth st t) :
      Result st t
        { now := ((firstApply st t).and { oomSeen := some t.total, oomWait := some 0 }).and
            { oomHeld := some (st.oomHeld ++ [.counter t.total]) }
          items := [growthItem t] }
  | growthTold (hready : ready st t = []) (hheld : st.oomHeld = []) (hrecent : recent st t = false)
      (hgrowth : Growth st t) (n : Int) (victim : String) :
      Result st t
        { fire := some ⟨1, .counter n victim⟩
          done := ({ oomSeen := some t.total, oomWait := some 0 } : Upd).and (sentUpd t 1)
          now := firstApply st t
          items := [growthItem t] }

theorem Upd.and_empty (u : Upd) : u.and {} = u := by
  simp [Upd.and]

theorem result_ready {st : St} {t : Tick} (hm : ∀ e, t.muted e = false) (h : ready st t ≠ []) :
    Result st t (readyStep st t) := by
  have hall : (ready st t).filter (fun e => !t.muted e) = ready st t := by
    apply List.filter_eq_self.mpr
    intro e _
    simp [hm e]
  unfold readyStep
  rw [hall]
  dsimp only
  split
  · next hlast => exact absurd (List.getLast?_eq_none_iff.mp hlast) h
  · next last _ =>
    unfold tellReady
    dsimp only
    have hlen : 0 < (ready st t).length := List.length_pos_iff.mpr h
    split
    · next hrec => exact .held h hrec.1 _ (by simp)
    · next hnot =>
      refine .told h _ (fun hrec => ?_) _ ?_
      · by_contra hle
        exact hnot ⟨hrec, not_lt.mp hle⟩
      · simp only [Text.times, Option.some.injEq]
        omega

theorem result_held {st : St} {t : Tick} (hm : t.oomMuted = false ∧ ∀ e, t.muted e = false)
    (hready : ready st t = []) (hheld : st.oomHeld ≠ []) (hrecent : recent st t = false) :
    Result st t (heldStep st t) := by
  have hall : st.oomHeld.filter (fun i => !(t.oomMuted || (byId t i).any t.muted)) = st.oomHeld := by
    apply List.filter_eq_self.mpr
    intro i _
    cases byId t i <;> simp [hm.1, hm.2]
  have hlen : 0 < st.oomHeld.length := List.length_pos_iff.mpr hheld
  unfold heldStep
  rw [hall]
  dsimp only
  rw [if_neg hheld]
  unfold tellHeld
  dsimp only
  split
  · refine .again hready hrecent _ _ ?_
    simp only [Text.times, Option.some.injEq]
    omega
  · exact .again hready hrecent _ _ rfl

theorem result_counter {st : St} {t : Tick} (hm : t.oomMuted = false) (hready : ready st t = [])
    (hheld : st.oomHeld ≠ [] → recent st t = true) (hgrown : st.oomSeen < t.total)
    (hfresh : fresh st t = []) : Result st t (counterStep st t) := by
  have hseen (n : Int) (h : some t.total = some n) : st.oomSeen ≤ n := by
    cases h
    exact hgrown.le
  unfold counterStep
  dsimp only
  split
  · exact .silent hready hheld (some t.total) hseen (some 0)
  next hnear =>
  have hgrowth : Growth st t := by
    refine ⟨hgrown, hfresh, fun e he => ?_⟩
    simp only [List.any_eq_true, decide_eq_true_eq, not_exists, not_and, not_le] at hnear
    exact hnear e he
  split
  · exact .silent hready hheld none (fun _ h => by cases h) (some t.now)
  split
  · have h := Result.silent hready hheld none (fun _ h => by cases h) none
    rwa [Upd.and_empty] at h
  rw [hm, if_neg (by decide)]
  split
  · next hrec => exact .growthHeld hready hrec hgrowth
  · next hrec =>
    have hrec : recent st t = false := by simpa using hrec
    have hnone : st.oomHeld = [] := by
      by_contra hne
      rw [hheld hne] at hrec
      cases hrec
    exact .growthTold hready hnone hrec hgrowth _ _

/-- The outcome of a step without mutes. -/
theorem result (st : St) {t : Tick} (hm : t.oomMuted = false ∧ ∀ e, t.muted e = false) :
    Result st t (alertStep st t) := by
  unfold alertStep
  split
  · next h => exact result_ready hm.2 h
  next hready =>
  have hready : ready st t = [] := not_not.mp hready
  split
  · next h => exact result_held hm hready h.1 h.2
  next hheld =>
  have hheld (hne : st.oomHeld ≠ []) : recent st t = true := by
    by_contra hrec
    exact hheld ⟨hne, by simpa using hrec⟩
  split
  · next h => exact result_counter hm.1 hready hheld h.1 h.2
  · have h := Result.silent hready hheld none (fun _ h => by cases h) none
    rwa [Upd.and_empty] at h

end Kervax.Oom
