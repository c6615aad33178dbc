-- Over any run an alert is repeated a few times at most, never too soon, and not at all once it
-- is taken or resolved; and what a pause held back reaches the main chat once at most.
import Kervax.Escalation

namespace Kervax.TgBot

variable {z : Zone} {w : World} {r : Nat} {row : TgAlert}

theorem Onward.refl (row : TgAlert) : Onward row row := ⟨rfl, id, id, .inl rfl⟩

theorem Later.refl (row : TgAlert) : Later row row := ⟨.refl row, rfl, rfl⟩

/-! ## One step -/

/-- Presses: "taken" is the only one of these fields that a button writes. -/
theorem later_apply (z : Zone) (still : Nat → String) (hrow : w.rows r = some row) (op : Op)
    (who : String) (user : Option User) (now : Int) :
    ∃ row', (apply z still w r row op who user now).world.rows r = some row' ∧ Later row row' := by
  have hset : ∀ (w' : World) row', Later row row' →
      ∃ row'', (w'.setRow r row').rows r = some row'' ∧ Later row row'' :=
    fun w' row' h => ⟨row', by simp [World.setRow], h⟩
  have hsame : ∃ row', w.rows r = some row' ∧ Later row row' := ⟨row, hrow, .refl row⟩
  have hmute : ∃ row', (pressMute z w r row op who now).world.rows r = some row' ∧
      Later row row' := by
    unfold pressMute
    split
    · exact hsame
    dsimp only
    split
    · exact hsame
    · exact hset _ _ ⟨⟨rfl, id, id, .inl rfl⟩, rfl, rfl⟩
  unfold apply
  split
  · exact hsame
  split
  · exact hsame
  cases op with
  | ack =>
    unfold pressAck
    dsimp only
    split
    · exact hsame
    · next hno => exact hset _ _ ⟨⟨rfl, fun h => absurd h hno, id, .inl rfl⟩, rfl, rfl⟩
  | us =>
    unfold pressUs
    dsimp only
    split
    · split
      · exact hsame
      split
      · exact hsame
      split
      · exact hsame
      · exact hset _ _ ⟨⟨rfl, id, id, .inl rfl⟩, rfl, rfl⟩
    · exact hsame
  | fix =>
    unfold pressFix
    dsimp only
    split
    · split
      · exact hsame
      split
      · exact hsame
      generalize List.filterMap _ _ = left
      split
      · exact hsame
      · exact hset _ _ ⟨⟨rfl, id, id, .inl rfl⟩, rfl, rfl⟩
    · exact hsame
  | undo =>
    unfold pressUndo
    dsimp only
    split
    · exact hsame
    · exact hset _ _ ⟨⟨rfl, id, id, .inl rfl⟩, rfl, rfl⟩
  | hour => exact hmute
  | morning => exact hmute
  | forever => exact hmute

theorem later_press (z : Zone) (p : Press) (hrow : w.rows r = some row) :
    ∃ row', (handleCallback z w p).world.rows r = some row' ∧ Later row row' := by
  by_cases hr : r = p.id
  · subst hr
    unfold handleCallback
    simp only [hrow]
    split
    · exact ⟨row, hrow, .refl row⟩
    · exact later_apply z p.still hrow p.op _ _ p.now
  · exact ⟨row, by rw [(handleCallback_moved z w p).rows r hr, hrow], .refl row⟩

/-- Whatever else happens in the panel. -/
theorem later_step {i : Input} (hrow : w.rows r = some row) (hs : Steady r w (.world i)) :
    (step z w i).rows r = none ∨ ∃ row', (step z w i).rows r = some row' ∧ Later row row' := by
  cases i with
  | press p => exact .inr (later_press z p hrow)
  | row q o =>
    by_cases hq : q = r
    · subst hq
      have hlater := hs rfl
      rw [hrow] at hlater
      cases o with
      | none => exact .inl (by simp [step])
      | some row' => exact .inr ⟨row', by simp [step], hlater⟩
    · refine .inr ⟨row, ?_, .refl row⟩
      simpa [step, Ne.symm hq] using hrow
  | _ => exact .inr ⟨row, hrow, .refl row⟩

/-- What a pass of `escalate` leaves of a row that it does not repeat. -/
structure Passed (row row' : TgAlert) : Prop extends Onward row row' where
  escLevel : row.escLevel ≤ row'.escLevel ∧ row'.escLevel ≤ max 5 row.escLevel
  escAt : row'.escAt = row.escAt

theorem Later.passed {row row' : TgAlert} (h : Later row row') : Passed row row' :=
  ⟨h.toOnward, ⟨h.escLevel.ge, h.escLevel.le.trans (le_max_right _ _)⟩, h.escAt⟩

/-- A row that was repeated: it was neither taken nor resolved, the time had come, and no more
repeats are left than the settings want. -/
structure Repeated (now : Int) (row row' : TgAlert) : Prop extends Onward row row' where
  untaken : row.ackedBy = "" ∧ row.resolvedAt = none ∧ row.undo.mute = none
  before : row'.escLevel = row.escLevel + 1 ∧ row'.escLevel ≤ 5
  escAt : row'.escAt = some now
  after : row.escAt.getD row.ts + 5 * MIN ≤ now
  early : now < row.ts + 2 * DAY

theorem Pass.due_spec {p : Pass} (h : p.due row = true) :
    row.ackedBy = "" ∧ row.resolvedAt = none ∧ row.undo.mute = none ∧
      (row.escLevel : Int) < p.esc.times ∧ p.now < row.ts + 2 * DAY ∧
      row.escAt.getD row.ts + p.esc.afterMin * MIN ≤ p.now := by
  unfold Pass.due at h
  simp only [Bool.and_eq_true, decide_eq_true_eq, Option.isNone_iff_eq_none] at h
  obtain ⟨⟨⟨⟨⟨⟨hack, hres⟩, hlevel⟩, -⟩, hearly⟩, hafter⟩, hmute⟩ := h
  exact ⟨hack, hres, hmute, hlevel, by omega, by omega⟩

/-- The step lemma of `escalate`. -/
theorem Pass.row_cases (p : Pass) (w : World) (r : Nat) (row : TgAlert) :
    (p.reached w r row = [] ∧ Passed row (p.row w r row)) ∨
      (p.reached w r row ≠ [] ∧ Repeated p.now row (p.row w r row)) := by
  by_cases hgo : p.open = true ∧ p.chats ≠ [] ∧ p.due row = true
  · obtain ⟨hopen, hchats, hdue⟩ := hgo
    obtain ⟨hack, hres, hmute, hlevel, hearly, hafter⟩ := Pass.due_spec hdue
    have hmin := p.esc.after_ok.1
    have htimes := p.esc.times_ok.2
    have hMIN : (0 : Int) ≤ MIN := by decide
    have hpause := Int.mul_le_mul_of_nonneg_right hmin hMIN
    have hfirst : row.escAt.getD row.ts + 5 * MIN ≤ p.now := by omega
    cases hw : stillWanted w row p.now with
    | none =>
      have hreached : p.reached w r row = [] := by simp [Pass.reached, hw]
      refine .inl ⟨hreached, ?_⟩
      have hnew : p.row w r row = { row with resolvedAt := some p.now } := by
        simp [Pass.row, hopen, hchats, hdue, hw]
      rw [hnew]
      exact ⟨⟨rfl, id, fun _ => rfl, .inl rfl⟩, ⟨le_rfl, le_max_right _ _⟩, rfl⟩
    | some b =>
      cases b with
      | false =>
        have hreached : p.reached w r row = [] := by simp [Pass.reached, hw]
        refine .inl ⟨hreached, ?_⟩
        have hnew : p.row w r row = { row with escLevel := p.esc.times.toNat } := by
          simp [Pass.row, hopen, hchats, hdue, hw]
        rw [hnew]
        exact ⟨⟨rfl, id, id, .inl rfl⟩, ⟨by dsimp only; omega, by dsimp only; omega⟩, rfl⟩
      | true =>
        by_cases hreached : p.reached w r row = []
        · refine .inl ⟨hreached, ?_⟩
          have hnew : p.row w r row = row := by
            simp [Pass.row, hopen, hchats, hdue, hw, hreached]
          rw [hnew]
          exact (Later.refl row).passed
        · refine .inr ⟨hreached, ?_⟩
          have hnew : p.row w r row = { row with
              messages := row.messages ++ p.reached w r row
              escLevel := row.escLevel + 1
              escAt := some p.now } := by
            simp [Pass.row, hopen, hchats, hdue, hw, hreached]
          rw [hnew]
          exact ⟨⟨rfl, id, id, .inl rfl⟩, ⟨hack, hres, hmute⟩, ⟨rfl, by dsimp only; omega⟩, rfl,
            hfirst, hearly⟩
  · have hreached : p.reached w r row = [] := by
      unfold Pass.reached
      split
      · next hyes =>
        simp only [Bool.and_eq_true] at hyes
        have hchats : p.chats = [] := by
          by_contra hne
          exact hgo ⟨hyes.1.1, hne, hyes.1.2⟩
        rw [hchats]
        rfl
      · rfl
    have hnew : p.row w r row = row := by
      unfold Pass.row
      rw [if_pos]
      by_contra hno
      refine hgo ?_
      simpa [not_or, and_assoc] using hno
    rw [hnew]
    exact .inl ⟨hreached, (Later.refl row).passed⟩

/-- What is left of a row that was held back, where it was given to the main chat. -/
structure Gave (now : Int) (row row' : TgAlert) : Prop extends Onward row row' where
  untaken : row.ackedBy = "" ∧ row.resolvedAt = none
  gone : row.undo.held.isSome ∧ row'.undo.held = none
  after : row.ts + DUP_HOLD_MIN * MIN ≤ now
  early : now < row.ts + DAY

theorem later_dropHeld (row : TgAlert) : Later row (dropHeld row) :=
  ⟨⟨rfl, id, id, .inr rfl⟩, rfl, rfl⟩

theorem CatchUp.late_spec {p : CatchUp} {chat : String} (h : p.late row = some chat) :
    row.undo.held = some chat ∧ row.ackedBy = "" ∧ row.resolvedAt = none ∧
      row.ts + DUP_HOLD_MIN * MIN ≤ p.now ∧ p.now < row.ts + DAY := by
  unfold CatchUp.late at h
  cases hheld : row.undo.held with
  | none => simp [hheld] at h
  | some c =>
    simp only [hheld] at h
    split at h
    · next hgo =>
      simp only [Bool.and_eq_true, decide_eq_true_eq, Option.isNone_iff_eq_none] at hgo
      obtain ⟨⟨⟨⟨⟨-, hres⟩, hearly⟩, hack⟩, -⟩, hafter⟩ := hgo
      exact ⟨h, hack, hres, by omega, by omega⟩
    · cases h

theorem CatchUp.row_later (p : CatchUp) (w : World) (r : Nat) (row : TgAlert) :
    Later row (p.row w r row) := by
  unfold CatchUp.row
  split
  · exact .refl row
  split
  · exact .refl row
  split
  · exact later_dropHeld row
  split
  · exact .refl row
  split
  · exact ⟨⟨rfl, id, fun _ => rfl, .inr rfl⟩, rfl, rfl⟩
  · exact later_dropHeld row
  · split
    · exact .refl row
    · exact later_dropHeld row
    · exact ⟨⟨rfl, id, id, .inr rfl⟩, rfl, rfl⟩

/-- The step lemma of `dup_catchup`. -/
theorem CatchUp.gave_spec {p : CatchUp} (h : p.gave w r row = true) :
    Gave p.now row (p.row w r row) := by
  unfold CatchUp.gave at h
  cases hlate : p.late row with
  | none => simp [hlate] at h
  | some chat =>
    obtain ⟨hheld, hack, hres, hafter, hearly⟩ := CatchUp.late_spec hlate
    refine ⟨(p.row_later w r row).toOnward, ⟨hack, hres⟩, ⟨by simp [hheld], ?_⟩, hafter, hearly⟩
    simp only [hlate] at h
    cases hsend : p.send r chat with
    | failed => simp [hsend] at h
    | taken mid =>
      have hw : stillWanted w row p.now = some true := by simpa [hsend] using h
      unfold CatchUp.late at hlate
      simp only [hheld] at hlate
      split at hlate
      · next hgo =>
        simp only [Bool.and_eq_true, decide_eq_true_eq, Option.isNone_iff_eq_none] at hgo
        obtain ⟨⟨⟨⟨⟨hopen, -⟩, -⟩, -⟩, hmute⟩, -⟩ := hgo
        unfold CatchUp.row
        simp only [hheld]
        rw [if_neg (by simp [hopen, hres]; omega), if_neg (by simp [hack, hmute]),
          if_neg (by omega), hw, hsend]
        cases mid <;> rfl
      · cases hlate

/-! ## Runs -/

/-- The step lemma of the repeats. -/
theorem tick_repeats {t : Tick} (hrow : w.rows r = some row) (hs : Steady r w t) :
    (repeatedAt w r t = none ∧ ((tick z w t).rows r = none ∨
      ∃ row', (tick z w t).rows r = some row' ∧ Passed row row')) ∨
    ∃ now row', repeatedAt w r t = some now ∧ (tick z w t).rows r = some row' ∧
      Repeated now row row' := by
  cases t with
  | world i =>
    refine .inl ⟨rfl, ?_⟩
    rcases later_step (z := z) hrow hs with hgone | ⟨row', hrow', hlater⟩
    · exact .inl hgone
    · exact .inr ⟨row', hrow', hlater.passed⟩
  | escalate p =>
    have hrow' : (tick z w (.escalate p)).rows r = some (p.row w r row) := by
      simp [tick, escalate, hrow]
    rcases p.row_cases w r row with ⟨hno, hpassed⟩ | ⟨hyes, hrep⟩
    · exact .inl ⟨by simp [repeatedAt, hrow, hno], .inr ⟨_, hrow', hpassed⟩⟩
    · exact .inr ⟨p.now, _, by simp [repeatedAt, hrow, hyes], hrow', hrep⟩
  | catchUp p =>
    refine .inl ⟨rfl, .inr ⟨_, ?_, (p.row_later w r row).passed⟩⟩
    simp [tick, dupCatchup, hrow]

/-- The step lemma of the held alert. -/
theorem tick_gave {t : Tick} (hrow : w.rows r = some row) (hs : Steady r w t) :
    (gaveAt w r t = none ∧ ((tick z w t).rows r = none ∨
      ∃ row', (tick z w t).rows r = some row' ∧ Onward row row')) ∨
    ∃ now row', gaveAt w r t = some now ∧ (tick z w t).rows r = some row' ∧ Gave now row row' := by
  cases t with
  | world i =>
    refine .inl ⟨rfl, ?_⟩
    rcases later_step (z := z) hrow hs with hgone | ⟨row', hrow', hlater⟩
    · exact .inl hgone
    · exact .inr ⟨row', hrow', hlater.toOnward⟩
  | escalate p =>
    refine .inl ⟨rfl, .inr ⟨p.row w r row, by simp [tick, escalate, hrow], ?_⟩⟩
    rcases p.row_cases w r row with ⟨-, hpassed⟩ | ⟨-, hrep⟩
    · exact hpassed.toOnward
    · exact hrep.toOnward
  | catchUp p =>
    have hrow' : (tick z w (.catchUp p)).rows r = some (p.row w r row) := by
      simp [tick, dupCatchup, hrow]
    cases hgave : p.gave w r row with
    | true => exact .inr ⟨p.now, _, by simp [gaveAt, hrow, hgave], hrow', p.gave_spec hgave⟩
    | false =>
      exact .inl ⟨by simp [gaveAt, hrow, hgave], .inr ⟨_, hrow', (p.row_later w r row).toOnward⟩⟩

/-- A number that is free stays free. -/
theorem tick_gone {t : Tick} (hrow : w.rows r = none) (hs : Steady r w t) :
    (tick z w t).rows r = none := by
  cases t with
  | world i =>
    cases i with
    | press p =>
      by_cases hr : r = p.id
      · subst hr
        simp [tick, step, handleCallback, hrow]
      · exact ((handleCallback_moved z w p).rows r hr).trans hrow
    | row q o =>
      by_cases hq : q = r
      · subst hq
        have ho := hs rfl
        rw [hrow] at ho
        cases o with
        | none => simp [tick, step]
        | some row' => exact ho.elim
      · simpa [tick, step, Ne.symm hq] using hrow
    | _ => exact hrow
  | escalate p => simp [tick, escalate, hrow]
  | catchUp p => simp [tick, dupCatchup, hrow]

theorem watch_gone {see : World → Tick → Option Int}
    (hsee : ∀ v t, v.rows r = none → see v t = none) {ts : List Tick} (hrow : w.rows r = none)
    (along : Runs.Along (tick z) (Steady r) w ts) : watch z see w ts = [] := by
  induction ts generalizing w with
  | nil => rfl
  | cons t ts ih =>
    rw [watch, hsee w t hrow, ih (tick_gone hrow along.1) along.2]
    rfl

theorem repeatedAt_gone {v : World} (t : Tick) (h : v.rows r = none) : repeatedAt v r t = none := by
  cases t <;> simp [repeatedAt, h]

theorem gaveAt_gone {v : World} (t : Tick) (h : v.rows r = none) : gaveAt v r t = none := by
  cases t <;> simp [gaveAt, h]

/-- An alert is repeated five times at most, with five minutes before each repeat, in the first
two days, and not at all when it is taken or resolved: whatever the settings are and however
they change, and whatever is pressed and resolved between the passes. -/
theorem repeats_bounded {ts : List Tick} (hrow : w.rows r = some row)
    (along : Runs.Along (tick z) (Steady r) w ts) :
    (watch z (repeatedAt · r) w ts).length + row.escLevel ≤ max 5 row.escLevel ∧
      List.IsChain (fun a b => a + 5 * MIN ≤ b)
        (row.escAt.getD row.ts :: watch z (repeatedAt · r) w ts) ∧
      (∀ t ∈ watch z (repeatedAt · r) w ts, t < row.ts + 2 * DAY) ∧
      (row.ackedBy ≠ "" ∨ row.resolvedAt.isSome → watch z (repeatedAt · r) w ts = []) := by
  have hquiet : ∀ (row : TgAlert) (l : List Int), l = [] →
      l.length + row.escLevel ≤ max 5 row.escLevel ∧
        List.IsChain (fun a b => a + 5 * MIN ≤ b) (row.escAt.getD row.ts :: l) ∧
        (∀ t ∈ l, t < row.ts + 2 * DAY) ∧ (row.ackedBy ≠ "" ∨ row.resolvedAt.isSome → l = []) := by
    rintro row l rfl
    refine ⟨?_, .singleton _, by simp, fun _ => rfl⟩
    rw [List.length_nil, Nat.zero_add]
    exact le_max_right _ _
  induction ts generalizing w row with
  | nil => exact hquiet row _ rfl
  | cons t ts ih =>
    rcases tick_repeats (z := z) hrow along.1 with
      ⟨hsee, hgone | ⟨row', hrow', hp⟩⟩ | ⟨now, row', hsee, hrow', hrep⟩
    · have hnil : watch z (repeatedAt · r) (tick z w t) ts = [] :=
        watch_gone (fun _ t h => repeatedAt_gone t h) hgone along.2
      exact hquiet row _ (by simp [watch, hsee, hnil])
    · obtain ⟨hlen, hchain, hearly, hend⟩ := ih hrow' along.2
      have hlevel := hp.escLevel
      rw [hp.escAt, hp.ts] at hchain
      rw [hp.ts] at hearly
      simp only [watch, hsee, Option.toList_none, List.nil_append]
      refine ⟨by omega, hchain, hearly, fun h => hend ?_⟩
      exact h.imp hp.acked hp.resolved
    · obtain ⟨hlen, hchain, hearly, -⟩ := ih hrow' along.2
      have hlevel := hrep.before
      rw [hrep.escAt] at hchain
      rw [hrep.ts] at hearly
      simp only [watch, hsee, Option.toList_some, List.cons_append, List.nil_append]
      refine ⟨?_, ?_, ?_, ?_⟩
      · rw [List.length_cons]
        omega
      · exact List.isChain_cons_cons.mpr ⟨hrep.after, hchain⟩
      · intro t ht
        rcases List.mem_cons.mp ht with rfl | ht
        · exact hrep.early
        · exact hearly t ht
      · rintro (hack | hres)
        · exact absurd hrep.untaken.1 hack
        · simp [hrep.untaken.2.1] at hres

def unitsPass (now : Int) : Pass where
  now := now
  esc := escClean { enabled := true, afterMin := some 1, times := none, chat := "-200", users := [],
                    kinds := some ["units"] }
  buttonsOn := true
  muted := false
  listening := true
  token := "t"
  accounts := []
  send := fun _ _ => .taken (some 9)

theorem repeats_bounded_units : (watch utc (repeatedAt · 1) unitAlerts
    [.escalate (unitsPass (10 * MIN)), .escalate (unitsPass (20 * MIN)),
      .world (.press (pressOf 1 .ack)), .escalate (unitsPass (30 * MIN))]).length + 0 ≤ max 5 0 := by
  have along : Runs.Along (tick utc) (Steady 1) unitAlerts
      [.escalate (unitsPass (10 * MIN)), .escalate (unitsPass (20 * MIN)),
        .world (.press (pressOf 1 .ack)), .escalate (unitsPass (30 * MIN))] := by
    simp [Runs.Along, Steady]
  exact (repeats_bounded (show unitAlerts.rows 1 = some _ from rfl) along).1

/-- What a pause of copies held back is given to the main chat once at most, ten minutes after
it was sent or later and on its first day, and not when it was taken or resolved before. -/
theorem held_given_once {ts : List Tick} (hrow : w.rows r = some row)
    (along : Runs.Along (tick z) (Steady r) w ts) :
    (watch z (gaveAt · r) w ts).length ≤ 1 ∧
      (∀ t ∈ watch z (gaveAt · r) w ts, row.ts + DUP_HOLD_MIN * MIN ≤ t ∧ t < row.ts + DAY) ∧
      (row.undo.held = none ∨ row.ackedBy ≠ "" ∨ row.resolvedAt.isSome →
        watch z (gaveAt · r) w ts = []) := by
  induction ts generalizing w row with
  | nil => simp [watch]
  | cons t ts ih =>
    rcases tick_gave (z := z) hrow along.1 with
      ⟨hsee, hgone | ⟨row', hrow', ho⟩⟩ | ⟨now, row', hsee, hrow', hgave⟩
    · have hnil : watch z (gaveAt · r) (tick z w t) ts = [] :=
        watch_gone (fun _ t h => gaveAt_gone t h) hgone along.2
      simp [watch, hsee, hnil]
    · obtain ⟨hlen, hwhen, hend⟩ := ih hrow' along.2
      rw [ho.ts] at hwhen
      simp only [watch, hsee, Option.toList_none, List.nil_append]
      refine ⟨hlen, hwhen, fun h => hend ?_⟩
      refine h.imp (fun hn => ?_) fun h => h.imp ho.acked ho.resolved
      rcases ho.held with hsame | hnone
      · exact hsame.trans hn
      · exact hnone
    · obtain ⟨-, -, hend⟩ := ih hrow' along.2
      have hnil := hend (.inl hgave.gone.2)
      simp only [watch, hsee, hnil, Option.toList_some, List.append_nil]
      refine ⟨by simp, ?_, ?_⟩
      · intro t ht
        rw [List.mem_singleton.mp ht]
        exact ⟨hgave.after, hgave.early⟩
      · rintro (hheld | hack | hres)
        · exact absurd hgave.gone.1 (by simp [hheld])
        · exact absurd hgave.untaken.1 hack
        · simp [hgave.untaken.2] at hres

/-- The first alert with its main chat held back. -/
def heldAlerts : World where
  rows r := (unitAlerts.rows r).map fun row =>
    { row with undo := { row.undo with held := if r = 1 then some "-100" else none } }
  servers := unitAlerts.servers
  checks := unitAlerts.checks

def catchUpAt (now : Int) (sent : Sent) : Tick :=
  .catchUp { now, token := "t", muted := false, send := fun _ _ => sent }

/-- Too early, a pass that cannot send, one that gives it, and one more. -/
def heldTicks : List Tick :=
  [catchUpAt (9 * MIN) (.taken (some 8)), catchUpAt (10 * MIN) .failed,
    catchUpAt (11 * MIN) (.taken (some 9)), catchUpAt (12 * MIN) (.taken (some 10))]

theorem held_given_once_units : watch utc (gaveAt · 1) heldAlerts heldTicks = [11 * MIN] ∧
    (watch utc (gaveAt · 1) heldAlerts heldTicks).length ≤ 1 := by
  have along : Runs.Along (tick utc) (Steady 1) heldAlerts heldTicks := by
    simp [heldTicks, catchUpAt, Runs.Along, Steady]
  refine ⟨by decide +kernel, ?_⟩
  exact (held_given_once (show heldAlerts.rows 1 = some _ from rfl) along).1

end Kervax.TgBot
