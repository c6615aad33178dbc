-- The buttons over whole runs: presses on any rows by anyone, between them what the panel and
-- the collector write. What the buttons have muted for ever can be told from the rest, the
-- rest is as without any press, and each muted key is given back by the one row that muted it.
import Kervax.ButtonsLaws
import Kervax.Runs

namespace Kervax.TgBot

open Holdings (Held Book own)

/-! ## What happens -/

inductive Input
  | press (p : Press)
  -- an alert is sent, resolved, repeated, or cleaned away after a month
  | row (r : Nat) (o : Option TgAlert)
  | server (i : Nat) (o : Option Server)
  | check (i : Nat) (o : Option Check)
  -- reports and settings: what is in none of the lists
  | report (i : Nat) (f : Server → Server)
  | checked (i : Nat) (f : Check → Check)
  -- mutes in the panel
  | mute (i : Nat) (k : String)
  | unmute (i : Nat) (k : String)
  | muteCheck (i : Nat) (k : String)
  | unmuteCheck (i : Nat) (k : String)
  -- marks at deadlines: by a user, and by the collector when a secret is gone or renewed
  | ignore (i : Nat) (k : String) (m : Ignored)
  | gone (i : Nat) (k : String) (m : Ignored)
  | watch (i : Nat) (k : String)

def Input.isPress : Input → Bool
  | .press _ => true
  | _ => false

def addKey (k : String) (l : List String) : List String := if k ∈ l then l else l ++ [k]

def World.onServer (w : World) (i : Nat) (f : Server → Server) : World :=
  { w with servers := Function.update w.servers i ((w.servers i).map f) }

def World.onCheck (w : World) (i : Nat) (f : Check → Check) : World :=
  { w with checks := Function.update w.checks i ((w.checks i).map f) }

def step (z : Zone) (w : World) : Input → World
  | .press p => (handleCallback z w p).world
  | .row r o => { w with rows := Function.update w.rows r o }
  | .server i o => { w with servers := Function.update w.servers i o }
  | .check i o => { w with checks := Function.update w.checks i o }
  | .report i f => w.onServer i f
  | .checked i f => w.onCheck i f
  | .mute i k => w.onServer i fun s => { s with alertMutes := addKey k s.alertMutes }
  | .unmute i k => w.onServer i fun s => { s with alertMutes := s.alertMutes.filter (· ≠ k) }
  | .muteCheck i k => w.onCheck i fun c => { c with alertMutes := addKey k c.alertMutes }
  | .unmuteCheck i k => w.onCheck i fun c => { c with alertMutes := c.alertMutes.filter (· ≠ k) }
  | .ignore i k m =>
    w.onServer i fun s => { s with kubeExpiryIgnored := Dict.put s.kubeExpiryIgnored k m }
  | .gone i k m => w.onServer i fun s =>
    { s with kubeExpiryIgnored := s.kubeExpiryIgnored.map fun p => if p.1 = k then (k, m) else p }
  | .watch i k => w.onServer i fun s =>
    { s with kubeExpiryIgnored := s.kubeExpiryIgnored.filter fun p => p.1 ≠ k }

/-- The keys that rows would take out, of a server, of its deadlines and of a monitor. -/
abbrev World.heldMutes (w : World) (i : Nat) : Nat → List String := w.held .srv How.mutes i

abbrev World.heldMarks (w : World) (i : Nat) : Nat → List String := w.held .srv How.marks i

abbrev World.heldChecks (w : World) (i : Nat) : Nat → List String := w.held .chk How.checkMutes i

/-- What a row can give back. -/
def TgAlert.given (row : TgAlert) : Option (Option (Obj × List Nat) × String × How) :=
  row.undo.mute.map fun how => (row.ref, row.kind, how)

/-- What the others keep to: a row is written or cleaned away with what it gives back as it is,
a new server has a new number, and the panel mutes no key that a button holds. -/
def Allowed (w : World) : Input → Prop
  | .press _ => True
  | .row r o => o.bind TgAlert.given = (w.rows r).bind TgAlert.given
  | .server i o => o = none ∨ ∀ r, w.heldMutes i r = [] ∧ w.heldMarks i r = []
  | .check i o => o = none ∨ ∀ r, w.heldChecks i r = []
  | .report _ f => ∀ s, (f s).lists = s.lists
  | .checked _ f => ∀ c, (f c).alertMutes = c.alertMutes
  | .mute i k => ¬ Held (w.heldMutes i) k
  | .unmute _ _ => True
  | .muteCheck i k => ¬ Held (w.heldChecks i) k
  | .unmuteCheck _ _ => True
  | .ignore i k _ => ¬ Held (w.heldMarks i) k
  | .gone _ _ _ => True
  | .watch _ _ => True

/-- Nor does anyone else take out a key that a button holds. -/
def Keeps (w : World) : Input → Prop
  | .unmute i k => ¬ Held (w.heldMutes i) k
  | .unmuteCheck i k => ¬ Held (w.heldChecks i) k
  | .watch i k => ¬ Held (w.heldMarks i) k
  | _ => True

/-! ## The lists without what the buttons hold -/

/-- The lists of a server without what rows would take out. -/
noncomputable def World.ownLists (w : World) (i : Nat) (s : Server) :
    List String × List (String × Ignored) :=
  (own id (w.heldMutes i) s.alertMutes, own Prod.fst (w.heldMarks i) s.kubeExpiryIgnored)

noncomputable def World.ownMutes (w : World) (i : Nat) (c : Check) : List String :=
  own id (w.heldChecks i) c.alertMutes

/-- The one world without what the buttons hold is the other. -/
structure Alike (w w0 : World) : Prop where
  servers : ∀ i, (w.servers i).map (w.ownLists i) = (w0.servers i).map Server.lists
  checks : ∀ i, (w.checks i).map (w.ownMutes i) = (w0.checks i).map Check.alertMutes

theorem held_others {w w' : World} {r : Nat} (h : ∀ q, q ≠ r → w'.rows q = w.rows q) (obj : Obj)
    (part : String → Nat → How → List String) (i q : Nat) (hq : q ≠ r) :
    w'.held obj part i q = w.held obj part i q := by
  unfold World.held
  rw [h q hq]

theorem map_of_rel {α β : Type} {R : α → α → Prop} {f g : α → β} (h : ∀ a b, R a b → g b = f a)
    {o o' : Option α} (hr : Option.Rel R o o') : o'.map g = o.map f := by
  cases hr with
  | some hab => exact congrArg some (h _ _ hab)
  | none => rfl

theorem Alike.press {w w0 w' : World} {r : Nat} (h : Alike w w0) (hm : Moved w w' r) :
    Alike w' w0 where
  servers i := by
    rw [← h.servers i]
    refine map_of_rel (fun s s' hs => ?_) (hm.servers i)
    unfold World.ownLists
    rw [hs.1.own (held_others hm.rows _ _ i), hs.2.own (held_others hm.rows _ _ i)]
  checks i := by
    rw [← h.checks i]
    exact map_of_rel (fun c c' hc => hc.own (held_others hm.rows _ _ i)) (hm.checks i)

theorem own_addKey {holds : Nat → List String} {k : String} (h : ¬ Held holds k)
    (l : List String) : own id holds (addKey k l) = addKey k (own id holds l) := by
  have hmem : k ∈ own id holds l ↔ k ∈ l := by
    rw [Holdings.mem_own]
    exact and_iff_left h
  unfold addKey
  by_cases hk : k ∈ l
  · rw [if_pos hk, if_pos (hmem.mpr hk)]
  · rw [if_neg hk, if_neg (hmem.not.mpr hk)]
    exact Holdings.own_put_in h

theorem own_put {holds : Nat → List String} {k : String} (h : ¬ Held holds k)
    (d : List (String × Ignored)) (m : Ignored) :
    own Prod.fst holds (Dict.put d k m) = Dict.put (own Prod.fst holds d) k m := by
  have hmem : k ∈ Dict.keys (own Prod.fst holds d) ↔ k ∈ Dict.keys d := by
    simp only [Dict.keys, List.mem_map, Holdings.mem_own]
    constructor
    · rintro ⟨p, ⟨hp, -⟩, rfl⟩
      exact ⟨p, hp, rfl⟩
    · rintro ⟨p, hp, rfl⟩
      exact ⟨p, ⟨hp, h⟩, rfl⟩
  unfold Dict.put
  by_cases hk : k ∈ Dict.keys d
  · rw [if_pos hk, if_pos (hmem.mpr hk)]
    refine Holdings.own_map fun p => ?_
    split <;> simp_all
  · rw [if_neg hk, if_neg (hmem.not.mpr hk)]
    exact Holdings.own_put_in h

/-- A change at one server. -/
theorem Alike.server {w w0 : World} (h : Alike w w0) (i : Nat) {o o0 : Option Server}
    (ho : o.map (w.ownLists i) = o0.map Server.lists) :
    Alike { w with servers := Function.update w.servers i o }
      { w0 with servers := Function.update w0.servers i o0 } where
  servers j := by
    change (Function.update w.servers i o j).map (w.ownLists j) =
      (Function.update w0.servers i o0 j).map Server.lists
    by_cases hj : j = i
    · subst hj
      simpa using ho
    · simpa [hj] using h.servers j
  checks j := h.checks j

theorem Alike.check {w w0 : World} (h : Alike w w0) (i : Nat) {o o0 : Option Check}
    (ho : o.map (w.ownMutes i) = o0.map Check.alertMutes) :
    Alike { w with checks := Function.update w.checks i o }
      { w0 with checks := Function.update w0.checks i o0 } where
  servers j := h.servers j
  checks j := by
    change (Function.update w.checks i o j).map (w.ownMutes j) =
      (Function.update w0.checks i o0 j).map Check.alertMutes
    by_cases hj : j = i
    · subst hj
      simpa using ho
    · simpa [hj] using h.checks j

/-- A write that does the same to a list whether the buttons' keys are in it or not. -/
theorem Alike.onServer {w w0 : World} (h : Alike w w0) (i : Nat) {f : Server → Server}
    {g : List String × List (String × Ignored) → List String × List (String × Ignored)}
    (hf : ∀ s, (f s).lists = g s.lists) (hg : ∀ s, w.ownLists i (f s) = g (w.ownLists i s)) :
    Alike (w.onServer i f) (w0.onServer i f) := by
  refine h.server i ?_
  have hw := congrArg (Option.map g) (h.servers i)
  rw [Option.map_map, Option.map_map] at hw ⊢
  have hl : w.ownLists i ∘ f = g ∘ w.ownLists i := funext hg
  have hr : Server.lists ∘ f = g ∘ Server.lists := funext hf
  rw [hl, hw, hr]

theorem Alike.onCheck {w w0 : World} (h : Alike w w0) (i : Nat) {f : Check → Check}
    {g : List String → List String} (hf : ∀ c, (f c).alertMutes = g c.alertMutes)
    (hg : ∀ c, w.ownMutes i (f c) = g (w.ownMutes i c)) :
    Alike (w.onCheck i f) (w0.onCheck i f) := by
  refine h.check i ?_
  have hw := congrArg (Option.map g) (h.checks i)
  rw [Option.map_map, Option.map_map] at hw ⊢
  have hl : w.ownMutes i ∘ f = g ∘ w.ownMutes i := funext hg
  have hr : Check.alertMutes ∘ f = g ∘ Check.alertMutes := funext hf
  rw [hl, hw, hr]

/-- The part of a list that belongs to what a row can give back. -/
def givenPart (obj : Obj) (part : String → Nat → How → List String) (i : Nat) :
    Option (Option (Obj × List Nat) × String × How) → List String
  | some (some (o, ids), kind, how) => if o = obj ∧ i ∈ ids then part kind i how else []
  | _ => []

/-- Rows are written or cleaned away with what they give back as it is. -/
theorem held_of_given {w w' : World} (h : ∀ r, (w'.rows r).bind TgAlert.given =
    (w.rows r).bind TgAlert.given) (obj : Obj) (part : String → Nat → How → List String)
    (i : Nat) : w'.held obj part i = w.held obj part i := by
  have hgives : ∀ row : TgAlert, row.gives obj part i = givenPart obj part i row.given := by
    intro row
    unfold TgAlert.gives TgAlert.given
    cases row.undo.mute <;> cases row.ref <;> rfl
  have hheld : ∀ (v : World) r,
      v.held obj part i r = givenPart obj part i ((v.rows r).bind TgAlert.given) := by
    intro v r
    unfold World.held
    cases v.rows r with
    | none => rfl
    | some row => exact hgives row
  funext r
  rw [hheld w' r, hheld w r, h r]

theorem held_row {z : Zone} {w : World} {r : Nat} {o : Option TgAlert}
    (h : Allowed w (.row r o)) (obj : Obj) (part : String → Nat → How → List String) (i : Nat) :
    (step z w (.row r o)).held obj part i = w.held obj part i := by
  refine held_of_given (fun q => ?_) obj part i
  by_cases hq : q = r
  · subst hq
    simpa [step] using (show o.bind TgAlert.given = (w.rows q).bind TgAlert.given from h)
  · simp [step, hq]

theorem press_of_isPress {input : Input} (h : input.isPress = true) : ∃ p, input = .press p := by
  cases input with
  | press p => exact ⟨p, rfl⟩
  | _ => cases h

theorem Alike.edit {z : Zone} {w w0 : World} (h : Alike w w0) {input : Input}
    (hno : input.isPress = false) (ha : Allowed w input) :
    Alike (step z w input) (step z w0 input) := by
  cases input with
  | press p => cases hno
  | row r o =>
    have hl : ∀ i s, (step z w (.row r o)).ownLists i s = w.ownLists i s := by
      intro i s
      simp only [World.ownLists, World.heldMutes, World.heldMarks, held_row ha]
    have hc : ∀ i c, (step z w (.row r o)).ownMutes i c = w.ownMutes i c := by
      intro i c
      simp only [World.ownMutes, World.heldChecks, held_row ha]
    exact ⟨fun i => (Option.map_congr fun s _ => hl i s).trans (h.servers i),
      fun i => (Option.map_congr fun c _ => hc i c).trans (h.checks i)⟩
  | server i o =>
    refine h.server i ?_
    rcases ha with rfl | hfree
    · rfl
    · have hlists : w.ownLists i = Server.lists := by
        funext s
        unfold World.ownLists Server.lists
        rw [Holdings.own_nil fun r => (hfree r).1, Holdings.own_nil fun r => (hfree r).2]
      rw [hlists]
  | check i o =>
    refine h.check i ?_
    rcases ha with rfl | hfree
    · rfl
    · have hmutes : w.ownMutes i = Check.alertMutes := by
        funext c
        exact Holdings.own_nil hfree
      rw [hmutes]
  | report i f =>
    refine h.onServer i (g := id) ha fun s => ?_
    obtain ⟨hm, hk⟩ := Prod.mk.inj (ha s)
    simp only [World.ownLists, hm, hk, id_eq]
  | checked i f =>
    refine h.onCheck i (g := id) ha fun c => ?_
    simp only [World.ownMutes, ha c, id_eq]
  | mute i k =>
    refine h.onServer i (g := fun x => (addKey k x.1, x.2)) (fun _ => rfl) fun s => ?_
    exact Prod.ext (own_addKey ha s.alertMutes) rfl
  | unmute i k =>
    refine h.onServer i (g := fun x => (x.1.filter (· ≠ k), x.2)) (fun _ => rfl) fun s => ?_
    exact Prod.ext (Holdings.own_take_out _) rfl
  | muteCheck i k => exact h.onCheck i (g := addKey k) (fun _ => rfl) fun c => own_addKey ha _
  | unmuteCheck i k =>
    exact h.onCheck i (g := List.filter (· ≠ k)) (fun _ => rfl) fun c => Holdings.own_take_out _
  | ignore i k m =>
    refine h.onServer i (g := fun x => (x.1, Dict.put x.2 k m)) (fun _ => rfl) fun s => ?_
    exact Prod.ext rfl (own_put ha s.kubeExpiryIgnored m)
  | gone i k m =>
    refine h.onServer i (g := fun x => (x.1, x.2.map fun p : String × Ignored =>
      if p.1 = k then (k, m) else p)) (fun _ => rfl) fun s => ?_
    refine Prod.ext rfl (Holdings.own_map fun p => ?_)
    split <;> simp_all
  | watch i k =>
    refine h.onServer i (g := fun x => (x.1, x.2.filter fun p => p.1 ≠ k)) (fun _ => rfl) fun s => ?_
    exact Prod.ext rfl (Holdings.own_take_out _)

/-- The same run without the presses. -/
theorem alike_run {z : Zone} {start : World} {is : List Input}
    (hstart : Alike start start) (along : Runs.Along (step z) Allowed start is) :
    Alike (Runs.run (step z) start is)
      (Runs.run (step z) start (is.filter fun i => !i.isPress)) := by
  induction is using List.reverseRecOn with
  | nil => exact hstart
  | append_singleton is i ih =>
    obtain ⟨hbefore, hi⟩ := Runs.along_snoc.mp along
    rw [Runs.run_snoc, List.filter_append]
    cases hp : i.isPress with
    | true =>
      obtain ⟨p, rfl⟩ := press_of_isPress hp
      have hnone : [Input.press p].filter (fun i => !i.isPress) = [] := rfl
      rw [hnone, List.append_nil]
      exact (ih hbefore).press (handleCallback_moved z _ p)
    | false =>
      have hone : [i].filter (fun i => !i.isPress) = [i] := by simp [hp]
      rw [hone, Runs.run_snoc]
      exact (ih hbefore).edit hp hi

/-- Where no row says that it has muted something, nothing is held. -/
theorem held_fresh {w : World} (fresh : ∀ r row, w.rows r = some row → row.undo.mute = none)
    (obj : Obj) (part : String → Nat → How → List String) (i r : Nat) :
    w.held obj part i r = [] := by
  unfold World.held
  cases hr : w.rows r with
  | none => rfl
  | some row => exact gives_none (fresh r row hr) obj part i

theorem alike_start {start : World} (fresh : ∀ r row, start.rows r = some row →
    row.undo.mute = none) : Alike start start := by
  have hnone := held_fresh fresh
  refine ⟨fun i => Option.map_congr fun s _ => ?_, fun i => Option.map_congr fun c _ => ?_⟩
  · exact Prod.ext (Holdings.own_nil (hnone _ _ i)) (Holdings.own_nil (hnone _ _ i))
  · exact Holdings.own_nil (hnone _ _ i)

theorem alike_all_given {w w0 : World} (h : Alike w w0)
    (fresh : ∀ r row, w.rows r = some row → row.undo.mute = none) (i : Nat) :
    (w.servers i).map Server.lists = (w0.servers i).map Server.lists ∧
      (w.checks i).map Check.alertMutes = (w0.checks i).map Check.alertMutes := by
  have hself := alike_start fresh
  exact ⟨(hself.servers i).symm.trans (h.servers i), (hself.checks i).symm.trans (h.checks i)⟩

/-- Buttons leave no trace: but for the keys that a row would still take out, the mutes of
every server and monitor and the marks at its deadlines are after any run what they would be
had nobody ever pressed anything, and when all is given back they are exactly that. -/
theorem buttons_leave_no_trace {z : Zone} {start : World} {is : List Input}
    (fresh : ∀ r row, start.rows r = some row → row.undo.mute = none)
    (along : Runs.Along (step z) Allowed start is) :
    Alike (Runs.run (step z) start is)
        (Runs.run (step z) start (is.filter fun i => !i.isPress)) ∧
      ((∀ r row, (Runs.run (step z) start is).rows r = some row → row.undo.mute = none) → ∀ i,
        ((Runs.run (step z) start is).servers i).map Server.lists =
            ((Runs.run (step z) start (is.filter fun i => !i.isPress)).servers i).map Server.lists ∧
          ((Runs.run (step z) start is).checks i).map Check.alertMutes =
            ((Runs.run (step z) start (is.filter fun i => !i.isPress)).checks i).map
              Check.alertMutes) := by
  have halike := alike_run (alike_start fresh) along
  exact ⟨halike, alike_all_given halike⟩

/-- Two alerts about units of one server, as they are sent. -/
def unitAlert (keys : List String) : TgAlert where
  ts := 0
  ref := some (.srv, [7])
  kind := "units"
  target := "web"
  text := ""
  messages := [("-100", 1)]
  ackedBy := ""
  ackedAt := none
  muted := ""
  undo := { keys, mute := none, us := none, fix := none, held := none }
  escLevel := 0
  escAt := none
  resolvedAt := none

def webServer : Server where
  name := "web"
  enabled := true
  snoozeUntil := none
  alertMutes := ["unit:cron"]
  alertSnoozes := []
  kubeExpiryIgnored := []
  alertState := []
  kubeExpiry := []
  changesAck := none

def unitAlerts : World where
  rows r :=
    if r = 1 then some (unitAlert ["unit:nginx", "unit:cron"])
    else if r = 2 then some (unitAlert ["unit:nginx"])
    else none
  servers i := if i = 7 then some webServer else none
  checks _ := none

def pressOf (id : Nat) (op : Op) : Press where
  id := id
  op := op
  chat := "-100"
  frm := { id := "5", username := "", firstName := "", lastName := "" }
  users := [{ username := "anna", role := .operator, tgChatId := "5", tgToken := "" }]
  now := 1
  still := fun _ => ""

theorem unitAlerts_fresh (r : Nat) (row : TgAlert) (h : unitAlerts.rows r = some row) :
    row.undo.mute = none := by
  unfold unitAlerts at h
  dsimp only at h
  split at h
  · cases h
    rfl
  · split at h
    · cases h
      rfl
    · cases h

def utc : Zone where
  nextMorning t := (t - 9 * HOUR) / (24 * HOUR) * (24 * HOUR) + 33 * HOUR
  hhmm t _ := toString (t / HOUR % 24) ++ ":" ++ toString (t / 60000000 % 60)

/-- Both alerts are muted for ever, the panel lets one unit speak again, the first is undone. -/
theorem buttons_leave_no_trace_units : Alike
    (Runs.run (step utc) unitAlerts
      [.press (pressOf 1 .forever), .press (pressOf 2 .forever), .unmute 7 "unit:cron",
        .press (pressOf 1 .undo)])
    (Runs.run (step utc) unitAlerts [.unmute 7 "unit:cron"]) := by
  have along : Runs.Along (step utc) Allowed unitAlerts
      [.press (pressOf 1 .forever), .press (pressOf 2 .forever), .unmute 7 "unit:cron",
        .press (pressOf 1 .undo)] := by
    simp [Runs.Along, Allowed]
  exact (buttons_leave_no_trace unitAlerts_fresh along).1

/-! ## Who gives a key back -/

/-- Every key that a row would take out is muted, and no other row would take it out. -/
structure Booked (w : World) : Prop where
  mutes : ∀ i s, w.servers i = some s → Book (w.heldMutes i) s.alertMutes
  marks : ∀ i s, w.servers i = some s → Book (w.heldMarks i) (Dict.keys s.kubeExpiryIgnored)
  checks : ∀ i c, w.checks i = some c → Book (w.heldChecks i) c.alertMutes

theorem rel_some {α : Type} {R : α → α → Prop} {o : Option α} {b : α}
    (h : Option.Rel R o (some b)) : ∃ a, o = some a ∧ R a b := by
  cases h with
  | some hab => exact ⟨_, rfl, hab⟩

theorem Booked.press {w w' : World} {r : Nat} (h : Booked w) (hm : Moved w w' r) : Booked w' where
  mutes i s' hs' := by
    obtain ⟨s, hs, hmove, -⟩ := rel_some (hs' ▸ hm.servers i)
    have hb := h.mutes i s hs
    rw [← List.map_id s.alertMutes] at hb
    have hb' := hb.move hmove (held_others hm.rows _ _ i)
    rwa [List.map_id] at hb'
  marks i s' hs' := by
    obtain ⟨s, hs, -, hmove⟩ := rel_some (hs' ▸ hm.servers i)
    exact (h.marks i s hs).move hmove (held_others hm.rows _ _ i)
  checks i c' hc' := by
    obtain ⟨c, hc, hmove⟩ := rel_some (hc' ▸ hm.checks i)
    have hb := h.checks i c hc
    rw [← List.map_id c.alertMutes] at hb
    have hb' := hb.move hmove (held_others hm.rows _ _ i)
    rwa [List.map_id] at hb'

/-- A change at one server that leaves the held keys where they are. -/
theorem Booked.onServer {w : World} (h : Booked w) (i : Nat) {f : Server → Server}
    (hm : ∀ s k, Held (w.heldMutes i) k → k ∈ s.alertMutes → k ∈ (f s).alertMutes)
    (hk : ∀ s k, Held (w.heldMarks i) k → k ∈ Dict.keys s.kubeExpiryIgnored →
      k ∈ Dict.keys (f s).kubeExpiryIgnored) : Booked (w.onServer i f) := by
  have hback : ∀ j s', (w.onServer i f).servers j = some s' →
      ∃ s, w.servers j = some s ∧ (j = i ∧ s' = f s ∨ s' = s) := by
    intro j s' hs'
    by_cases hj : j = i
    · subst hj
      obtain ⟨s, hs, rfl⟩ : ∃ s, w.servers j = some s ∧ f s = s' := by
        simpa [World.onServer] using hs'
      exact ⟨s, hs, .inl ⟨rfl, rfl⟩⟩
    · have hs : w.servers j = some s' := by simpa [World.onServer, hj] using hs'
      exact ⟨s', hs, .inr rfl⟩
  refine ⟨fun j s' hs' => ?_, fun j s' hs' => ?_, h.checks⟩
  · obtain ⟨s, hs, ⟨rfl, rfl⟩ | rfl⟩ := hback j s' hs'
    · exact (h.mutes j s hs).mono (hm s)
    · exact h.mutes j s' hs
  · obtain ⟨s, hs, ⟨rfl, rfl⟩ | rfl⟩ := hback j s' hs'
    · exact (h.marks j s hs).mono (hk s)
    · exact h.marks j s' hs

theorem Booked.onCheck {w : World} (h : Booked w) (i : Nat) {f : Check → Check}
    (hm : ∀ c k, Held (w.heldChecks i) k → k ∈ c.alertMutes → k ∈ (f c).alertMutes) :
    Booked (w.onCheck i f) := by
  refine ⟨h.mutes, h.marks, fun j c' hc' => ?_⟩
  by_cases hj : j = i
  · subst hj
    obtain ⟨c, hc, rfl⟩ : ∃ c, w.checks j = some c ∧ f c = c' := by
      simpa [World.onCheck] using hc'
    exact (h.checks j c hc).mono (hm c)
  · exact h.checks j c' (by simpa [World.onCheck, hj] using hc')

theorem mem_addKey {j k : String} {l : List String} (h : j ∈ l) : j ∈ addKey k l := by
  unfold addKey
  split
  · exact h
  · exact List.mem_append_left _ h

theorem mem_keys_put {d : List (String × Ignored)} {j k : String} {m : Ignored}
    (h : j ∈ Dict.keys d) : j ∈ Dict.keys (Dict.put d k m) := by
  rw [Dict.keys_put]
  split
  · exact h
  · exact List.mem_append_left _ h

/-- A held key is not the one that someone else takes out. -/
theorem ne_of_held {holds : Nat → List String} {j k : String} (hk : ¬ Held holds k)
    (hj : Held holds j) : j ≠ k := fun he => hk (he ▸ hj)

theorem Booked.edit {z : Zone} {w : World} (h : Booked w) {input : Input}
    (hno : input.isPress = false) (ha : Allowed w input) (hkeep : Keeps w input) :
    Booked (step z w input) := by
  cases input with
  | press p => cases hno
  | row r o =>
    refine ⟨fun i s hs => ?_, fun i s hs => ?_, fun i c hc => ?_⟩
    · unfold World.heldMutes
      rw [held_row ha]
      exact h.mutes i s hs
    · unfold World.heldMarks
      rw [held_row ha]
      exact h.marks i s hs
    · unfold World.heldChecks
      rw [held_row ha]
      exact h.checks i c hc
  | server i o =>
    have hnew : ∀ j s, (step z w (.server i o)).servers j = some s →
        w.servers j = some s ∨ j = i ∧ o = some s := by
      intro j s hs
      by_cases hj : j = i
      · subst hj
        exact .inr ⟨rfl, by simpa [step] using hs⟩
      · exact .inl (by simpa [step, hj] using hs)
    refine ⟨fun j s hs => ?_, fun j s hs => ?_, h.checks⟩
    · rcases hnew j s hs with hold | ⟨rfl, ho⟩
      · exact h.mutes j s hold
      · rcases ha with rfl | hfree
        · cases ho
        · exact .empty (fun r => (hfree r).1) _
    · rcases hnew j s hs with hold | ⟨rfl, ho⟩
      · exact h.marks j s hold
      · rcases ha with rfl | hfree
        · cases ho
        · exact .empty (fun r => (hfree r).2) _
  | check i o =>
    refine ⟨h.mutes, h.marks, fun j c hc => ?_⟩
    by_cases hj : j = i
    · subst hj
      have ho : o = some c := by simpa [step] using hc
      rcases ha with rfl | hfree
      · cases ho
      · exact .empty hfree _
    · exact h.checks j c (by simpa [step, hj] using hc)
  | report i f =>
    refine h.onServer i (fun s k _ hk => ?_) fun s k _ hk => ?_
    · rwa [(Prod.mk.inj (ha s)).1]
    · rwa [(Prod.mk.inj (ha s)).2]
  | checked i f => exact h.onCheck i fun c k _ hk => (ha c).symm ▸ hk
  | mute i k => exact h.onServer i (fun _ _ _ hk => mem_addKey hk) fun _ _ _ hk => hk
  | unmute i k =>
    refine h.onServer i (fun _ j hj hin => ?_) fun _ _ _ hk => hk
    exact List.mem_filter.mpr ⟨hin, by simpa using ne_of_held hkeep hj⟩
  | muteCheck i k => exact h.onCheck i fun _ _ _ hk => mem_addKey hk
  | unmuteCheck i k =>
    refine h.onCheck i fun _ j hj hin => ?_
    exact List.mem_filter.mpr ⟨hin, by simpa using ne_of_held hkeep hj⟩
  | ignore i k m => exact h.onServer i (fun _ _ _ hk => hk) fun _ _ _ hk => mem_keys_put hk
  | gone i k m =>
    refine h.onServer i (fun _ _ _ hk => hk) fun s j _ hin => ?_
    obtain ⟨p, hp, rfl⟩ := List.mem_map.mp hin
    refine List.mem_map.mpr ⟨_, List.mem_map_of_mem hp, ?_⟩
    split <;> simp_all
  | watch i k =>
    refine h.onServer i (fun _ _ _ hk => hk) fun s j hj hin => ?_
    obtain ⟨p, hp, rfl⟩ := List.mem_map.mp hin
    exact List.mem_map_of_mem (List.mem_filter.mpr ⟨hp, by simpa using ne_of_held hkeep hj⟩)

/-- At any time what a row would take out is muted, and is taken out by this row alone. -/
theorem held_by_one_row {z : Zone} {start : World} {is : List Input}
    (fresh : ∀ r row, start.rows r = some row → row.undo.mute = none)
    (along : Runs.Along (step z) (fun w i => Allowed w i ∧ Keeps w i) start is) :
    Booked (Runs.run (step z) start is) := by
  have hnone := held_fresh fresh
  have hstart : Booked start := ⟨fun i _ _ => .empty (hnone _ _ i) _,
    fun i _ _ => .empty (hnone _ _ i) _, fun i _ _ => .empty (hnone _ _ i) _⟩
  refine Runs.inv_run hstart (fun w input hw hc => ?_) along
  cases hp : input.isPress with
  | true =>
    obtain ⟨p, rfl⟩ := press_of_isPress hp
    exact hw.press (handleCallback_moved z w p)
  | false => exact hw.edit hp hc.1 hc.2

theorem held_by_one_row_units : Booked (Runs.run (step utc) unitAlerts
    [.press (pressOf 1 .forever), .press (pressOf 2 .forever), .press (pressOf 1 .undo)]) := by
  refine held_by_one_row unitAlerts_fresh ?_
  simp [Runs.Along, Allowed, Keeps]

end Kervax.TgBot
