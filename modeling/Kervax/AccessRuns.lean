-- The alert about the access over runs of snapshots and ticks: what is offered, what is
-- stored of it, and that every alerting change is told once.
import Kervax.AccessText

namespace Kervax

open Runs AccessText

/-! ## The alert about the access -/

/-- The alert: its full text, the short one of the chat, and the events it is about. -/
structure AccessAlert where
  detail : String
  short : Option (String × List (List Piece))
  items : List Entry
deriving DecidableEq

/-- How many events the full text has room for. -/
def eventsMax : Nat := 6

def accessAlert (fresh : List Entry) : AccessAlert where
  detail := "изменился доступ: " ++ eventsText fresh eventsMax
  short := tgShort (fresh.map (·.change.text))
  items := fresh

/-- The events that an alert is offered about. -/
def freshEvents (st : Changes) (told : Option Time) (now : Time) : List Entry :=
  alertEvents st (told.getD (now - sec 3600))

/-- The part of `evaluate_servers` about the access: what is offered, and the
stamp that is stored at once. `loud` says that the rule is on and not muted. -/
def accessStep (st : Changes) (told : Option Time) (now : Time) (loud : Bool) :
    Option AccessAlert × Option Time :=
  match st.alertTs with
  | none => (none, told)
  | some stamp =>
    if told = some stamp then (none, told)
    else
      let fresh := freshEvents st told now
      if fresh ≠ [] ∧ loud then (some (accessAlert fresh), told) else (none, some stamp)

/-! ## Runs -/

/-- A server: its changes and the stored stamp. `owed` is not in the source: the
alerting changes that no delivered alert had yet, as far as the log keeps them. -/
structure AccessLog where
  st : Changes := {}
  told : Option Time := none
  owed : List Entry := []
deriving DecidableEq

inductive AccessEvent
  /-- A report with a snapshot, and the keys that the park has seen. -/
  | snapshot (snap : Snapshot) (now : Time) (known : List String)
  /-- A tick; `delivered` says whether its alert went out. -/
  | tick (now : Time) (loud delivered : Bool)
deriving DecidableEq

/-- What is offered is stored when it is delivered. -/
def accessTick (s : AccessLog) (out : Option AccessAlert × Option Time) (loud delivered : Bool) :
    AccessLog :=
  match out.1, delivered with
  | some a, true =>
    { s with told := s.st.alertTs, owed := s.owed.filter (· ∉ a.items.take eventsMax) }
  -- what a muted alert skips is not owed any more
  | _, _ =>
    { s with
      told := out.2
      owed := if loud then s.owed else if out.2 = s.st.alertTs then [] else s.owed }

def accessNext (s : AccessLog) : AccessEvent → AccessLog
  | .snapshot snap now known =>
    let out := applySnapshot s.st snap now known
    { s with
      st := out.1
      owed :=
        if repeated s.st snap then s.owed
        else (out.2.filter (·.change.alert) ++ s.owed).filter fun e => now - logKeep ≤ e.ts }
  | .tick now loud delivered => accessTick s (accessStep s.st s.told now loud) loud delivered

/-- An alert has an event: its text in the full one, and a line of the chat tells it. -/
def AccessAlert.Tells (a : AccessAlert) (e : Entry) : Prop :=
  TgFmt.Has a.detail e.change.text ∧
    ∃ what lines, a.short = some (what, lines) ∧ Told lines (parse e.change.text)

/-- The alert of a tick is about all that is owed, and has each of them. -/
def ToldOnce (s : AccessLog) : AccessEvent → Prop
  | .snapshot .. => True
  | .tick now loud _ => loud = true →
    match (accessStep s.st s.told now loud).1 with
    | none => s.owed = []
    | some a => a.items = s.owed ∧ ∀ e ∈ s.owed, a.Tells e

/-- The texts of an alert have room for these events: the full one names six, and no list of
the chat is cut. -/
def Few (fresh : List Entry) : Prop :=
  fresh = [] ∨ fresh.length ≤ eventsMax ∧ roomy (fresh.map (·.change.text)) = true

/-- The entries of a snapshot, with the log before it, as far as they are kept. -/
def entriesAfter (s : AccessLog) (snap : Snapshot) (now : Time) (known : List String) : List Entry :=
  ((applySnapshot s.st snap now known).2 ++ s.st.log).filter fun e => now - logKeep ≤ e.ts

/-- What a step has to find. An alerting snapshot is later than the alerting one
before it; what is cut from the log was told; without a stored stamp nothing
alerting is an hour old; and an alert has room for what it is about. -/
def Ordered (s : AccessLog) : AccessEvent → Prop
  | .snapshot snap now known =>
    ((∃ e ∈ (applySnapshot s.st snap now known).2, e.change.alert = true) →
        ∀ a ∈ s.st.alertTs, a < snap.ts) ∧
      ∀ e ∈ (entriesAfter s snap now known).drop logMax, e.change.alert = true →
        ∃ t ∈ s.told, e.ts ≤ t
  | .tick now loud _ =>
    (s.told = none → ∀ e ∈ s.st.log, e.change.alert = true → now - sec 3600 < e.ts) ∧
      (loud = true → Few (freshEvents s.st s.told now))

/-! ## What is owed -/

/-- The alerting entries that are later than the stored stamp. -/
def after (told : Option Time) (e : Entry) : Bool :=
  e.change.alert && told.all fun t => t < e.ts

/-- What is owed is what the log has after the stored stamp, and no alerting
entry is later than the last alert stamp. -/
structure AccessSane (s : AccessLog) : Prop where
  owed : s.owed = s.st.log.filter (after s.told)
  last : ∀ e ∈ s.st.log, e.change.alert = true → ∃ a ∈ s.st.alertTs, e.ts ≤ a
  told : ∀ t ∈ s.told, ∃ a ∈ s.st.alertTs, t ≤ a

variable {s : AccessLog}

theorem applySnapshot_log (st : Changes) (snap : Snapshot) (now : Time) (known : List String) :
    repeated st snap = true ∧ applySnapshot st snap now known = (st, []) ∨
      repeated st snap = false ∧
        (applySnapshot st snap now known).1.log =
          (((applySnapshot st snap now known).2 ++ st.log).filter
            fun e => now - logKeep ≤ e.ts).take logMax ∧
        (applySnapshot st snap now known).1.alertTs =
          (if (applySnapshot st snap now known).2.any (·.change.alert) then some snap.ts
            else st.alertTs) ∧
        ∀ e ∈ (applySnapshot st snap now known).2, e.ts = snap.ts := by
  unfold applySnapshot
  cases hr : repeated st snap with
  | true => exact .inl ⟨rfl, rfl⟩
  | false =>
    refine .inr ⟨rfl, rfl, rfl, fun e he => ?_⟩
    obtain ⟨c, -, rfl⟩ := List.mem_map.1 he
    rfl

/-- A cut that takes nothing of interest is none. -/
theorem filter_take_of_drop {α : Type} {p : α → Bool} {l : List α} {n : Nat}
    (h : ∀ e ∈ l.drop n, p e = false) : (l.take n).filter p = l.filter p := by
  have hnone : (l.drop n).filter p = [] := List.filter_eq_nil_iff.2 fun e he => by simp [h e he]
  calc (l.take n).filter p = (l.take n).filter p ++ (l.drop n).filter p := by simp [hnone]
    _ = l.filter p := by rw [← List.filter_append, List.take_append_drop]

theorem accessSane_snapshot (h : AccessSane s) {snap : Snapshot} {now : Time} {known : List String}
    (ho : Ordered s (.snapshot snap now known)) :
    AccessSane (accessNext s (.snapshot snap now known)) := by
  rcases applySnapshot_log s.st snap now known with ⟨hr, heq⟩ | ⟨hr, hlog, hts, hstamp⟩
  · simpa [accessNext, heq, hr] using h
  obtain ⟨hlater, hcut⟩ := ho
  unfold entriesAfter at hcut
  simp only [accessNext, hr, Bool.false_eq_true, if_false]
  generalize applySnapshot s.st snap now known = out at *
  -- an alerting snapshot is later than each stamp so far
  have hnew : ∀ e ∈ out.2, e.change.alert = true → after s.told e = true := by
    intro e he ha
    unfold after
    rw [ha, Bool.true_and, hstamp e he]
    cases ht : s.told with
    | none => rfl
    | some t =>
      obtain ⟨a, hat, hle⟩ := h.told t ht
      simpa using lt_of_le_of_lt hle (hlater ⟨e, he, ha⟩ a hat)
  have hcut' : ∀ e ∈ (((out.2 ++ s.st.log).filter fun e => now - logKeep ≤ e.ts).drop logMax),
      after s.told e = false := by
    intro e he
    cases ha : e.change.alert with
    | false => simp [after, ha]
    | true =>
      obtain ⟨t, ht, hle⟩ := hcut e he ha
      have hle' : ¬ t < e.ts := not_lt.2 hle
      simp [after, Option.mem_def.1 ht, hle']
  have hold : ∀ a ∈ s.st.alertTs, ∃ a' ∈ out.1.alertTs, a ≤ a' := by
    intro a ha
    rw [hts]
    split
    · rename_i hany
      obtain ⟨e, he, hal⟩ := List.any_eq_true.1 hany
      exact ⟨snap.ts, rfl, (hlater ⟨e, he, hal⟩ a ha).le⟩
    · exact ⟨a, ha, le_refl a⟩
  refine ⟨?_, fun e he ha => ?_, fun t ht => ?_⟩
  · have hfilter : out.2.filter (·.change.alert) = out.2.filter (after s.told) := by
      refine List.filter_congr fun e he => ?_
      cases ha : e.change.alert with
      | true => exact (hnew e he ha).symm
      | false => simp [after, ha]
    rw [hlog, filter_take_of_drop hcut', hfilter, h.owed, ← List.filter_append,
      List.filter_filter, List.filter_filter]
    exact List.filter_congr fun e _ => Bool.and_comm _ _
  · rw [hlog] at he
    have hin := (List.mem_filter.1 (List.mem_of_mem_take he)).1
    rcases List.mem_append.1 hin with hin | hin
    · have hany : out.2.any (·.change.alert) = true := List.any_eq_true.2 ⟨e, hin, ha⟩
      rw [hts, if_pos hany]
      exact ⟨snap.ts, rfl, (hstamp e hin).le⟩
    · obtain ⟨a, haa, hle⟩ := h.last e hin ha
      obtain ⟨a', ha', hle'⟩ := hold a haa
      exact ⟨a', ha', hle.trans hle'⟩
  · obtain ⟨a, hat, hle⟩ := h.told t ht
    obtain ⟨a', ha', hle'⟩ := hold a hat
    exact ⟨a', ha', hle.trans hle'⟩

/-- A tick offers what is owed, and nothing when the last alert stamp is stored. -/
theorem accessStep_owed (h : AccessSane s) {now : Time} {delivered : Bool} {loud : Bool}
    (ho : Ordered s (.tick now loud delivered)) :
    (s.st.alertTs = none ∧ s.owed = [] ∧ accessStep s.st s.told now loud = (none, s.told)) ∨
      ∃ stamp, s.st.alertTs = some stamp ∧
        (s.told = some stamp ∧ s.owed = [] ∧ accessStep s.st s.told now loud = (none, s.told) ∨
          s.told ≠ some stamp ∧ (loud = true → Few s.owed) ∧ accessStep s.st s.told now loud =
            if s.owed ≠ [] ∧ loud = true then (some (accessAlert s.owed), s.told)
            else (none, some stamp)) := by
  unfold accessStep
  cases hst : s.st.alertTs with
  | none =>
    refine .inl ⟨rfl, ?_, rfl⟩
    rw [h.owed, List.filter_eq_nil_iff]
    intro e he hafter
    have hal : e.change.alert = true := (Bool.and_eq_true _ _ ▸ hafter).1
    obtain ⟨a, ha, -⟩ := h.last e he hal
    rw [hst] at ha
    cases ha
  | some stamp =>
    refine .inr ⟨stamp, rfl, ?_⟩
    dsimp only
    by_cases heq : s.told = some stamp
    · refine .inl ⟨heq, ?_, if_pos heq⟩
      rw [h.owed, List.filter_eq_nil_iff]
      intro e he hafter
      obtain ⟨hal, hlt⟩ := Bool.and_eq_true _ _ ▸ hafter
      obtain ⟨a, ha, hle⟩ := h.last e he hal
      rw [hst] at ha
      cases ha
      rw [heq] at hlt
      exact absurd (of_decide_eq_true hlt) (not_lt.2 hle)
    · have hfresh : freshEvents s.st s.told now = s.owed := by
        rw [h.owed, freshEvents, alertEvents]
        refine List.filter_congr fun e he => ?_
        cases ht : s.told with
        | some t => simp [after]
        | none =>
          cases hal : e.change.alert with
          | false => simp [after, hal]
          | true =>
            have hyoung := ho.1 ht e he hal
            simpa [after, hal] using hyoung
      refine .inr ⟨heq, hfresh ▸ ho.2, ?_⟩
      rw [if_neg heq, hfresh]

theorem Few.le {fresh : List Entry} (h : Few fresh) : fresh.length ≤ eventsMax := by
  cases h with
  | inl hnil => simp [hnil]
  | inr hroom => exact hroom.1

/-- An alert with room for its events has every one of them. -/
theorem tells_of_few {fresh : List Entry} (h : Few fresh) {e : Entry} (he : e ∈ fresh) :
    (accessAlert fresh).Tells e := by
  cases h with
  | inl hnil =>
    rw [hnil] at he
    cases he
  | inr hroom =>
    unfold AccessAlert.Tells accessAlert
    dsimp only
    exact ⟨(TgFmt.has_append_right _ _).trans (eventsText_has hroom.1 he),
      tgShort_tells hroom.2 (List.mem_map_of_mem he)⟩

/-- Nothing is left of what such an alert is about. -/
theorem none_left {fresh : List Entry} (h : Few fresh) :
    fresh.filter (· ∉ (accessAlert fresh).items.take eventsMax) = [] := by
  rw [List.filter_eq_nil_iff]
  intro e he
  unfold accessAlert
  dsimp only
  rw [List.take_of_length_le h.le]
  simpa using he

theorem accessSane_tick (h : AccessSane s) {now : Time} {loud delivered : Bool}
    (ho : Ordered s (.tick now loud delivered)) :
    AccessSane (accessNext s (.tick now loud delivered)) := by
  -- with the last alert stamp stored nothing is owed
  have hall : ∀ told, told = s.st.alertTs → AccessSane { s with told := told, owed := [] } := by
    rintro _ rfl
    refine ⟨?_, h.last, fun t ht => ⟨t, ht, le_refl t⟩⟩
    symm
    rw [List.filter_eq_nil_iff]
    intro e he hafter
    obtain ⟨hal, hlt⟩ := Bool.and_eq_true _ _ ▸ hafter
    obtain ⟨a, ha, hle⟩ := h.last e he hal
    dsimp only at hlt
    rw [Option.mem_def.1 ha] at hlt
    exact absurd (of_decide_eq_true hlt) (not_lt.2 hle)
  have hsame : s.owed = [] → AccessSane { s with told := s.told, owed := [] } := fun howed =>
    ⟨howed ▸ h.owed, h.last, h.told⟩
  unfold accessNext accessTick
  dsimp only
  rcases accessStep_owed h ho with ⟨-, howed, hstep⟩ |
    ⟨stamp, hst, ⟨-, howed, hstep⟩ | ⟨-, hfew, hstep⟩⟩
  · simpa [hstep, howed] using hsame howed
  · simpa [hstep, howed] using hsame howed
  · by_cases hoffer : s.owed ≠ [] ∧ loud = true
    · rw [if_pos hoffer] at hstep
      rw [hstep]
      cases delivered with
      | true =>
        dsimp only
        rw [none_left (hfew hoffer.2)]
        exact hall _ rfl
      | false => simpa [hoffer.2] using h
    · rw [if_neg hoffer] at hstep
      rw [hstep]
      have hnext := hall (some stamp) hst.symm
      cases loud with
      | true =>
        have howed : s.owed = [] := by_contra fun hne => hoffer ⟨hne, rfl⟩
        simpa [howed] using hnext
      | false => simpa [hst] using hnext

/-- In order, the alert of a tick is about all that is owed. -/
theorem toldOnce_of_ordered (h : AccessSane s) {e : AccessEvent} (ho : Ordered s e) : ToldOnce s e := by
  cases e with
  | snapshot => trivial
  | tick now loud delivered =>
    rintro rfl
    rcases accessStep_owed h ho with ⟨-, howed, hstep⟩ |
      ⟨stamp, -, ⟨-, howed, hstep⟩ | ⟨-, hfew, hstep⟩⟩
    · rw [hstep]
      exact howed
    · rw [hstep]
      exact howed
    · rw [hstep]
      by_cases howed : s.owed = []
      · rw [if_neg fun hoffer => hoffer.1 howed]
        exact howed
      · rw [if_pos ⟨howed, rfl⟩]
        exact ⟨rfl, fun e => tells_of_few (hfew rfl)⟩

theorem accessSane_next (h : AccessSane s) {e : AccessEvent} (ho : Ordered s e) :
    AccessSane (accessNext s e) := by
  cases e with
  | snapshot => exact accessSane_snapshot h ho
  | tick => exact accessSane_tick h ho

/-- In a run whose steps are in order, every alert about the access is about
exactly the alerting changes that no delivered alert had yet. -/
theorem access_changes_told_once (es : List AccessEvent) (h : Along accessNext Ordered {} es) :
    Along accessNext ToldOnce {} es := by
  have h0 : AccessSane {} := ⟨rfl, by simp, by simp⟩
  exact step_of_run h0 (fun _ _ hi ho => accessSane_next hi ho)
    (fun _ _ hi ho => toldOnce_of_ordered hi ho) h

/-- A snapshot with these users, taken so many seconds in. -/
def usersAt (n : Int) (names : List String) : AccessEvent :=
  .snapshot { ts := sec n, users := names.map fun u => { name := u, uid := some 1000 } } (sec n) []

instance (fresh : List Entry) : Decidable (Few fresh) := by
  unfold Few
  infer_instance

instance (s : AccessLog) (e : AccessEvent) : Decidable (Ordered s e) := by
  cases e <;> (unfold Ordered; infer_instance)

theorem access_changes_told_once_retry :
    Along accessNext ToldOnce {} [usersAt 1000 ["root"], usersAt 1600 ["root", "eve"],
      .tick (sec 1700) true false, .tick (sec 1760) true true] ∧
    ((run accessNext {} [usersAt 1000 ["root"], usersAt 1600 ["root", "eve"],
      .tick (sec 1700) true false]).owed.map (·.change.text) =
        ["новый пользователь eve (uid 1000, ?)"]) := by
  refine ⟨access_changes_told_once _ ?_, by decide +kernel⟩
  simp only [Along, and_true]
  decide +kernel

/-- What is owed at a tick is in the text of its alert. -/
theorem detail_of_told {now : Time} {delivered : Bool} {e : Entry}
    (h : ToldOnce s (.tick now true delivered)) (he : e ∈ s.owed) :
    (accessStep s.st s.told now true).1.any (fun a => TgFmt.Has a.detail e.change.text) = true := by
  have htold := h rfl
  cases hout : (accessStep s.st s.told now true).1 with
  | none =>
    rw [hout] at htold
    rw [show s.owed = [] from htold] at he
    cases he
  | some a =>
    rw [hout] at htold
    exact decide_eq_true (htold.2 e he).1

/-- A snapshot with these files of `sudoers`. -/
def filesAt (n : Int) (paths : List String) : AccessEvent :=
  .snapshot { ts := sec n, files := paths.map fun p => (p, "h") } (sec n) []

def entryAt (n : Int) (kind text : String) : Entry := ⟨⟨kind, "add", text, true, "", false⟩, sec n⟩

/-- The clock of the node steps back, and the next new user is never told; and of seven new
files in one snapshot the alert names six. -/
theorem a_clock_step_hides_a_user :
    ¬ Along accessNext ToldOnce {} [usersAt 1000 ["root"], usersAt 1600 ["root", "eve"],
      .tick (sec 1700) true true, usersAt 1300 ["root", "eve", "mallory"],
      .tick (sec 1800) true true] ∧
    ¬ Along accessNext ToldOnce {} [filesAt 1000 [],
      filesAt 1600 (["a", "b", "c", "d", "e", "f", "g"].map ("/etc/sudoers.d/" ++ ·)),
      .tick (sec 1700) true true] := by
  constructor
  · intro h
    have hmallory := detail_of_told
      (e := entryAt 1300 "user" "новый пользователь mallory (uid 1000, ?)") h.2.2.2.2.1
      (by decide +kernel)
    revert hmallory
    decide +kernel
  · intro h
    have hlast := detail_of_told (e := entryAt 1600 "sudo" "добавлен /etc/sudoers.d/g") h.2.2.1
      (by decide +kernel)
    revert hlast
    decide +kernel

end Kervax
