-- The login guard over whole runs: what the tables know of one address is an account
-- of its own, and the account is what has happened at the address.
import Kervax.LoginGuard
import Mathlib.Tactic.Linarith

namespace Kervax.Login

open Runs

/-! ## The account of an address -/

/-- What the tables know of the address at a time: its failures in the window, and its
bans that are not over for two days. -/
def Db.own (db : Db) (key : String) (t : Time) : Db where
  failures := db.failures.filter fun f => f.key = key ∧ t - window ≤ f.ts
  bans := db.bans.filter fun b => b.key = key ∧ t - 2 * day ≤ b.bannedUntil

/-- The account with one more failure. -/
def Db.failed (d : Db) (e : Event) (u : String) : Db :=
  { d with failures := d.failures ++ [⟨e.key, e.time, firstChars 64 u⟩] }

/-- The failures have reached the limit, and no ban is on. -/
def Db.full (g : Guard) (d : Db) (e : Event) : Prop :=
  g.maxFailures ≤ d.failures.length ∧ activeBan d e.key e.time = none

instance (g : Guard) (d : Db) (e : Event) : Decidable (d.full g e) :=
  inferInstanceAs (Decidable (_ ∧ _))

/-- One event on an account. -/
def account (g : Guard) (d : Db) (e : Event) : Db :=
  match e.act with
  | .fail u =>
    if (d.failed e u).full g e then
      { failures := [], bans := d.bans ++ [banOf g (d.failed e u) e.key e.time] }
    else d.failed e u
  | .success => { d with failures := [] }
  | .unban => {}
  | .blocked => noteBlocked d e.key e.time

/-- The ban that the event sets. -/
def accountBan (g : Guard) (d : Db) (e : Event) : Option Ban :=
  match e.act with
  | .fail u =>
    if (d.failed e u).full g e then some (banOf g (d.failed e u) e.key e.time) else none
  | _ => none

/-- A filter after a weaker one. -/
theorem filter_filter_of_imp {α : Type} {p q : α → Bool} (h : ∀ a, p a = true → q a = true)
    (l : List α) : (l.filter q).filter p = l.filter p := by
  rw [List.filter_filter]
  apply List.filter_congr
  intro a _
  cases hp : p a with
  | false => rfl
  | true => simp [h a hp]

theorem own_own {db : Db} {key : String} {t u : Time} (h : t ≤ u) :
    (db.own key t).own key u = db.own key u := by
  unfold Db.own
  congr 1
  · apply filter_filter_of_imp
    intro f hf
    obtain ⟨hk, hu⟩ := of_decide_eq_true hf
    exact decide_eq_true ⟨hk, by linarith⟩
  · apply filter_filter_of_imp
    intro b hb
    obtain ⟨hk, hu⟩ := of_decide_eq_true hb
    exact decide_eq_true ⟨hk, by linarith⟩

/-- The account does not feel a purge of its time. -/
theorem own_purge {db : Db} {key : String} {t u : Time} (h : t ≤ u) :
    (purge db t).own key u = db.own key u := by
  unfold Db.own purge
  congr 1
  · apply filter_filter_of_imp
    intro f hf
    have hu := (of_decide_eq_true hf).2
    exact decide_eq_true (by linarith)
  · apply filter_filter_of_imp
    intro b hb
    have hu := (of_decide_eq_true hb).2
    exact decide_eq_true (by linarith)

theorem day_pos : (0 : Time) < day := by decide

theorem activeBan_own (db : Db) (key : String) (t : Time) :
    activeBan (db.own key t) key t = activeBan db key t := by
  unfold activeBan Db.own
  congr 1
  apply filter_filter_of_imp
  intro b hb
  obtain ⟨hk, hu⟩ := of_decide_eq_true hb
  exact decide_eq_true ⟨hk, by linarith [day_pos]⟩

theorem recent_own (db : Db) (key : String) (t : Time) :
    recent (db.own key t) key t = recent db key t := by
  unfold recent Db.own
  rw [filter_filter_of_imp fun _ h => h]

/-- Of a purged table, the ban reads what the account has. -/
theorem banOf_own (g : Guard) (db : Db) (key : String) (t : Time) :
    banOf g ((purge db t).own key t) key t = banOf g (purge db t) key t := by
  have hprev : (((purge db t).own key t).bans.any fun b => b.key = key ∧ t - day ≤ b.bannedUntil) =
      ((purge db t).bans.any fun b => b.key = key ∧ t - day ≤ b.bannedUntil) := by
    rw [Bool.eq_iff_iff]
    simp only [List.any_eq_true, decide_eq_true_eq, Db.own, List.mem_filter]
    constructor
    · rintro ⟨b, ⟨hb, -⟩, hp⟩
      exact ⟨b, hb, hp⟩
    · rintro ⟨b, hb, hk, hp⟩
      exact ⟨b, ⟨hb, hk, by linarith [day_pos]⟩, hk, hp⟩
  have hlogins : loginsOf ((purge db t).own key t) key = loginsOf (purge db t) key := by
    unfold loginsOf
    have : ((purge db t).own key t).failures.filter (fun f => f.key = key) =
        (purge db t).failures.filter fun f => f.key = key := by
      unfold Db.own purge
      rw [List.filter_filter, List.filter_filter, List.filter_filter]
      apply List.filter_congr
      intro f _
      by_cases hk : f.key = key <;> simp [hk, not_lt]
    rw [this]
  unfold banOf
  rw [hprev, hlogins, recent_own]

/-- The tables with one more failure, purged. -/
def purged (db : Db) (e : Event) (u : String) : Db := purge (db.failed e u) e.time

theorem window_pos : (0 : Time) < window := by decide

theorem own_purged (db : Db) (e : Event) (u : String) :
    (purged db e u).own e.key e.time = (db.own e.key e.time).failed e u := by
  unfold purged
  rw [own_purge le_rfl]
  apply Db.ext
  · simp [Db.own, Db.failed, List.filter_append, window_pos.le]
  · rfl

theorem banOf_purged (g : Guard) (db : Db) (e : Event) (u : String) :
    banOf g ((db.own e.key e.time).failed e u) e.key e.time =
      banOf g (purged db e u) e.key e.time := by
  rw [← own_purged]
  exact banOf_own g (db.failed e u) e.key e.time

/-- `record_failure` sets a ban exactly when the account is full. -/
theorem recordFailure_eq (g : Guard) (db : Db) (e : Event) (u : String) :
    recordFailure g db e.key u e.time =
      if ((db.own e.key e.time).failed e u).full g e then
        (dropFailures { purged db e u with
            bans := (purged db e u).bans ++ [banOf g (purged db e u) e.key e.time] } e.key,
          some (banOf g (purged db e u) e.key e.time))
      else (purged db e u, none) := by
  have hfull : ((db.own e.key e.time).failed e u).full g e ↔
      g.maxFailures ≤ recent (purged db e u) e.key e.time ∧
        activeBan (purged db e u) e.key e.time = none := by
    rw [← own_purged]
    unfold Db.full
    rw [activeBan_own]
    rfl
  simp only [hfull]
  rfl

theorem outcome_own (g : Guard) (db : Db) (e : Event) :
    outcome g db e = accountBan g (db.own e.key e.time) e := by
  unfold outcome accountBan
  cases e.act with
  | fail u =>
    dsimp only
    rw [recordFailure_eq, banOf_purged]
    split_ifs <;> rfl
  | _ => rfl

theorem minutes_nonneg (n : Nat) : 0 ≤ minutes n := by
  unfold minutes sec
  positivity

theorem own_dropFailures (db : Db) (key : String) (t : Time) :
    (dropFailures db key).own key t = { db.own key t with failures := [] } := by
  unfold dropFailures Db.own
  congr 1
  rw [List.filter_filter, List.filter_eq_nil_iff]
  intro f _
  simp
  tauto

theorem own_bans (db : Db) (key : String) (t : Time) :
    (db.own key t).bans = db.bans.filter fun b => b.key = key ∧ t - 2 * day ≤ b.bannedUntil := rfl

theorem le_bannedUntil (g : Guard) (db : Db) (key : String) (t : Time) :
    t ≤ (banOf g db key t).bannedUntil := by
  unfold banOf
  dsimp only
  linarith [minutes_nonneg (if db.bans.any fun b =>
    b.key = key ∧ t - day ≤ b.bannedUntil then max g.banMinutes repeatMinutes else g.banMinutes)]

/-- One more blocked attempt moves no ban out of a filter or into it. -/
theorem filter_noteBlocked {bs : List Ban} {ban : Ban} {p : Ban → Bool}
    (hp : ∀ b, p { b with blocked := b.blocked + 1 } = p b) :
    (bs.map fun b => if b = ban then { b with blocked := b.blocked + 1 } else b).filter p =
      (bs.filter p).map fun b => if b = ban then { b with blocked := b.blocked + 1 } else b := by
  rw [List.filter_map]
  congr 1
  apply List.filter_congr
  intro b _
  dsimp only [Function.comp]
  split_ifs
  · exact hp b
  · rfl

/-- One event at the address, on its account. -/
theorem step_own (g : Guard) (db : Db) (e : Event) :
    (step g db e).own e.key e.time = account g (db.own e.key e.time) e := by
  unfold step account
  cases e.act with
  | fail u =>
    dsimp only
    rw [recordFailure_eq, banOf_purged]
    split_ifs with hfull
    · dsimp only
      rw [own_dropFailures]
      apply Db.ext
      · rfl
      · have hon : e.time - 2 * day ≤ (banOf g (purged db e u) e.key e.time).bannedUntil := by
          linarith [day_pos, le_bannedUntil g (purged db e u) e.key e.time]
        have hkey : (banOf g (purged db e u) e.key e.time).key = e.key := rfl
        have hold : (db.own e.key e.time).bans = ((purged db e u).own e.key e.time).bans := by
          rw [own_purged]
          rfl
        dsimp only
        rw [hold, own_bans, own_bans, List.filter_append]
        congr 1
        apply List.filter_eq_self.mpr
        intro b hb
        obtain rfl := List.mem_singleton.mp hb
        exact decide_eq_true ⟨hkey, hon⟩
    · exact own_purged db e u
  | success => exact own_dropFailures db e.key e.time
  | unban =>
    dsimp only
    unfold unban
    rw [own_dropFailures]
    apply Db.ext
    · rfl
    · dsimp only
      rw [own_bans, List.filter_filter, List.filter_eq_nil_iff]
      intro b _
      simp
      tauto
  | blocked =>
    dsimp only
    unfold noteBlocked
    rw [activeBan_own]
    cases activeBan db e.key e.time with
    | none => rfl
    | some ban =>
      apply Db.ext
      · rfl
      · exact filter_noteBlocked fun b => rfl

/-- An event elsewhere is nothing to the account. -/
theorem step_other (g : Guard) (db : Db) {e : Event} {key : String} (hk : e.key ≠ key) {t : Time}
    (ht : e.time ≤ t) : (step g db e).own key t = db.own key t := by
  have hdrop : ∀ d : Db, (dropFailures d e.key).own key t = d.own key t := by
    intro d
    unfold dropFailures Db.own
    congr 1
    apply filter_filter_of_imp
    intro f hf
    exact decide_eq_true ((of_decide_eq_true hf).1.trans_ne hk.symm)
  unfold step
  cases e.act with
  | fail u =>
    have hpurged : (purged db e u).own key t = db.own key t := by
      unfold purged
      rw [own_purge ht]
      simp [Db.own, Db.failed, List.filter_append, hk]
    dsimp only
    rw [recordFailure_eq]
    split_ifs
    · dsimp only
      rw [hdrop, ← hpurged]
      have hkey : (banOf g (purged db e u) e.key e.time).key ≠ key := hk
      apply Db.ext
      · rfl
      · rw [own_bans, own_bans, List.filter_append]
        simp [hkey]
    · exact hpurged
  | success => exact hdrop db
  | unban =>
    dsimp only
    unfold unban
    rw [hdrop]
    unfold Db.own
    congr 1
    apply filter_filter_of_imp
    intro b hb
    exact decide_eq_true ((of_decide_eq_true hb).1.trans_ne hk.symm)
  | blocked =>
    dsimp only
    unfold noteBlocked
    cases hban : activeBan db e.key e.time with
    | none => rfl
    | some ban =>
      have hkey : ban.key = e.key := by
        have := List.mem_of_getLast? hban
        exact (of_decide_eq_true (List.mem_filter.mp this).2).1
      apply Db.ext
      · rfl
      · dsimp only
        rw [own_bans, own_bans, filter_noteBlocked fun b => rfl]
        refine (List.map_congr_left ?_).trans (List.map_id' _)
        intro b hb
        have hb : b.key = key := (of_decide_eq_true (List.mem_filter.mp hb).2).1
        apply if_neg
        rintro rfl
        exact hk (hkey.symm.trans hb)

/-! ## Whole runs -/

@[simp] theorem after_nil (g : Guard) : after g [] = {} := rfl

@[simp] theorem after_snoc (g : Guard) (es : List Event) (e : Event) :
    after g (es ++ [e]) = step g (after g es) e := run_snoc _ _ _ _

theorem account_later (g : Guard) (es : List Event) {e : Event} {t : Time} (ht : e.time ≤ t) :
    (after g (es ++ [e])).own e.key t =
      (account g ((after g es).own e.key e.time) e).own e.key t := by
  rw [after_snoc, ← own_own ht, step_own]

/-- The account of an address is what its own events have made of it. -/
theorem own_filter (g : Guard) {es : List Event} (hclock : es.Pairwise fun a b => a.time ≤ b.time)
    {key : String} {t : Time} (ht : ∀ e ∈ es, e.time ≤ t) :
    (after g es).own key t = (after g (es.filter fun e => e.key = key)).own key t := by
  induction es using List.reverseRecOn generalizing t with
  | nil => rfl
  | append_singleton es e ih =>
    obtain ⟨hes, -, hle⟩ := List.pairwise_append.mp hclock
    have hbefore : ∀ a ∈ es, a.time ≤ e.time := fun a ha => hle a ha e (List.mem_singleton_self e)
    have het : e.time ≤ t := ht e (by simp)
    by_cases hk : e.key = key
    · subst hk
      rw [List.filter_append]
      have hone : ([e].filter fun a => a.key = e.key) = [e] := by simp
      rw [hone, account_later g _ het, account_later g _ het, ih hes hbefore]
    · have hone : ([e].filter fun a => a.key = key) = [] := by simp [hk]
      rw [List.filter_append, hone, List.append_nil, after_snoc, step_other g _ hk het]
      exact ih hes fun a ha => ht a (List.mem_append_left _ ha)

/-! ## What has happened at an address -/

/-- The failures of the address since its last ban, release or good login, and its bans
since the last release. -/
structure History where
  failures : List Time := []
  bans : List Ban := []

/-- The history after an event with its outcome. -/
def History.note (h : History) (key : String) (e : Event) (ban : Option Ban) : History :=
  if e.key ≠ key then h
  else
    match e.act, ban with
    | .fail _, none => { h with failures := h.failures ++ [e.time] }
    | .fail _, some b => { failures := [], bans := h.bans ++ [b] }
    | .success, _ => { h with failures := [] }
    | .unban, _ => {}
    | .blocked, _ => h

/-- The tables and the history of the address side by side. -/
def noted (g : Guard) (key : String) (s : Db × History) (e : Event) : Db × History :=
  (step g s.1 e, s.2.note key e (outcome g s.1 e))

def history (g : Guard) (key : String) (es : List Event) : History :=
  (Runs.run (noted g key) ({}, {}) es).2

theorem noted_fst (g : Guard) (key : String) (es : List Event) :
    (Runs.run (noted g key) ({}, {}) es).1 = after g es := by
  induction es using List.reverseRecOn with
  | nil => rfl
  | append_singleton es e ih => rw [run_snoc, after_snoc, ← ih]; rfl

theorem history_snoc (g : Guard) (key : String) (es : List Event) (e : Event) :
    history g key (es ++ [e]) = (history g key es).note key e (outcome g (after g es) e) := by
  unfold history
  rw [run_snoc, ← noted_fst g key es]
  rfl

/-- What the account has of a history: the failures in the window and the ends of the
bans that are not over for two days. -/
structure Matches (d : Db) (h : History) (t : Time) : Prop where
  failures : d.failures.map Failure.ts = h.failures.filter (t - window ≤ ·)
  ends : d.bans.map Ban.bannedUntil = (h.bans.map Ban.bannedUntil).filter (t - 2 * day ≤ ·)

section

variable {α : Type} {f : α → Time} {xs : List α} {ys : List Time} {lo hi : Time}

/-- What is left of the rows later is what is left of their times. -/
theorem left_later (hle : lo ≤ hi) (h : xs.map f = ys.filter (lo ≤ ·)) {p : α → Bool}
    (hp : ∀ x ∈ xs, p x = decide (hi ≤ f x)) : (xs.filter p).map f = ys.filter (hi ≤ ·) := by
  have hmap := List.filter_map (f := f) (l := xs) (p := fun t => decide (hi ≤ t))
  rw [List.filter_congr hp]
  refine hmap.symm.trans ?_
  rw [h]
  apply filter_filter_of_imp
  intro t ht
  exact decide_eq_true (hle.trans (of_decide_eq_true ht))

theorem left_snoc (h : xs.map f = ys.filter (lo ≤ ·)) {x : α} (hx : lo ≤ f x) :
    (xs ++ [x]).map f = (ys ++ [f x]).filter (lo ≤ ·) := by
  have hkept : [f x].filter (lo ≤ ·) = [f x] :=
    List.filter_eq_self.mpr fun t ht => decide_eq_true (List.mem_singleton.mp ht ▸ hx)
  rw [List.map_append, List.filter_append, h, hkept]
  rfl

end

theorem Matches.later {db : Db} {key : String} {h : History} {t u : Time} (htu : t ≤ u)
    (hm : Matches (db.own key t) h t) : Matches (db.own key u) h u where
  failures := by
    rw [← own_own htu]
    refine left_later (by linarith) hm.failures fun f hf => ?_
    have hk : f.key = key := (of_decide_eq_true (List.mem_filter.mp hf).2).1
    simp [hk]
  ends := by
    rw [← own_own htu]
    refine left_later (by linarith) hm.ends fun b hb => ?_
    have hk : b.key = key := (of_decide_eq_true (List.mem_filter.mp hb).2).1
    simp [hk]

/-- An event moves the account and the history alike. -/
theorem Matches.next {g : Guard} {d : Db} {h : History} {e : Event} (hm : Matches d h e.time) :
    Matches (account g d e) (h.note e.key e (accountBan g d e)) e.time := by
  unfold account accountBan History.note
  rw [if_neg (not_not.mpr rfl)]
  cases e.act with
  | fail u =>
    dsimp only
    split_ifs with hfull
    · refine ⟨rfl, ?_⟩
      have hon : e.time - 2 * day ≤ (banOf g (d.failed e u) e.key e.time).bannedUntil := by
        linarith [day_pos, le_bannedUntil g (d.failed e u) e.key e.time]
      dsimp only
      rw [left_snoc hm.ends hon, List.map_append]
      rfl
    · refine ⟨?_, hm.ends⟩
      exact left_snoc hm.failures (by linarith [window_pos])
  | success => exact ⟨rfl, hm.ends⟩
  | unban => exact ⟨rfl, rfl⟩
  | blocked =>
    dsimp only
    unfold noteBlocked
    cases activeBan d e.key e.time with
    | none => exact hm
    | some ban =>
      refine ⟨hm.failures, ?_⟩
      rw [List.map_map, ← hm.ends]
      apply List.map_congr_left
      intro b _
      dsimp only [Function.comp]
      split_ifs <;> rfl

/-- The account of a run is what its history says. -/
theorem matches_history (g : Guard) {es : List Event}
    (hclock : es.Pairwise fun a b => a.time ≤ b.time) (key : String) {t : Time}
    (ht : ∀ e ∈ es, e.time ≤ t) : Matches ((after g es).own key t) (history g key es) t := by
  induction es using List.reverseRecOn generalizing t with
  | nil => exact ⟨rfl, rfl⟩
  | append_singleton es e ih =>
    obtain ⟨hes, -, hle⟩ := List.pairwise_append.mp hclock
    have hbefore : ∀ a ∈ es, a.time ≤ e.time := fun a ha => hle a ha e (List.mem_singleton_self e)
    have het : e.time ≤ t := ht e (by simp)
    rw [history_snoc]
    by_cases hk : e.key = key
    · subst hk
      have hnow := (ih hes hbefore).next (g := g)
      rw [← outcome_own, ← step_own, ← after_snoc] at hnow
      exact hnow.later het
    · rw [after_snoc, step_other g _ hk het]
      unfold History.note
      rw [if_pos hk]
      exact ih hes fun a ha => ht a (List.mem_append_left _ ha)

/-! ## The laws -/

theorem Run.init {g : Guard} {es : List Event} {e : Event} (h : Run g (es ++ [e])) : Run g es :=
  ⟨(List.pairwise_append.mp h.clock).1, (along_snoc.mp h.asked).1⟩

theorem Run.last {g : Guard} {es : List Event} {e : Event} (h : Run g (es ++ [e])) :
    Allowed (after g es) e :=
  (along_snoc.mp h.asked).2

theorem before_last {es : List Event} {e : Event}
    (h : (es ++ [e]).Pairwise fun a b => a.time ≤ b.time) : ∀ a ∈ es, a.time ≤ e.time :=
  fun a ha => (List.pairwise_append.mp h).2.2 a ha e (List.mem_singleton_self e)

theorem matches_last (g : Guard) {es : List Event} {e : Event}
    (h : (es ++ [e]).Pairwise fun a b => a.time ≤ b.time) :
    Matches ((after g es).own e.key e.time) (history g e.key es) e.time :=
  matches_history g (List.pairwise_append.mp h).1 e.key (before_last h)

/-- The failures that the window of the event holds, with the event itself. -/
def History.recent (h : History) (t : Time) : Nat :=
  ((h.failures ++ [t]).filter (t - window ≤ ·)).length

theorem length_failed {d : Db} {h : History} {e : Event} (hm : Matches d h e.time) (u : String) :
    (d.failed e u).failures.length = h.recent e.time := by
  have hlen : d.failures.length = (h.failures.filter (e.time - window ≤ ·)).length := by
    rw [← hm.failures, List.length_map]
  have hin : [e.time].filter (e.time - window ≤ ·) = [e.time] := by
    simp [window_pos.le]
  unfold Db.failed History.recent
  rw [List.filter_append, hin, List.length_append, List.length_append, hlen]
  rfl

/-- A failed login sets a ban exactly when it is the last one that the window allows. -/
theorem ban_at_once {g : Guard} {es : List Event} {e : Event} {u : String}
    (hrun : Run g (es ++ [e])) (he : e.act = .fail u) :
    (outcome g (after g es) e).isSome ↔ g.maxFailures ≤ (history g e.key es).recent e.time := by
  have hnone : activeBan (after g es) e.key e.time = none := by
    have := hrun.last
    unfold Allowed at this
    rwa [he] at this
  have hfull : (((after g es).own e.key e.time).failed e u).full g e ↔
      g.maxFailures ≤ (history g e.key es).recent e.time := by
    unfold Db.full
    rw [length_failed (matches_last g hrun.clock) u]
    exact and_iff_left ((activeBan_own _ _ _).trans hnone)
  rw [outcome_own]
  unfold accountBan
  rw [he]
  dsimp only
  split_ifs with h
  · exact iff_of_true rfl (hfull.mp h)
  · exact iff_of_false (by simp) (h ∘ hfull.mpr)

theorem max_pos (g : Guard) : 0 < g.maxFailures := by
  have h := g.max_mem
  simp only [failChoices, List.mem_cons, List.not_mem_nil, or_false] at h
  omega

/-- Between two bans no window holds as many failures as the limit. -/
theorem few_in_window {g : Guard} {es : List Event} (hrun : Run g es) (key : String) (t : Time) :
    ((history g key es).failures.filter fun ts => t - window ≤ ts ∧ ts ≤ t).length <
      g.maxFailures := by
  induction es using List.reverseRecOn with
  | nil => exact max_pos g
  | append_singleton es e ih =>
    have hold := ih hrun.init
    rw [history_snoc]
    unfold History.note
    by_cases hk : e.key = key
    · subst hk
      rw [if_neg (not_not.mpr rfl)]
      cases he : e.act with
      | success => exact max_pos g
      | unban => exact max_pos g
      | blocked => exact hold
      | fail u =>
        cases ho : outcome g (after g es) e with
        | some b => exact max_pos g
        | none =>
          -- no ban: with this one the window that ends now is not full
          have hfew : (history g e.key es).recent e.time < g.maxFailures := by
            have := ban_at_once hrun he
            rw [ho] at this
            exact not_le.mp fun h => by simpa using this.mpr h
          dsimp only
          by_cases hin : t - window ≤ e.time ∧ e.time ≤ t
          · refine lt_of_le_of_lt ?_ hfew
            apply List.Sublist.length_le
            apply List.monotone_filter_right
            intro ts hts
            have := (of_decide_eq_true hts).1
            exact decide_eq_true (by linarith [hin.2])
          · rw [List.filter_append]
            have : [e.time].filter (fun ts => t - window ≤ ts ∧ ts ≤ t) = [] := by
              apply List.filter_eq_nil_iff.mpr
              intro ts hts
              obtain rfl := List.mem_singleton.mp hts
              exact fun h => hin (of_decide_eq_true h)
            rwa [this, List.append_nil]
    · rw [if_pos hk]
      exact hold

/-- A ban of the address that is over for a day at most. -/
def History.ended (h : History) (t : Time) : Prop :=
  ∃ p ∈ h.bans, p.bannedUntil ≤ t ∧ t - day ≤ p.bannedUntil

theorem minutes_le {m n : Nat} : minutes m ≤ minutes n ↔ m ≤ n := by
  unfold minutes sec
  constructor
  · intro h
    by_contra hlt
    have : (n : Int) < m := by exact_mod_cast not_le.mp hlt
    nlinarith
  · intro h
    have : (m : Int) ≤ n := by exact_mod_cast h
    nlinarith

/-- What `record_failure` looks for among the bans of the account is in the history. -/
theorem prev_iff {db : Db} {key : String} {t : Time} {h : History}
    (hm : Matches (db.own key t) h t) (hnone : activeBan (db.own key t) key t = none) :
    ((db.own key t).bans.any fun b => b.key = key ∧ t - day ≤ b.bannedUntil) = true ↔
      h.ended t := by
  simp only [List.any_eq_true, decide_eq_true_eq]
  have hmem : ∀ v, v ∈ (db.own key t).bans.map Ban.bannedUntil ↔
      v ∈ h.bans.map Ban.bannedUntil ∧ t - 2 * day ≤ v := by
    intro v
    rw [hm.ends, List.mem_filter, decide_eq_true_eq]
  constructor
  · rintro ⟨b, hb, hk, hday⟩
    obtain ⟨p, hp, hpb⟩ := List.mem_map.mp ((hmem b.bannedUntil).mp (List.mem_map_of_mem hb)).1
    have hover : ¬ t < b.bannedUntil := by
      intro hlt
      have := List.getLast?_eq_none_iff.mp hnone
      exact List.filter_eq_nil_iff.mp this b hb (decide_eq_true ⟨hk, hlt⟩)
    exact ⟨p, hp, by linarith, by linarith⟩
  · rintro ⟨p, hp, -, hday⟩
    obtain ⟨b, hb, hpb⟩ := List.mem_map.mp
      ((hmem p.bannedUntil).mpr ⟨List.mem_map_of_mem hp, by linarith [day_pos]⟩)
    have hk : b.key = key := (of_decide_eq_true (List.mem_filter.mp hb).2).1
    exact ⟨b, hb, hk, by linarith⟩

/-- How long a ban is set for, and what it says of an earlier one. -/
theorem ban_term {g : Guard} {es : List Event} {e : Event} {b : Ban}
    (hclock : (es ++ [e]).Pairwise fun a b => a.time ≤ b.time)
    (ho : outcome g (after g es) e = some b) :
    (b.repeated = true ↔ (history g e.key es).ended e.time) ∧
      (e.time + minutes repeatMinutes ≤ b.bannedUntil ↔
        repeatMinutes ≤ g.banMinutes ∨ (history g e.key es).ended e.time) := by
  rw [outcome_own] at ho
  unfold accountBan at ho
  cases he : e.act with
  | fail u =>
    rw [he] at ho
    dsimp only at ho
    split_ifs at ho with hfull
    obtain rfl := Option.some.inj ho
    have hprev := prev_iff (matches_last g hclock) hfull.2
    refine ⟨hprev, ?_⟩
    unfold banOf
    dsimp only [Db.failed]
    rw [add_le_add_iff_left, minutes_le, ← hprev]
    split_ifs with h
    · exact iff_of_true (le_max_right _ _) (.inr h)
    · exact ⟨.inl, fun h' => h'.resolve_right h⟩
  | _ => rw [he] at ho; cases ho

/-- What the guard promises, over any run. -/
structure Guarded (g : Guard) : Prop where
  /-- Between two bans fewer failures than the limit lie in any window. -/
  few : ∀ es key t, Run g es →
    ((history g key es).failures.filter fun ts => t - window ≤ ts ∧ ts ≤ t).length < g.maxFailures
  /-- The failure that reaches the limit sets the ban. -/
  at_once : ∀ es e u, Run g (es ++ [e]) → e.act = .fail u →
    ((outcome g (after g es) e).isSome ↔ g.maxFailures ≤ (history g e.key es).recent e.time)
  /-- A ban is a long one where each is, or after one that ended a day ago at most. -/
  term : ∀ es e b, Run g (es ++ [e]) → outcome g (after g es) e = some b →
    b.key = e.key ∧ (b.repeated = true ↔ (history g e.key es).ended e.time) ∧
      (e.time + minutes repeatMinutes ≤ b.bannedUntil ↔
        repeatMinutes ≤ g.banMinutes ∨ (history g e.key es).ended e.time)
  /-- The events of other addresses change nothing. -/
  alone : ∀ es e, (es ++ [e]).Pairwise (fun a b => a.time ≤ b.time) →
    outcome g (after g es) e = outcome g (after g (es.filter fun a => a.key = e.key)) e

theorem login_guarded (g : Guard) : Guarded g where
  few es key t hrun := few_in_window hrun key t
  at_once es e u hrun he := ban_at_once hrun he
  term es e b hrun ho := by
    refine ⟨?_, ban_term hrun.clock ho⟩
    rw [outcome_own] at ho
    unfold accountBan at ho
    cases he : e.act with
    | fail u =>
      rw [he] at ho
      dsimp only at ho
      split_ifs at ho
      obtain rfl := Option.some.inj ho
      rfl
    | _ => rw [he] at ho; cases ho
  alone es e hclock := by
    rw [outcome_own, outcome_own,
      own_filter g (List.pairwise_append.mp hclock).1 (before_last hclock)]

/-- Where each ban is for a day, the first one is as long as a repeated one, and is not recorded
as one. -/
theorem first_ban_for_a_day :
    ¬ ∀ (g : Guard) (es : List Event) (e : Event) (b : Ban), Run g (es ++ [e]) →
      outcome g (after g es) e = some b →
      (e.time + minutes repeatMinutes ≤ b.bannedUntil ↔
        (∃ p ∈ (history g e.key es).bans,
          p.bannedUntil ≤ e.time ∧ e.time - day < p.bannedUntil) ∨ b.repeated = true) := by
  intro h
  have hrun : Run { maxFailures := 3, banMinutes := 1440 }
      ([⟨"203.0.113.7", 0, .fail ""⟩, ⟨"203.0.113.7", sec 1, .fail ""⟩] ++
        [⟨"203.0.113.7", sec 2, .fail ""⟩]) :=
    ⟨by decide, by simp [Along, Allowed]; decide⟩
  obtain ⟨b, hb⟩ := Option.isSome_iff_exists.mp ((ban_at_once hrun rfl).mpr (by decide))
  have hlong := (ban_term hrun.clock hb).2.mpr (.inl (by decide))
  have hnone : (history { maxFailures := 3, banMinutes := 1440 } "203.0.113.7"
      [⟨"203.0.113.7", 0, .fail ""⟩, ⟨"203.0.113.7", sec 1, .fail ""⟩]).bans = [] := by decide
  rcases (h _ _ _ b hrun hb).mp hlong with ⟨p, hp, -⟩ | hrep
  · rw [hnone] at hp
    cases hp
  · obtain ⟨p, hp, -⟩ := (ban_term hrun.clock hb).1.mp hrep
    rw [hnone] at hp
    cases hp

end Kervax.Login
