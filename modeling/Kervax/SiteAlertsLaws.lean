-- The laws of `_send_alerts`: one failed message holds back the marks of the
-- whole batch. The theorem says exactly which batches come out right.
import Kervax.SiteAlerts
import Kervax.DispatchLaws

namespace Kervax

variable {V : Type}

/-! ## What it means to come out right -/

/-- The message `j` that went out carries the alert `p`. -/
def Delivery.Carries (d : Delivery V) (j : Nat) (p : Pending V) : Prop :=
  ∃ idx, (p, idx) ∈ d.carry ∧ ∃ m idxs, d.sent[j]? = some (m, idxs) ∧ idx ∈ idxs

/-- The alert is a recovery that the table of retries can hold for monitor `c`. -/
def Pending.RecoveryOf (p : Pending V) (c : Nat) : Prop :=
  p.kind ∈ recoveryKinds ∧ p.checkId = some c

/-- All marks of the alert are written, and its recovery waits no more. -/
def SiteSent.Committed (r : SiteSent V) (p : Pending V) : Prop :=
  (∀ mk ∈ p.marks, mk ∈ r.writes) ∧ ∀ c, p.RecoveryOf c → c ∉ r.retry.map (·.1)

/-- The alert comes back on the next tick: its marks are as they were, or its
recovery is in the table. -/
def SiteSent.OfferedAgain (r : SiteSent V) (p : Pending V) : Prop :=
  (p.marks ≠ [] ∧ ∀ mk ∈ p.marks, mk ∉ r.writes) ∨
    ∃ c, p.RecoveryOf c ∧ c ∈ r.retry.map (·.1)

/-- A finished alert is marked, and an unfinished one comes back. -/
def Right (d : Delivery V) (r : SiteSent V) : Prop :=
  ∀ j p, d.Carries j p →
    (j ∈ d.finished → r.Committed p) ∧ (j ∉ d.finished → r.OfferedAgain p)

/-- An alert that leaves no trace: no mark, and no recovery to keep. -/
def Pending.Bare (p : Pending V) : Prop := p.marks = [] ∧ ∀ c, ¬ p.RecoveryOf c

/-- Every message is finished, or the finished ones carry bare alerts only and
the others carry none. -/
def Unmixed (d : Delivery V) : Prop :=
  (∀ j < d.sent.length, j ∈ d.finished) ∨
    ∀ j p, d.Carries j p → (j ∈ d.finished ↔ p.Bare)

/-! ## The folding keeps every alert that it carries -/

/-- Each alert that a text carries is pending, and committed unless it is a
reminder. -/
structure Folding.Good (f : Folding V) (pending : List (Pending V)) : Prop where
  carry_mem : ∀ e ∈ f.carry, e.1 ∈ pending
  committed : ∀ e ∈ f.carry, e.1.kind ≠ .known → e.1 ∈ f.commits

theorem Folding.Good.join {f : Folding V} {pending : List (Pending V)} (hf : f.Good pending)
    {p : Pending V} (hp : p ∈ pending) (idx : Nat) : (f.join p idx).Good pending := by
  constructor
  · intro e he
    rcases List.mem_append.mp he with h | h
    · exact hf.carry_mem e h
    · exact List.mem_singleton.mp h ▸ hp
  · intro e he hk
    rcases List.mem_append.mp he with h | h
    · exact List.mem_append_left _ (hf.committed e h hk)
    · exact List.mem_append_right _ (by simp [List.mem_singleton.mp h])

theorem Folding.Good.add {f : Folding V} {pending : List (Pending V)} (hf : f.Good pending)
    {p : Pending V} (hp : p ∈ pending) (m : Msg) (zone : Option String)
    (same : Option (SiteKind × String × String)) : (f.add p m zone same).Good pending :=
  ⟨(hf.join hp f.texts.length).carry_mem, (hf.join hp f.texts.length).committed⟩

theorem Folding.Good.remind {f : Folding V} {pending : List (Pending V)} (hf : f.Good pending)
    {p : Pending V} (hp : p ∈ pending) (hk : p.kind = .known) (m : Msg) :
    (f.remind p m).Good pending := by
  refine ⟨(hf.join hp f.texts.length).carry_mem, ?_⟩
  intro e he hne
  rcases List.mem_append.mp he with h | h
  · exact hf.committed e h hne
  · rw [List.mem_singleton.mp h] at hne
    exact absurd hk hne

theorem foldOne_good (x : SiteCtx) (sw : SiteWords V) {f : Folding V} {pending : List (Pending V)}
    (hf : f.Good pending) {p : Pending V} (hp : p ∈ pending) : (foldOne x sw f p).Good pending := by
  simp only [foldOne]
  split
  · exact hf
  · split
    · rename_i hk
      exact hf.remind hp hk _
    · split
      · exact hf
      · split
        · exact ⟨(hf.join hp _).carry_mem, (hf.join hp _).committed⟩
        · exact ⟨(hf.join hp _).carry_mem, (hf.join hp _).committed⟩
        · split
          · exact hf
          · exact hf.add hp _ _ _

theorem foldAll_good (x : SiteCtx) (sw : SiteWords V) (pending : List (Pending V)) :
    (foldAll x sw pending).Good pending := by
  have hfold : ∀ (ps : List (Pending V)) (f : Folding V), (∀ p ∈ ps, p ∈ pending) →
      f.Good pending → (ps.foldl (foldOne x sw) f).Good pending := by
    intro ps
    induction ps with
    | nil => exact fun f _ hf => hf
    | cons p ps ih =>
      intro f hps hf
      exact ih _ (fun q hq => hps q (List.mem_cons_of_mem _ hq))
        (foldOne_good x sw hf (hps p List.mem_cons_self))
  exact hfold pending {} (fun _ h => h) ⟨by simp, by simp⟩

/-! ## The table of recoveries -/

theorem mem_recIds {pending : List (Pending V)} {p : Pending V} {c : Nat} (hp : p ∈ pending)
    (h : p.RecoveryOf c) : c ∈ recIds pending :=
  List.mem_filterMap.mpr ⟨p, List.mem_filter.mpr ⟨hp, by simpa using h.1⟩, h.2⟩

theorem setDefaults_keeps {pending : List (Pending V)} {retry : Retry V} {now : Int} {c : Nat}
    (h : c ∈ retry.map (·.1)) : c ∈ (setDefaults retry pending now).map (·.1) := by
  induction pending generalizing retry with
  | nil => exact h
  | cons p ps ih =>
    apply ih
    dsimp only
    split
    · split
      · simp only [List.map_append, List.mem_append]
        exact Or.inl h
      · exact h
    · exact h

/-- Every recovery of a failed batch is in the table. -/
theorem setDefaults_mem {pending : List (Pending V)} {retry : Retry V} {now : Int} {p : Pending V}
    {c : Nat} (hp : p ∈ pending) (h : p.RecoveryOf c) :
    c ∈ (setDefaults retry pending now).map (·.1) := by
  induction pending generalizing retry with
  | nil => cases hp
  | cons q ps ih =>
    rcases List.mem_cons.mp hp with rfl | hp'
    · apply @setDefaults_keeps _ ps
      dsimp only
      rw [h.2]
      dsimp only
      split
      · simp
      · rename_i hn
        by_contra hc
        exact hn ⟨h.1, hc⟩
    · exact ih hp'

/-! ## Which batches come out right -/

theorem marks_of_known {p : Pending V} (h : p.kind = .known) : p.marks = [] := by
  obtain ⟨h1, h2⟩ := p.known_bare h
  simp only [Pending.marks, h, h1, h2]
  rcases p.checkId with _ | c <;> rfl

variable (e : SiteWorld V) (retry : Retry V) (pending : List (Pending V)) (now : Int)

/-- The whole batch is out: every alert that it carries is marked. -/
theorem committed_of_ok {d : Delivery V}
    (hd : deliver e (withRetries retry pending now e.up).1 = some d) (hok : d.ok = true)
    {j : Nat} {p : Pending V} (hc : d.Carries j p) :
    (sendAlerts e retry pending now).Committed p := by
  obtain ⟨idx, hmem, -⟩ := hc
  have hgood : p ∈ (withRetries retry pending now e.up).1 ∧ (p.kind ≠ .known → p ∈ d.commits) := by
    unfold deliver at hd
    split at hd
    · cases hd
    · have := foldAll_good e.ctx e.words (withRetries retry pending now e.up).1
      cases hd
      exact ⟨this.carry_mem _ hmem, this.committed _ hmem⟩
  simp only [sendAlerts, hd, hok, if_true]
  constructor
  · intro mk hmk
    refine List.mem_flatMap.mpr ⟨p, hgood.2 fun hk => ?_, hmk⟩
    rw [marks_of_known hk] at hmk
    cases hmk
  · intro c hrec hin
    obtain ⟨x, hx, rfl⟩ := List.mem_map.mp hin
    have := (List.mem_filter.mp hx).2
    simp [mem_recIds hgood.1 hrec] at this

/-- The batch failed somewhere: an alert that it carries counts as marked when
it is bare, and comes back when it is not. -/
theorem of_not_ok {d : Delivery V}
    (hd : deliver e (withRetries retry pending now e.up).1 = some d) (hok : d.ok = false)
    {j : Nat} {p : Pending V} (hc : d.Carries j p) :
    ((sendAlerts e retry pending now).Committed p ↔ p.Bare) ∧
      ((sendAlerts e retry pending now).OfferedAgain p ↔ ¬ p.Bare) := by
  obtain ⟨idx, hmem, -⟩ := hc
  have hp : p ∈ (withRetries retry pending now e.up).1 := by
    unfold deliver at hd
    split at hd
    · cases hd
    · cases hd
      exact (foldAll_good e.ctx e.words _).carry_mem _ hmem
  simp only [sendAlerts, hd, hok, Bool.false_eq_true, if_false]
  have htab : ∀ c, p.RecoveryOf c →
      c ∈ (setDefaults (withRetries retry pending now e.up).2
        (withRetries retry pending now e.up).1 now).map (·.1) := fun c h => setDefaults_mem hp h
  constructor
  · constructor
    · rintro ⟨h1, h2⟩
      exact ⟨List.eq_nil_iff_forall_not_mem.mpr fun mk hmk => (by simpa using h1 mk hmk),
        fun c h => h2 c h (htab c h)⟩
    · rintro ⟨h1, h2⟩
      exact ⟨by simp [h1], fun c h => absurd h (h2 c)⟩
  · constructor
    · rintro (⟨hne, -⟩ | ⟨c, hrec, -⟩) ⟨h1, h2⟩
      · exact hne h1
      · exact h2 c hrec
    · intro hbare
      by_cases hm : p.marks = []
      · have : ¬ ∀ c, ¬ p.RecoveryOf c := fun h => hbare ⟨hm, h⟩
        obtain ⟨c, hrec⟩ := not_forall_not.mp this
        exact Or.inr ⟨c, hrec, htab c hrec⟩
      · exact Or.inl ⟨hm, by simp⟩

theorem deliver_ok_iff {d : Delivery V} (hd : deliver e pending = some d) :
    d.ok = true ↔ ∀ j < d.sent.length, j ∈ d.finished := by
  unfold deliver at hd
  split at hd
  · cases hd
  · cases hd
    have := dispatch_ok_iff e.wording
      ((e.siteGroups ((foldAll e.ctx e.words pending).finish e.words)).map (·.1)) e.cfg e.net
      e.threshold false true
    simpa using this

/-- A batch comes out right exactly when its outcomes are unmixed: all of it
went out, or what went out left no trace and what did not leaves one. -/
theorem siteAlerts_right_iff_unmixed {d : Delivery V}
    (hd : deliver e (withRetries retry pending now e.up).1 = some d) :
    Right d (sendAlerts e retry pending now) ↔ Unmixed d := by
  have hall := deliver_ok_iff e _ hd
  have hlt : ∀ j p, d.Carries j p → j < d.sent.length := by
    rintro j p ⟨idx, -, m, idxs, hj, -⟩
    exact (List.getElem?_eq_some_iff.mp hj).1
  rcases hok : d.ok with _ | _
  · have hnot : ¬ ∀ j < d.sent.length, j ∈ d.finished := fun h => by
      rw [hall.mpr h] at hok
      cases hok
    constructor
    · intro hright
      refine Or.inr fun j p hc => ?_
      obtain ⟨hcom, hoff⟩ := of_not_ok e retry pending now hd hok hc
      constructor
      · exact fun hj => hcom.mp ((hright j p hc).1 hj)
      · intro hbare
        by_contra hj
        exact hoff.mp ((hright j p hc).2 hj) hbare
    · rintro (h | h) j p hc
      · exact absurd h hnot
      · obtain ⟨hcom, hoff⟩ := of_not_ok e retry pending now hd hok hc
        exact ⟨fun hj => hcom.mpr ((h j p hc).mp hj), fun hj => hoff.mpr fun hb => hj ((h j p hc).mpr hb)⟩
  · have hfin := hall.mp hok
    refine ⟨fun _ => Or.inl hfin, fun _ j p hc => ?_⟩
    exact ⟨fun _ => committed_of_ok e retry pending now hd hok hc,
      fun hj => absurd (hfin j (hlt j p hc)) hj⟩

/-! ## A mixed batch -/

/-- A site is down, and the certificate of another one runs out. -/
def downSite : Pending String where
  kind := .bad
  name := "a"
  status := "down"
  msg := "HTTP 502"
  incId := some 7
  checkId := some 1
  flag := [("flap_state", "down")]
  known_bare := by decide

def sslSite : Pending String where
  kind := .ssl
  name := "b"
  status := ""
  msg := "SSL"
  incId := none
  checkId := some 2
  flag := [("ssl_alerted_days", "7")]
  known_bare := by decide

/-- The main chat takes the first text and not the second one. -/
def halfDown : SiteWorld String where
  ctx :=
    { rules := fun _ => none, group := fun _ => "", mutes := fun _ => [],
      addr := fun c => (if c = 1 then "a.io" else "b.io", "http"), snoozed := [],
      quietFailures := [], held := [] }
  words := ⟨Pending.msg, Pending.name, fun m _ => m.text, fun m _ => m.text, id⟩
  off := false
  up := none
  siteGroups := fun ms => ms.mapIdx fun i m => (m, [i])
  wording := ⟨Msg.text, Msg.text, fun _ => true, Msg.text, fun _ => ""⟩
  cfg := { telegramToken := "t", telegramChat := "main" }
  net :=
    ⟨fun i => if i = .one 0 then .accepted else .failed false, fun _ => true,
      fun _ _ => .accepted, fun _ => .accepted⟩
  threshold := 6

def halfSent : Delivery String :=
  (deliver halfDown [downSite, sslSite]).getD ⟨[], [], [], ∅, true⟩

theorem siteAlerts_right_iff_unmixed_half :
    Right halfSent (sendAlerts halfDown [] [downSite, sslSite] 0) ↔ Unmixed halfSent :=
  siteAlerts_right_iff_unmixed halfDown [] [downSite, sslSite] 0 rfl

/-- The alert of the site that is down went out, and its incident is not
marked: it goes out again on the next tick, because the other one failed. -/
theorem a_failed_neighbour_repeats_the_delivered :
    ¬ ∀ (e : SiteWorld String) (retry : Retry String) (pending : List (Pending String)) (now : Int)
      (d : Delivery String), deliver e (withRetries retry pending now e.up).1 = some d →
        Right d (sendAlerts e retry pending now) := by
  intro h
  have hright := h halfDown [] [downSite, sslSite] 0 halfSent rfl
  have hcar : halfSent.Carries 0 downSite :=
    ⟨0, List.mem_cons_self, _, [0], rfl, List.mem_cons_self⟩
  have hmark := ((hright 0 downSite hcar).1 (by decide)).1 (.notified 7) List.mem_cons_self
  exact absurd hmark List.not_mem_nil

end Kervax
