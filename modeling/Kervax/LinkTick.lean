-- The link of a server: its condition, from the moment it was last seen, and
-- what one tick of the kind `offline` can do when nobody has silenced it.
import Kervax.KindTick

namespace Kervax

/-- `going_down.WAIT`. -/
def goingDownWait : Time := sec 900

/-- What one tick reads of the link. `base` is the rest of the server. -/
structure LinkIn where
  base : Seen
  lastSeen : Option Time
  /-- `max(offline_after_seconds, 30)`. -/
  offlineAfter : Time
  /-- `offline_extra`. -/
  extra : Time
  /-- `panel_just_started`. -/
  grace : Bool := false
  /-- The notice of `going_down` that the whole system stops. -/
  goingDown : Option Time := none
  fireAck : Bool := true
  recAck : Bool := true

namespace LinkIn

variable (i : LinkIn)

/-- `seen_online`. -/
def online : Bool :=
  match i.lastSeen with
  | none => false
  | some t => i.base.now - t ≤ i.offlineAfter

/-- `going_down.holds`. -/
def holds : Bool :=
  match i.goingDown with
  | none => false
  | some t => i.base.now - t < goingDownWait

/-- How long a silence has to be before it is an outage. -/
def threshold : Time := i.offlineAfter + i.extra

/-- The silence is longer than `d`. -/
def silentFor (d : Time) : Prop := ∃ t, i.lastSeen = some t ∧ d < i.base.now - t

/-- `alert_off`. -/
def alertOff : Bool :=
  match i.lastSeen with
  | none => false
  | some t => i.threshold < i.base.now - t && !i.holds

/-- The condition `offline` of `_server_conditions`: a silence that is no
outage yet keeps the stored level. -/
def cond (stored : Nat) : Option Cond :=
  if i.lastSeen = none ∨ i.grace then none
  else some ⟨if i.online then 0 else if i.alertOff then 1 else stored, {}⟩

/-- What the tick of the kind reads. -/
def seen (st : KindSt) : Seen := { i.base with talking := i.online, cond := i.cond st.level }

end LinkIn

/-- Nobody has silenced the link: no rule switched off, no mute, snooze or
known problem, no parent and no mass silence. A mark "fixed" does not exist for
it. -/
structure Unsilenced (s : Seen) : Prop where
  skip : s.skip = false
  quietBefore : s.quietBefore = false
  quietSrv : s.quietSrv = false
  rule : s.ruleOk = true
  gap : s.gap = false
  parent : s.parentHeld = false
  muted : s.muted = false
  mutedUpTo : s.mutedUpTo = []
  known : s.known = none
  fixedMark : s.fixedMark = none

theorem Unsilenced.seen {i : LinkIn} (h : Unsilenced i.base) (st : KindSt) :
    Unsilenced (i.seen st) :=
  ⟨h.skip, h.quietBefore, h.quietSrv, h.rule, h.gap, h.parent, h.muted, h.mutedUpTo, h.known,
    h.fixedMark⟩

/-! ## The body of the loop for the link -/

/-- The body after all that does not concern the link: the change of the level,
through the flap guard. -/
def linkChange (s : Seen) (level : Nat) (x : Carry) : Carry :=
  if level = x.prev then x
  else ((linkBlock .offline s ⟨level, {}⟩ x).bind
    (reportBlock .offline s ⟨level, {}⟩ (toldTop x))).out

/-- What the change of the level comes to. -/
inductive LinkEnd (s : Seen) (level : Nat) (x : Carry) : Carry → Prop
  | same (h : level = x.prev) : LinkEnd s level x x
  /-- A change within a series that was noticed before. -/
  | swallowed (h : level ≠ x.prev) (hsaid : ¬ (level = 0 ∧ x.st.offSaid))
      (hfull : x.st.flap.full s.now) (hm : x.st.flap.muted) :
      LinkEnd s level x
        { x with
          st := { x.st with flap := x.st.flap.counted s.now }
          out := { x.out with fireApply := x.out.fireApply ++ [.level level] } }
  /-- The change that fills the series. -/
  | series (h : level ≠ x.prev) (hsaid : ¬ (level = 0 ∧ x.st.offSaid))
      (hfull : x.st.flap.full s.now) (hm : x.st.flap.muted = false) :
      LinkEnd s level x
        { x with
          st := { x.st with flap := { x.st.flap.counted s.now with muted := true } }
          out := { x.out with
            fires := x.out.fires ++ [⟨.flapping, 2, ∅⟩]
            fireApply := x.out.fireApply ++ [.level level] } }
  | alert (h : x.prev < level) (hfull : ¬ x.st.flap.full s.now) (st : KindSt)
      (hst : st = { x.st with flap := x.st.flap.counted s.now }) (top : Nat) :
      LinkEnd s level x
        { x with
          st := st
          out := { x.out with
            fires := x.out.fires ++ [⟨.alert, level, ∅⟩]
            fireApply := x.out.fireApply ++
              alertWrites .offline s ⟨level, {}⟩ top { x with st := st } } }
  /-- The server is back: its recovery goes out, or waits for the monitors
  behind it. -/
  | back (h : level = 0) (hp : x.prev ≠ 0) (f : Flap)
      (hf : f = x.st.flap ∧ x.st.offSaid ∨
        f = x.st.flap.counted s.now ∧ ¬ x.st.flap.full s.now ∧ ¬ x.st.offSaid) :
      LinkEnd s level x (zeroBlock .offline s { x with st := { x.st with flap := f } })

theorem linkChange_end (s : Seen) {level : Nat} {x : Carry} (hl : level ≤ 1) (hx : x.prev ≤ 1) :
    LinkEnd s level x (linkChange s level x) := by
  unfold linkChange
  by_cases heq : level = x.prev
  · rw [if_pos heq]
    exact .same heq
  rw [if_neg heq]
  by_cases hsaid : level = 0 ∧ x.st.offSaid
  · -- the return from an outage that was told does not pass through the guard
    obtain ⟨rfl, hs⟩ := hsaid
    have hback : ((linkBlock .offline s ⟨0, {}⟩ x).bind
        (reportBlock .offline s ⟨0, {}⟩ (toldTop x))).out = zeroBlock .offline s x := by
      simp [linkBlock, hs, reportBlock]
    rw [hback]
    exact .back rfl (Ne.symm heq) x.st.flap (.inl ⟨rfl, hs⟩)
  by_cases hfull : x.st.flap.full s.now
  · cases hm : x.st.flap.muted with
    | true =>
      have := LinkEnd.swallowed heq hsaid hfull hm
      simpa [linkBlock, hsaid, flapping_muted hfull hm] using this
    | false =>
      have := LinkEnd.series heq hsaid hfull hm
      simpa [linkBlock, hsaid, flapping_full hfull hm] using this
  · have hlink : linkBlock .offline s ⟨level, {}⟩ x =
        .next { x with st := { x.st with flap := x.st.flap.counted s.now } } := by
      simp [linkBlock, hsaid, flapping_rare hfull]
    rw [hlink, BodyFlow.bind_next]
    by_cases h0 : level = 0
    · subst h0
      have hs : ¬ x.st.offSaid := fun hs => hsaid ⟨rfl, hs⟩
      have := LinkEnd.back (s := s) rfl (Ne.symm heq) _ (.inr ⟨rfl, hfull, hs⟩)
      simpa [reportBlock] using this
    · have hlt : x.prev < level := by omega
      have := LinkEnd.alert hlt hfull _ rfl (toldTop x)
      simpa [reportBlock, hlt, riseBlock, flapMetricKinds, whoOf] using this

theorem fixNow_unsilenced {s : Seen} (h : Unsilenced s) (k : Kind) : fixNow k s = false := by
  unfold fixNow
  rw [h.fixedMark]

theorem isMuted_unsilenced {s : Seen} (h : Unsilenced s) (n : Nat) : isMuted s n = false := by
  unfold isMuted
  rw [h.muted, h.mutedUpTo]
  rfl

theorem gates_link {s : Seen} (h : Unsilenced s) (level : Nat) (x : Carry) :
    gates .offline s ⟨level, {}⟩ x = .next x := by
  simp [gates, h.rule, h.gap, h.parent, isMuted_unsilenced h, covers, h.known, condOk, bootHold]

/-- On a server that nobody silenced, only the change of the level is left of
the body. -/
theorem loopBody_link (nm : Norms) {s : Seen} (h : Unsilenced s) {level : Nat} {x : Carry}
    (hl : level ≤ 1) (hx : x.st.level ≤ 1) :
    (loopBody nm .offline s ⟨level, {}⟩ x).out =
      linkChange s level { x with prev := x.st.level } := by
  have hmem : (Kind.offline ∈ tracksMembers) = False := by simp [tracksMembers]
  have hset : (Kind.offline ∈ noSettle) = True := by simp [noSettle]
  have hday : (Kind.offline ∈ daytimeKinds) = False := by simp [daytimeKinds]
  have hrou : (Kind.offline ∈ routineKinds) = False := by simp [routineKinds]
  have hthr : isThrash .offline ⟨level, {}⟩ = false := by simp [isThrash]
  simp only [loopBody, gates_link h, BodyFlow.bind_next, startPrev, reduceCtorEq, false_and, if_false,
    fixedBlock, fixNow_unsilenced h, Bool.false_eq_true, settleBlock, hset, if_true, nightBlock,
    hday, loopTail, membersBlock, hmem, not_false_eq_true, thrashBlock, hthr,
    routineBlock, hrou]
  unfold linkChange sameBlock
  by_cases heq : level = x.st.level
  · simp [heq]
  · -- both levels are 0 or 1, so there is no way back up to a told level
    have hup : ¬ (x.st.level < level ∧ 0 < x.st.level) := by omega
    simp only [heq, if_false, hmem, not_false_eq_true, true_and]
    rw [if_neg (by tauto)]
    simp

/-! ## The whole tick of the link -/

/-- The marks of the guard after the end of its series was looked for. -/
def liftedFlap (f : Flap) (now : Time) : Flap :=
  if linkCalm f now then { f with muted := false, count := 0 } else f

/-- "Stable again". -/
def liftedSaid (f : Flap) (now : Time) : List Notice :=
  if linkCalm f now then [⟨.seriesEnd, 0, ∅⟩] else []

/-- What the guard and the messages of the link depend on, as the body of the
loop finds it. -/
structure LinkStart (i : LinkIn) (st st' : KindSt) : Prop where
  level : st'.level = st.level
  said : st'.offSaid = st.offSaid
  back : st'.offBack = st.offBack
  flap : st'.flap = liftedFlap st.flap i.base.now

theorem bookkeep_link (s : Seen) (level : Nat) {st : KindSt} (hst : st.level ≤ 1) :
    ∃ b, bookkeep .offline s ⟨level, {}⟩ st = { st with begun := b } := by
  have hup : ¬ (0 < level ∧ level < st.level ∧ st.toldLvl = 0 ∧ st.hush = none ∧
      st.quiet = none) := by omega
  simp only [bookkeep, ne_eq, not_true_eq_false, and_false, false_and, if_false, hup]
  split <;> exact ⟨_, rfl⟩

theorem kindTick_link (nm : Norms) {i : LinkIn} {st : KindSt} (h : Unsilenced i.base)
    (hst : st.level ≤ 1) : ∃ st', LinkStart i st st' ∧
      kindTick nm .offline (i.seen st) st =
        match i.cond st.level with
        | none => (st', { recs := liftedSaid st.flap i.base.now })
        | some c =>
          let y := linkChange (i.seen st) c.level
            ⟨st', st.level, { recs := liftedSaid st.flap i.base.now }⟩
          (y.st, y.out) := by
  have hs := h.seen st
  have hlift : liftFlap .offline (i.seen st) st =
      ({ st with flap := liftedFlap st.flap i.base.now }, liftedSaid st.flap i.base.now) := by
    simp only [liftFlap, hs.quietBefore, Bool.false_eq_true, if_false, if_true, liftedFlap,
      liftedSaid]
    change (if linkCalm st.flap i.base.now then _ else _) = _
    split <;> rfl
  have hret : ∀ st₁ : KindSt, retire .offline (i.seen st) st₁ = (st₁, false) := by
    intro st₁
    simp [retire, retires]
  have hcond : condNow .offline (i.seen st) = i.cond st.level := by
    unfold condNow
    rw [fixNow_unsilenced hs]
    rfl
  obtain ⟨b, hcalm⟩ : ∃ b, calmReset (i.seen st) { st with flap := liftedFlap st.flap i.base.now } =
      { st with flap := liftedFlap st.flap i.base.now, calm := b } := by
    unfold calmReset
    split <;> exact ⟨_, rfl⟩
  have hlev : ∀ c, i.cond st.level = some c → c.level ≤ 1 ∧ c = ⟨c.level, {}⟩ := by
    intro c hc
    unfold LinkIn.cond at hc
    split at hc
    · cases hc
    · cases hc
      refine ⟨?_, rfl⟩
      dsimp only
      split
      · exact Nat.zero_le _
      · split
        · exact le_refl _
        · exact hst
  unfold kindTick
  simp only [hs.skip, Bool.false_eq_true, if_false, hlift, hret, hcond, hcalm]
  cases hc : i.cond st.level with
  | none =>
    refine ⟨{ st with flap := liftedFlap st.flap i.base.now, calm := b }, ⟨rfl, rfl, rfl, rfl⟩, ?_⟩
    simp only [hs.quietSrv, Bool.false_eq_true, if_false]
    rw [liftDiskMute, if_neg (by simp)]
  | some c =>
    obtain ⟨hl, hceq⟩ := hlev c hc
    have hlv : ({ st with flap := liftedFlap st.flap i.base.now, calm := b } : KindSt).level ≤ 1 :=
      hst
    obtain ⟨b', hbook⟩ := bookkeep_link (i.seen st) c.level hlv
    rw [← hceq] at hbook
    refine ⟨{ st with flap := liftedFlap st.flap i.base.now, calm := b, begun := b' },
      ⟨rfl, rfl, rfl, rfl⟩, ?_⟩
    simp only [hs.quietSrv, Bool.false_eq_true, if_false, hbook]
    rw [liftDiskMute, if_neg (by simp)]
    dsimp only
    rw [hceq, loopBody_link nm hs hl hst]

end Kervax
