-- Runs of the ticks and of the changes by hand: whom a decision about a mute
-- respects, and what stands behind it.
import Kervax.MuteWatch
import Kervax.Runs
import Mathlib.Tactic.Linarith

namespace Kervax.Mutes

/-! ## The written term -/

theorem setTerm_term (r : Row) (j k : String) (new : Option Time) :
    (r.setTerm j new).term k = if k = j then new else r.term k := by
  unfold Row.setTerm Row.term
  by_cases hj : j = serverKey
  · subst hj
    by_cases hk : k = serverKey <;> simp [hk]
  · rw [if_neg hj]
    cases new with
    | none =>
      dsimp only [dropKey]
      rw [Dict.lookup_filter_keys (fun i => decide (i ≠ j))]
      by_cases hk : k = j
      · subst hk
        simp [hj]
      · simp [hk]
    | some u =>
      dsimp only
      rw [Dict.lookup_put]
      by_cases hk : k = j
      · subst hk
        simp [hj]
      · simp [hk]

theorem snoozePut_term (r : Row) (a : Action) (k : String) :
    (snoozePut r a).term k =
      if k = a.key ∧ r.term k = some a.expect then a.new else r.term k := by
  unfold snoozePut
  by_cases hk : k = a.key
  · subst hk
    by_cases he : r.term a.key = some a.expect
    · simp [he, setTerm_term]
    · simp [he]
  · split
    · simp [hk]
    · simp [setTerm_term, hk]

theorem snoozePut_mutes (r : Row) (a : Action) : (snoozePut r a).mutes = r.mutes := by
  unfold snoozePut Row.setTerm
  repeat' split
  all_goals rfl

theorem foldl_mutes (acts : List Action) (r : Row) :
    (acts.foldl snoozePut r).mutes = r.mutes := by
  induction acts generalizing r with
  | nil => rfl
  | cons a acts ih =>
    rw [List.foldl_cons, ih]
    exact snoozePut_mutes r a

/-- All decisions about a key expect the same term, and none sets it anew. -/
def AgreeOn (acts : List Action) (k : String) (e : Time) : Prop :=
  ∀ a ∈ acts, a.key = k → a.expect = e ∧ a.new ≠ some e

/-- Over another term than the expected one nothing is written. -/
theorem foldl_other {acts : List Action} {k : String} {e : Time} (ha : AgreeOn acts k e) {r : Row}
    (hr : r.term k ≠ some e) : (acts.foldl snoozePut r).term k = r.term k := by
  induction acts generalizing r with
  | nil => rfl
  | cons a acts ih =>
    have hsame : (snoozePut r a).term k = r.term k := by
      rw [snoozePut_term, if_neg]
      rintro ⟨hk, he⟩
      rw [(ha a (by simp) hk.symm).1] at he
      exact hr he
    rw [List.foldl_cons, ih (fun b hb => ha b (List.mem_cons_of_mem a hb)) (by rwa [hsame]), hsame]

/-- Over the expected term the first decision about the key is written. -/
theorem foldl_expected {acts : List Action} {k : String} {e : Time} (ha : AgreeOn acts k e) {r : Row}
    (hr : r.term k = some e) :
    (acts.foldl snoozePut r).term k = some e ∧ (∀ a ∈ acts, a.key ≠ k) ∨
      ∃ a ∈ acts, a.key = k ∧ (acts.foldl snoozePut r).term k = a.new := by
  induction acts generalizing r with
  | nil => exact .inl ⟨hr, by simp⟩
  | cons a acts ih =>
    have hrest : AgreeOn acts k e := fun b hb => ha b (List.mem_cons_of_mem a hb)
    rw [List.foldl_cons]
    have hput := snoozePut_term r a k
    by_cases hk : a.key = k
    · obtain ⟨he, hnew⟩ := ha a (by simp) hk
      rw [if_pos ⟨hk.symm, by rw [hr, he]⟩] at hput
      refine .inr ⟨a, by simp, hk, ?_⟩
      rw [foldl_other hrest (by rw [hput]; exact hnew), hput]
    · rw [if_neg fun h => hk h.1.symm, hr] at hput
      rcases ih hrest hput with ⟨hkeep, hno⟩ | ⟨b, hb, hbk, hbn⟩
      · refine .inl ⟨hkeep, ?_⟩
        intro b hb
        rcases List.mem_cons.mp hb with rfl | hb
        · exact hk
        · exact hno b hb
      · exact .inr ⟨b, List.mem_cons_of_mem a hb, hbk, hbn⟩

/-- Without a decision about a key its term stays. -/
theorem foldl_frame {acts : List Action} {k : String} (ha : ∀ a ∈ acts, a.key ≠ k) (r : Row) :
    (acts.foldl snoozePut r).term k = r.term k := by
  induction acts generalizing r with
  | nil => rfl
  | cons a acts ih =>
    rw [List.foldl_cons, ih (fun b hb => ha b (List.mem_cons_of_mem a hb)), snoozePut_term,
      if_neg fun h => ha a (by simp) h.1.symm]

/-! ## The terms in force -/

theorem nodup_keys (r : Row) (now : Time) : (Dict.keys (keys r now)).Nodup := by
  have hfold (ks : List String) (d : List (String × Option Time)) (hd : (Dict.keys d).Nodup) :
      (Dict.keys (ks.foldl (fun out k => Dict.put out k none) d)).Nodup := by
    induction ks generalizing d with
    | nil => exact hd
    | cons k ks ih => exact ih _ (Dict.nodup_put hd k none)
  unfold keys
  apply hfold
  unfold Dict.keys
  rw [List.map_append, List.nodup_append]
  refine ⟨?_, ?_, ?_⟩
  · cases r.snoozeUntil.filter (now < ·) <;> simp
  · rw [List.map_map]
    exact (List.filter_sublist.map Prod.fst).nodup r.nodup
  · intro a ha b hb hab
    obtain ⟨u, -, rfl⟩ : ∃ u, u ∈ r.snoozeUntil.filter (now < ·) ∧ serverKey = a := by
      simpa using ha
    obtain ⟨⟨k, u'⟩, hmem, rfl⟩ : ∃ p, p ∈ (r.snoozes.filter fun s => watched s.1 ∧ now < s.2) ∧
        p.1 = b := by
      rw [List.map_map] at hb
      exact List.mem_map.mp hb
    have hw := (List.mem_filter.mp hmem).2
    simp only at hab
    simp [← hab, watched, serverKey] at hw

/-- A term in force is the stored one, and not over. -/
theorem keys_stored {r : Row} {now : Time} {k : String} {u : Time}
    (h : (keys r now).lookup k = some (some u)) : r.term k = some u ∧ now < u := by
  have hfold (ks : List String) (d : List (String × Option Time))
      (hf : (ks.foldl (fun out k => Dict.put out k none) d).lookup k = some (some u)) :
      d.lookup k = some (some u) := by
    induction ks generalizing d with
    | nil => exact hf
    | cons j ks ih =>
      have := ih _ hf
      rw [Dict.lookup_put] at this
      split at this
      · cases this
      · exact this
  have hd := Dict.mem_of_lookup (hfold _ _ h)
  rcases List.mem_append.mp hd with hs | ht
  · obtain ⟨v, hv, he⟩ := List.mem_map.mp hs
    obtain ⟨rfl, rfl⟩ : serverKey = k ∧ v = u := by simpa using he
    rw [Option.mem_toList, Option.filter_eq_some_iff] at hv
    exact ⟨by simpa [Row.term] using hv.1, by simpa using hv.2⟩
  · obtain ⟨⟨j, v⟩, hv, he⟩ := List.mem_map.mp ht
    obtain ⟨rfl, rfl⟩ : j = k ∧ v = u := by simpa using he
    obtain ⟨hmem, hcond⟩ := List.mem_filter.mp hv
    simp only [decide_eq_true_eq] at hcond
    have hne : j ≠ serverKey := by
      rintro rfl
      simp [watched, serverKey] at hcond
    unfold Row.term
    rw [if_neg hne]
    exact ⟨Dict.lookup_of_mem r.nodup hmem, hcond.2⟩

/-! ## The decisions of a tick -/

/-- What is worse than a snapshot: for the whole server a kind at a higher level,
for a kind its level or a name that was not there. -/
def Exceeds (k : String) (snap : Snap) (conds : Conds) : Prop :=
  if k = serverKey then ∃ c ∈ conds, (snap.kinds.lookup c.1).getD 0 < c.2.lvl
  else item k = false ∧ ∃ c, conds.lookup (base k) = some c ∧
    (snap.lvl < c.lvl ∨ ∃ sig was, c.sig = some sig ∧ snap.sig = some was ∧ ∃ x ∈ sig, x ∉ was)

theorem worse_iff {k : String} {snap : Snap} {conds : Conds} :
    (worse k snap conds).isSome = true ↔ Exceeds k snap conds := by
  unfold worse Exceeds
  split
  · next hk =>
    dsimp only
    split
    · next hup => simpa using hup
    · next hup =>
      simp only [Option.isSome_some, true_iff]
      obtain ⟨c, hc⟩ := List.exists_mem_of_ne_nil _ hup
      exact ⟨c, (List.mem_filter.mp hc).1, by simpa using (List.mem_filter.mp hc).2⟩
  · next hk =>
    split
    · next hi => simp [hi]
    · next hi =>
      split
      · next hnone => simp [hnone]
      · next c hc =>
        split
        · next hlvl =>
          simp only [Option.isSome_some, true_iff]
          exact ⟨by simpa using hi, c, hc, .inl hlvl⟩
        · next hlvl =>
          split
          · next sig was hsig hwas =>
            dsimp only
            split
            · next hmore =>
              simp only [Option.isSome_none, Bool.false_eq_true, false_iff]
              rintro ⟨-, c', hc', hlt | ⟨sig', was', hs', hw', x, hx, hno⟩⟩
              · obtain rfl := Option.some.inj (hc.symm.trans hc')
                exact hlvl hlt
              · obtain rfl := Option.some.inj (hc.symm.trans hc')
                obtain rfl := Option.some.inj (hsig.symm.trans hs')
                obtain rfl := Option.some.inj (hwas.symm.trans hw')
                have := List.filter_eq_nil_iff.mp hmore x hx
                simp [hno] at this
            · next hmore =>
              simp only [Option.isSome_some, true_iff]
              obtain ⟨x, hx⟩ := List.exists_mem_of_ne_nil _ hmore
              obtain ⟨hx1, hx2⟩ := List.mem_filter.mp hx
              exact ⟨by simpa using hi, c, hc, .inr ⟨sig, was, hsig, hwas, x, hx1, by simpa using hx2⟩⟩
          · next hno =>
            simp only [Option.isSome_none, Bool.false_eq_true, false_iff]
            rintro ⟨-, c', hc', hlt | ⟨sig', was', hs', hw', -⟩⟩
            · obtain rfl := Option.some.inj (hc.symm.trans hc')
              exact hlvl hlt
            · obtain rfl := Option.some.inj (hc.symm.trans hc')
              exact hno sig' was' hs' hw'

/-- What the first loop decides about a hold. -/
theorem planHold_action {v : View} {k : String} {o : Hold} {a : Action}
    (h : (planHold v k o).2 = some a) :
    a.key = k ∧ a.expect = o.ext ∧ v.stored k = some o.ext ∧
      (a.why = .gone ∧ a.new = none ∧ (v.entry k).absentFor v.now gone = true ∨
        (∃ what, a.why = .worse what) ∧ a.new = none ∧ Exceeds k o.snap v.conds ∨
        a.why = .prolong ∧ a.new = some (v.now + holdStep) ∧ o.ext - v.now < holdRenew) := by
  unfold planHold at h
  split at h
  · cases h
  · next hst =>
    have hst : v.stored k = some o.ext := by simpa using hst
    split at h
    · next hg =>
      obtain rfl := Option.some.inj h
      exact ⟨rfl, rfl, hst, .inl ⟨rfl, rfl, hg⟩⟩
    · split at h
      · next what hw =>
        obtain rfl := Option.some.inj h
        exact ⟨rfl, rfl, hst, .inr (.inl ⟨⟨what, rfl⟩, rfl, worse_iff.mp (by simp [hw])⟩)⟩
      · split at h
        · next hr =>
          obtain rfl := Option.some.inj h
          exact ⟨rfl, rfl, hst, .inr (.inr ⟨rfl, rfl, hr⟩)⟩
        · cases h

/-- What is left of a hold by the first loop: the same hold, not worse. -/
theorem planHold_hold {v : View} {k : String} {o o' : Hold} (h : (planHold v k o).1 = some o') :
    v.stored k = some o.ext ∧ ¬ Exceeds k o.snap v.conds ∧ o'.snap = o.snap ∧ o'.at_ = o.at_ ∧
      (o'.ext = o.ext ∧ holdRenew ≤ o.ext - v.now ∨ ∃ a, (planHold v k o).2 = some a) := by
  unfold planHold at h ⊢
  split at h
  · cases h
  · next hst =>
    have hst' : v.stored k = some o.ext := by simpa using hst
    split at h
    · cases h
    · next hg =>
      split at h
      · cases h
      · next hw =>
        have hno : ¬ Exceeds k o.snap v.conds := by
          rw [← worse_iff, hw]
          simp
        refine ⟨hst', hno, ?_⟩
        rw [if_neg hst, if_neg hg]
        split at h
        · next hr =>
          obtain rfl := Option.some.inj h
          exact ⟨rfl, rfl, .inr ⟨_, by rw [if_pos hr]⟩⟩
        · next hr =>
          obtain rfl := Option.some.inj h
          exact ⟨rfl, rfl, .inl ⟨rfl, by linarith⟩⟩

/-- A hold over its own term that is not left is lifted. -/
theorem planHold_ends {v : View} {k : String} {o : Hold} (hst : v.stored k = some o.ext)
    (h : (planHold v k o).1 = none) : ∃ a, (planHold v k o).2 = some a ∧ a.new = none := by
  unfold planHold at h ⊢
  rw [if_neg (by simpa using hst)] at h ⊢
  split at h
  · next hg => exact ⟨_, by rw [if_pos hg], rfl⟩
  · next hg =>
    rw [if_neg hg]
    split at h
    · exact ⟨_, rfl, rfl⟩
    · split at h <;> cases h

/-- A term that ends soon, long and over a problem that is there, gets a hold. -/
theorem planTerm_prolongs {v : View} {k : String} {u : Time} (hon : (v.entry k).on = some true)
    (hlong : (v.entry k).long u = true) (hend : u - v.now ≤ lead) :
    ∃ a, (planTerm v k u).2 = some a := by
  unfold planTerm
  dsimp only
  rw [if_pos hon, if_pos ⟨hlong, hend⟩]
  exact ⟨_, rfl⟩

/-- What the second loop decides about a term. -/
theorem planTerm_action {v : View} {k : String} {u : Time} {a : Action}
    (h : (planTerm v k u).2 = some a) :
    a.key = k ∧ a.expect = u ∧
      (a.why = .prolong ∧ a.new = some (u + holdStep) ∨
        a.why = .quiet ∧ a.new = none ∧ v.lift = true ∧
          (v.entry k).absentFor v.now quietLift = true) := by
  unfold planTerm at h
  dsimp only at h
  split at h
  · split at h
    · obtain rfl := Option.some.inj h
      exact ⟨rfl, rfl, .inl ⟨rfl, rfl⟩⟩
    · cases h
  · split at h
    · next hq =>
      obtain rfl := Option.some.inj h
      exact ⟨rfl, rfl, .inr ⟨rfl, rfl, hq.1, hq.2⟩⟩
    · cases h

/-- A hold begins with what is there. -/
theorem planTerm_hold {v : View} {k : String} {u : Time} {o : Hold}
    (h : (planTerm v k u).1 = some o) : o.snap = snapshot k v.conds ∧ o.at_ = u := by
  unfold planTerm at h
  dsimp only at h
  split at h
  · split at h
    · obtain rfl := Option.some.inj h
      exact ⟨rfl, rfl⟩
    · cases h
  · split at h <;> cases h

theorem mem_openTerms {v : View} {cur : List (String × Option Time)} {muteOver : Over} {k : String}
    {u : Time} : (k, u) ∈ openTerms v cur muteOver ↔
      (k, some u) ∈ cur ∧ (heldOver v muteOver).lookup k = none := by
  unfold openTerms
  rw [Dict.mem_choose]
  constructor
  · rintro ⟨term, hmem, hterm⟩
    split at hterm
    · cases hterm
    · next hno =>
      subst hterm
      exact ⟨hmem, Option.not_isSome_iff_eq_none.mp hno⟩
  · rintro ⟨hmem, hno⟩
    exact ⟨some u, hmem, by simp [hno]⟩

theorem mem_decisions {v : View} {cur : List (String × Option Time)} {muteOver : Over} {a : Action} :
    a ∈ (plan v cur muteOver).2 ↔
      (∃ k o, (k, o) ∈ muteOver ∧ (planHold v k o).2 = some a) ∨
        ∃ k u, (k, some u) ∈ cur ∧ (heldOver v muteOver).lookup k = none ∧
          (planTerm v k u).2 = some a := by
  unfold plan
  rw [List.mem_append, List.mem_filterMap, List.mem_filterMap]
  constructor
  · rintro (⟨⟨k, o⟩, hmem, ha⟩ | ⟨⟨k, u⟩, hmem, ha⟩)
    · exact .inl ⟨k, o, hmem, ha⟩
    · obtain ⟨hcur, hno⟩ := mem_openTerms.mp hmem
      exact .inr ⟨k, u, hcur, hno, ha⟩
  · rintro (⟨k, o, hmem, ha⟩ | ⟨k, u, hcur, hno, ha⟩)
    · exact .inl ⟨(k, o), hmem, ha⟩
    · exact .inr ⟨(k, u), mem_openTerms.mpr ⟨hcur, hno⟩, ha⟩

/-- A decision is about the stored term, and changes it. -/
theorem decision_stored {s : State} {t : Tick} {a : Action} (h : a ∈ (planAt s t).2) :
    s.row.term a.key = some a.expect ∧ a.new ≠ some a.expect := by
  rcases mem_decisions.mp h with ⟨k, o, -, ha⟩ | ⟨k, u, hcur, -, ha⟩
  · obtain ⟨rfl, he, hst, hwhy⟩ := planHold_action ha
    refine ⟨he ▸ hst, ?_⟩
    rcases hwhy with ⟨-, hn, -⟩ | ⟨-, hn, -⟩ | ⟨-, hn, hr⟩
    · simp [hn]
    · simp [hn]
    · rw [hn, he]
      simp only [holdStep, holdRenew, sec] at hr ⊢
      intro heq
      have := Option.some.inj heq
      linarith
  · obtain ⟨rfl, he, hwhy⟩ := planTerm_action ha
    refine ⟨he ▸ (keys_stored (Dict.lookup_of_mem (nodup_keys _ _) hcur)).1, ?_⟩
    rcases hwhy with ⟨-, hn⟩ | ⟨-, hn, -⟩
    · rw [hn, he]
      simp only [holdStep, sec]
      intro heq
      have := Option.some.inj heq
      linarith
    · simp [hn]

theorem agreeOn {s : State} {t : Tick} {k : String} {e : Time} (h : s.row.term k = some e) :
    AgreeOn (planAt s t).2 k e := by
  intro a ha hk
  obtain ⟨hst, hnew⟩ := decision_stored ha
  rw [hk, h] at hst
  obtain rfl := Option.some.inj hst
  exact ⟨rfl, hnew⟩

/-! ## What an entry has seen -/

/-- The problem was there, or not there, when it was last judged; the mute was in
force since. -/
def LastSaid (looks : List Look) (k : String) (b : Bool) : Prop :=
  ∃ new l old w, looks = new ++ l :: old ∧ l.tick.heard k = some (b, w) ∧
    (∀ m ∈ new, m.tick.heard k = none) ∧ ∀ m ∈ new ++ [l], m.term k ≠ none

/-- Since a look at which the problem was judged so, it has not been judged
otherwise, and the mute has been in force. -/
def SaidSince (looks : List Look) (k : String) (b : Bool) (at_ : Time) : Prop :=
  ∃ new l old, looks = new ++ l :: old ∧ l.tick.now = at_ ∧ (∃ w, l.tick.heard k = some (b, w)) ∧
    (∀ m ∈ new, ∀ w, m.tick.heard k ≠ some (!b, w)) ∧ ∀ m ∈ new ++ [l], m.term k ≠ none

/-- The looks came in the order of time. -/
def InOrder (looks : List Look) : Prop := looks.Pairwise fun a b => b.tick.now ≤ a.tick.now

/-- The latest looks, at all of which this term was in force. -/
def Streak (looks streak : List Look) (k : String) (term : Option Time) : Prop :=
  (∃ old, looks = streak ++ old) ∧ ∀ l ∈ streak, l.term k = some term

/-- What an entry tells of the looks so far. -/
structure Entry.Right (e : Entry) (looks : List Look) (k : String) : Prop where
  term : ∀ l ∈ looks.head?, l.term k = some e.u
  said : ∀ b, LastSaid looks k b → e.on = some b
  since : ∀ b, e.on = some b → ∃ x, e.t = some x ∧ SaidSince looks k b x
  seen : InOrder looks → ∀ streak l, Streak looks (streak ++ [l]) k e.u → ∀ x, e.seen = some x →
    x ≤ l.tick.now

/-- The stored entries are those of the mutes that were in force at the last look,
and right. -/
structure LiveRight (live : Option Live) (looks : List Look) : Prop where
  found : ∀ k, ((live.getD []).lookup k).isSome ↔ ∃ l ∈ looks.head?, l.term k ≠ none
  right : ∀ k e, (live.getD []).lookup k = some e → e.Right looks k

/-- What one tick makes of the entry of a key. -/
theorem lookup_liveStep (prev : Option Live) (cur : List (String × Option Time))
    (heard : String → Option (Bool × String)) (now : Time) (k : String) :
    (liveStep prev cur heard now).lookup k = (cur.lookup k).map fun term =>
      (Entry.termed ((prev.getD []).lookup k) prev.isNone term now).judged (heard k) now :=
  Dict.lookup_values (fun k term =>
    (Entry.termed ((prev.getD []).lookup k) prev.isNone term now).judged (heard k) now) cur k

theorem judged_term (e : Entry) (j : Option (Bool × String)) (now : Time) :
    (e.judged j now).u = e.u ∧ (e.judged j now).seen = e.seen := by
  unfold Entry.judged
  split
  · exact ⟨rfl, rfl⟩
  · dsimp only
    split <;> exact ⟨rfl, rfl⟩

theorem termed_term (old : Option Entry) (first : Bool) (term : Option Time) (now : Time) :
    (Entry.termed old first term now).u = term := by
  unfold Entry.termed
  split
  · rfl
  · split
    · rfl
    · next h => simpa using h

/-- A mark is as old as the judgement or older. -/
theorem judged_on (e : Entry) (b : Bool) (w : String) (now : Time) :
    (e.judged (some (b, w)) now).on = some b ∧
      ((e.judged (some (b, w)) now).t = some now ∨
        e.on = some b ∧ (e.judged (some (b, w)) now).t = e.t) := by
  unfold Entry.judged
  dsimp only
  split
  · exact ⟨rfl, .inl rfl⟩
  · next h =>
    simp only [not_or, not_not] at h
    exact ⟨h.1, .inr ⟨h.1, rfl⟩⟩

theorem lastSaid_cons {l : Look} {looks : List Look} {k : String} {b : Bool}
    (h : LastSaid (l :: looks) k b) :
    l.term k ≠ none ∧ ((∃ w, l.tick.heard k = some (b, w)) ∨
      l.tick.heard k = none ∧ LastSaid looks k b) := by
  obtain ⟨new, m, old, w, hlooks, hsaid, hnone, hterm⟩ := h
  cases new with
  | nil =>
    obtain ⟨rfl, rfl⟩ : l = m ∧ looks = old := by simpa using hlooks
    exact ⟨hterm l (by simp), .inl ⟨w, hsaid⟩⟩
  | cons l' new =>
    obtain ⟨rfl, rfl⟩ : l = l' ∧ looks = new ++ m :: old := by simpa using hlooks
    refine ⟨hterm l (by simp), .inr ⟨hnone l (by simp), new, m, old, w, rfl, hsaid, ?_, ?_⟩⟩
    · intro m' hm'
      exact hnone m' (by simp [hm'])
    · intro m' hm'
      exact hterm m' (by
        simp only [List.mem_append, List.mem_cons] at hm' ⊢
        tauto)

/-- A judgement that stands goes on over a look that does not contradict it. -/
theorem SaidSince.cons {l : Look} {looks : List Look} {k : String} {b : Bool} {x : Time}
    (h : SaidSince looks k b x) (hheard : ∀ w, l.tick.heard k ≠ some (!b, w))
    (hterm : l.term k ≠ none) : SaidSince (l :: looks) k b x := by
  obtain ⟨new, m, old, rfl, hnow, hsaid, hno, hforce⟩ := h
  refine ⟨l :: new, m, old, rfl, hnow, hsaid, ?_, ?_⟩
  · intro m' hm' w
    rcases List.mem_cons.mp hm' with rfl | hm'
    · exact hheard w
    · exact hno m' hm' w
  · intro m' hm'
    rcases List.mem_cons.mp hm' with rfl | hm'
    · exact hterm
    · exact hforce m' hm'

/-- A term that is seen again or anew keeps what is known of the problem. -/
theorem termed_on (e : Entry) (first : Bool) (term : Option Time) (now : Time) :
    (Entry.termed (some e) first term now).on = e.on ∧
      (Entry.termed (some e) first term now).t = e.t := by
  unfold Entry.termed
  dsimp only
  split <;> exact ⟨rfl, rfl⟩

/-- A new term is seen now, and the same term was seen before. -/
theorem termed_seen {old : Option Entry} {first : Bool} {term : Option Time} {now x : Time}
    (h : (Entry.termed old first term now).seen = some x) :
    (x = now ∧ ∀ e, old = some e → e.u ≠ term) ∨ ∃ e, old = some e ∧ e.u = term ∧ e.seen = some x := by
  have hnew (hs : (if first then none else some now) = some x) : x = now := by
    split at hs
    · cases hs
    · exact (Option.some.inj hs).symm
  unfold Entry.termed at h
  split at h
  · exact .inl ⟨hnew h, by simp⟩
  · next e =>
    split at h
    · next hu =>
      refine .inl ⟨hnew h, ?_⟩
      intro e' he'
      rwa [← Option.some.inj he']
    · next hu => exact .inr ⟨e, rfl, by simpa using hu, h⟩

theorem LiveRight.entry {live : Option Live} {looks : List Look} (h : LiveRight live looks)
    {k : String} {l : Look} (hl : looks.head? = some l) (hterm : l.term k ≠ none) :
    ∃ e, (live.getD []).lookup k = some e ∧ e.Right looks k := by
  obtain ⟨e, he⟩ := Option.isSome_iff_exists.mp ((h.found k).mpr ⟨l, hl, hterm⟩)
  exact ⟨e, he, h.right k e he⟩

/-- The entry after a tick of a mute that is in force then. -/
def entryAfter (live : Option Live) (t : Tick) (k : String) (term : Option Time) : Entry :=
  (Entry.termed ((live.getD []).lookup k) live.isNone term t.now).judged (t.heard k) t.now

section RightStep

variable {live : Option Live} {looks : List Look} {t : Tick} {row : Row} {k : String}
  {term : Option Time} {b : Bool}

theorem entryAfter_u : (entryAfter live t k term).u = term := by
  unfold entryAfter
  rw [(judged_term _ _ _).1, termed_term]

theorem said_step (hl : LiveRight live looks) (hlast : LastSaid (⟨t, row⟩ :: looks) k b) :
    (entryAfter live t k term).on = some b := by
  unfold entryAfter
  obtain ⟨-, ⟨w, hsaid⟩ | ⟨hnone, hbefore⟩⟩ := lastSaid_cons hlast
  · have hsaid : t.heard k = some (b, w) := hsaid
    rw [hsaid]
    exact (judged_on _ b w t.now).1
  · have hnone : t.heard k = none := hnone
    have hhead : ∃ l, looks.head? = some l ∧ l.term k ≠ none := by
      cases looks with
      | nil =>
        obtain ⟨new, l, old, w, he, -⟩ := hbefore
        simp at he
      | cons l looks => exact ⟨l, rfl, (lastSaid_cons hbefore).1⟩
    obtain ⟨l, hlook, hl'⟩ := hhead
    obtain ⟨e, he, hright⟩ := hl.entry hlook hl'
    rw [hnone, he]
    exact (termed_on e _ term t.now).1.trans (hright.said b hbefore)

/-- A mark that was there, and that this tick does not contradict. -/
theorem since_termed {x : Option Time} (hl : LiveRight live looks)
    (hforce : (Look.mk t row).term k ≠ none)
    (hx : (Entry.termed ((live.getD []).lookup k) live.isNone term t.now).t = x)
    (hb : (Entry.termed ((live.getD []).lookup k) live.isNone term t.now).on = some b)
    (hheard : ∀ w, t.heard k ≠ some (!b, w)) :
    ∃ y, x = some y ∧ SaidSince (⟨t, row⟩ :: looks) k b y := by
  cases he : (live.getD []).lookup k with
  | none =>
    rw [he] at hb
    cases hb
  | some e =>
    rw [he] at hx hb
    obtain ⟨hon', ht'⟩ := termed_on e live.isNone term t.now
    obtain ⟨y, hy, hsince⟩ := (hl.right k e he).since b (hon'.symm.trans hb)
    exact ⟨y, hx.symm.trans (ht'.trans hy), hsince.cons hheard hforce⟩

/-- The mark is set by this tick, or was there and is not contradicted. -/
theorem since_step (hl : LiveRight live looks) (hforce : (Look.mk t row).term k ≠ none)
    (hon : (entryAfter live t k term).on = some b) :
    ∃ x, (entryAfter live t k term).t = some x ∧ SaidSince (⟨t, row⟩ :: looks) k b x := by
  unfold entryAfter at hon ⊢
  cases hj : t.heard k with
  | none =>
    rw [hj] at hon
    exact since_termed hl hforce rfl hon (by simp [hj])
  | some j =>
    obtain ⟨b', w⟩ := j
    rw [hj] at hon
    obtain ⟨hon', hmark⟩ := judged_on
      (Entry.termed ((live.getD []).lookup k) live.isNone term t.now) b' w t.now
    obtain rfl : b' = b := Option.some.inj (hon'.symm.trans hon)
    rcases hmark with hnow | ⟨hb, hsame⟩
    · exact ⟨t.now, hnow, [], ⟨t, row⟩, looks, rfl, rfl, ⟨w, hj⟩, by simp, by simpa using hforce⟩
    · obtain ⟨y, hy, hsince⟩ := since_termed hl hforce rfl hb (by simp [hj])
      exact ⟨y, hsame.trans hy, hsince⟩

/-- A term that no entry had is new at this tick: no streak of it is longer. -/
theorem now_le_of_new {streak : List Look} {l : Look} (hl : LiveRight live looks)
    (hstreak : Streak (⟨t, row⟩ :: looks) (streak ++ [l]) k term)
    (hnew : ∀ e, (live.getD []).lookup k = some e → e.u ≠ term) : t.now ≤ l.tick.now := by
  obtain ⟨⟨old, hsplit⟩, hall⟩ := hstreak
  cases streak with
  | nil =>
    obtain ⟨rfl, -⟩ : Look.mk t row = l ∧ looks = old := by simpa using hsplit
    exact le_refl _
  | cons m streak =>
    obtain ⟨rfl, hlooks⟩ : Look.mk t row = m ∧ looks = streak ++ [l] ++ old := by
      simpa using hsplit
    obtain ⟨first, hfirst, hmem⟩ : ∃ first, looks.head? = some first ∧
        first ∈ streak ++ [l] := by
      rw [hlooks]
      cases streak with
      | nil => exact ⟨l, rfl, by simp⟩
      | cons m streak => exact ⟨m, rfl, by simp⟩
    have hterm' := hall first (List.mem_cons_of_mem _ hmem)
    obtain ⟨e, he, hright⟩ := hl.entry (k := k) hfirst (by simp [hterm'])
    have hu := hright.term first hfirst
    rw [hterm'] at hu
    exact absurd (Option.some.inj hu).symm (hnew e he)

/-- A streak of a term that an entry has goes on with this tick. -/
theorem seen_le_of_old {streak : List Look} {l : Look} {e : Entry} {x : Time}
    (hl : LiveRight live looks) (horder : InOrder (⟨t, row⟩ :: looks))
    (hstreak : Streak (⟨t, row⟩ :: looks) (streak ++ [l]) k term)
    (he : (live.getD []).lookup k = some e) (hu : e.u = term) (hseen : e.seen = some x) :
    x ≤ l.tick.now := by
  obtain ⟨⟨old, hsplit⟩, hall⟩ := hstreak
  obtain ⟨hlater, horder'⟩ := List.pairwise_cons.mp horder
  have hright := hl.right k e he
  obtain ⟨first, hfirst, -⟩ := (hl.found k).mp (by rw [he]; rfl)
  have hfirstTerm := hright.term first hfirst
  cases streak with
  | nil =>
    obtain ⟨rfl, -⟩ : Look.mk t row = l ∧ looks = old := by simpa using hsplit
    have hfirstMem := List.mem_of_head? hfirst
    have hle := hright.seen horder' [] first
      ⟨by
        obtain ⟨rest, hrest⟩ := List.head?_eq_some_iff.mp hfirst
        exact ⟨rest, by simpa using hrest⟩, by simpa using hfirstTerm⟩ x hseen
    exact le_trans hle (hlater first hfirstMem)
  | cons m streak =>
    obtain ⟨rfl, hlooks⟩ : Look.mk t row = m ∧ looks = streak ++ [l] ++ old := by
      simpa using hsplit
    refine hright.seen horder' streak l ⟨⟨old, hlooks⟩, ?_⟩ x hseen
    intro m hm
    rw [hall m (by simp only [List.cons_append]; exact List.mem_cons_of_mem _ hm), hu]

theorem right_step (hl : LiveRight live looks) (hterm : (Look.mk t row).term k = some term) :
    (entryAfter live t k term).Right (⟨t, row⟩ :: looks) k := by
  have hforce : (Look.mk t row).term k ≠ none := by simp [hterm]
  refine ⟨?_, fun b hlast => said_step hl hlast, fun b hon => since_step hl hforce hon, ?_⟩
  · intro l hlook
    obtain rfl : Look.mk t row = l := by simpa using hlook
    rw [hterm, entryAfter_u]
  · intro horder streak l hstreak x hx
    rw [entryAfter_u] at hstreak
    unfold entryAfter at hx
    rw [(judged_term _ _ _).2] at hx
    rcases termed_seen hx with ⟨rfl, hnew⟩ | ⟨e, he, hu, hseen⟩
    · exact now_le_of_new hl hstreak hnew
    · exact seen_le_of_old hl horder hstreak he hu hseen

end RightStep

/-! ## Runs -/

structure Inv (s : State) : Prop where
  live : LiveRight s.live s.looks
  muteOver : (Dict.keys s.muteOver).Nodup

theorem lookup_liveAt (s : State) (t : Tick) (k : String) :
    (liveAt s t).lookup k = ((Look.mk t s.row).term k).map fun term =>
      (Entry.termed ((s.live.getD []).lookup k) s.live.isNone term t.now).judged (t.heard k) t.now :=
  lookup_liveStep s.live (keys s.row t.now) t.heard t.now k

theorem liveRight_step {s : State} (h : LiveRight s.live s.looks) (t : Tick) :
    LiveRight (some (liveAt s t)) (⟨t, s.row⟩ :: s.looks) := by
  refine ⟨?_, ?_⟩
  · intro k
    rw [Option.getD_some, lookup_liveAt]
    cases hterm : (Look.mk t s.row).term k with
    | none => simp [hterm]
    | some term => simp [hterm]
  · intro k e he
    rw [Option.getD_some, lookup_liveAt] at he
    obtain ⟨term, hterm, rfl⟩ := Option.map_eq_some_iff.mp he
    exact right_step h hterm

theorem nodup_heldOver {v : View} {muteOver : Over} (h : (Dict.keys muteOver).Nodup) :
    (Dict.keys (heldOver v muteOver)).Nodup :=
  (Dict.keys_choose_sublist _ _).nodup h

theorem nodup_openTerms (v : View) (r : Row) (now : Time) (muteOver : Over) :
    (Dict.keys (openTerms v (keys r now) muteOver)).Nodup :=
  (Dict.keys_choose_sublist _ _).nodup (nodup_keys r now)

/-- The holds after a tick: those that go on, and those that begin. -/
theorem lookup_plan {s : State} (h : (Dict.keys s.muteOver).Nodup) (t : Tick) (k : String) :
    (planAt s t).1.lookup k =
      (((s.muteOver.lookup k).bind fun o => (planHold (viewAt s t) k o).1).or
        (((openTerms (viewAt s t) (keys s.row t.now) s.muteOver).lookup k).bind fun u =>
          (planTerm (viewAt s t) k u).1)) := by
  unfold planAt plan heldOver
  dsimp only
  rw [List.lookup_append, Dict.lookup_choose h, Dict.lookup_choose (nodup_openTerms _ _ _ _)]

theorem nodup_plan {s : State} (h : (Dict.keys s.muteOver).Nodup) (t : Tick) :
    (Dict.keys (planAt s t).1).Nodup := by
  unfold planAt plan Dict.keys
  dsimp only
  rw [List.map_append, List.nodup_append]
  refine ⟨nodup_heldOver h, (Dict.keys_choose_sublist _ _).nodup (nodup_openTerms _ _ _ _), ?_⟩
  intro a ha b hb hab
  obtain ⟨⟨k, o⟩, ho, rfl⟩ := List.mem_map.mp ha
  obtain ⟨⟨k', o'⟩, ho', rfl⟩ := List.mem_map.mp hb
  obtain ⟨u, hu, -⟩ := Dict.mem_choose.mp ho'
  have hno := (mem_openTerms.mp hu).2
  rw [← show k = k' from hab, Dict.lookup_of_mem (nodup_heldOver h) ho] at hno
  cases hno

theorem inv_next {s : State} (h : Inv s) (i : Input) : Inv (next s i) := by
  cases i with
  | edit row => exact ⟨h.live, h.muteOver⟩
  | tick t found => exact ⟨liveRight_step h.live t, nodup_plan h.muteOver t⟩

/-- The state after the inputs, of a server with these mutes. -/
def after (row : Row) (inputs : List Input) : State := Runs.run next { row := row } inputs

theorem inv_after (row : Row) (inputs : List Input) : Inv (after row inputs) := by
  have h0 : Inv { row := row } := by
    refine ⟨⟨?_, ?_⟩, List.nodup_nil⟩
    · intro k
      simp
    · intro k e he
      cases he
  unfold after
  induction inputs using List.reverseRecOn with
  | nil => exact h0
  | append_singleton inputs i ih =>
    rw [Runs.run_snoc]
    exact inv_next ih i

/-! ## What a decision rests on -/

/-- The problem was judged absent so long ago or before that, and no look since,
the present one included, has judged it present; the mute was in force since. -/
def Absent (looks : List Look) (k : String) (now span : Time) : Prop :=
  ∃ x, span ≤ now - x ∧ SaidSince looks k false x

theorem absent_of_entry {s : State} (h : Inv s) {t : Tick} {k : String} {span : Time}
    (ha : ((viewAt s t).entry k).absentFor t.now span = true) :
    Absent (⟨t, s.row⟩ :: s.looks) k t.now span := by
  unfold View.entry at ha
  cases he : (liveAt s t).lookup k with
  | none =>
    have he : (viewAt s t).live.lookup k = none := he
    rw [he] at ha
    simp [Entry.absentFor] at ha
  | some e =>
    have he' : (viewAt s t).live.lookup k = some e := he
    rw [he'] at ha
    simp only [Option.getD_some, Entry.absentFor, decide_eq_true_eq] at ha
    obtain ⟨x, hx, hsince⟩ := ((liveRight_step h.live t).right k e he).since false ha.1
    rw [hx] at ha
    exact ⟨x, by simpa using ha.2, hsince⟩

/-- The holds and decisions of a tick, and what is written over the row that the
commit has found. -/
structure Respects (s : State) (t : Tick) (found : Row) (s' : State) : Prop where
  /-- A permanent mute is not changed. -/
  permanent : s'.row.mutes = found.mutes
  /-- A term is changed only by a decision about the term that stands. -/
  decided : ∀ k, s'.row.term k ≠ found.term k → ∃ a ∈ (planAt s t).2, a.key = k ∧
    s.row.term k = some a.expect ∧ found.term k = some a.expect ∧ s'.row.term k = a.new
  /-- A mute is lifted as quiet only while the node talks, after a day without the problem. -/
  quiet : ∀ a ∈ (planAt s t).2, a.why = .quiet →
    t.talking = true ∧ Absent s'.looks a.key t.now quietLift
  /-- And a held one as gone after ten minutes without it. -/
  gone : ∀ a ∈ (planAt s t).2, a.why = .gone → t.talking = true →
    Absent s'.looks a.key t.now gone
  /-- What has got worse than in its snapshot is not held any more. -/
  worse : ∀ k o, s.muteOver.lookup k = some o → Exceeds k o.snap t.conds →
    (∀ o', s'.muteOver.lookup k = some o' → o'.snap = snapshot k t.conds) ∧
    (s.row.term k = some o.ext → ∃ a ∈ (planAt s t).2, a.key = k ∧ a.expect = o.ext ∧ a.new = none)
  /-- A hold goes on with its snapshot, or begins with what is there. -/
  snapped : ∀ k o', s'.muteOver.lookup k = some o' →
    (∃ o, s.muteOver.lookup k = some o ∧ o'.snap = o.snap ∧ o'.at_ = o.at_ ∧
      ¬ Exceeds k o.snap t.conds) ∨
    o'.snap = snapshot k t.conds ∧ (keys s.row t.now).lookup k = some (some o'.at_)
  /-- A term that was long when it was first seen, over a problem that is there, does not
  run out before the next tick. -/
  prolonged : found.term = s.row.term → InOrder s'.looks → ∀ k u streak l,
    Streak s'.looks (streak ++ [l]) k (some u) → l.tick.now ≤ u - holdMin →
    LastSaid s'.looks k true → ∀ u', s'.row.term k = some u' → t.now + lead < u'
  /-- Nor does the term of a hold. -/
  heldOn : found.term = s.row.term → ∀ k o, s.muteOver.lookup k = some o →
    s.row.term k = some o.ext → ∀ u', s'.row.term k = some u' → t.now + lead < u'

theorem decided_tick {s : State} {t : Tick} {found : Row} {k : String}
    (h : ((planAt s t).2.foldl snoozePut found).term k ≠ found.term k) :
    ∃ a ∈ (planAt s t).2, a.key = k ∧ s.row.term k = some a.expect ∧
      found.term k = some a.expect ∧ ((planAt s t).2.foldl snoozePut found).term k = a.new := by
  cases hst : s.row.term k with
  | none =>
    refine absurd (foldl_frame ?_ found) h
    rintro a ha rfl
    rw [(decision_stored ha).1] at hst
    cases hst
  | some e =>
    by_cases hf : found.term k = some e
    · rcases foldl_expected (agreeOn hst) hf with ⟨hkeep, -⟩ | ⟨a, ha, hk, hn⟩
      · exact absurd (hkeep.trans hf.symm) h
      · have he := (agreeOn hst a ha hk).1
        exact ⟨a, ha, hk, by rw [he], by rw [hf, he], hn⟩
    · exact absurd (foldl_other (agreeOn hst) hf) h

/-- A decision that prolongs goes well past the next tick. -/
theorem decision_far {s : State} {t : Tick} {a : Action} (ha : a ∈ (planAt s t).2) {u : Time}
    (hn : a.new = some u) : t.now + lead < u := by
  rcases mem_decisions.mp ha with ⟨k, o, -, hd⟩ | ⟨k, u', hcur, -, hd⟩
  · obtain ⟨-, -, -, ⟨-, hnew, -⟩ | ⟨-, hnew, -⟩ | ⟨-, hnew, -⟩⟩ := planHold_action hd
    · cases hn.symm.trans hnew
    · cases hn.symm.trans hnew
    · obtain rfl := Option.some.inj (hn.symm.trans hnew)
      simp only [lead, holdStep, sec, viewAt]
      linarith
  · have hlater := (keys_stored (Dict.lookup_of_mem (nodup_keys _ _) hcur)).2
    obtain ⟨-, -, ⟨-, hnew⟩ | ⟨-, hnew, -⟩⟩ := planTerm_action hd
    · obtain rfl := Option.some.inj (hn.symm.trans hnew)
      simp only [lead, holdStep, sec]
      linarith
    · cases hn.symm.trans hnew

/-- A long term over a problem that is there is decided about before it ends. -/
theorem decision_in_time {s : State} (hi : Inv s) {t : Tick} {k : String} {u : Time}
    (hforce : (keys s.row t.now).lookup k = some (some u))
    (hon : ((viewAt s t).entry k).on = some true) (hlong : ((viewAt s t).entry k).long u = true)
    (hend : u ≤ t.now + lead) : ∃ a ∈ (planAt s t).2, a.key = k := by
  have hst := (keys_stored hforce).1
  have hopen (hno : (heldOver (viewAt s t) s.muteOver).lookup k = none) :
      ∃ a ∈ (planAt s t).2, a.key = k := by
    have hsoon : u - (viewAt s t).now ≤ lead := by
      simp only [viewAt]
      linarith
    obtain ⟨a, ha⟩ := planTerm_prolongs hon hlong hsoon
    exact ⟨a, mem_decisions.mpr (.inr ⟨k, u, Dict.mem_of_lookup hforce, hno, ha⟩),
      (planTerm_action ha).1⟩
  have hheld : (heldOver (viewAt s t) s.muteOver).lookup k =
      (s.muteOver.lookup k).bind fun o => (planHold (viewAt s t) k o).1 :=
    Dict.lookup_choose hi.muteOver _ k
  cases ho : s.muteOver.lookup k with
  | none => exact hopen (by rw [hheld, ho]; rfl)
  | some o =>
    have hacts {a : Action} (ha : (planHold (viewAt s t) k o).2 = some a) :
        ∃ a ∈ (planAt s t).2, a.key = k :=
      ⟨a, mem_decisions.mpr (.inl ⟨k, o, Dict.mem_of_lookup ho, ha⟩), (planHold_action ha).1⟩
    cases hp : (planHold (viewAt s t) k o).1 with
    | none => exact hopen (by rw [hheld, ho]; exact hp)
    | some o' =>
      obtain ⟨hsto, -, -, -, ⟨-, hfar⟩ | ⟨a, ha⟩⟩ := planHold_hold hp
      · obtain rfl := Option.some.inj (hst.symm.trans hsto)
        simp only [holdRenew, lead, sec, viewAt] at hfar hend
        linarith
      · exact hacts ha

theorem quiet_tick {s : State} (hi : Inv s) {t : Tick} {a : Action} (ha : a ∈ (planAt s t).2)
    (hwhy : a.why = .quiet) :
    t.talking = true ∧ Absent (Look.mk t s.row :: s.looks) a.key t.now quietLift := by
  rcases mem_decisions.mp ha with ⟨k, o, -, hd⟩ | ⟨k, u, -, -, hd⟩
  · obtain ⟨-, -, -, ⟨hw, -⟩ | ⟨⟨what, hw⟩, -⟩ | ⟨hw, -⟩⟩ := planHold_action hd <;>
      cases hwhy.symm.trans hw
  · obtain ⟨rfl, -, ⟨hw, -⟩ | ⟨-, -, hlift, habs⟩⟩ := planTerm_action hd
    · cases hwhy.symm.trans hw
    · exact ⟨hlift, absent_of_entry hi habs⟩

theorem gone_tick {s : State} (hi : Inv s) {t : Tick} {a : Action} (ha : a ∈ (planAt s t).2)
    (hwhy : a.why = .gone) : Absent (Look.mk t s.row :: s.looks) a.key t.now gone := by
  rcases mem_decisions.mp ha with ⟨k, o, -, hd⟩ | ⟨k, u, -, -, hd⟩
  · obtain ⟨rfl, -, -, ⟨-, -, habs⟩ | ⟨⟨what, hw⟩, -⟩ | ⟨hw, -⟩⟩ := planHold_action hd
    · exact absent_of_entry hi habs
    · cases hwhy.symm.trans hw
    · cases hwhy.symm.trans hw
  · obtain ⟨-, -, ⟨hw, -⟩ | ⟨hw, -⟩⟩ := planTerm_action hd <;> cases hwhy.symm.trans hw

/-- A hold over what has got worse ends: at most a new one begins, with a new snapshot. -/
theorem worse_tick {s : State} (hi : Inv s) {t : Tick} {k : String} {o : Hold}
    (ho : s.muteOver.lookup k = some o) (hex : Exceeds k o.snap t.conds) :
    (∀ o', (planAt s t).1.lookup k = some o' → o'.snap = snapshot k t.conds) ∧
      (s.row.term k = some o.ext →
        ∃ a ∈ (planAt s t).2, a.key = k ∧ a.expect = o.ext ∧ a.new = none) := by
  have hnone : (planHold (viewAt s t) k o).1 = none := by
    cases hp : (planHold (viewAt s t) k o).1 with
    | none => rfl
    | some o' => exact absurd hex (planHold_hold hp).2.1
  constructor
  · intro o' ho'
    rw [lookup_plan hi.muteOver, ho, Option.bind_some, hnone, Option.none_or] at ho'
    obtain ⟨u, -, hu⟩ := Option.bind_eq_some_iff.mp ho'
    exact (planTerm_hold hu).1
  · intro hst
    obtain ⟨a, ha, hnew⟩ := planHold_ends (v := viewAt s t) hst hnone
    obtain ⟨hk, he, -⟩ := planHold_action ha
    exact ⟨a, mem_decisions.mpr (.inl ⟨k, o, Dict.mem_of_lookup ho, ha⟩), hk, he, hnew⟩

theorem snapped_tick {s : State} (hi : Inv s) {t : Tick} {k : String} {o' : Hold}
    (ho' : (planAt s t).1.lookup k = some o') :
    (∃ o, s.muteOver.lookup k = some o ∧ o'.snap = o.snap ∧ o'.at_ = o.at_ ∧
      ¬ Exceeds k o.snap t.conds) ∨
    o'.snap = snapshot k t.conds ∧ (keys s.row t.now).lookup k = some (some o'.at_) := by
  rw [lookup_plan hi.muteOver, Option.or_eq_some_iff] at ho'
  rcases ho' with hheld | ⟨-, hopen⟩
  · obtain ⟨o, ho, hp⟩ := Option.bind_eq_some_iff.mp hheld
    obtain ⟨-, hno, hsnap, hat, -⟩ := planHold_hold hp
    exact .inl ⟨o, ho, hsnap, hat, hno⟩
  · obtain ⟨u, hu, hp⟩ := Option.bind_eq_some_iff.mp hopen
    obtain ⟨hsnap, hat⟩ := planTerm_hold hp
    obtain ⟨hcur, -⟩ := mem_openTerms.mp (Dict.mem_of_lookup hu)
    rw [hat]
    exact .inr ⟨hsnap, Dict.lookup_of_mem (nodup_keys _ _) hcur⟩

/-- A streak at the end of the looks begins at the look of this tick. -/
theorem term_of_streak {looks : List Look} {x l : Look} {streak : List Look} {k : String}
    {v : Option Time} (h : Streak (x :: looks) (streak ++ [l]) k v) : x.term k = some v := by
  obtain ⟨⟨old, hold⟩, hall⟩ := h
  refine hall _ ?_
  cases streak with
  | nil =>
    obtain ⟨rfl, -⟩ : x = l ∧ looks = old := by simpa using hold
    simp
  | cons m streak =>
    obtain ⟨rfl, -⟩ : x = m ∧ looks = streak ++ [l] ++ old := by simpa using hold
    simp

/-- The entry of a term that was long when it was first seen, over a problem that is there. -/
theorem entry_of_streak {s : State} (hi : Inv s) {t : Tick} {k : String} {u : Time}
    {streak : List Look} {l : Look} (horder : InOrder (Look.mk t s.row :: s.looks))
    (hstreak : Streak (Look.mk t s.row :: s.looks) (streak ++ [l]) k (some u))
    (hl : l.tick.now ≤ u - holdMin) (hlast : LastSaid (Look.mk t s.row :: s.looks) k true) :
    ((viewAt s t).entry k).on = some true ∧ ((viewAt s t).entry k).long u = true := by
  have hhead := term_of_streak hstreak
  obtain ⟨e, he, hright⟩ := (liveRight_step hi.live t).entry (k := k) rfl (by simp [hhead])
  have hentry : (viewAt s t).entry k = e := by
    have he : (viewAt s t).live.lookup k = some e := he
    unfold View.entry
    rw [he]
    rfl
  have hterm : e.u = some u := by
    have := hright.term _ rfl
    rw [hhead] at this
    exact (Option.some.inj this).symm
  rw [hentry]
  refine ⟨hright.said true hlast, ?_⟩
  unfold Entry.long
  cases hs : e.seen with
  | none => rfl
  | some x =>
    have hx := hright.seen horder streak l (by rw [hterm]; exact hstreak) x hs
    simp only [Option.all_some, decide_eq_true_eq]
    linarith

/-- Unless a decision was taken about it, a stored term stays; and one that was taken goes well
past the next tick. -/
theorem term_far {s : State} {t : Tick} {found : Row} {k : String} {u u' : Time}
    (hst : s.row.term k = some u) (hwas : found.term k = some u)
    (hu' : ((planAt s t).2.foldl snoozePut found).term k = some u')
    (hkept : (∀ a ∈ (planAt s t).2, a.key ≠ k) → t.now + lead < u) : t.now + lead < u' := by
  rcases foldl_expected (agreeOn hst) hwas with ⟨hkeep, hno⟩ | ⟨a, ha, -, hn⟩
  · obtain rfl := Option.some.inj (hkeep.symm.trans hu')
    exact hkept hno
  · exact decision_far ha (hn.symm.trans hu')

theorem prolonged_tick {s : State} (hi : Inv s) {t : Tick} {found : Row} {k : String} {u u' : Time}
    {streak : List Look} {l : Look} (hfound : found.term = s.row.term)
    (horder : InOrder (Look.mk t s.row :: s.looks))
    (hstreak : Streak (Look.mk t s.row :: s.looks) (streak ++ [l]) k (some u))
    (hl : l.tick.now ≤ u - holdMin) (hlast : LastSaid (Look.mk t s.row :: s.looks) k true)
    (hu' : ((planAt s t).2.foldl snoozePut found).term k = some u') : t.now + lead < u' := by
  have hhead := term_of_streak hstreak
  have hst : s.row.term k = some u := (keys_stored hhead).1
  obtain ⟨hon, hlong⟩ := entry_of_streak hi horder hstreak hl hlast
  refine term_far hst (by rw [hfound, hst]) hu' fun hno => ?_
  by_contra hend
  obtain ⟨a, ha, hk⟩ := decision_in_time hi (t := t) hhead hon hlong (not_lt.mp hend)
  exact hno a ha hk

theorem heldOn_tick {s : State} {t : Tick} {found : Row} {k : String} {o : Hold} {u' : Time}
    (hfound : found.term = s.row.term) (ho : s.muteOver.lookup k = some o)
    (hst : s.row.term k = some o.ext)
    (hu' : ((planAt s t).2.foldl snoozePut found).term k = some u') : t.now + lead < u' := by
  refine term_far hst (by rw [hfound, hst]) hu' fun hno => ?_
  have hnone {a : Action} (ha : (planHold (viewAt s t) k o).2 = some a) : False :=
    hno a (mem_decisions.mpr (.inl ⟨k, o, Dict.mem_of_lookup ho, ha⟩)) (planHold_action ha).1
  cases hp : (planHold (viewAt s t) k o).1 with
  | none =>
    obtain ⟨a, ha, -⟩ := planHold_ends (v := viewAt s t) hst hp
    exact (hnone ha).elim
  | some o' =>
    obtain ⟨-, -, -, -, ⟨-, hfar⟩ | ⟨a, ha⟩⟩ := planHold_hold hp
    · simp only [holdRenew, lead, sec, viewAt] at hfar ⊢
      linarith
    · exact (hnone ha).elim

theorem respects_tick {s : State} (hi : Inv s) (t : Tick) (found : Option Row) :
    Respects s t (found.getD s.row) (next s (.tick t found)) where
  permanent := foldl_mutes _ _
  decided _ hk := decided_tick hk
  quiet _ ha hwhy := quiet_tick hi ha hwhy
  gone _ ha hwhy _ := gone_tick hi ha hwhy
  worse _ _ ho hex := worse_tick hi ho hex
  snapped _ _ ho' := snapped_tick hi ho'
  prolonged hfound horder _ _ _ _ hstreak hl hlast _ hu' :=
    prolonged_tick hi hfound horder hstreak hl hlast hu'
  heldOn hfound _ _ ho hst _ hu' := heldOn_tick hfound ho hst hu'

/-- In every run, whatever is judged, whenever the node is silent and whatever is
changed by hand between the ticks or in the middle of one. -/
theorem mutes_respect_people_and_evidence (row : Row) (inputs : List Input) (t : Tick)
    (found : Option Row) :
    Respects (after row inputs) t (found.getD (after row inputs).row)
      (next (after row inputs) (.tick t found)) :=
  respects_tick (inv_after row inputs) t found

/-! ## A day of silence -/

/-- A snooze of the disk for five days; the disk is judged well, and then the node
is silent. -/
def diskSnooze : Row := { snoozes := [("disk", sec (5 * 86400))] }

def wellTick (now : Time) (talking : Bool) : Tick :=
  { now := now, talking := talking, judged := fun _ => some (false, "") }

/-- After a day of which nothing is known the snooze is lifted as quiet. -/
theorem silence_counts_as_quiet :
    ¬ ∀ (row : Row) (inputs : List Input) (t : Tick),
      ∀ a ∈ (planAt (after row inputs) t).2, a.why = .quiet →
        ∀ l ∈ (after row inputs).looks, t.now - quietLift ≤ l.tick.now → l.tick.talking = true := by
  intro h
  have := h diskSnooze [.tick (wellTick 0 true) none, .tick (wellTick (sec 43200) false) none]
    (wellTick (sec 86400) true) ⟨"disk", sec (5 * 86400), none, .quiet⟩ (by decide +kernel) rfl
    ⟨wellTick (sec 43200) false, diskSnooze⟩ (List.mem_cons_self) (by decide)
  exact absurd this (by decide)

end Kervax.Mutes
