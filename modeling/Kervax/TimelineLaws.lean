-- What one report does for one container and for one port: the confirmed snapshot is a flag
-- that changes when two reports in a row say so, and a port that changes often falls silent.
import Kervax.Debounce
import Kervax.Timeline

namespace Kervax.Timeline

open Debounce (Watch)

/-! ## Dictionaries -/

section

variable {ν : Type} {b prev cur : Book ν} {k : String}

@[simp] theorem mem_filter_keys (f : String → Bool) :
    k ∈ (b.filter fun k _ => f k).keys ↔ k ∈ b.keys ∧ f k = true := by
  constructor
  · intro h
    obtain ⟨p, hp, rfl⟩ := List.mem_map.mp h
    obtain ⟨hin, hf⟩ := List.mem_filter.mp hp
    exact ⟨List.mem_map_of_mem hin, hf⟩
  · rintro ⟨h, hf⟩
    obtain ⟨p, hp, rfl⟩ := List.mem_map.mp h
    exact List.mem_map_of_mem (List.mem_filter.mpr ⟨hp, hf⟩)

@[simp] theorem values_keys (f : String → ν → ν) : (b.values f).keys = b.keys := by
  simp [Book.keys, Book.values, Dict.keys, Function.comp_def]

theorem get_filter (f : String → ν → Bool) (k : String) :
    (b.filter f).get k = (b.get k).filter (f k) := by
  have hsame : (b.filter f).entries = Dict.choose (fun k v => if f k v then some v else none)
      b.entries := by
    change b.entries.filter (fun p => f p.1 p.2) = _
    unfold Dict.choose
    induction b.entries with
    | nil => rfl
    | cons p d ih => by_cases hp : f p.1 p.2 = true <;> simp [hp, ih]
  unfold Book.get
  rw [hsame, Dict.lookup_choose b.nodup]
  cases b.entries.lookup k with
  | none => rfl
  | some v => by_cases hv : f k v = true <;> simp [Option.filter, hv]

theorem get_put (k : String) (v : ν) (j : String) :
    (b.put k v).get j = if j = k then some v else b.get j := Dict.lookup_put _ _ _ _

theorem get_values (f : String → ν → ν) (k : String) :
    (b.values f).get k = (b.get k).map (f k) := Dict.lookup_values f b.entries k

theorem mem_fresh : k ∈ (fresh prev cur).keys ↔ k ∈ cur.keys ∧ k ∉ prev.keys := by
  simp [fresh]

theorem mem_lost : k ∈ (lost prev cur).keys ↔ k ∈ prev.keys ∧ k ∉ cur.keys := by
  simp [lost]

theorem mem_joined (stay come : String → Bool) : k ∈ (joined prev cur stay come).keys ↔
    (k ∈ prev.keys ∧ stay k = true) ∨ (k ∈ cur.keys ∧ k ∉ prev.keys) ∧ come k = true := by
  have hkeys : (joined prev cur stay come).keys =
      (prev.filter fun k _ => stay k).keys ++ ((fresh prev cur).filter fun k _ => come k).keys := by
    simp [Book.keys, joined, Dict.keys]
  rw [hkeys, List.mem_append, mem_filter_keys, mem_filter_keys, mem_fresh]

theorem lookup_known (d : List (String × Int)) (ks : List String) (k : String) :
    (known d ks).lookup k = if k ∈ ks then d.lookup k else none := by
  induction ks with
  | nil => rfl
  | cons j ks ih =>
    unfold known at ih ⊢
    rw [List.filterMap_cons]
    by_cases hk : k = j
    · subst hk
      cases hd : d.lookup k with
      | none => simp [hd, ih]
      | some t => simp
    · have hne : (k == j) = false := beq_false_of_ne hk
      cases hd : d.lookup j with
      | none => simp [ih, hk]
      | some t => simp [List.lookup_cons, hne, ih, hk]

theorem lookup_unknown (d : List (String × Int)) (ks : List String) (ts : Int) (k : String) :
    (unknown d ks ts).lookup k = if k ∈ ks ∧ d.lookup k = none then some ts else none := by
  induction ks with
  | nil => rfl
  | cons j ks ih =>
    unfold unknown at ih ⊢
    by_cases hk : k = j
    · subst hk
      cases hd : d.lookup k with
      | none => simp [hd]
      | some t => simpa [hd] using ih
    · have hne : (k == j) = false := beq_false_of_ne hk
      have hin : (k ∈ j :: ks ∧ d.lookup k = none) = (k ∈ ks ∧ d.lookup k = none) := by simp [hk]
      simp only [hin, ← ih]
      cases hd : d.lookup j with
      | none => simp [hd, List.lookup_cons, hne]
      | some t => simp [hd]

theorem keys_known_sub (d : List (String × Int)) (ks : List String) :
    (Dict.keys (known d ks)).Sublist ks := by
  induction ks with
  | nil => exact List.Sublist.refl _
  | cons j ks ih =>
    unfold known at ih ⊢
    rw [List.filterMap_cons]
    cases d.lookup j with
    | none => exact List.Sublist.cons _ ih
    | some t => exact List.Sublist.cons_cons _ ih

end

/-! ## Confirmed by a second snapshot -/

/-- A key between two reports: whether it counts as there, and since when it is seen otherwise. -/
def seen {ν : Type} (prev : Book ν) (pend : Cand) (k : String) : Watch Int :=
  ⟨decide (k ∈ prev.keys), if k ∈ prev.keys then pend.minus.lookup k else pend.plus.lookup k⟩

section

variable {ν : Type} (prev cur : Book ν) (pend : Cand) (ts : Int) (k : String)

theorem mem_confirm : k ∈ (confirm prev cur pend ts).out.keys ↔
    ((seen prev pend k).look (ts, decide (k ∈ cur.keys))).on = true := by
  unfold confirm seen Watch.look
  rw [mem_joined]
  by_cases hp : k ∈ prev.keys <;> by_cases hc : k ∈ cur.keys
  · simp [hp, hc]
  · cases pend.minus.lookup k <;> simp [hp, hc]
  · cases pend.plus.lookup k <;> simp [hp, hc]
  · simp [hp, hc]

theorem confirm_plus : (confirm prev cur pend ts).cand.plus.lookup k =
    if (k ∈ cur.keys ∧ k ∉ prev.keys) ∧ pend.plus.lookup k = none then some ts else none := by
  simp only [← @mem_fresh _ prev cur]
  exact lookup_unknown _ _ ts k

theorem confirm_minus : (confirm prev cur pend ts).cand.minus.lookup k =
    if (k ∈ prev.keys ∧ k ∉ cur.keys) ∧ pend.minus.lookup k = none then some ts else none := by
  simp only [← @mem_lost _ prev cur]
  exact lookup_unknown _ _ ts k

/-- The step lemma of a key. -/
theorem seen_confirm :
    seen (confirm prev cur pend ts).out (confirm prev cur pend ts).cand k =
      (seen prev pend k).look (ts, decide (k ∈ cur.keys)) := by
  have hon := mem_confirm prev cur pend ts k
  have houter : ∀ (out : Book ν) (cand : Cand), seen out cand k =
      ⟨decide (k ∈ out.keys), if k ∈ out.keys then cand.minus.lookup k else cand.plus.lookup k⟩ :=
    fun _ _ => rfl
  rw [houter, confirm_plus, confirm_minus]
  generalize (confirm prev cur pend ts).out.keys = ks at hon
  unfold seen Watch.look at hon ⊢
  by_cases hp : k ∈ prev.keys <;> by_cases hc : k ∈ cur.keys
  · simp [hp, hc] at hon ⊢
    exact hon
  · cases hm : pend.minus.lookup k <;> simp [hp, hc, hm] at hon ⊢ <;> exact hon
  · cases hm : pend.plus.lookup k <;> simp [hp, hc, hm] at hon ⊢ <;> exact hon
  · simp [hp, hc] at hon ⊢
    exact hon

theorem lookup_added : (confirm prev cur pend ts).added.lookup k =
    if k ∈ cur.keys then ((seen prev pend k).tell (ts, true)).map Prod.fst else none := by
  unfold confirm seen Watch.tell
  simp only [lookup_known, mem_fresh]
  by_cases hp : k ∈ prev.keys <;> by_cases hc : k ∈ cur.keys <;> simp [hp, hc, Function.comp_def]

theorem lookup_gone : (confirm prev cur pend ts).gone.lookup k =
    if k ∈ cur.keys then none else ((seen prev pend k).tell (ts, false)).map Prod.fst := by
  unfold confirm seen Watch.tell
  simp only [lookup_known, mem_lost]
  by_cases hp : k ∈ prev.keys <;> by_cases hc : k ∈ cur.keys <;> simp [hp, hc, Function.comp_def]

theorem nodup_added : (Dict.keys (confirm prev cur pend ts).added).Nodup :=
  (keys_known_sub _ _).nodup (fresh prev cur).nodup

theorem nodup_gone : (Dict.keys (confirm prev cur pend ts).gone).Nodup :=
  (keys_known_sub _ _).nodup (lost prev cur).nodup

end

theorem seen_keys {ν : Type} {b b' : Book ν} (h : b'.keys = b.keys) (cand : Cand) (k : String) :
    seen b' cand k = seen b cand k := by
  unfold seen
  rw [h]

/-! ## Events of some kinds -/

def Only (ks : List Kind) (evs : List Ev) : Prop := ∀ e ∈ evs, e.kind ∈ ks

theorem Only.nil (ks : List Kind) : Only ks [] := by
  intro e he
  cases he

theorem Only.one {ks : List Kind} {e : Ev} (h : e.kind ∈ ks) : Only ks [e] := by
  intro x hx
  rwa [List.mem_singleton.mp hx]

theorem Only.append {ks : List Kind} {a b : List Ev} (ha : Only ks a) (hb : Only ks b) :
    Only ks (a ++ b) := by
  intro e he
  exact (List.mem_append.mp he).elim (ha e) (hb e)

theorem Only.mono {ks js : List Kind} {a : List Ev} (h : Only ks a) (hsub : ks ⊆ js) : Only js a :=
  fun e he => hsub (h e he)

/-- Events of which a look at others sees nothing. -/
theorem Only.filterMap {β : Type} {ks : List Kind} {a : List Ev} (h : Only ks a)
    {f : Ev → Option β} (hf : ∀ e, e.kind ∈ ks → f e = none) : a.filterMap f = [] := by
  apply List.filterMap_eq_nil_iff.mpr
  intro e he
  exact hf e (h e he)

def contKinds : List Kind := [.image, .crash, .restart, .stop, .start]
def portKinds : List Kind := [.opened, .closed, .flap]
def sysKinds : List Kind :=
  [.reboot, .kernel, .os, .docker, .agent, .kernelNew, .packages, .rebootReq]

theorem only_changeEvs (ts : Int) (name : String) (o n : Cont) :
    Only contKinds (changeEvs ts name o n) := by
  unfold changeEvs
  split
  · exact .one (by simp [ev, contKinds])
  split
  · exact .one (by simp [ev, contKinds])
  split
  · exact .one (by simp [ev, contKinds])
  · exact .nil _

theorem only_contStep (ts : Int) (name : String) (o n : Cont) (since : Option Int) :
    Only contKinds (contStep ts name o n since).evs := by
  have hevs := only_changeEvs ts name o n
  unfold contStep
  dsimp only
  split
  · split
    · exact hevs
    · split
      · exact hevs
      · exact hevs.append (.one (by simp [ev, contKinds]))
  split
  · exact hevs.append (.one (by simp [ev, contKinds]))
  · exact hevs

theorem only_contSteps (prev cur : Book Cont) (stopping : List (String × Int)) (ts : Int) :
    Only contKinds ((contSteps prev cur stopping ts).flatMap fun p => p.2.evs) := by
  intro e he
  obtain ⟨p, hp, hep⟩ := List.mem_flatMap.mp he
  obtain ⟨q, -, hq⟩ := List.mem_filterMap.mp hp
  obtain ⟨n, -, rfl⟩ := Option.map_eq_some_iff.mp hq
  exact only_contStep ts q.1 q.2 n _ e hep

theorem only_rebootEvs (prev cur : Snap) : Only [.reboot] (rebootEvs prev cur) := by
  unfold rebootEvs
  split
  · split
    · exact .one (by simp [sysEv, ev])
    · exact .nil _
  · exact .nil _

def versionKinds : List Kind := [.kernel, .os, .docker, .agent]

theorem only_versionEv {ts : Int} {kind : Kind} (hk : kind ∈ versionKinds) (label a b : String) :
    Only versionKinds (versionEv ts kind label a b) := by
  unfold versionEv
  split
  · exact .one hk
  · exact .nil _

theorem only_versionEvs (prev cur : Snap) : Only versionKinds (versionEvs prev cur) :=
  (((only_versionEv (by decide) _ _ _).append (only_versionEv (by decide) _ _ _)).append
    (only_versionEv (by decide) _ _ _)).append (only_versionEv (by decide) _ _ _)

theorem only_packagesEvs (prev cur : Snap) : Only [.packages] (packagesEvs prev cur) := by
  unfold packagesEvs
  split
  · split
    · exact .one (by simp [sysEv, ev])
    · exact .nil _
  · exact .nil _

def saidKinds : List Kind := [.kernelNew, .packages, .rebootReq]

@[simp] theorem kernelNewEv_kind (cur : Snap) : (kernelNewEv cur).kind = .kernelNew := rfl

@[simp] theorem kernelNewEv_text (cur : Snap) : (kernelNewEv cur).text = kernelText cur.kn := rfl

@[simp] theorem rebootReqEv_kind (cur : Snap) : (rebootReqEv cur).kind = .rebootReq := rfl

theorem only_saidEvs (prev cur : Snap) (said : Said) : Only saidKinds (saidEvs prev cur said) := by
  unfold saidEvs
  refine (Only.append ?_ ((only_packagesEvs prev cur).mono (by decide))).append ?_
  · split
    · exact .one (by simp [saidKinds])
    · exact .nil _
  · split
    · exact .one (by simp [saidKinds])
    · exact .nil _

/-- What a report says of the system. -/
theorem only_system (prev cur : Snap) (said : Said) :
    Only sysKinds (rebootEvs prev cur ++ versionEvs prev cur ++ saidEvs prev cur said) :=
  (((only_rebootEvs prev cur).mono (by decide)).append
    ((only_versionEvs prev cur).mono (by decide))).append
      ((only_saidEvs prev cur said).mono (by decide))

theorem only_portStep (src : Book String) (opened : Bool) (acc : Book (List Int) × List Ev)
    (change : String × Int) (h : Only portKinds acc.2) :
    Only portKinds (portStep src opened acc change).2 := by
  unfold portStep
  dsimp only
  refine h.append ?_
  split
  · exact .one (by simp [ev, portKinds])
  split
  · refine .one ?_
    cases opened <;> simp [portEv, ev, portKinds]
  · exact .nil _

theorem only_portSteps (src : Book String) (opened : Bool) (l : List (String × Int))
    (acc : Book (List Int) × List Ev) (h : Only portKinds acc.2) :
    Only portKinds (l.foldl (portStep src opened) acc).2 := by
  induction l generalizing acc with
  | nil => exact h
  | cons a l ih => exact ih _ (only_portStep src opened acc a h)

theorem only_diffPorts (prev cur : Book String) (pend : Pend) (ts : Int) :
    Only portKinds (diffPorts prev cur pend ts).1 :=
  only_portSteps _ _ _ _ (only_portSteps _ _ _ _ (.nil _))

/-! ## Containers that come and go -/

/-- The event that a container has come or gone. -/
def contChange (name : String) (e : Ev) : Option (Int × Bool) :=
  if e.obj = name then
    match e.kind with
    | .new => some (e.ts, true)
    | .gone => some (e.ts, false)
    | _ => none
  else none

theorem contChange_none {name : String} {e : Ev} (h : e.kind ∈ contKinds ++ portKinds ++ sysKinds) :
    contChange name e = none := by
  unfold contChange
  split
  · cases hk : e.kind <;> simp [hk, contKinds, portKinds, sysKinds] at h ⊢
  · rfl

/-- What is picked of one key from a list that has no key twice. -/
theorem pick_lookup {β : Type} {l : List (String × Int)} (h : (Dict.keys l).Nodup) (k : String)
    (f : String × Int → Option β) (g : Int → β) (hk : ∀ t, f (k, t) = some (g t))
    (hne : ∀ p : String × Int, p.1 ≠ k → f p = none) :
    l.filterMap f = ((l.lookup k).map g).toList := by
  induction l with
  | nil => rfl
  | cons p l ih =>
    obtain ⟨hp, hl⟩ := List.nodup_cons.mp h
    by_cases hpk : p.1 = k
    · subst hpk
      have hnone : l.lookup p.1 = none := Dict.lookup_eq_none.mpr hp
      have hf : f p = some (g p.2) := hk p.2
      rw [List.filterMap_cons, hf, ih hl, hnone, List.lookup_cons, beq_self_eq_true]
      rfl
    · have hb : (k == p.1) = false := beq_false_of_ne (Ne.symm hpk)
      rw [List.filterMap_cons, hne p hpk, ih hl, List.lookup_cons, hb]

theorem diffConts_changes (prev cur : Book Cont) (pend : Pend) (ts : Int) (name : String) :
    (diffConts prev cur pend ts).1.filterMap (contChange name) =
      ((seen prev pend.c name).tell (ts, decide (name ∈ cur.keys))).toList := by
  unfold diffConts
  dsimp only
  rw [List.filterMap_append, List.filterMap_append, List.filterMap_map, List.filterMap_map,
    (only_contSteps prev cur pend.cstop ts).filterMap fun e he => contChange_none (by simp [he]),
    List.append_nil,
    pick_lookup (nodup_added prev cur pend.c ts) name _ (fun t => (t, true))
      (by simp [contChange, ev]) (by simp +contextual [contChange, ev]),
    pick_lookup (nodup_gone prev cur pend.c ts) name _ (fun t => (t, false))
      (by simp [contChange, ev]) (by simp +contextual [contChange, ev]),
    lookup_added, lookup_gone]
  by_cases hc : name ∈ cur.keys
  · simp only [hc, if_true, decide_true, Option.map_none, Option.toList_none, List.append_nil,
      Watch.tell_pair]
  · simp only [hc, if_false, decide_false, Option.map_none, Option.toList_none, List.nil_append,
      Watch.tell_pair]

theorem diffConts_seen (prev cur : Book Cont) (pend : Pend) (ts : Int) (name : String) :
    seen (diffConts prev cur pend ts).2.1 (diffConts prev cur pend ts).2.2.c name =
      (seen prev pend.c name).look (ts, decide (name ∈ cur.keys)) := by
  rw [← seen_confirm]
  exact seen_keys (values_keys _) _ name

/-! ## Ports that open and close -/

/-- What is said of a port, without the text. -/
def portSaid (key : String) (e : Ev) : Option (Int × Kind) :=
  if e.obj = key ∧ e.kind ∈ portKinds then some (e.ts, e.kind) else none

/-- What is said of a change after those that are remembered. -/
def say (hist : List Int) (x : Int × Bool) : Option (Int × Kind) :=
  if hist.length + 1 = FLAP_MAX then some (x.1, .flap)
  else if hist.length + 1 < FLAP_MAX then some (x.1, if x.2 then .opened else .closed)
  else none

/-- The changes of a port that are remembered. -/
def times (pend : Pend) (key : String) : List Int := (pend.pflap.get key).getD []

theorem portSaid_none {key : String} {e : Ev} (h : e.kind ∉ portKinds) : portSaid key e = none := by
  simp [portSaid, h]

/-- One change of some port. -/
theorem portStep_at (src : Book String) (opened : Bool) (acc : Book (List Int) × List Ev)
    (change : String × Int) (key : String) :
    ((portStep src opened acc change).1.get key).getD [] =
        (acc.1.get key).getD [] ++ (if key = change.1 then [change.2] else []) ∧
      (portStep src opened acc change).2.filterMap (portSaid key) =
        acc.2.filterMap (portSaid key) ++
          if key = change.1 then (say ((acc.1.get key).getD []) (change.2, opened)).toList else [] := by
  unfold portStep
  dsimp only
  rw [get_put, List.filterMap_append]
  by_cases hk : key = change.1
  · subst hk
    rw [List.length_append, List.length_singleton]
    refine ⟨by simp, ?_⟩
    unfold say
    congr 1
    split
    · simp [portSaid, ev, portKinds]
    split
    · cases opened <;> simp [portSaid, portEv, ev, portKinds]
    · simp
  · refine ⟨by simp [hk], ?_⟩
    have hother : ∀ e : Ev, e.obj = change.1 → portSaid key e = none := by
      intro e he
      simp [portSaid, he, Ne.symm hk]
    congr 1
    rw [if_neg hk]
    split
    · simp [hother, ev]
    split
    · simp [hother, portEv, ev]
    · simp

theorem portSteps_at (src : Book String) (opened : Bool) {l : List (String × Int)}
    (hl : (Dict.keys l).Nodup) (acc : Book (List Int) × List Ev) (key : String) :
    ((l.foldl (portStep src opened) acc).1.get key).getD [] =
        (acc.1.get key).getD [] ++ (l.lookup key).toList ∧
      (l.foldl (portStep src opened) acc).2.filterMap (portSaid key) =
        acc.2.filterMap (portSaid key) ++ ((l.lookup key).bind fun t =>
          say ((acc.1.get key).getD []) (t, opened)).toList := by
  induction l generalizing acc with
  | nil => simp
  | cons change l ih =>
    obtain ⟨hout, hrest⟩ := List.nodup_cons.mp hl
    obtain ⟨htimes, hsaid⟩ := ih hrest (portStep src opened acc change)
    obtain ⟨hstep, hstepSaid⟩ := portStep_at src opened acc change key
    rw [List.foldl_cons, htimes, hsaid, hstep, hstepSaid]
    by_cases hk : key = change.1
    · subst hk
      have hnone : l.lookup change.1 = none := Dict.lookup_eq_none.mpr hout
      have hself : (change :: l).lookup change.1 = some change.2 := by
        rw [List.lookup_cons, beq_self_eq_true]
      simp [hnone, hself]
    · have hother : (change :: l).lookup key = l.lookup key := by
        rw [List.lookup_cons, beq_false_of_ne hk]
      simp [hk, hother]

/-- The step lemma of a port. -/
theorem diffPorts_at (prev cur : Book String) (pend : Pend) (ts : Int) (key : String) :
    seen (diffPorts prev cur pend ts).2.1 (diffPorts prev cur pend ts).2.2.2.p key =
        (seen (prev.filter service) pend.p key).look
          (ts, decide (key ∈ (cur.filter service).keys)) ∧
      times (diffPorts prev cur pend ts).2.2.2 key =
        (times pend key).filter (fun t => ts - FLAP_WINDOW ≤ t) ++
          ((seen (prev.filter service) pend.p key).tell
            (ts, decide (key ∈ (cur.filter service).keys))).toList.map Prod.fst ∧
      (diffPorts prev cur pend ts).1.filterMap (portSaid key) =
        (((seen (prev.filter service) pend.p key).tell
          (ts, decide (key ∈ (cur.filter service).keys))).bind
            (say ((times pend key).filter fun t => ts - FLAP_WINDOW ≤ t))).toList := by
  have hold : ((pend.pflap.values fun _ v => v.filter fun t => ts - FLAP_WINDOW ≤ t).get key).getD []
      = (times pend key).filter fun t => ts - FLAP_WINDOW ≤ t := by
    rw [get_values]
    unfold times
    cases pend.pflap.get key <;> simp
  have hkept : ∀ b : Book (List Int), ((b.filter fun _ v => v ≠ []).get key).getD [] =
      (b.get key).getD [] := by
    intro b
    rw [get_filter]
    cases b.get key with
    | none => rfl
    | some v => by_cases hv : v = [] <;> simp [Option.filter, hv]
  generalize hpp : prev.filter service = pp
  generalize hcp : cur.filter service = cp
  obtain ⟨haddTimes, haddSaid⟩ := portSteps_at cp true (nodup_added pp cp pend.p ts)
    ((pend.pflap.values fun _ v => v.filter fun t => ts - FLAP_WINDOW ≤ t), []) key
  obtain ⟨hgoneTimes, hgoneSaid⟩ := portSteps_at pp false (nodup_gone pp cp pend.p ts)
    ((confirm pp cp pend.p ts).added.foldl (portStep cp true)
      ((pend.pflap.values fun _ v => v.filter fun t => ts - FLAP_WINDOW ≤ t), [])) key
  rw [haddTimes, hold] at hgoneTimes hgoneSaid
  rw [hold] at haddSaid
  rw [haddSaid] at hgoneSaid
  rw [lookup_added, lookup_gone] at hgoneTimes hgoneSaid
  have hsay : ∀ (o : Option (Int × Bool)) (b : Bool) (hist : List Int),
      ((o.map Prod.fst).bind fun t => say hist (t, b)) = ((o.map Prod.fst).map fun t => (t, b)).bind
        (say hist) := by
    intro o b hist
    cases o <;> rfl
  refine ⟨?_, ?_, ?_⟩
  · unfold diffPorts
    dsimp only
    rw [hpp, hcp]
    exact seen_confirm pp cp pend.p ts key
  · unfold diffPorts times
    dsimp only
    rw [hpp, hcp, hkept, hgoneTimes]
    by_cases hc : key ∈ cp.keys
    · simp only [hc, if_true, decide_true, Option.toList_none, List.append_nil]
      unfold times
      cases (seen pp pend.p key).tell (ts, true) <;> rfl
    · simp only [hc, if_false, decide_false, Option.toList_none, List.append_nil]
      unfold times
      cases (seen pp pend.p key).tell (ts, false) <;> rfl
  · unfold diffPorts
    dsimp only
    rw [hpp, hcp, hgoneSaid]
    by_cases hc : key ∈ cp.keys
    · simp only [hc, if_true, decide_true, hsay, Watch.tell_pair]
      simp
    · simp only [hc, if_false, decide_false, hsay, Watch.tell_pair]
      simp

end Kervax.Timeline
