-- A set that is looked at again and again, and whose new members are announced: what is
-- noted of it, what a look says, and what holds over every run of looks. Nothing here is
-- about a program.
import Kervax.Runs

namespace Notices

variable {α : Type} [DecidableEq α]

/-! ## Looks -/

/-- A look at the set: its members, whether new ones may be announced, and whether what
this look says arrives. -/
structure Look (α : Type) where
  names : List α
  on : Bool
  sent : Bool

/-- What a look says: nothing, that there are new members, or that none is left. -/
inductive Word (α : Type)
  | silent
  | fresh (names : List α)
  | empty
deriving DecidableEq

/-- How a set that lost members is noted without a word: when, and what is noted. -/
structure Narrowing (α : Type) where
  due : List α → List α → Bool
  kept : List α → List α → List α
  mem_of_kept : ∀ {p s n}, n ∈ kept p s → n ∈ s
  kept_of_mem : ∀ {p s n}, n ∈ p → n ∈ s → n ∈ kept p s
  due_of_gone : ∀ {p s n}, n ∈ p → n ∉ s → due p s = true
  noted_of_due : ∀ {p s}, due p s = true → p ≠ []

/-- Nothing is noted that was not noted before. -/
def Narrowing.Strict (w : Narrowing α) : Prop := ∀ {p s n}, n ∈ w.kept p s → n ∈ p

/-- Some of a set that is not empty is noted. -/
def Narrowing.Full (w : Narrowing α) : Prop := ∀ {p s}, s ≠ [] → w.kept p s ≠ []

def new (noted names : List α) : List α := names.filter (· ∉ noted)

theorem mem_new {noted names : List α} {n : α} : n ∈ new noted names ↔ n ∈ names ∧ n ∉ noted := by
  simp [new]

def word (noted : List α) (x : Look α) : Word α :=
  if new noted x.names ≠ [] ∧ x.on then .fresh (new noted x.names)
  else if x.names = [] ∧ noted ≠ [] then .empty
  else .silent

/-- What is noted after a look: a word is noted when it arrives, a narrower set at once. -/
def next (w : Narrowing α) (noted : List α) (x : Look α) : List α :=
  match word noted x with
  | .fresh _ => if x.sent then x.names else noted
  | .empty => if x.sent then [] else noted
  | .silent => if x.names ≠ [] ∧ w.due noted x.names then w.kept noted x.names else noted

variable {w : Narrowing α} {p : List α} {x : Look α} {n : α} {ns : List α}

/-! ## One look -/

/-- The look announces the name, and the announcement arrives. -/
def Told (n : α) (said : Word α) (x : Look α) : Prop :=
  x.sent = true ∧ ∃ ns, said = .fresh ns ∧ n ∈ ns

/-- The name is not in the set, and nothing that the look says of the set is lost. -/
def Dropped (n : α) (said : Word α) (x : Look α) : Prop :=
  n ∉ x.names ∧ (said = .silent ∨ x.sent = true)

/-- The look says that none is left, and that arrives. -/
def Closed (said : Word α) (x : Look α) : Prop := said = .empty ∧ x.sent = true

theorem word_fresh (h : word p x = .fresh ns) : x.on = true ∧ ns ≠ [] ∧ ns = new p x.names := by
  unfold word at h
  split at h
  next hc =>
    cases h
    exact ⟨hc.2, hc.1, rfl⟩
  next =>
    split at h <;> cases h

theorem word_empty : word p x = .empty ↔ x.names = [] ∧ p ≠ [] := by
  unfold word
  split
  next hc =>
    refine ⟨nofun, fun h => absurd ?_ hc.1⟩
    simp [new, h.1]
  next =>
    split
    next he => simp [he]
    next he => exact ⟨nofun, fun h => absurd h he⟩

theorem word_of_new (hon : x.on = true) (hn : n ∈ x.names) (hp : n ∉ p) :
    word p x = .fresh (new p x.names) := by
  have hne : new p x.names ≠ [] := List.ne_nil_of_mem (mem_new.mpr ⟨hn, hp⟩)
  unfold word
  exact if_pos ⟨hne, hon⟩

theorem noted_of_silent (h : word p x = .silent) (hon : x.on = true) (hn : n ∈ x.names) :
    n ∈ p := by
  by_contra hp
  rw [word_of_new hon hn hp] at h
  cases h

theorem next_of_told (h : Told n (word p x) x) : n ∈ next w p x := by
  obtain ⟨hsent, ns, hw, hn⟩ := h
  obtain ⟨-, -, rfl⟩ := word_fresh hw
  unfold next
  rw [hw]
  simpa [hsent] using (mem_new.mp hn).1

theorem not_noted_of_told (h : Told n (word p x) x) : n ∉ p := by
  obtain ⟨-, ns, hw, hn⟩ := h
  obtain ⟨-, -, rfl⟩ := word_fresh hw
  exact (mem_new.mp hn).2

theorem next_of_dropped (h : Dropped n (word p x) x) : n ∉ next w p x := by
  obtain ⟨hn, hsaid⟩ := h
  unfold next
  cases hw : word p x with
  | fresh ns =>
    have hsent : x.sent = true := hsaid.resolve_left (by rw [hw]; exact nofun)
    simpa [hsent] using hn
  | empty =>
    have hsent : x.sent = true := hsaid.resolve_left (by rw [hw]; exact nofun)
    simp [hsent]
  | silent =>
    dsimp only
    split
    next => exact fun hk => hn (w.mem_of_kept hk)
    next hc =>
      intro hp
      have hdue : w.due p x.names = true := w.due_of_gone hp hn
      have hempty : x.names = [] := by
        by_contra hne
        exact hc ⟨hne, hdue⟩
      have hempty' : word p x = .empty := word_empty.mpr ⟨hempty, List.ne_nil_of_mem hp⟩
      rw [hw] at hempty'
      cases hempty'

theorem next_of_not_dropped (hp : n ∈ p) (h : ¬ Dropped n (word p x) x) : n ∈ next w p x := by
  unfold next
  by_cases hn : n ∈ x.names
  · cases hw : word p x with
    | fresh ns => dsimp only; split <;> assumption
    | empty => simp [(word_empty.mp hw).1] at hn
    | silent =>
      dsimp only
      split
      next => exact w.kept_of_mem hp hn
      next => exact hp
  · have hsaid : word p x ≠ .silent ∧ x.sent ≠ true :=
      not_or.mp fun hor => h ⟨hn, hor⟩
    cases hw : word p x with
    | fresh ns => simpa [hsaid.2] using hp
    | empty => simpa [hsaid.2] using hp
    | silent => exact absurd hw hsaid.1

/-- A name comes to be noted by a message about it, or while no message may be sent. -/
theorem told_of_next (hp : n ∉ p) (hmay : w.Strict ∨ (n ∈ x.names → x.on = true))
    (h : n ∈ next w p x) : Told n (word p x) x := by
  unfold next at h
  cases hw : word p x with
  | fresh ns =>
    rw [hw] at h
    dsimp only at h
    split at h
    next hsent =>
      obtain ⟨-, -, rfl⟩ := word_fresh hw
      exact ⟨hsent, _, rfl, mem_new.mpr ⟨h, hp⟩⟩
    next => exact absurd h hp
  | empty =>
    rw [hw] at h
    dsimp only at h
    split at h
    next => cases h
    next => exact absurd h hp
  | silent =>
    rw [hw] at h
    dsimp only at h
    split at h
    next =>
      rcases hmay with hstrict | hon
      · exact absurd (hstrict h) hp
      · have hn := w.mem_of_kept h
        exact absurd (noted_of_silent hw (hon hn) hn) hp
    next => exact absurd h hp

/-! ## Runs -/

/-- A look, and what was said at it. -/
structure Turn (α : Type) where
  look : Look α
  said : Word α

def Turn.Told (n : α) (t : Turn α) : Prop := Notices.Told n t.said t.look

def Turn.Dropped (n : α) (t : Turn α) : Prop := Notices.Dropped n t.said t.look

def Turn.Closed (t : Turn α) : Prop := Notices.Closed t.said t.look

/-- The turns of a run of looks. -/
def turns (w : Narrowing α) : List α → List (Look α) → List (Turn α)
  | _, [] => []
  | p, x :: xs => ⟨x, word p x⟩ :: turns w (next w p x) xs

theorem turns_append (p : List α) (xs ys : List (Look α)) :
    turns w p (xs ++ ys) = turns w p xs ++ turns w (Runs.run (next w) p xs) ys := by
  induction xs generalizing p with
  | nil => rfl
  | cons x xs ih => simp [turns, ih]

/-- A cut of the turns is a cut of the looks. -/
theorem turns_cut {xs : List (Look α)} {us vs : List (Turn α)} (h : turns w p xs = us ++ vs) :
    ∃ ys zs, xs = ys ++ zs ∧ us = turns w p ys ∧ vs = turns w (Runs.run (next w) p ys) zs := by
  induction us generalizing p xs with
  | nil => exact ⟨[], xs, rfl, rfl, h.symm⟩
  | cons u us ih =>
    cases xs with
    | nil => cases h
    | cons x xs =>
      obtain ⟨hhead, htail⟩ := List.cons.inj h
      obtain ⟨ys, zs, rfl, rfl, rfl⟩ := ih htail
      exact ⟨x :: ys, zs, rfl, by rw [turns, hhead], rfl⟩

theorem map_look_turns (w : Narrowing α) (p : List α) (xs : List (Look α)) :
    (turns w p xs).map Turn.look = xs := by
  induction xs generalizing p with
  | nil => rfl
  | cons x xs ih => simp [turns, ih]

theorem turns_cut_cons {xs : List (Look α)} {us vs : List (Turn α)} {t : Turn α}
    (h : turns w p xs = us ++ t :: vs) :
    ∃ ys zs, xs = ys ++ t.look :: zs ∧ us = turns w p ys ∧
      t.said = word (Runs.run (next w) p ys) t.look ∧
      vs = turns w (next w (Runs.run (next w) p ys) t.look) zs := by
  obtain ⟨ys, zs, rfl, hus, hvs⟩ := turns_cut h
  cases zs with
  | nil => cases hvs
  | cons z zs =>
    obtain ⟨rfl, rfl⟩ := List.cons.inj hvs
    exact ⟨ys, zs, rfl, hus, rfl, rfl⟩

theorem noted_of_run {xs : List (Look α)} (hp : n ∈ p)
    (hkept : ∀ t ∈ turns w p xs, ¬ t.Dropped n) : n ∈ Runs.run (next w) p xs := by
  induction xs generalizing p with
  | nil => exact hp
  | cons x xs ih =>
    have hhead := hkept _ List.mem_cons_self
    exact ih (next_of_not_dropped hp hhead) fun t ht => hkept t (List.mem_cons_of_mem _ ht)

theorem not_noted_of_run {xs : List (Look α)} (hp : n ∉ p)
    (hmay : w.Strict ∨ ∀ x ∈ xs, n ∈ x.names → x.on = true)
    (htold : ∀ t ∈ turns w p xs, ¬ t.Told n) : n ∉ Runs.run (next w) p xs := by
  induction xs generalizing p with
  | nil => exact hp
  | cons x xs ih =>
    have hhead := htold _ List.mem_cons_self
    have hnext : n ∉ next w p x := fun h =>
      hhead (told_of_next hp (hmay.imp_right fun hall => hall x List.mem_cons_self) h)
    exact ih hnext (hmay.imp_right fun hall y hy => hall y (List.mem_cons_of_mem _ hy))
      fun t ht => htold t (List.mem_cons_of_mem _ ht)

/-! ## The laws of a run -/

/-- Some element meets `A`, and none after it meets `C`. -/
def Since {β : Type} (A C : β → Prop) (us : List β) : Prop :=
  ∃ u a v, us = u ++ a :: v ∧ A a ∧ ∀ t ∈ v, ¬ C t

theorem since_snoc {β : Type} {A C : β → Prop} {us : List β} {t : β}
    (h : A t ∨ Since A C us ∧ ¬ C t) : Since A C (us ++ [t]) := by
  rcases h with ha | ⟨⟨u, a, v, rfl, ha, hv⟩, hc⟩
  · exact ⟨us, t, [], rfl, ha, nofun⟩
  · refine ⟨u, a, v ++ [t], by simp, ha, fun s hs => ?_⟩
    rcases List.mem_append.mp hs with hs | hs
    · exact hv s hs
    · rw [List.mem_singleton.mp hs]
      exact hc

variable {xs : List (Look α)} {us vs rest : List (Turn α)} {a b t : Turn α}

theorem turns_snoc (p : List α) (xs : List (Look α)) (x : Look α) :
    turns w p (xs ++ [x]) = turns w p xs ++ [⟨x, word (Runs.run (next w) p xs) x⟩] := by
  rw [turns_append]
  rfl

/-- What is noted has been announced, and not dropped since. -/
theorem since_of_noted (hmay : w.Strict ∨ ∀ x ∈ xs, n ∈ x.names → x.on = true)
    (h : n ∈ Runs.run (next w) [] xs) :
    Since (Turn.Told n) (Turn.Dropped n) (turns w [] xs) := by
  induction xs using List.reverseRecOn with
  | nil => cases h
  | append_singleton xs x ih =>
    rw [Runs.run_snoc] at h
    rw [turns_snoc]
    apply since_snoc
    by_cases hp : n ∈ Runs.run (next w) [] xs
    · have hbefore := ih (hmay.imp_right fun hall y hy => hall y (List.mem_append_left _ hy)) hp
      exact .inr ⟨hbefore, fun hdrop => next_of_dropped hdrop h⟩
    · have hlast := hmay.imp_right fun hall => hall x (List.mem_append_right _ (by simp))
      exact .inl (told_of_next hp hlast h)

theorem noted_of_since (h : Since (Turn.Told n) (Turn.Dropped n) (turns w [] xs)) :
    n ∈ Runs.run (next w) [] xs := by
  obtain ⟨u, a, v, hcut, ha, hv⟩ := h
  obtain ⟨ys, zs, rfl, -, hsaid, rfl⟩ := turns_cut_cons hcut
  unfold Turn.Told at ha
  rw [hsaid] at ha
  rw [Runs.run, List.foldl_append, List.foldl_cons]
  exact noted_of_run (next_of_told ha) hv

/-- Between two messages that name it, a name was out of the set. -/
theorem told_once (h : turns w [] xs = us ++ a :: vs ++ b :: rest) (ha : a.Told n)
    (hb : b.Told n) : ∃ t ∈ vs, n ∉ t.look.names := by
  by_contra hin
  push Not at hin
  obtain ⟨ys, zs, rfl, hus, hsaid, -⟩ := turns_cut_cons h
  unfold Turn.Told at hb
  rw [hsaid] at hb
  apply not_noted_of_told hb
  apply noted_of_since
  exact ⟨us, a, vs, hus.symm, ha, fun t ht hdrop => hdrop.1 (hin t ht)⟩

/-- A name that is in the set, and of which nothing was said since the run began or since
it was dropped, is announced. -/
theorem told_again (h : turns w [] xs = us ++ vs ++ t :: rest)
    (hstart : us = [] ∨ ∃ u, us.getLast? = some u ∧ u.Dropped n)
    (hmay : w.Strict ∨ ∀ v ∈ vs, n ∈ v.look.names → v.look.on = true)
    (htold : ∀ v ∈ vs, ¬ v.Told n) (hon : t.look.on = true) (hn : n ∈ t.look.names) :
    ∃ ns, t.said = .fresh ns ∧ n ∈ ns := by
  rw [List.append_assoc] at h
  obtain ⟨ys, zs, rfl, rfl, hvs⟩ := turns_cut h
  obtain ⟨ys', zs', rfl, rfl, hsaid, -⟩ := turns_cut_cons hvs.symm
  have hout : n ∉ Runs.run (next w) [] ys := by
    rcases hstart with hnil | ⟨u, hlast, hdrop⟩
    · cases ys with
      | nil => exact List.not_mem_nil
      | cons y ys => cases hnil
    · obtain ⟨front, hfront⟩ := List.getLast?_eq_some_iff.mp hlast
      obtain ⟨ys0, zs0, rfl, -, hsaid0, hnil⟩ := turns_cut_cons hfront
      cases zs0 with
      | cons z zs0 => cases hnil
      | nil =>
        unfold Turn.Dropped at hdrop
        rw [hsaid0] at hdrop
        rw [Runs.run_snoc]
        exact next_of_dropped hdrop
  have hmay' : w.Strict ∨ ∀ x ∈ ys', n ∈ x.names → x.on = true := by
    refine hmay.imp_right fun hall x hx => ?_
    rw [← map_look_turns w (Runs.run (next w) [] ys) ys'] at hx
    obtain ⟨v, hv, rfl⟩ := List.mem_map.mp hx
    exact hall v hv
  rw [hsaid]
  exact ⟨_, word_of_new hon hn (not_noted_of_run hout hmay' htold),
    mem_new.mpr ⟨hn, not_noted_of_run hout hmay' htold⟩⟩

/-! ## The end of the set -/

/-- The turn announces some name. -/
def Turn.Announced (t : Turn α) : Prop := ∃ n, t.Told n

theorem next_nil_of_closed (h : Closed (word p x) x) : next w p x = [] := by
  unfold next
  rw [h.1]
  simp [h.2]

theorem next_ne_nil_of_told (h : Told n (word p x) x) : next w p x ≠ [] :=
  List.ne_nil_of_mem (next_of_told h)

theorem next_ne_nil (hp : p ≠ []) (hfull : w.Full ∨ x.on = true)
    (hopen : ¬ Closed (word p x) x) : next w p x ≠ [] := by
  unfold next
  cases hw : word p x with
  | fresh ns =>
    obtain ⟨-, hne, rfl⟩ := word_fresh hw
    obtain ⟨m, hm⟩ := List.exists_mem_of_ne_nil _ hne
    dsimp only
    split
    next => exact List.ne_nil_of_mem (mem_new.mp hm).1
    next => exact hp
  | empty =>
    have hsent : x.sent ≠ true := fun hs => hopen ⟨hw, hs⟩
    simpa [hsent] using hp
  | silent =>
    dsimp only
    split
    next hc =>
      rcases hfull with hfull | hon
      · exact hfull hc.1
      · obtain ⟨m, hm⟩ := List.exists_mem_of_ne_nil _ hc.1
        have hmp := noted_of_silent hw hon hm
        exact List.ne_nil_of_mem (w.kept_of_mem hmp hm)
    next => exact hp

/-- The first names to be noted are noted by a message. -/
theorem told_of_ne_nil (hp : p = []) (h : next w p x ≠ []) : ∃ n, Told n (word p x) x := by
  subst hp
  unfold next at h
  cases hw : word [] x with
  | fresh ns =>
    obtain ⟨-, hne, rfl⟩ := word_fresh hw
    obtain ⟨m, hm⟩ := List.exists_mem_of_ne_nil _ hne
    rw [hw] at h
    dsimp only at h
    split at h
    next hsent => exact ⟨m, hsent, _, rfl, hm⟩
    next => exact absurd rfl h
  | empty => exact absurd rfl (word_empty.mp hw).2
  | silent =>
    rw [hw] at h
    dsimp only at h
    split at h
    next hc => exact absurd rfl (w.noted_of_due hc.2)
    next => exact absurd rfl h

theorem since_of_ne_nil (h : Runs.run (next w) [] xs ≠ []) :
    Since Turn.Announced Turn.Closed (turns w [] xs) := by
  induction xs using List.reverseRecOn with
  | nil => exact absurd rfl h
  | append_singleton xs x ih =>
    rw [Runs.run_snoc] at h
    rw [turns_snoc]
    apply since_snoc
    by_cases hp : Runs.run (next w) [] xs = []
    · exact .inl (told_of_ne_nil hp h)
    · exact .inr ⟨ih hp, fun hclosed => h (next_nil_of_closed hclosed)⟩

theorem ne_nil_of_run {xs : List (Look α)} (hp : p ≠ [])
    (hfull : w.Full ∨ ∀ x ∈ xs, x.on = true) (hopen : ∀ t ∈ turns w p xs, ¬ t.Closed) :
    Runs.run (next w) p xs ≠ [] := by
  induction xs generalizing p with
  | nil => exact hp
  | cons x xs ih =>
    have hnext := next_ne_nil hp (hfull.imp_right fun hall => hall x List.mem_cons_self)
      (hopen _ List.mem_cons_self)
    exact ih hnext (hfull.imp_right fun hall y hy => hall y (List.mem_cons_of_mem _ hy))
      fun t ht => hopen t (List.mem_cons_of_mem _ ht)

/-- That none is left is said of an empty set, after an announcement that is not closed. -/
theorem announced_of_empty (h : turns w [] xs = us ++ t :: rest) (hsaid : t.said = .empty) :
    t.look.names = [] ∧ Since Turn.Announced Turn.Closed us := by
  obtain ⟨ys, zs, rfl, rfl, hw, -⟩ := turns_cut_cons h
  rw [hw] at hsaid
  obtain ⟨hempty, hne⟩ := word_empty.mp hsaid
  exact ⟨hempty, since_of_ne_nil hne⟩

/-- And it is said there whenever new names could be announced ever since. -/
theorem empty_of_announced (h : turns w [] xs = us ++ a :: vs ++ t :: rest) (ha : a.Announced)
    (hopen : ∀ v ∈ vs, ¬ v.Closed) (hfull : w.Full ∨ ∀ v ∈ vs, v.look.on = true)
    (hempty : t.look.names = []) : t.said = .empty := by
  obtain ⟨ys, zs, rfl, hus, hw, -⟩ := turns_cut_cons h
  obtain ⟨ys', zs', rfl, -, hsaid, rfl⟩ := turns_cut_cons hus.symm
  obtain ⟨n, hn⟩ := ha
  unfold Turn.Told at hn
  rw [hsaid] at hn
  have hfull' : w.Full ∨ ∀ x ∈ zs', x.on = true := by
    refine hfull.imp_right fun hall x hx => ?_
    rw [← map_look_turns w (next w (Runs.run (next w) [] ys') a.look) zs'] at hx
    obtain ⟨v, hv, rfl⟩ := List.mem_map.mp hx
    exact hall v hv
  rw [hw]
  apply word_empty.mpr
  refine ⟨hempty, ?_⟩
  rw [Runs.run, List.foldl_append, List.foldl_cons]
  exact ne_nil_of_run (next_ne_nil_of_told hn) hfull' hopen

end Notices
