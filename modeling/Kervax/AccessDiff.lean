-- What the difference of two snapshots tells (`changes.diff`): one event for each element
-- that came, one for each that went, except for a group that is gone as a whole.
import Kervax.Changes
import Kervax.Dict

namespace Kervax.AccessDiff

/-! ## Elements -/

/-- A snapshot as it is read from JSON: no dictionary has a key twice. -/
structure Parsed extends Snapshot where
  groupsOnce : (Dict.keys groups).Nodup
  filesOnce : (Dict.keys files).Nodup
  cronOnce : (Dict.keys cron).Nodup

/-- What may be in a snapshot. -/
inductive Subject
  | key (user fp : String)
  | user (name : String)
  | member (name group : String)
  | sudoers (path : String)
  | cron (path : String)
  | unit (name : String)
deriving DecidableEq

def Present (snap : Snapshot) : Subject → Prop
  | .key user fp => fp ≠ "" ∧ ∃ k ∈ snap.keys, k.user = user ∧ k.fp = fp
  | .user name => name ≠ "" ∧ ∃ u ∈ snap.users, u.name = name
  | .member name group => ∃ members, (group, members) ∈ snap.groups ∧ name ∈ members
  | .sudoers path => path ∈ Dict.keys snap.files
  | .cron path => path ∈ Dict.keys snap.cron
  | .unit name => name ∈ snap.units

/-- An element with what its event says of it. -/
inductive Item
  | key (k : SshKey)
  | user (name : String) (u : SysUser)
  | member (name group : String)
  | sudoers (path : String)
  | cron (path : String)
  | unit (name : String)

def Item.subject : Item → Subject
  | .key k => .key k.user k.fp
  | .user name _ => .user name
  | .member name group => .member name group
  | .sudoers path => .sudoers path
  | .cron path => .cron path
  | .unit name => .unit name

/-- The event of an element that came. -/
def Item.added : Item → Change
  | .key k =>
    ⟨"key", "add", "добавлен SSH-ключ пользователю " ++ k.user ++ ": " ++ keyText k, true, k.fp,
      false⟩
  | .user name u =>
    ⟨"user", "add", "новый пользователь " ++ name ++ " (uid " ++ uidText u.uid ++ ", " ++
      (if u.shell = "" then "?" else u.shell) ++ ")", true, "", false⟩
  | .member name group => ⟨"sudo", "add", name ++ " добавлен в группу " ++ group, true, "", false⟩
  | .sudoers path => ⟨"sudo", "add", "добавлен " ++ path, true, "", false⟩
  | .cron path => ⟨"cron", "add", "добавлен крон " ++ path, false, "", false⟩
  | .unit name => ⟨"unit", "add", "включен " ++ name, false, "", false⟩

/-- The event of an element that went. -/
def Item.removed : Item → Change
  | .key k =>
    ⟨"key", "del", "удален SSH-ключ пользователя " ++ k.user ++ ": " ++ keyText k, false, "", false⟩
  | .user name _ =>
    ⟨"user", "del", "пользователь " ++ name ++ " больше не может войти или удален", false, "", false⟩
  | .member name group => ⟨"sudo", "del", name ++ " убран из группы " ++ group, false, "", false⟩
  | .sudoers path => ⟨"sudo", "del", "удален " ++ path, false, "", false⟩
  | .cron path => ⟨"cron", "del", "удален крон " ++ path, false, "", false⟩
  | .unit name => ⟨"unit", "del", "выключен " ++ name, false, "", false⟩

/-! ## What each loop finds -/

def keyItems (old new : Snapshot) : List Item :=
  ((keysOf new).filter fun k => !hasKey (keysOf old) k).map .key

def userItems (old new : Snapshot) : List Item :=
  ((usersOf new).filter fun p => ((usersOf old).lookup p.1).isNone).map fun p => .user p.1 p.2

/-- The members of a group, as far as the snapshot has the group. -/
def members (snap : Snapshot) (group : String) : List String := (snap.groups.lookup group).getD []

/-- The loop over the groups goes over those of the new snapshot, for both kinds of events. -/
def addMembers (old new : Snapshot) : List Item :=
  new.groups.flatMap fun (g, ms) =>
    (sortedSet (ms.filter (· ∉ members old g))).map fun m => .member m g

def delMembers (old new : Snapshot) : List Item :=
  new.groups.flatMap fun (g, ms) =>
    (sortedSet ((members old g).filter (· ∉ ms))).map fun m => .member m g

def pathItems (item : String → Item) (old new : List (String × String)) : List Item :=
  (new.filter fun p => (old.lookup p.1).isNone).map fun p => item p.1

def unitItems (old new : List String) : List Item := (sortedSet (new.filter (· ∉ old))).map .unit

/-- The elements of the `add` events. -/
def adds (old new : Snapshot) : List Item :=
  keyItems old new ++ userItems old new ++ addMembers old new ++
    pathItems .sudoers old.files new.files ++ pathItems .cron old.cron new.cron ++
    unitItems old.units new.units

/-- The elements of the `del` events. -/
def dels (old new : Snapshot) : List Item :=
  keyItems new old ++ userItems new old ++ delMembers old new ++
    pathItems .sudoers new.files old.files ++ pathItems .cron new.cron old.cron ++
    unitItems new.units old.units

/-- The paths whose hash is another one. -/
def changedPaths (old new : List (String × String)) : List String :=
  (new.filter fun p => (old.lookup p.1).any (· ≠ p.2)).map Prod.fst

/-- The events of one act. -/
def acts (act : String) (es : List Change) : List Change := es.filter fun e => e.act = act

theorem acts_append (act : String) (es fs : List Change) :
    acts act (es ++ fs) = acts act es ++ acts act fs := List.filter_append ..

theorem act_added (i : Item) : i.added.act = "add" := by
  cases i <;> rfl

theorem act_removed (i : Item) : i.removed.act = "del" := by
  cases i <;> rfl

theorem acts_map {α : Type} {act : String} {f : α → Change} {l : List α}
    (h : ∀ a ∈ l, (f a).act = act) : acts act (l.map f) = l.map f := by
  unfold acts
  rw [List.filter_eq_self]
  intro e he
  obtain ⟨a, ha, rfl⟩ := List.mem_map.mp he
  simp [h a ha]

theorem acts_eq_nil {act : String} {es : List Change} (h : ∀ e ∈ es, e.act ≠ act) :
    acts act es = [] := by
  unfold acts
  rw [List.filter_eq_nil_iff]
  intro e he
  simp [h e he]

@[simp] theorem add_added (items : List Item) :
    acts "add" (items.map Item.added) = items.map Item.added :=
  acts_map fun i _ => act_added i

@[simp] theorem del_removed (items : List Item) :
    acts "del" (items.map Item.removed) = items.map Item.removed :=
  acts_map fun i _ => act_removed i

@[simp] theorem add_removed (items : List Item) : acts "add" (items.map Item.removed) = [] := by
  apply acts_eq_nil
  intro e he
  obtain ⟨i, -, rfl⟩ := List.mem_map.mp he
  rw [act_removed]
  decide

@[simp] theorem del_added (items : List Item) : acts "del" (items.map Item.added) = [] := by
  apply acts_eq_nil
  intro e he
  obtain ⟨i, -, rfl⟩ := List.mem_map.mp he
  rw [act_added]
  decide

@[simp] theorem mod_added (items : List Item) : acts "mod" (items.map Item.added) = [] := by
  apply acts_eq_nil
  intro e he
  obtain ⟨i, -, rfl⟩ := List.mem_map.mp he
  rw [act_added]
  decide

@[simp] theorem mod_removed (items : List Item) : acts "mod" (items.map Item.removed) = [] := by
  apply acts_eq_nil
  intro e he
  obtain ⟨i, -, rfl⟩ := List.mem_map.mp he
  rw [act_removed]
  decide

/-- A loop that may give an event for each element, seen by one act. -/
theorem acts_filterMap {α : Type} {act : String} {f : α → Option Change} (p : α → Bool)
    (g : α → Change) {l : List α} (h : ∀ a ∈ l, (f a).filter (fun e => decide (e.act = act)) =
      if p a then some (g a) else none) :
    acts act (l.filterMap f) = (l.filter p).map g := by
  unfold acts
  rw [List.filter_filterMap]
  induction l with
  | nil => rfl
  | cons a l ih =>
    have hrest := ih fun b hb => h b (List.mem_cons_of_mem _ hb)
    rw [List.filterMap_cons, h a List.mem_cons_self, List.filter_cons]
    cases p a with
    | true => simp [hrest]
    | false => simp [hrest]

/-! ## The events of the loops -/

theorem diffKeys_eq (old new : Snapshot) :
    diffKeys old new = (keyItems old new).map Item.added ++ (keyItems new old).map Item.removed := by
  unfold diffKeys keyItems
  rw [List.map_map, List.map_map]
  rfl

/-- The first loop over the users: who is new, and who has got uid 0. -/
def newUsers (old new : Snapshot) : List Change :=
  (usersOf new).filterMap fun (name, u) =>
    match (usersOf old).lookup name with
    | none => some (Item.user name u).added
    | some o =>
      if u.uid = some 0 ∧ o.uid ≠ some 0 then
        some ⟨"user", "mod", "пользователь " ++ name ++ " получил uid 0", true, "", false⟩
      else none

theorem diffUsers_eq (old new : Snapshot) :
    diffUsers old new = newUsers old new ++ (userItems new old).map Item.removed := by
  unfold diffUsers newUsers userItems
  rw [List.map_map]
  rfl

theorem add_newUsers (old new : Snapshot) :
    acts "add" (newUsers old new) = (userItems old new).map Item.added := by
  unfold newUsers userItems
  rw [List.map_map]
  apply acts_filterMap
  intro p _
  cases h : (usersOf old).lookup p.1 with
  | none => simp [h, Item.added]
  | some o =>
    simp only [h, Option.isNone_some, Bool.false_eq_true, if_false]
    split <;> rfl

theorem del_newUsers (old new : Snapshot) : acts "del" (newUsers old new) = [] := by
  apply acts_eq_nil
  intro e he
  obtain ⟨p, -, hp⟩ := List.mem_filterMap.mp he
  dsimp only at hp
  split at hp
  · cases hp
    rw [act_added]
    decide
  · split at hp
    · cases hp
      show "mod" ≠ "del"
      decide
    · cases hp

/-- The first loop over the files: what is new, and what has another hash. -/
def newFiles (item : String → Item) (kind changed : String) (alert : Bool)
    (old new : List (String × String)) : List Change :=
  new.filterMap fun (path, h) =>
    match old.lookup path with
    | none => some (item path).added
    | some h' => if h' ≠ h then some ⟨kind, "mod", changed ++ path, alert, "", false⟩ else none

theorem diffSudoers_eq (old new : List (String × String)) :
    diffFiles "sudo" "добавлен " "изменен " "удален " true old new =
      newFiles .sudoers "sudo" "изменен " true old new ++
        (pathItems .sudoers new old).map Item.removed := by
  unfold diffFiles newFiles pathItems
  rw [List.map_map]
  rfl

theorem diffCron_eq (old new : List (String × String)) :
    diffFiles "cron" "добавлен крон " "изменен крон " "удален крон " false old new =
      newFiles .cron "cron" "изменен крон " false old new ++
        (pathItems .cron new old).map Item.removed := by
  unfold diffFiles newFiles pathItems
  rw [List.map_map]
  rfl

section

variable (item : String → Item) (kind changed : String) (alert : Bool) (old new : List (String × String))

theorem add_newFiles :
    acts "add" (newFiles item kind changed alert old new) =
      (pathItems item old new).map Item.added := by
  unfold newFiles pathItems
  rw [List.map_map]
  apply acts_filterMap
  intro p _
  cases h : old.lookup p.1 with
  | none => simp [h, act_added]
  | some h' =>
    simp only [h, Option.isNone_some, Bool.false_eq_true, if_false]
    split <;> rfl

theorem del_newFiles : acts "del" (newFiles item kind changed alert old new) = [] := by
  apply acts_eq_nil
  intro e he
  obtain ⟨p, -, hp⟩ := List.mem_filterMap.mp he
  dsimp only at hp
  split at hp
  · cases hp
    rw [act_added]
    decide
  · split at hp
    · cases hp
      show "mod" ≠ "del"
      decide
    · cases hp

theorem mod_newFiles :
    acts "mod" (newFiles item kind changed alert old new) =
      (changedPaths old new).map fun path => ⟨kind, "mod", changed ++ path, alert, "", false⟩ := by
  unfold newFiles changedPaths
  rw [List.map_map]
  apply acts_filterMap
  intro p _
  cases h : old.lookup p.1 with
  | none => simp [h, act_added]
  | some h' =>
    simp only [h, Option.any_some]
    by_cases hne : h' = p.2
    · simp [hne]
    · simp [hne]

end

theorem acts_flatMap {α : Type} (act : String) (f : α → List Change) (l : List α) :
    acts act (l.flatMap f) = l.flatMap fun a => acts act (f a) := by
  unfold acts
  exact List.filter_flatMap

theorem diffGroups_eq (old new : Snapshot) :
    diffGroups old new = new.groups.flatMap fun (g, ms) =>
      ((sortedSet (ms.filter (· ∉ members old g))).map fun m => Item.member m g).map Item.added ++
        ((sortedSet ((members old g).filter (· ∉ ms))).map fun m => Item.member m g).map
          Item.removed := by
  unfold diffGroups members
  simp only [List.map_map]
  rfl

theorem add_diffGroups (old new : Snapshot) :
    acts "add" (diffGroups old new) = (addMembers old new).map Item.added := by
  rw [diffGroups_eq, acts_flatMap]
  unfold addMembers
  rw [List.map_flatMap]
  simp only [acts_append, add_added, add_removed, List.append_nil]

theorem del_diffGroups (old new : Snapshot) :
    acts "del" (diffGroups old new) = (delMembers old new).map Item.removed := by
  rw [diffGroups_eq, acts_flatMap]
  unfold delMembers
  rw [List.map_flatMap]
  simp only [acts_append, del_added, del_removed, List.nil_append]

theorem diffUnits_eq (old new : List String) :
    diffUnits old new = (unitItems old new).map Item.added ++ (unitItems new old).map Item.removed := by
  unfold diffUnits unitItems
  rw [List.map_map, List.map_map]
  rfl

/-- The `add` events are those of the elements of `adds`, in order. -/
theorem add_diff (old new : Snapshot) :
    acts "add" (diff old new) = (adds old new).map Item.added := by
  unfold diff adds
  rw [diffKeys_eq, diffUsers_eq, diffSudoers_eq, diffCron_eq, diffUnits_eq]
  simp only [acts_append, List.map_append, add_added, add_removed, add_newUsers, add_newFiles,
    add_diffGroups, List.append_nil]

theorem del_diff (old new : Snapshot) :
    acts "del" (diff old new) = (dels old new).map Item.removed := by
  unfold diff dels
  rw [diffKeys_eq, diffUsers_eq, diffSudoers_eq, diffCron_eq, diffUnits_eq]
  simp only [acts_append, List.map_append, del_added, del_removed, del_newUsers, del_newFiles,
    del_diffGroups, List.nil_append]

/-! ## The elements of a snapshot -/

theorem keysOf_foldl (ks out : List SshKey) (h : (out.map fun k => (k.user, k.fp)).Nodup) :
    ((ks.foldl (fun out k =>
      if out.any fun k' => k'.user = k.user ∧ k'.fp = k.fp then out else out ++ [k]) out).map
        fun k => (k.user, k.fp)).Nodup ∧
      ∀ u fp, (∃ k ∈ ks.foldl (fun out k =>
        if out.any fun k' => k'.user = k.user ∧ k'.fp = k.fp then out else out ++ [k]) out,
          k.user = u ∧ k.fp = fp) ↔ ∃ k ∈ out ++ ks, k.user = u ∧ k.fp = fp := by
  induction ks generalizing out with
  | nil => exact ⟨h, fun u fp => by simp⟩
  | cons k ks ih =>
    rw [List.foldl_cons]
    by_cases hk : (out.any fun k' => k'.user = k.user ∧ k'.fp = k.fp) = true
    · rw [if_pos hk]
      obtain ⟨hnodup, hmem⟩ := ih out h
      refine ⟨hnodup, fun u fp => ?_⟩
      rw [hmem u fp]
      obtain ⟨k', hk', heq⟩ := List.any_eq_true.mp hk
      have heq : k'.user = k.user ∧ k'.fp = k.fp := by simpa using heq
      constructor
      · rintro ⟨j, hj, hju⟩
        refine ⟨j, ?_, hju⟩
        rcases List.mem_append.mp hj with hj | hj
        · exact List.mem_append_left _ hj
        · exact List.mem_append_right _ (List.mem_cons_of_mem _ hj)
      · rintro ⟨j, hj, hju⟩
        rcases List.mem_append.mp hj with hj | hj
        · exact ⟨j, List.mem_append_left _ hj, hju⟩
        · rcases List.mem_cons.mp hj with rfl | hj
          · exact ⟨k', List.mem_append_left _ hk', heq.1.trans hju.1, heq.2.trans hju.2⟩
          · exact ⟨j, List.mem_append_right _ hj, hju⟩
    · rw [if_neg hk]
      have hnew : ((out ++ [k]).map fun k => (k.user, k.fp)).Nodup := by
        rw [List.map_append, List.nodup_append]
        refine ⟨h, by simp, ?_⟩
        rintro a ha b hb rfl
        obtain ⟨j, hj, rfl⟩ := List.mem_map.mp ha
        have hjk : j.user = k.user ∧ j.fp = k.fp := by simpa using hb
        exact hk (List.any_eq_true.mpr ⟨j, hj, by simpa using hjk⟩)
      obtain ⟨hnodup, hmem⟩ := ih (out ++ [k]) hnew
      refine ⟨hnodup, fun u fp => ?_⟩
      rw [hmem u fp, List.append_assoc]
      rfl

theorem nodup_keysOf (snap : Snapshot) : ((keysOf snap).map fun k => (k.user, k.fp)).Nodup :=
  (keysOf_foldl _ [] List.nodup_nil).1

theorem mem_keysOf {snap : Snapshot} {u fp : String} :
    (∃ k ∈ keysOf snap, k.user = u ∧ k.fp = fp) ↔ Present snap (.key u fp) := by
  unfold keysOf
  rw [(keysOf_foldl _ [] List.nodup_nil).2 u fp, List.nil_append]
  constructor
  · rintro ⟨k, hk, rfl, rfl⟩
    obtain ⟨hin, hne⟩ := List.mem_filter.mp hk
    exact ⟨by simpa using hne, k, hin, rfl, rfl⟩
  · rintro ⟨hne, k, hin, rfl, rfl⟩
    exact ⟨k, List.mem_filter.mpr ⟨hin, by simpa using hne⟩, rfl, rfl⟩

theorem hasKey_iff {snap : Snapshot} {k : SshKey} :
    hasKey (keysOf snap) k = true ↔ Present snap (.key k.user k.fp) := by
  rw [← mem_keysOf]
  simp [hasKey]

theorem keys_dictSet {α : Type} (k : String) (v : α) (d : List (String × α)) :
    Dict.keys (dictSet k v d) = if k ∈ Dict.keys d then Dict.keys d else Dict.keys d ++ [k] := by
  induction d with
  | nil => rfl
  | cons p d ih =>
    unfold dictSet
    by_cases hk : p.1 = k
    · rw [if_pos hk, if_pos (by simp [Dict.keys, hk])]
      simp [Dict.keys, hk]
    · rw [if_neg hk]
      unfold Dict.keys at ih ⊢
      rw [List.map_cons, ih, List.map_cons]
      by_cases hin : k ∈ d.map Prod.fst
      · rw [if_pos hin, if_pos (List.mem_cons_of_mem _ hin)]
      · rw [if_neg hin, if_neg (by simp [hin, Ne.symm hk]), List.cons_append]

theorem usersOf_foldl (us : List SysUser) (out : List (String × SysUser))
    (h : (Dict.keys out).Nodup) :
    (Dict.keys (us.foldl (fun out u => dictSet u.name u out) out)).Nodup ∧
      ∀ name, name ∈ Dict.keys (us.foldl (fun out u => dictSet u.name u out) out) ↔
        name ∈ Dict.keys out ∨ ∃ u ∈ us, u.name = name := by
  induction us generalizing out with
  | nil => exact ⟨h, fun name => by simp⟩
  | cons u us ih =>
    have hkeys := keys_dictSet u.name u out
    have hnew : (Dict.keys (dictSet u.name u out)).Nodup := by
      rw [hkeys]
      split
      · exact h
      · next hu =>
        rw [List.nodup_append]
        refine ⟨h, by simp, ?_⟩
        rintro a ha b hb rfl
        exact hu (List.mem_singleton.mp hb ▸ ha)
    obtain ⟨hnodup, hmem⟩ := ih (dictSet u.name u out) hnew
    rw [List.foldl_cons]
    refine ⟨hnodup, fun name => ?_⟩
    have hput : name ∈ Dict.keys (dictSet u.name u out) ↔ name ∈ Dict.keys out ∨ u.name = name := by
      rw [hkeys]
      split
      · next hu =>
        constructor
        · exact Or.inl
        · rintro (hin | rfl)
          · exact hin
          · exact hu
      · simp [eq_comm]
    rw [hmem name, hput]
    simp [or_assoc]

theorem nodup_usersOf (snap : Snapshot) : (Dict.keys (usersOf snap)).Nodup :=
  (usersOf_foldl _ [] List.nodup_nil).1

theorem mem_usersOf {snap : Snapshot} {name : String} :
    name ∈ Dict.keys (usersOf snap) ↔ Present snap (.user name) := by
  unfold usersOf
  rw [(usersOf_foldl _ [] List.nodup_nil).2 name]
  constructor
  · rintro (hin | ⟨u, hu, rfl⟩)
    · cases hin
    · obtain ⟨hin, hne⟩ := List.mem_filter.mp hu
      exact ⟨by simpa using hne, u, hin, rfl⟩
  · rintro ⟨hne, u, hin, rfl⟩
    exact Or.inr ⟨u, List.mem_filter.mpr ⟨hin, by simpa using hne⟩, rfl⟩

theorem mem_members {snap : Parsed} {m g : String} :
    m ∈ members snap.toSnapshot g ↔ Present snap.toSnapshot (.member m g) := by
  unfold members
  constructor
  · intro hm
    cases h : snap.groups.lookup g with
    | none =>
      rw [h] at hm
      cases hm
    | some ms =>
      rw [h] at hm
      exact ⟨ms, Dict.mem_of_lookup h, hm⟩
  · rintro ⟨ms, hms, hm⟩
    rw [Dict.lookup_of_mem snap.groupsOnce hms]
    exact hm

/-! ## What the loops find -/

def subjects (items : List Item) : List Subject := items.map Item.subject

theorem mem_keyItems {old new : Snapshot} {x : Subject} :
    x ∈ subjects (keyItems old new) ↔
      ∃ u fp, x = .key u fp ∧ Present new x ∧ ¬Present old x := by
  simp only [subjects, keyItems, List.map_map, List.mem_map, List.mem_filter,
    Bool.not_eq_true', Bool.eq_false_iff, Ne, hasKey_iff, Function.comp_apply, Item.subject]
  constructor
  · rintro ⟨k, ⟨hk, hold⟩, rfl⟩
    exact ⟨k.user, k.fp, rfl, mem_keysOf.mp ⟨k, hk, rfl, rfl⟩, hold⟩
  · rintro ⟨u, fp, rfl, hnew, hold⟩
    obtain ⟨k, hk, rfl, rfl⟩ := mem_keysOf.mpr hnew
    exact ⟨k, ⟨hk, hold⟩, rfl⟩

theorem nodup_keyItems (old new : Snapshot) : (subjects (keyItems old new)).Nodup := by
  have hkeys := nodup_keysOf new
  have hmap : subjects (keyItems old new) =
      ((((keysOf new).filter fun k => !hasKey (keysOf old) k)).map fun k => (k.user, k.fp)).map
        fun p => Subject.key p.1 p.2 := by
    simp [subjects, keyItems, Item.subject]
  rw [hmap]
  apply List.Nodup.map
  · rintro ⟨u, fp⟩ ⟨v, fq⟩ he
    obtain ⟨rfl, rfl⟩ := Subject.key.inj he
    rfl
  · exact hkeys.sublist (List.filter_sublist.map _)

theorem mem_userItems {old new : Snapshot} {x : Subject} :
    x ∈ subjects (userItems old new) ↔ ∃ name, x = .user name ∧ Present new x ∧ ¬Present old x := by
  simp only [subjects, userItems, List.map_map, List.mem_map, List.mem_filter,
    Option.isNone_iff_eq_none, Dict.lookup_eq_none, Function.comp_apply, Item.subject]
  constructor
  · rintro ⟨p, ⟨hp, hold⟩, rfl⟩
    refine ⟨p.1, rfl, mem_usersOf.mp (List.mem_map.mpr ⟨p, hp, rfl⟩), ?_⟩
    rwa [← mem_usersOf]
  · rintro ⟨name, rfl, hnew, hold⟩
    obtain ⟨p, hp, rfl⟩ := List.mem_map.mp (mem_usersOf.mpr hnew)
    exact ⟨p, ⟨hp, fun hin => hold (mem_usersOf.mp hin)⟩, rfl⟩

theorem nodup_userItems (old new : Snapshot) : (subjects (userItems old new)).Nodup := by
  have hmap : subjects (userItems old new) =
      (((usersOf new).filter fun p => ((usersOf old).lookup p.1).isNone).map Prod.fst).map
        Subject.user := by
    simp [subjects, userItems, Item.subject]
  rw [hmap]
  apply List.Nodup.map
  · intro a b he
    exact Subject.user.inj he
  · exact (nodup_usersOf new).sublist (List.filter_sublist.map _)

theorem mem_pathItems {item : String → Item} {make : String → Subject}
    (hitem : ∀ path, (item path).subject = make path) {old new : List (String × String)}
    {x : Subject} :
    x ∈ subjects (pathItems item old new) ↔
      ∃ path, x = make path ∧ path ∈ Dict.keys new ∧ path ∉ Dict.keys old := by
  simp only [subjects, pathItems, List.map_map, List.mem_map, List.mem_filter,
    Option.isNone_iff_eq_none, Dict.lookup_eq_none, Function.comp_apply, hitem]
  constructor
  · rintro ⟨p, ⟨hp, hold⟩, rfl⟩
    exact ⟨p.1, rfl, List.mem_map.mpr ⟨p, hp, rfl⟩, hold⟩
  · rintro ⟨path, rfl, hnew, hold⟩
    obtain ⟨p, hp, rfl⟩ := List.mem_map.mp hnew
    exact ⟨p, ⟨hp, hold⟩, rfl⟩

theorem nodup_pathItems {item : String → Item} {make : String → Subject}
    (hitem : ∀ path, (item path).subject = make path) (hinj : Function.Injective make)
    (old : List (String × String)) {new : List (String × String)} (h : (Dict.keys new).Nodup) :
    (subjects (pathItems item old new)).Nodup := by
  have hmap : subjects (pathItems item old new) =
      ((new.filter fun p => (old.lookup p.1).isNone).map Prod.fst).map make := by
    simp [subjects, pathItems, hitem]
  rw [hmap]
  exact (h.sublist (List.filter_sublist.map _)).map hinj

theorem mem_unitItems {old new : List String} {x : Subject} :
    x ∈ subjects (unitItems old new) ↔ ∃ name, x = .unit name ∧ name ∈ new ∧ name ∉ old := by
  simp only [subjects, unitItems, List.map_map, List.mem_map, mem_sortedSet, List.mem_filter,
    decide_eq_true_eq, Function.comp_apply, Item.subject]
  constructor
  · rintro ⟨name, h, rfl⟩
    exact ⟨name, rfl, h⟩
  · rintro ⟨name, rfl, h⟩
    exact ⟨name, h, rfl⟩

theorem nodup_unitItems (old new : List String) : (subjects (unitItems old new)).Nodup := by
  unfold subjects unitItems
  rw [List.map_map]
  exact (nodup_sortedSet _).map fun a b he => Subject.unit.inj he

theorem mem_addMembers {old new : Parsed} {x : Subject} :
    x ∈ subjects (addMembers old.toSnapshot new.toSnapshot) ↔
      ∃ m g, x = .member m g ∧ Present new.toSnapshot x ∧ ¬Present old.toSnapshot x := by
  simp only [subjects, addMembers, List.map_flatMap, List.map_map, List.mem_flatMap, List.mem_map,
    mem_sortedSet, List.mem_filter, decide_eq_true_eq, mem_members, Function.comp_apply,
    Item.subject]
  constructor
  · rintro ⟨⟨g, ms⟩, hg, m, ⟨hm, hold⟩, rfl⟩
    exact ⟨m, g, rfl, ⟨ms, hg, hm⟩, hold⟩
  · rintro ⟨m, g, rfl, ⟨ms, hg, hm⟩, hold⟩
    exact ⟨(g, ms), hg, m, ⟨hm, hold⟩, rfl⟩

/-- Who was in a group that the new snapshot does not have is not looked at. -/
theorem mem_delMembers {old new : Parsed} {x : Subject} :
    x ∈ subjects (delMembers old.toSnapshot new.toSnapshot) ↔
      ∃ m g, x = .member m g ∧ g ∈ Dict.keys new.groups ∧ Present old.toSnapshot x ∧
        ¬Present new.toSnapshot x := by
  simp only [subjects, delMembers, List.map_flatMap, List.map_map, List.mem_flatMap, List.mem_map,
    mem_sortedSet, List.mem_filter, decide_eq_true_eq, mem_members, Function.comp_apply,
    Item.subject]
  constructor
  · rintro ⟨⟨g, ms⟩, hg, m, ⟨hold, hm⟩, rfl⟩
    refine ⟨m, g, rfl, List.mem_map.mpr ⟨(g, ms), hg, rfl⟩, hold, ?_⟩
    rw [← mem_members, members, Dict.lookup_of_mem new.groupsOnce hg]
    exact hm
  · rintro ⟨m, g, rfl, hg, hold, hnew⟩
    obtain ⟨⟨g, ms⟩, hgm, rfl⟩ := List.mem_map.mp hg
    exact ⟨(g, ms), hgm, m, ⟨hold, fun hm => hnew ⟨ms, hgm, hm⟩⟩, rfl⟩

theorem nodup_flatMap_members {gs : List (String × List String)} (h : (Dict.keys gs).Nodup)
    (f : String × List String → List String) :
    (subjects (gs.flatMap fun p => (sortedSet (f p)).map fun m => Item.member m p.1)).Nodup := by
  unfold subjects
  rw [List.map_flatMap]
  simp only [List.map_map]
  rw [List.nodup_flatMap]
  constructor
  · intro p _
    exact (nodup_sortedSet _).map fun a b he => (Subject.member.inj he).1
  · refine (List.pairwise_map.mp h).imp ?_
    intro p q hpq x hx hy
    obtain ⟨m, -, rfl⟩ := List.mem_map.mp hx
    obtain ⟨m', -, he⟩ := List.mem_map.mp hy
    exact hpq (Subject.member.inj he).2.symm

/-! ## The whole difference -/

/-- Elements of six sorts, each sort without repetition. -/
theorem nodup_sorts {keys users groups sudoers crons units : List Item}
    (hkeys : (subjects keys).Nodup ∧ ∀ x ∈ subjects keys, ∃ u fp, x = .key u fp)
    (husers : (subjects users).Nodup ∧ ∀ x ∈ subjects users, ∃ name, x = .user name)
    (hgroups : (subjects groups).Nodup ∧ ∀ x ∈ subjects groups, ∃ m g, x = .member m g)
    (hsudoers : (subjects sudoers).Nodup ∧ ∀ x ∈ subjects sudoers, ∃ path, x = .sudoers path)
    (hcrons : (subjects crons).Nodup ∧ ∀ x ∈ subjects crons, ∃ path, x = .cron path)
    (hunits : (subjects units).Nodup ∧ ∀ x ∈ subjects units, ∃ name, x = .unit name) :
    (subjects (keys ++ users ++ groups ++ sudoers ++ crons ++ units)).Nodup := by
  have hsplit : subjects (keys ++ users ++ groups ++ sudoers ++ crons ++ units) =
      [subjects keys, subjects users, subjects groups, subjects sudoers, subjects crons,
        subjects units].flatten := by
    simp [subjects]
  rw [hsplit, List.nodup_flatten]
  constructor
  · simp only [List.forall_mem_cons, List.not_mem_nil, false_imp_iff, implies_true, and_true]
    exact ⟨hkeys.1, husers.1, hgroups.1, hsudoers.1, hcrons.1, hunits.1⟩
  · simp only [List.pairwise_cons, List.forall_mem_cons, List.not_mem_nil, false_imp_iff,
      implies_true, and_true, List.Pairwise.nil]
    refine ⟨⟨?_, ?_, ?_, ?_, ?_⟩, ⟨?_, ?_, ?_, ?_⟩, ⟨?_, ?_, ?_⟩, ⟨?_, ?_⟩, ?_⟩ <;>
      intro x hx hy
    all_goals grind

theorem sort_keyItems (old new : Snapshot) : (subjects (keyItems old new)).Nodup ∧
    ∀ x ∈ subjects (keyItems old new), ∃ u fp, x = .key u fp := by
  refine ⟨nodup_keyItems old new, fun x hx => ?_⟩
  obtain ⟨u, fp, rfl, -⟩ := mem_keyItems.mp hx
  exact ⟨u, fp, rfl⟩

theorem sort_userItems (old new : Snapshot) : (subjects (userItems old new)).Nodup ∧
    ∀ x ∈ subjects (userItems old new), ∃ name, x = .user name := by
  refine ⟨nodup_userItems old new, fun x hx => ?_⟩
  obtain ⟨name, rfl, -⟩ := mem_userItems.mp hx
  exact ⟨name, rfl⟩

theorem sort_addMembers (old new : Parsed) :
    (subjects (addMembers old.toSnapshot new.toSnapshot)).Nodup ∧
      ∀ x ∈ subjects (addMembers old.toSnapshot new.toSnapshot), ∃ m g, x = .member m g := by
  refine ⟨nodup_flatMap_members new.groupsOnce _, fun x hx => ?_⟩
  obtain ⟨m, g, rfl, -⟩ := mem_addMembers.mp hx
  exact ⟨m, g, rfl⟩

theorem sort_delMembers (old new : Parsed) :
    (subjects (delMembers old.toSnapshot new.toSnapshot)).Nodup ∧
      ∀ x ∈ subjects (delMembers old.toSnapshot new.toSnapshot), ∃ m g, x = .member m g := by
  refine ⟨nodup_flatMap_members new.groupsOnce _, fun x hx => ?_⟩
  obtain ⟨m, g, rfl, -⟩ := mem_delMembers.mp hx
  exact ⟨m, g, rfl⟩

theorem sort_pathItems {item : String → Item} {make : String → Subject}
    (hitem : ∀ path, (item path).subject = make path) (hinj : Function.Injective make)
    (old : List (String × String)) {new : List (String × String)} (h : (Dict.keys new).Nodup) :
    (subjects (pathItems item old new)).Nodup ∧
      ∀ x ∈ subjects (pathItems item old new), ∃ path, x = make path := by
  refine ⟨nodup_pathItems hitem hinj old h, fun x hx => ?_⟩
  obtain ⟨path, rfl, -⟩ := (mem_pathItems hitem).mp hx
  exact ⟨path, rfl⟩

theorem sort_unitItems (old new : List String) : (subjects (unitItems old new)).Nodup ∧
    ∀ x ∈ subjects (unitItems old new), ∃ name, x = .unit name := by
  refine ⟨nodup_unitItems old new, fun x hx => ?_⟩
  obtain ⟨name, rfl, -⟩ := mem_unitItems.mp hx
  exact ⟨name, rfl⟩

theorem subject_sudoers (path : String) : (Item.sudoers path).subject = .sudoers path := rfl

theorem subject_cron (path : String) : (Item.cron path).subject = .cron path := rfl

theorem sudoers_inj : Function.Injective Subject.sudoers := fun _ _ he => Subject.sudoers.inj he

theorem cron_inj : Function.Injective Subject.cron := fun _ _ he => Subject.cron.inj he

theorem nodup_adds (old new : Parsed) :
    (subjects (adds old.toSnapshot new.toSnapshot)).Nodup :=
  nodup_sorts (sort_keyItems _ _) (sort_userItems _ _) (sort_addMembers old new)
    (sort_pathItems subject_sudoers sudoers_inj _ new.filesOnce)
    (sort_pathItems subject_cron cron_inj _ new.cronOnce) (sort_unitItems _ _)

theorem nodup_dels (old new : Parsed) :
    (subjects (dels old.toSnapshot new.toSnapshot)).Nodup :=
  nodup_sorts (sort_keyItems _ _) (sort_userItems _ _) (sort_delMembers old new)
    (sort_pathItems subject_sudoers sudoers_inj _ old.filesOnce)
    (sort_pathItems subject_cron cron_inj _ old.cronOnce) (sort_unitItems _ _)

theorem subjects_append (items more : List Item) :
    subjects (items ++ more) = subjects items ++ subjects more := List.map_append

theorem mem_adds {old new : Parsed} {x : Subject} :
    x ∈ subjects (adds old.toSnapshot new.toSnapshot) ↔
      Present new.toSnapshot x ∧ ¬Present old.toSnapshot x := by
  unfold adds
  simp only [subjects_append, List.mem_append, mem_keyItems, mem_userItems, mem_addMembers,
    mem_pathItems subject_sudoers, mem_pathItems subject_cron, mem_unitItems]
  cases x <;> simp [Present]

/-- The members of a group that the new snapshot lacks are the only ones that go unsaid. -/
theorem mem_dels {old new : Parsed} {x : Subject} :
    x ∈ subjects (dels old.toSnapshot new.toSnapshot) ↔
      (Present old.toSnapshot x ∧ ¬Present new.toSnapshot x) ∧
        ∀ m g, x = .member m g → g ∈ Dict.keys new.groups := by
  unfold dels
  simp only [subjects_append, List.mem_append, mem_keyItems, mem_userItems, mem_delMembers,
    mem_pathItems subject_sudoers, mem_pathItems subject_cron, mem_unitItems]
  cases x with
  | member m g =>
    simp only [reduceCtorEq, false_and, exists_false, Subject.member.injEq, or_false, false_or]
    constructor
    · rintro ⟨m, g, ⟨rfl, rfl⟩, hg, hgone⟩
      refine ⟨hgone, ?_⟩
      rintro m' g' ⟨rfl, rfl⟩
      exact hg
    · rintro ⟨hgone, hg⟩
      exact ⟨m, g, ⟨rfl, rfl⟩, hg m g ⟨rfl, rfl⟩, hgone⟩
  | _ => simp [Present]

theorem mod_diff (old new : Snapshot) :
    acts "mod" (diff old new) =
      acts "mod" (newUsers old new) ++
        ((changedPaths old.files new.files).map fun path =>
          ⟨"sudo", "mod", "изменен " ++ path, true, "", false⟩) ++
        (changedPaths old.cron new.cron).map fun path =>
          ⟨"cron", "mod", "изменен крон " ++ path, false, "", false⟩ := by
  have hgroups : acts "mod" (diffGroups old new) = [] := by
    rw [diffGroups_eq, acts_flatMap]
    simp only [acts_append, mod_added, mod_removed, List.append_nil, List.flatMap_eq_nil_iff,
      implies_true]
  unfold diff
  rw [diffKeys_eq, diffUsers_eq, diffSudoers_eq, diffCron_eq, diffUnits_eq]
  simp only [acts_append, mod_added, mod_removed, mod_newFiles, hgroups, List.append_nil,
    List.nil_append]

theorem mem_changedPaths {old new : List (String × String)} (hold : (Dict.keys old).Nodup)
    {path : String} :
    path ∈ changedPaths old new ↔ ∃ h h', (path, h) ∈ new ∧ (path, h') ∈ old ∧ h' ≠ h := by
  unfold changedPaths
  constructor
  · intro hin
    obtain ⟨p, hp, rfl⟩ := List.mem_map.mp hin
    obtain ⟨hnew, hne⟩ := List.mem_filter.mp hp
    cases hl : old.lookup p.1 with
    | none =>
      rw [hl] at hne
      cases hne
    | some h' =>
      rw [hl] at hne
      exact ⟨p.2, h', hnew, Dict.mem_of_lookup hl, by simpa using hne⟩
  · rintro ⟨h, h', hnew, hin, hne⟩
    refine List.mem_map.mpr ⟨(path, h), List.mem_filter.mpr ⟨hnew, ?_⟩, rfl⟩
    rw [Dict.lookup_of_mem hold hin]
    simpa using hne

theorem nodup_changedPaths {old new : List (String × String)} (h : (Dict.keys new).Nodup) :
    (changedPaths old new).Nodup :=
  h.sublist (List.filter_sublist.map Prod.fst)

/-! ## When the difference is complete -/

/-- The elements of the events are those that came and those that went, and what came is
what the difference the other way has gone. -/
structure Complete (old new : Snapshot) : Prop where
  added : ∀ x, x ∈ subjects (adds old new) ↔ Present new x ∧ ¬Present old x
  removed : ∀ x, x ∈ subjects (dels old new) ↔ Present old x ∧ ¬Present new x
  mirrored : ∀ x, x ∈ subjects (adds old new) ↔ x ∈ subjects (dels new old)

/-- A group with members in one of the snapshots is in the other one too. -/
def SameGroups (old new : Snapshot) : Prop :=
  ∀ m g, (Present old (.member m g) → g ∈ Dict.keys new.groups) ∧
    (Present new (.member m g) → g ∈ Dict.keys old.groups)

theorem group_of_present {snap : Snapshot} {m g : String} (h : Present snap (.member m g)) :
    g ∈ Dict.keys snap.groups := by
  obtain ⟨ms, hms, -⟩ := h
  exact List.mem_map.mpr ⟨(g, ms), hms, rfl⟩

theorem complete_iff (old new : Parsed) :
    Complete old.toSnapshot new.toSnapshot ↔ SameGroups old.toSnapshot new.toSnapshot := by
  constructor
  · intro hc m g
    constructor
    · intro hold
      by_cases hnew : Present new.toSnapshot (.member m g)
      · exact group_of_present hnew
      · exact (mem_dels.mp ((hc.removed _).mpr ⟨hold, hnew⟩)).2 m g rfl
    · intro hnew
      by_cases hold : Present old.toSnapshot (.member m g)
      · exact group_of_present hold
      · exact (mem_dels.mp ((hc.mirrored _).mp (mem_adds.mpr ⟨hnew, hold⟩))).2 m g rfl
  · intro hs
    refine ⟨fun x => mem_adds, fun x => ?_, fun x => ?_⟩
    · rw [mem_dels, and_iff_left_iff_imp]
      rintro ⟨hold, -⟩ m g rfl
      exact (hs m g).1 hold
    · rw [mem_adds, mem_dels]
      refine ⟨fun h => ⟨h, ?_⟩, fun h => h.1⟩
      rintro m g rfl
      exact (hs m g).2 h.1

/-- The `add` and `del` events are one for each element of `adds` and `dels`, without
repetition; a path with another hash has one `mod` event. The difference is complete exactly
if no group with members is missing as a whole. -/
theorem diff_is_complete_iff (old new : Parsed) :
    acts "add" (diff old.toSnapshot new.toSnapshot) =
        (adds old.toSnapshot new.toSnapshot).map Item.added ∧
      (subjects (adds old.toSnapshot new.toSnapshot)).Nodup ∧
      acts "del" (diff old.toSnapshot new.toSnapshot) =
        (dels old.toSnapshot new.toSnapshot).map Item.removed ∧
      (subjects (dels old.toSnapshot new.toSnapshot)).Nodup ∧
      acts "mod" (diff old.toSnapshot new.toSnapshot) =
        acts "mod" (newUsers old.toSnapshot new.toSnapshot) ++
          ((changedPaths old.files new.files).map fun path =>
            ⟨"sudo", "mod", "изменен " ++ path, true, "", false⟩) ++
          ((changedPaths old.cron new.cron).map fun path =>
            ⟨"cron", "mod", "изменен крон " ++ path, false, "", false⟩) ∧
      ((changedPaths old.files new.files).Nodup ∧ ∀ path, path ∈ changedPaths old.files new.files ↔
        ∃ h h', (path, h) ∈ new.files ∧ (path, h') ∈ old.files ∧ h' ≠ h) ∧
      ((changedPaths old.cron new.cron).Nodup ∧ ∀ path, path ∈ changedPaths old.cron new.cron ↔
        ∃ h h', (path, h) ∈ new.cron ∧ (path, h') ∈ old.cron ∧ h' ≠ h) ∧
      (Complete old.toSnapshot new.toSnapshot ↔ SameGroups old.toSnapshot new.toSnapshot) :=
  ⟨add_diff _ _, nodup_adds old new, del_diff _ _, nodup_dels old new, mod_diff _ _,
    ⟨nodup_changedPaths new.filesOnce, fun _ => mem_changedPaths old.filesOnce⟩,
    ⟨nodup_changedPaths new.cronOnce, fun _ => mem_changedPaths old.cronOnce⟩,
    complete_iff old new⟩

/-! ## A group that is gone -/

/-- The group `wheel` has one member, and then there is no such group. -/
def withWheel : Parsed where
  ts := 0
  groups := [("wheel", ["bob"])]
  groupsOnce := by decide
  filesOnce := by decide
  cronOnce := by decide

def withoutWheel : Parsed where
  ts := sec 600
  groupsOnce := by decide
  filesOnce := by decide
  cronOnce := by decide

/-- Bob has lost his rights, and no event says so; the other way it says that he got them. -/
theorem a_group_goes_unsaid :
    ¬Complete withWheel.toSnapshot withoutWheel.toSnapshot ∧
      diff withWheel.toSnapshot withoutWheel.toSnapshot = [] ∧
      diff withoutWheel.toSnapshot withWheel.toSnapshot =
        [⟨"sudo", "add", "bob добавлен в группу wheel", true, "", false⟩] := by
  refine ⟨fun hc => ?_, by decide +kernel, by decide +kernel⟩
  have hgone := (hc.removed (.member "bob" "wheel")).mpr
    ⟨⟨["bob"], by decide, by decide⟩, by simp [Present, withoutWheel]⟩
  revert hgone
  decide +kernel

end Kervax.AccessDiff
