-- The passes of `merge_storm`: the groups by key, the big ones, what is
-- dropped, and the origins. They agree with the storm of each message, and so
-- cut the batch into parts.
import Kervax.DispatchLaws
import Kervax.Grouping

namespace Kervax

open Grouping

/-! ## The passes -/

/-- `{messages[i].target for i in idx}`. -/
def targetsOf (ms : List Msg) (idx : List Nat) : List String :=
  (idx.filterMap fun j => ms[j]?.map (·.target)).eraseDups

/-- `big`: the groups with enough servers, under their first index. -/
def bigGroups (w : Wording) (ms : List Msg) : List (Nat × List Nat) :=
  (groupsBy (fun i => ms[i]?.bind (stormKey w)) (List.range ms.length)).filterMap fun g =>
    if stormMin ≤ (targetsOf ms g.2).length then g.2.head?.map fun i => (i, g.2) else none

/-- `drop`: what goes out in the message of another index. -/
def dropSet (w : Wording) (ms : List Msg) : List Nat :=
  (bigGroups w ms).flatMap fun p => p.2.tail

/-- `merge_storm`, pass by pass: the messages and their `origins`. -/
def mergePasses (w : Wording) (ms : List Msg) : List Msg × List (List Nat) :=
  let big := bigGroups w ms
  let left := (List.range ms.length).filter fun i => i ∉ dropSet w ms
  (if big = [] then ms
    else left.map fun i =>
      match big.lookup i with
      | some idx => stormMsg w (idx.map fun j => ms.getD j default)
      | none => ms.getD i default,
    left.map fun i => (big.lookup i).getD [i])

/-! ## The passes agree -/

variable (w : Wording) (ms : List Msg)

/-- A big group is the storm of its first message. -/
theorem mem_bigGroups {i : Nat} {idx : List Nat} :
    (i, idx) ∈ bigGroups w ms ↔ bigAt w ms i = some idx ∧ idx.head? = some i := by
  simp only [bigGroups, List.mem_filterMap]
  constructor
  · rintro ⟨⟨k, l⟩, hg, hout⟩
    obtain ⟨-, hl⟩ := mem_groupsBy.1 hg
    split at hout
    · rename_i hmin
      simp only [Option.map_eq_some_iff] at hout
      obtain ⟨a, ha, heq⟩ := hout
      obtain ⟨rfl, rfl⟩ := Prod.mk.inj heq
      have hl' : l = stormGroup w ms k := hl
      have hmem : a ∈ stormGroup w ms k := hl' ▸ List.mem_of_head? ha
      refine ⟨?_, ha⟩
      simp only [bigAt, ((mem_stormGroup w ms).1 hmem).2, ← hl']
      exact if_pos hmin
    · cases hout
  · rintro ⟨hbig, hhead⟩
    obtain ⟨k, hk, rfl⟩ := bigAt_eq_some w ms hbig
    refine ⟨(k, stormGroup w ms k), mem_groupsBy.2 ⟨?_, rfl⟩, ?_⟩
    · exact List.ne_nil_of_mem (List.mem_of_head? hhead)
    · unfold bigAt at hbig
      simp only [hk] at hbig
      split at hbig
      · rename_i hmin
        refine (if_pos hmin).trans ?_
        simp [hhead]
      · cases hbig

theorem lookup_bigGroups (i : Nat) :
    (bigGroups w ms).lookup i =
      if (bigAt w ms i).bind List.head? = some i then bigAt w ms i else none := by
  cases hl : (bigGroups w ms).lookup i with
  | some idx =>
    obtain ⟨l₁, l₂, heq, -⟩ := List.lookup_eq_some_iff.1 hl
    have hin : (i, idx) ∈ bigGroups w ms := by simp [heq]
    obtain ⟨hbig, hhead⟩ := (mem_bigGroups w ms).1 hin
    simp [hbig, hhead]
  | none =>
    split
    · rename_i h
      obtain ⟨idx, hbig, hhead⟩ := Option.bind_eq_some_iff.1 h
      have hin := (mem_bigGroups w ms).2 ⟨hbig, hhead⟩
      have := List.lookup_eq_none_iff.1 hl _ hin
      simp at this
    · rfl

theorem nodup_stormGroup (k : String × String × String × Bool × String) :
    (stormGroup w ms k).Nodup :=
  List.nodup_range.filter _

theorem mem_dropSet {i : Nat} : i ∈ dropSet w ms ↔ dropped w ms i = true := by
  simp only [dropSet, List.mem_flatMap]
  constructor
  · rintro ⟨⟨h, idx⟩, hin, hi⟩
    obtain ⟨hbig, hhead⟩ := (mem_bigGroups w ms).1 hin
    obtain ⟨k, -, hidx⟩ := bigAt_eq_some w ms hbig
    have hnd : idx.Nodup := hidx ▸ nodup_stormGroup w ms k
    cases idx with
    | nil => cases hhead
    | cons a l =>
      cases hhead
      have hne : h ≠ i := fun he => (List.nodup_cons.1 hnd).1 (he ▸ hi)
      simp [dropped, bigAt_mem w ms hbig (List.mem_cons_of_mem _ hi), hne]
  · intro hd
    unfold dropped at hd
    split at hd
    · cases hd
    · rename_i idx hbig
      have hi := mem_of_bigAt w ms hbig
      cases idx with
      | nil => cases hi
      | cons a l =>
        refine ⟨(a, a :: l), (mem_bigGroups w ms).2 ⟨bigAt_mem w ms hbig (by simp), rfl⟩, ?_⟩
        have hne : a ≠ i := by simpa using hd
        exact (List.mem_cons.1 hi).resolve_left fun he => hne he.symm

theorem left_eq_kept :
    ((List.range ms.length).filter fun i => i ∉ dropSet w ms) = kept w ms := by
  unfold kept
  congr 1
  funext i
  cases hd : dropped w ms i with
  | true => simpa using (mem_dropSet w ms).2 hd
  | false => simpa using fun h => Bool.false_ne_true (hd.symm.trans ((mem_dropSet w ms).1 h))

/-- What is left is alone, or the first of its storm. -/
theorem lookup_of_kept {i : Nat} (hi : i ∈ kept w ms) :
    (bigGroups w ms).lookup i = bigAt w ms i := by
  rw [lookup_bigGroups]
  cases hb : bigAt w ms i with
  | none => rfl
  | some idx => simp [kept_head w ms hi hb]

theorem bigAt_of_no_big (h : bigGroups w ms = []) (i : Nat) : bigAt w ms i = none := by
  cases hb : bigAt w ms i with
  | none => rfl
  | some idx =>
    have hi := mem_of_bigAt w ms hb
    cases idx with
    | nil => cases hi
    | cons a l =>
      have hin := (mem_bigGroups w ms).2 ⟨bigAt_mem w ms hb (List.mem_cons_self), rfl⟩
      rw [h] at hin
      cases hin

/-- The passes compute the storm of each message. -/
theorem mergePasses_eq : mergePasses w ms = (mergeStorm w ms, origins w ms) := by
  simp only [mergePasses, left_eq_kept, Prod.mk.injEq]
  constructor
  · split
    · rename_i hno
      have hk : kept w ms = List.range ms.length := by
        simp [kept, dropped, bigAt_of_no_big w ms hno]
      apply List.ext_getElem
      · simp [mergeStorm, hk]
      · intro i h₁ h₂
        simp [mergeStorm, hk, bigAt_of_no_big w ms hno, h₁]
    · refine List.map_congr_left fun i hi => ?_
      cases hb : bigAt w ms i <;> simp [lookup_of_kept w ms hi, hb]
  · exact List.map_congr_left fun i hi => by rw [lookup_of_kept w ms hi]

/-! ## The parts -/

/-- Every index is in exactly one part. -/
theorem origins_perm : (origins w ms).flatten.Perm (List.range ms.length) := by
  have hget : ∀ p (hp : p < (origins w ms).length), (origins w ms)[p] = block w ms p := by
    intro p hp
    simp [block, hp]
  refine (List.perm_ext_iff_of_nodup ?_ List.nodup_range).2 fun j => ?_
  · refine List.nodup_flatten.2 ⟨fun l hl => ?_, ?_⟩
    · obtain ⟨i, -, rfl⟩ := List.mem_map.1 hl
      cases hb : bigAt w ms i with
      | none => simp
      | some idx =>
        obtain ⟨k, -, rfl⟩ := bigAt_eq_some w ms hb
        exact nodup_stormGroup w ms k
    · refine List.pairwise_iff_getElem.2 fun p q hp hq hlt j hjp hjq => ?_
      rw [hget p hp] at hjp
      rw [hget q hq] at hjq
      rw [origins_length] at hp hq
      exact hlt.ne (block_unique w ms hp hq hjp hjq)
  · rw [List.mem_flatten, List.mem_range]
    constructor
    · rintro ⟨l, hl, hj⟩
      obtain ⟨p, hp, rfl⟩ := List.getElem_of_mem hl
      rw [hget p hp] at hj
      exact block_lt w ms (origins_length w ms ▸ hp) hj
    · intro hj
      obtain ⟨p, hp, hin⟩ := exists_block w ms hj
      have hp' : p < (origins w ms).length := (origins_length w ms).symm ▸ hp
      exact ⟨_, List.getElem_mem hp', (hget p hp').symm ▸ hin⟩

/-- The first index of a part is the one that was kept. -/
theorem origins_heads : (origins w ms).map List.head? = (kept w ms).map some := by
  rw [origins, List.map_map]
  refine List.map_congr_left fun i hi => ?_
  cases hb : bigAt w ms i with
  | none => simp [hb]
  | some idx => simpa [hb] using kept_head w ms hi hb

theorem kept_sorted : (kept w ms).Pairwise (· < ·) := List.pairwise_lt_range.filter _

/-- A storm has enough servers, so more than one message. -/
theorem bigAt_targets {i : Nat} {idx : List Nat} (h : bigAt w ms i = some idx) :
    stormMin ≤ (targetsOf ms idx).length ∧ 1 < idx.length := by
  have hmin : stormMin ≤ (targetsOf ms idx).length := by
    unfold bigAt at h
    split at h
    · cases h
    · dsimp only at h
      split at h
      · cases h
        assumption
      · cases h
  refine ⟨hmin, ?_⟩
  rcases idx with _ | ⟨a, _ | ⟨b, l⟩⟩
  · simp [targetsOf, stormMin] at hmin
  · cases ha : ms[a]? <;> simp [targetsOf, stormMin, List.eraseDups_cons, ha] at hmin
  · simp

theorem stormKey_fields {m : Msg} {k : String × String × String × Bool × String}
    (h : stormKey w m = some k) : k = (m.kind, m.sect, m.group, m.recovery, w.norm m) := by
  unfold stormKey at h
  split at h
  · cases h
  · cases hr : m.ref <;> simp only [hr] at h <;> grind

theorem origins_getElem? {k : Nat} {idx : List Nat} (h : (origins w ms)[k]? = some idx) :
    ∃ i ∈ kept w ms, (kept w ms)[k]? = some i ∧ (bigAt w ms i).getD [i] = idx := by
  rw [origins, List.getElem?_map, Option.map_eq_some_iff] at h
  obtain ⟨i, hi, rfl⟩ := h
  exact ⟨i, List.mem_of_getElem? hi, hi, rfl⟩

theorem mergeStorm_getElem? {k i : Nat} (h : (kept w ms)[k]? = some i) :
    (mergeStorm w ms)[k]? = some (match bigAt w ms i with
      | some idx => stormMsg w (idx.map fun j => ms.getD j default)
      | none => ms.getD i default) := by
  rw [mergeStorm, List.getElem?_map, h]
  rfl

/-- A storm is made of messages of one key. -/
theorem storm_parts {i : Nat} {idx : List Nat} (h : bigAt w ms i = some idx) :
    ∃ key, idx.Pairwise (· < ·) ∧ ∀ j ∈ idx, ∃ p, ms[j]? = some p ∧ stormKey w p = some key := by
  obtain ⟨key, -, rfl⟩ := bigAt_eq_some w ms h
  refine ⟨key, List.pairwise_lt_range.filter _, fun j hj => ?_⟩
  obtain ⟨p, hp, hkey⟩ := Option.bind_eq_some_iff.1 ((mem_stormGroup w ms).1 hj).2
  exact ⟨p, hp, hkey⟩

/-- The storm of one key has the fields of each of its messages. -/
theorem stormMsg_fields {key : String × String × String × Bool × String} {ps : List Msg}
    (h : ∀ p ∈ ps, stormKey w p = some key) {p : Msg} (hp : p ∈ ps) :
    p.kind = (stormMsg w ps).kind ∧ p.sect = (stormMsg w ps).sect ∧
      p.group = (stormMsg w ps).group ∧ p.recovery = (stormMsg w ps).recovery := by
  cases ps with
  | nil => cases hp
  | cons q ps =>
    have hq := stormKey_fields w (h q (by simp))
    have hp' := stormKey_fields w (h p hp)
    rw [hq] at hp'
    simp only [Prod.mk.injEq] at hp'
    exact ⟨hp'.1.symm, hp'.2.1.symm, hp'.2.2.1.symm, hp'.2.2.2.1.symm⟩

/-- `merge_storm` cuts the batch into parts, in the order of their first
messages. A part of one message is that message; a longer one is a storm: one
key, enough servers, and the messages as its parts. -/
theorem mergePasses_partition :
    (mergePasses w ms).1.length = (mergePasses w ms).2.length ∧
      (mergePasses w ms).2.flatten.Perm (List.range ms.length) ∧
      (∃ heads : List Nat, (mergePasses w ms).2.map List.head? = heads.map some ∧
        heads.Pairwise (· < ·)) ∧
      (∀ k i : Nat, (mergePasses w ms).2[k]? = some [i] →
        ∃ m, ms[i]? = some m ∧ (mergePasses w ms).1[k]? = some m) ∧
      (∀ (k : Nat) (idx : List Nat), (mergePasses w ms).2[k]? = some idx → idx.length ≠ 1 →
        ∃ key m ps, (mergePasses w ms).1[k]? = some m ∧
          idx.Pairwise (· < ·) ∧ idx.map (fun j => ms[j]?) = ps.map some ∧
          (∀ p ∈ ps, stormKey w p = some key) ∧
          (∀ p ∈ ps, p.kind = m.kind ∧ p.sect = m.sect ∧ p.group = m.group ∧
            p.recovery = m.recovery) ∧
          stormMin ≤ (ps.map (·.target)).eraseDups.length ∧
          m = stormMsg w ps ∧ m.parts = ps.map Msg.part) := by
  rw [mergePasses_eq]
  refine ⟨by rw [mergeStorm_length, origins_length], origins_perm w ms,
    ⟨kept w ms, origins_heads w ms, kept_sorted w ms⟩, fun k i hk => ?_, fun k idx hk hlen => ?_⟩
  · obtain ⟨a, ha, hka, hparts⟩ := origins_getElem? w ms hk
    have hout := mergeStorm_getElem? w ms hka
    cases hb : bigAt w ms a with
    | some idx =>
      rw [hb] at hparts
      have hlong := (bigAt_targets w ms hb).2
      rw [show idx = [i] from hparts] at hlong
      simp at hlong
    | none =>
      rw [hb] at hparts
      cases hparts
      have hlt : i < ms.length := ((mem_kept w ms).1 ha).1
      refine ⟨ms[i], List.getElem?_eq_getElem hlt, ?_⟩
      rw [hout, hb]
      simp [hlt]
  · obtain ⟨a, ha, hka, hparts⟩ := origins_getElem? w ms hk
    have hout := mergeStorm_getElem? w ms hka
    cases hb : bigAt w ms a with
    | none =>
      rw [hb] at hparts
      cases hparts
      exact absurd rfl hlen
    | some l =>
      rw [hb] at hparts
      obtain rfl : l = idx := hparts
      obtain ⟨key, hsorted, hall⟩ := storm_parts w ms hb
      have hget : ∀ j ∈ l, ms[j]? = some (ms.getD j default) ∧
          stormKey w (ms.getD j default) = some key := by
        intro j hj
        obtain ⟨p, hp, hkey⟩ := hall j hj
        have heq : ms.getD j default = p := by simp [List.getD_eq_getElem?_getD, hp]
        exact ⟨by rw [hp, heq], by rw [heq, hkey]⟩
      have hps : ∀ p ∈ l.map fun j => ms.getD j default, stormKey w p = some key := by
        intro p hp
        obtain ⟨j, hj, rfl⟩ := List.mem_map.1 hp
        exact (hget j hj).2
      refine ⟨key, _, _, by rw [hout, hb], hsorted, ?_, hps, fun p hp => stormMsg_fields w hps hp, ?_,
        rfl, rfl⟩
      · rw [List.map_map]
        exact List.map_congr_left fun j hj => (hget j hj).1
      · have htargets : targetsOf ms l = ((l.map fun j => ms.getD j default).map
            (·.target)).eraseDups := by
          unfold targetsOf
          congr 1
          rw [List.map_map, ← List.filterMap_eq_map]
          exact List.filterMap_congr fun j hj => by rw [(hget j hj).1]; rfl
        rw [← htargets]
        exact (bigAt_targets w ms hb).1

end Kervax
