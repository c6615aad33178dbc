-- A list of packages arrives whole or not at all: whatever parts of whatever lists come, late,
-- twice, out of order or never, the panel holds no list that the agent did not have, and does
-- not ask for one that it holds.
import Kervax.PackageList
import Mathlib.Data.List.Perm.Subperm

namespace Kervax.Packages

/-! ## Parts and the list -/

/-- What the panel keeps of a list. -/
def kept (items : List Pkg) : List Pkg := (uploaded items).map fun x => (cut 200 x.1, cut 200 x.2)

/-- What the panel keeps of a part. -/
def keptPart (items : List Pkg) (i : Nat) : List Pkg :=
  (chunk items i).map fun x => (cut 200 x.1, cut 200 x.2)

theorem partsOf_pos (items : List Pkg) : 0 < partsOf items := by
  unfold partsOf
  omega

theorem pairs_chunk (items : List Pkg) (i : Nat) :
    pairs ((chunk items i).map fun x => [x.1, x.2]) = keptPart items i := by
  unfold pairs keptPart
  rw [List.filterMap_map]
  exact List.filterMap_eq_map_iff_forall_eq_some.mpr fun _ _ => rfl

theorem flatMap_chunks {α : Type} (l : List α) (n k : Nat) :
    ((List.range k).flatMap fun i => (l.drop (i * n)).take n) = l.take (k * n) := by
  induction k with
  | zero => simp
  | succ k ih =>
    rw [List.range_succ, List.flatMap_append, ih, List.flatMap_singleton, Nat.add_mul, Nat.one_mul,
      List.take_add]

/-- The parts in their order are the list. -/
theorem flatMap_keptPart (items : List Pkg) :
    (List.range (partsOf items)).flatMap (keptPart items) = kept items := by
  have hlen : (uploaded items).length ≤ partsOf items * pkgChunk := by
    unfold partsOf pkgChunk
    omega
  have hmap := congrArg (List.map fun x : Pkg => (cut 200 x.1, cut 200 x.2))
    (flatMap_chunks (uploaded items) pkgChunk (partsOf items))
  rw [List.map_flatMap, List.take_of_length_le hlen] at hmap
  exact hmap

/-- As many different numbers below `n` as `n` are all of them. -/
theorem mem_of_full {l : List Nat} {n : Nat} (hnodup : l.Nodup) (hlt : ∀ i ∈ l, i < n)
    (hlen : n ≤ l.length) {i : Nat} (hi : i < n) : i ∈ l := by
  have hsub : l ⊆ List.range n := fun j hj => List.mem_range.mpr (hlt j hj)
  have hperm : l.Perm (List.range n) :=
    (List.subperm_of_subset hnodup hsub).perm_of_length_le (by simpa using hlen)
  exact hperm.mem_iff.mpr (List.mem_range.mpr hi)

/-! ## What every part keeps -/

/-- The fingerprint of a list: 16 characters that tell the lists of the server apart. -/
structure Fingerprint (H : List Pkg → String) (known : List (List Pkg)) : Prop where
  tells : ∀ a ∈ known, ∀ b ∈ known, H a = H b → a = b
  size : ∀ a ∈ known, (H a).toList.length = 16

/-- The part is one that the agent sent of a list that it had. -/
def Genuine (H : List Pkg → String) (known : List (List Pkg)) (m : Part) : Prop :=
  ∃ items ∈ known, ∃ mgr, m ∈ uploadPkgs (H items) mgr items

variable {H : List Pkg → String} {known : List (List Pkg)}

theorem mem_uploadPkgs {h mgr : String} {items : List Pkg} {m : Part} :
    m ∈ uploadPkgs h mgr items ↔ ∃ i < partsOf items, m = partOf h mgr items i := by
  simp [uploadPkgs, eq_comm]

/-- What was collected under a fingerprint is parts of the list. -/
structure Collects (h : String) (items : List Pkg) (p : Pending) : Prop where
  h : p.h = h
  parts : p.parts = partsOf items
  nodup : (Dict.keys p.got).Nodup
  got : ∀ x ∈ p.got, x.1 < partsOf items ∧ x.2 = keptPart items x.1

/-- What the panel holds, and what it collects, are lists of the agent. -/
structure Faithful (H : List Pkg → String) (known : List (List Pkg)) (s : Store) : Prop where
  held : s.pkgHash = "" ∨ ∃ items ∈ known, s.pkgHash = H items ∧ s.items = kept items
  pending : ∀ p, s.pending = some p → ∃ items ∈ known, Collects (H items) items p

theorem faithful_new : Faithful H known .new :=
  ⟨.inl rfl, by simp [Store.new]⟩

/-- What the panel collects for a part is parts of its list. -/
theorem collects_pendingFor (hH : Fingerprint H known) {s : Store} (hs : Faithful H known s)
    {items : List Pkg} (hin : items ∈ known) {m : Part} (hh : m.h = H items)
    (hparts : m.parts = partsOf items) : Collects (H items) items (pendingFor s m) := by
  have hempty : Collects (H items) items ⟨m.h, m.parts, m.mgr, []⟩ :=
    ⟨hh, hparts, by simp [Dict.keys], by simp⟩
  unfold pendingFor
  cases hp : s.pending with
  | none => exact hempty
  | some p =>
    simp only
    split
    · next hsame =>
      obtain ⟨other, hother, hc⟩ := hs.pending p hp
      obtain rfl := hH.tells other hother items hin (by rw [← hc.h, hsame.1, hh])
      exact hc
    · exact hempty

theorem Collects.put {h : String} {items : List Pkg} {p : Pending} (hc : Collects h items p) {i : Nat}
    (hi : i < partsOf items) :
    Collects h items { p with got := Dict.put p.got i (keptPart items i) } where
  h := hc.h
  parts := hc.parts
  nodup := Dict.nodup_put hc.nodup _ _
  got x hx := by
    rcases Dict.mem_put hx with hx | rfl
    · exact hc.got x hx
    · exact ⟨hi, rfl⟩

/-- All parts together are the list. -/
theorem Collects.full {h : String} {items : List Pkg} {p : Pending} (hc : Collects h items p)
    (hall : partsOf items ≤ p.got.length) :
    ((List.range (partsOf items)).flatMap fun i => (Dict.get p.got i).getD []) = kept items := by
  rw [← flatMap_keptPart, List.flatMap_def, List.flatMap_def]
  congr 1
  apply List.map_congr_left
  intro i hi
  have hkey : i ∈ Dict.keys p.got := by
    apply mem_of_full hc.nodup _ (by simpa [Dict.keys] using hall) (List.mem_range.mp hi)
    intro j hj
    obtain ⟨x, hx, rfl⟩ := List.mem_map.mp hj
    exact (hc.got x hx).1
  obtain ⟨x, hx, rfl⟩ := List.mem_map.mp hkey
  rw [Dict.get, Dict.lookup_of_mem hc.nodup hx, Option.getD_some, (hc.got x hx).2]

/-- What the panel makes of a part of a list. -/
theorem agentPackages_part (hH : Fingerprint H known) {s : Store} (hs : Faithful H known s)
    {items : List Pkg} (hin : items ∈ known) {mgr : String} {m : Part}
    (hm : m ∈ uploadPkgs (H items) mgr items) (reported : String) (now : Int) :
    (agentPackages s reported now m = s ∧ reported ≠ "" ∧ reported ≠ H items) ∨
    ∃ p, Collects (H items) items p ∧ m.part ∈ Dict.keys p.got ∧
      (∀ q, s.pending = some q → q.h = H items → q.parts = partsOf items →
        Dict.keys q.got ⊆ Dict.keys p.got) ∧
      ((p.got.length < partsOf items ∧ agentPackages s reported now m = { s with pending := some p }) ∨
       agentPackages s reported now m = .whole (H items) mgr (kept items) now) := by
  obtain ⟨i, hi, rfl⟩ := mem_uploadPkgs.mp hm
  set m := partOf (H items) mgr items i with hmdef
  have hc := collects_pendingFor hH hs hin (m := m) rfl rfl
  have hput := hc.put hi
  unfold agentPackages storePart
  rw [if_neg (show ¬ m.parts ≤ m.part from Nat.not_le.mpr hi)]
  split
  · next hother => exact .inl ⟨rfl, hother⟩
  · right
    simp only [hmdef, partOf, pairs_chunk] at hput ⊢
    refine ⟨_, hput, ?_, ?_, ?_⟩
    · simp only [Dict.keys_put]
      split <;> simp_all
    · intro q hq hqh hqp k hk
      have hsame : pendingFor s m = q := by
        simp [pendingFor, hq, hqh, hqp, hmdef, partOf]
      simp only [hmdef, partOf] at hsame
      rw [hsame]
      simp only [Dict.keys_put]
      split <;> simp [hk]
    · split
      · next hlt => exact .inl ⟨hlt, rfl⟩
      · next hge =>
        have hfull := hput.full (not_lt.mp hge)
        simp only at hfull
        rw [hfull]
        exact .inr rfl

theorem faithful_step (hH : Fingerprint H known) {s : Store} (hs : Faithful H known s) {m : Part}
    (hm : Genuine H known m) (reported : String) (now : Int) :
    Faithful H known (agentPackages s reported now m) := by
  obtain ⟨items, hin, mgr, hm⟩ := hm
  rcases agentPackages_part hH hs hin hm reported now with ⟨heq, -⟩ | ⟨p, hc, -, -, ⟨-, heq⟩ | heq⟩
  · rwa [heq]
  · rw [heq]
    refine ⟨hs.held, fun q hq => ?_⟩
    obtain rfl : p = q := by simpa using hq
    exact ⟨items, hin, hc⟩
  · rw [heq]
    exact ⟨.inr ⟨items, hin, rfl, rfl⟩, by simp [Store.whole]⟩

/-! ## Every order of parts -/

/-- A part that comes: the fingerprint of the last report, the time, and the part. -/
abbrev Delivery := String × Int × Part

/-- The row after the parts. -/
def received (s : Store) (ds : List Delivery) : Store :=
  ds.foldl (fun s d => agentPackages s d.1 d.2.1 d.2.2) s

theorem faithful_received (hH : Fingerprint H known) {s : Store} (hs : Faithful H known s)
    {ds : List Delivery} (hds : ∀ d ∈ ds, Genuine H known d.2.2) :
    Faithful H known (received s ds) := by
  induction ds generalizing s with
  | nil => exact hs
  | cons d ds ih =>
    exact ih (faithful_step hH hs (hds d (by simp)) d.1 d.2.1)
      fun x hx => hds x (List.mem_cons_of_mem _ hx)

/-- The list is there, or all the parts that came wait for the others. -/
def Gathered (h : String) (items : List Pkg) (s : Store) (ms : List Part) : Prop :=
  s.pkgHash = h ∨ ∃ p, s.pending = some p ∧ Collects h items p ∧ p.got.length < partsOf items ∧
    ∀ m ∈ ms, m.part ∈ Dict.keys p.got

/-- A delivery of a part of this list, under no report or a report of it. -/
def OfList (H : List Pkg → String) (items : List Pkg) (d : Delivery) : Prop :=
  (d.1 = "" ∨ d.1 = H items) ∧ ∃ mgr, d.2.2 ∈ uploadPkgs (H items) mgr items

theorem gathered_step (hH : Fingerprint H known) {s : Store} (hs : Faithful H known s)
    {items : List Pkg} (hin : items ∈ known) {d : Delivery} (hd : OfList H items d) {ms : List Part}
    (hg : Gathered (H items) items s ms) :
    Gathered (H items) items (agentPackages s d.1 d.2.1 d.2.2) (d.2.2 :: ms) := by
  obtain ⟨hrep, mgr, hm⟩ := hd
  rcases agentPackages_part hH hs hin hm d.1 d.2.1 with
    ⟨-, hne, hno⟩ | ⟨p, hc, hnew, hgrow, ⟨hlt, heq⟩ | heq⟩
  · exact absurd hrep (by simp [hne, hno])
  · rw [heq]
    rcases hg with hheld | ⟨q, hq, hcq, -, hall⟩
    · exact .inl hheld
    · refine .inr ⟨p, rfl, hc, hlt, ?_⟩
      intro m hm
      rcases List.mem_cons.mp hm with rfl | hm
      · exact hnew
      · exact hgrow q hq hcq.h hcq.parts (hall m hm)
  · rw [heq]
    exact .inl rfl

theorem gathered_received (hH : Fingerprint H known) {s : Store} (hs : Faithful H known s)
    {items : List Pkg} (hin : items ∈ known) {ds : List Delivery} (hds : ∀ d ∈ ds, OfList H items d)
    {ms : List Part} (hg : Gathered (H items) items s ms) :
    Gathered (H items) items (received s ds) ((ds.map (·.2.2)).reverse ++ ms) := by
  induction ds generalizing s ms with
  | nil => simpa [received] using hg
  | cons d ds ih =>
    have hd := hds d (by simp)
    obtain ⟨-, mgr, hm⟩ := id hd
    have hrest := ih (faithful_step hH hs ⟨items, hin, mgr, hm⟩ d.1 d.2.1)
      (fun x hx => hds x (List.mem_cons_of_mem _ hx)) (gathered_step hH hs hin hd hg)
    simpa [received] using hrest

/-- The first part of a list is gathered whatever was there before. -/
theorem gathered_first (hH : Fingerprint H known) {s : Store} (hs : Faithful H known s)
    {items : List Pkg} (hin : items ∈ known) {d : Delivery} (hd : OfList H items d) :
    Gathered (H items) items (agentPackages s d.1 d.2.1 d.2.2) [d.2.2] := by
  obtain ⟨hrep, mgr, hm⟩ := hd
  rcases agentPackages_part hH hs hin hm d.1 d.2.1 with
    ⟨-, hne, hno⟩ | ⟨p, hc, hnew, -, ⟨hlt, heq⟩ | heq⟩
  · exact absurd hrep (by simp [hne, hno])
  · rw [heq]
    exact .inr ⟨p, rfl, hc, hlt, by simpa using hnew⟩
  · rw [heq]
    exact .inl rfl

/-- Parts of which none is missing leave nothing to gather. -/
theorem Gathered.whole {h : String} {items : List Pkg} {s : Store} {ms : List Part}
    (hg : Gathered h items s ms) (hall : ∀ i < partsOf items, ∃ m ∈ ms, m.part = i) :
    s.pkgHash = h := by
  rcases hg with hheld | ⟨p, -, hc, hlt, hgot⟩
  · exact hheld
  · have hsub : List.range (partsOf items) ⊆ Dict.keys p.got := by
      intro i hi
      obtain ⟨m, hm, rfl⟩ := hall i (List.mem_range.mp hi)
      exact hgot m hm
    have hlen := (List.subperm_of_subset List.nodup_range hsub).length_le
    simp only [List.length_range, Dict.keys, List.length_map] at hlen
    omega

theorem wantPkgs_iff {s : Store} {h : String} (hlen : h.toList.length = 16) :
    wantPkgs s h = true ↔ s.pkgHash ≠ h := by
  have hne : h ≠ "" := by
    rintro rfl
    simp at hlen
  have hcut : cut 32 h = h := by
    unfold cut
    rw [List.take_of_length_le (by omega), String.ofList_toList]
  unfold wantPkgs
  rw [hcut]
  simp only [ne_eq, hne, not_false_eq_true, decide_true, Bool.true_and, decide_eq_true_eq]
  exact ne_comm

/-- Whatever parts of whatever lists came, lost, late, twice or out of order: when the panel does
not ask for a list of the agent, it holds that list. And after all the parts of a list, in any
order and any number of times, it does not ask for it. -/
theorem lists_arrive_whole (hH : Fingerprint H known) {ds : List Delivery}
    (hds : ∀ d ∈ ds, Genuine H known d.2.2) {items : List Pkg} (hin : items ∈ known) :
    (wantPkgs (received .new ds) (H items) = false → (received .new ds).items = kept items) ∧
    ∀ es : List Delivery, (∀ d ∈ es, OfList H items d) →
      (∀ i < partsOf items, ∃ d ∈ es, d.2.2.part = i) →
      wantPkgs (received .new (ds ++ es)) (H items) = false := by
  have hs := faithful_received hH faithful_new hds
  have hwant : ∀ s : Store, wantPkgs s (H items) = false ↔ s.pkgHash = H items := by
    intro s
    rw [← Bool.not_eq_true, wantPkgs_iff (hH.size items hin), not_not]
  constructor
  · intro hno
    rw [hwant] at hno
    rcases hs.held with hempty | ⟨other, hother, hhash, hitems⟩
    · have hsize := hH.size items hin
      rw [← hno, hempty] at hsize
      simp at hsize
    · rw [hitems, hH.tells other hother items hin (hhash.symm.trans hno)]
  · intro es hes hall
    rw [hwant]
    have happ : received .new (ds ++ es) = received (received .new ds) es := List.foldl_append
    rw [happ]
    cases es with
    | nil =>
      obtain ⟨d, hd, -⟩ := hall 0 (partsOf_pos items)
      cases hd
    | cons d es =>
      have hd := hes d (by simp)
      obtain ⟨-, mgr, hm⟩ := id hd
      have hg := gathered_received hH (faithful_step hH hs ⟨items, hin, mgr, hm⟩ d.1 d.2.1) hin
        (fun x hx => hes x (List.mem_cons_of_mem _ hx)) (gathered_first hH hs hin hd)
      refine hg.whole fun i hi => ?_
      obtain ⟨x, hx, rfl⟩ := hall i hi
      refine ⟨x.2.2, ?_, rfl⟩
      rcases List.mem_cons.mp hx with rfl | hx
      · simp
      · exact List.mem_append_left _ (List.mem_reverse.mpr (List.mem_map.mpr ⟨x, hx, rfl⟩))

/-- Two lists of a server, before and after an upgrade; they are sent in two parts each. -/
def manyPkgs (version : String) : List Pkg :=
  ("openssl", version) :: List.replicate 250 ("linux-image", "6.1")

def versionMark (items : List Pkg) : String :=
  match items with
  | (_, "3.0") :: _ => "0123456789abcdef"
  | _ => "fedcba9876543210"

def partAt (version : String) (now : Int) (i : Nat) : Delivery :=
  ("", now, partOf (versionMark (manyPkgs version)) "dpkg" (manyPkgs version) i)

theorem partsOf_manyPkgs (version : String) : partsOf (manyPkgs version) = 2 := by
  have hlen : (manyPkgs version).length = 251 := by
    unfold manyPkgs
    rw [List.length_cons, List.length_replicate]
  unfold partsOf uploaded
  rw [List.length_take, hlen]
  rfl

/-- A part of the old list comes late among the parts of the new one, which come again then. -/
theorem lists_arrive_whole_mixed :
    wantPkgs (received .new ([partAt "3.1" 5 0, partAt "3.0" 6 0] ++
      [partAt "3.1" 7 1, partAt "3.1" 8 0])) (versionMark (manyPkgs "3.1")) = false := by
  have hH : Fingerprint versionMark [manyPkgs "3.0", manyPkgs "3.1"] := by
    refine ⟨?_, ?_⟩
    · intro a ha b hb heq
      simp only [List.mem_cons, List.not_mem_nil, or_false] at ha hb
      rcases ha with rfl | rfl <;> rcases hb with rfl | rfl
      · rfl
      · exact absurd heq (by decide)
      · exact absurd heq (by decide)
      · rfl
    · intro a ha
      simp only [List.mem_cons, List.not_mem_nil, or_false] at ha
      rcases ha with rfl | rfl <;> decide
  have hsent : ∀ version i now, i < 2 →
      (partAt version now i).2.2 ∈ uploadPkgs (versionMark (manyPkgs version)) "dpkg"
        (manyPkgs version) := by
    intro version i now hi
    exact mem_uploadPkgs.mpr ⟨i, by rwa [partsOf_manyPkgs], rfl⟩
  have hknown : manyPkgs "3.1" ∈ [manyPkgs "3.0", manyPkgs "3.1"] := by simp
  refine (lists_arrive_whole hH ?_ hknown).2 _ ?_ ?_
  · intro d hd
    simp only [List.mem_cons, List.not_mem_nil, or_false] at hd
    rcases hd with rfl | rfl
    · exact ⟨manyPkgs "3.1", by simp, "dpkg", hsent _ 0 _ (by decide)⟩
    · exact ⟨manyPkgs "3.0", by simp, "dpkg", hsent _ 0 _ (by decide)⟩
  · intro d hd
    simp only [List.mem_cons, List.not_mem_nil, or_false] at hd
    rcases hd with rfl | rfl
    · exact ⟨.inl rfl, "dpkg", hsent _ 1 _ (by decide)⟩
    · exact ⟨.inl rfl, "dpkg", hsent _ 0 _ (by decide)⟩
  · intro i hi
    rw [partsOf_manyPkgs] at hi
    rcases Nat.le_one_iff_eq_zero_or_eq_one.mp (Nat.le_of_lt_succ hi) with rfl | rfl
    · exact ⟨partAt "3.1" 8 0, by simp, rfl⟩
    · exact ⟨partAt "3.1" 7 1, by simp, rfl⟩

end Kervax.Packages
