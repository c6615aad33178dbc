-- The folds of `_send_alerts` and the scopes of the rules. An alert that meets
-- a text of its site or its domain joins it before its own rule is looked at.
import Kervax.SiteAlerts
import Kervax.Grouping

namespace Kervax

open Grouping

variable {V : Type} (x : SiteCtx) (sw : SiteWords V)

/-! ## What the settings let through -/

/-- No mute, snooze, known problem or silent parent keeps the alert back. -/
def admitted (p : Pending V) : Bool :=
  !keptBack x p && (p.kind = .known || !keptBackFailure x p)

/-- The rule of the kind is on and reaches the monitor. A reminder of a known
problem has no rule. -/
def inScope (p : Pending V) : Bool := p.kind = .known || !ruleOff x p (groupOf x p)

/-- An alert that goes out on its own. -/
def passes (p : Pending V) : Bool := admitted x p && inScope x p

/-- What a text is looked up by. -/
inductive FoldKey
  | zone (z : String)
  | site (k : SiteKind × String × String)
deriving DecidableEq

def foldKey (p : Pending V) : Option FoldKey :=
  match zoneOf x sw p, sameOf x sw p with
  | some z, _ => some (.zone z)
  | none, some k => some (.site k)
  | none, none => none

/-! ## The messages of a batch -/

/-- The text under a key. -/
def Folding.find (f : Folding V) : FoldKey → Option Nat
  | .zone z => f.domAt.lookup z
  | .site k => f.sameAt.lookup k

/-- The alerts that went to the text `i`. -/
def Folding.parcel (f : Folding V) (i : Nat) : List (Pending V) :=
  (f.carry.filter (·.2 = i)).map Prod.fst

def Folding.parcels (f : Folding V) : List (List (Pending V)) :=
  (List.range f.texts.length).map f.parcel

/-- The message is about the alert: it heads it, or one of its parts does. -/
def Msg.Names (m : Msg) (p : Pending V) : Prop :=
  m.target = p.name ∨ ∃ q ∈ m.parts, q.target = p.name

/-- An outgoing text of the batch carries the alert and names its monitor. -/
def Appears (pending : List (Pending V)) (p : Pending V) : Prop :=
  ∃ i m, (p, i) ∈ (foldAll x sw pending).carry ∧
    ((foldAll x sw pending).finish sw)[i]? = some m ∧ m.Names p

/-- Sent in a batch of its own, the alert produces a message. -/
def SendsAlone (p : Pending V) : Prop := (foldAll x sw [p]).texts ≠ []

/-- An alert is told and committed as if it were sent alone, and in whatever
order the batch comes, the same alerts are committed and go out together. -/
structure KeepsScope (pending : List (Pending V)) : Prop where
  told : ∀ p ∈ pending, Appears x sw pending p ↔ SendsAlone x sw p
  committed : ∀ p ∈ pending,
    p ∈ (foldAll x sw pending).commits ↔ SendsAlone x sw p ∧ p.kind ≠ .known
  order : ∀ batch : List (Pending V), batch.Perm pending →
    (foldAll x sw batch).commits.Perm (foldAll x sw pending).commits ∧
      SameParcels (foldAll x sw batch).parcels (foldAll x sw pending).parcels

/-- No alert whose rule is off, or does not reach its monitor, has the fold key
of an alert that goes out. -/
def ScopesAgree (pending : List (Pending V)) : Prop :=
  ∀ p ∈ pending, ∀ q ∈ pending, admitted x p = true → inScope x p = false →
    passes x q = true → foldKey x sw p = foldKey x sw q → foldKey x sw p = none

/-! ## One turn of the loop -/

theorem foldKey_eq_none_of_known {p : Pending V} (h : p.kind = .known) :
    foldKey x sw p = none := by
  simp [foldKey, zoneOf, sameOf, h]

theorem sameOf_eq_none_of_zone {p : Pending V} {z : String} (h : zoneOf x sw p = some z) :
    sameOf x sw p = none := by
  have hk : p.kind = .domain := by
    by_contra hne
    simp [zoneOf, hne] at h
  simp [sameOf, hk]

/-- The five ways of a turn. -/
inductive Turn (f : Folding V) (p : Pending V) : Folding V → Prop
  | kept (h : admitted x p = false) : Turn f p f
  | reminded (m : Msg) (h : admitted x p = true) (hk : p.kind = .known)
      (hm : m.target = p.name) : Turn f p (f.remind p m)
  | joined (k : FoldKey) (idx : Nat) (domN : List Nat) (hosts : List (Nat × String))
      (h : admitted x p = true) (hk : p.kind ≠ .known) (hkey : foldKey x sw p = some k)
      (hf : f.find k = some idx) :
      Turn f p { f.join p idx with domN := domN, sameHosts := hosts }
  | barred (h : admitted x p = true) (hk : p.kind ≠ .known) (hs : inScope x p = false)
      (hf : ∀ k, foldKey x sw p = some k → f.find k = none) : Turn f p f
  | added (m : Msg) (h : admitted x p = true) (hk : p.kind ≠ .known) (hs : inScope x p = true)
      (hf : ∀ k, foldKey x sw p = some k → f.find k = none) (hm : m.target = p.name) :
      Turn f p (f.add p m (zoneOf x sw p) (sameOf x sw p))

theorem foldOne_turn (f : Folding V) (p : Pending V) : Turn x sw f p (foldOne x sw f p) := by
  unfold foldOne
  dsimp only
  by_cases hkept : keptBack x p = true
  · rw [if_pos hkept]
    exact .kept (by simp [admitted, hkept])
  rw [if_neg hkept]
  by_cases hk : p.kind = .known
  · rw [if_pos hk]
    exact .reminded _ (by simp [admitted, hkept, hk]) hk rfl
  rw [if_neg hk]
  by_cases hfail : keptBackFailure x p = true
  · rw [if_pos hfail]
    exact .kept (by simp [admitted, hk, hfail])
  rw [if_neg hfail]
  have hadm : admitted x p = true := by simp [admitted, hkept, hfail]
  have hturn : (∀ k, foldKey x sw p = some k → f.find k = none) → ∀ m : Msg, m.target = p.name →
      Turn x sw f p (if ruleOff x p (groupOf x p) = true then f
        else f.add p m (zoneOf x sw p) (sameOf x sw p)) := by
    intro hf m hm
    by_cases hs : ruleOff x p (groupOf x p) = true
    · rw [if_pos hs]
      exact .barred hadm hk (by simp [inScope, hk, hs]) hf
    · rw [if_neg hs]
      exact .added m hadm hk (by simp [inScope, hs]) hf hm
  rcases hz : zoneOf x sw p with _ | z
  · rcases hs : sameOf x sw p with _ | k
    · have hkey : foldKey x sw p = none := by simp [foldKey, hz, hs]
      simpa [hz, hs] using hturn (by simp [hkey]) _ rfl
    · have hkey : foldKey x sw p = some (.site k) := by simp [foldKey, hz, hs]
      simp only [Option.bind_none, Option.bind_some]
      rcases hl : f.sameAt.lookup k with _ | idx
      · simpa [hz, hs] using hturn (by simpa [hkey, Folding.find] using hl) _ rfl
      · exact .joined (.site k) idx _ _ hadm hk hkey hl
  · have hs := sameOf_eq_none_of_zone x sw hz
    have hkey : foldKey x sw p = some (.zone z) := by simp [foldKey, hz]
    rw [hs]
    simp only [Option.bind_none, Option.bind_some]
    rcases hl : f.domAt.lookup z with _ | idx
    · simpa [hz, hs] using hturn (by simpa [hkey, Folding.find] using hl) _ rfl
    · exact .joined (.zone z) idx _ _ hadm hk hkey hl

theorem lookup_snoc {κ : Type} [BEq κ] [LawfulBEq κ] [DecidableEq κ] {l : List (κ × Nat)}
    {k : κ} (h : l.lookup k = none) (i : Nat) (k' : κ) :
    (l ++ [(k, i)]).lookup k' = if k = k' then some i else l.lookup k' := by
  by_cases hk : k = k'
  · subst hk
    simp [List.lookup_append, h]
  · have hne : (k' == k) = false := by simpa using Ne.symm hk
    simp [List.lookup_append, List.lookup_cons, hne, hk]

/-- A new text is found under the key of its alert, and the others as before. -/
theorem find_add {f : Folding V} {p : Pending V}
    (h : ∀ k, foldKey x sw p = some k → f.find k = none) (m : Msg) (k : FoldKey) :
    (f.add p m (zoneOf x sw p) (sameOf x sw p)).find k =
      if foldKey x sw p = some k then some f.texts.length else f.find k := by
  unfold foldKey at h ⊢
  rcases hz : zoneOf x sw p with _ | z
  · rcases hs : sameOf x sw p with _ | s
    · cases k <;> simp [Folding.add, Folding.find]
    · have hnone : f.sameAt.lookup s = none := h (.site s) (by simp [hz, hs])
      cases k with
      | zone z' => simp [Folding.add, Folding.find]
      | site s' => simpa [Folding.add, Folding.find] using lookup_snoc hnone _ s'
  · have hnone : f.domAt.lookup z = none := h (.zone z) (by simp [hz])
    rw [sameOf_eq_none_of_zone x sw hz]
    cases k with
    | zone z' => simpa [Folding.add, Folding.find] using lookup_snoc hnone _ z'
    | site s' => simp [Folding.add, Folding.find]

/-! ## What the loop has told so far -/

/-- The bookkeeping of the loop, when the alerts `told` went out: the texts are
the parcels of `told`, and a key leads to the text of its group. -/
structure Folding.Filed (f : Folding V) (told : List (Pending V)) : Prop where
  carried : f.carry.map Prod.fst = told
  bound : ∀ e ∈ f.carry, e.2 < f.texts.length
  commits : f.commits = told.filter fun p => p.kind ≠ .known
  found : ∀ k i, f.find k = some i → i < f.texts.length
  keys : ∀ k, (groupsBy (foldKey x sw) told).lookup k = (f.find k).map f.parcel
  parcels : f.parcels.Perm (Grouping.parcels (foldKey x sw) told)
  named : ∀ e ∈ f.carry,
    (∃ m, f.texts[e.2]? = some m ∧ m.target = e.1.name) ∨ (e.2, e.1.name) ∈ f.moreNames

variable {x sw} {f f' : Folding V} {told : List (Pending V)}

theorem parcel_snoc {p : Pending V} {idx : Nat} (hc : f'.carry = f.carry ++ [(p, idx)]) (i : Nat) :
    f'.parcel i = if i = idx then f.parcel i ++ [p] else f.parcel i := by
  unfold Folding.parcel
  rw [hc, List.filter_append, List.map_append]
  by_cases h : i = idx
  · simp [h]
  · simp [h, Ne.symm h]

/-- A text that nothing went to yet. -/
theorem Folding.Filed.parcel_next (hf : f.Filed x sw told) : f.parcel f.texts.length = [] := by
  unfold Folding.parcel
  rw [List.map_eq_nil_iff, List.filter_eq_nil_iff]
  intro e he
  simpa using (hf.bound e he).ne

/-- An alert opens a text: its key, when it has one, is new and leads there. -/
theorem Folding.Filed.opened (hf : f.Filed x sw told) {p : Pending V} {m : Msg}
    (hm : m.target = p.name) (ht : f'.texts = f.texts ++ [m])
    (hc : f'.carry = f.carry ++ [(p, f.texts.length)])
    (hcom : f'.commits = f.commits ++ [p].filter fun p => p.kind ≠ .known)
    (hmore : f'.moreNames = f.moreNames)
    (hnew : ∀ k, foldKey x sw p = some k → f.find k = none)
    (hfind : ∀ k, f'.find k = if foldKey x sw p = some k then some f.texts.length else f.find k) :
    f'.Filed x sw (told ++ [p]) := by
  have hlen : f'.texts.length = f.texts.length + 1 := by simp [ht]
  have hold : ∀ i < f.texts.length, f'.parcel i = f.parcel i := fun i hi => by
    rw [parcel_snoc hc, if_neg hi.ne]
  have hnext : f'.parcel f.texts.length = [p] := by
    rw [parcel_snoc hc, if_pos rfl, hf.parcel_next, List.nil_append]
  have hfresh : ∀ k, foldKey x sw p = some k → (groupsBy (foldKey x sw) told).lookup k = none :=
    fun k hk => by rw [hf.keys, hnew k hk, Option.map_none]
  constructor
  · rw [hc, List.map_append, hf.carried, List.map_cons, List.map_nil]
  · intro e he
    rw [hc] at he
    rcases List.mem_append.1 he with he | he
    · have := hf.bound e he
      omega
    · rw [List.mem_singleton.1 he]
      omega
  · rw [hcom, hf.commits, List.filter_append]
  · intro k i hi
    rw [hfind] at hi
    split at hi
    · cases hi
      omega
    · have := hf.found k i hi
      omega
  · intro k
    rw [hfind, groupsBy_snoc]
    cases hp : foldKey x sw p with
    | none =>
      rw [if_neg (by simp)]
      dsimp only
      rw [hf.keys]
      exact Option.map_congr fun i hi => (hold i (hf.found k i hi)).symm
    | some k' =>
      dsimp only
      rw [lookup_putIn]
      by_cases h : k = k'
      · subst h
        rw [if_pos rfl, if_pos rfl, hfresh k hp, Option.map_some, hnext, Option.getD_none,
          List.nil_append]
      · rw [if_neg h, if_neg fun he => h (Option.some.inj he).symm, hf.keys]
        exact Option.map_congr fun i hi => (hold i (hf.found k i hi)).symm
  · have hp : f'.parcels = f.parcels ++ [[p]] := by
      unfold Folding.parcels
      rw [hlen, List.range_succ, List.map_append, List.map_cons, List.map_nil, hnext]
      congr 1
      exact List.map_congr_left fun i hi => hold i (List.mem_range.1 hi)
    rw [hp]
    exact (hf.parcels.append_right _).trans (parcels_fresh hfresh).symm
  · intro e he
    rw [hc] at he
    rw [ht, hmore]
    rcases List.mem_append.1 he with he | he
    · rcases hf.named e he with ⟨m', hm', hn⟩ | h
      · exact .inl ⟨m', by rw [List.getElem?_append_left (hf.bound e he), hm'], hn⟩
      · exact .inr h
    · rw [List.mem_singleton.1 he]
      exact .inl ⟨m, by simp, hm⟩

/-- Two keys lead to two texts. -/
theorem Folding.Filed.find_inj (hf : f.Filed x sw told) {k k' : FoldKey} {i : Nat}
    (h : f.find k = some i) (h' : f.find k' = some i) : k = k' := by
  have hg : ∀ k, f.find k = some i →
      f.parcel i ≠ [] ∧ ∀ a ∈ f.parcel i, foldKey x sw a = some k := by
    intro k hk
    have hl := hf.keys k
    rw [hk, Option.map_some, ← mem_iff_lookup (nodup_groupsBy _ _), mem_groupsBy] at hl
    refine ⟨hl.1, fun a ha => ?_⟩
    rw [hl.2] at ha
    simpa using (List.mem_filter.1 ha).2
  obtain ⟨a, ha⟩ := List.exists_mem_of_ne_nil _ (hg k h).1
  exact Option.some.inj (((hg k h).2 a ha).symm.trans ((hg k' h').2 a ha))

/-- An alert joins the text of its key. -/
theorem Folding.Filed.joined (hf : f.Filed x sw told) {p : Pending V} {k : FoldKey} {idx : Nat}
    (hk : p.kind ≠ .known) (hkey : foldKey x sw p = some k) (hfind : f.find k = some idx)
    (domN : List Nat) (hosts : List (Nat × String)) :
    Folding.Filed x sw { f.join p idx with domN := domN, sameHosts := hosts } (told ++ [p]) := by
  have hlt := hf.found k idx hfind
  have hpar : ∀ i, Folding.parcel { f.join p idx with domN := domN, sameHosts := hosts } i =
      if i = idx then f.parcel i ++ [p] else f.parcel i := fun i => parcel_snoc rfl i
  have hlook : (groupsBy (foldKey x sw) told).lookup k = some (f.parcel idx) := by
    rw [hf.keys, hfind, Option.map_some]
  constructor
  · simp [Folding.join, hf.carried]
  · intro e he
    rcases List.mem_append.1 he with he | he
    · exact hf.bound e he
    · rw [List.mem_singleton.1 he]
      exact hlt
  · simp [Folding.join, hf.commits, hk]
  · exact hf.found
  · intro k'
    change _ = (f.find k').map _
    rw [groupsBy_snoc, hkey]
    dsimp only
    rw [lookup_putIn]
    by_cases h : k' = k
    · rw [if_pos h, h, hfind, hlook, Option.map_some, Option.getD_some, hpar, if_pos rfl]
    · rw [if_neg h, hf.keys]
      refine Option.map_congr fun i hi => ?_
      rw [hpar, if_neg]
      rintro rfl
      exact h (hf.find_inj hi hfind)
  · obtain ⟨rest, h1, h2⟩ := parcels_join hkey hlook
    have hr : (List.range f.texts.length).Perm (idx :: (List.range f.texts.length).erase idx) :=
      List.perm_cons_erase (List.mem_range.2 hlt)
    have hsame : ∀ i ∈ (List.range f.texts.length).erase idx,
        Folding.parcel { f.join p idx with domN := domN, sameHosts := hosts } i = f.parcel i := by
      intro i hi
      rw [hpar, if_neg]
      rintro rfl
      exact List.nodup_range.not_mem_erase hi
    have hbefore := (hr.map f.parcel).symm.trans (hf.parcels.trans h1)
    refine (hr.map _).trans (List.Perm.trans ?_ h2.symm)
    rw [List.map_cons, hpar, if_pos rfl, List.map_congr_left hsame]
    exact (List.Perm.cons_inv hbefore).cons _
  · intro e he
    rcases List.mem_append.1 he with he | he
    · exact (hf.named e he).imp_right fun h => List.mem_append_left _ h
    · rw [List.mem_singleton.1 he]
      exact .inr (by simp [Folding.join])

/-! ## The alerts of a batch that go out -/

/-- An alert goes out when it passes, or when the text of its key is there. -/
def goesOut (x : SiteCtx) (sw : SiteWords V) (told : List (Pending V)) (p : Pending V) : Bool :=
  admitted x p && (inScope x p || told.any fun q => foldKey x sw q = foldKey x sw p ∧
    foldKey x sw p ≠ none)

/-- The alerts of a batch that go out, in its order. -/
def toldOf (x : SiteCtx) (sw : SiteWords V) (pending : List (Pending V)) : List (Pending V) :=
  pending.foldl (fun told p => if goesOut x sw told p then told ++ [p] else told) []

theorem toldOf_snoc (pending : List (Pending V)) (p : Pending V) :
    toldOf x sw (pending ++ [p]) =
      if goesOut x sw (toldOf x sw pending) p then toldOf x sw pending ++ [p]
      else toldOf x sw pending := by
  rw [toldOf, List.foldl_append, List.foldl_cons, List.foldl_nil]
  rfl

/-- A key leads to a text exactly when an alert with the key went out. -/
theorem Folding.Filed.find_iff (hf : f.Filed x sw told) (k : FoldKey) :
    f.find k = none ↔ ∀ q ∈ told, foldKey x sw q ≠ some k := by
  have hl := hf.keys k
  rw [lookup_groupsBy] at hl
  split at hl
  · rename_i he
    refine iff_of_true (Option.map_eq_none_iff.1 hl.symm) fun q hq hk => ?_
    have : q ∈ told.filter fun a => foldKey x sw a = some k := by simp [hq, hk]
    rw [he] at this
    cases this
  · rename_i he
    obtain ⟨q, hq⟩ := List.exists_mem_of_ne_nil _ he
    refine iff_of_false (fun hn => ?_) fun hall => ?_
    · rw [hn] at hl
      cases hl
    · exact hall q (List.mem_filter.1 hq).1 (by simpa using (List.mem_filter.1 hq).2)

/-- One turn files the alert when it goes out, and changes nothing otherwise. -/
theorem Turn.filed {p : Pending V} (h : Turn x sw f p f') (hf : f.Filed x sw told) :
    f'.Filed x sw (if goesOut x sw told p then told ++ [p] else told) := by
  have hscope : ∀ k, foldKey x sw p = some k → f.find k = none →
      told.any (fun q => foldKey x sw q = foldKey x sw p ∧ foldKey x sw p ≠ none) = false := by
    intro k hk hn
    have := (hf.find_iff k).1 hn
    simpa [hk] using this
  cases h with
  | kept h =>
    rw [if_neg (by simp [goesOut, h])]
    exact hf
  | reminded m h hk hm =>
    rw [if_pos (by simp [goesOut, h, inScope, hk])]
    have hkey := foldKey_eq_none_of_known x sw hk
    exact hf.opened hm rfl rfl (by simp [Folding.remind, hk]) rfl (by simp [hkey])
      fun k => by rw [if_neg (by simp [hkey])]; rfl
  | joined k idx domN hosts h hk hkey hfind =>
    have hany : told.any (fun q => foldKey x sw q = foldKey x sw p ∧ foldKey x sw p ≠ none) =
        true := by
      by_contra hno
      have hn := (hf.find_iff k).2 (by simpa [hkey] using hno)
      rw [hn] at hfind
      cases hfind
    rw [if_pos (by simp only [goesOut, h, hany, Bool.or_true, Bool.and_self])]
    exact hf.joined hk hkey hfind domN hosts
  | barred h hk hs hnone =>
    rw [if_neg]
    · exact hf
    · rcases hkey : foldKey x sw p with _ | k
      · simp [goesOut, hs, hkey]
      · simp only [goesOut, hs, hscope k hkey (hnone k hkey), Bool.or_self, Bool.and_false]
        decide
  | added m h hk hs hnone hm =>
    rw [if_pos (by simp [goesOut, h, hs])]
    refine hf.opened hm rfl rfl
      (by simp [Folding.add, hk]) rfl hnone ?_
    exact find_add x sw hnone m

theorem foldAll_filed (x : SiteCtx) (sw : SiteWords V) (pending : List (Pending V)) :
    (foldAll x sw pending).Filed x sw (toldOf x sw pending) := by
  induction pending using List.reverseRecOn with
  | nil =>
    refine ⟨rfl, by simp [foldAll], rfl, ?_, ?_, ?_, by simp [foldAll]⟩
    · rintro (z | k) i h <;> cases h
    · rintro (z | k) <;> rfl
    · exact .refl _
  | append_singleton ps p ih =>
    rw [foldAll, List.foldl_append, List.foldl_cons, List.foldl_nil, toldOf_snoc]
    exact (foldOne_turn x sw _ p).filed ih

/-! ## Who appears -/

/-- A text after the loop: it has the target that it had, and its parts are the
alert that heads it and the names that were folded into it. -/
theorem finish_get {i : Nat} {m : Msg} (h : f.texts[i]? = some m) :
    ∃ m' : Msg, m'.target = m.target ∧ (f.finish sw)[i]? = some
      (if (f.moreNames.filter (·.1 = i)).map (·.2) = [] then m'
      else { m' with
        parts := m'.part :: (((f.moreNames.filter (·.1 = i)).map (·.2)).filter
          (· ≠ m'.target)).map fun n => { m'.part with target := n, ref := .empty } }) := by
  unfold Folding.finish
  rw [List.getElem?_mapIdx, h]
  refine ⟨_, ?_, rfl⟩
  split <;> split_ifs <;> rfl

/-- A text that carries an alert names it once the loop is over. -/
theorem Folding.Filed.names (hf : f.Filed x sw told) {p : Pending V} {i : Nat}
    (h : (p, i) ∈ f.carry) : ∃ m, (f.finish sw)[i]? = some m ∧ m.Names p := by
  have hlt : i < f.texts.length := hf.bound _ h
  obtain ⟨m', ht, hm'⟩ := finish_get (List.getElem?_eq_getElem hlt)
  refine ⟨_, hm', ?_⟩
  rcases hf.named _ h with ⟨m, hm, hn⟩ | hmore
  · rw [List.getElem?_eq_getElem hlt, Option.some.injEq] at hm
    rw [← hm, ← ht] at hn
    split
    · exact .inl hn
    · exact .inl hn
  · have hin : p.name ∈ (f.moreNames.filter (·.1 = i)).map (·.2) :=
      List.mem_map.2 ⟨(i, p.name), List.mem_filter.2 ⟨hmore, by simp⟩, rfl⟩
    rw [if_neg (List.ne_nil_of_mem hin)]
    by_cases he : p.name = m'.target
    · exact .inl he.symm
    · refine .inr ⟨{ m'.part with target := p.name, ref := .empty }, ?_, rfl⟩
      refine List.mem_cons_of_mem _ (List.mem_map.2 ⟨p.name, ?_, rfl⟩)
      exact List.mem_filter.2 ⟨hin, by simpa using he⟩

theorem appears_iff {pending : List (Pending V)} {p : Pending V} :
    Appears x sw pending p ↔ p ∈ toldOf x sw pending := by
  have hf := foldAll_filed x sw pending
  rw [← hf.carried, List.mem_map]
  constructor
  · rintro ⟨i, m, h, -⟩
    exact ⟨(p, i), h, rfl⟩
  · rintro ⟨⟨p, i⟩, h, rfl⟩
    obtain ⟨m, hm, hn⟩ := hf.names h
    exact ⟨i, m, h, hm, hn⟩

theorem committed_iff {pending : List (Pending V)} {p : Pending V} :
    p ∈ (foldAll x sw pending).commits ↔ p ∈ toldOf x sw pending ∧ p.kind ≠ .known := by
  rw [(foldAll_filed x sw pending).commits]
  simp

/-- Alone, an alert goes out when it passes. -/
theorem sendsAlone_iff {p : Pending V} : SendsAlone x sw p ↔ passes x p = true := by
  have hf := foldAll_filed x sw [p]
  have htold : toldOf x sw [p] = if passes x p then [p] else [] := by
    simp [toldOf, goesOut, passes]
  have hlen : (foldAll x sw [p]).texts.length = (foldAll x sw [p]).parcels.length := by
    simp [Folding.parcels]
  unfold SendsAlone
  rw [← List.length_pos_iff, hlen, hf.parcels.length_eq, htold]
  by_cases h : passes x p = true
  · rw [if_pos h]
    rcases hk : foldKey x sw p with _ | k <;> simp [parcels, groupsBy, putIn, hk, h]
  · rw [if_neg h]
    simp [parcels, groupsBy, h]

/-- When the scopes agree, the alerts that pass go out, and no others. -/
theorem toldOf_eq_filter {pending : List (Pending V)} (h : ScopesAgree x sw pending) :
    toldOf x sw pending = pending.filter (passes x) := by
  induction pending using List.reverseRecOn with
  | nil => rfl
  | append_singleton ps p ih =>
    have hps : ScopesAgree x sw ps := fun a ha b hb =>
      h a (List.mem_append_left _ ha) b (List.mem_append_left _ hb)
    rw [toldOf_snoc, ih hps, List.filter_append]
    have hgoes : goesOut x sw (ps.filter (passes x)) p = passes x p := by
      unfold goesOut passes
      rcases hadm : admitted x p with _ | _
      · rfl
      rcases hin : inScope x p with _ | _
      · simp only [Bool.true_and, Bool.false_or]
        rw [List.any_eq_false]
        intro q hq
        obtain ⟨hq, hpass⟩ := List.mem_filter.1 hq
        have hnone : foldKey x sw p = foldKey x sw q → foldKey x sw p = none :=
          h p (by simp) q (List.mem_append_left _ hq) hadm hin hpass
        simp only [decide_eq_true_eq, not_and, not_not]
        exact fun he => hnone he.symm
      · rfl
    rw [hgoes]
    by_cases hp : passes x p = true <;> simp [hp]

/-- An alert that its rule keeps back goes out behind one that passes. -/
theorem toldOf_behind {p q : Pending V} {rest : List (Pending V)} (hq : passes x q = true)
    (hp : admitted x p = true) (hkey : foldKey x sw p = foldKey x sw q)
    (hne : foldKey x sw p ≠ none) : p ∈ toldOf x sw (q :: p :: rest) := by
  induction rest using List.reverseRecOn with
  | nil =>
    have h1 : toldOf x sw [q] = [q] := by simpa [toldOf, goesOut, passes] using hq
    have h2 : toldOf x sw ([q] ++ [p]) = [q] ++ [p] := by
      rw [toldOf_snoc, h1, if_pos (by simp [goesOut, hp, hkey.symm, hne])]
    change p ∈ toldOf x sw ([q] ++ [p])
    rw [h2]
    simp
  | append_singleton rest a ih =>
    change p ∈ toldOf x sw (q :: p :: rest ++ [a])
    rw [toldOf_snoc]
    split
    · exact List.mem_append_left _ ih
    · exact ih

/-! ## Which batches keep the scopes -/

variable (x sw)

/-- A batch keeps the scopes of the rules exactly when they agree on the alerts
that fold together: then the folds tell nothing that a rule keeps back, and the
order of the batch decides only who heads a message. -/
theorem folds_keep_the_scope (pending : List (Pending V)) :
    KeepsScope x sw pending ↔ ScopesAgree x sw pending := by
  constructor
  · intro hkeep p hp q hq hadm hout hpass hkey
    by_contra hne
    -- behind `q` the alert goes out, so it is committed in any order
    have hpq : p ≠ q := by
      rintro rfl
      simp [passes, hout] at hpass
    obtain ⟨s, t, hst⟩ := List.append_of_mem hq
    have hp' : p ∈ s ++ t := by simpa [hst, hpq] using hp
    obtain ⟨u, w, huw⟩ := List.append_of_mem hp'
    have hperm : (q :: p :: (u ++ w)).Perm pending := by
      have h1 : (s ++ q :: t).Perm (q :: (s ++ t)) := List.perm_middle
      have h2 : (u ++ p :: w).Perm (p :: (u ++ w)) := List.perm_middle
      rw [hst]
      rw [huw] at h1
      exact (h1.trans (h2.cons q)).symm
    have hkind : p.kind ≠ .known := fun hk => by simp [inScope, hk] at hout
    have hfirst : p ∈ (foldAll x sw (q :: p :: (u ++ w))).commits :=
      committed_iff.2 ⟨toldOf_behind hpass hadm hkey hne, hkind⟩
    have halone := ((hkeep.committed p hp).1 ((hkeep.order _ hperm).1.mem_iff.1 hfirst)).1
    rw [sendsAlone_iff] at halone
    simp [passes, hout] at halone
  · intro hagree
    have htold := toldOf_eq_filter hagree
    constructor
    · intro p hp
      rw [appears_iff, htold, sendsAlone_iff, List.mem_filter, and_iff_right hp]
    · intro p hp
      rw [committed_iff, htold, sendsAlone_iff, List.mem_filter, and_iff_right hp]
    · intro batch hperm
      have hbatch : toldOf x sw batch = batch.filter (passes x) :=
        toldOf_eq_filter fun a ha b hb => hagree a (hperm.mem_iff.1 ha) b (hperm.mem_iff.1 hb)
      have htp : (toldOf x sw batch).Perm (toldOf x sw pending) := by
        rw [hbatch, htold]
        exact hperm.filter _
      have h1 := foldAll_filed x sw batch
      have h2 := foldAll_filed x sw pending
      constructor
      · rw [h1.commits, h2.commits]
        exact htp.filter _
      · exact ((SameParcels.of_perm h1.parcels).trans (parcels_perm _ htp)).trans
          (.of_perm h2.parcels.symm)

/-- Two monitors of one site, and a rule that reaches the first one only. -/
def sameSite (check inc : Nat) : Pending String where
  kind := .bad
  name := "a.io"
  status := "down"
  msg := "HTTP 502"
  incId := some inc
  checkId := some check
  flag := []
  known_bare := nofun

def scopedToOne : SiteCtx where
  rules := fun rk => if rk = "down" then some ⟨true, .checks [1]⟩ else none
  group := fun _ => ""
  mutes := fun _ => []
  addr := fun _ => ("https://a.io/", "http")
  snoozed := []
  quietFailures := []
  held := []

def plainWords : SiteWords String :=
  ⟨Pending.msg, Pending.name, fun m _ => m.text, fun m _ => m.text, id⟩

/-- The second monitor is out of scope. Alone it produces nothing, and behind
the first one its incident is marked as announced. -/
theorem a_neighbour_widens_the_scope :
    ¬ ∀ (x : SiteCtx) (sw : SiteWords String) (pending : List (Pending String)),
      KeepsScope x sw pending := by
  intro h
  have hcom := (h scopedToOne plainWords [sameSite 1 7, sameSite 2 8]).committed (sameSite 2 8) (by simp)
  have hin : (foldAll scopedToOne plainWords [sameSite 1 7, sameSite 2 8]).commits =
      [sameSite 1 7, sameSite 2 8] := rfl
  have halone : (foldAll scopedToOne plainWords [sameSite 2 8]).texts = [] := rfl
  exact (hcom.1 (by simp [hin])).1 halone

end Kervax
