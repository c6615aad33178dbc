-- Who hears of what: the slice of the panel that an account sees
-- (`deps.py`), the same slice in the routing of alerts (`wants` of
-- `alerts.py`), and the personal letters that follow it.
import Kervax.Dispatch

namespace Kervax

/-! ## The account and its slice -/

/-- The fields of an account that the slice and the personal letters read. The
three lists stand in nullable columns. -/
structure User where
  sections : Option (List String) := none
  serverGroups : Option (List String) := none
  siteGroups : Option (List String) := none
  tgChatId : String := ""
  tgToken : String := ""
  tgAlerts : Bool := true
deriving DecidableEq, Repr

/-- `ALL_SECTIONS`. -/
def allSections : List String := ["sites", "servers", "docker", "kuber", "services", "backups"]

/-- `user.sections or []`. -/
def User.stored (u : User) : List String := u.sections.getD []

/-- The group list of a kind: the sites have names of their own. -/
def User.groups (u : User) (kind : String) : List String :=
  (if kind = "sites" then u.siteGroups else u.serverGroups).getD []

/-- `user_sections`: the stored sections that the panel knows, and all of them
when none is left. -/
def userSections (u : User) : List String :=
  let known := u.stored.filter (· ∈ allSections)
  if known = [] then allSections else known

/-- `group_allowed`. -/
def groupAllowed (u : User) (groupName : Option String) (kind : String) : Bool :=
  let groups := u.groups kind
  if groups = [] then true else groupName.getD "" ∈ groups

/-- The kind of group that the objects of a section carry. -/
def kindOf (sect : String) : String := if sect ∈ serverSections then "servers" else "sites"

/-- The panel shows the object of a message: the section is open and the
group is allowed. -/
def panelShows (u : User) (m : Msg) : Bool :=
  m.sect ∈ userSections u && groupAllowed u (some m.group) (kindOf m.sect)

/-- `wants`. -/
def wants (u : User) (m : Msg) : Bool :=
  if m.sect = "" then true
  else if u.stored ≠ [] ∧ m.sect ∉ u.stored then false
  else
    let groups := (if m.sect ∈ serverSections then u.serverGroups else u.siteGroups).getD []
    if groups = [] then true else m.group ∈ groups

/-! ## When the two slices are one -/

/-- The group of a message is closed to the account. -/
def GroupClosed (u : User) (m : Msg) : Prop :=
  u.groups (kindOf m.sect) ≠ [] ∧ m.group ∉ u.groups (kindOf m.sect)

/-- The routing agrees with the panel about a message: its section is one of
the panel's and the stored list is empty or has a section that the panel
knows; or its section is none of the panel's and the stored list keeps it out;
or its group is closed. -/
def SameSlice (u : User) (m : Msg) : Prop :=
  (m.sect ∈ allSections ∧ (u.stored = [] ∨ ∃ s ∈ u.stored, s ∈ allSections)) ∨
    (m.sect ∉ allSections ∧ u.stored ≠ [] ∧ m.sect ∉ u.stored) ∨ GroupClosed u m

instance (u : User) (m : Msg) : Decidable (SameSlice u m) := by
  unfold SameSlice GroupClosed
  infer_instance

theorem mem_userSections (u : User) (s : String) :
    s ∈ userSections u ↔
      s ∈ allSections ∧ (s ∈ u.stored ∨ ∀ x ∈ u.stored, x ∉ allSections) := by
  unfold userSections
  by_cases hk : u.stored.filter (· ∈ allSections) = []
  · have hnone : ∀ x ∈ u.stored, x ∉ allSections := by
      simpa [List.filter_eq_nil_iff] using hk
    simp only [hk, if_true]
    exact ⟨fun h => ⟨h, .inr hnone⟩, fun h => h.1⟩
  · have hsome : ¬ ∀ x ∈ u.stored, x ∉ allSections := by
      simpa [List.filter_eq_nil_iff] using hk
    simp only [hk, if_false, List.mem_filter, decide_eq_true_eq, hsome, or_false]
    exact and_comm

theorem groupAllowed_iff (u : User) (m : Msg) :
    groupAllowed u (some m.group) (kindOf m.sect) = true ↔ ¬ GroupClosed u m := by
  unfold groupAllowed GroupClosed
  by_cases hg : u.groups (kindOf m.sect) = [] <;> simp [hg]

/-- The two choices of a group list are one. -/
theorem groups_kindOf (u : User) (s : String) :
    (if s ∈ serverSections then u.serverGroups else u.siteGroups).getD [] =
      u.groups (kindOf s) := by
  unfold User.groups kindOf
  by_cases hs : s ∈ serverSections <;> simp [hs]

theorem wants_iff (u : User) (m : Msg) (hm : m.sect ≠ "") :
    wants u m = true ↔ (u.stored = [] ∨ m.sect ∈ u.stored) ∧ ¬ GroupClosed u m := by
  unfold wants GroupClosed
  rw [groups_kindOf]
  by_cases hs : u.stored ≠ [] ∧ m.sect ∉ u.stored
  · simp [hm, hs]
  · have hs' : u.stored = [] ∨ m.sect ∈ u.stored := by
      by_cases h : u.stored = []
      · exact .inl h
      · exact .inr (by_contra fun hn => hs ⟨h, hn⟩)
    by_cases hg : u.groups (kindOf m.sect) = [] <;> simp [hm, hs, hs', hg]

theorem panelShows_iff (u : User) (m : Msg) :
    panelShows u m = true ↔
      (m.sect ∈ allSections ∧ (m.sect ∈ u.stored ∨ ∀ x ∈ u.stored, x ∉ allSections)) ∧
        ¬ GroupClosed u m := by
  unfold panelShows
  rw [Bool.and_eq_true, decide_eq_true_eq, mem_userSections, groupAllowed_iff]

/-- The slices agree exactly where `SameSlice` says. A stored list of unknown
sections closes every section to the routing and none to the panel. -/
theorem slices_agree (u : User) (m : Msg) (hm : m.sect ≠ "") :
    (wants u m = true ↔ panelShows u m = true) ↔ SameSlice u m := by
  rw [wants_iff u m hm, panelShows_iff]
  unfold SameSlice
  by_cases hg : GroupClosed u m
  · simp [hg]
  · simp only [hg, not_false_eq_true, and_true, or_false]
    by_cases ha : m.sect ∈ allSections
    · by_cases he : u.stored = []
      · simp [ha, he]
      · by_cases hin : m.sect ∈ u.stored
        · simp only [ha, he, hin, true_and, or_true, true_or, iff_self, false_or, true_iff]
          exact .inl ⟨m.sect, hin, ha⟩
        · simp only [ha, he, hin, true_and, false_or, false_iff, not_forall, not_true_eq_false,
            false_and, or_false]
          simp
    · simp only [ha, false_and, iff_false, not_or, not_false_eq_true, true_and, false_or]

/-! ## The personal letters -/

/-- One letter of `_send_personal`: the recipient, the messages it carries and
whether Telegram took it. -/
structure Letter where
  user : Nat
  carries : List Nat
  ok : Bool
deriving DecidableEq, Repr

/-- The accounts that `send_personal` reads. -/
def recipients (users : List User) : List User :=
  users.filter fun u => u.tgChatId ≠ "" ∧ u.tgAlerts = true

/-- `user.tg_token or common`. -/
def User.token (u : User) (common : String) : String :=
  if u.tgToken ≠ "" then u.tgToken else common

/-- The positions of the messages that the account wants. -/
def mine (u : User) (messages : List Msg) : List Nat :=
  (List.range messages.length).filter fun i => messages[i]?.any (wants u)

/-- The batch of one account: a digest when there are many, else one by one. -/
def personalBatch (idx : List Nat) (threshold : Nat) : List (Item × List Nat) :=
  if threshold ≠ 0 ∧ threshold ≤ idx.length then [(.digest, idx)]
  else idx.map fun i => (.one i, [i])

/-- The loop over a batch: after the first failure the chat is taken for
unreachable and the rest is dropped. -/
def letters (tg : Item → Bool) (k : Nat) : List (Item × List Nat) → List Letter
  | [] => []
  | (item, idx) :: rest =>
    if tg item then ⟨k, idx, true⟩ :: letters tg k rest else [⟨k, idx, false⟩]

/-- `_send_personal`. `tg k` is what becomes of each letter to the `k`-th
recipient. -/
def sendPersonal (common : String) (users : List User) (messages : List Msg) (threshold : Nat)
    (tg : Nat → Item → Bool) : List Letter :=
  (recipients users).zipIdx.flatMap fun (u, k) =>
    if u.token common = "" then []
    else letters (tg k) k (personalBatch (mine u messages) threshold)

/-- The `k`-th recipient is told of the `i`-th message. -/
def Told (ls : List Letter) (k i : Nat) : Prop := ∃ l ∈ ls, l.user = k ∧ i ∈ l.carries

/-- No letter to the `k`-th recipient failed. -/
def ChatAnswers (ls : List Letter) (k : Nat) : Prop := ∀ l ∈ ls, l.user = k → l.ok = true

theorem mem_mine (u : User) (messages : List Msg) (i : Nat) :
    i ∈ mine u messages ↔ ∃ m, messages[i]? = some m ∧ wants u m = true := by
  unfold mine
  rw [List.mem_filter, List.mem_range, Option.any_eq_true]
  constructor
  · rintro ⟨-, m, hm, hw⟩
    exact ⟨m, hm, hw⟩
  · rintro ⟨m, hm, hw⟩
    exact ⟨(List.getElem?_eq_some_iff.mp hm).1, m, hm, hw⟩

theorem mem_personalBatch (idx : List Nat) (threshold i : Nat) :
    (∃ b ∈ personalBatch idx threshold, i ∈ b.2) ↔ i ∈ idx := by
  unfold personalBatch
  split
  · simp
  · simp

theorem letters_user {tg : Item → Bool} {k : Nat} {b : List (Item × List Nat)} {l : Letter}
    (h : l ∈ letters tg k b) : l.user = k := by
  induction b with
  | nil => cases h
  | cons x rest ih =>
    unfold letters at h
    split at h
    · rcases List.mem_cons.mp h with rfl | hr
      · rfl
      · exact ih hr
    · rw [List.mem_singleton.mp h]

theorem letters_carry {tg : Item → Bool} {k : Nat} {b : List (Item × List Nat)} {l : Letter}
    (h : l ∈ letters tg k b) : ∃ x ∈ b, x.2 = l.carries := by
  induction b with
  | nil => cases h
  | cons x rest ih =>
    unfold letters at h
    split at h
    · rcases List.mem_cons.mp h with rfl | hr
      · exact ⟨x, by simp, rfl⟩
      · obtain ⟨y, hy, hc⟩ := ih hr
        exact ⟨y, List.mem_cons_of_mem x hy, hc⟩
    · rw [List.mem_singleton.mp h]
      exact ⟨x, by simp, rfl⟩

/-- When nothing failed, every part of the batch went out. -/
theorem letters_all {tg : Item → Bool} {k : Nat} {b : List (Item × List Nat)}
    (hok : ∀ l ∈ letters tg k b, l.ok = true) {x : Item × List Nat} (hx : x ∈ b) :
    ∃ l ∈ letters tg k b, l.carries = x.2 := by
  induction b with
  | nil => cases hx
  | cons y rest ih =>
    unfold letters at hok ⊢
    by_cases hy : tg y.1 = true
    · simp only [hy, if_true] at hok ⊢
      rcases List.mem_cons.mp hx with rfl | hr
      · exact ⟨_, List.mem_cons_self, rfl⟩
      · have hrest : ∀ l ∈ letters tg k rest, l.ok = true := fun l hl =>
          hok l (List.mem_cons_of_mem _ hl)
        obtain ⟨l, hl, hc⟩ := ih hrest hr
        exact ⟨l, List.mem_cons_of_mem _ hl, hc⟩
    · simp only [hy] at hok
      have := hok _ List.mem_cons_self
      simp at this

/-- The letters to the `k`-th recipient are those of its own batch. -/
theorem mem_sendPersonal {common : String} {users : List User} {messages : List Msg}
    {threshold k : Nat} {tg : Nat → Item → Bool} {u : User}
    (hu : (recipients users)[k]? = some u) (ht : u.token common ≠ "") (l : Letter) :
    (l ∈ sendPersonal common users messages threshold tg ∧ l.user = k) ↔
      l ∈ letters (tg k) k (personalBatch (mine u messages) threshold) := by
  unfold sendPersonal
  rw [List.mem_flatMap]
  constructor
  · rintro ⟨⟨⟨v, j⟩, hv, hl⟩, rfl⟩
    by_cases hj : v.token common = ""
    · simp [hj] at hl
    · simp only [hj, if_false] at hl
      have hjk := letters_user hl
      have hvj := List.mk_mem_zipIdx_iff_getElem?.mp hv
      rw [hjk, hvj] at hu
      obtain rfl : v = u := by simpa using hu
      rw [hjk]
      exact hl
  · intro hl
    refine ⟨⟨(u, k), List.mk_mem_zipIdx_iff_getElem?.mpr hu, ?_⟩, letters_user hl⟩
    simpa [ht] using hl

/-- A recipient is told of nothing it does not want. -/
theorem told_wants {common : String} {users : List User} {messages : List Msg}
    {threshold k i : Nat} {tg : Nat → Item → Bool} {u : User} {m : Msg}
    (hu : (recipients users)[k]? = some u) (hm : messages[i]? = some m)
    (ht : u.token common ≠ "") (h : Told (sendPersonal common users messages threshold tg) k i) :
    wants u m = true := by
  obtain ⟨l, hl, hk, hi⟩ := h
  obtain ⟨x, hx, hc⟩ := letters_carry ((mem_sendPersonal hu ht l).mp ⟨hl, hk⟩)
  have hmine := (mem_personalBatch _ threshold i).mp ⟨x, hx, hc ▸ hi⟩
  obtain ⟨m', hm', hw⟩ := (mem_mine u messages i).mp hmine
  rw [hm] at hm'
  obtain rfl : m = m' := by simpa using hm'
  exact hw

/-- A recipient whose chat answers is told of all it wants. -/
theorem wants_told {common : String} {users : List User} {messages : List Msg}
    {threshold k i : Nat} {tg : Nat → Item → Bool} {u : User} {m : Msg}
    (hu : (recipients users)[k]? = some u) (hm : messages[i]? = some m)
    (ht : u.token common ≠ "") (hr : ChatAnswers (sendPersonal common users messages threshold tg) k)
    (hw : wants u m = true) : Told (sendPersonal common users messages threshold tg) k i := by
  obtain ⟨x, hx, hi⟩ := (mem_personalBatch (mine u messages) threshold i).mpr
    ((mem_mine u messages i).mpr ⟨m, hm, hw⟩)
  have hok : ∀ l ∈ letters (tg k) k (personalBatch (mine u messages) threshold), l.ok = true := by
    intro l hl
    obtain ⟨hs, hk⟩ := (mem_sendPersonal hu ht l).mpr hl
    exact hr l hs hk
  obtain ⟨l, hl, hc⟩ := letters_all hok hx
  obtain ⟨hs, hk⟩ := (mem_sendPersonal hu ht l).mpr hl
  exact ⟨l, hs, hk, hc ▸ hi⟩

/-- The routing of alerts and the panel show an account the same objects
exactly where `SameSlice` holds: for the two predicates, for what a batch
tells a recipient at most, and for what it tells one whose chat answers. -/
theorem alerts_follow_the_panel (u : User) (m : Msg) (hm : m.sect ≠ "") :
    ((wants u m = true ↔ panelShows u m = true) ↔ SameSlice u m) ∧
    ∀ (common : String) (users : List User) (messages : List Msg) (threshold : Nat)
      (tg : Nat → Item → Bool) (k i : Nat),
      (recipients users)[k]? = some u → messages[i]? = some m → u.token common ≠ "" →
      (SameSlice u m → Told (sendPersonal common users messages threshold tg) k i →
        panelShows u m = true) ∧
      (ChatAnswers (sendPersonal common users messages threshold tg) k →
        ((Told (sendPersonal common users messages threshold tg) k i ↔ panelShows u m = true) ↔
          SameSlice u m)) := by
  refine ⟨slices_agree u m hm, ?_⟩
  intro common users messages threshold tg k i hu hi ht
  constructor
  · intro hs htold
    exact ((slices_agree u m hm).mpr hs).mp (told_wants hu hi ht htold)
  · intro hr
    have htw : Told (sendPersonal common users messages threshold tg) k i ↔ wants u m = true :=
      ⟨told_wants hu hi ht, wants_told hu hi ht hr⟩
    rw [htw]
    exact slices_agree u m hm

/-- A message about a server, and an account that has the section stored. -/
theorem alerts_follow_the_panel_servers :
    (wants { sections := some ["old", "servers"] }
        { text := "t", sect := "servers", group := "g" } = true ↔
      panelShows { sections := some ["old", "servers"] }
        { text := "t", sect := "servers", group := "g" } = true) ∧
    SameSlice { sections := some ["old", "servers"] }
      { text := "t", sect := "servers", group := "g" } :=
  have hs : SameSlice { sections := some ["old", "servers"] }
      { text := "t", sect := "servers", group := "g" } := by decide
  ⟨(alerts_follow_the_panel { sections := some ["old", "servers"] }
    { text := "t", sect := "servers", group := "g" } (by decide)).1.mpr hs, hs⟩

/-- An account whose only stored section is unknown: the panel shows it every
server, and no alert about a server reaches it. -/
theorem unknown_section_silences_alerts :
    ¬ (wants { sections := some ["old"] } { text := "t", sect := "servers", group := "g" } = true ↔
      panelShows { sections := some ["old"] }
        { text := "t", sect := "servers", group := "g" } = true) := by
  decide

end Kervax
