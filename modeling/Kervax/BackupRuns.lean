-- The backup lists over runs of rounds: a repository is announced when it comes, once while
-- it stays, and the end of a list is told when nothing announced is left.
import Kervax.BackupLists

namespace Kervax.BackupLists

/-! ## The history of a list -/

/-- A round as a list sees it: what is noted before it, the set, and what is told. -/
structure Seen where
  noted : List String
  look : Notices.Look String
  /-- The repositories that are broken, the muted and archived ones among them. -/
  all : List String
  out : Option Out

/-- The names that an alert is about. -/
def Seen.about (s : Seen) : List String :=
  match s.out with
  | some (.fire _ _ _ names _) => names
  | _ => []

def Seen.listed (s : Seen) : Option Listed :=
  match s.out with
  | some (.fire _ _ shown _ _) => some shown
  | _ => none

/-- Its list in the chat: the first of the different names. -/
def Seen.chat (s : Seen) : List String := (TgFmt.distinct s.about).take TgFmt.namesMax

/-- An alert about it is delivered. -/
def Seen.Told (n : String) (s : Seen) : Prop := s.look.sent = true ∧ n ∈ s.about

def Seen.Announced (s : Seen) : Prop := ∃ n, s.Told n

/-- It is not in the set, and nothing told at this round is lost. -/
def Seen.Dropped (n : String) (s : Seen) : Prop :=
  n ∉ s.look.names ∧ (s.out = none ∨ s.look.sent = true)

def Seen.Recovers (s : Seen) : Prop := ∃ kind text, s.out = some (.recovery kind text)

/-- The list is closed, by the common recovery or without a message. -/
def Seen.Ends (s : Seen) : Prop := s.Recovers ∨ ∃ kind why, s.out = some (.quietClosed kind why)

def Seen.Closed (s : Seen) : Prop := s.Ends ∧ s.look.sent = true

def look (l : BackupList) (st : ServerState) (r : Round) : Notices.Look String :=
  ⟨names st r l, r.on l, r.sent l⟩

def seen (l : BackupList) (st : ServerState) (r : Round) : Seen :=
  ⟨(st.noted l).repos, look l st r, r.all, (block st r l).2⟩

/-- The rounds at which the block of the list runs. -/
def history (l : BackupList) : ServerState → List Round → List Seen
  | _, [] => []
  | st, r :: rs => (if r.looks l then [seen l st r] else []) ++ history l (step st r) rs

/-! ## What a block does -/

/-- The repositories: what is left of the announced. -/
def leftOver : Notices.Narrowing String where
  due p s := p.any (· ∉ s)
  kept p s := sortedSet (p.filter (· ∈ s))
  mem_of_kept h := by simpa using (List.mem_filter.mp (mem_sortedSet.mp h)).2
  kept_of_mem hp hs := mem_sortedSet.mpr (List.mem_filter.mpr ⟨hp, by simpa using hs⟩)
  due_of_gone hp hs := List.any_eq_true.mpr ⟨_, hp, by simpa using hs⟩
  noted_of_due h := by
    obtain ⟨n, hn, -⟩ := List.any_eq_true.mp h
    exact List.ne_nil_of_mem hn

/-- The other lists: the set as it is. -/
def asItIs : Notices.Narrowing String where
  due p s := p ≠ [] ∧ s ≠ p
  kept _ s := s
  mem_of_kept := id
  kept_of_mem _ hs := hs
  due_of_gone hp hs := decide_eq_true ⟨List.ne_nil_of_mem hp, fun he => hs (he ▸ hp)⟩
  noted_of_due h := (of_decide_eq_true h).1

def narrowing : BackupList → Notices.Narrowing String
  | .repos => leftOver
  | _ => asItIs

theorem leftOver_strict : leftOver.Strict :=
  fun h => (List.mem_filter.mp (mem_sortedSet.mp h)).1

theorem asItIs_full : asItIs.Full := id

theorem narrowing_of_ne {l : BackupList} (hl : l ≠ .repos) : narrowing l = asItIs := by
  cases l with
  | repos => exact absurd rfl hl
  | _ => rfl

theorem mem_freshNames {names prev : List String} {n : String} :
    n ∈ freshNames names prev ↔ n ∈ names ∧ n ∉ prev := by
  simp [freshNames, mem_sortedSet]

theorem freshNames_ne_nil {names prev : List String} :
    freshNames names prev ≠ [] ↔ Notices.new prev names ≠ [] := by
  simp only [ne_eq, List.eq_nil_iff_forall_not_mem, mem_freshNames, Notices.mem_new]

/-- The archived and muted repositories that are still broken. -/
def Hidden (l : BackupList) (s : Seen) : Prop := l = .repos ∧ ∃ n ∈ s.noted, n ∈ s.all

/-- How many items the list of an alert has room for. -/
def room : BackupList → Nat
  | .repos => 8
  | .locks => 6
  | .checks => 6
  | .prunes => 6
  | .copies => 4

/-- A list of these names: each item begins with its name. -/
structure Listed.Of (x : Listed) (l : BackupList) (ns : List String) : Prop where
  limit : x.limit = room l
  names : ∀ n, n ∈ x.items.map Prod.fst ↔ n ∈ ns
  said : ∀ i ∈ x.items, ∃ rest, i.2 = i.1 ++ rest

/-- What is told of a look that a word stands for. -/
inductive Says (l : BackupList) (s : Seen) : Notices.Word String → Prop
  | silent : s.out = none → Says l s .silent
  | fresh {kind field shown fs whys ns} : s.out = some (.fire kind field shown fs whys) →
      shown.Of l fs → (∀ n, n ∈ fs ↔ n ∈ ns) → Says l s (.fresh ns)
  | quiet {kind why} : Hidden l s → s.out = some (.quietClosed kind why) → Says l s .empty
  | recovers {kind text} : ¬ Hidden l s → s.out = some (.recovery kind text) → Says l s .empty

/-- The three ways that a block goes on. -/
theorem word_cases (noted : List String) (x : Notices.Look String) :
    ((freshNames x.names noted ≠ [] ∧ x.on = true) ∧
      Notices.word noted x = .fresh (Notices.new noted x.names)) ∨
    (¬ (freshNames x.names noted ≠ [] ∧ x.on = true) ∧ (x.names = [] ∧ noted ≠ []) ∧
      Notices.word noted x = .empty) ∨
    (¬ (freshNames x.names noted ≠ [] ∧ x.on = true) ∧ ¬ (x.names = [] ∧ noted ≠ []) ∧
      Notices.word noted x = .silent) := by
  unfold Notices.word
  rw [freshNames_ne_nil]
  by_cases hnew : Notices.new noted x.names ≠ [] ∧ x.on = true
  · exact .inl ⟨hnew, if_pos hnew⟩
  · rw [if_neg hnew]
    by_cases hempty : x.names = [] ∧ noted ≠ []
    · exact .inr (.inl ⟨hnew, hempty, if_pos hempty⟩)
    · exact .inr (.inr ⟨hnew, hempty, if_neg hempty⟩)

theorem mem_fresh_iff_new {names noted : List String} (n : String) :
    n ∈ freshNames names noted ↔ n ∈ Notices.new noted names := by
  rw [mem_freshNames, Notices.mem_new]

theorem noteNew_repos (kind : Kind) (field : String) (shown : List String → Listed)
    (recovered : String) (now : Time) (prev : Noted) (x : Notices.Look String) :
    (noteNew kind field shown recovered x.on x.sent now x.names prev).1.repos =
      Notices.next asItIs prev.repos x := by
  unfold noteNew Notices.next
  dsimp only
  rcases word_cases prev.repos x with ⟨hnew, hw⟩ | ⟨hno, hempty, hw⟩ | ⟨hno, hne, hw⟩
  · rw [if_pos hnew, hw]
    cases x.sent <;> rfl
  · rw [if_neg hno, if_neg fun h => h.1 hempty.1, if_pos hempty, hw]
    cases x.sent <;> rfl
  · rw [if_neg hno, hw]
    dsimp only
    by_cases hdue : x.names ≠ [] ∧ prev.repos ≠ [] ∧ x.names ≠ prev.repos
    · have hdue' : x.names ≠ [] ∧ asItIs.due prev.repos x.names = true :=
        ⟨hdue.1, decide_eq_true hdue.2⟩
      rw [if_pos hdue, if_pos hdue']
      rfl
    · have hdue' : ¬ (x.names ≠ [] ∧ asItIs.due prev.repos x.names = true) :=
        fun h => hdue ⟨h.1, of_decide_eq_true h.2⟩
      rw [if_neg hdue, if_neg hne, if_neg hdue']

theorem noteNew_tells {l : BackupList} (hl : l ≠ .repos) (kind : Kind) (field : String)
    {shown : List String → Listed} (recovered : String) (now : Time) (prev : Noted)
    (x : Notices.Look String) (all : List String)
    (hshown : ∀ fs, (∀ n ∈ fs, n ∈ x.names) → (shown fs).Of l fs) :
    Says l ⟨prev.repos, x, all,
      (noteNew kind field shown recovered x.on x.sent now x.names prev).2⟩
      (Notices.word prev.repos x) := by
  unfold noteNew
  dsimp only
  rcases word_cases prev.repos x with ⟨hnew, hw⟩ | ⟨hno, hempty, hw⟩ | ⟨hno, hne, hw⟩
  · rw [if_pos hnew, hw]
    exact .fresh rfl (hshown _ fun n hn => (mem_freshNames.mp hn).1) mem_fresh_iff_new
  · rw [if_neg hno, if_neg fun h => h.1 hempty.1, if_pos hempty, hw]
    exact .recovers (fun h => hl h.1) rfl
  · rw [if_neg hno, if_neg hne, hw]
    apply Says.silent
    split <;> rfl

theorem backupRepo_repos (r : Round) (prev : Noted) :
    (backupRepo r prev).1.repos =
      Notices.next leftOver prev.repos ⟨r.probs, r.on .repos, r.sent .repos⟩ := by
  unfold backupRepo Notices.next
  dsimp only
  rcases word_cases prev.repos ⟨r.probs, r.on .repos, r.sent .repos⟩ with
    ⟨hnew, hw⟩ | ⟨hno, hempty, hw⟩ | ⟨hno, hne, hw⟩
  · rw [if_pos hnew, hw]
    cases r.sent .repos <;> rfl
  · rw [if_neg hno, if_neg fun h => h.1 hempty.1, if_pos hempty, hw]
    cases r.sent .repos <;> rfl
  · rw [if_neg hno, if_neg hne, hw]
    dsimp only
    by_cases hdue : r.probs ≠ [] ∧ (prev.repos.any (· ∉ r.probs)) = true
    · rw [if_pos hdue]
      exact (if_pos hdue).symm
    · rw [if_neg hdue]
      exact (if_neg hdue).symm

/-- One item for each name. -/
theorem mapped_of {l : BackupList} {x : Listed} {fs : List String} {say : String → String}
    (hsay : ∀ n, ∃ rest, say n = n ++ rest) (hlimit : x.limit = room l)
    (hitems : x.items = fs.map fun n => (n, say n)) : x.Of l fs where
  limit := hlimit
  names n := by simp [hitems]
  said i hi := by
    obtain ⟨n, -, rfl⟩ := List.mem_map.mp (hitems ▸ hi)
    exact hsay n

theorem bracketed (n why : String) : ∃ rest, n ++ " (" ++ why ++ ")" = n ++ rest :=
  ⟨" (" ++ why ++ ")", by simp only [String.append_assoc]⟩

theorem zip_map_items (fs : List String) (why : String → String) :
    ((fs.zip (fs.map why)).map fun (p, w) => (p, p ++ " (" ++ w ++ ")")) =
      fs.map fun n => (n, n ++ " (" ++ why n ++ ")") := by
  induction fs with
  | nil => rfl
  | cons f fs ih =>
    rw [List.map_cons, List.zip_cons_cons, List.map_cons, List.map_cons, ih]

theorem lockItems_of (locks : List (String × Int)) {fs : List String}
    (hfs : ∀ n ∈ fs, n ∈ locks.map Prod.fst) :
    Listed.Of { sep := ", ", limit := 6, items := (locks.filter (·.1 ∈ fs)).map fun (n, d) =>
      (n, n ++ " (" ++ toString d ++ " дн)") } .locks fs where
  limit := rfl
  names n := by
    constructor
    · intro hn
      obtain ⟨i, hi, rfl⟩ := List.mem_map.mp hn
      obtain ⟨p, hp, rfl⟩ := List.mem_map.mp hi
      simpa using (List.mem_filter.mp hp).2
    · intro hn
      obtain ⟨p, hp, rfl⟩ := List.mem_map.mp (hfs n hn)
      exact List.mem_map.mpr ⟨_, List.mem_map_of_mem (List.mem_filter.mpr ⟨hp, by simpa⟩), rfl⟩
  said i hi := by
    obtain ⟨⟨n, d⟩, -, rfl⟩ := List.mem_map.mp hi
    exact ⟨" (" ++ toString d ++ " дн)", by simp only [String.append_assoc]⟩

theorem mem_copyItems {mp : List (String × (Int × String))} {fs : List String}
    {i : String × String} (hi : i ∈ copyItems mp fs) :
    i.1 ∈ fs ∧ ∃ rest, i.2 = i.1 ++ rest := by
  obtain ⟨⟨n, level, t⟩, hp, rfl⟩ := List.mem_map.mp hi
  obtain ⟨m, hm, he⟩ := List.mem_filterMap.mp ((List.mem_insertionSort _).mp hp)
  obtain ⟨p, -, hp⟩ := Option.map_eq_some_iff.mp he
  cases hp
  exact ⟨hm, ": " ++ t, String.append_assoc⟩

theorem copyItems_of (mp : List (String × (Int × String))) {fs : List String}
    (hfs : ∀ n ∈ fs, n ∈ Dict.keys mp) :
    Listed.Of { sep := "; ", limit := 4, items := copyItems mp fs } .copies fs where
  limit := rfl
  names n := by
    constructor
    · intro hn
      obtain ⟨i, hi, rfl⟩ := List.mem_map.mp hn
      exact (mem_copyItems hi).1
    · intro hn
      have hlook : mp.lookup n ≠ none := fun he => Dict.lookup_eq_none.mp he (hfs n hn)
      obtain ⟨p, hp⟩ := Option.ne_none_iff_exists'.mp hlook
      refine List.mem_map.mpr ⟨(n, n ++ ": " ++ p.2), List.mem_map.mpr ⟨(n, p), ?_, rfl⟩, rfl⟩
      exact (List.mem_insertionSort _).mpr (List.mem_filterMap.mpr ⟨n, hn, by rw [hp]; rfl⟩)
  said i hi := (mem_copyItems hi).2

theorem backupRepo_tells (r : Round) (prev : Noted) :
    Says .repos ⟨prev.repos, ⟨r.probs, r.on .repos, r.sent .repos⟩, r.all, (backupRepo r prev).2⟩
      (Notices.word prev.repos ⟨r.probs, r.on .repos, r.sent .repos⟩) := by
  unfold backupRepo
  dsimp only
  rcases word_cases prev.repos ⟨r.probs, r.on .repos, r.sent .repos⟩ with
    ⟨hnew, hw⟩ | ⟨hno, hempty, hw⟩ | ⟨hno, hne, hw⟩
  · rw [if_pos hnew, hw]
    refine .fresh rfl ?_ mem_fresh_iff_new
    exact mapped_of (fun n => bracketed n _) rfl (zip_map_items _ _)
  · rw [if_neg hno, if_neg fun h => h.1 hempty.1, if_pos hempty, hw]
    have hany : (prev.repos.any (· ∈ r.all)) = true ↔ ∃ n ∈ prev.repos, n ∈ r.all := by simp
    by_cases hidden : (prev.repos.any (· ∈ r.all)) = true
    · exact .quiet ⟨rfl, hany.mp hidden⟩ (if_pos hidden)
    · exact .recovers (fun h => hidden (hany.mpr h.2)) (if_neg hidden)
  · rw [if_neg hno, if_neg hne, hw]
    apply Says.silent
    split <;> rfl

theorem block_repos (l : BackupList) (st : ServerState) (r : Round) :
    (block st r l).1.repos = Notices.next (narrowing l) (st.noted l).repos (look l st r) := by
  cases l with
  | repos => exact backupRepo_repos r _
  | locks => exact noteNew_repos _ _ _ _ _ _ (look .locks st r)
  | checks => exact noteNew_repos _ _ _ _ _ _ (look .checks st r)
  | prunes => exact noteNew_repos _ _ _ _ _ _ (look .prunes st r)
  | copies => exact noteNew_repos _ _ _ _ _ _ (look .copies st r)

theorem block_tells (l : BackupList) (st : ServerState) (r : Round) :
    Says l (seen l st r) (Notices.word (st.noted l).repos (look l st r)) := by
  cases l with
  | repos => exact backupRepo_tells r _
  | locks =>
    exact noteNew_tells (l := .locks) nofun _ _ _ _ _ (look .locks st r) _ fun _ => lockItems_of r.locks
  | checks =>
    refine noteNew_tells (l := .checks) nofun _ _ _ _ _ (look .checks st r) _ fun _ _ => mapped_of ?_ rfl rfl
    exact fun n => ⟨"", String.append_empty.symm⟩
  | prunes =>
    refine noteNew_tells (l := .prunes) nofun _ _ _ _ _ (look .prunes st r) _ fun _ _ => mapped_of ?_ rfl rfl
    exact fun n => bracketed n _
  | copies =>
    refine noteNew_tells (l := .copies) nofun _ _ _ _ _ (look .copies st r) _ fun _ hfs => copyItems_of r.mp ?_
    exact fun n hn => mem_sortedSet.mp (hfs n hn)

/-! ## The history as turns of the machine -/

def Seen.turn (s : Seen) : Notices.Turn String := ⟨s.look, Notices.word s.noted s.look⟩

theorem noted_after (l : BackupList) (st : ServerState) (r : Round) :
    ((step st r).noted l).repos = if r.looks l then
      Notices.next (narrowing l) (st.noted l).repos (look l st r) else (st.noted l).repos := by
  rw [noted_step, ← block_repos]
  unfold noteAfter
  split <;> rfl

/-- The words of a list are those of what it notes of its looks. -/
theorem turns_history (l : BackupList) (st : ServerState) (rs : List Round) :
    Notices.turns (narrowing l) (st.noted l).repos ((history l st rs).map Seen.look) =
      (history l st rs).map Seen.turn := by
  induction rs generalizing st with
  | nil => rfl
  | cons r rs ih =>
    have htail := ih (step st r)
    rw [noted_after] at htail
    unfold history
    by_cases hl : r.looks l = true
    · rw [if_pos hl] at htail ⊢
      simp only [List.singleton_append, List.map_cons]
      rw [Notices.turns]
      exact congrArg _ htail
    · rw [if_neg hl] at htail ⊢
      exact htail

/-- What is noted before a round is what the looks before it made of it. -/
theorem noted_of_cut {l : BackupList} {st : ServerState} {rs : List Round} {us rest : List Seen}
    {t : Seen} (h : history l st rs = us ++ t :: rest) :
    t.noted = Runs.run (Notices.next (narrowing l)) (st.noted l).repos (us.map Seen.look) := by
  induction rs generalizing st us with
  | nil => cases us <;> cases h
  | cons r rs ih =>
    unfold history at h
    by_cases hl : r.looks l = true
    · rw [if_pos hl, List.singleton_append] at h
      cases us with
      | nil =>
        obtain ⟨rfl, -⟩ := List.cons.inj h
        rfl
      | cons u us =>
        obtain ⟨rfl, htail⟩ := List.cons.inj h
        rw [ih htail, noted_after, if_pos hl]
        rfl
    · rw [if_neg hl, List.nil_append] at h
      rw [ih h, noted_after, if_neg hl]

theorem says_of_mem {l : BackupList} {st : ServerState} {rs : List Round} {s : Seen}
    (h : s ∈ history l st rs) : Says l s s.turn.said := by
  induction rs generalizing st with
  | nil => cases h
  | cons r rs ih =>
    unfold history at h
    rcases List.mem_append.mp h with h | h
    · split at h
      next =>
        rw [List.mem_singleton.mp h]
        exact block_tells l st r
      next => cases h
    · exact ih h

section Words

variable {l : BackupList} {s : Seen} {n : String}

theorem mem_about (h : Says l s s.turn.said) :
    n ∈ s.about ↔ ∃ ns, s.turn.said = .fresh ns ∧ n ∈ ns := by
  unfold Seen.about
  generalize s.turn.said = said at h
  cases h with
  | silent hout => simp [hout]
  | fresh hout _ hns => simp [hout, hns]
  | quiet _ hout => simp [hout]
  | recovers _ hout => simp [hout]

theorem told_iff (h : Says l s s.turn.said) : s.Told n ↔ s.turn.Told n :=
  and_congr_right fun _ => mem_about h

/-- The text of an alert is a list of what it is about. -/
theorem listed_of {x : Listed} (h : Says l s s.turn.said) (hx : s.listed = some x) :
    x.Of l s.about := by
  unfold Seen.listed at hx
  unfold Seen.about
  generalize s.turn.said = said at h
  cases h with
  | silent hout => simp [hout] at hx
  | fresh hout hof =>
    rw [hout] at hx ⊢
    cases hx
    exact hof
  | quiet _ hout => simp [hout] at hx
  | recovers _ hout => simp [hout] at hx

theorem announced_iff (h : Says l s s.turn.said) : s.Announced ↔ s.turn.Announced :=
  exists_congr fun _ => told_iff h

theorem out_none_iff (h : Says l s s.turn.said) : s.out = none ↔ s.turn.said = .silent := by
  generalize s.turn.said = said at h
  cases h with
  | silent hout => simp [hout]
  | fresh hout => simp [hout]
  | quiet _ hout => simp [hout]
  | recovers _ hout => simp [hout]

theorem dropped_iff (h : Says l s s.turn.said) : s.Dropped n ↔ s.turn.Dropped n :=
  and_congr_right fun _ => or_congr_left (out_none_iff h)

theorem ends_iff (h : Says l s s.turn.said) : s.Ends ↔ s.turn.said = .empty := by
  unfold Seen.Ends Seen.Recovers
  generalize s.turn.said = said at h
  cases h with
  | silent hout => simp [hout]
  | fresh hout => simp [hout]
  | quiet _ hout => simp [hout]
  | recovers _ hout => simp [hout]

theorem closed_iff (h : Says l s s.turn.said) : s.Closed ↔ s.turn.Closed :=
  and_congr_left fun _ => ends_iff h

/-- A list that ends does so by the recovery, unless something announced is hidden. -/
theorem recovers_iff (h : Says l s s.turn.said) (hends : s.Ends) :
    s.Recovers ↔ ¬ Hidden l s := by
  rw [ends_iff h] at hends
  unfold Seen.Recovers
  rw [hends] at h
  cases h with
  | quiet hidden hout => simp [hout, hidden]
  | recovers hidden hout => simp [hout, hidden]

end Words

/-! ## The prunes that fail -/

def Round.Fails (r : Round) (n : String) : Prop := ∃ reason, (n, .failed, reason) ∈ r.cur

theorem mem_fails {held : List (String × Time)} {r : Round} {n : String} {t : Time}
    (h : (n, t) ∈ fails held r) : r.Fails n ∧ (t = r.now ∨ (n, t) ∈ held) := by
  unfold fails at h
  obtain ⟨⟨m, k, reason⟩, hm, he⟩ := List.mem_map.mp h
  obtain ⟨hcur, hk⟩ := List.mem_filter.mp hm
  obtain rfl : k = .failed := by simpa using hk
  obtain ⟨rfl, ht⟩ := Prod.mk.inj he
  refine ⟨⟨reason, hcur⟩, ?_⟩
  cases hl : held.lookup m with
  | none => exact .inl (by simpa [hl] using ht.symm)
  | some t' =>
    rw [hl] at ht
    dsimp only at ht
    split at ht
    next => exact .inl ht.symm
    next =>
      subst ht
      exact .inr (Dict.mem_of_lookup hl)

/-- The looks at the prunes. -/
def pruneLooks (rs : List Round) : List Round := rs.filter (·.looks .prunes)

theorem pruneLooks_snoc (rs : List Round) (r : Round) :
    pruneLooks (rs ++ [r]) =
      if r.looks .prunes then pruneLooks rs ++ [r] else pruneLooks rs := by
  unfold pruneLooks
  rw [List.filter_append]
  split
  next hl => simp [hl]
  next hl => simp [hl]

/-- A prune failed at a look at that time, and at every look since. -/
def FailsSince (n : String) (t : Time) (looks : List Round) : Prop :=
  Notices.Since (fun r : Round => r.now = t ∧ r.Fails n) (fun r => ¬ r.Fails n) looks

theorem failsSince_snoc {held : List (String × Time)} {looks : List Round} {r : Round} {n : String}
    {t : Time} (hheld : ∀ n t, (n, t) ∈ held → FailsSince n t looks) (h : (n, t) ∈ fails held r) :
    FailsSince n t (looks ++ [r]) := by
  apply Notices.since_snoc
  obtain ⟨hfail, hnow | hmem⟩ := mem_fails h
  · exact .inl ⟨hnow.symm, hfail⟩
  · exact .inr ⟨hheld n t hmem, not_not_intro hfail⟩

theorem pruneFail_step (st : ServerState) (r : Round) :
    (step st r).pruneFail = if r.looks .prunes then fails st.pruneFail r else st.pruneFail := rfl

/-- The time that is kept of a failing prune is that of a look at which it failed, and it
has failed at every look since. -/
theorem failsSince_run {rs : List Round} {n : String} {t : Time}
    (h : (n, t) ∈ (Runs.run step {} rs).pruneFail) : FailsSince n t (pruneLooks rs) := by
  induction rs using List.reverseRecOn generalizing n t with
  | nil => cases h
  | append_singleton rs r ih =>
    rw [Runs.run_snoc, pruneFail_step] at h
    rw [pruneLooks_snoc]
    split at h
    next hl =>
      rw [if_pos hl]
      exact failsSince_snoc (fun n t => ih) h
    next hl =>
      rw [if_neg hl]
      exact ih h

/-- A prune counts as broken at once, but one that fails only when it has failed at every
look for `_PRUNE_FAIL_HOLD`. -/
def Waited (looks : List Round) (r : Round) (n : String) : Prop :=
  (∃ k reason, k ≠ PruneKind.failed ∧ (n, k, reason) ∈ r.cur) ∨
    ∃ t, pruneFailHold ≤ r.now - t ∧ FailsSince n t (looks ++ [r])

theorem prunes_wait {rs : List Round} {r : Round} {n : String}
    (h : n ∈ names (Runs.run step {} rs) r .prunes) : Waited (pruneLooks rs) r n := by
  obtain ⟨⟨m, reason⟩, hshown, rfl⟩ := List.mem_map.mp (mem_sortedSet.mp h)
  obtain ⟨⟨m', k, reason'⟩, hcur, he⟩ := List.mem_map.mp hshown
  obtain ⟨rfl, rfl⟩ := Prod.mk.inj he
  obtain ⟨hcur, hk⟩ := List.mem_filter.mp hcur
  rcases Bool.or_eq_true_iff.mp hk with hkind | hheld
  · exact .inl ⟨k, reason', of_decide_eq_true hkind, hcur⟩
  · obtain ⟨t, ht, hold⟩ := (Option.any_eq_true _ _).mp hheld
    exact .inr ⟨t, of_decide_eq_true hold,
      failsSince_snoc (fun n t => failsSince_run) (Dict.mem_of_lookup ht)⟩

/-! ## The laws -/

/-- What the text of an alert says of the names that it is about: as many as it has room for
are named, the others only counted. -/
structure Spelled (l : BackupList) (names : List String) (x : Listed) : Prop where
  split : ∀ n, n ∈ names ↔ n ∈ x.named ∨ n ∈ x.counted
  named : ∀ n ∈ x.named, TgFmt.Has x.text n
  counted : x.counted ≠ [] → x.named.length = room l ∧
    ∃ a, x.text = a ++ " и еще " ++ toString x.counted.length

/-- What holds of the history of a list. -/
structure Lawful (l : BackupList) (h : List Seen) : Prop where
  /-- A repository in the set is among those that the round's alert is about, when no alert
  about it was delivered since it was dropped or the history began, and the rule was on while
  it was in the set: for the list of the repositories, whether the rule was on or not. -/
  again : ∀ us vs t rest n, h = us ++ vs ++ t :: rest →
    (us = [] ∨ ∃ u, us.getLast? = some u ∧ u.Dropped n) →
    (l = .repos ∨ ∀ v ∈ vs, n ∈ v.look.names → v.look.on = true) →
    (∀ v ∈ vs, ¬ v.Told n) → t.look.on = true → n ∈ t.look.names → n ∈ t.about
  /-- Its text names them, or counts them after the first. -/
  texts : ∀ s ∈ h, ∀ x, s.listed = some x → Spelled l s.about x
  /-- The chat names all of them, or the first `NAMES_MAX`. -/
  chats : ∀ s ∈ h, (∀ x ∈ s.chat, TgFmt.Has (TgFmt.names TgFmt.namesMax s.about) x) ∧
    ∀ n ∈ s.about, TgFmt.field n ≠ "" →
      TgFmt.field n ∈ s.chat ∨ s.chat.length = TgFmt.namesMax
  /-- Two delivered alerts are about a repository only if it left the set in between. -/
  once : ∀ us a vs b rest n, h = us ++ a :: vs ++ b :: rest → a.Told n → b.Told n →
    ∃ v ∈ vs, n ∉ v.look.names
  /-- A list ends when its set is empty, and a delivered alert was not closed since. -/
  ends : ∀ us t rest, h = us ++ t :: rest → t.Ends →
    t.look.names = [] ∧ Notices.Since Seen.Announced Seen.Closed us
  /-- And it does end there: the list of the repositories if the rule was on since. -/
  ended : ∀ us a vs t rest, h = us ++ a :: vs ++ t :: rest → a.Announced →
    (∀ v ∈ vs, ¬ v.Closed) → (l = .repos → ∀ v ∈ vs, v.look.on = true) →
    t.look.names = [] → t.Ends
  /-- The end is told by the recovery, but for repositories that were announced, not dropped
  since, and are still broken though archived or muted. -/
  recovers : ∀ us t rest, h = us ++ t :: rest → t.Ends →
    (t.Recovers ↔
      ¬ (l = .repos ∧ ∃ n, Notices.Since (Seen.Told n) (Seen.Dropped n) us ∧ n ∈ t.all))

/-- Whether the two ends of `Since` are read off the history or off its turns. -/
theorem since_map {A C : Seen → Prop} {A' C' : Notices.Turn String → Prop} {us : List Seen}
    (hA : ∀ s ∈ us, A s ↔ A' s.turn) (hC : ∀ s ∈ us, C s ↔ C' s.turn) :
    Notices.Since A C us ↔ Notices.Since A' C' (us.map Seen.turn) := by
  constructor
  · rintro ⟨u, a, v, rfl, ha, hv⟩
    refine ⟨u.map Seen.turn, a.turn, v.map Seen.turn, by simp, (hA a (by simp)).mp ha, ?_⟩
    intro t ht
    obtain ⟨s, hs, rfl⟩ := List.mem_map.mp ht
    exact fun hc => hv s hs ((hC s (by simp [hs])).mpr hc)
  · rintro ⟨u', a', v', hcut, ha, hv⟩
    obtain ⟨u, rest, rfl, rfl, hrest⟩ := List.map_eq_append_iff.mp hcut
    obtain ⟨a, v, rfl, rfl, rfl⟩ := List.map_eq_cons_iff.mp hrest
    refine ⟨u, a, v, rfl, (hA a (by simp)).mpr ha, fun s hs hc => ?_⟩
    exact hv s.turn (List.mem_map_of_mem hs) ((hC s (by simp [hs])).mp hc)

section Laws

variable {l : BackupList} {rs : List Round} {us vs rest : List Seen} {a b t : Seen} {n : String}

theorem turns_of_start (l : BackupList) (rs : List Round) :
    Notices.turns (narrowing l) [] ((history l {} rs).map Seen.look) =
      (history l {} rs).map Seen.turn := by
  have h := turns_history l {} rs
  have hstart : (ServerState.noted {} l).repos = [] := by cases l <;> rfl
  rwa [hstart] at h

theorem turns_of_cut (h : history l {} rs = us ++ t :: rest) :
    Notices.turns (narrowing l) [] ((history l {} rs).map Seen.look) =
      us.map Seen.turn ++ t.turn :: rest.map Seen.turn := by
  rw [turns_of_start, h, List.map_append, List.map_cons]

theorem says_in (h : history l {} rs = us ++ rest) (ht : t ∈ us ++ rest) : Says l t t.turn.said :=
  says_of_mem (h ▸ ht)

/-- What is noted of the repositories was announced, and not dropped since. -/
theorem mem_noted_iff (h : history .repos {} rs = us ++ t :: rest) :
    n ∈ t.noted ↔ Notices.Since (Seen.Told n) (Seen.Dropped n) us := by
  have hturns := turns_history .repos {} rs
  rw [h, List.map_append, List.map_append] at hturns
  have htells : ∀ s ∈ us, Says .repos s s.turn.said := fun s hs =>
    says_in h (List.mem_append_left _ hs)
  have hus : Notices.turns leftOver [] (us.map Seen.look) = us.map Seen.turn := by
    rw [Notices.turns_append] at hturns
    refine (List.append_inj hturns ?_).1
    rw [← List.length_map Notices.Turn.look, Notices.map_look_turns]
    simp
  rw [noted_of_cut h, since_map (fun s hs => told_iff (htells s hs))
    (fun s hs => dropped_iff (htells s hs)), ← hus]
  exact ⟨Notices.since_of_noted (.inl leftOver_strict), Notices.noted_of_since⟩

theorem again_history (h : history l {} rs = us ++ vs ++ t :: rest)
    (hstart : us = [] ∨ ∃ u, us.getLast? = some u ∧ u.Dropped n)
    (hmay : l = .repos ∨ ∀ v ∈ vs, n ∈ v.look.names → v.look.on = true)
    (htold : ∀ v ∈ vs, ¬ v.Told n) (hon : t.look.on = true) (hn : n ∈ t.look.names) :
    n ∈ t.about := by
  have htells : ∀ s ∈ us ++ vs ++ t :: rest, Says l s s.turn.said := fun s hs => says_in h hs
  have hcut := turns_of_cut h
  rw [List.map_append] at hcut
  apply (mem_about (htells t (by simp))).mpr
  refine Notices.told_again hcut ?_ ?_ ?_ hon hn
  · rcases hstart with rfl | ⟨u, hlast, hdrop⟩
    · exact .inl rfl
    · have hu : u ∈ us := List.mem_of_getLast? hlast
      have hdrop' := (dropped_iff (htells u (by simp [hu]))).mp hdrop
      exact .inr ⟨u.turn, by simp [hlast], hdrop'⟩
  · refine hmay.imp (fun he => ?_) fun hall v hv => ?_
    · subst he
      exact leftOver_strict
    · obtain ⟨s, hs, rfl⟩ := List.mem_map.mp hv
      exact hall s hs
  · intro v hv
    obtain ⟨s, hs, rfl⟩ := List.mem_map.mp hv
    rw [← told_iff (htells s (by simp [hs]))]
    exact htold s hs

theorem spelled_of {names : List String} {x : Listed} (hx : x.Of l names) :
    Spelled l names x where
  split n := by
    rw [← hx.names, ← List.take_append_drop x.limit x.items, List.map_append, List.mem_append]
    rfl
  named n hn := by
    obtain ⟨i, hi, rfl⟩ := List.mem_map.mp hn
    obtain ⟨rest, he⟩ := hx.said i (List.mem_of_mem_take hi)
    have hmem : i.2 ∈ (x.items.map Prod.snd).take x.limit := by
      rw [← List.map_take]
      exact List.mem_map_of_mem hi
    have hitem : TgFmt.Has i.2 i.1 := he ▸ TgFmt.has_append_left _ _
    exact (TgFmt.has_append_right _ _).trans ((TgFmt.has_listText hmem).trans hitem)
  counted hc := by
    have hlt : x.limit < x.items.length := by
      simpa [Listed.counted] using hc
    have hlen : x.counted.length = x.items.length - x.limit := by simp [Listed.counted]
    refine ⟨by simp [Listed.named, ← hx.limit, hlt.le],
      x.head ++ x.sep.intercalate ((x.items.map Prod.snd).take x.limit), ?_⟩
    unfold Listed.text TgFmt.listText
    rw [List.length_map, if_pos hlt, hlen]
    simp only [String.append_assoc]

theorem chat_or_full {s : Seen} (hn : n ∈ s.about) (hne : TgFmt.field n ≠ "") :
    TgFmt.field n ∈ s.chat ∨ s.chat.length = TgFmt.namesMax := by
  have hmem : TgFmt.field n ∈ TgFmt.distinct s.about := TgFmt.mem_distinct.mpr ⟨hne, n, hn, rfl⟩
  unfold Seen.chat
  by_cases hlen : (TgFmt.distinct s.about).length ≤ TgFmt.namesMax
  · rw [List.take_of_length_le hlen]
    exact .inl hmem
  · exact .inr (List.length_take_of_le (Nat.le_of_not_le hlen))

theorem once_history (h : history l {} rs = us ++ a :: vs ++ b :: rest) (ha : a.Told n)
    (hb : b.Told n) : ∃ v ∈ vs, n ∉ v.look.names := by
  have hcut := turns_of_cut h
  rw [List.map_append, List.map_cons] at hcut
  rw [told_iff (says_in h (by simp))] at ha hb
  obtain ⟨v, hv, hout⟩ := Notices.told_once hcut ha hb
  obtain ⟨s, hs, rfl⟩ := List.mem_map.mp hv
  exact ⟨s, hs, hout⟩

theorem ends_history (h : history l {} rs = us ++ t :: rest) (hends : t.Ends) :
    t.look.names = [] ∧ Notices.Since Seen.Announced Seen.Closed us := by
  rw [ends_iff (says_in h (by simp))] at hends
  obtain ⟨hempty, hsince⟩ := Notices.announced_of_empty (turns_of_cut h) hends
  refine ⟨hempty, (since_map ?_ ?_).mpr hsince⟩
  · exact fun s hs => announced_iff (says_in h (by simp [hs]))
  · exact fun s hs => closed_iff (says_in h (by simp [hs]))

theorem ended_history (h : history l {} rs = us ++ a :: vs ++ t :: rest) (ha : a.Announced)
    (hopen : ∀ v ∈ vs, ¬ v.Closed) (hon : l = .repos → ∀ v ∈ vs, v.look.on = true)
    (hempty : t.look.names = []) : t.Ends := by
  have hcut := turns_of_cut h
  rw [List.map_append, List.map_cons] at hcut
  rw [ends_iff (says_in h (by simp))]
  rw [announced_iff (says_in h (by simp))] at ha
  refine Notices.empty_of_announced hcut ha ?_ ?_ hempty
  · intro v hv
    obtain ⟨s, hs, rfl⟩ := List.mem_map.mp hv
    rw [← closed_iff (says_in h (by simp [hs]))]
    exact hopen s hs
  · by_cases hl : l = .repos
    · refine .inr fun v hv => ?_
      obtain ⟨s, hs, rfl⟩ := List.mem_map.mp hv
      exact hon hl s hs
    · rw [narrowing_of_ne hl]
      exact .inl asItIs_full

theorem recovers_history (h : history l {} rs = us ++ t :: rest) (hends : t.Ends) :
    t.Recovers ↔
      ¬ (l = .repos ∧ ∃ n, Notices.Since (Seen.Told n) (Seen.Dropped n) us ∧ n ∈ t.all) := by
  rw [recovers_iff (says_in h (by simp)) hends]
  refine not_congr (and_congr_right fun hl => ?_)
  subst hl
  exact exists_congr fun n => and_congr_left fun _ => mem_noted_iff h

end Laws

/-- In every run of rounds, from a state that notes nothing, whatever is delivered, each of
the five lists tells of a repository as it comes, once while it stays, and of the end: by name
while there is room in the text, then as one more. A prune that fails is in its set only
after the hold. -/
theorem backup_lists_announce_once (l : BackupList) (rs : List Round) :
    Lawful l (history l {} rs) ∧
      ∀ r n, n ∈ names (Runs.run step {} rs) r .prunes → Waited (pruneLooks rs) r n := by
  refine ⟨?_, fun r n => prunes_wait⟩
  exact {
    again := fun _ _ _ _ _ h => again_history h
    texts := fun _ hs _ hx => spelled_of (listed_of (says_of_mem hs) hx)
    chats := fun _ _ => ⟨fun _ => TgFmt.has_listText, fun _ => chat_or_full⟩
    once := fun _ _ _ _ _ _ h => once_history h
    ends := fun _ _ _ h => ends_history h
    ended := fun _ _ _ _ _ h => ended_history h
    recovers := fun _ _ _ h => recovers_history h }

/-! ## Where the lists fall short -/

/-- A round at which every block runs, every rule is on and everything is delivered. -/
def quietRound (now : Time) : Round where
  now := now
  looks _ := true
  on _ := true
  sent _ := true
  locks := []
  bad := []
  mp := []
  cur := []
  probs := []
  all := []
  reason _ := "нет config"

/-- One repository leaves the locks as the alert about another is not delivered. -/
def lostRounds : List Round :=
  [{ quietRound 0 with locks := [("db", 2)] },
    { quietRound (sec 60) with locks := [("web", 2)], sent := fun _ => false },
    { quietRound (sec 120) with locks := [("db", 2), ("web", 2)] }]

/-- Seven repositories come to the locks in one round. -/
def sevenLocks : List (String × Int) :=
  [("a", 2), ("b", 2), ("c", 2), ("d", 2), ("e", 2), ("f", 2), ("g", 2)]

def manyRounds : List Round :=
  [{ quietRound 0 with locks := sevenLocks }, { quietRound (sec 60) with locks := sevenLocks }]

theorem freshNames_seven :
    freshNames (sevenLocks.map Prod.fst) [] = ["a", "b", "c", "d", "e", "f", "g"] := by
  have hsorted : (sevenLocks.map Prod.fst).Pairwise (· < ·) := by decide +kernel
  unfold freshNames
  rw [List.filter_eq_self.mpr (by simp), sortedSet_of_sorted hsorted]
  rfl

/-- A broken repository is archived. -/
def archivedRounds : List Round :=
  [{ quietRound 0 with probs := ["db"], all := ["db"] },
    { quietRound (sec 60) with all := ["db"] }]

/-- A lock that left and came back is not named where the round at which it was gone lost its
message; the seventh of seven new ones is named in no text, and noted all the same; and a list
can end without the recovery. -/
theorem not_named_on_return :
    (history .locks {} lostRounds).map (fun s => (s.look.names, s.look.sent, s.about)) =
      [(["db"], true, ["db"]), (["web"], false, ["web"]), (["db", "web"], true, ["web"])] ∧
    (history .locks {} manyRounds).map (fun s => (s.noted, s.look.sent,
        s.listed.map Listed.named, s.listed.map Listed.counted, s.chat)) =
      [([], true, some ["a", "b", "c", "d", "e", "f"], some ["g"], ["a", "b", "c"]),
        (["a", "b", "c", "d", "e", "f", "g"], true, none, none, [])] ∧
    (history .repos {} archivedRounds).map (fun s => (s.look.names, s.about, s.out)) =
      [(["db"], ["db"], some (.fire .backupRepo "repos"
          ⟨"1 шт.: ", ", ", 8, [("db", "db (нет config)")]⟩ ["db"] ["нет config"])),
        ([], [], some (.quietClosed .backupRepo
          "оставшиеся репозитории в архиве или заглушены"))] := by
  refine ⟨?_, ?_, ?_⟩
  · decide +kernel
  · simp only [manyRounds, history, seen, step, noteAfter, block, backupLock, noteNew, quietRound,
      ServerState.noted, freshNames_seven]
    decide +kernel
  · decide +kernel

end Kervax.BackupLists
