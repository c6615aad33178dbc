-- What the alert about the access says (`changes.py`): the full text, which names the first
-- six events, and the short one of the chat, which reads the texts of the events back.
import Kervax.Changes
import Kervax.TgFmt

namespace Kervax.AccessText

/-- `events_text`. -/
def eventsText (events : List Entry) (limit : Nat) : String :=
  "; ".intercalate ((events.take limit).map (·.change.text) ++
    if limit < events.length then ["и еще " ++ toString (events.length - limit)] else [])

/-! ## The texts of the events read back -/

/-- What an event is about (`_parse`); `other` is a text that no pattern reads. -/
inductive Parsed
  | key (u c : String)
  | user (u : String)
  | uid0 (u : String)
  | group (u g : String)
  | file (path : String)
  | login (u ip : String)
  | other
deriving DecidableEq, Repr

/-- The rest of a text that begins so. -/
def after (lit : String) (s : List Char) : Option (List Char) := lit.toList.isPrefixOf? s

/-- `\S+`, which takes all it can. -/
def word (s : List Char) : Option (List Char × List Char) :=
  match s.span fun c => !isSpace c with
  | ([], _) => none
  | w => some w

/-- `$`: the end, or a last line break before it. -/
def atEnd (s : List Char) : Bool := s = [] ∨ s = ['\n']

/-- `\((?P<c>.*)\))?$` after the words of a key. -/
def keyComment (s : List Char) : Option (List Char) :=
  if atEnd s then some []
  else do
    let s ← after " (" s
    let s := if s.getLast? = some '\n' then s.dropLast else s
    if s.getLast? = some ')' ∧ '\n' ∉ s then some s.dropLast else none

def parseKey (s : List Char) : Option Parsed := do
  let s ← after "добавлен SSH-ключ пользователю " s
  let (u, s) ← word s
  let s ← after " " s
  let (_, s) ← word s
  let s ← after " " s
  let (_, s) ← word s
  let c ← keyComment s
  -- `\S+: `: the name ends at the last colon of its word
  if u.getLast? = some ':' ∧ u.dropLast ≠ [] then
    some (.key (String.ofList u.dropLast) (String.ofList c))
  else none

def parseUser (s : List Char) : Option Parsed := do
  let s ← after "новый пользователь " s
  let (u, s) ← word s
  let s ← after " (uid " s
  if ',' ∉ s then none
  else if s.takeWhile (· ≠ ',') = ['0'] then some (.uid0 (String.ofList u))
  else some (.user (String.ofList u))

def parseUid0 (s : List Char) : Option Parsed := do
  let s ← after "пользователь " s
  let (u, s) ← word s
  let s ← after " получил uid 0" s
  if atEnd s then some (.uid0 (String.ofList u)) else none

def parseGroup (s : List Char) : Option Parsed := do
  let (u, s) ← word s
  let s ← after " добавлен в группу " s
  let (g, s) ← word s
  if atEnd s then some (.group (String.ofList u) (String.ofList g)) else none

def parseFile (s : List Char) : Option Parsed := do
  let s ← (after "добавлен " s).or (after "изменен " s)
  let (path, s) ← word s
  if path.head? = some '/' ∧ path.tail ≠ [] ∧ atEnd s then some (.file (String.ofList path)) else none

def parseLogin (s : List Char) : Option Parsed := do
  let s ← after "вход по паролю: " s
  let (u, s) ← word s
  let s ← after " с " s
  let (w, _) ← word s
  -- `\S+,`: the address ends at the last comma of its word
  let ip := ((w.reverse.dropWhile (· ≠ ',')).drop 1).reverse
  if ip = [] then none else some (.login (String.ofList u) (String.ofList ip))

/-- `_parse`: the first of `_EV_RE` that reads the text. -/
def parse (text : String) : Parsed :=
  let s := text.toList
  ((parseKey s).or ((parseUser s).or ((parseUid0 s).or ((parseGroup s).or ((parseFile s).or
    (parseLogin s)))))).getD .other

/-- `"what"`. -/
inductive What
  | key | user | uid0 | group | file | login | other
deriving DecidableEq

def Parsed.what : Parsed → What
  | .key .. => .key
  | .user _ => .user
  | .uid0 _ => .uid0
  | .group .. => .group
  | .file _ => .file
  | .login .. => .login
  | .other => .other

/-- `p.get("u")`. -/
def Parsed.u : Parsed → Option String
  | .key u _ => some u
  | .user u => some u
  | .uid0 u => some u
  | .group u _ => some u
  | .login u _ => some u
  | .file _ => none
  | .other => none

/-- `_COMMENT_MAX`. -/
def commentMax : Nat := 40

/-- `_comment`. -/
def comment (c : String) : String :=
  let s := Texts.stripBy isSpace c.toList
  String.ofList (if s.length ≤ commentMax then s
    else Texts.rstripBy isSpace (s.take (commentMax - 3)) ++ ['.', '.', '.'])

/-- `_sudo_of`: whom an event gives sudo. -/
def sudoOf : Parsed → String
  | .group u _ => u
  | .file path =>
    if "/etc/sudoers.d/".toList.isPrefixOf path.toList then
      String.ofList (Texts.afterLast ['/'] path.toList)
    else ""
  | _ => ""

/-- `_more`. -/
def more : Parsed → String
  | .key u _ => "ключ " ++ u
  | .user u => "пользователь " ++ u
  | .uid0 u => "uid 0 у " ++ u
  | .group u _ => "sudo у " ++ u
  | .file path => path
  | .login u _ => "вход " ++ u ++ " по паролю"
  | .other => ""

/-! ## The short text -/

/-- A part of a line of facts: words, or a list that `names` cuts. -/
inductive Piece
  | words (s : String)
  | names (items : List String)
deriving DecidableEq, Repr

def Piece.text : Piece → String
  | .words s => s
  | .names items => TgFmt.names TgFmt.namesMax items

def lineText (f : List Piece) : String := "".intercalate (f.map Piece.text)

/-- Nothing is cut from its lists. -/
def Piece.whole : Piece → Bool
  | .words _ => true
  | .names items => (TgFmt.distinct items).length ≤ TgFmt.namesMax

/-- The main event: what happened, the fact, whom it is about, and which kinds of events about
them it covers. -/
structure Main where
  what : String
  fact : List Piece
  who : List String
  kinds : List What
deriving DecidableEq

section Short

variable (ps : List Parsed)

/-- `users`: who is new or has uid 0. -/
def users : List String :=
  ps.filterMap fun p => if p.what = .user ∨ p.what = .uid0 then p.u else none

def groupSudo : List String := ps.filterMap fun p => if p.what = .group then p.u else none

def sudoUsers : List String :=
  groupSudo ps ++ ((ps.filter fun p => p.what = .file).map sudoOf).filter (· ∈ users ps)

/-- `keys_of`. -/
def keysOf (u : String) : List String :=
  ps.filterMap fun p =>
    match p with
    | .key u' c => if u' = u then some (comment c) else none
    | _ => none

/-- `user_fact`. -/
def userFact (us : List String) : List Piece :=
  match us with
  | [u] =>
    let ks := keysOf ps u
    let cs := ks.filter (· ≠ "")
    if cs ≠ [] then [.words (u ++ ", вход по ключу "), .names cs]
    else if ks ≠ [] then [.words (u ++ ", вход по ключу")]
    else [.words u]
  | _ => [.names us]

def uid0 : List String := ps.filterMap fun p => if p.what = .uid0 then p.u else none

def logins : List String :=
  ps.filterMap fun p =>
    match p with
    | .login u ip => some (u ++ " с " ++ ip)
    | _ => none

def newUsers : List String :=
  (ps.filterMap fun p => if p.what = .user then p.u else none).eraseDups

def newSudo : List String := (newUsers ps).filter (· ∈ sudoUsers ps)

def oldSudo : List String := (groupSudo ps).eraseDups.filter (· ∉ users ps)

/-- The owners of the new keys. -/
def owners : List String := (ps.filterMap fun p => if p.what = .key then p.u else none)

def files : List String :=
  (ps.filterMap fun p =>
    match p with
    | .file path => if sudoOf p ∈ users ps then none else some path
    | _ => none).eraseDups

def keyFact : List Piece :=
  match (owners ps).eraseDups with
  | [u] =>
    let cs := (keysOf ps u).filter (· ≠ "")
    if cs ≠ [] then [.words (u ++ ": "), .names cs] else [.words u]
  | us => [.names (us.map fun u =>
      let cs := (keysOf ps u).filter (· ≠ "")
      if cs ≠ [] then u ++ ": " ++ ", ".intercalate cs else u)]

/-- The worst event, by danger. -/
def main : Option Main :=
  if uid0 ps ≠ [] then
    let uniq := (uid0 ps).eraseDups
    some ⟨if uniq.length = 1 then "Пользователь получил uid 0" else "Пользователи получили uid 0",
      [.names uniq], uniq, [.uid0, .user]⟩
  else if logins ps ≠ [] then
    some ⟨"Вход по паролю с нового адреса", [.names (logins ps).eraseDups], [], [.login]⟩
  else if newSudo ps ≠ [] then
    some ⟨if (newSudo ps).length = 1 then "Новый пользователь с sudo" else "Новые пользователи с sudo",
      userFact ps (newSudo ps), newSudo ps, [.user, .key, .group, .file]⟩
  else if oldSudo ps ≠ [] then
    some ⟨"Выданы права sudo", [.names (oldSudo ps)], oldSudo ps, [.group, .file]⟩
  else if newUsers ps ≠ [] then
    some ⟨if (newUsers ps).length = 1 then "Новый пользователь" else "Новые пользователи",
      userFact ps (newUsers ps), newUsers ps, [.user, .key]⟩
  else if owners ps ≠ [] then
    some ⟨if (owners ps).length = 1 then "Добавлен SSH-ключ" else "Добавлены SSH-ключи",
      keyFact ps, (owners ps).eraseDups, [.key]⟩
  else if files ps ≠ [] then some ⟨"Изменились права sudo", [.names (files ps)], [], [.file]⟩
  else none

/-- `covered`. -/
def Main.covers (m : Main) (p : Parsed) : Bool :=
  p.what ∈ m.kinds ∧ (m.who = [] ∨ p.u.any (· ∈ m.who) ∨ sudoOf p ∈ m.who)

def rest (m : Main) : List String :=
  ((ps.filter fun p => p.what ≠ .other && !m.covers p).map more).filter (· ≠ "")

/-- The lines of facts. -/
def facts (m : Main) : List (List Piece) :=
  (if lineText m.fact ≠ "" then [m.fact] else []) ++
    if rest ps m ≠ [] then [[.words "Еще: ", .names (rest ps m)]] else []

/-- No list of the lines is cut. -/
def Main.whole (m : Main) : Bool := (m.fact ++ [Piece.names (rest ps m)]).all Piece.whole

end Short

/-- `tg_short`. -/
def tgShort (texts : List String) : Option (String × List (List Piece)) :=
  if texts = [] then none
  else
    let ps := texts.map parse
    match main ps with
    | none => some ("Изменился доступ", [])
    | some m => some (m.what, facts ps m)

/-- The short text can read each of these, and cuts no list. -/
def roomy (texts : List String) : Bool :=
  let ps := texts.map parse
  (ps.all fun p => p.what ≠ .other) && (main ps).any (·.whole ps)

/-! ## What is read back -/

theorem word_ne_nil {s w r : List Char} (h : word s = some (w, r)) : w ≠ [] := by
  unfold word at h
  split at h
  next => cases h
  next hne =>
    rintro rfl
    exact hne r (Option.some.inj h)

theorem ofList_ne_empty {w : List Char} (h : w ≠ []) : some (String.ofList w) ≠ some "" := by
  intro he
  exact h (String.ofList_injective (Option.some.inj he))

theorem parseKey_named {s : List Char} {p : Parsed} (h : parseKey s = some p) : p.u ≠ some "" := by
  unfold parseKey at h
  simp only [Option.bind_eq_bind, Option.bind_eq_some_iff] at h
  obtain ⟨_, _, ⟨u, _⟩, _, _, _, _, _, _, _, _, _, c, _, h⟩ := h
  split at h
  next hu =>
    cases h
    exact ofList_ne_empty hu.2
  next => cases h

theorem parseUser_named {s : List Char} {p : Parsed} (h : parseUser s = some p) :
    p.u ≠ some "" := by
  unfold parseUser at h
  simp only [Option.bind_eq_bind, Option.bind_eq_some_iff] at h
  obtain ⟨_, _, ⟨u, _⟩, hu, r, _, h⟩ := h
  split at h
  next => cases h
  next =>
    split at h
    next =>
      cases h
      exact ofList_ne_empty (word_ne_nil hu)
    next =>
      cases h
      exact ofList_ne_empty (word_ne_nil hu)

theorem parseUid0_named {s : List Char} {p : Parsed} (h : parseUid0 s = some p) :
    p.u ≠ some "" := by
  unfold parseUid0 at h
  simp only [Option.bind_eq_bind, Option.bind_eq_some_iff] at h
  obtain ⟨_, _, ⟨u, _⟩, hu, r, _, h⟩ := h
  split at h
  next =>
    cases h
    exact ofList_ne_empty (word_ne_nil hu)
  next => cases h

theorem parseGroup_named {s : List Char} {p : Parsed} (h : parseGroup s = some p) :
    p.u ≠ some "" := by
  unfold parseGroup at h
  simp only [Option.bind_eq_bind, Option.bind_eq_some_iff] at h
  obtain ⟨⟨u, _⟩, hu, _, _, ⟨g, _⟩, _, h⟩ := h
  split at h
  next =>
    cases h
    exact ofList_ne_empty (word_ne_nil hu)
  next => cases h

theorem parseFile_named {s : List Char} {p : Parsed} (h : parseFile s = some p) :
    p.u ≠ some "" := by
  unfold parseFile at h
  simp only [Option.bind_eq_bind, Option.bind_eq_some_iff] at h
  obtain ⟨_, _, ⟨path, _⟩, _, h⟩ := h
  split at h
  next =>
    cases h
    exact nofun
  next => cases h

theorem parseLogin_named {s : List Char} {p : Parsed} (h : parseLogin s = some p) :
    p.u ≠ some "" := by
  unfold parseLogin at h
  simp only [Option.bind_eq_bind, Option.bind_eq_some_iff] at h
  obtain ⟨_, _, ⟨u, _⟩, hu, _, _, ⟨w, _⟩, _, h⟩ := h
  dsimp only at h
  split at h
  next => cases h
  next =>
    cases h
    exact ofList_ne_empty (word_ne_nil hu)

/-- An event that is read names someone, or a file. -/
theorem parse_named (text : String) : (parse text).u ≠ some "" := by
  unfold parse
  cases h : (parseKey text.toList).or ((parseUser text.toList).or ((parseUid0 text.toList).or
    ((parseGroup text.toList).or ((parseFile text.toList).or (parseLogin text.toList))))) with
  | none => simp [h, Parsed.u]
  | some p =>
    simp only [h, Option.getD_some]
    rw [Option.or_eq_some_iff] at h
    rcases h with h | ⟨-, h⟩
    · exact parseKey_named h
    rw [Option.or_eq_some_iff] at h
    rcases h with h | ⟨-, h⟩
    · exact parseUser_named h
    rw [Option.or_eq_some_iff] at h
    rcases h with h | ⟨-, h⟩
    · exact parseUid0_named h
    rw [Option.or_eq_some_iff] at h
    rcases h with h | ⟨-, h⟩
    · exact parseGroup_named h
    rw [Option.or_eq_some_iff] at h
    rcases h with h | ⟨-, h⟩
    · exact parseFile_named h
    · exact parseLogin_named h

/-! ## What the texts say -/

/-- The full text has the text of each event, when they are few enough. -/
theorem eventsText_has {events : List Entry} {limit : Nat} (hlen : events.length ≤ limit)
    {e : Entry} (he : e ∈ events) : TgFmt.Has (eventsText events limit) e.change.text := by
  unfold eventsText
  rw [List.take_of_length_le hlen, if_neg (Nat.not_lt.mpr hlen), List.append_nil]
  exact TgFmt.has_intercalate (List.mem_map_of_mem he)

/-- A line that says a text: among its words, or as an item of a list. -/
def Says (f : List Piece) (i : String) : Prop :=
  .words i ∈ f ∨ ∃ items, .names items ∈ f ∧ i ∈ items

theorem lineText_has {f : List Piece} {i : String} (hwhole : ∀ x ∈ f, x.whole = true)
    (hword : Says f i) (hne : TgFmt.field i ≠ "") :
    TgFmt.Has (lineText f) i ∨ TgFmt.Has (lineText f) (TgFmt.field i) := by
  unfold lineText
  rcases hword with hwords | ⟨items, hnames, hi⟩
  · exact .inl (TgFmt.has_intercalate (List.mem_map_of_mem hwords))
  · have hroom : (TgFmt.distinct items).length ≤ TgFmt.namesMax := of_decide_eq_true (hwhole _ hnames)
    have hline : TgFmt.Has ("".intercalate (f.map Piece.text)) (TgFmt.names TgFmt.namesMax items) :=
      TgFmt.has_intercalate (List.mem_map_of_mem hnames)
    exact .inr (hline.trans (TgFmt.has_names hroom hi hne))

/-- The subject of an event: a file, or whom it is about. -/
def Parsed.subject : Parsed → String
  | .file path => path
  | p => p.u.getD ""

/-- An event is told in the chat: a line says it by its subject, or by the one to whom a file
gives sudo. -/
def Told (fs : List (List Piece)) (p : Parsed) : Prop :=
  ∃ i, (TgFmt.Has i p.subject ∨ sudoOf p ≠ "" ∧ TgFmt.Has i (sudoOf p)) ∧
    (TgFmt.field i ≠ "" →
      ∃ f ∈ fs, TgFmt.Has (lineText f) i ∨ TgFmt.Has (lineText f) (TgFmt.field i))

section Laws

variable {ps : List Parsed} {m : Main} {p : Parsed} {u : String}

theorem eraseDups_ne_nil {l : List String} (h : l ≠ []) : l.eraseDups ≠ [] := by
  obtain ⟨x, hx⟩ := List.exists_mem_of_ne_nil l h
  exact List.ne_nil_of_mem (List.mem_eraseDups.mpr hx)

/-- A user of a line is named in it, alone with the keys or in a list. -/
theorem userFact_says {us : List String} (hu : u ∈ us) : ∃ i, TgFmt.Has i u ∧ Says (userFact ps us) i := by
  unfold userFact
  split
  next v =>
    obtain rfl := List.mem_singleton.mp hu
    dsimp only
    split
    next => exact ⟨_, TgFmt.has_append_left _ _, .inl List.mem_cons_self⟩
    next =>
      split
      next => exact ⟨_, TgFmt.has_append_left _ _, .inl List.mem_cons_self⟩
      next => exact ⟨u, TgFmt.has_self u, .inl List.mem_cons_self⟩
  next => exact ⟨u, TgFmt.has_self u, .inr ⟨us, List.mem_cons_self, hu⟩⟩

theorem keyFact_says (hu : u ∈ (owners ps).eraseDups) :
    ∃ i, TgFmt.Has i u ∧ Says (keyFact ps) i := by
  unfold keyFact
  split
  next v hone =>
    obtain rfl := List.mem_singleton.mp (hone ▸ hu)
    dsimp only
    split
    next => exact ⟨_, TgFmt.has_append_left _ _, .inl List.mem_cons_self⟩
    next => exact ⟨u, TgFmt.has_self u, .inl List.mem_cons_self⟩
  next =>
    refine ⟨_, ?_, .inr ⟨_, List.mem_cons_self, List.mem_map_of_mem hu⟩⟩
    dsimp only
    split
    next => exact TgFmt.has_append_left _ _ |>.trans (TgFmt.has_append_left _ _)
    next => exact TgFmt.has_self u

theorem of_mem_picked {q : Parsed → Prop} [DecidablePred q]
    (h : u ∈ ps.filterMap fun p => if q p then p.u else none) : ∃ p ∈ ps, p.u = some u := by
  obtain ⟨p, hp, he⟩ := List.mem_filterMap.mp h
  split at he
  next => exact ⟨p, hp, he⟩
  next => cases he

theorem users_nil (huid0 : uid0 ps = []) (hnew : newUsers ps = []) : users ps = [] := by
  rw [List.eq_nil_iff_forall_not_mem]
  intro u hu
  obtain ⟨p, hp, he⟩ := List.mem_filterMap.mp hu
  split at he
  next hwhat =>
    rcases hwhat with hwhat | hwhat
    · have hmem : u ∈ newUsers ps :=
        List.mem_eraseDups.mpr (List.mem_filterMap.mpr ⟨p, hp, by rw [if_pos hwhat, he]⟩)
      rw [hnew] at hmem
      cases hmem
    · have hmem : u ∈ uid0 ps := List.mem_filterMap.mpr ⟨p, hp, by rw [if_pos hwhat, he]⟩
      rw [huid0] at hmem
      cases hmem
  next => cases he

/-- The main event is about users, each named in its fact; or about all logins; or, where nobody
is new, about all files. -/
inductive MainCase (ps : List Parsed) (m : Main) : Prop
  | users (nonempty : m.who ≠ []) (event : ∀ u ∈ m.who, ∃ p ∈ ps, p.u = some u)
      (said : ∀ u ∈ m.who, ∃ i, TgFmt.Has i u ∧ Says m.fact i)
  | logins (what : String) (eq : m = ⟨what, [.names (logins ps).eraseDups], [], [.login]⟩)
  | files (what : String) (eq : m = ⟨what, [.names (files ps)], [], [.file]⟩) (nobody : users ps = [])

theorem main_cases (hm : main ps = some m) : MainCase ps m := by
  have listed : ∀ us : List String, ∀ u ∈ us, ∃ i, TgFmt.Has i u ∧ Says [.names us] i :=
    fun us u hu => ⟨u, TgFmt.has_self u, .inr ⟨us, List.mem_cons_self, hu⟩⟩
  unfold main at hm
  split at hm
  next hne =>
    cases hm
    exact .users (eraseDups_ne_nil hne) (fun u hu => of_mem_picked (List.mem_eraseDups.mp hu))
      (listed _)
  next huid0 =>
  split at hm
  next =>
    cases hm
    exact .logins _ rfl
  next =>
  split at hm
  next hne =>
    cases hm
    exact .users hne (fun u hu => of_mem_picked (List.mem_eraseDups.mp (List.mem_filter.mp hu).1))
      fun u => userFact_says
  next =>
  split at hm
  next hne =>
    cases hm
    exact .users hne (fun u hu => of_mem_picked (List.mem_eraseDups.mp (List.mem_filter.mp hu).1))
      (listed _)
  next =>
  split at hm
  next hne =>
    cases hm
    exact .users hne (fun u hu => of_mem_picked (List.mem_eraseDups.mp hu)) fun u => userFact_says
  next hnew =>
  split at hm
  next hne =>
    cases hm
    exact .users (eraseDups_ne_nil hne) (fun u hu => of_mem_picked (List.mem_eraseDups.mp hu))
      fun u => keyFact_says
  next =>
  split at hm
  next =>
    cases hm
    exact .files _ rfl (users_nil (not_not.mp huid0) (not_not.mp hnew))
  next => cases hm

/-- What the main event covers is said in its fact. -/
theorem covered_says (hps : ∀ p ∈ ps, p.u ≠ some "") (hm : main ps = some m) (hp : p ∈ ps)
    (hc : m.covers p = true) :
    ∃ i, (TgFmt.Has i p.subject ∨ sudoOf p ≠ "" ∧ TgFmt.Has i (sudoOf p)) ∧ Says m.fact i := by
  obtain ⟨hkind, hwho⟩ := of_decide_eq_true hc
  cases main_cases hm with
  | users hsome hevent hsaid =>
    rcases hwho with hnil | hu | hsudo
    · exact absurd hnil hsome
    · obtain ⟨u, he, hmem⟩ := (Option.any_eq_true _ _).mp hu
      obtain ⟨i, hi, hword⟩ := hsaid u (of_decide_eq_true hmem)
      refine ⟨i, .inl ?_, hword⟩
      cases p <;> simp_all [Parsed.subject, Parsed.u]
    · obtain ⟨i, hi, hword⟩ := hsaid _ hsudo
      obtain ⟨q, hq, he⟩ := hevent _ hsudo
      exact ⟨i, .inr ⟨fun hnone => hps q hq (hnone ▸ he), hi⟩, hword⟩
  | logins what eq =>
    subst eq
    cases p with
    | login u ip =>
      refine ⟨_, .inl ?_, .inr ⟨_, List.mem_cons_self, List.mem_eraseDups.mpr
        (List.mem_filterMap.mpr ⟨_, hp, rfl⟩)⟩⟩
      exact (TgFmt.has_append_left _ _).trans (TgFmt.has_append_left _ _)
    | _ => simp [Parsed.what] at hkind
  | files what eq husers =>
    subst eq
    cases p with
    | file path =>
      refine ⟨path, .inl (TgFmt.has_self path), .inr ⟨_, List.mem_cons_self,
        List.mem_eraseDups.mpr (List.mem_filterMap.mpr ⟨_, hp, ?_⟩)⟩⟩
      simp [husers]
    | _ => simp [Parsed.what] at hkind

/-- What it does not cover is said in the line of the others. -/
theorem more_has (hp : p.what ≠ .other) : TgFmt.Has (more p) p.subject := by
  cases p with
  | key u c => exact TgFmt.has_append_right _ _
  | user u => exact TgFmt.has_append_right _ _
  | uid0 u => exact TgFmt.has_append_right _ _
  | group u g => exact TgFmt.has_append_right _ _
  | file path => exact TgFmt.has_self path
  | login u ip => exact (TgFmt.has_append_left _ _).trans (TgFmt.has_append_right _ _)
  | other => exact absurd rfl hp

theorem field_empty : TgFmt.field "" = "" := by decide

theorem line_ne_empty {t i : String} (hne : TgFmt.field i ≠ "")
    (h : TgFmt.Has t i ∨ TgFmt.Has t (TgFmt.field i)) : t ≠ "" := by
  rintro rfl
  rcases h with h | h
  · rw [TgFmt.has_empty.mp h, field_empty] at hne
    exact hne rfl
  · exact hne (TgFmt.has_empty.mp h)

/-- Where no list of the lines is cut, they tell every event that is read. -/
theorem facts_tell (hps : ∀ p ∈ ps, p.u ≠ some "") (hm : main ps = some m)
    (hfact : ∀ x ∈ m.fact, x.whole = true) (hrest : (Piece.names (rest ps m)).whole = true)
    (hp : p ∈ ps) (hread : p.what ≠ .other) : Told (facts ps m) p := by
  by_cases hc : m.covers p = true
  · obtain ⟨i, hi, hword⟩ := covered_says hps hm hp hc
    refine ⟨i, hi, fun hne => ⟨m.fact, ?_, lineText_has hfact hword hne⟩⟩
    unfold facts
    rw [if_pos (line_ne_empty hne (lineText_has hfact hword hne))]
    exact List.mem_append_left _ (List.mem_singleton.mpr rfl)
  · refine ⟨more p, .inl (more_has hread), fun hne => ?_⟩
    have hmore : more p ∈ rest ps m := by
      refine List.mem_filter.mpr ⟨List.mem_map_of_mem (List.mem_filter.mpr ⟨hp, ?_⟩), ?_⟩
      · simp [hread, hc]
      · refine decide_eq_true fun he => hne ?_
        rw [he, field_empty]
    refine ⟨[.words "Еще: ", .names (rest ps m)], ?_, ?_⟩
    · unfold facts
      rw [if_pos (List.ne_nil_of_mem hmore)]
      exact List.mem_append_right _ (List.mem_singleton.mpr rfl)
    · exact lineText_has (by simpa [Piece.whole] using hrest) (.inr ⟨_, by simp, hmore⟩) hne

end Laws

/-- The short text tells each of the events, where it has the room. -/
theorem tgShort_tells {texts : List String} (hroomy : roomy texts = true) {t : String}
    (ht : t ∈ texts) : ∃ what lines, tgShort texts = some (what, lines) ∧ Told lines (parse t) := by
  unfold roomy at hroomy
  obtain ⟨hread, hmain⟩ := Bool.and_eq_true_iff.mp hroomy
  obtain ⟨m, hm, hwhole⟩ := (Option.any_eq_true _ _).mp hmain
  have hall := List.all_eq_true.mp hwhole
  have hps : ∀ p ∈ texts.map parse, p.u ≠ some "" := by
    intro p hp
    obtain ⟨t, -, rfl⟩ := List.mem_map.mp hp
    exact parse_named t
  have hp : parse t ∈ texts.map parse := List.mem_map_of_mem ht
  refine ⟨m.what, facts (texts.map parse) m, ?_, ?_⟩
  · unfold tgShort
    rw [if_neg (List.ne_nil_of_mem ht)]
    dsimp only
    rw [hm]
  · exact facts_tell hps hm (fun x hx => hall x (List.mem_append_left _ hx))
      (hall _ (List.mem_append_right _ (List.mem_singleton.mpr rfl))) hp
      (of_decide_eq_true (List.all_eq_true.mp hread _ hp))

end Kervax.AccessText
