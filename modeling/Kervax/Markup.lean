-- Texts with tags and entities: their pieces, how the tags nest, what a reader sees of
-- them, where a prefix of one stops, and which tags a pattern finds. Nothing here is
-- about a program.
import Kervax.Texts
import Mathlib.Data.List.Induction

namespace Markup

inductive Piece
  | char (c : Char)
  | entity (body : List Char)
  | opening (name rest : List Char)
  | closing (name : List Char)

def Piece.text : Piece → List Char
  | .char c => [c]
  | .entity body => '&' :: (body ++ [';'])
  | .opening name rest => '<' :: (name ++ rest ++ ['>'])
  | .closing name => '<' :: '/' :: (name ++ ['>'])

def render (ps : List Piece) : List Char := ps.flatMap Piece.text

/-- The characters that only tags and entities have. -/
def special : List Char := ['<', '>', '&']

/-- Names are `name`, attributes stand behind a space, and what is no tag or entity is
escaped. -/
def Piece.Ok (name : List Char → Prop) : Piece → Prop
  | .char c => c ∉ special
  | .entity body => ∀ c ∈ body, c ∉ special ∧ c ≠ ';'
  | .opening n rest => name n ∧ (rest = [] ∨ rest.head? = some ' ') ∧ '<' ∉ rest ∧ '>' ∉ rest ∧
    Texts.Closed '&' ';' rest
  | .closing n => name n

/-- The open tags after the pieces, innermost first, while each closing tag closes the
innermost one. -/
def nest : List (List Char) → List Piece → Option (List (List Char))
  | st, [] => some st
  | st, .opening n _ :: ps => nest (n :: st) ps
  | n :: st, .closing m :: ps => if n = m then nest st ps else none
  | [], .closing _ :: _ => none
  | st, .char _ :: ps => nest st ps
  | st, .entity _ :: ps => nest st ps

/-- A text of properly nested tags, escaped characters and entities. -/
def Nested (name : List Char → Prop) (s : List Char) : Prop :=
  ∃ ps, render ps = s ∧ (∀ p ∈ ps, p.Ok name) ∧ nest [] ps = some []

/-- A name has none of the characters that end it. -/
def Name (name : List Char → Prop) : Prop :=
  ∀ n, name n → n ≠ [] ∧ ∀ c ∈ n, c ∉ special ∧ c ≠ ';' ∧ c ≠ ' ' ∧ c ≠ '/'

@[simp] theorem render_nil : render [] = [] := rfl

@[simp] theorem render_cons (p : Piece) (ps : List Piece) :
    render (p :: ps) = p.text ++ render ps := by
  simp [render]

@[simp] theorem render_append (ps qs : List Piece) : render (ps ++ qs) = render ps ++ render qs := by
  simp [render]

theorem nest_append (st : List (List Char)) (ps qs : List Piece) :
    nest st (ps ++ qs) = (nest st ps).bind fun st' => nest st' qs := by
  induction ps generalizing st with
  | nil => rfl
  | cons p ps ih =>
    cases p with
    | char c => exact ih st
    | entity body => exact ih st
    | opening n rest => exact ih (n :: st)
    | closing m =>
      cases st with
      | nil => rfl
      | cons n st =>
        simp only [List.cons_append, nest]
        split
        · exact ih st
        · rfl

/-- A prefix of nested pieces has its own open tags. -/
theorem nest_start {qs ps : List Piece} {st : List (List Char)} (h : qs <+: ps)
    (hps : nest [] ps = some st) : ∃ st', nest [] qs = some st' := by
  obtain ⟨rs, rfl⟩ := h
  rw [nest_append] at hps
  obtain ⟨st', hst, -⟩ := Option.bind_eq_some_iff.mp hps
  exact ⟨st', hst⟩

/-- The open tags are tags of the text. -/
theorem nest_names {name : List Char → Prop} {ps : List Piece} (hps : ∀ p ∈ ps, p.Ok name)
    {st st' : List (List Char)} (hst : ∀ n ∈ st, name n) (h : nest st ps = some st') :
    ∀ n ∈ st', name n := by
  induction ps generalizing st with
  | nil =>
    obtain rfl := Option.some.inj h
    exact hst
  | cons p ps ih =>
    obtain ⟨hp, hrest⟩ := List.forall_mem_cons.mp hps
    cases p with
    | char c => exact ih hrest hst h
    | entity body => exact ih hrest hst h
    | opening n r => exact ih hrest (List.forall_mem_cons.mpr ⟨hp.1, hst⟩) h
    | closing m =>
      cases st with
      | nil => cases h
      | cons n st =>
        simp only [nest] at h
        split at h
        · exact ih hrest (List.forall_mem_cons.mp hst).2 h
        · cases h

/-- The closing tags of the open ones, innermost first. -/
def closings (st : List (List Char)) : List Char := st.flatMap fun n => (Piece.closing n).text

theorem render_closings (st : List (List Char)) : render (st.map .closing) = closings st := by
  simp [render, closings, List.flatMap_map]

theorem nest_closings (ns st : List (List Char)) :
    nest (ns ++ st) (ns.map .closing) = some st := by
  induction ns with
  | nil => cases st <;> rfl
  | cons n ns ih => simpa [nest] using ih

theorem nest_chars (st : List (List Char)) (cs : List Char) :
    nest st (cs.map .char) = some st := by
  induction cs with
  | nil => rfl
  | cons c cs ih => exact ih

theorem render_chars (cs : List Char) : render (cs.map .char) = cs := by
  induction cs with
  | nil => rfl
  | cons c cs ih => simp [Piece.text, ih]

/-! ## What a reader sees -/

/-- What is seen of a text once `k` more characters are skipped: tags are not, and an entity
is what `entity` reads it as. -/
def seen (entity : List Char → List Char) : Nat → List Char → List Char
  | _, [] => []
  | k + 1, _ :: t => seen entity k t
  | 0, c :: t =>
    if c = '<' ∧ '>' ∈ t then seen entity ((t.takeWhile (· ≠ '>')).length + 1) t
    else if c = '&' ∧ ';' ∈ t then
      entity (t.takeWhile (· ≠ ';')) ++ seen entity ((t.takeWhile (· ≠ ';')).length + 1) t
    else c :: seen entity 0 t

def visible (entity : List Char → List Char) (s : List Char) : List Char := seen entity 0 s

def Piece.shown (entity : List Char → List Char) : Piece → List Char
  | .char c => [c]
  | .entity body => entity body
  | .opening .. | .closing .. => []

theorem seen_skip (entity : List Char → List Char) (s t : List Char) :
    seen entity s.length (s ++ t) = seen entity 0 t := by
  induction s with
  | nil => rfl
  | cons c s ih => exact ih

theorem takeWhile_stop {c : Char} {s : List Char} (h : c ∉ s) (t : List Char) :
    (s ++ c :: t).takeWhile (· ≠ c) = s := by
  rw [List.takeWhile_append_of_pos]
  · simp
  · intro a ha
    have hne : a ≠ c := fun hac => h (hac ▸ ha)
    simpa using hne

variable {name : List Char → Prop}

theorem Piece.seen_text (hname : Name name) {p : Piece} (hp : p.Ok name)
    (entity : List Char → List Char) (t : List Char) :
    seen entity 0 (p.text ++ t) = p.shown entity ++ seen entity 0 t := by
  have htag : ∀ body : List Char, '>' ∉ body →
      seen entity 0 ('<' :: (body ++ ['>']) ++ t) = seen entity 0 t := by
    intro body hbody
    have htake := takeWhile_stop hbody t
    have hskip := seen_skip entity (body ++ ['>']) t
    simp only [List.cons_append, List.append_assoc, List.nil_append, seen]
    rw [if_pos ⟨trivial, by simp⟩, htake]
    simpa using hskip
  cases p with
  | char c =>
    have hc : c ≠ '<' ∧ c ≠ '&' := by
      simp only [Piece.Ok, special, List.mem_cons, not_or] at hp
      exact ⟨hp.1, hp.2.2.1⟩
    simp [Piece.text, Piece.shown, seen, hc]
  | entity body =>
    have hbody : ';' ∉ body := fun hmem => (hp _ hmem).2 rfl
    have htake := takeWhile_stop hbody t
    have hskip := seen_skip entity (body ++ [';']) t
    simp only [Piece.text, Piece.shown, List.cons_append, List.append_assoc, List.nil_append, seen]
    rw [if_neg (by simp), if_pos ⟨trivial, by simp⟩, htake]
    simpa using hskip
  | opening n rest =>
    have hn : '>' ∉ n := by
      intro hmem
      exact ((hname n hp.1).2 _ hmem).1 (by decide)
    apply htag
    simp [hn, hp.2.2.2.1]
  | closing n =>
    have hn : '>' ∉ n := by
      intro hmem
      exact ((hname n hp).2 _ hmem).1 (by decide)
    have h := htag ('/' :: n) (by simp [hn])
    simpa [Piece.text, Piece.shown] using h

/-- A text of pieces is seen piece by piece. -/
theorem seen_render (hname : Name name) {ps : List Piece} (hps : ∀ p ∈ ps, p.Ok name)
    (entity : List Char → List Char) (t : List Char) :
    seen entity 0 (render ps ++ t) = ps.flatMap (Piece.shown entity) ++ seen entity 0 t := by
  induction ps with
  | nil => rfl
  | cons p ps ih =>
    obtain ⟨hp, hps⟩ := List.forall_mem_cons.mp hps
    rw [render_cons, List.append_assoc, Piece.seen_text hname hp, ih hps]
    simp

theorem visible_render (hname : Name name) {ps : List Piece} (hps : ∀ p ∈ ps, p.Ok name)
    (entity : List Char → List Char) :
    visible entity (render ps) = ps.flatMap (Piece.shown entity) := by
  have h := seen_render hname hps entity []
  simpa [visible, seen] using h

/-! ## Where a prefix stops -/

/-- A prefix of a text is whole pieces, and at most one that is cut. -/
theorem prefix_pieces {ps : List Piece} {s : List Char} (h : s <+: render ps) :
    ∃ qs part, s = render qs ++ part ∧ qs <+: ps ∧
      (part = [] ∨ ∃ p ∈ ps, part ≠ [] ∧ part <+: p.text ∧ part ≠ p.text) := by
  induction ps generalizing s with
  | nil =>
    obtain rfl := List.prefix_nil.mp h
    exact ⟨[], [], rfl, List.prefix_refl _, .inl rfl⟩
  | cons p ps ih =>
    rw [render_cons] at h
    by_cases hshort : p.text <+: s
    · obtain ⟨s, rfl⟩ := hshort
      obtain ⟨qs, part, rfl, hqs, hpart⟩ := ih ((List.prefix_append_right_inj _).mp h)
      refine ⟨p :: qs, part, by simp, List.cons_prefix_cons.mpr ⟨rfl, hqs⟩, ?_⟩
      refine hpart.imp_right ?_
      rintro ⟨q, hq, hcut⟩
      exact ⟨q, List.mem_cons_of_mem _ hq, hcut⟩
    · have hone := List.prefix_or_prefix_of_prefix h (List.prefix_append p.text _)
      have hin : s <+: p.text := hone.resolve_right hshort
      refine ⟨[], s, rfl, List.nil_prefix, ?_⟩
      by_cases hs : s = []
      · exact .inl hs
      · refine .inr ⟨p, List.mem_cons_self, hs, hin, ?_⟩
        rintro rfl
        exact hshort (List.prefix_refl _)

theorem not_mem_name (hname : Name name) {n : List Char} (hn : name n) {c : Char}
    (hc : c ∈ special ∨ c = ';') : c ∉ n := by
  intro hmem
  obtain ⟨hspecial, hsemi, -⟩ := (hname n hn).2 c hmem
  exact hc.elim hspecial hsemi

/-- Whole pieces leave no tag open in its middle. -/
theorem Piece.closed_tag {p : Piece} (hp : p.Ok name) : Texts.Closed '<' '>' p.text := by
  have htag : ∀ body : List Char, Texts.Closed '<' '>' ('<' :: (body ++ ['>'])) := by
    intro body
    unfold Texts.Closed Texts.rfind
    have hlast : Texts.lastOf '>' ('<' :: (body ++ ['>'])) = some (body.length + 1) := by
      rw [← List.cons_append, Texts.lastOf_append]
      rfl
    rw [hlast]
    cases hopen : Texts.lastOf '<' ('<' :: (body ++ ['>'])) with
    | none => simp only; omega
    | some i =>
      have := Texts.lastOf_lt hopen
      simp only [List.length_cons, List.length_append, List.length_nil] at this
      simp only
      omega
  cases p with
  | char c =>
    have hc : '<' ≠ c := by
      rintro rfl
      exact hp (by decide)
    exact Texts.closed_of_not_mem (by simpa [Piece.text] using hc)
  | entity body =>
    have hbody : '<' ∉ body := fun hmem => (hp _ hmem).1 (by decide)
    exact Texts.closed_of_not_mem (by simp [Piece.text, hbody])
  | opening n rest => exact htag (n ++ rest)
  | closing n => exact htag ('/' :: n)

/-- Whole pieces leave no entity open. -/
theorem Piece.closed_entity (hname : Name name) {p : Piece} (hp : p.Ok name) :
    Texts.Closed '&' ';' p.text := by
  cases p with
  | char c =>
    have hc : '&' ≠ c := by
      rintro rfl
      exact hp (by decide)
    exact Texts.closed_of_not_mem (by simpa [Piece.text] using hc)
  | entity body =>
    unfold Texts.Closed Texts.rfind
    have hlast : Texts.lastOf ';' (Piece.entity body).text = some (body.length + 1) := by
      rw [Piece.text, ← List.cons_append, Texts.lastOf_append]
      rfl
    rw [hlast]
    cases hopen : Texts.lastOf '&' (Piece.entity body).text with
    | none => simp only; omega
    | some i =>
      have := Texts.lastOf_lt hopen
      simp only [Piece.text, List.length_cons, List.length_append, List.length_nil] at this
      simp only
      omega
  | opening n rest =>
    have hn : '&' ∉ n := not_mem_name hname hp.1 (.inl (by decide))
    have hfront : Texts.Closed '&' ';' ('<' :: n) :=
      Texts.closed_of_not_mem (by simp [hn])
    have hback : Texts.Closed '&' ';' ['>'] := Texts.closed_of_not_mem (by decide)
    exact (hfront.append hp.2.2.2.2).append hback
  | closing n =>
    have hn : '&' ∉ n := not_mem_name hname hp (.inl (by decide))
    exact Texts.closed_of_not_mem (by simp [Piece.text, hn])

theorem closed_render {o c : Char} {ps : List Piece}
    (h : ∀ p ∈ ps, Texts.Closed o c p.text) : Texts.Closed o c (render ps) := by
  induction ps with
  | nil => exact Texts.closed_of_not_mem List.not_mem_nil
  | cons p ps ih =>
    obtain ⟨hp, hps⟩ := List.forall_mem_cons.mp h
    rw [render_cons]
    exact hp.append (ih hps)

theorem proper_start {part body : List Char} {a z : Char} (h : part <+: a :: (body ++ [z]))
    (hne : part ≠ []) (hcut : part ≠ a :: (body ++ [z])) : ∃ r, part = a :: r ∧ r <+: body := by
  obtain ⟨r, rfl, hr⟩ := (List.prefix_cons_iff.mp h).resolve_left hne
  refine ⟨r, rfl, ?_⟩
  rcases List.prefix_concat_iff.mp hr with rfl | hr
  · exact absurd rfl hcut
  · exact hr

/-- A piece that is cut is the start of a tag or of an entity. -/
theorem Piece.cut (hname : Name name) {p : Piece} (hp : p.Ok name) {part : List Char}
    (h : part <+: p.text) (hne : part ≠ []) (hcut : part ≠ p.text) :
    (∃ r, part = '<' :: r ∧ '<' ∉ r ∧ '>' ∉ r) ∨
      ∃ r, part = '&' :: r ∧ '&' ∉ r ∧ ';' ∉ r ∧ '<' ∉ r := by
  cases p with
  | char c =>
    obtain ⟨r, rfl, hr⟩ := (List.prefix_cons_iff.mp h).resolve_left hne
    rw [List.prefix_nil.mp hr] at hcut
    exact absurd rfl hcut
  | entity body =>
    obtain ⟨r, rfl, hr⟩ := proper_start h hne hcut
    refine .inr ⟨r, rfl, fun hmem => ?_, fun hmem => ?_, fun hmem => ?_⟩
    · exact (hp _ (hr.subset hmem)).1 (by decide)
    · exact (hp _ (hr.subset hmem)).2 rfl
    · exact (hp _ (hr.subset hmem)).1 (by decide)
  | opening n rest =>
    obtain ⟨r, rfl, hr⟩ := proper_start h hne hcut
    have hlt : '<' ∉ n ++ rest := by
      simp [not_mem_name hname hp.1 (.inl (by decide : '<' ∈ special)), hp.2.2.1]
    have hgt : '>' ∉ n ++ rest := by
      simp [not_mem_name hname hp.1 (.inl (by decide : '>' ∈ special)), hp.2.2.2.1]
    exact .inl ⟨r, rfl, fun hmem => hlt (hr.subset hmem), fun hmem => hgt (hr.subset hmem)⟩
  | closing n =>
    have hin : part <+: '<' :: (('/' :: n) ++ ['>']) := h
    obtain ⟨r, rfl, hr⟩ := proper_start hin hne hcut
    have hlt : '<' ∉ '/' :: n := by
      simp [not_mem_name hname hp (.inl (by decide : '<' ∈ special))]
    have hgt : '>' ∉ '/' :: n := by
      simp [not_mem_name hname hp (.inl (by decide : '>' ∈ special))]
    exact .inl ⟨r, rfl, fun hmem => hlt (hr.subset hmem), fun hmem => hgt (hr.subset hmem)⟩

/-- A prefix that is cut before its open tag, and then before its open entity, is whole
pieces; where there was a tag to cut, it is so at once. -/
theorem whole_pieces (hname : Name name) {ps : List Piece} (hps : ∀ p ∈ ps, p.Ok name)
    {s : List Char} (h : s <+: render ps) :
    ∃ qs, qs <+: ps ∧ Texts.Closed '&' ';' (render qs) ∧
      Texts.beforeOpen '&' ';' (Texts.beforeOpen '<' '>' s) = render qs ∧
      (Texts.beforeOpen '<' '>' s = s ∨ Texts.beforeOpen '<' '>' s = render qs) := by
  obtain ⟨qs, part, rfl, hqs, hpart⟩ := prefix_pieces h
  have hok : ∀ p ∈ qs, p.Ok name := fun p hp => hps p (hqs.subset hp)
  have htag := closed_render fun p hp => Piece.closed_tag (hok p hp)
  have hentity := closed_render fun p hp => Piece.closed_entity hname (hok p hp)
  refine ⟨qs, hqs, hentity, ?_⟩
  rcases hpart with rfl | ⟨p, hp, hne, hin, hcut⟩
  · rw [List.append_nil, Texts.beforeOpen_closed htag]
    exact ⟨Texts.beforeOpen_closed hentity, .inl rfl⟩
  · rcases Piece.cut hname (hps p hp) hin hne hcut with
      ⟨r, rfl, hlt, hgt⟩ | ⟨r, rfl, hamp, hsemi, hlt⟩
    · rw [Texts.beforeOpen_open (by decide) hlt hgt]
      exact ⟨Texts.beforeOpen_closed hentity, .inr rfl⟩
    · have hpart : Texts.Closed '<' '>' ('&' :: r) :=
        Texts.closed_of_not_mem (by simp [hlt])
      rw [Texts.beforeOpen_closed (htag.append hpart)]
      exact ⟨Texts.beforeOpen_open (by decide) hamp hsemi, .inl rfl⟩

/-- Blanks at the end are pieces of their own. -/
theorem rstrip_pieces (blank : Char → Bool) (hsemi : blank ';' = false) (hgt : blank '>' = false)
    (ps : List Piece) : ∃ (qs : List Piece) (cs : List Char), ps = qs ++ cs.map .char ∧
      (∀ c ∈ cs, blank c = true) ∧ Texts.rstripBy blank (render ps) = render qs := by
  induction ps using List.reverseRecOn with
  | nil => exact ⟨[], [], rfl, fun _ h => absurd h List.not_mem_nil, rfl⟩
  | append_singleton ps p ih =>
    have hrender : render (ps ++ [p]) = render ps ++ p.text := by simp
    have hwhole : ∀ (s : List Char) (z : Char), p.text = s ++ [z] → blank z = false →
        ∃ (qs : List Piece) (cs : List Char), ps ++ [p] = qs ++ cs.map .char ∧
          (∀ c ∈ cs, blank c = true) ∧ Texts.rstripBy blank (render (ps ++ [p])) = render qs := by
      intro s z hp hz
      refine ⟨ps ++ [p], [], (List.append_nil _).symm, fun _ h => absurd h List.not_mem_nil, ?_⟩
      rw [hrender, hp, ← List.append_assoc, Texts.rstripBy_concat hz]
    cases p with
    | char c =>
      cases hc : blank c with
      | false => exact hwhole [] c rfl hc
      | true =>
        obtain ⟨qs, cs, rfl, hcs, heq⟩ := ih
        refine ⟨qs, cs ++ [c], by simp, ?_, ?_⟩
        · intro d hd
          rcases List.mem_append.mp hd with hd | hd
          · exact hcs d hd
          · rwa [List.mem_singleton.mp hd]
        · rw [hrender, ← heq]
          simp [Texts.rstripBy, Piece.text, hc]
    | entity body => exact hwhole ('&' :: body) ';' rfl hsemi
    | opening n rest => exact hwhole ('<' :: (n ++ rest)) '>' rfl hgt
    | closing n => exact hwhole ('<' :: '/' :: n) '>' rfl hgt

/-! ## The tags that a pattern finds -/

/-- A pattern `<(/?)(name)[^>]*>` whose name is one `first` and then `more`. -/
structure Pattern where
  first : Char → Bool
  more : Char → Bool
  slash : first '/' = false
  space : more ' ' = false
  gt : more '>' = false

/-- The name and the rest up to the `>`, and how many characters they are. -/
def Pattern.word (f : Pattern) : List Char → Option (List Char × Nat)
  | [] => none
  | c :: u =>
    if f.first c ∧ '>' ∈ u.dropWhile f.more then
      some (c :: u.takeWhile f.more,
        (u.takeWhile f.more).length + ((u.dropWhile f.more).takeWhile (· ≠ '>')).length + 2)
    else none

/-- What the pattern matches behind a `<`, and how many characters. -/
def Pattern.match (f : Pattern) (t : List Char) : Option ((Bool × List Char) × Nat) :=
  if t.head? = some '/' then (f.word t.tail).map fun nk => ((true, nk.1), nk.2 + 1)
  else (f.word t).map fun nk => ((false, nk.1), nk.2)

/-- `findall`, once `k` more characters are skipped: whether each tag closes, and its name. -/
def Pattern.find (f : Pattern) : Nat → List Char → List (Bool × List Char)
  | _, [] => []
  | k + 1, _ :: t => f.find k t
  | 0, c :: t =>
    if c = '<' then match f.match t with
      | some (m, k) => m :: f.find k t
      | none => f.find 0 t
    else f.find 0 t

def Piece.tags : Piece → List (Bool × List Char)
  | .opening n _ => [(false, n)]
  | .closing n => [(true, n)]
  | _ => []

variable (f : Pattern)

theorem Pattern.find_skip {s : List Char} {k : Nat} (hk : s.length = k) (t : List Char) :
    f.find k (s ++ t) = f.find 0 t := by
  subst hk
  induction s with
  | nil => rfl
  | cons c s ih => exact ih

/-- Text without a `<` has no tag. -/
theorem Pattern.find_plain {s : List Char} (h : '<' ∉ s) (t : List Char) :
    f.find 0 (s ++ t) = f.find 0 t := by
  induction s with
  | nil => rfl
  | cons c s ih =>
    obtain ⟨hc, hs⟩ := not_or.mp (List.mem_cons.not.mp h)
    simpa [Pattern.find, Ne.symm hc] using ih hs

/-- The pattern finds every name of the texts. -/
def Pattern.Finds (name : List Char → Prop) : Prop :=
  ∀ n, name n → ∃ c m, n = c :: m ∧ f.first c = true ∧ ∀ x ∈ m, f.more x = true

theorem Pattern.word_text (hf : f.Finds name) {n rest : List Char} (hn : name n)
    (hrest : rest = [] ∨ rest.head? = some ' ') (hgt : '>' ∉ rest) (t : List Char) :
    f.word (n ++ (rest ++ '>' :: t)) = some (n, n.length + rest.length + 1) := by
  obtain ⟨c, m, rfl, hc, hm⟩ := hf n hn
  have hstop : ∀ x, (rest ++ '>' :: t).head? = some x → f.more x = false := by
    intro x hx
    rcases hrest with rfl | hrest
    · obtain rfl : '>' = x := by simpa using hx
      exact f.gt
    · cases rest with
      | nil => cases hrest
      | cons y rest =>
        obtain rfl : y = ' ' := by simpa using hrest
        obtain rfl : ' ' = x := by simpa using hx
        exact f.space
  have htake : (m ++ (rest ++ '>' :: t)).takeWhile f.more = m := by
    rw [List.takeWhile_append_of_pos hm]
    cases hu : rest ++ '>' :: t with
    | nil => simp
    | cons y u => simp [hstop y (by rw [hu]; rfl)]
  have hdrop : (m ++ (rest ++ '>' :: t)).dropWhile f.more = rest ++ '>' :: t := by
    rw [List.dropWhile_append_of_pos hm]
    cases hu : rest ++ '>' :: t with
    | nil => rfl
    | cons y u => simp [hstop y (by rw [hu]; rfl)]
  have hbody := takeWhile_stop hgt t
  simp only [List.cons_append, Pattern.word, htake, hdrop, hbody, hc]
  rw [if_pos ⟨trivial, by simp⟩]
  simp only [List.length_cons, Option.some.injEq, Prod.mk.injEq, true_and]
  omega

theorem Piece.find_text (hf : f.Finds name) {p : Piece} (hp : p.Ok name)
    (t : List Char) : f.find 0 (p.text ++ t) = p.tags ++ f.find 0 t := by
  cases p with
  | char c =>
    have hc : c ≠ '<' := by
      rintro rfl
      exact hp (by decide)
    simp [Piece.text, Piece.tags, Pattern.find, hc]
  | entity body =>
    have hbody : '<' ∉ body := fun hmem => (hp _ hmem).1 (by decide)
    exact f.find_plain (by simp [Piece.text, hbody]) t
  | opening n rest =>
    have hmatch : f.match (n ++ (rest ++ '>' :: t)) =
        some ((false, n), n.length + rest.length + 1) := by
      have hslash : (n ++ (rest ++ '>' :: t)).head? ≠ some '/' := by
        obtain ⟨c, m, rfl, hc, -⟩ := hf n hp.1
        rw [List.cons_append, List.head?_cons]
        intro h
        rw [Option.some.inj h, f.slash] at hc
        cases hc
      rw [Pattern.match, if_neg hslash, f.word_text hf hp.1 hp.2.1 hp.2.2.2.1 t]
      rfl
    have hskip := f.find_skip (s := n ++ (rest ++ ['>'])) (k := n.length + rest.length + 1)
      (by simp; omega) t
    simp only [List.append_assoc, List.singleton_append] at hskip
    simp [Piece.text, Piece.tags, Pattern.find, hmatch, hskip]
  | closing n =>
    have hmatch : f.match ('/' :: (n ++ '>' :: t)) = some ((true, n), n.length + 1 + 1) := by
      have h := f.word_text hf hp (.inl rfl) List.not_mem_nil t
      rw [List.nil_append] at h
      rw [Pattern.match, List.head?_cons, if_pos rfl, List.tail_cons, h]
      rfl
    have hskip := f.find_skip (s := n ++ ['>']) (k := n.length + 1) (by simp) t
    simp only [List.append_assoc, List.singleton_append] at hskip
    simp [Piece.text, Piece.tags, Pattern.find, hmatch, hskip]

/-- The pattern finds the tags of the pieces, in order. -/
theorem Pattern.find_render (hf : f.Finds name) {ps : List Piece} (hps : ∀ p ∈ ps, p.Ok name)
    (t : List Char) :
    f.find 0 (render ps ++ t) = ps.flatMap Piece.tags ++ f.find 0 t := by
  induction ps with
  | nil => rfl
  | cons p ps ih =>
    obtain ⟨hp, hps⟩ := List.forall_mem_cons.mp hps
    rw [render_cons, List.append_assoc, Piece.find_text f hf hp, ih hps]
    simp

end Markup
