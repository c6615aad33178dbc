-- What the parser reads of a text that is written from tokens: the same tokens, and with
-- them the links that the rows of the text show.
import Kervax.Dict
import Kervax.RichText

namespace Kervax.RichText

/-! ## Escapes -/

/-- The character of an escape that is shown. -/
def decode (body : List Char) : List Char := (unescaped body).toList

/-- The names of the tags that a text may have. -/
def Allowed (n : List Char) : Prop := n ∈ tags

/-- A character is written as an escape that is read as it, or is no special one. -/
theorem escaped_cases (c : Char) :
    (∃ body, escaped c = .entity body ∧ unescaped body = some c ∧
      body.all (fun d => d ∉ Markup.special && d ≠ ';' && d ≠ '"') = true) ∨
    escaped c = .char c ∧ c ≠ '&' ∧ c ≠ '<' ∧ c ≠ '>' ∧ c ≠ '"' := by
  by_cases hamp : c = '&'
  · subst hamp
    exact .inl ⟨"amp".toList, rfl, by decide, by decide⟩
  by_cases hlt : c = '<'
  · subst hlt
    exact .inl ⟨"lt".toList, rfl, by decide, by decide⟩
  by_cases hgt : c = '>'
  · subst hgt
    exact .inl ⟨"gt".toList, rfl, by decide, by decide⟩
  by_cases hquot : c = '"'
  · subst hquot
    exact .inl ⟨"quot".toList, rfl, by decide, by decide⟩
  by_cases happ : c = '\''
  · subst happ
    exact .inl ⟨"#x27".toList, rfl, by decide, by decide⟩
  · right
    refine ⟨?_, hamp, hlt, hgt, hquot⟩
    have hnone : escapes.lookup c = none :=
      Dict.lookup_eq_none.mpr (by simp [Dict.keys, escapes, hamp, hlt, hgt, hquot, happ])
    unfold escaped
    rw [hnone]

theorem escaped_ok {name : List Char → Prop} (c : Char) : (escaped c).Ok name := by
  rcases escaped_cases c with ⟨body, heq, -, hall⟩ | ⟨heq, hamp, hlt, hgt, -⟩
  · rw [heq]
    intro d hd
    have h := List.all_eq_true.mp hall d hd
    simp only [Bool.and_eq_true, decide_eq_true_eq] at h
    exact h.1
  · rw [heq]
    change c ∉ Markup.special
    simp [Markup.special, hamp, hlt, hgt]

theorem escaped_shown (c : Char) : (escaped c).shown decode = [c] := by
  rcases escaped_cases c with ⟨body, heq, hread, -⟩ | ⟨heq, -⟩
  · rw [heq, Markup.Piece.shown, decode, hread]
    rfl
  · rw [heq, Markup.Piece.shown]

/-! ## Tokens -/

/-- How a token is written. -/
def Token.piece : Token → Markup.Piece
  | .char c => escaped c
  | .opening tag none => .opening tag []
  | .opening tag (some href) => .opening tag (hrefStart ++ escape href ++ ['"'])
  | .closing tag => .closing tag

def Token.Ok : Token → Prop
  | .char _ => True
  | .opening tag href => tag ∈ tags ∧ (href ≠ none → tag = ['a'])
  | .closing tag => tag ∈ tags

/-- The text of tokens. -/
def written (ts : List Token) : List Char := Markup.render (ts.map Token.piece)

@[simp] theorem written_nil : written [] = [] := rfl

@[simp] theorem written_cons (tok : Token) (ts : List Token) :
    written (tok :: ts) = tok.piece.text ++ written ts := by
  simp [written]

@[simp] theorem written_append (ts us : List Token) :
    written (ts ++ us) = written ts ++ written us := by
  simp [written]

theorem tokens_skip {s : List Char} {k : Nat} (hk : s.length = k) (t : List Char) :
    tokens k (s ++ t) = tokens 0 t := by
  subst hk
  induction s with
  | nil => rfl
  | cons c s ih => exact ih

theorem value_skip {s : List Char} {k : Nat} (hk : s.length = k) (t : List Char) :
    value k (s ++ t) = value 0 t := by
  subst hk
  induction s with
  | nil => rfl
  | cons c s ih => exact ih

/-- An escaped value is read back. -/
theorem value_escape (s : List Char) : value 0 (escape s) = some s := by
  induction s with
  | nil => rfl
  | cons c s ih =>
    have hcons : escape (c :: s) = (escaped c).text ++ escape s := by
      simp [escape]
    rw [hcons]
    rcases escaped_cases c with ⟨body, heq, hread, hall⟩ | ⟨heq, hamp, hlt, hgt, hquot⟩
    · have hsemi : ';' ∉ body := by
        intro hmem
        have h := List.all_eq_true.mp hall _ hmem
        simp at h
      have htake := Markup.takeWhile_stop hsemi (escape s)
      have hskip := value_skip (s := body ++ [';']) (k := body.length + 1) (by simp) (escape s)
      rw [List.append_assoc, List.singleton_append] at hskip
      rw [heq, Markup.Piece.text, List.cons_append, List.append_assoc, List.singleton_append, value,
        if_pos rfl, htake, hread]
      simp [hskip, ih]
    · rw [heq, Markup.Piece.text, List.singleton_append, value, if_neg hamp,
        if_neg (by simp [hlt, hgt, hquot]), ih]
      rfl

/-- The characters of a tag's name. -/
def tagChar (c : Char) : Bool := c ∉ Markup.special && c ≠ ';' && c ≠ ' ' && c ≠ '/' && c ≠ '"'

theorem tags_chars : tags.all (fun tag => tag ≠ [] && tag.all tagChar) = true := by decide

theorem allowed_chars {n : List Char} (h : n ∈ tags) {c : Char} (hc : c ∈ n) :
    tagChar c = true := by
  have hall := List.all_eq_true.mp tags_chars n h
  simp only [Bool.and_eq_true] at hall
  exact List.all_eq_true.mp hall.2 c hc

theorem allowed : Markup.Name Allowed := by
  intro n h
  refine ⟨?_, fun c hc => ?_⟩
  · have hall := List.all_eq_true.mp tags_chars n h
    simp only [Bool.and_eq_true, decide_eq_true_eq] at hall
    exact hall.1
  · have hchar := allowed_chars h hc
    simp only [tagChar, Bool.and_eq_true, decide_eq_true_eq] at hchar
    exact ⟨hchar.1.1.1.1, hchar.1.1.1.2, hchar.1.1.2, hchar.1.2⟩

theorem escape_chars {s : List Char} {d : Char} (hd : d ∈ escape s) :
    d ≠ '<' ∧ d ≠ '>' ∧ d ≠ '"' := by
  obtain ⟨p, hp, hmem⟩ := List.mem_flatMap.mp hd
  obtain ⟨c, -, rfl⟩ := List.mem_map.mp hp
  rcases escaped_cases c with ⟨body, heq, -, hall⟩ | ⟨heq, -, hlt, hgt, hquot⟩
  · rw [heq] at hmem
    have hbody : ∀ x ∈ body, x ≠ '<' ∧ x ≠ '>' ∧ x ≠ '"' := by
      intro x hx
      have h := List.all_eq_true.mp hall x hx
      simp only [Markup.special, List.mem_cons, Bool.and_eq_true, decide_eq_true_eq, not_or] at h
      exact ⟨h.1.1.1, h.1.1.2.1, h.2⟩
    rcases List.mem_cons.mp hmem with rfl | hmem
    · decide
    · rcases List.mem_append.mp hmem with hmem | hmem
      · exact hbody d hmem
      · rw [List.mem_singleton.mp hmem]
        decide
  · rw [heq] at hmem
    rw [List.mem_singleton.mp hmem]
    exact ⟨hlt, hgt, hquot⟩

theorem escape_closed (s : List Char) : Texts.Closed '&' ';' (escape s) := by
  apply Markup.closed_render
  intro p hp
  obtain ⟨c, -, rfl⟩ := List.mem_map.mp hp
  exact Markup.Piece.closed_entity allowed (escaped_ok c)

theorem Token.piece_ok {tok : Token} (h : tok.Ok) : tok.piece.Ok Allowed := by
  cases tok with
  | char c => exact escaped_ok c
  | closing tag => exact h
  | opening tag href =>
    cases href with
    | none =>
      exact ⟨h.1, .inl rfl, List.not_mem_nil, List.not_mem_nil,
        Texts.closed_of_not_mem List.not_mem_nil⟩
    | some href =>
      have hstart : Texts.Closed '&' ';' hrefStart := Texts.closed_of_not_mem (by decide)
      have hend : Texts.Closed '&' ';' ['"'] := Texts.closed_of_not_mem (by decide)
      refine ⟨h.1, .inr rfl, fun hmem => ?_, fun hmem => ?_,
        (hstart.append (escape_closed href)).append hend⟩
      · rcases List.mem_append.mp hmem with hmem | hmem
        · rcases List.mem_append.mp hmem with hmem | hmem
          · exact absurd hmem (by decide)
          · exact (escape_chars hmem).1 rfl
        · exact absurd hmem (by decide)
      · rcases List.mem_append.mp hmem with hmem | hmem
        · rcases List.mem_append.mp hmem with hmem | hmem
          · exact absurd hmem (by decide)
          · exact (escape_chars hmem).2.1 rfl
        · exact absurd hmem (by decide)

/-- What has a character that no name has is no name. -/
theorem not_tag {n : List Char} {c : Char} (hc : c ∈ n) (hno : tagChar c = false) : n ∉ tags := by
  intro h
  rw [allowed_chars h hc] at hno
  cases hno

theorem tagOf_closing {tag : List Char} (h : tag ∈ tags) :
    tagOf ('/' :: tag) = some (.closing tag) := by
  have hno : '/' :: tag ∉ tags := not_tag List.mem_cons_self (by decide)
  unfold tagOf
  rw [if_neg hno, if_pos ⟨rfl, h⟩]
  rfl

theorem hrefStart_chars : hrefStart = [' ', 'h', 'r', 'e', 'f', '=', '"'] := rfl

theorem tagOf_link (href : List Char) :
    tagOf ('a' :: (hrefStart ++ escape href ++ ['"'])) = some (.opening ['a'] (some href)) := by
  have hspace : ' ' ∈ 'a' :: (hrefStart ++ escape href ++ ['"']) := by simp [hrefStart_chars]
  have hno := not_tag hspace (by decide)
  have hstart : ('a' :: hrefStart).isPrefixOf ('a' :: (hrefStart ++ escape href ++ ['"'])) = true := by
    rw [ List.isPrefixOf_iff_prefix, List.append_assoc, ← List.cons_append]
    exact List.prefix_append _ _
  have hlast : ('a' :: (hrefStart ++ escape href ++ ['"'])).getLast? = some '"' := by
    rw [← List.cons_append, List.getLast?_append]
    rfl
  have hdrop : ('a' :: (hrefStart ++ escape href ++ ['"'])).drop 8 = escape href ++ ['"'] := by
    rw [List.append_assoc]
    rfl
  unfold tagOf
  rw [if_neg hno, if_neg (by simp), if_pos ⟨hstart, hlast⟩, hdrop, List.dropLast_concat,
    value_escape]
  rfl

/-- A token that is written is read back. -/
theorem tokens_piece {tok : Token} (h : tok.Ok) (t : List Char) :
    tokens 0 (tok.piece.text ++ t) = (tokens 0 t).map (tok :: ·) := by
  have htag : ∀ body : List Char, '>' ∉ body → tagOf body = some tok →
      tokens 0 ('<' :: (body ++ ['>']) ++ t) = (tokens 0 t).map (tok :: ·) := by
    intro body hbody hread
    have htake := Markup.takeWhile_stop hbody t
    have hskip := tokens_skip (s := body ++ ['>']) (k := body.length + 1) (by simp) t
    rw [List.append_assoc, List.singleton_append] at hskip
    rw [List.cons_append, List.append_assoc, List.singleton_append, tokens, if_pos rfl, htake, hread]
    simp [hskip]
  have hname : ∀ n ∈ tags, '>' ∉ n := fun n hn hmem =>
    absurd (allowed_chars hn hmem) (by decide)
  cases tok with
  | char c =>
    change tokens 0 ((escaped c).text ++ t) = _
    rcases escaped_cases c with ⟨body, heq, hread, hall⟩ | ⟨heq, hamp, hlt, hgt, -⟩
    · have hsemi : ';' ∉ body := by
        intro hmem
        have h := List.all_eq_true.mp hall _ hmem
        simp at h
      have htake := Markup.takeWhile_stop hsemi t
      have hskip := tokens_skip (s := body ++ [';']) (k := body.length + 1) (by simp) t
      rw [List.append_assoc, List.singleton_append] at hskip
      rw [heq, Markup.Piece.text, List.cons_append, List.append_assoc, List.singleton_append,
        tokens, if_neg (by decide), if_pos rfl, htake, hread]
      simp [hskip]
    · rw [heq, Markup.Piece.text, List.singleton_append, tokens, if_neg hlt, if_neg hamp,
        if_neg hgt]
  | closing tag =>
    have hbody : '>' ∉ '/' :: tag := by simp [hname tag h]
    exact htag ('/' :: tag) hbody (tagOf_closing h)
  | opening tag href =>
    cases href with
    | none =>
      have hread : tagOf tag = some (.opening tag none) := by
        rw [tagOf, if_pos h.1]
      have hbody := htag tag (hname tag h.1) hread
      simpa [Token.piece, Markup.Piece.text] using hbody
    | some href =>
      obtain rfl := h.2 (by simp)
      have hbody : '>' ∉ 'a' :: (hrefStart ++ escape href ++ ['"']) := by
        intro hmem
        rcases List.mem_cons.mp hmem with hmem | hmem
        · cases hmem
        · rcases List.mem_append.mp hmem with hmem | hmem
          · rcases List.mem_append.mp hmem with hmem | hmem
            · exact absurd hmem (by decide)
            · exact (escape_chars hmem).2.1 rfl
          · exact absurd hmem (by decide)
      exact htag _ hbody (tagOf_link href)

/-- A text that is written from tokens is read as them. -/
theorem tokens_written {ts : List Token} (h : ∀ tok ∈ ts, tok.Ok) :
    tokens 0 (written ts) = some ts := by
  induction ts with
  | nil => rfl
  | cons tok ts ih =>
    obtain ⟨htok, hts⟩ := List.forall_mem_cons.mp h
    rw [written_cons, tokens_piece htok, ih hts]
    rfl

theorem parse_written (w : Outside) {ts : List Token} (h : ∀ tok ∈ ts, tok.Ok) :
    parse w (written ts) = some (events ts) := by
  unfold parse
  rw [tokens_written h]

/-! ## The events of tokens -/

/-- A tag ends the characters before it. -/
theorem events_opening (ts us : List Token) (tag : List Char) (href : Option (List Char)) :
    events (ts ++ .opening tag href :: us) = events ts ++ events (.opening tag href :: us) := by
  induction ts with
  | nil => rfl
  | cons tok ts ih =>
    cases tok with
    | char c =>
      simp only [List.cons_append, events, ih]
      cases hes : events ts with
      | nil => rfl
      | cons e es => cases e <;> rfl
    | opening tag href => simp only [List.cons_append, events, ih, List.cons_append]
    | closing tag => simp only [List.cons_append, events, ih]

/-- Characters up to a closing tag are one piece of data. -/
theorem events_text {text : List Char} (hne : text ≠ []) (tag : List Char) (us : List Token) :
    events (text.map .char ++ .closing tag :: us) = .data text :: .endTag tag :: events us := by
  induction text with
  | nil => exact absurd rfl hne
  | cons c text ih =>
    cases text with
    | nil => rfl
    | cons d text =>
      have hrest := ih (List.cons_ne_nil _ _)
      rw [List.map_cons, List.cons_append, events, hrest]

/-! ## The rows of tokens -/

/-- A call that neither opens nor closes a block of a log. -/
def Event.Plain : Event → Prop
  | .startTag tag _ => tag ∈ tags
  | .endTag tag => tag ∈ tags
  | .data _ => True

theorem events_plain {ts : List Token} (h : ∀ tok ∈ ts, tok.Ok) : ∀ e ∈ events ts, e.Plain := by
  induction ts with
  | nil => exact fun e he => absurd he List.not_mem_nil
  | cons tok ts ih =>
    obtain ⟨htok, hts⟩ := List.forall_mem_cons.mp h
    cases tok with
    | opening tag href => exact List.forall_mem_cons.mpr ⟨htok.1, ih hts⟩
    | closing tag => exact List.forall_mem_cons.mpr ⟨htok, ih hts⟩
    | char c =>
      have hrest := ih hts
      intro e he
      simp only [events] at he
      cases hes : events ts with
      | nil =>
        rw [hes] at he
        rw [List.mem_singleton.mp he]
        trivial
      | cons f es =>
        rw [hes] at he hrest
        cases f with
        | data s =>
          rcases List.mem_cons.mp he with rfl | he
          · trivial
          · exact hrest e (List.mem_cons_of_mem _ he)
        | startTag tag attrs =>
          rcases List.mem_cons.mp he with rfl | he
          · trivial
          · exact hrest e he
        | endTag tag =>
          rcases List.mem_cons.mp he with rfl | he
          · trivial
          · exact hrest e he

theorem tags_own : "br".toList ∉ tags ∧ "pre".toList ∉ tags := by decide

theorem ne_own {tag : List Char} (h : tag ∈ tags) : tag ≠ "br".toList ∧ tag ≠ "pre".toList := by
  refine ⟨?_, ?_⟩
  · rintro rfl
    exact tags_own.1 h
  · rintro rfl
    exact tags_own.2 h

theorem addPart_pre (r : Rich) (part : List Char) : (r.addPart part).pre = r.pre := by
  unfold Rich.addPart
  split <;> rfl

theorem addParts_pre (r : Rich) (parts : List (List Char)) :
    (parts.foldl (fun r part => r.newRow.addPart part) r).pre = r.pre := by
  induction parts generalizing r with
  | nil => rfl
  | cons part parts ih => exact (ih _).trans (addPart_pre r.newRow part)

theorem data_pre (r : Rich) (s : List Char) : (r.data s).pre = r.pre := by
  unfold Rich.data
  split
  · rfl
  · split
    · rfl
    · exact (addParts_pre _ _).trans (addPart_pre r _)

theorem step_pre {r : Rich} (h : r.pre = 0) {e : Event} (he : e.Plain) : (r.step e).pre = 0 := by
  cases e with
  | startTag tag attrs =>
    obtain ⟨hbr, hpre⟩ := ne_own he
    simp only [Rich.step, Rich.startTag, if_neg hbr, if_neg hpre]
    split <;> exact h
  | endTag tag =>
    obtain ⟨-, hpre⟩ := ne_own he
    simp only [Rich.step, Rich.endTag, if_neg hpre]
    exact h
  | data s => exact (data_pre r s).trans h

theorem steps_pre {r : Rich} (h : r.pre = 0) {es : List Event} (hes : ∀ e ∈ es, e.Plain) :
    (es.foldl Rich.step r).pre = 0 := by
  induction es generalizing r with
  | nil => exact h
  | cons e es ih =>
    obtain ⟨he, hrest⟩ := List.forall_mem_cons.mp hes
    exact ih (step_pre h he) hrest

/-! ### Pieces of text stay -/

/-- The pieces of text of all rows. -/
def Rich.parts (r : Rich) : List (List Char × List OpenTag) := r.all.flatten

theorem newRow_parts (r : Rich) : r.newRow.parts = r.parts := by
  simp [Rich.parts, Rich.all, Rich.newRow]

theorem addPart_parts (r : Rich) (part : List Char) :
    (r.addPart part).parts = r.parts ++ if part ≠ [] then [(clean part, r.stack)] else [] := by
  unfold Rich.addPart
  split
  · simp [Rich.parts, Rich.all]
  · simp

theorem addParts_parts (r : Rich) (parts : List (List Char)) :
    r.parts ⊆ (parts.foldl (fun r part => r.newRow.addPart part) r).parts := by
  induction parts generalizing r with
  | nil => exact fun _ h => h
  | cons part parts ih =>
    intro p hp
    apply ih
    rw [addPart_parts, newRow_parts]
    exact List.mem_append_left _ hp

theorem step_parts (r : Rich) (e : Event) : r.parts ⊆ (r.step e).parts := by
  intro p hp
  cases e with
  | startTag tag attrs =>
    simp only [Rich.step, Rich.startTag]
    split
    · rwa [newRow_parts]
    · split
      · exact hp
      · split <;> exact hp
  | endTag tag => exact hp
  | data s =>
    simp only [Rich.step, Rich.data]
    split
    · exact hp
    · split
      · exact hp
      · apply addParts_parts
        rw [addPart_parts]
        exact List.mem_append_left _ hp

theorem steps_parts (r : Rich) (es : List Event) : r.parts ⊆ (es.foldl Rich.step r).parts := by
  induction es generalizing r with
  | nil => exact fun _ h => h
  | cons e es ih => exact fun p hp => ih _ (step_parts r e hp)

/-! ### Pieces of text are of one row -/

/-- A piece of text is not empty and has no line end. -/
def Good (part : List Char × List OpenTag) : Prop :=
  part.1 ≠ [] ∧ '\n' ∉ part.1 ∧ '\r' ∉ part.1

theorem clean_good {part : List Char} (hne : part ≠ []) (h : '\n' ∉ part) (stack : List OpenTag) :
    Good (clean part, stack) := by
  refine ⟨?_, fun hmem => ?_, fun hmem => ?_⟩
  · simpa [clean] using hne
  · obtain ⟨c, hc, heq⟩ := List.mem_map.mp hmem
    split at heq
    · exact absurd heq (by decide)
    · exact h (heq ▸ hc)
  · obtain ⟨c, -, heq⟩ := List.mem_map.mp hmem
    split at heq
    · exact absurd heq (by decide)
    · next hno => exact hno (heq ▸ by decide)

theorem addPart_good {r : Rich} (h : ∀ part ∈ r.parts, Good part) {text : List Char}
    (htext : '\n' ∉ text) : ∀ part ∈ (r.addPart text).parts, Good part := by
  intro part hpart
  rw [addPart_parts] at hpart
  rcases List.mem_append.mp hpart with hpart | hpart
  · exact h part hpart
  · split at hpart
    · next hne =>
      rw [List.mem_singleton.mp hpart]
      exact clean_good hne htext _
    · cases hpart

theorem addParts_good {r : Rich} (h : ∀ part ∈ r.parts, Good part) {texts : List (List Char)}
    (htexts : ∀ text ∈ texts, '\n' ∉ text) :
    ∀ part ∈ (texts.foldl (fun r part => r.newRow.addPart part) r).parts, Good part := by
  induction texts generalizing r with
  | nil => exact h
  | cons text texts ih =>
    obtain ⟨htext, hrest⟩ := List.forall_mem_cons.mp htexts
    have hnew : ∀ part ∈ r.newRow.parts, Good part := by
      rw [newRow_parts]
      exact h
    exact ih (addPart_good hnew htext) hrest

theorem data_good {r : Rich} (h : ∀ part ∈ r.parts, Good part) (s : List Char) :
    ∀ part ∈ (r.data s).parts, Good part := by
  have hsplit : ∀ text ∈ (newlines s).splitOn '\n', '\n' ∉ text := fun _ ht => Texts.not_mem_splitOn ht
  unfold Rich.data
  split
  · exact h
  · split
    · exact h
    · next text texts heq =>
      rw [heq] at hsplit
      obtain ⟨htext, hrest⟩ := List.forall_mem_cons.mp hsplit
      exact addParts_good (addPart_good h htext) hrest

theorem step_good {r : Rich} (h : ∀ part ∈ r.parts, Good part) (e : Event) :
    ∀ part ∈ (r.step e).parts, Good part := by
  cases e with
  | data s => exact data_good h s
  | endTag tag => exact h
  | startTag tag attrs =>
    simp only [Rich.step, Rich.startTag]
    split
    · rw [newRow_parts]
      exact h
    · split
      · exact h
      · split <;> exact h

theorem new_good : ∀ part ∈ Rich.new.parts, Good part := fun _ h => absurd h List.not_mem_nil

theorem rich_good {w : Outside} {text : List Char} {htmlMode : Bool} {r : Rich}
    (h : rich w text htmlMode = some r) : ∀ part ∈ r.parts, Good part := by
  have hsteps : ∀ (es : List Event) (r : Rich), (∀ part ∈ r.parts, Good part) →
      ∀ part ∈ (es.foldl Rich.step r).parts, Good part := by
    intro es
    induction es with
    | nil => exact fun _ h => h
    | cons e es ih => exact fun r h => ih _ (step_good h e)
  unfold rich at h
  split at h
  · obtain ⟨es, -, rfl⟩ := Option.map_eq_some_iff.mp h
    exact hsteps es _ new_good
  · obtain rfl := Option.some.inj h
    exact data_good new_good text

/-! ### Links that are written are read -/

def openingToken (item : OpenTag) : Token := .opening item.tag item.href

def closingToken (item : OpenTag) : Token := .closing item.tag

/-- The tokens of a piece of text under its open tags. -/
def pieceTokens (text : List Char) (stack : List OpenTag) : List Token :=
  stack.map openingToken ++ text.map .char ++ stack.reverse.map closingToken

theorem pieceTokens_ok (text : List Char) (stack : List OpenTag) :
    ∀ tok ∈ pieceTokens text stack, tok.Ok := by
  intro tok htok
  rcases List.mem_append.mp htok with htok | htok
  · rcases List.mem_append.mp htok with htok | htok
    · obtain ⟨item, -, rfl⟩ := List.mem_map.mp htok
      exact ⟨item.known, item.link⟩
    · obtain ⟨c, -, rfl⟩ := List.mem_map.mp htok
      trivial
  · obtain ⟨item, -, rfl⟩ := List.mem_map.mp htok
    exact item.known

/-- The call of the parser for an open tag. -/
def startOf (item : OpenTag) : Event :=
  .startTag item.tag (item.href.map fun h => ("href".toList, some h)).toList

theorem events_openings (items : List OpenTag) (us : List Token) :
    events (items.map openingToken ++ us) = items.map startOf ++ events us := by
  induction items with
  | nil => rfl
  | cons item items ih =>
    rw [List.map_cons, List.cons_append, openingToken, events, ih]
    rfl

/-- A piece with an open tag is one call for its text. -/
theorem events_piece (ts us : List Token) {text : List Char} (hne : text ≠ [])
    {stack : List OpenTag} (hstack : stack ≠ []) :
    ∃ tag vs, events (ts ++ (pieceTokens text stack ++ us)) =
      events ts ++ (stack.map startOf ++ .data text :: .endTag tag :: events vs) := by
  obtain ⟨first, rest, rfl⟩ := List.exists_cons_of_ne_nil hstack
  obtain ⟨last, more, hlast⟩ : ∃ last more, (first :: rest).reverse = last :: more :=
    List.exists_cons_of_ne_nil (by simp)
  refine ⟨last.tag, more.map closingToken ++ us, ?_⟩
  have htext := events_text hne last.tag (more.map closingToken ++ us)
  have hopen := events_openings (first :: rest)
    (text.map .char ++ .closing last.tag :: (more.map closingToken ++ us))
  rw [htext] at hopen
  have htokens : pieceTokens text (first :: rest) ++ us = (first :: rest).map openingToken ++
      (text.map .char ++ .closing last.tag :: (more.map closingToken ++ us)) := by
    unfold pieceTokens
    rw [hlast, List.map_cons]
    simp [closingToken]
  rw [← hopen, htokens, List.map_cons, List.cons_append]
  exact events_opening ts _ first.tag first.href

theorem hrefOf_start (item : OpenTag) :
    hrefOf (item.href.map fun h => ("href".toList, some h)).toList = item.href := by
  cases item.href <;> rfl

/-- The open tags of a piece go on the stack. -/
theorem steps_openings (r : Rich) (items : List OpenTag) :
    ((items.map startOf).foldl Rich.step r).pre = r.pre ∧
      ∀ item ∈ items, ∃ item' ∈ ((items.map startOf).foldl Rich.step r).stack,
        item'.href = item.href := by
  have hkeep : ∀ (items : List OpenTag) (r : Rich),
      r.stack ⊆ ((items.map startOf).foldl Rich.step r).stack := by
    intro items
    induction items with
    | nil => exact fun r => List.Subset.refl _
    | cons item items ih =>
      refine fun r => List.Subset.trans ?_ (ih _)
      obtain ⟨hbr, hpre⟩ := ne_own item.known
      simp only [startOf, Rich.step, Rich.startTag, if_neg hbr, if_neg hpre]
      rw [dif_pos item.known]
      exact List.subset_append_left _ _
  induction items generalizing r with
  | nil => exact ⟨rfl, fun _ h => absurd h List.not_mem_nil⟩
  | cons item items ih =>
    obtain ⟨hbr, hpre⟩ := ne_own item.known
    obtain ⟨hsame, hitems⟩ := ih (r.step (startOf item))
    refine ⟨hsame.trans ?_, ?_⟩
    · simp only [startOf, Rich.step, Rich.startTag, if_neg hbr, if_neg hpre]
      rw [dif_pos item.known]
    · intro x hx
      rcases List.mem_cons.mp hx with rfl | hx
      · have hpushed : ∃ item' ∈ (r.step (startOf x)).stack, item'.href = x.href := by
          simp only [startOf, Rich.step, Rich.startTag, if_neg hbr, if_neg hpre, hrefOf_start]
          rw [dif_pos x.known]
          refine ⟨_, List.mem_append_right _ List.mem_cons_self, ?_⟩
          split
          · rfl
          · next ha =>
            by_contra hne
            exact ha (x.link fun hnone => hne hnone.symm)
        obtain ⟨item', hmem, heq⟩ := hpushed
        exact ⟨item', hkeep items _ hmem, heq⟩
      · exact hitems x hx

theorem newlines_same {text : List Char} (h : '\r' ∉ text) : newlines text = text := by
  induction text with
  | nil => rfl
  | cons c t ih =>
    have hc : c ≠ '\r' := fun hc => h (hc ▸ List.mem_cons_self)
    have ht := ih fun hmem => h (List.mem_cons_of_mem _ hmem)
    unfold newlines
    split
    · next heq => cases heq
    · next heq => exact absurd (List.cons.inj heq).1 hc
    · next heq => exact absurd (List.cons.inj heq).1 hc
    · next heq =>
      obtain ⟨rfl, rfl⟩ := List.cons.inj heq
      rw [ht]

/-- A link that is written over a piece of text is a link of the rows that are read. -/
theorem link_written (w : Outside) {ts us : List Token} (hts : ∀ tok ∈ ts, tok.Ok)
    (hus : ∀ tok ∈ us, tok.Ok) {part : List Char × List OpenTag} (hpart : Good part)
    {item : OpenTag} (hitem : item ∈ part.2) :
    ∃ r, rich w (written (ts ++ (pieceTokens part.1 part.2 ++ us))) true = some r ∧
      ∃ p ∈ r.parts, ∃ item' ∈ p.2, item'.href = item.href := by
  obtain ⟨hne, hline, hreturn⟩ := hpart
  have hok : ∀ tok ∈ ts ++ (pieceTokens part.1 part.2 ++ us), tok.Ok := by
    intro tok htok
    rcases List.mem_append.mp htok with htok | htok
    · exact hts tok htok
    · rcases List.mem_append.mp htok with htok | htok
      · exact pieceTokens_ok _ _ tok htok
      · exact hus tok htok
  obtain ⟨tag, vs, hevents⟩ := events_piece ts us hne (List.ne_nil_of_mem hitem)
  have hread := congrArg (Option.map fun es => es.foldl Rich.step Rich.new) (parse_written w hok)
  rw [hevents] at hread
  refine ⟨_, hread, ?_⟩
  have hpre := steps_pre (r := Rich.new) rfl (events_plain hts)
  obtain ⟨hpre', hstack⟩ := steps_openings ((events ts).foldl Rich.step Rich.new) part.2
  obtain ⟨item', hmem, hhref⟩ := hstack item hitem
  simp only [List.foldl_append, List.foldl_cons]
  generalize (part.2.map startOf).foldl Rich.step ((events ts).foldl Rich.step Rich.new) = r
    at hpre' hmem
  refine ⟨(clean part.1, r.stack), steps_parts _ _ (step_parts _ _ ?_), item', hmem, hhref⟩
  have hsplit : (newlines part.1).splitOn '\n' = [part.1] := by
    rw [newlines_same hreturn]
    exact List.splitOn_eq_singleton hline
  simp only [Rich.step, Rich.data]
  rw [if_neg (by simp [hpre', hpre]), hsplit]
  change _ ∈ (r.addPart part.1).parts
  rw [addPart_parts, if_pos hne]
  exact List.mem_append_right _ List.mem_cons_self

/-! ### Links that are read were written -/

/-- Every link of the stack and of the rows meets `P`. -/
structure Linked (P : List Char → Prop) (r : Rich) : Prop where
  stack : ∀ item ∈ r.stack, ∀ href, item.href = some href → P href
  parts : ∀ part ∈ r.parts, ∀ item ∈ part.2, ∀ href, item.href = some href → P href

variable {P : List Char → Prop}

theorem Linked.new : Linked P Rich.new :=
  ⟨fun _ h => absurd h List.not_mem_nil, fun _ h => absurd h List.not_mem_nil⟩

theorem Linked.addPart {r : Rich} (h : Linked P r) (text : List Char) : Linked P (r.addPart text) := by
  refine ⟨?_, fun part hpart => ?_⟩
  · unfold Rich.addPart
    split <;> exact h.stack
  · rw [addPart_parts] at hpart
    rcases List.mem_append.mp hpart with hpart | hpart
    · exact h.parts part hpart
    · split at hpart
      · rw [List.mem_singleton.mp hpart]
        exact h.stack
      · cases hpart

theorem Linked.newRow {r : Rich} (h : Linked P r) : Linked P r.newRow := by
  refine ⟨h.stack, ?_⟩
  rw [newRow_parts]
  exact h.parts

theorem Linked.data {r : Rich} (h : Linked P r) (s : List Char) : Linked P (r.data s) := by
  have hrest : ∀ (texts : List (List Char)) (r : Rich), Linked P r →
      Linked P (texts.foldl (fun r part => r.newRow.addPart part) r) := by
    intro texts
    induction texts with
    | nil => exact fun _ h => h
    | cons text texts ih => exact fun r h => ih _ (h.newRow.addPart text)
  unfold Rich.data
  split
  · exact h
  · split
    · exact h
    · exact hrest _ _ (h.addPart _)

/-- The links of a call. -/
def Event.Links (P : List Char → Prop) : Event → Prop
  | .startTag _ attrs => ∀ href, hrefOf attrs = some href → P href
  | _ => True

theorem Linked.step {r : Rich} (h : Linked P r) {e : Event} (he : e.Links P) :
    Linked P (r.step e) := by
  cases e with
  | data s => exact h.data s
  | endTag tag =>
    refine ⟨fun item hitem => h.stack item ?_, h.parts⟩
    simp only [Rich.step, Rich.endTag, closeTag] at hitem
    split at hitem
    · exact List.mem_reverse.mp ((List.dropWhile_sublist _).subset
        (List.mem_of_mem_tail (List.mem_reverse.mp hitem)))
    · exact hitem
  | startTag tag attrs =>
    simp only [Rich.step, Rich.startTag]
    split
    · exact h.newRow
    · split
      · exact ⟨h.stack, h.parts⟩
      · split
        · refine ⟨fun item hitem href hhref => ?_, h.parts⟩
          rcases List.mem_append.mp hitem with hitem | hitem
          · exact h.stack item hitem href hhref
          · rw [List.mem_singleton.mp hitem] at hhref
            split at hhref
            · exact he href hhref
            · cases hhref
        · exact h

theorem Linked.steps {r : Rich} (h : Linked P r) {es : List Event} (hes : ∀ e ∈ es, e.Links P) :
    Linked P (es.foldl Rich.step r) := by
  induction es generalizing r with
  | nil => exact h
  | cons e es ih =>
    obtain ⟨he, hrest⟩ := List.forall_mem_cons.mp hes
    exact ih (h.step he) hrest

/-- The calls for tokens have the links of the tokens. -/
theorem events_links {ts : List Token}
    (h : ∀ tag href, .opening tag (some href) ∈ ts → P href) : ∀ e ∈ events ts, e.Links P := by
  induction ts with
  | nil => exact fun e he => absurd he List.not_mem_nil
  | cons tok ts ih =>
    have hrest := ih fun tag href hmem => h tag href (List.mem_cons_of_mem _ hmem)
    cases tok with
    | opening tag href =>
      refine List.forall_mem_cons.mpr ⟨fun href' hhref => h tag href' ?_, hrest⟩
      cases href with
      | none => cases hhref
      | some v =>
        obtain rfl : v = href' := Option.some.inj hhref
        exact List.mem_cons_self
    | closing tag => exact List.forall_mem_cons.mpr ⟨trivial, hrest⟩
    | char c =>
      intro e he
      simp only [events] at he
      cases hes : events ts with
      | nil =>
        rw [hes] at he
        rw [List.mem_singleton.mp he]
        trivial
      | cons f es =>
        rw [hes] at he hrest
        cases f with
        | data s =>
          rcases List.mem_cons.mp he with rfl | he
          · trivial
          · exact hrest e (List.mem_cons_of_mem _ he)
        | startTag tag attrs =>
          rcases List.mem_cons.mp he with rfl | he
          · trivial
          · exact hrest e he
        | endTag tag =>
          rcases List.mem_cons.mp he with rfl | he
          · trivial
          · exact hrest e he

/-- A link of the rows that are read is a link of the tokens. -/
theorem link_read (w : Outside) {ts : List Token} (hts : ∀ tok ∈ ts, tok.Ok) {r : Rich}
    (h : rich w (written ts) true = some r) {part : List Char × List OpenTag} (hpart : part ∈ r.parts)
    {item : OpenTag} (hitem : item ∈ part.2) {href : List Char} (hhref : item.href = some href) :
    ∃ tag, .opening tag (some href) ∈ ts := by
  have hread := congrArg (Option.map fun es => es.foldl Rich.step Rich.new) (parse_written w hts)
  obtain rfl : (events ts).foldl Rich.step Rich.new = r := Option.some.inj (hread.symm.trans h)
  have hlinked : Linked (fun href => ∃ tag, .opening tag (some href) ∈ ts)
      ((events ts).foldl Rich.step Rich.new) :=
    Linked.new.steps (events_links fun tag href hmem => ⟨tag, hmem⟩)
  exact hlinked.parts part hpart item hitem href hhref

/-- A text that is not read as HTML has no links. -/
theorem data_no_link (s : List Char) {part : List Char × List OpenTag}
    (hpart : part ∈ (Rich.new.data s).parts) {item : OpenTag} (hitem : item ∈ part.2) :
    item.href = none := by
  have hlinked : Linked (fun _ => False) (Rich.new.data s) := Linked.new.data s
  cases h : item.href with
  | none => rfl
  | some href => exact (hlinked.parts part hpart item hitem href h).elim

end Kervax.RichText
