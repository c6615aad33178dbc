-- A cut text keeps its markup: the tags are closed again, no tag and no entity is cut, and
-- what is seen of it is a prefix of what was seen, with an ellipsis.
import Kervax.TgText
import Mathlib

namespace Kervax.TgText

/-! ## The names of the tags -/

/-- Names of small letters, digits and hyphens, as all tags that Telegram takes. -/
def TagName (n : List Char) : Prop :=
  ∃ c m, n = c :: m ∧ isLetter c = true ∧ ∀ x ∈ m, (isLetter x || x.isDigit || x = '-') = true

/-- Names of small letters. -/
def LetterName (n : List Char) : Prop := ∃ c m, n = c :: m ∧ ∀ x ∈ n, isLetter x = true

theorem tagName_chars {n : List Char} (h : TagName n) {c : Char} (hc : c ∈ n) :
    (isLetter c || c.isDigit || c = '-') = true := by
  obtain ⟨a, m, rfl, ha, hm⟩ := h
  rcases List.mem_cons.mp hc with rfl | hc
  · simp [ha]
  · exact hm c hc

theorem tagName : Markup.Name TagName := by
  intro n h
  refine ⟨?_, fun c hc => ?_⟩
  · obtain ⟨a, m, rfl, -⟩ := h
    simp
  · have hchar := tagName_chars h hc
    have hne : ∀ d : Char, (isLetter d || d.isDigit || d = '-') = false → c ≠ d := by
      rintro d hd rfl
      rw [hd] at hchar
      cases hchar
    refine ⟨?_, hne _ (by decide), hne _ (by decide), hne _ (by decide)⟩
    simp [Markup.special, hne '<' (by decide), hne '>' (by decide), hne '&' (by decide)]

theorem LetterName.tagName {n : List Char} (h : LetterName n) : TagName n := by
  obtain ⟨c, m, rfl, hall⟩ := h
  refine ⟨c, m, rfl, hall c List.mem_cons_self, fun x hx => ?_⟩
  simp [hall x (List.mem_cons_of_mem _ hx)]

theorem letterName : Markup.Name LetterName := fun n h => TgText.tagName n h.tagName

theorem isLetter_lower (c : Char) : isLetter c = c.isLower := rfl

theorem openClose_finds (w : Outside) : (openClose w).Finds TagName := by
  rintro n ⟨c, m, rfl, hc, hm⟩
  refine ⟨c, m, rfl, ?_, fun x hx => ?_⟩
  · rw [isLetter_lower] at hc
    simp [openClose, Char.isAlpha, hc]
  · have hx' := hm x hx
    rw [isLetter_lower] at hx'
    simp only [openClose, isWord, Char.isAlphanum, Char.isAlpha, Bool.or_eq_true,
      decide_eq_true_eq] at hx' ⊢
    tauto

theorem letterTags_finds : letterTags.Finds LetterName := by
  rintro n ⟨c, m, rfl, hall⟩
  exact ⟨c, m, rfl, hall c List.mem_cons_self, fun x hx => hall x (List.mem_cons_of_mem _ hx)⟩

/-- Small letters, digits and hyphens have no other small letter. -/
theorem toLower_small {c : Char} (h : (isLetter c || c.isDigit || c = '-') = true) :
    c.toNat < 128 ∧ c.toLower = c := by
  simp only [isLetter_lower, Char.isLower, Char.isDigit, Bool.or_eq_true, Bool.and_eq_true,
    decide_eq_true_eq, UInt32.le_iff_toNat_le, ge_iff_le] at h
  rcases h with (h | h) | rfl
  · have hlow : 97 ≤ c.val.toNat ∧ c.val.toNat ≤ 122 := h
    refine ⟨?_, ?_⟩
    · change c.val.toNat < 128
      omega
    · unfold Char.toLower
      rw [dif_neg]
      rintro ⟨-, hupper⟩
      have hupper' : c.val.toNat ≤ 90 := UInt32.le_iff_toNat_le.mp hupper
      omega
  · have hlow : 48 ≤ c.val.toNat ∧ c.val.toNat ≤ 57 := h
    refine ⟨?_, ?_⟩
    · change c.val.toNat < 128
      omega
    · unfold Char.toLower
      rw [dif_neg]
      rintro ⟨hupper, -⟩
      have hupper' : 65 ≤ c.val.toNat := UInt32.le_iff_toNat_le.mp hupper
      omega
  · decide

theorem lower_tagName (w : Outside) {n : List Char} (h : TagName n) : lower w n = n := by
  have hsmall : ∀ c ∈ n, c.toNat < 128 ∧ c.toLower = c := fun c hc =>
    toLower_small (tagName_chars h hc)
  unfold lower
  rw [if_pos (List.all_eq_true.mpr fun c hc => decide_eq_true (hsmall c hc).1)]
  have hmap : n.map Char.toLower = n.map id := List.map_congr_left fun c hc => (hsmall c hc).2
  rw [hmap, List.map_id]

/-! ## The open tags -/

/-- The tags of nested pieces, folded, are the open ones. -/
theorem folded_tags {name : List Char → Prop}
    (step : List (List Char) → Bool × List Char → List (List Char))
    (hopen : ∀ st n, name n → step st (false, n) = n :: st)
    (hclose : ∀ st n, name n → step (n :: st) (true, n) = st)
    {ps : List Markup.Piece} (hps : ∀ p ∈ ps, p.Ok name) {st st' : List (List Char)}
    (h : Markup.nest st ps = some st') : (ps.flatMap Markup.Piece.tags).foldl step st = st' := by
  induction ps generalizing st with
  | nil => exact Option.some.inj h
  | cons p ps ih =>
    obtain ⟨hp, hrest⟩ := List.forall_mem_cons.mp hps
    cases p with
    | char c => exact ih hrest h
    | entity body => exact ih hrest h
    | opening n r =>
      have hnext := @ih hrest (n :: st) h
      simpa [Markup.Piece.tags, hopen st n hp.1] using hnext
    | closing m =>
      cases st with
      | nil => cases h
      | cons n st =>
        simp only [Markup.nest] at h
        split at h
        · next hnm =>
          subst hnm
          have hnext := ih hrest h
          simpa [Markup.Piece.tags, hclose st n hp] using hnext
        · cases h

/-- What a cut keeps of a text: its markup is whole, and it is seen as a prefix of what was
seen, with an ellipsis if it is cut. -/
structure Kept (name : List Char → Prop) (text out : List Char) : Prop where
  nested : Markup.Nested name out
  seen : ∀ entity, ∃ p, p <+: Markup.visible entity text ∧
    (Markup.visible entity out = p ∨ Markup.visible entity out = p ++ dots)

theorem Kept.refl {name : List Char → Prop} {text : List Char} (h : Markup.Nested name text) :
    Kept name text text :=
  ⟨h, fun _ => ⟨_, List.prefix_refl _, .inl rfl⟩⟩

theorem dots_ok {name : List Char → Prop} : ∀ p ∈ dots.map Markup.Piece.char, p.Ok name := by
  intro p hp
  obtain ⟨c, hc, rfl⟩ := List.mem_map.mp hp
  have hdot : c = '.' := by simpa [dots] using hc
  subst hdot
  exact (by decide : '.' ∉ Markup.special)

/-- A prefix of the pieces with an ellipsis and the closing tags of what is open in it. -/
theorem Kept.cut {name : List Char → Prop} (hname : Markup.Name name) {ps qs : List Markup.Piece}
    (hps : ∀ p ∈ ps, p.Ok name) (hqs : qs <+: ps) {st : List (List Char)}
    (hst : Markup.nest [] qs = some st) :
    Kept name (Markup.render ps) (Markup.render qs ++ dots ++ Markup.closings st) := by
  have hok : ∀ p ∈ qs, p.Ok name := fun p hp => hps p (hqs.subset hp)
  have hclosed : ∀ p ∈ st.map Markup.Piece.closing, p.Ok name := by
    intro p hp
    obtain ⟨n, hn, rfl⟩ := List.mem_map.mp hp
    exact Markup.nest_names hok (fun _ h => absurd h List.not_mem_nil) hst n hn
  have hall : ∀ p ∈ qs ++ dots.map .char ++ st.map .closing, p.Ok name := by
    intro p hp
    rcases List.mem_append.mp hp with hp | hp
    · exact (List.mem_append.mp hp).elim (hok p) (dots_ok p)
    · exact hclosed p hp
  have hrender : Markup.render (qs ++ dots.map .char ++ st.map .closing) =
      Markup.render qs ++ dots ++ Markup.closings st := by
    rw [Markup.render_append, Markup.render_append, Markup.render_chars, Markup.render_closings]
  refine ⟨⟨_, hrender, hall, ?_⟩, fun entity => ?_⟩
  · have hclose := Markup.nest_closings st []
    rw [List.append_nil] at hclose
    rw [Markup.nest_append, Markup.nest_append, hst]
    simp [Markup.nest_chars, hclose]
  · rw [← hrender, Markup.visible_render hname hall, Markup.visible_render hname hps]
    refine ⟨qs.flatMap (Markup.Piece.shown entity), ?_, .inr ?_⟩
    · obtain ⟨rs, rfl⟩ := hqs
      rw [List.flatMap_append]
      exact List.prefix_append _ _
    · simp [List.flatMap_append, List.flatMap_map, Markup.Piece.shown]

/-! ## `clip` -/

theorem unopened_upTo (o c : Char) (text : List Char) (n : Int) :
    Texts.upTo text (unopened o c text n) = Texts.beforeOpen o c (Texts.upTo text n) := by
  unfold unopened Texts.beforeOpen
  split
  · next h =>
    have hplace := Texts.neg_one_le_rfind c (Texts.upTo text n)
    exact Texts.upTo_rfind (Texts.upTo_start text n) (by omega)
  · rfl

theorem find_dots (f : Markup.Pattern) : f.find 0 dots = [] := by
  have h := f.find_plain (s := dots) (by decide) []
  rwa [List.append_nil] at h

theorem clip_kept (w : Outside) {text : List Char} (h : Markup.Nested TagName text) (limit : Int) :
    Kept TagName text (clip w text true limit) := by
  unfold clip
  split
  · exact Kept.refl h
  · obtain ⟨ps, rfl, hps, hnest⟩ := h
    simp only [if_true]
    rw [unopened_upTo, unopened_upTo]
    obtain ⟨qs, hqs, -, hwhole, -⟩ := Markup.whole_pieces tagName hps
      (Texts.upTo_start (Markup.render ps) (clipLine (Markup.render ps) limit))
    obtain ⟨rs, cs, rfl, -, hstrip⟩ := Markup.rstrip_pieces isSpace (by decide) (by decide) qs
    rw [hwhole, hstrip]
    have hin := (List.prefix_append rs _).trans hqs
    obtain ⟨st, hst⟩ := Markup.nest_start hin hnest
    have hok : ∀ p ∈ rs, p.Ok TagName := fun p hp => hps p (hin.subset hp)
    have hfold : ((openClose w).find 0 (Markup.render rs ++ dots)).foldl (clipTag w) [] = st := by
      rw [(openClose w).find_render (openClose_finds w) hok, find_dots, List.append_nil]
      apply folded_tags (clipTag w) _ _ hok hst
      · intro st n hn
        simp [clipTag, lower_tagName w hn]
      · intro st n hn
        simp [clipTag, lower_tagName w hn]
    rw [hfold]
    exact Kept.cut tagName hps hin hst

/-! ### The limit -/

theorem u16_append (s t : List Char) : u16 (s ++ t) = u16 s + u16 t := by
  simp [u16]

theorem u16_bounds (s : List Char) : 0 ≤ u16 s ∧ u16 s ≤ 2 * s.length := by
  induction s with
  | nil => simp [u16]
  | cons c s ih =>
    unfold u16 at *
    simp only [List.map_cons, List.sum_cons, List.length_cons, Nat.cast_add, Nat.cast_one]
    split <;> omega

theorem u16_start {s t : List Char} (h : s <+: t) : u16 s ≤ u16 t := by
  obtain ⟨r, rfl⟩ := h
  rw [u16_append]
  have := (u16_bounds r).1
  omega

/-- The loop ends at a place that leaves room. -/
theorem fit_spec (text : List Char) {room n : Int} (h0 : 0 ≤ n) (hn : n ≤ room) :
    0 ≤ fit text room n ∧ u16 (Texts.upTo text (fit text room n)) ≤ room := by
  induction n using fit.induct text room with
  | case1 n h ih =>
    rw [fit, if_pos h]
    have hsize := (u16_bounds (Texts.upTo text n)).2
    have hlen : ((Texts.upTo text n).length : Int) ≤ n := by
      rw [Texts.upTo, if_pos h0, List.length_take]
      omega
    exact ih (by omega) (by omega)
  | case2 n h =>
    rw [fit, if_neg h]
    refine ⟨h0, ?_⟩
    rcases not_and_or.mp h with h | h
    · obtain rfl : n = 0 := by omega
      simpa [Texts.upTo, u16] using hn
    · exact not_lt.mp h

theorem rstrip_start (p : Char → Bool) (s : List Char) : Texts.rstripBy p s <+: s := by
  unfold Texts.rstripBy
  have h := List.dropWhile_suffix p (l := s.reverse)
  rw [← List.reverse_prefix, List.reverse_reverse] at h
  exact h

/-- The place of the cut leaves room for the ellipsis. -/
theorem clipLine_size (text : List Char) {limit : Int} (h : 3 ≤ limit) :
    u16 (Texts.upTo text (clipLine text limit)) ≤ limit - 3 := by
  obtain ⟨h0, hsize⟩ := fit_spec text (Int.sub_nonneg.mpr h) (le_refl (limit - 3))
  unfold clipLine
  simp only
  split
  · next hnl =>
    rw [Texts.upTo_rfind (Texts.upTo_start text _) (by omega)]
    exact (u16_start (Texts.upTo_start _ _)).trans hsize
  · exact hsize

/-- Without the closing tags, a cut text is a prefix and an ellipsis within the limit. -/
theorem clip_size (w : Outside) (text : List Char) (htmlMode : Bool) {limit : Int}
    (h : 3 ≤ limit) (hcut : limit < u16 text) : ∃ p tags, p <+: text ∧
      clip w text htmlMode limit = p ++ dots ++ Markup.closings tags ∧ u16 (p ++ dots) ≤ limit := by
  have hline := clipLine_size text h
  have hdots : u16 dots = 3 := by decide
  unfold clip
  rw [if_neg (not_le.mpr hcut)]
  cases htmlMode with
  | false =>
    have hstrip := rstrip_start isSpace (Texts.upTo text (clipLine text limit))
    refine ⟨_, [], hstrip.trans (Texts.upTo_start text _), (List.append_nil _).symm, ?_⟩
    have hsize := u16_start hstrip
    rw [u16_append, hdots]
    omega
  | true =>
    simp only [if_true]
    have hin : Texts.upTo text (unopened '&' ';' text (unopened '<' '>' text (clipLine text limit)))
        <+: Texts.upTo text (clipLine text limit) := by
      rw [unopened_upTo, unopened_upTo]
      exact (Texts.beforeOpen_start _ _ _).trans (Texts.beforeOpen_start _ _ _)
    have hstrip := (rstrip_start isSpace _).trans hin
    refine ⟨_, _, hstrip.trans (Texts.upTo_start text _), rfl, ?_⟩
    have hsize := u16_start hstrip
    rw [u16_append, hdots]
    omega

/-! ## `cutHtml` -/

/-- The place of the `&` is looked for before the open tag is cut off, which comes to the same. -/
theorem cutHead_pieces {ps : List Markup.Piece} (hps : ∀ p ∈ ps, p.Ok LetterName) (limit : Int) :
    ∃ qs, qs <+: ps ∧ cutHead (Markup.render ps) limit = Markup.render qs := by
  have hline : ∃ cut, cut <+: Markup.render ps ∧ cutHead (Markup.render ps) limit =
      if Texts.rfind ';' (Texts.beforeOpen '<' '>' cut) < Texts.rfind '&' cut then
        Texts.upTo (Texts.beforeOpen '<' '>' cut) (Texts.rfind '&' cut)
      else Texts.beforeOpen '<' '>' cut := by
    refine ⟨_, ?_, rfl⟩
    split
    · exact (Texts.upTo_start _ _).trans (Texts.upTo_start _ _)
    · exact Texts.upTo_start _ _
  obtain ⟨cut, hcut, heq⟩ := hline
  obtain ⟨qs, hqs, hclosed, hwhole, hsame⟩ := Markup.whole_pieces letterName hps hcut
  refine ⟨qs, hqs, ?_⟩
  rw [heq]
  rcases hsame with hsame | hsame
  · rw [hsame] at hwhole ⊢
    exact hwhole
  · have hprefix := Texts.beforeOpen_start '<' '>' cut
    rw [hsame] at hprefix ⊢
    obtain ⟨r, rfl⟩ := hprefix
    split
    · next hopen =>
      rcases Texts.rfind_append '&' (Markup.render qs) r with hplace | hplace
      · rw [hplace] at hopen
        exact absurd hclosed (not_le.mpr hopen)
      · exact Texts.upTo_of_length_le hplace
    · rfl

theorem cutHtml_kept {text : List Char} (h : Markup.Nested LetterName text) (limit : Int) :
    Kept LetterName text (cutHtml text limit) := by
  unfold cutHtml closers
  split
  · exact Kept.refl h
  · obtain ⟨ps, rfl, hps, hnest⟩ := h
    obtain ⟨qs, hqs, hhead⟩ := cutHead_pieces hps limit
    rw [hhead]
    obtain ⟨st, hst⟩ := Markup.nest_start hqs hnest
    have hok : ∀ p ∈ qs, p.Ok LetterName := fun p hp => hps p (hqs.subset hp)
    have hfind := letterTags.find_render letterTags_finds hok []
    have hnil : letterTags.find 0 [] = [] := rfl
    rw [List.append_nil, hnil, List.append_nil] at hfind
    have hfold : (letterTags.find 0 (Markup.render qs)).foldl cutTag [] = st := by
      rw [hfind]
      apply folded_tags cutTag _ _ hok hst
      · intro st n _
        rfl
      · intro st n _
        simp [cutTag]
    rw [hfold]
    exact Kept.cut letterName hps hqs hst

theorem cutHead_start (text : List Char) (limit : Int) :
    cutHead text limit <+: Texts.upTo text limit := by
  have hline : (if limit / 2 < Texts.rfind '\n' (Texts.upTo text limit) then
      Texts.upTo (Texts.upTo text limit) (Texts.rfind '\n' (Texts.upTo text limit))
      else Texts.upTo text limit) <+: Texts.upTo text limit := by
    split
    · exact Texts.upTo_start _ _
    · exact List.prefix_refl _
  have hif : ∀ (s : List Char) (b : Prop) [Decidable b] (n : Int),
      (if b then Texts.upTo s n else s) <+: s := by
    intro s b _ n
    split
    · exact Texts.upTo_start _ _
    · exact List.prefix_refl _
  exact ((hif _ _ _).trans (hif _ _ _)).trans hline

/-- The cut is within the limit in characters, before the ellipsis. -/
theorem cutHead_length (text : List Char) {limit : Int} (h : 0 ≤ limit) :
    ((cutHead text limit).length : Int) ≤ limit := by
  have hle := (cutHead_start text limit).length_le
  rw [Texts.upTo, if_pos h, List.length_take] at hle
  omega

/-! ## `rowText` -/

section Lines

variable {name : List Char → Prop}

theorem nested_append {s t : List Char} (hs : Markup.Nested name s) (ht : Markup.Nested name t) :
    Markup.Nested name (s ++ t) := by
  obtain ⟨ps, rfl, hps, hp⟩ := hs
  obtain ⟨qs, rfl, hqs, hq⟩ := ht
  refine ⟨ps ++ qs, Markup.render_append ps qs, ?_, ?_⟩
  · intro p hpq
    exact (List.mem_append.mp hpq).elim (hps p) (hqs p)
  · rw [Markup.nest_append, hp]
    exact hq

/-- A character of no tag and no entity. -/
def isPlain (c : Char) : Bool := c ∉ Markup.special

theorem nested_plain {s : List Char} (h : s.all isPlain = true) : Markup.Nested name s := by
  refine ⟨s.map .char, Markup.render_chars s, ?_, Markup.nest_chars [] s⟩
  intro p hp
  obtain ⟨c, hc, rfl⟩ := List.mem_map.mp hp
  have hplain : c ∉ Markup.special := by
    simpa [isPlain] using List.all_eq_true.mp h c hc
  exact hplain

theorem nested_entity (body : List Char) (h : body.all (fun c => isPlain c && c ≠ ';') = true) :
    Markup.Nested name ('&' :: (body ++ [';'])) := by
  refine ⟨[.entity body], by simp [Markup.Piece.text], ?_, rfl⟩
  intro p hp
  obtain rfl := List.mem_singleton.mp hp
  intro c hc
  have hboth := List.all_eq_true.mp h c hc
  simpa [isPlain] using hboth

theorem nested_esc (s : List Char) : Markup.Nested name (esc s) := by
  induction s with
  | nil => exact nested_plain rfl
  | cons c s ih =>
    unfold esc at *
    rw [List.flatMap_cons]
    refine nested_append ?_ ih
    split
    · exact nested_entity "amp".toList (by decide)
    · split
      · exact nested_entity "lt".toList (by decide)
      · split
        · exact nested_entity "gt".toList (by decide)
        · next h1 h2 h3 =>
          apply nested_plain
          simp [isPlain, Markup.special, h1, h2, h3]

theorem nested_two (n : Nat) : Markup.Nested name (two n) := by
  have hdigit : ∀ c : Char, c.isDigit = true → isPlain c = true := by
    intro c hc
    refine decide_eq_true fun hmem => ?_
    simp only [Markup.special, List.mem_cons, List.not_mem_nil, or_false] at hmem
    rcases hmem with rfl | rfl | rfl <;> exact absurd hc (by decide)
  apply nested_plain
  rw [List.all_eq_true]
  intro c hc
  unfold two at hc
  have hdigits : ∀ c ∈ Nat.toDigits 10 n, isPlain c = true := fun c hc =>
    hdigit c (Nat.isDigit_of_mem_toDigits (by decide) (by decide) hc)
  split at hc
  · rcases List.mem_cons.mp hc with rfl | hc
    · decide
    · exact hdigits c hc
  · exact hdigits c hc

theorem nested_cons {c : Char} (hc : c ∉ Markup.special) {s : List Char}
    (hs : Markup.Nested name s) : Markup.Nested name (c :: s) := by
  have h : Markup.Nested name [c] := nested_plain (by simpa [isPlain] using hc)
  exact nested_append h hs

variable (w : Outside) (row : Row) (tz : List Char) (now : Int)

theorem nested_hhmm (t : Int) : Markup.Nested name (hhmm w t tz now) := by
  unfold hhmm
  have htime : ∀ h m, Markup.Nested name (two h ++ ':' :: two m) := fun h m =>
    nested_append (nested_two h) (nested_cons (by decide) (nested_two m))
  simp only
  split
  · exact htime _ _
  · exact nested_append (nested_append (htime _ _) (nested_cons (by decide) (nested_two _)))
      (nested_cons (by decide) (nested_two _))

theorem nested_statusLines : ∀ line ∈ statusLines w row tz now, Markup.Nested name line := by
  have hlist : ∀ (b : Prop) [Decidable b] (x : List Char), Markup.Nested name x →
      ∀ line ∈ (if b then [x] else []), Markup.Nested name line := by
    intro b _ x hx line hline
    split at hline
    · rw [List.mem_singleton.mp hline]
      exact hx
    · cases hline
  intro line hline
  unfold statusLines at hline
  rcases List.mem_append.mp hline with hline | hline
  · rcases List.mem_append.mp hline with hline | hline
    · rcases List.mem_append.mp hline with hline | hline
      · rcases List.mem_append.mp hline with hline | hline
        · obtain ⟨t, -, rfl⟩ := List.mem_map.mp hline
          exact nested_append (nested_append (nested_append (nested_plain (by decide))
            (nested_esc _)) (nested_plain (by decide))) (nested_hhmm w tz now t)
        · exact hlist _ _ (nested_append (nested_append (nested_plain (by decide))
            (nested_esc _)) (nested_plain (by decide))) line hline
      · exact hlist _ _ (nested_append (nested_append (nested_plain (by decide))
          (nested_esc _)) (nested_plain (by decide))) line hline
    · exact hlist _ _ (nested_esc _) line hline
  · obtain ⟨t, -, rfl⟩ := List.mem_map.mp hline
    exact nested_append (nested_plain (by decide)) (nested_hhmm w tz now t)

theorem nested_join {lines : List (List Char)} (h : ∀ line ∈ lines, Markup.Nested name line) :
    Markup.Nested name (['\n'].intercalate lines) := by
  induction lines with
  | nil => exact nested_plain (by decide)
  | cons line lines ih =>
    obtain ⟨hline, hrest⟩ := List.forall_mem_cons.mp h
    cases lines with
    | nil => simpa [List.intercalate] using hline
    | cons next lines =>
      rw [List.intercalate_cons_cons, List.append_assoc]
      exact nested_append hline (nested_cons (by decide) (ih hrest))

end Lines

theorem join_length {lines : List (List Char)} (h : lines ≠ []) :
    ((['\n'].intercalate lines).length : Int) = sizes lines - 1 := by
  induction lines with
  | nil => exact absurd rfl h
  | cons line lines ih =>
    cases lines with
    | nil => simp [List.intercalate, sizes]
    | cons next lines =>
      have hrest := ih (List.cons_ne_nil _ _)
      have hsizes : sizes (line :: next :: lines) = line.length + 1 + sizes (next :: lines) := by
        simp [sizes]
      rw [List.intercalate_cons_cons, hsizes, List.length_append, List.length_append,
        List.length_singleton]
      omega

theorem rowWhole_nested (w : Outside) {row : Row} (tz : List Char) (now : Int)
    (h : Markup.Nested LetterName row.text) :
    Markup.Nested LetterName (rowWhole w row tz now) := by
  unfold rowWhole
  simp only
  split
  · exact nested_append (nested_append (cutHtml_kept h _).nested (nested_plain (by decide)))
      (nested_join (nested_statusLines w row tz now))
  · exact h

theorem cutHtml_length (text : List Char) {limit : Int} (h : 0 ≤ limit)
    (hclosers : (text.length : Int) ≤ limit ∨ (closers text limit).length ≤ 16) :
    ((cutHtml text limit).length : Int) ≤ limit + 19 := by
  have hhead := cutHead_length text h
  have hdots : dots.length = 3 := by decide
  unfold cutHtml
  split
  · omega
  · next hcut =>
    have hclose := hclosers.resolve_left hcut
    rw [List.length_append, List.length_append, hdots]
    omega

/-- The status lines are whole while the closing tags above them are short. -/
theorem status_kept (w : Outside) (row : Row) (tz : List Char) (now : Int)
    (hlines : statusLines w row tz now ≠ []) (hfit : 0 ≤ rowLimit (statusLines w row tz now))
    (hclosers : (row.text.length : Int) ≤ rowLimit (statusLines w row tz now) ∨
      (closers row.text (rowLimit (statusLines w row tz now))).length ≤ 16) :
    rowText w row tz now = cutHtml row.text (rowLimit (statusLines w row tz now)) ++
      "\n\n".toList ++ ['\n'].intercalate (statusLines w row tz now) := by
  have hwhole : rowWhole w row tz now = cutHtml row.text (rowLimit (statusLines w row tz now)) ++
      "\n\n".toList ++ ['\n'].intercalate (statusLines w row tz now) := by
    unfold rowWhole
    exact if_pos hlines
  have hcut := cutHtml_length row.text hfit hclosers
  have hjoin := join_length hlines
  have htwo : "\n\n".toList.length = 2 := by decide
  have hlimit : rowLimit (statusLines w row tz now) =
      4000 - sizes (statusLines w row tz now) - 20 := rfl
  unfold rowText
  rw [hwhole, cutHtml, if_pos]
  rw [List.length_append, List.length_append, htwo]
  omega

/-! ## The laws -/

/-- A cut text keeps its markup, and where the status lines are whole. -/
structure MarkupKept (w : Outside) : Prop where
  /-- `_clip` keeps the markup and the visible text up to its cut, at every limit. -/
  clip : ∀ text limit, Markup.Nested TagName text → Kept TagName text (clip w text true limit)
  /-- Without the closing tags it is within the limit, when that has room for the ellipsis. -/
  clipSize : ∀ text htmlMode limit, 3 ≤ limit →
    TgText.clip w text htmlMode limit = text ∧ u16 text ≤ limit ∨
    ∃ p tags, p <+: text ∧ TgText.clip w text htmlMode limit = p ++ dots ++ Markup.closings tags ∧
      u16 (p ++ dots) ≤ limit
  /-- `_cut_html` does the same to tags of small letters. -/
  cut : ∀ text limit, Markup.Nested LetterName text → Kept LetterName text (cutHtml text limit)
  /-- Its limit is of characters, and the ellipsis is not counted. -/
  cutSize : ∀ text limit, 0 ≤ limit →
    cutHtml text limit = text ∧ (text.length : Int) ≤ limit ∨
    ∃ p tags, p <+: text ∧ cutHtml text limit = p ++ dots ++ Markup.closings tags ∧
      (p.length : Int) ≤ limit
  /-- The text of an alert with its status lines keeps the markup too. -/
  row : ∀ row tz now, Markup.Nested LetterName row.text →
    Kept LetterName (rowWhole w row tz now) (rowText w row tz now)
  /-- The status lines are whole at its end, while they leave room for the alert and the closing
  tags above them take at most 16 characters. -/
  status : ∀ row tz now, statusLines w row tz now ≠ [] →
    0 ≤ rowLimit (statusLines w row tz now) →
    (row.text.length : Int) ≤ rowLimit (statusLines w row tz now) ∨
      (closers row.text (rowLimit (statusLines w row tz now))).length ≤ 16 →
    rowText w row tz now = cutHtml row.text (rowLimit (statusLines w row tz now)) ++
      "\n\n".toList ++ ['\n'].intercalate (statusLines w row tz now)

theorem markup_kept (w : Outside) : MarkupKept w where
  clip text limit h := clip_kept w h limit
  clipSize text htmlMode limit h := by
    by_cases hfits : u16 text ≤ limit
    · exact .inl ⟨by rw [TgText.clip, if_pos hfits], hfits⟩
    · exact .inr (clip_size w text htmlMode h (not_le.mp hfits))
  cut text limit h := cutHtml_kept h limit
  cutSize text limit h := by
    by_cases hfits : (text.length : Int) ≤ limit
    · exact .inl ⟨by rw [cutHtml, if_pos hfits], hfits⟩
    · have hcut : cutHtml text limit = cutHead text limit ++ dots ++ Markup.closings
          ((letterTags.find 0 (cutHead text limit)).foldl cutTag []) := by
        rw [cutHtml, if_neg hfits]
        rfl
      exact .inr ⟨_, _, (cutHead_start text limit).trans (Texts.upTo_start text limit), hcut,
        cutHead_length text h⟩
  row row tz now h := cutHtml_kept (rowWhole_nested w tz now h) 4000
  status row tz now := status_kept w row tz now

def plain : Outside := ⟨fun _ => false, id, fun _ _ => ⟨2026, 10, 15, 15, 20⟩⟩

theorem rfind_of_notMem {c : Char} {s : List Char} (h : c ∉ s) : Texts.rfind c s = -1 := by
  rw [Texts.rfind, Texts.lastOf_eq_none.mpr h]

/-- A text of one line, without a tag or an entity, is cut at the limit. -/
theorem cutHead_plain {text : List Char} {limit : Int} (h : 0 ≤ limit) (hline : '\n' ∉ text)
    (hlt : '<' ∉ text) (hamp : '&' ∉ text) : cutHead text limit = Texts.upTo text limit := by
  have hsub : ∀ c, c ∉ text → Texts.rfind c (Texts.upTo text limit) = -1 := fun c hc =>
    rfind_of_notMem fun hin => hc ((Texts.upTo_start text limit).subset hin)
  have hgt := Texts.neg_one_le_rfind '>' (Texts.upTo text limit)
  have hsemi := Texts.neg_one_le_rfind ';' (Texts.upTo text limit)
  have hcut : (if limit / 2 < Texts.rfind '\n' (Texts.upTo text limit) then
      Texts.upTo (Texts.upTo text limit) (Texts.rfind '\n' (Texts.upTo text limit))
      else Texts.upTo text limit) = Texts.upTo text limit := by
    rw [hsub _ hline, if_neg (by omega)]
  unfold cutHead
  dsimp only
  rw [hcut, hsub _ hlt, if_neg (not_lt.mpr hgt), hsub _ hamp, if_neg (not_lt.mpr hsemi)]

/-- A text of many letters. -/
theorem cutHtml_letters {n limit : Nat} (h : limit < n) :
    cutHtml (List.replicate n 'a') limit = List.replicate limit 'a' ++ dots := by
  have hhead : cutHead (List.replicate n 'a') limit = List.replicate limit 'a' := by
    rw [cutHead_plain (by omega) (by simp) (by simp) (by simp), Texts.upTo, if_pos (by omega),
      Int.toNat_natCast, List.take_replicate, min_eq_left h.le]
  have hfind : letterTags.find 0 (List.replicate limit 'a') = [] := by
    have hplain := letterTags.find_plain (s := List.replicate limit 'a') (by simp) []
    rwa [List.append_nil] at hplain
  rw [cutHtml, if_neg (by simp only [List.length_replicate]; omega), closers, hhead, hfind]
  simp [Markup.closings]

/-- At a limit below the ellipsis `_clip` gives more than the limit, and `_cut_html` gives the
ellipsis on top of the limit of a message. -/
theorem ellipsis_over_limit :
    ¬ (∀ (w : Outside) (text : List Char) (limit : Int), Markup.Nested TagName text →
      ∃ head tags, clip w text true limit = head ++ Markup.closings tags ∧ u16 head ≤ limit) ∧
    ¬ (∀ text : List Char, Markup.Nested LetterName text →
      ∃ head tags, cutHtml text 4000 = head ++ Markup.closings tags ∧ u16 head ≤ 4000) := by
  have hplain : ∀ name, Markup.Nested name "abcd".toList := fun _ => nested_plain (by decide)
  have hclosings : ∀ (s head : List Char) (tags : List (List Char)), '<' ∉ s →
      s = head ++ Markup.closings tags → head = s := by
    intro s head tags hs heq
    cases tags with
    | nil => simpa [Markup.closings] using heq.symm
    | cons n tags =>
      refine absurd ?_ hs
      rw [heq]
      simp [Markup.closings, Markup.Piece.text]
  constructor
  · intro h
    obtain ⟨head, tags, heq, hsize⟩ := h plain "abcd".toList 2 (hplain _)
    have hfit : fit "abcd".toList (2 - 3) (2 - 3) = -1 := by
      rw [fit, if_neg (by decide)]
      rfl
    have hline : clipLine "abcd".toList 2 = -1 := by
      unfold clipLine
      rw [hfit]
      decide
    have hout : clip plain "abcd".toList true 2 = "abc...".toList := by
      unfold clip
      rw [hline]
      decide
    rw [hout] at heq
    rw [hclosings _ head tags (by decide) heq] at hsize
    exact absurd hsize (by decide)
  · intro h
    have hletters : ∀ n, Markup.Nested LetterName (List.replicate n 'a') := fun n =>
      nested_plain (by simp [isPlain, Markup.special])
    have hno : ∀ n, '<' ∉ List.replicate n 'a' ++ dots := by simp [dots]
    have hunits : ∀ n : Nat, u16 (List.replicate n 'a') = n := by simp [u16]
    have hdots : u16 dots = 3 := by decide
    obtain ⟨head, tags, heq, hsize⟩ := h (List.replicate 4001 'a') (hletters 4001)
    rw [show (4000 : Int) = (4000 : Nat) from rfl, cutHtml_letters (Nat.lt_succ_self 4000)] at heq
    rw [hclosings _ head tags (hno 4000) heq, u16_append, hunits] at hsize
    omega

end Kervax.TgText
