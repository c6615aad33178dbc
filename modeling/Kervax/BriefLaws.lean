-- The laws of the short text: its lines are within the limits and show rows of the text,
-- its tags are balanced, and its last link and its last line are there.
import Kervax.Brief
import Kervax.RichTextLaws

namespace Kervax.Brief

open RichText

/-! ## Rows as tokens -/

theorem opening_text (item : OpenTag) : (openingToken item).piece.text = opening item := by
  unfold openingToken opening
  cases hhref : item.href with
  | none => simp [Token.piece, Markup.Piece.text]
  | some href =>
    have htag := item.link (by simp [hhref])
    simp [Token.piece, Markup.Piece.text, hrefStart_chars, htag]

theorem closing_text (item : OpenTag) : (closingToken item).piece.text = closing item := by
  simp [closingToken, closing, Token.piece, Markup.Piece.text]

theorem written_chars (s : List Char) : written (s.map .char) = escape s := by
  simp [written, escape, Token.piece, Function.comp_def]

theorem written_piece (text : List Char) (stack : List OpenTag) :
    written (pieceTokens text stack) = piece true text stack := by
  have hopen : ∀ items : List OpenTag, written (items.map openingToken) = items.flatMap opening := by
    intro items
    induction items with
    | nil => rfl
    | cons item items ih => simp [opening_text, ih]
  have hclose : ∀ items : List OpenTag, written (items.map closingToken) = items.flatMap closing := by
    intro items
    induction items with
    | nil => rfl
    | cons item items ih => simp [closing_text, ih]
  unfold pieceTokens piece
  rw [written_append, written_append, hopen, hclose, written_chars]
  rfl

/-- The tags of tokens nest. -/
def Nests (ts : List Token) : Prop := Markup.nest [] (ts.map Token.piece) = some []

/-- What is seen of tokens. -/
def shown (ts : List Token) : List Char :=
  (ts.map Token.piece).flatMap (Markup.Piece.shown decode)

@[simp] theorem shown_append (ts us : List Token) : shown (ts ++ us) = shown ts ++ shown us := by
  simp [shown]

theorem shown_chars (s : List Char) : shown (s.map .char) = s := by
  induction s with
  | nil => rfl
  | cons c s ih =>
    unfold shown at *
    rw [List.map_cons, List.map_cons, List.flatMap_cons, ih, Token.piece, escaped_shown]
    rfl

theorem Nests.append {ts us : List Token} (ht : Nests ts) (hu : Nests us) : Nests (ts ++ us) := by
  unfold Nests at *
  rw [List.map_append, Markup.nest_append, ht]
  exact hu

theorem nest_escaped (st : List (List Char)) (c : Char) (ps : List Markup.Piece) :
    Markup.nest st (escaped c :: ps) = Markup.nest st ps := by
  rcases escaped_cases c with ⟨body, heq, -⟩ | ⟨heq, -⟩
  · rw [heq, Markup.nest]
  · rw [heq, Markup.nest]

theorem nest_chars (st : List (List Char)) (s : List Char) :
    Markup.nest st ((s.map Token.char).map Token.piece) = some st := by
  induction s with
  | nil => cases st <;> rfl
  | cons c s ih => exact (nest_escaped st c _).trans ih

theorem nest_openings (items : List OpenTag) (st : List (List Char)) :
    Markup.nest st ((items.map openingToken).map Token.piece) =
      some ((items.map OpenTag.tag).reverse ++ st) := by
  induction items generalizing st with
  | nil => cases st <;> rfl
  | cons item items ih =>
    have hopen : ∀ ps, Markup.nest st ((openingToken item).piece :: ps) =
        Markup.nest (item.tag :: st) ps := by
      intro ps
      unfold openingToken
      cases item.href <;> rfl
    rw [List.map_cons, List.map_cons, hopen, ih]
    simp

theorem pieceTokens_nests (text : List Char) (stack : List OpenTag) :
    Nests (pieceTokens text stack) := by
  have hclose : (stack.reverse.map closingToken).map Token.piece =
      (stack.map OpenTag.tag).reverse.map .closing := by
    simp [closingToken, Token.piece, Function.comp_def]
  have hall := Markup.nest_closings (stack.map OpenTag.tag).reverse []
  unfold Nests pieceTokens
  rw [List.map_append, List.map_append, Markup.nest_append, Markup.nest_append, nest_openings, hclose]
  simp only [Option.bind_some, nest_chars, hall]

theorem pieceTokens_shown (text : List Char) (stack : List OpenTag) :
    shown (pieceTokens text stack) = text := by
  have hopen : ∀ items : List OpenTag, shown (items.map openingToken) = [] := by
    intro items
    induction items with
    | nil => rfl
    | cons item items ih =>
      have hone : (openingToken item).piece.shown decode = [] := by
        unfold openingToken
        cases item.href <;> rfl
      unfold shown at *
      rw [List.map_cons, List.map_cons, List.flatMap_cons, hone, ih]
      rfl
  have hclose : ∀ items : List OpenTag, shown (items.map closingToken) = [] := by
    intro items
    induction items with
    | nil => rfl
    | cons item items ih => exact ih
  unfold pieceTokens
  rw [shown_append, shown_append, hopen, hclose, shown_chars]
  simp

/-! ## Lines as they are seen -/

/-- A text as it is written and as it is seen: in HTML by tokens whose tags nest, and else as
it is. -/
def Seen (htmlMode : Bool) (text seen : List Char) : Prop :=
  if htmlMode then
    ∃ ts, (∀ tok ∈ ts, tok.Ok) ∧ Nests ts ∧ written ts = text ∧ shown ts = seen
  else text = seen

variable {htmlMode : Bool}

theorem Seen.append {s t s' t' : List Char} (hs : Seen htmlMode s s') (ht : Seen htmlMode t t') :
    Seen htmlMode (s ++ t) (s' ++ t') := by
  cases htmlMode with
  | false =>
    obtain rfl : s = s' := hs
    obtain rfl : t = t' := ht
    exact rfl
  | true =>
    obtain ⟨ts, hts, htn, rfl, rfl⟩ := hs
    obtain ⟨us, hus, hun, rfl, rfl⟩ := ht
    refine ⟨ts ++ us, ?_, htn.append hun, written_append ts us, shown_append ts us⟩
    intro tok htok
    exact (List.mem_append.mp htok).elim (hts tok) (hus tok)

/-- Text that `html.escape` leaves. -/
theorem Seen.plain {s : List Char} (h : escape s = s) : Seen htmlMode s s := by
  cases htmlMode with
  | false => exact rfl
  | true =>
    refine ⟨s.map .char, ?_, nest_chars [] s, (written_chars s).trans h, shown_chars s⟩
    intro tok htok
    obtain ⟨c, -, rfl⟩ := List.mem_map.mp htok
    trivial

theorem Seen.piece (text : List Char) (stack : List OpenTag) :
    Seen htmlMode (Brief.piece htmlMode text stack) text := by
  cases htmlMode with
  | false => exact rfl
  | true =>
    exact ⟨_, pieceTokens_ok text stack, pieceTokens_nests text stack, written_piece text stack,
      pieceTokens_shown text stack⟩

/-- The pieces of a row show the row, up to what is left. -/
theorem Seen.pieces {row : Row} (hfull : ∀ part ∈ row, part.1 ≠ []) (left : Nat) :
    Seen htmlMode (Brief.pieces htmlMode left row) ((Brief.plain row).take left) := by
  induction row generalizing left with
  | nil =>
    have hempty := @Seen.plain htmlMode [] rfl
    simpa [Brief.pieces, Brief.plain] using hempty
  | cons part row ih =>
    obtain ⟨hpart, hrow⟩ := List.forall_mem_cons.mp hfull
    unfold Brief.pieces
    simp only
    have hplain : Brief.plain (part :: row) = part.1 ++ Brief.plain row := by
      simp [Brief.plain]
    have hleft : left - part.1.length = left - (part.1.take left).length := by
      rw [List.length_take]
      omega
    rw [hplain, List.take_append, hleft]
    split
    · next hnone =>
      have hzero : left = 0 := by
        rcases List.take_eq_nil_iff.mp hnone with h | h
        · exact h
        · exact absurd h hpart
      subst hzero
      exact @Seen.plain htmlMode [] rfl
    · exact (Seen.piece _ _).append (ih hrow _)

/-- Without the blanks at its end, a line is seen without blanks at its end. -/
theorem Seen.rstrip {text seen : List Char} (h : Seen htmlMode text seen) :
    ∃ p bs, seen = p ++ bs ∧ (∀ b ∈ bs, isSpace b = true) ∧
      Seen htmlMode (Texts.rstripBy isSpace text) p := by
  cases htmlMode with
  | false =>
    obtain rfl : text = seen := h
    obtain ⟨bs, hsplit, hbs⟩ := Texts.rstripBy_split isSpace text
    exact ⟨_, bs, hsplit, hbs, rfl⟩
  | true =>
    obtain ⟨ts, hok, hnest, rfl, rfl⟩ := h
    obtain ⟨qs, cs, hsplit, hcs, heq⟩ := Markup.rstrip_pieces isSpace (by decide) (by decide)
      (ts.map Token.piece)
    obtain ⟨us, vs, rfl, rfl, hvs⟩ := List.map_eq_append_iff.mp hsplit
    refine ⟨shown us, cs, ?_, hcs, us, fun tok htok => hok tok (List.mem_append_left _ htok), ?_,
      heq.symm, rfl⟩
    · have hcs' : shown vs = cs := by
        unfold shown
        rw [hvs]
        simp [List.flatMap_map, Markup.Piece.shown]
      rw [shown_append, hcs']
    · unfold Nests at hnest ⊢
      rw [List.map_append, hvs, Markup.nest_append] at hnest
      obtain ⟨st, hst, hrest⟩ := Option.bind_eq_some_iff.mp hnest
      rw [Markup.nest_chars] at hrest
      rw [hst]
      exact hrest

/-- What a line shows of a row: the row, or as much as fits before an ellipsis, without blanks
at its end. -/
def Shows (row : Row) (budget : Int) (seen : List Char) : Prop :=
  if budget < (plain row).length then
    ∃ p bs, seen = p ++ dots ∧ (plain row).take (budget - 3).toNat = p ++ bs ∧
      ∀ b ∈ bs, isSpace b = true
  else ∃ bs, plain row = seen ++ bs ∧ ∀ b ∈ bs, isSpace b = true

theorem render_seen {row : Row} (hfull : ∀ part ∈ row, part.1 ≠ []) {budget : Int}
    (hbudget : 4 ≤ budget) :
    ∃ seen, Seen htmlMode (render row budget htmlMode) seen ∧ Shows row budget seen := by
  unfold render Shows
  by_cases hcut : budget < (plain row).length
  · obtain ⟨p, bs, hsplit, hbs, hseen⟩ :=
      (@Seen.pieces htmlMode _ hfull (budget - 3).toNat).rstrip
    refine ⟨p ++ dots, ?_, ?_⟩
    · have hleft : max 0 (budget - 3) = budget - 3 := by omega
      simp only [hcut, if_true, hleft]
      exact hseen.append (Seen.plain (by decide))
    · rw [if_pos hcut]
      exact ⟨p, bs, rfl, hsplit, hbs⟩
  · obtain ⟨p, bs, hsplit, hbs, hseen⟩ :=
      (@Seen.pieces htmlMode _ hfull budget.toNat).rstrip
    refine ⟨p, ?_, ?_⟩
    · simp only [hcut, if_false, List.append_nil]
      exact hseen
    · rw [if_neg hcut]
      refine ⟨bs, ?_, hbs⟩
      rwa [List.take_of_length_le (by omega)] at hsplit

theorem Shows.length {row : Row} {budget : Int} {seen : List Char} (hbudget : 4 ≤ budget)
    (h : Shows row budget seen) : (seen.length : Int) ≤ min ((plain row).length : Int) budget := by
  unfold Shows at h
  split at h
  · obtain ⟨p, bs, rfl, htake, -⟩ := h
    have hlen := congrArg List.length htake
    have hdots : dots.length = 3 := by decide
    rw [List.length_take, List.length_append] at hlen
    rw [List.length_append, hdots]
    omega
  · obtain ⟨bs, hplain, -⟩ := h
    have hlen := congrArg List.length hplain
    rw [List.length_append] at hlen
    omega

/-! ## The lines of `build` -/

theorem joined_length {seen : List Char} {rest : List (List Char)} (h : rest ≠ []) :
    (joined (seen :: rest)).length = seen.length + 1 + (joined rest).length := by
  unfold joined
  rw [List.intercalate_cons_of_ne_nil h, List.length_append, List.length_append,
    List.length_singleton]

theorem Seen.joined {ls ss : List (List Char)} (h : List.Forall₂ (Seen htmlMode) ls ss) :
    Seen htmlMode (Brief.joined ls) (Brief.joined ss) := by
  induction h with
  | nil => exact Seen.plain rfl
  | @cons l s ls ss hl hrest ih =>
    unfold Brief.joined at *
    cases hrest with
    | nil =>
      rw [List.intercalate_singleton, List.intercalate_singleton]
      exact hl
    | cons hnext hmore =>
      rw [List.intercalate_cons_cons, List.intercalate_cons_cons]
      exact (hl.append (Seen.plain (by decide))).append ih

/-- A line shows a row within the limit of a line. -/
def LineOf (lim : Limits) (row : Row) (seen : List Char) : Prop :=
  ∃ budget, 4 ≤ budget ∧ budget ≤ lim.lineChars ∧ Shows row budget seen

/-- The lines show the first rows, and all are within what was left. -/
theorem lines_seen (lim : Limits) {reserve : Int} (hreserve : 0 ≤ reserve) {rows : List Row}
    (hfull : ∀ row ∈ rows, ∀ part ∈ row, part.1 ≠ []) (left : Int) :
    ∃ ss, List.Forall₂ (Seen htmlMode) (lines lim htmlMode reserve left rows) ss ∧
      List.Forall₂ (LineOf lim) (rows.take ss.length) ss ∧
      (ss ≠ [] → ((joined ss).length : Int) ≤ left) := by
  induction rows generalizing left with
  | nil => exact ⟨[], .nil, .nil, fun h => absurd rfl h⟩
  | cons row rest ih =>
    obtain ⟨hrow, hrest⟩ := List.forall_mem_cons.mp hfull
    unfold lines
    simp only
    generalize hb : min lim.lineChars (left - if rest ≠ [] then reserve else 0) = budget
    have hline : budget ≤ lim.lineChars := by omega
    have hroom : budget ≤ left := by
      split at hb <;> omega
    split
    · exact ⟨[], .nil, .nil, fun h => absurd rfl h⟩
    · next hfour =>
      have hfour' : 4 ≤ budget := not_lt.mp hfour
      obtain ⟨seen, hseen, hshows⟩ := @render_seen htmlMode row hrow budget hfour'
      have hlen := hshows.length hfour'
      obtain ⟨ss, hss, hrows, htotal⟩ :=
        ih hrest (left - (min ((plain row).length : Int) budget + 1))
      refine ⟨seen :: ss, .cons hseen hss, .cons ⟨budget, hfour', hline, hshows⟩ hrows,
        fun _ => ?_⟩
      by_cases hnil : ss = []
      · subst hnil
        rw [joined, List.intercalate_singleton]
        omega
      · have hsum := htotal hnil
        rw [joined_length hnil]
        omega

/-- The rows all get a line. -/
def Roomy (lim : Limits) : Prop :=
  (lim.maxLines - 1 : Nat) * (lim.lineChars + 1) + 4 ≤ lim.maxChars

/-- The rows before the line of a link leave room for it. -/
def LinkRoomy (lim : Limits) : Prop :=
  (lim.maxLines - 2 : Nat) * (lim.lineChars + 1) + 23 ≤ lim.maxChars

/-- What each row of `build` may take. -/
def budgets (lim : Limits) (reserve : Int) : Int → List Row → List Int
  | _, [] => []
  | left, row :: rest =>
    let budget := min lim.lineChars (left - if rest ≠ [] then reserve else 0)
    if budget < 4 then []
    else budget :: budgets lim reserve (left - (min ((plain row).length : Int) budget + 1)) rest

theorem lines_eq (lim : Limits) (reserve left : Int) (rows : List Row) :
    lines lim htmlMode reserve left rows =
      List.zipWith (fun row budget => render row budget htmlMode) rows
        (budgets lim reserve left rows) := by
  induction rows generalizing left with
  | nil => rfl
  | cons row rest ih =>
    unfold lines budgets
    dsimp only
    by_cases h : min lim.lineChars (left - if rest ≠ [] then reserve else 0) < 4
    · rw [if_pos h, if_pos h, List.zipWith_nil_right]
    · rw [if_neg h, if_neg h, ih, List.zipWith_cons_cons]

/-- With room for all rows, all have a line, and `room` is left for the last one. -/
theorem budgets_last (lim : Limits) (reserve room full : Int) (hfour : 4 ≤ room)
    (hline : room ≤ lim.lineChars) (hreserve : reserve + 4 ≤ full)
    (hnext : room + (lim.lineChars + 1) ≤ full ∨ room < reserve) {rows : List Row}
    (hne : rows ≠ []) {left : Int} (hleft : room ≤ left)
    (hroom : 2 ≤ rows.length →
      ((rows.length - 2 : Nat) : Int) * (lim.lineChars + 1) + full ≤ left) :
    (budgets lim reserve left rows).length = rows.length ∧
      ∃ budget, room ≤ budget ∧ (budgets lim reserve left rows).getLast? = some budget := by
  induction rows generalizing left with
  | nil => exact absurd rfl hne
  | cons row rest ih =>
    unfold budgets
    simp only
    cases rest with
    | nil =>
      have hbudget : room ≤ min lim.lineChars left := le_min hline hleft
      rw [if_neg (not_not.mpr rfl), Int.sub_zero, if_neg (by omega), budgets]
      exact ⟨rfl, min lim.lineChars left, hbudget, rfl⟩
    | cons next more =>
      have hcons := List.cons_ne_nil next more
      have hlen : (row :: next :: more).length = more.length + 2 := rfl
      have hroom' : ((more.length : Nat) : Int) * (lim.lineChars + 1) + full ≤ left :=
        hroom (by omega)
      have hpos : 0 ≤ ((more.length : Nat) : Int) * (lim.lineChars + 1) :=
        Int.mul_nonneg (by omega) (by omega)
      have hfour' : ¬ min lim.lineChars (left - reserve) < 4 := by omega
      rw [if_pos hcons, if_neg hfour']
      generalize hused : left - (min ((plain row).length : Int)
        (min lim.lineChars (left - reserve)) + 1) = left'
      have hleft' : room ≤ left' := by omega
      have hrest : 2 ≤ (next :: more).length →
          (((next :: more).length - 2 : Nat) : Int) * (lim.lineChars + 1) + full ≤ left' := by
        intro htwo
        have hsplit : ((more.length : Nat) : Int) * (lim.lineChars + 1) =
            (((next :: more).length - 2 : Nat) : Int) * (lim.lineChars + 1) +
              (lim.lineChars + 1) := by
          obtain ⟨n, hn⟩ : ∃ n, more.length = n + 1 :=
            ⟨more.length - 1, by rw [List.length_cons] at htwo; omega⟩
          rw [List.length_cons, hn, Nat.add_assoc, Nat.add_sub_cancel, Nat.cast_add, Int.add_mul,
            Nat.cast_one, one_mul]
        omega
      obtain ⟨hcount, budget, hbudget, hlast⟩ := ih hcons hleft' hrest
      refine ⟨congrArg (· + 1) hcount, budget, hbudget, ?_⟩
      rw [List.getLast?_cons, hlast]
      rfl

/-! ## The rows that are shown -/

/-- Where a shown row comes from: a kept row, one with an ellipsis, or the line of a link. -/
def Source (rows : List Row) (row : Row) : Prop :=
  row ∈ rows ∨ (∃ r ∈ rows, row = r ++ [(dots, [])]) ∨ ∃ link ∈ links rows, row = linkRow link

variable (lim : Limits) (keepLast : Bool) (rows : List Row)

theorem firstRows_sub : firstRows lim keepLast rows ⊆ rows := by
  intro row hrow
  unfold firstRows at hrow
  split at hrow
  · rcases List.mem_append.mp hrow with hrow | hrow
    · exact List.mem_of_mem_take hrow
    · exact List.mem_of_getLast? (Option.mem_toList.mp hrow)
  · exact List.mem_of_mem_take hrow

theorem firstRows_length (h : 1 ≤ lim.maxLines) :
    (firstRows lim keepLast rows).length ≤ lim.maxLines := by
  unfold firstRows
  split
  · rw [List.length_append, List.length_take]
    have hone := Option.length_toList_le (o := rows.getLast?)
    omega
  · rw [List.length_take]
    omega

theorem rescued_length (h : 1 ≤ lim.maxLines) (chosen : List Row) (link : OpenTag) :
    (rescued lim chosen link).length ≤ lim.maxLines := by
  unfold rescued
  rw [List.length_append, List.length_take, List.length_singleton]
  omega

theorem chosen_length (h : 1 ≤ lim.maxLines) :
    (chosenRows lim keepLast rows).length ≤ lim.maxLines := by
  have hfirst := firstRows_length lim keepLast rows h
  unfold chosenRows
  simp only
  split
  · exact rescued_length lim h _ _
  · split
    · unfold withDots
      split
      · next row hlast =>
        have hpos : (firstRows lim keepLast rows) ≠ [] := by
          intro hnil
          rw [hnil] at hlast
          cases hlast
        have hlen := List.length_pos_iff.mpr hpos
        rw [List.length_append, List.length_dropLast, List.length_singleton]
        omega
      · exact hfirst
    · exact hfirst

theorem rescued_source {chosen : List Row} (hchosen : ∀ row ∈ chosen, Source rows row)
    {link : OpenTag} (hlink : link ∈ links rows) :
    ∀ row ∈ rescued lim chosen link, Source rows row := by
  intro row hrow
  rcases List.mem_append.mp hrow with hrow | hrow
  · exact hchosen row (List.mem_of_mem_take hrow)
  · exact .inr (.inr ⟨link, hlink, List.mem_singleton.mp hrow⟩)

theorem chosen_source : ∀ row ∈ chosenRows lim keepLast rows, Source rows row := by
  have hfirst : ∀ row ∈ firstRows lim keepLast rows, Source rows row := fun row hrow =>
    .inl (firstRows_sub lim keepLast rows hrow)
  unfold chosenRows
  simp only
  split
  · next link hlost =>
    have hlink := List.mem_of_getLast? (Option.filter_eq_some_iff.mp hlost).1
    exact rescued_source lim rows hfirst hlink
  · split
    · intro row hrow
      unfold withDots at hrow
      split at hrow
      · next last hlast =>
        rcases List.mem_append.mp hrow with hrow | hrow
        · exact hfirst row (List.mem_of_mem_dropLast hrow)
        · rw [List.mem_singleton.mp hrow]
          have hmem := firstRows_sub lim keepLast rows (List.mem_of_getLast? hlast)
          exact .inr (.inl ⟨last, hmem, rfl⟩)
      · exact hfirst row hrow
    · exact hfirst

/-! ### Their pieces of text -/

/-- A row whose pieces of text are not empty and have no line end. -/
def GoodRow (row : Row) : Prop := ∀ part ∈ row, Good part

theorem rowsOf_good (w : Outside) (text : List Char) (htmlMode : Bool) :
    ∀ row ∈ (rowsOf w text htmlMode).1, GoodRow row := by
  have hall : ∀ r : Rich, (∀ part ∈ r.parts, Good part) → ∀ row ∈ r.all, GoodRow row :=
    fun r h row hrow part hpart => h part (List.mem_flatten.mpr ⟨row, hrow, hpart⟩)
  unfold rowsOf
  cases hr : rich w text htmlMode with
  | some r => exact hall r (rich_good hr)
  | none => exact hall _ (data_good new_good text)

theorem kept_good (w : Outside) (text : List Char) (htmlMode : Bool) :
    ∀ row ∈ kept w text htmlMode, GoodRow row := fun row hrow =>
  rowsOf_good w text htmlMode row (List.mem_filter.mp hrow).1

theorem linkRow_good (link : OpenTag) : GoodRow (linkRow link) := by
  have hlink : linkText ≠ [] ∧ '\n' ∉ linkText ∧ '\r' ∉ linkText := by decide
  intro part hpart
  rw [List.mem_singleton.mp hpart]
  exact hlink

theorem source_good {rows : List Row} (h : ∀ row ∈ rows, GoodRow row) {row : Row}
    (hrow : Source rows row) : GoodRow row := by
  rcases hrow with hrow | ⟨r, hr, rfl⟩ | ⟨link, -, rfl⟩
  · exact h row hrow
  · intro part hpart
    rcases List.mem_append.mp hpart with hpart | hpart
    · exact h r hr part hpart
    · rw [List.mem_singleton.mp hpart]
      exact ⟨by decide, by decide, by decide⟩
  · exact linkRow_good link

theorem LineOf.no_newline {lim : Limits} {row : Row} (hrow : GoodRow row) {seen : List Char}
    (h : LineOf lim row seen) : '\n' ∉ seen := by
  have hplain : '\n' ∉ plain row := by
    intro hmem
    obtain ⟨part, hpart, hin⟩ := List.mem_flatMap.mp hmem
    exact (hrow part hpart).2.1 hin
  obtain ⟨budget, -, -, hshows⟩ := h
  unfold Shows at hshows
  intro hmem
  split at hshows
  · obtain ⟨p, bs, rfl, htake, -⟩ := hshows
    rcases List.mem_append.mp hmem with hmem | hmem
    · have htaken : '\n' ∈ (plain row).take (budget - 3).toNat := by
        rw [htake]
        exact List.mem_append_left _ hmem
      exact hplain (List.mem_of_mem_take htaken)
    · exact absurd hmem (by decide)
  · obtain ⟨bs, heq, -⟩ := hshows
    rw [heq] at hplain
    exact hplain (List.mem_append_left _ hmem)

/-! ## The text of `build` -/

theorem reserveOf_bounds (hline : 0 ≤ lim.lineChars) (selected : List Row) (reserveLast : Bool) :
    0 ≤ reserveOf lim selected reserveLast ∧
      reserveOf lim selected reserveLast ≤ lim.lineChars + 1 := by
  unfold reserveOf
  split <;> omega

theorem forall₂_getLast {α β : Type} {R : α → β → Prop} {xs : List α} {ys : List β}
    (h : List.Forall₂ R xs ys) (hne : xs ≠ []) :
    ∃ y, ys.getLast? = some y ∧ R (xs.getLast hne) y := by
  induction h with
  | nil => exact absurd rfl hne
  | @cons x y xs ys hxy hrest ih =>
    cases hrest with
    | nil => exact ⟨y, rfl, hxy⟩
    | @cons x' y' xs' ys' h' hmore =>
      obtain ⟨z, hz, hlast⟩ := ih (List.cons_ne_nil x' xs')
      refine ⟨z, ?_, ?_⟩
      · rw [List.getLast?_cons_cons]
        exact hz
      · rw [List.getLast_cons (List.cons_ne_nil x' xs')]
        exact hlast

/-- What is seen of the text of `build`. -/
structure Built (selected : List Row) (reserveLast : Bool) (ss : List (List Char)) : Prop where
  seen : List.Forall₂ (Seen htmlMode)
    (lines lim htmlMode (reserveOf lim selected reserveLast) lim.maxChars selected) ss
  lines : List.Forall₂ (LineOf lim) (selected.take ss.length) ss
  total : ((joined ss).length : Int) ≤ lim.maxChars
  last : Roomy lim → (hne : selected ≠ []) →
    ∃ s, ss.getLast? = some s ∧ LineOf lim (selected.getLast hne) s

/-- Fewer rows need less room. -/
theorem rows_room {lim : Limits} (hline : 0 ≤ lim.lineChars) {m n : Nat} (hmn : m ≤ n)
    {full left : Int} (h : (n : Int) * (lim.lineChars + 1) + full ≤ left) :
    (m : Int) * (lim.lineChars + 1) + full ≤ left := by
  have hle : (m : Int) ≤ (n : Int) := by omega
  have hmul := Int.mul_le_mul_of_nonneg_right hle (by omega : 0 ≤ lim.lineChars + 1)
  omega

theorem build_built (hline : 4 ≤ lim.lineChars) (hchars : 0 ≤ lim.maxChars) {selected : List Row}
    (hfull : ∀ row ∈ selected, GoodRow row) (hcount : selected.length ≤ lim.maxLines)
    (reserveLast : Bool) : ∃ ss, @Built htmlMode lim selected reserveLast ss := by
  obtain ⟨hreserve, hreserve'⟩ := reserveOf_bounds lim (by omega) selected reserveLast
  obtain ⟨ss, hseen, hlines, htotal⟩ := @lines_seen htmlMode lim _ hreserve selected
    (fun row hrow part hpart => (hfull row hrow part hpart).1) lim.maxChars
  refine ⟨ss, hseen, hlines, ?_, fun hroomy hne => ?_⟩
  · by_cases hnil : ss = []
    · subst hnil
      exact hchars
    · exact htotal hnil
  · unfold Roomy at hroomy
    have hleft : 4 ≤ lim.maxChars := by
      have hpos : 0 ≤ ((lim.maxLines - 1 : Nat) : Int) * (lim.lineChars + 1) :=
        Int.mul_nonneg (by omega) (by omega)
      omega
    have hroom : 2 ≤ selected.length → ((selected.length - 2 : Nat) : Int) *
        (lim.lineChars + 1) + (lim.lineChars + 5) ≤ lim.maxChars := by
      intro htwo
      have hrows := rows_room (by omega) (by omega : selected.length - 1 ≤ lim.maxLines - 1) hroomy
      have hone : ((selected.length - 1 : Nat) : Int) =
          ((selected.length - 2 : Nat) : Int) + 1 := by omega
      rw [hone, Int.add_mul, one_mul] at hrows
      omega
    obtain ⟨hall, -⟩ := budgets_last lim (reserveOf lim selected reserveLast) 4
      (lim.lineChars + 5) (le_refl 4) hline (by omega) (.inl (by omega)) hne hleft hroom
    have hlen : ss.length = selected.length := by
      rw [← hseen.length_eq, lines_eq, List.length_zipWith, hall, min_self]
    rw [hlen, List.take_length] at hlines
    exact forall₂_getLast hlines hne

/-! ## The link -/

/-- The line of a link is whole when it has room. -/
theorem render_link (link : OpenTag) {budget : Int} (h : 18 ≤ budget) :
    render (linkRow link) budget true = written (pieceTokens linkText [link]) := by
  have hplain : plain (linkRow link) = linkText := by simp [plain, linkRow]
  have hlen : linkText.length = 18 := by decide
  have hne : linkText ≠ [] := by decide
  have hcut : ¬ budget < (linkText.length : Int) := by omega
  have htake : linkText.take budget.toNat = linkText := List.take_of_length_le (by omega)
  have hpieces : pieces true budget.toNat (linkRow link) = written (pieceTokens linkText [link]) := by
    unfold linkRow pieces
    simp only [htake]
    rw [if_neg hne, written_piece, pieces, List.append_nil]
  have hend : ∃ s, written (pieceTokens linkText [link]) = s ++ ['>'] := by
    refine ⟨written ([openingToken link] ++ linkText.map .char) ++ '<' :: '/' :: link.tag, ?_⟩
    simp [pieceTokens, closingToken, Token.piece, Markup.Piece.text]
  obtain ⟨s, hs⟩ := hend
  unfold render
  simp only [hplain, hcut, if_false]
  rw [hpieces, hs, Texts.rstripBy_concat (by decide), List.append_nil]

theorem linked_iff {link : OpenTag} (hhref : link.href.getD [] ≠ []) {rows : List Row} :
    linked link rows = true ↔
      ∃ part ∈ rows.flatten, ∃ item ∈ part.2, item.href = link.href := by
  unfold linked links
  simp only [decide_eq_true_eq, List.mem_map, List.mem_flatMap, List.mem_filter, List.mem_flatten]
  constructor
  · rintro ⟨item, ⟨row, hrow, part, hpart, hitem, -⟩, heq⟩
    exact ⟨part, ⟨row, hrow, hpart⟩, item, hitem, heq⟩
  · rintro ⟨part, ⟨row, hrow, hpart⟩, item, hitem, heq⟩
    exact ⟨item, ⟨row, hrow, part, hpart, hitem, by rwa [heq]⟩, heq⟩

theorem links_href {link : OpenTag} {rows : List Row} (h : link ∈ links rows) :
    link.href.getD [] ≠ [] := by
  obtain ⟨row, -, hrow⟩ := List.mem_flatMap.mp h
  obtain ⟨part, -, hpart⟩ := List.mem_flatMap.mp hrow
  exact of_decide_eq_true (List.mem_filter.mp hpart).2

/-- Only a text that is read as HTML has links. -/
theorem links_html {w : Outside} {text : List Char} {link : OpenTag}
    (h : link ∈ links (kept w text htmlMode)) : htmlMode = true := by
  by_contra hno
  have hmode : htmlMode = false := by simpa using hno
  subst hmode
  have hhref := links_href h
  obtain ⟨row, hrow, hin⟩ := List.mem_flatMap.mp h
  obtain ⟨part, hpart, hitem⟩ := List.mem_flatMap.mp hin
  have hall : part ∈ (Rich.new.data text).parts :=
    List.mem_flatten.mpr ⟨row, (List.mem_filter.mp hrow).1, hpart⟩
  rw [data_no_link text hall (List.mem_filter.mp hitem).1] at hhref
  exact hhref rfl

/-! ### What is shown of the rows -/

/-- A row, up to what is left. -/
def cutRow : Nat → Row → Row
  | _, [] => []
  | left, part :: row =>
    let text := part.1.take left
    if text = [] then [] else (text, part.2) :: cutRow (left - text.length) row

/-- How much of a row is shown. -/
def roomOf (row : Row) (budget : Int) : Nat :=
  (if budget < (plain row).length then max 0 (budget - 3) else budget).toNat

/-- The rows as `build` shows them. -/
def shownRows (lim : Limits) (selected : List Row) (reserveLast : Bool) : List Row :=
  List.zipWith (fun row budget => cutRow (roomOf row budget) row) selected
    (budgets lim (reserveOf lim selected reserveLast) lim.maxChars selected)

theorem cutRow_parts {row : Row} {left : Nat} {part : List Char × List OpenTag}
    (h : part ∈ cutRow left row) :
    part.1 ≠ [] ∧ ∃ whole ∈ row, ∃ n, part = (whole.1.take n, whole.2) := by
  induction row generalizing left with
  | nil => cases h
  | cons first row ih =>
    unfold cutRow at h
    simp only at h
    split at h
    · cases h
    · next hne =>
      rcases List.mem_cons.mp h with rfl | h
      · exact ⟨hne, first, List.mem_cons_self, left, rfl⟩
      · obtain ⟨hpart, whole, hwhole, heq⟩ := ih h
        exact ⟨hpart, whole, List.mem_cons_of_mem _ hwhole, heq⟩

theorem cutRow_good {row : Row} (hrow : GoodRow row) (left : Nat) : GoodRow (cutRow left row) := by
  intro part hpart
  obtain ⟨hne, whole, hwhole, n, rfl⟩ := cutRow_parts hpart
  obtain ⟨-, hline, hreturn⟩ := hrow whole hwhole
  exact ⟨hne, fun h => hline (List.mem_of_mem_take h), fun h => hreturn (List.mem_of_mem_take h)⟩

theorem pieces_eq (left : Nat) (row : Row) :
    pieces htmlMode left row = (cutRow left row).flatMap fun part => piece htmlMode part.1 part.2 := by
  induction row generalizing left with
  | nil => rfl
  | cons part row ih =>
    unfold pieces cutRow
    simp only
    split
    · rfl
    · rw [ih, List.flatMap_cons]

/-! ### Tokens that write pieces of text -/

/-- The tokens write these pieces, besides text without tags. -/
structure Writes (parts : Row) (ts : List Token) : Prop where
  ok : ∀ tok ∈ ts, tok.Ok
  opened : ∀ tag href, .opening tag (some href) ∈ ts →
    ∃ part ∈ parts, ∃ item ∈ part.2, item.href = some href
  holds : ∀ part ∈ parts, part.2 ≠ [] →
    ∃ before after, ts = before ++ (pieceTokens part.1 part.2 ++ after)

theorem Writes.chars (s : List Char) : Writes [] (s.map .char) where
  ok tok htok := by
    obtain ⟨c, -, rfl⟩ := List.mem_map.mp htok
    trivial
  opened tag href htok := by
    obtain ⟨c, -, hc⟩ := List.mem_map.mp htok
    cases hc
  holds part hpart := absurd hpart List.not_mem_nil

theorem Writes.append {ps qs : Row} {ts us : List Token} (ht : Writes ps ts) (hu : Writes qs us) :
    Writes (ps ++ qs) (ts ++ us) where
  ok tok htok := (List.mem_append.mp htok).elim (ht.ok tok) (hu.ok tok)
  opened tag href htok := by
    rcases List.mem_append.mp htok with htok | htok
    · obtain ⟨part, hpart, hitem⟩ := ht.opened tag href htok
      exact ⟨part, List.mem_append_left _ hpart, hitem⟩
    · obtain ⟨part, hpart, hitem⟩ := hu.opened tag href htok
      exact ⟨part, List.mem_append_right _ hpart, hitem⟩
  holds part hpart hstack := by
    rcases List.mem_append.mp hpart with hpart | hpart
    · obtain ⟨before, after, rfl⟩ := ht.holds part hpart hstack
      exact ⟨before, after ++ us, by simp⟩
    · obtain ⟨before, after, rfl⟩ := hu.holds part hpart hstack
      exact ⟨ts ++ before, after, by simp⟩

theorem Writes.piece (part : List Char × List OpenTag) :
    Writes [part] (pieceTokens part.1 part.2) where
  ok := pieceTokens_ok part.1 part.2
  opened tag href htok := by
    refine ⟨part, List.mem_cons_self, ?_⟩
    rcases List.mem_append.mp htok with htok | htok
    · rcases List.mem_append.mp htok with htok | htok
      · obtain ⟨item, hitem, heq⟩ := List.mem_map.mp htok
        unfold openingToken at heq
        injection heq with _ hhref
        exact ⟨item, hitem, hhref⟩
      · obtain ⟨c, -, hc⟩ := List.mem_map.mp htok
        cases hc
    · obtain ⟨item, -, heq⟩ := List.mem_map.mp htok
      cases heq
  holds part' hpart _ := by
    rw [List.mem_singleton.mp hpart]
    exact ⟨[], [], by simp⟩

theorem Writes.row (row : Row) : Writes row (row.flatMap fun part => pieceTokens part.1 part.2) := by
  induction row with
  | nil => exact Writes.chars []
  | cons part row ih => exact (Writes.piece part).append ih

/-- Text at the end that has no tags may go. -/
theorem Writes.front {parts : Row} {ts vs : List Token} (h : Writes parts (ts ++ vs))
    (hvs : ∀ tok ∈ vs, ∃ c, tok = .char c) : Writes parts ts where
  ok tok htok := h.ok tok (List.mem_append_left _ htok)
  opened tag href htok := h.opened tag href (List.mem_append_left _ htok)
  holds part hpart hstack := by
    obtain ⟨before, after, heq⟩ := h.holds part hpart hstack
    -- a piece ends with a tag, so it does not reach into the text at the end
    obtain ⟨tokens, item, htokens⟩ : ∃ tokens item,
        pieceTokens part.1 part.2 = tokens ++ [closingToken item] := by
      obtain ⟨first, rest, hfirst⟩ := List.exists_cons_of_ne_nil hstack
      refine ⟨part.2.map openingToken ++ part.1.map .char ++ rest.reverse.map closingToken, first, ?_⟩
      unfold pieceTokens
      rw [hfirst]
      simp
    rw [htokens] at heq ⊢
    rw [← List.append_assoc] at heq
    rcases List.append_eq_append_iff.mp heq with ⟨more, hmore, hafter⟩ | ⟨more, hmore, -⟩
    · rcases List.eq_nil_or_concat more with rfl | ⟨front, tok, rfl⟩
      · exact ⟨before, [], by rw [← List.append_nil ts, ← hmore]; simp⟩
      · rw [List.concat_eq_append, ← List.append_assoc, ← List.append_assoc] at hmore
        have hlast : tok = closingToken item := (List.append_inj' hmore rfl).2 |> List.singleton_inj.mp |>.symm
        obtain ⟨c, hc⟩ := hvs tok (by rw [hafter]; simp)
        rw [hlast] at hc
        cases hc
    · exact ⟨before, more, by rw [hmore]; simp⟩

/-- A line is written by tokens for what is shown of its row. -/
theorem line_written (row : Row) (budget : Int) :
    ∃ ts, Writes (cutRow (roomOf row budget) row) ts ∧ written ts = render row budget true := by
  have hpieces : written ((cutRow (roomOf row budget) row).flatMap fun part =>
      pieceTokens part.1 part.2) = pieces true (roomOf row budget) row := by
    rw [pieces_eq]
    induction cutRow (roomOf row budget) row with
    | nil => rfl
    | cons part rest ih => rw [List.flatMap_cons, List.flatMap_cons, written_append, ih, written_piece]
  have hwhole := Writes.row (cutRow (roomOf row budget) row)
  generalize ((cutRow (roomOf row budget) row).flatMap fun part => pieceTokens part.1 part.2) = all
    at hpieces hwhole
  obtain ⟨qs, cs, hsplit, -, heq⟩ := Markup.rstrip_pieces isSpace (by decide) (by decide)
    (all.map Token.piece)
  obtain ⟨us, vs, rfl, rfl, hvs⟩ := List.map_eq_append_iff.mp hsplit
  have hchars : ∀ tok ∈ vs, ∃ c, tok = .char c := by
    intro tok htok
    have hmem : tok.piece ∈ cs.map Markup.Piece.char := hvs ▸ List.mem_map_of_mem htok
    obtain ⟨c, -, hc⟩ := List.mem_map.mp hmem
    cases tok with
    | char d => exact ⟨d, rfl⟩
    | closing tag => cases hc
    | opening tag href => cases href <;> cases hc
  have hdots := Writes.chars (if budget < (plain row).length then dots else [])
  refine ⟨_, (List.append_nil (cutRow (roomOf row budget) row) ▸ (hwhole.front hchars).append hdots), ?_⟩
  have hescape : ∀ c : Prop, [Decidable c] → escape (if c then dots else []) = if c then dots else [] := by
    intro c _
    split <;> decide
  have hstrip : Texts.rstripBy isSpace (pieces true (roomOf row budget) row) = written us := by
    rw [← hpieces]
    exact heq
  rw [written_append, written_chars, hescape, ← hstrip]
  simp only [render, roomOf]

/-- So is the whole text of `build`. -/
theorem build_written (lim : Limits) (selected : List Row) (reserveLast : Bool) :
    ∃ ts, Writes (shownRows lim selected reserveLast).flatten ts ∧
      written ts = build lim true selected reserveLast := by
  unfold build shownRows
  rw [lines_eq]
  generalize budgets lim (reserveOf lim selected reserveLast) lim.maxChars selected = bs
  induction selected generalizing bs with
  | nil => exact ⟨[], Writes.chars [], rfl⟩
  | cons row rest ih =>
    cases bs with
    | nil => exact ⟨[], Writes.chars [], rfl⟩
    | cons b bs =>
      obtain ⟨ts, hts, hline⟩ := line_written row b
      obtain ⟨us, hus, hmore⟩ := ih bs
      rw [List.zipWith_cons_cons, List.zipWith_cons_cons, List.flatten_cons]
      by_cases hnil : List.zipWith (fun row budget => render row budget true) rest bs = []
      · have hnone : List.zipWith (fun row budget => cutRow (roomOf row budget) row) rest bs = [] := by
          rw [List.zipWith_eq_nil_iff] at hnil ⊢
          exact hnil
        refine ⟨ts, ?_, ?_⟩
        · rw [hnone, List.flatten_nil, List.append_nil]
          exact hts
        · rw [hnil, joined, List.intercalate_singleton]
          exact hline
      · have hbreak := (Writes.chars ['\n']).append hus
        rw [List.nil_append] at hbreak
        refine ⟨_, hts.append hbreak, ?_⟩
        rw [written_append, written_append, written_chars, hline, hmore]
        unfold joined
        rw [List.intercalate_cons_of_ne_nil hnil, List.append_assoc]
        rfl

/-- What is shown is cut from the rows. -/
theorem mem_shownRows {lim : Limits} {selected : List Row} {reserveLast : Bool} {row : Row}
    (h : row ∈ shownRows lim selected reserveLast) :
    ∃ whole ∈ selected, ∃ left, row = cutRow left whole := by
  unfold shownRows at h
  generalize budgets lim (reserveOf lim selected reserveLast) lim.maxChars selected = bs at h
  induction selected generalizing bs with
  | nil => cases h
  | cons first rest ih =>
    cases bs with
    | nil => cases h
    | cons b bs =>
      rw [List.zipWith_cons_cons] at h
      rcases List.mem_cons.mp h with rfl | h
      · exact ⟨first, List.mem_cons_self, _, rfl⟩
      · obtain ⟨whole, hwhole, heq⟩ := ih bs h
        exact ⟨whole, List.mem_cons_of_mem _ hwhole, heq⟩

theorem shownRows_good {lim : Limits} {selected : List Row} (h : ∀ row ∈ selected, GoodRow row)
    (reserveLast : Bool) : ∀ part ∈ (shownRows lim selected reserveLast).flatten, Good part := by
  intro part hpart
  obtain ⟨row, hrow, hin⟩ := List.mem_flatten.mp hpart
  obtain ⟨whole, hwhole, left, rfl⟩ := mem_shownRows hrow
  exact cutRow_good (h whole hwhole) _ part hin

/-- The links of the text of `build` are those of what is shown of its rows. -/
theorem visible_build (w : Outside) {lim : Limits} {selected : List Row}
    (h : ∀ row ∈ selected, GoodRow row) (reserveLast : Bool) {link : OpenTag}
    (hhref : link.href.getD [] ≠ []) :
    visibleLink w link (build lim true selected reserveLast) =
      linked link (shownRows lim selected reserveLast) := by
  obtain ⟨ts, hts, heq⟩ := build_written lim selected reserveLast
  obtain ⟨href, hlink⟩ : ∃ href, link.href = some href := by
    cases h : link.href with
    | none =>
      rw [h] at hhref
      exact absurd rfl hhref
    | some href => exact ⟨href, rfl⟩
  rw [← heq, Bool.eq_iff_iff, linked_iff hhref]
  unfold visibleLink
  rw [Option.any_eq_true]
  constructor
  · rintro ⟨r, hread, hlinked⟩
    obtain ⟨part, hpart, item, hitem, hsame⟩ := (linked_iff hhref).mp hlinked
    obtain ⟨tag, htok⟩ := link_read w hts.ok hread hpart hitem (hsame.trans hlink)
    rw [hlink]
    exact hts.opened tag href htok
  · rintro ⟨part, hpart, item, hitem, hsame⟩
    obtain ⟨before, after, rfl⟩ := hts.holds part hpart (List.ne_nil_of_mem hitem)
    obtain ⟨r, hread, p, hp, item', hitem', hsame'⟩ := link_written w
      (fun tok htok => hts.ok tok (List.mem_append_left _ htok))
      (fun tok htok => hts.ok tok (List.mem_append_right _ (List.mem_append_right _ htok)))
      (shownRows_good h reserveLast part hpart) hitem
    exact ⟨r, hread, (linked_iff hhref).mpr ⟨p, hp, item', hitem', hsame'.trans hsame⟩⟩

/-- What is shown of rows has no links that the rows do not have. -/
theorem linked_of_shown {lim : Limits} {selected : List Row} {reserveLast : Bool} {link : OpenTag}
    (hhref : link.href.getD [] ≠ [])
    (h : linked link (shownRows lim selected reserveLast) = true) : linked link selected = true := by
  obtain ⟨part, hpart, item, hitem, hsame⟩ := (linked_iff hhref).mp h
  obtain ⟨row, hrow, hin⟩ := List.mem_flatten.mp hpart
  obtain ⟨whole, hwhole, left, rfl⟩ := mem_shownRows hrow
  obtain ⟨-, part', hpart', n, rfl⟩ := cutRow_parts hin
  exact (linked_iff hhref).mpr ⟨part', List.mem_flatten.mpr ⟨whole, hwhole, hpart'⟩, item, hitem, hsame⟩

theorem forall₂_right {α β : Type} {R : α → β → Prop} {xs : List α} {ys : List β}
    (h : List.Forall₂ R xs ys) : ∀ y ∈ ys, ∃ x ∈ xs, R x y := by
  induction h with
  | nil => exact fun _ hy => absurd hy List.not_mem_nil
  | @cons x y xs ys hxy _ ih =>
    intro z hz
    rcases List.mem_cons.mp hz with rfl | hz
    · exact ⟨x, List.mem_cons_self, hxy⟩
    · obtain ⟨x', hx', hz'⟩ := ih z hz
      exact ⟨x', List.mem_cons_of_mem _ hx', hz'⟩

/-! ### The line that a lost link gets -/

theorem rescued_last (lim : Limits) (chosen : List Row) (link : OpenTag) :
    rescued lim chosen link ≠ [] ∧ (rescued lim chosen link).getLast? = some (linkRow link) := by
  simp [rescued]

/-- It has room for its text. -/
theorem rescued_budget {lim : Limits} (hline : 18 ≤ lim.lineChars) (hchars : 18 ≤ lim.maxChars)
    (hlines : 2 ≤ lim.maxLines) (hroomy : LinkRoomy lim) {chosen : List Row} (hchosen : chosen ≠ [])
    (link : OpenTag) :
    ∃ bs budget, budgets lim (reserveOf lim (rescued lim chosen link) true) lim.maxChars
        (rescued lim chosen link) = bs ++ [budget] ∧
      bs.length = (chosen.take (lim.maxLines - 1)).length ∧ 18 ≤ budget := by
  obtain ⟨hne, hlast⟩ := rescued_last lim chosen link
  -- the line of the link is held back in full
  have hreserve : reserveOf lim (rescued lim chosen link) true = 19 := by
    have hmany : 1 < (rescued lim chosen link).length := by
      have hpos := List.length_pos_iff.mpr hchosen
      unfold rescued
      rw [List.length_append, List.length_take, List.length_singleton]
      omega
    have hlen : (plain (linkRow link)).length = 18 := by
      rw [show plain (linkRow link) = linkText by simp [plain, linkRow]]
      decide
    unfold reserveOf
    rw [if_pos (by simpa using hmany), hlast, Option.getD_some, hlen]
    omega
  have hcount := rescued_length lim (by omega) chosen link
  obtain ⟨hlength, budget, hbudget, hend⟩ := budgets_last lim 19 18 23 (by omega) hline (by omega) (.inr (by omega)) hne hchars
    fun _ => rows_room (by omega) (by omega) hroomy
  obtain ⟨bs, hbs⟩ := List.getLast?_eq_some_iff.mp hend
  rw [hreserve]
  refine ⟨bs, budget, hbs, ?_, hbudget⟩
  rw [hbs] at hlength
  simpa [rescued] using hlength

/-- So the link is shown. -/
theorem rescued_visible (w : Outside) {lim : Limits} (hline : 18 ≤ lim.lineChars)
    (hchars : 18 ≤ lim.maxChars) (hlines : 2 ≤ lim.maxLines) (hroomy : LinkRoomy lim)
    {chosen : List Row} (hchosen : chosen ≠ []) (hgood : ∀ row ∈ rescued lim chosen link, GoodRow row)
    (hhref : link.href.getD [] ≠ []) :
    visibleLink w link (build lim true (rescued lim chosen link) true) = true := by
  obtain ⟨bs, budget, hbs, hlength, hbudget⟩ :=
    rescued_budget hline hchars hlines hroomy hchosen link
  have hcut : cutRow (roomOf (linkRow link) budget) (linkRow link) = linkRow link := by
    have hplain : plain (linkRow link) = linkText := by simp [plain, linkRow]
    have hlen : linkText.length = 18 := by decide
    have hne : linkText ≠ [] := by decide
    have hroom : 18 ≤ roomOf (linkRow link) budget := by
      unfold roomOf
      rw [hplain, hlen, if_neg (by omega)]
      omega
    unfold linkRow cutRow
    simp only
    rw [List.take_of_length_le (by unfold linkRow at hroom; omega), if_neg hne]
    rfl
  rw [visible_build w hgood true hhref, linked_iff hhref]
  refine ⟨(linkText, [link]), List.mem_flatten.mpr ⟨linkRow link, ?_, List.mem_cons_self⟩, link,
    List.mem_cons_self, rfl⟩
  unfold shownRows
  rw [hbs]
  unfold rescued
  rw [List.zipWith_append hlength.symm]
  refine List.mem_append_right _ ?_
  rw [List.zipWith_cons_cons, hcut]
  exact List.mem_cons_self

/-- And it is the last line. -/
theorem rescued_line {lim : Limits} (hline : 18 ≤ lim.lineChars) (hchars : 18 ≤ lim.maxChars)
    (hlines : 2 ≤ lim.maxLines) (hroomy : LinkRoomy lim) {chosen : List Row} (hchosen : chosen ≠ [])
    (link : OpenTag) :
    ∃ budget, 18 ≤ budget ∧
      (lines lim true (reserveOf lim (rescued lim chosen link) true) lim.maxChars
        (rescued lim chosen link)).getLast? = some (render (linkRow link) budget true) := by
  obtain ⟨bs, budget, hbs, hlength, hbudget⟩ :=
    rescued_budget hline hchars hlines hroomy hchosen link
  refine ⟨budget, hbudget, ?_⟩
  rw [lines_eq, hbs]
  unfold rescued
  rw [List.zipWith_append hlength.symm, List.zipWith_cons_cons, List.zipWith_nil_left]
  exact List.getLast?_concat

/-! ## The last row -/

theorem firstRows_last (hrows : rows ≠ []) :
    firstRows lim true rows ≠ [] ∧ (firstRows lim true rows).getLast? = rows.getLast? := by
  have hlast := List.getLast?_eq_some_getLast hrows
  unfold firstRows
  split
  · rw [hlast]
    simp
  · next hfew =>
    have hlen : rows.length ≤ lim.maxLines := by simpa using hfew
    rw [List.take_of_length_le hlen]
    exact ⟨hrows, rfl⟩

theorem chosen_ne_nil (h : 1 ≤ lim.maxLines) (hrows : rows ≠ []) :
    chosenRows lim keepLast rows ≠ [] := by
  have hfirst : firstRows lim keepLast rows ≠ [] := by
    cases keepLast with
    | true => exact (firstRows_last lim rows hrows).1
    | false =>
      intro hnil
      rcases List.take_eq_nil_iff.mp hnil with hzero | hnil
      · omega
      · exact hrows hnil
  unfold chosenRows
  simp only
  split
  · exact (rescued_last lim _ _).1
  · split
    · unfold withDots
      split
      · simp
      · exact hfirst
    · exact hfirst

/-- The text is built of rows that come from the kept ones. -/
theorem shorten_rows (w : Outside) (htmlMode : Bool) (h : 1 ≤ lim.maxLines) (hrows : rows ≠ []) :
    ∃ selected reserve, shorten w lim htmlMode keepLast rows = build lim htmlMode selected reserve ∧
      (∀ row ∈ selected, Source rows row) ∧ selected.length ≤ lim.maxLines ∧ selected ≠ [] := by
  have hsource := chosen_source lim (keepsLast keepLast rows) rows
  have hlen := chosen_length lim (keepsLast keepLast rows) rows h
  have hne := chosen_ne_nil lim (keepsLast keepLast rows) rows h hrows
  unfold shorten
  simp only
  split
  · next link hlink =>
    split
    · exact ⟨_, _, rfl, rescued_source lim rows hsource (List.mem_of_getLast? hlink),
        rescued_length lim h _ link, (rescued_last lim _ link).1⟩
    · exact ⟨_, _, rfl, hsource, hlen, hne⟩
  · exact ⟨_, _, rfl, hsource, hlen, hne⟩

/-- The rows that keep the last one show this link: its text begins before its row is cut. -/
def holdsLink (link : OpenTag) : Bool := linked link (shownRows lim (firstRows lim true rows) true)

variable {lim rows} {keepLast}

/-- Without a link the rows that keep the last one are shown. -/
theorem shorten_plain (w : Outside) (hkeep : keepsLast keepLast rows = true)
    (hlink : (links rows).getLast? = none) :
    shorten w lim htmlMode keepLast rows = build lim htmlMode (firstRows lim true rows) true := by
  simp [shorten, hkeep, hlink, chosenRows, lostLink]

theorem lostLink_of {link : OpenTag} (hlink : (links rows).getLast? = some link) (chosen : List Row) :
    lostLink lim rows chosen =
      if (1 < lim.maxLines && !linked link chosen) = true then some link else none := by
  rw [lostLink, hlink, Option.filter_some]

/-- So they are where they show the last link. -/
theorem shorten_shown (w : Outside) (hgood : ∀ row ∈ rows, GoodRow row)
    (hkeep : keepsLast keepLast rows = true) {link : OpenTag}
    (hlink : (links rows).getLast? = some link) (hshown : holdsLink lim rows link = true) :
    shorten w lim true keepLast rows = build lim true (firstRows lim true rows) true := by
  have hhref := links_href (List.mem_of_getLast? hlink)
  have hfirst : ∀ row ∈ firstRows lim true rows, GoodRow row := fun row hrow =>
    hgood row (firstRows_sub lim true rows hrow)
  have hchosen : chosenRows lim true rows = firstRows lim true rows := by
    simp [chosenRows, lostLink_of hlink, linked_of_shown hhref hshown]
  have hvisible : visibleLink w link (build lim true (firstRows lim true rows) true) = true :=
    (visible_build w hfirst true hhref).trans hshown
  simp [shorten, hkeep, hlink, hchosen, hvisible]

/-- And where they do not, the line of the link comes last. -/
theorem shorten_lost (w : Outside) (hlines : 2 ≤ lim.maxLines) (hrows : rows ≠ [])
    (hgood : ∀ row ∈ rows, GoodRow row)
    (hkeep : keepsLast keepLast rows = true) {link : OpenTag}
    (hlink : (links rows).getLast? = some link) (hshown : holdsLink lim rows link = false) :
    ∃ chosen, chosen ≠ [] ∧ (∀ row ∈ rescued lim chosen link, Source rows row) ∧
      shorten w lim true keepLast rows = build lim true (rescued lim chosen link) true := by
  have hmem := List.mem_of_getLast? hlink
  have hhref := links_href hmem
  have hfirst : ∀ row ∈ firstRows lim true rows, GoodRow row := fun row hrow =>
    hgood row (firstRows_sub lim true rows hrow)
  have hne := (firstRows_last lim rows hrows).1
  have hsource := chosen_source lim true rows
  have hmany : 1 < lim.maxLines := by omega
  cases hin : linked link (firstRows lim true rows) with
  | true =>
    have hchosen : chosenRows lim true rows = firstRows lim true rows := by
      simp [chosenRows, lostLink_of hlink, hin]
    have hvisible : visibleLink w link (build lim true (firstRows lim true rows) true) = false :=
      (visible_build w hfirst true hhref).trans hshown
    refine ⟨firstRows lim true rows, hne, ?_, by simp [shorten, hkeep, hlink, hchosen, hvisible, hmany]⟩
    exact rescued_source lim rows (hchosen ▸ hsource) hmem
  | false =>
    have hchosen : chosenRows lim true rows = rescued lim (firstRows lim true rows) link := by
      simp [chosenRows, lostLink_of hlink, hin, hmany]
    cases hvisible : visibleLink w link
        (build lim true (rescued lim (firstRows lim true rows) link) true) with
    | true =>
      refine ⟨firstRows lim true rows, hne, hchosen ▸ hsource, ?_⟩
      simp [shorten, hkeep, hlink, hchosen, hvisible]
    | false =>
      refine ⟨rescued lim (firstRows lim true rows) link, (rescued_last lim _ link).1,
        rescued_source lim rows (hchosen ▸ hsource) hmem, ?_⟩
      simp [shorten, hkeep, hlink, hchosen, hvisible, hmany]

/-! ## The laws -/

/-- What is seen of a text. -/
def visibleText (htmlMode : Bool) (text : List Char) : List Char :=
  if htmlMode then Markup.visible decode text else text

theorem Seen.visible {text seen : List Char} (h : Seen htmlMode text seen) :
    visibleText htmlMode text = seen ∧ (htmlMode = true → Markup.Nested Allowed text) := by
  cases htmlMode with
  | false => exact ⟨h, fun h => by cases h⟩
  | true =>
    obtain ⟨ts, hok, hnest, rfl, rfl⟩ := h
    have hpieces : ∀ p ∈ ts.map Token.piece, p.Ok Allowed := by
      intro p hp
      obtain ⟨tok, htok, rfl⟩ := List.mem_map.mp hp
      exact Token.piece_ok (hok tok htok)
    exact ⟨Markup.visible_render allowed hpieces decode, fun _ => ⟨_, rfl, hpieces, hnest⟩⟩

/-- The lines of a short text. -/
structure Short (w : Outside) (lim : Limits) (text : List Char) (htmlMode : Bool)
    (ss : List (List Char)) : Prop where
  count : ss.length ≤ lim.maxLines
  total : ((joined ss).length : Int) ≤ lim.maxChars
  /-- Each line is within the limit and shows a kept row, cut if it is longer, or the line of a
  link; a text without kept rows has the one line that says so. -/
  lines : ∀ s ∈ ss, (s.length : Int) ≤ lim.lineChars ∧ '\n' ∉ s ∧
    (kept w text htmlMode = [] ∧ s = nothing ∨
      ∃ row, Source (kept w text htmlMode) row ∧ LineOf lim row s)

/-- What `brief` keeps to in any case. -/
structure Bounded (w : Outside) (lim : Limits) (text : List Char) (htmlMode keepLast : Bool) :
    Prop where
  /-- The text itself when it fits and nothing was removed, or a short one whose tags nest. -/
  short : brief w lim text htmlMode keepLast = text ∧ fits w lim text htmlMode = true ∨
    ∃ ss, visibleText htmlMode (brief w lim text htmlMode keepLast) = joined ss ∧
      (htmlMode = true → Markup.Nested Allowed (brief w lim text htmlMode keepLast)) ∧
      Short w lim text htmlMode ss
  /-- No kept row is a command. -/
  commands : ∀ row ∈ kept w text htmlMode, isCommand w row = false

/-- The last link of the kept rows is read from the text again. -/
def LinkKept (w : Outside) (lim : Limits) (text : List Char) (htmlMode keepLast : Bool) : Prop :=
  ∀ link, (links (kept w text htmlMode)).getLast? = some link →
    visibleLink w link (brief w lim text htmlMode keepLast) = true

/-- The last line of a short text shows the last kept row, when that is to be kept. -/
def LastKept (w : Outside) (lim : Limits) (text : List Char) (htmlMode keepLast : Bool) : Prop :=
  fits w lim text htmlMode = false → keepsLast keepLast (kept w text htmlMode) = true →
    ∀ row, (kept w text htmlMode).getLast? = some row →
      ∃ s, ((visibleText htmlMode (brief w lim text htmlMode keepLast)).splitOn '\n').getLast? =
        some s ∧ LineOf lim row s

/-- The last link stands where the rows that keep the last one show it, or the last row reads
as the line of a link. -/
def LastSafe (w : Outside) (lim : Limits) (text : List Char) (htmlMode keepLast : Bool) : Prop :=
  fits w lim text htmlMode = false → keepsLast keepLast (kept w text htmlMode) = true →
    ∀ link row, (links (kept w text htmlMode)).getLast? = some link →
      (kept w text htmlMode).getLast? = some row →
      holdsLink lim (kept w text htmlMode) link = true ∨ LineOf lim row linkText

/-- The default limits have room for all rows. -/
theorem defaults_roomy : Roomy defaults := by
  unfold Roomy
  decide

theorem Roomy.link {lim : Limits} (h : Roomy lim) (hlines : 2 ≤ lim.maxLines)
    (hline : 150 ≤ lim.lineChars) : LinkRoomy lim := by
  unfold Roomy at h
  unfold LinkRoomy
  have hone : ((lim.maxLines - 1 : Nat) : Int) = ((lim.maxLines - 2 : Nat) : Int) + 1 := by omega
  rw [hone, Int.add_mul, one_mul] at h
  omega

section Laws

variable (w : Outside) {lim : Limits} {text : List Char} {keepLast : Bool}

theorem brief_short (htmlMode : Bool) (hlines : 2 ≤ lim.maxLines) (hline : 150 ≤ lim.lineChars)
    (hchars : 480 ≤ lim.maxChars) (hfits : fits w lim text htmlMode = false) :
    ∃ ss, Seen htmlMode (brief w lim text htmlMode keepLast) (joined ss) ∧
      Short w lim text htmlMode ss := by
  have hgood := kept_good w text htmlMode
  unfold brief
  rw [hfits, if_neg Bool.false_ne_true]
  split
  · next hnone =>
    have hlen : nothing.length = 20 := by decide
    have hnewline : '\n' ∉ nothing := by decide
    refine ⟨[nothing], Seen.plain (by decide), ?_, ?_, ?_⟩
    · rw [List.length_singleton]
      omega
    · rw [joined, List.intercalate_singleton, hlen]
      omega
    · intro s hs
      rw [List.mem_singleton.mp hs]
      exact ⟨by omega, hnewline, .inl ⟨hnone, rfl⟩⟩
  · next hne =>
    obtain ⟨selected, reserve, heq, hsource, hcount, -⟩ :=
      shorten_rows lim keepLast (kept w text htmlMode) w htmlMode (by omega) hne
    obtain ⟨ss, hbuilt⟩ := @build_built htmlMode lim (by omega) (by omega) selected
      (fun row hrow => source_good hgood (hsource row hrow)) hcount reserve
    rw [heq]
    refine ⟨ss, Seen.joined hbuilt.seen, ?_, hbuilt.total, fun s hs => ?_⟩
    · have hlen := hbuilt.lines.length_eq
      rw [List.length_take] at hlen
      omega
    · obtain ⟨row, hrow, hof⟩ := forall₂_right hbuilt.lines s hs
      have hsrc := hsource row (List.mem_of_mem_take hrow)
      refine ⟨?_, hof.no_newline (source_good hgood hsrc), .inr ⟨row, hsrc, hof⟩⟩
      obtain ⟨budget, hfour, hle, hshows⟩ := hof
      have hlen := hshows.length hfour
      omega

theorem bounded (htmlMode : Bool) (hlines : 2 ≤ lim.maxLines) (hline : 150 ≤ lim.lineChars)
    (hchars : 480 ≤ lim.maxChars) : Bounded w lim text htmlMode keepLast where
  short := by
    cases hfits : fits w lim text htmlMode with
    | true =>
      refine .inl ⟨?_, rfl⟩
      rw [brief, if_pos hfits]
    | false =>
      obtain ⟨ss, hseen, hshort⟩ := brief_short w htmlMode hlines hline hchars hfits
      obtain ⟨hvisible, hnested⟩ := hseen.visible
      exact .inr ⟨ss, hvisible, hnested, hshort⟩
  commands row hrow := by
    have hkept := (List.mem_filter.mp hrow).2
    simp only [Bool.and_eq_true, Bool.not_eq_eq_eq_not, Bool.not_true] at hkept
    exact hkept.2

theorem link_kept (htmlMode : Bool) (hlines : 2 ≤ lim.maxLines) (hline : 150 ≤ lim.lineChars)
    (hchars : 480 ≤ lim.maxChars) (hroomy : LinkRoomy lim) : LinkKept w lim text htmlMode keepLast := by
  intro link hlink
  have hmem := List.mem_of_getLast? hlink
  obtain rfl := links_html hmem
  have hhref := links_href hmem
  have hgood := kept_good w text true
  unfold brief
  split
  · next hfits =>
    -- the text itself: its rows are read without an error, as nothing was removed
    simp only [fits, Bool.and_eq_true, Bool.not_eq_eq_eq_not, Bool.not_true] at hfits
    have hremoved := hfits.1.1.1.1
    obtain ⟨row, hrow, hin⟩ := List.mem_flatMap.mp hmem
    obtain ⟨part, hpart, hitem⟩ := List.mem_flatMap.mp hin
    have hall := (List.mem_filter.mp hrow).1
    unfold rowsOf at hremoved hall
    unfold visibleLink
    cases hr : rich w text true with
    | none =>
      rw [hr] at hremoved
      cases hremoved
    | some r =>
      rw [hr] at hall
      exact (linked_iff hhref).mpr
        ⟨part, List.mem_flatten.mpr ⟨row, hall, hpart⟩, link, (List.mem_filter.mp hitem).1, rfl⟩
  · split
    · next hnone =>
      rw [hnone] at hlink
      cases hlink
    · next hne =>
      unfold shorten
      simp only [hlink]
      split
      · have hsome := chosen_ne_nil lim (keepsLast keepLast (kept w text true)) _ (by omega) hne
        apply rescued_visible w (by omega) (by omega) hlines hroomy hsome _ hhref
        intro row hrow
        exact source_good hgood
          (rescued_source lim _ (chosen_source lim _ _) hmem row hrow)
      · next hseen =>
        have hmany : 1 < lim.maxLines := by omega
        simpa [hmany] using hseen

/-- The last line of the text of `build`. -/
theorem built_last (htmlMode : Bool) {selected : List Row} {ss : List (List Char)}
    (hfull : ∀ row ∈ selected, GoodRow row) (h : @Built htmlMode lim selected true ss) (hne : ss ≠ []) :
    ((visibleText htmlMode (build lim htmlMode selected true)).splitOn '\n').getLast? =
      ss.getLast? := by
  have hlines : ∀ s ∈ ss, '\n' ∉ s := by
    intro s hs
    obtain ⟨row, hrow, hof⟩ := forall₂_right h.lines s hs
    exact hof.no_newline (hfull row (List.mem_of_mem_take hrow))
  rw [build, (Seen.joined h.seen).visible.1, joined, List.splitOn_intercalate _ hlines hne]

/-- With room for all rows, the last line is kept exactly where it is safe from the link. -/
theorem last_kept_iff (htmlMode : Bool) (hlines : 2 ≤ lim.maxLines) (hline : 150 ≤ lim.lineChars)
    (hchars : 480 ≤ lim.maxChars) (hroomy : Roomy lim) :
    LastKept w lim text htmlMode keepLast ↔ LastSafe w lim text htmlMode keepLast := by
  have hgood := kept_good w text htmlMode
  unfold LastKept LastSafe
  refine imp_congr_right fun hfits => imp_congr_right fun hkeep => ?_
  generalize hrows : kept w text htmlMode = rows at hgood hkeep
  by_cases hne : rows = []
  · subst hne
    simp
  have hbrief : brief w lim text htmlMode keepLast = shorten w lim htmlMode keepLast rows := by
    unfold brief
    rw [hfits, if_neg Bool.false_ne_true, hrows, if_neg hne]
  have hsome := List.getLast?_eq_some_getLast hne
  obtain ⟨hfirst, hfirst'⟩ := firstRows_last lim rows hne
  rw [hbrief, hsome]
  -- where the rows that keep the last one are built
  have hbuild : shorten w lim htmlMode keepLast rows =
        build lim htmlMode (firstRows lim true rows) true →
      ∃ s, ((visibleText htmlMode (shorten w lim htmlMode keepLast rows)).splitOn '\n').getLast? =
        some s ∧ LineOf lim (rows.getLast hne) s := by
    intro heq
    have hfull : ∀ row ∈ firstRows lim true rows, GoodRow row := fun row hrow =>
      hgood row (firstRows_sub lim true rows hrow)
    obtain ⟨ss, hbuilt⟩ := @build_built htmlMode lim (by omega) (by omega) _ hfull
      (firstRows_length lim true rows (by omega)) true
    obtain ⟨s, hs, hof⟩ := hbuilt.last hroomy hfirst
    have hlast : (firstRows lim true rows).getLast hfirst = rows.getLast hne := by
      rw [List.getLast?_eq_some_getLast hfirst, hsome] at hfirst'
      exact Option.some.inj hfirst'
    refine ⟨s, ?_, hlast ▸ hof⟩
    rw [heq, built_last htmlMode hfull hbuilt (by rintro rfl; cases hs), hs]
  cases hlink : (links rows).getLast? with
  | none =>
    refine iff_of_true (fun row hrow => ?_) fun link row h => nomatch h
    obtain rfl := Option.some.inj hrow
    exact hbuild (shorten_plain w hkeep hlink)
  | some link =>
    have hmode : htmlMode = true := links_html (hrows ▸ List.mem_of_getLast? hlink)
    subst hmode
    cases hshown : holdsLink lim rows link with
    | true =>
      refine iff_of_true (fun row hrow => ?_) fun link' row h _ => .inl ?_
      · obtain rfl := Option.some.inj hrow
        exact hbuild (shorten_shown w hgood hkeep hlink hshown)
      · obtain rfl := Option.some.inj h
        exact hshown
    | false =>
      obtain ⟨chosen, hchosen, hsource, heq⟩ := shorten_lost w hlines hne hgood hkeep hlink hshown
      have hfull : ∀ row ∈ rescued lim chosen link, GoodRow row := fun row hrow =>
        source_good hgood (hsource row hrow)
      obtain ⟨ss, hbuilt⟩ := @build_built true lim (by omega) (by omega) _ hfull
        (rescued_length lim (by omega) chosen link) true
      -- the last line is that of the link
      obtain ⟨budget, hbudget, hlast⟩ := rescued_line (by omega) (by omega) hlines
        (hroomy.link hlines hline) hchosen link
      obtain ⟨init, hinit⟩ := List.getLast?_eq_some_iff.mp hlast
      have hseen := hbuilt.seen
      rw [hinit] at hseen
      obtain ⟨s, hs, hof⟩ := forall₂_getLast hseen (by simp)
      rw [List.getLast_append_singleton, render_link link hbudget, written_piece] at hof
      have htext : s = linkText := hof.visible.1.symm.trans (Seen.piece linkText [link]).visible.1
      subst htext
      rw [heq, built_last true hfull hbuilt (by rintro rfl; cases hs), hs]
      constructor
      · intro h link' row _ hrow
        obtain ⟨s, hs', hline'⟩ := h row hrow
        obtain rfl := Option.some.inj hs'
        exact .inr hline'
      · intro h row hrow
        refine ⟨linkText, rfl, (h link row rfl hrow).resolve_left ?_⟩
        simp [hshown]

end Laws

/-- No library, so any text that is not plain raises. -/
def plainOutside : Outside := ⟨fun _ => none, fun _ => false, id⟩

/-- A text whose link is in the middle, and whose last line is to be kept. -/
def linkInTheMiddle : List Char := "a\n<a href=\"u\">l</a>\nz".toList

def linkInFive : List Char := linkInTheMiddle ++ "\ny\nx".toList

end Kervax.Brief
