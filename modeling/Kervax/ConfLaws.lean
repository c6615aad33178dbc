-- What the tree of a config is: the grammar of its directives, that every text which is laid out
-- from the tokens of some directives reads as these, and what is read of a text with braces too
-- few or too many.
import Kervax.Conf

namespace Kervax.Conf

/-! ## The grammar of the tokens -/

def Words (args : List Text) : Prop := ∀ t ∈ args, IsWord t

/-- The tokens of some directives: each ends with a semicolon, a line end or its block, and the
last one may do without. -/
inductive Block : List ConfNode → List Text → Prop
  | last {args : List Text} (hargs : Words args) : Block (directive args) args
  | line {args : List Text} {t : Text} {ns : List ConfNode} {ts : List Text} (hargs : Words args)
      (ht : t = [';'] ∨ t = ['\n']) (more : Block ns ts) :
      Block (directive args ++ ns) (args ++ t :: ts)
  | block {args : List Text} {cs ns : List ConfNode} {inner ts : List Text} (hargs : Words args)
      (inside : Block cs inner) (more : Block ns ts) :
      Block (.mk args cs :: ns) (args ++ ['{'] :: (inner ++ ['}'] :: ts))

theorem Block.nil : Block [] [] := @Block.last [] (by simp [Words])

theorem tree_words {ws : List Text} (hws : Words ws) (args ts : List Text) :
    tree args (ws ++ ts) = tree (args ++ ws) ts := by
  induction ws generalizing args with
  | nil => simp
  | cons w ws ih =>
    obtain ⟨hw, hrest⟩ := List.forall_mem_cons.mp hws
    rw [List.cons_append, tree_word hw, ih hrest]
    simp

theorem block_tree {ns : List ConfNode} {ts : List Text} (h : Block ns ts) :
    tree [] ts = (ns, []) ∧ ∀ rest, tree [] (ts ++ ['}'] :: rest) = (ns, rest) := by
  induction h with
  | @last args hargs =>
    refine ⟨?_, fun rest => ?_⟩
    · have hwords := tree_words hargs [] []
      rw [List.append_nil] at hwords
      simp [hwords]
    · simp [tree_words hargs, tree_close]
  | @line args t ns ts hargs ht more ih =>
    refine ⟨?_, fun rest => ?_⟩
    · simp [tree_words hargs, tree_end ht, ih.1]
    · simp [tree_words hargs, tree_end ht, ih.2]
  | @block args cs ns inner ts hargs inside more ihin ihmore =>
    refine ⟨?_, fun rest => ?_⟩
    · simp [tree_words hargs, tree_open, ihin.2, ihmore.1]
    · simp [tree_words hargs, tree_open, ihin.2, ihmore.2]

/-- What a tree is read from: tokens up to a brace too many, or all of them, with the braces that
are missing. -/
def Reads (args ts : List Text) (r : List ConfNode × List Text) : Prop :=
  (∃ read, ts = read ++ ['}'] :: r.2 ∧ Block r.1 (args ++ read)) ∨
    (r.2 = [] ∧ ∃ missing : Nat, Block r.1 (args ++ ts ++ List.replicate missing ['}']))

theorem reads_tree (args ts : List Text) (hargs : Words args) : Reads args ts (tree args ts) := by
  induction hn : ts.length using Nat.strongRecOn generalizing args ts with
  | ind n ih =>
    cases ts with
    | nil =>
      rw [tree_nil]
      exact .inr ⟨rfl, 0, by simpa using Block.last hargs⟩
    | cons t ts =>
      have hlt : ts.length < n := by
        rw [← hn]
        exact Nat.lt_succ_self _
      have hnone : Words [] := by simp [Words]
      by_cases hend : t = [';'] ∨ t = ['\n']
      · rw [tree_end hend]
        rcases ih ts.length hlt [] ts hnone rfl with ⟨read, hread, hblock⟩ | ⟨hall, k, hblock⟩
        · refine .inl ⟨t :: read, ?_, ?_⟩
          · rw [List.cons_append, ← hread]
          · exact Block.line hargs hend (by simpa using hblock)
        · refine .inr ⟨hall, k, ?_⟩
          have hline := Block.line hargs hend (by simpa using hblock)
          simpa using hline
      by_cases hopen : t = ['{']
      · subst hopen
        rw [tree_open]
        rcases ih ts.length hlt [] ts hnone rfl with ⟨inner, hinner, hin⟩ | ⟨hall, k, hin⟩
        · have hmore : (tree [] ts).2.length < n := by
            have hlen := congrArg List.length hinner
            simp only [List.length_append, List.length_cons] at hlen
            omega
          rcases ih _ hmore [] (tree [] ts).2 hnone rfl with ⟨read, hread, hblock⟩ | ⟨hall, k, hblock⟩
          · refine .inl ⟨['{'] :: (inner ++ ['}'] :: read), ?_, ?_⟩
            · simp only [List.cons_append, List.append_assoc]
              rw [← hread, ← hinner]
            · exact Block.block hargs (by simpa using hin) (by simpa using hblock)
          · refine .inr ⟨hall, k, ?_⟩
            have hnode := Block.block hargs (by simpa using hin) (by simpa using hblock)
            have htokens : args ++ ['{'] :: ts ++ List.replicate k ['}'] =
                args ++ ['{'] :: (inner ++ ['}'] :: ((tree [] ts).2 ++ List.replicate k ['}'])) := by
              conv_lhs => rw [hinner]
              simp
            rw [htokens]
            simpa using hnode
        · refine .inr ⟨by simp [hall], k + 1, ?_⟩
          have hnode := Block.block hargs (by simpa using hin) Block.nil
          simpa [hall, directive, List.replicate_succ'] using hnode
      by_cases hclose : t = ['}']
      · subst hclose
        rw [tree_close]
        exact .inl ⟨[], rfl, by simpa using Block.last hargs⟩
      · have hword : IsWord t :=
          ⟨fun h => hend (.inl h), fun h => hend (.inr h), hopen, hclose⟩
        have hwords : Words (args ++ [t]) := by
          intro w hw
          rcases List.mem_append.mp hw with hw | hw
          · exact hargs w hw
          · rwa [List.mem_singleton.mp hw]
        rw [tree_word hword]
        rcases ih ts.length hlt (args ++ [t]) ts hwords rfl with
          ⟨read, hread, hblock⟩ | ⟨hall, k, hblock⟩
        · refine .inl ⟨t :: read, ?_, by simpa using hblock⟩
          rw [List.cons_append, ← hread]
        · exact .inr ⟨hall, k, by simpa using hblock⟩

/-- The tree of any tokens: of the tokens of some directives, and of these up to a closing brace,
it is these directives; and whatever the tokens, it is that of the tokens up to a brace too many,
after which nothing is read, or of all tokens with the closing braces that are missing. -/
theorem conf_tree_reads :
    (∀ ns ts, Block ns ts →
      tree [] ts = (ns, []) ∧ ∀ rest, tree [] (ts ++ ['}'] :: rest) = (ns, rest)) ∧
      ∀ ts, Reads [] ts (tree [] ts) :=
  ⟨fun _ _ h => block_tree h, fun ts => reads_tree [] ts (by simp [Words])⟩

/-! ## Words in a text -/

/-- A character that a word can have without quotes, behind what there is of the word. -/
def Bare (lines : Bool) (cur : Text) (c : Char) : Prop :=
  (isQuote c = false ∧ isBlank c = false ∧ c ≠ '\n' ∧ c ≠ ';') ∧ (c = '#' → cur ≠ []) ∧
    (c = '{' ∨ c = '}' → lines = true ∧ cur ≠ [])

/-- The text of a word from what there is of it on, some of it in quotes. -/
inductive Spelled (lines : Bool) : Text → Text → Text → Prop
  | done {cur : Text} (h : cur ≠ []) : Spelled lines cur [] cur
  | bare {cur : Text} {c : Char} {s w : Text} (hc : Bare lines cur c)
      (more : Spelled lines (cur ++ [c]) s w) : Spelled lines cur (c :: s) w
  | quoted {cur : Text} {q : Char} {t s w : Text} (hq : isQuote q = true) (ht : q ∉ t)
      (more : Spelled lines (cur ++ t) s w) : Spelled lines cur (q :: (t ++ q :: s)) w
  | placeholder {c : Char} {s w : Text} (hl : lines = true) (hc : placeholder [c] = true)
      (more : Spelled lines ['{'] (c :: s) w) : Spelled lines [] ('{' :: c :: s) w

theorem Spelled.ne_nil {lines : Bool} {cur s w : Text} (h : Spelled lines cur s w) : w ≠ [] := by
  induction h with
  | done h => exact h
  | bare _ _ ih => exact ih
  | quoted _ _ _ ih => exact ih
  | placeholder _ _ _ ih => exact ih

theorem tokens_bare {lines : Bool} {cur : Text} {c : Char} (h : Bare lines cur c) (s : Text) :
    confTokens lines cur (c :: s) = confTokens lines (cur ++ [c]) s := by
  obtain ⟨⟨hquote, hblank, hline, hsemi⟩, hhash, hbrace⟩ := h
  have hcomment : ¬ (c = '#' ∧ cur = []) := fun hc => hhash hc.1 hc.2
  have hmark : ¬ (c = ';' ∨ (c = '{' ∨ c = '}') ∧ (cur = [] ∨ lines = false)) := by
    rintro (hc | ⟨hc, hcur | hl⟩)
    · exact hsemi hc
    · exact (hbrace hc).2 hcur
    · rw [(hbrace hc).1] at hl
      cases hl
  rw [confTokens, hquote, if_neg (by simp), if_neg hcomment, if_neg hline, hblank, if_neg (by simp),
    if_neg hmark]

theorem tokens_quoted {lines : Bool} {cur t : Text} {q : Char} (hq : isQuote q = true) (ht : q ∉ t)
    (s : Text) : confTokens lines cur (q :: (t ++ q :: s)) = confTokens lines (cur ++ t) s := by
  have hall : ∀ c ∈ t, decide (c ≠ q) = true := by
    intro c hc
    simp only [ne_eq, decide_eq_true_eq]
    rintro rfl
    exact ht hc
  rw [confTokens, hq, if_pos rfl, List.takeWhile_append_of_pos hall, List.dropWhile_append_of_pos hall]
  simp

theorem spelled_tokens {lines : Bool} {cur s w : Text} (h : Spelled lines cur s w) (rest : Text) :
    confTokens lines cur (s ++ rest) = confTokens lines w rest := by
  induction h with
  | done h => rfl
  | bare hc more ih => rw [List.cons_append, tokens_bare hc, ih]
  | @quoted cur q t s w hq ht more ih =>
    have hassoc : q :: (t ++ q :: s) ++ rest = q :: (t ++ q :: (s ++ rest)) := by simp
    rw [hassoc, tokens_quoted hq ht, ih]
  | @placeholder c s w hl hc more ih =>
    have hnext : placeholder (c :: (s ++ rest)) = true := hc
    rw [List.cons_append, List.cons_append, confTokens]
    have hquote : isQuote '{' = false := by decide
    have hblank : isBlank '{' = false := by decide
    rw [hquote, hblank]
    simp only [Bool.false_eq_true, if_false, Char.reduceEq, false_and, true_or, or_true, hl, hnext,
      and_self, if_true]
    rw [hl] at ih
    exact ih

/-! ## Tokens in a text -/

/-- The text of some tokens, after a word that nothing has ended yet or not. -/
inductive Lays (lines : Bool) : Bool → List Text → Text → Prop
  | nil {after : Bool} : Lays lines after [] []
  | blank {after : Bool} {c : Char} {ts : List Text} {s : Text} (hc : isBlank c = true)
      (more : Lays lines false ts s) : Lays lines after ts (c :: s)
  | newline {after : Bool} {ts : List Text} {s : Text} (more : Lays lines false ts s) :
      Lays lines after ((if lines then [['\n']] else []) ++ ts) ('\n' :: s)
  | comment {t : Text} {ts : List Text} {s : Text} (ht : '\n' ∉ t)
      (hs : s = [] ∨ s.head? = some '\n') (more : Lays lines false ts s) :
      Lays lines false ts ('#' :: (t ++ s))
  | semicolon {after : Bool} {ts : List Text} {s : Text} (more : Lays lines false ts s) :
      Lays lines after ([';'] :: ts) (';' :: s)
  | brace {after : Bool} {c : Char} {ts : List Text} {s : Text} (hc : c = '{' ∨ c = '}')
      (hafter : lines = true → after = false)
      (hs : lines = true → c = '{' → placeholder s = false) (more : Lays lines false ts s) :
      Lays lines after ([c] :: ts) (c :: s)
  | word {w t : Text} {ts : List Text} {s : Text} (hw : Spelled lines [] t w)
      (more : Lays lines true ts s) : Lays lines false (w :: ts) (t ++ s)

theorem tokens_brace {lines : Bool} {cur : Text} {c : Char} (hc : c = '{' ∨ c = '}')
    (hend : cur = [] ∨ lines = false) {s : Text}
    (hs : lines = true → c = '{' → placeholder s = false) :
    confTokens lines cur (c :: s) = flush cur ++ [c] :: confTokens lines [] s := by
  have hmark : ¬ (lines = true ∧ c = '{' ∧ placeholder s = true) := by
    rintro ⟨hl, hopen, hplace⟩
    rw [hs hl hopen] at hplace
    cases hplace
  have hplain : isQuote c = false ∧ isBlank c = false ∧ c ≠ '#' ∧ c ≠ '\n' := by
    rcases hc with rfl | rfl <;> decide
  obtain ⟨hquote, hblank, hhash, hline⟩ := hplain
  rw [confTokens, hquote, hblank, if_neg (by simp), if_neg (fun h => hhash h.1), if_neg hline,
    if_neg (by simp), if_pos (.inr ⟨hc, hend⟩), if_neg hmark]

theorem lays_tokens {lines after : Bool} {ts : List Text} {s : Text} (h : Lays lines after ts s)
    {cur : Text} (hcur : after = false → cur = []) : confTokens lines cur s = flush cur ++ ts := by
  induction h generalizing cur with
  | nil => rw [confTokens, List.append_nil]
  | @blank after c ts s hc more ih =>
    have hquote : isQuote c = false := by
      unfold isBlank at hc
      unfold isQuote
      simp only [Bool.or_eq_true, decide_eq_true_eq] at hc
      rcases hc with (rfl | rfl) | rfl <;> decide
    have hchar : c ≠ '#' ∧ c ≠ '\n' := by
      unfold isBlank at hc
      simp only [Bool.or_eq_true, decide_eq_true_eq] at hc
      rcases hc with (rfl | rfl) | rfl <;> decide
    rw [confTokens, hquote, if_neg (by simp), if_neg (fun h => hchar.1 h.1), if_neg hchar.2, hc,
      if_pos rfl, ih fun _ => rfl]
    rfl
  | @newline after ts s more ih =>
    rw [confTokens, if_neg (by decide), if_neg (by simp), if_pos rfl, ih fun _ => rfl]
    simp [flush]
  | @comment t ts s ht hs more ih =>
    have hempty := hcur rfl
    subst hempty
    have hall : ∀ c ∈ t, decide (c ≠ '\n') = true := by
      intro c hc
      simp only [ne_eq, decide_eq_true_eq]
      rintro rfl
      exact ht hc
    have hskip : (t ++ s).dropWhile (· ≠ '\n') = s := by
      rw [List.dropWhile_append_of_pos hall]
      rcases hs with rfl | hs
      · rfl
      · cases s with
        | nil => rfl
        | cons c s =>
          rw [List.head?_cons, Option.some.injEq] at hs
          subst hs
          rfl
    rw [confTokens, if_neg (by decide), if_pos ⟨rfl, rfl⟩, hskip, ih fun _ => rfl]
  | @semicolon after ts s more ih =>
    rw [confTokens, if_neg (by decide), if_neg (by simp), if_neg (by decide), if_neg (by decide),
      if_pos (.inl rfl), if_neg (by simp), ih fun _ => rfl]
    rfl
  | @brace after c ts s hc hafter hs more ih =>
    have hend : cur = [] ∨ lines = false := by
      cases hl : lines with
      | false => exact .inr rfl
      | true => exact .inl (hcur (hafter hl))
    rw [tokens_brace hc hend hs, ih fun _ => rfl]
    rfl
  | @word w t ts s hw more ih =>
    have hempty := hcur rfl
    subst hempty
    rw [spelled_tokens hw, ih (by simp)]
    simp [flush, hw.ne_nil]

/-! ## Every config can be written -/

/-- A word in quotes, a character at a time. -/
def quoted (w : Text) : Text := w.flatMap fun c => if c = '"' then ['\'', c, '\''] else ['"', c, '"']

theorem quoted_spelled (lines : Bool) (w : Text) {cur : Text} (h : cur ++ w ≠ []) :
    Spelled lines cur (quoted w) (cur ++ w) := by
  induction w generalizing cur with
  | nil =>
    rw [List.append_nil] at h ⊢
    exact .done h
  | cons c w ih =>
    have hrest : Spelled lines (cur ++ [c]) (quoted w) (cur ++ c :: w) := by
      have hsame : cur ++ c :: w = cur ++ [c] ++ w := by simp
      rw [hsame]
      exact ih (by simp)
    unfold quoted at hrest ⊢
    rw [List.flatMap_cons]
    by_cases hc : c = '"'
    · subst hc
      exact .quoted (q := '\'') (t := ['"']) (by decide) (by decide) hrest
    · rw [if_neg hc]
      exact .quoted (q := '"') (t := [c]) (by decide) (by simpa using Ne.symm hc) hrest

/-- Any words can be written. -/
theorem lays_words (lines : Bool) {ts : List Text} (h : ∀ t ∈ ts, t ≠ []) :
    ∃ s, Lays lines false ts s := by
  induction ts with
  | nil => exact ⟨[], .nil⟩
  | cons t ts ih =>
    obtain ⟨ht, hrest⟩ := List.forall_mem_cons.mp h
    obtain ⟨s, hs⟩ := ih hrest
    exact ⟨quoted t ++ ' ' :: s, .word (by simpa using @quoted_spelled lines t [] ht)
      (.blank (by decide) hs)⟩

mutual

/-- The tokens of a directive, each with a block. -/
def writeNode : ConfNode → List Text
  | .mk args cs => args ++ ['{'] :: (writeNodes cs ++ [['}']])

def writeNodes : List ConfNode → List Text
  | [] => []
  | n :: ns => writeNode n ++ writeNodes ns

end

mutual

/-- The directives have words that are no marks and not empty. -/
def Written : ConfNode → Prop
  | .mk args cs => (∀ t ∈ args, IsWord t ∧ t ≠ []) ∧ AllWritten cs

def AllWritten : List ConfNode → Prop
  | [] => True
  | n :: ns => Written n ∧ AllWritten ns

end

mutual

theorem writeNode_block (n : ConfNode) (h : Written n) {ns : List ConfNode} {ts : List Text}
    (hts : Block ns ts ∧ ∀ t ∈ ts, t ≠ []) :
    Block (n :: ns) (writeNode n ++ ts) ∧ ∀ t ∈ writeNode n ++ ts, t ≠ [] := by
  cases n with
  | mk args cs =>
    obtain ⟨hargs, hcs⟩ := h
    obtain ⟨hinside, hne⟩ := writeNodes_block cs hcs
    have hword : Words args := fun t ht => (hargs t ht).1
    constructor
    · have hnode := Block.block hword hinside hts.1
      simpa [writeNode] using hnode
    · intro t ht
      simp only [writeNode, List.append_assoc, List.cons_append, List.mem_append, List.mem_cons,
        List.nil_append] at ht
      rcases ht with ht | rfl | ht | rfl | ht
      · exact (hargs t ht).2
      · simp
      · exact hne t ht
      · simp
      · exact hts.2 t ht

theorem writeNodes_block (ns : List ConfNode) (h : AllWritten ns) :
    Block ns (writeNodes ns) ∧ ∀ t ∈ writeNodes ns, t ≠ [] := by
  cases ns with
  | nil => exact ⟨Block.nil, by simp [writeNodes]⟩
  | cons n ns => exact writeNode_block n h.1 (writeNodes_block ns h.2)

end

/-- A config in any layout reads as the directives that it was written from: blanks, comments and
line ends between the words, words with and without quotes, blocks on one line or on many. And
all directives of words that are not empty and no marks can be written. -/
theorem conf_round_trip (lines : Bool) :
    (∀ ns ts s, Block ns ts → Lays lines false ts s → tree [] (confTokens lines [] s) = (ns, [])) ∧
      ∀ ns, AllWritten ns → ∃ ts s, Block ns ts ∧ Lays lines false ts s := by
  refine ⟨?_, ?_⟩
  · intro ns ts s hblock hlays
    rw [lays_tokens hlays fun _ => rfl]
    exact (block_tree hblock).1
  · intro ns h
    obtain ⟨hblock, hne⟩ := writeNodes_block ns h
    obtain ⟨s, hs⟩ := lays_words lines hne
    exact ⟨_, s, hblock, hs⟩

end Kervax.Conf
