-- The included files of an nginx config: the code puts their tokens in the place of the directive,
-- and the tree is the same as if it put their trees there.
import Kervax.ConfLaws

namespace Kervax.Conf

/-! ## Trees in the place of a directive -/

mutual

/-- The directive, or what it includes. -/
def inlineNode (included : Text → List ConfNode) : ConfNode → List ConfNode
  | .mk args cs =>
    match args with
    | [t, pat] =>
      if t = INCLUDE then included pat else [.mk args (inlineNodes included cs)]
    | _ => [.mk args (inlineNodes included cs)]

def inlineNodes (included : Text → List ConfNode) : List ConfNode → List ConfNode
  | [] => []
  | n :: ns => inlineNode included n ++ inlineNodes included ns

end

/-- The tree of a file with the trees of the files that it includes, so many levels deep. -/
def inlined (files : Files) : Nat → Text → List ConfNode
  | 0, _ => []
  | levels + 1, path =>
    match files.read path with
    | none => []
    | some text =>
      inlineNodes (fun pat => (files.glob pat).flatMap (inlined files levels))
        (tree [] (confTokens false [] text)).1

/-- A directive that is kept: it has no more than its words. -/
theorem inlineNode_kept (included : Text → List ConfNode) {args : List Text}
    (h : ∀ pat, args ≠ [INCLUDE, pat]) (cs : List ConfNode) :
    inlineNode included (.mk args cs) = [.mk args (inlineNodes included cs)] := by
  match args, h with
  | [], _ => rw [inlineNode]; simp
  | [t], _ => rw [inlineNode]; simp
  | [t, pat], h =>
    have ht : t ≠ INCLUDE := by
      rintro rfl
      exact h pat rfl
    rw [inlineNode, if_neg ht]
  | t :: pat :: u :: rest, _ => rw [inlineNode]; simp

/-- The tokens of a whole file: each directive has its end, and `include` neither stands alone nor
heads a block. In front of one pattern it is taken for a directive of its own, in front of more
words it is kept as it is. -/
inductive Whole : List ConfNode → List Text → Prop
  | nil : Whole [] []
  | blank {ns : List ConfNode} {ts : List Text} (more : Whole ns ts) : Whole ns ([';'] :: ts)
  | line {args : List Text} {ns : List ConfNode} {ts : List Text} (hargs : Words args)
      (hne : args ≠ []) (hinc : args ≠ [INCLUDE]) (more : Whole ns ts) :
      Whole (.mk args [] :: ns) (args ++ [';'] :: ts)
  | block {args : List Text} {cs ns : List ConfNode} {inner ts : List Text} (hargs : Words args)
      (hinc : args.head? ≠ some INCLUDE) (inside : Whole cs inner) (more : Whole ns ts) :
      Whole (.mk args cs :: ns) (args ++ ['{'] :: (inner ++ ['}'] :: ts))

theorem Whole.tokens {ns : List ConfNode} {ts : List Text} (h : Whole ns ts) : Block ns ts := by
  induction h with
  | nil => exact Block.nil
  | @blank ns ts more ih => exact @Block.line [] [';'] ns ts (by simp [Words]) (.inl rfl) ih
  | @line args ns ts hargs hne hinc more ih =>
    have hline := Block.line hargs (.inl rfl) ih
    rwa [directive, if_neg hne] at hline
  | block hargs hinc inside more ihin ihmore => exact Block.block hargs ihin ihmore

theorem Whole.append {ns ms : List ConfNode} {ts us : List Text} (h : Whole ns ts)
    (h' : Whole ms us) : Whole (ns ++ ms) (ts ++ us) := by
  induction h with
  | nil => exact h'
  | blank more ih => exact .blank ih
  | @line args ns ts hargs hne hinc more ih =>
    have hline := Whole.line hargs hne hinc ih
    simpa using hline
  | @block args cs ns inner ts hargs hinc inside more ihin ihmore =>
    have hblock := Whole.block hargs hinc inside ihmore
    simpa using hblock

theorem Whole.flatMap {α : Type} {nodes : α → List ConfNode} {tokens : α → List Text}
    (h : ∀ a, Whole (nodes a) (tokens a)) (l : List α) :
    Whole (l.flatMap nodes) (l.flatMap tokens) := by
  induction l with
  | nil => exact .nil
  | cons a l ih =>
    rw [List.flatMap_cons, List.flatMap_cons]
    exact (h a).append ih

/-! ## The loop over the tokens -/

section

variable (included : Text → List Text)

theorem expand_step {t : Text} {prev : Option Text} (h : ¬ (t = INCLUDE ∧ begins prev = true))
    (ts : List Text) :
    expand included prev (t :: ts) = t :: expand included (some t) ts := by
  match ts with
  | [] => rw [expand]; simp
  | [_] => rw [expand]; simp
  | pat :: mark :: ts =>
    rw [expand, if_neg]
    rintro ⟨ht, -, hprev⟩
    exact h ⟨ht, hprev⟩

theorem expand_mark {c : Char} (prev : Option Text) (ts : List Text) :
    expand included prev ([c] :: ts) = [c] :: expand included (some [c]) ts :=
  expand_step included (fun h => by simp [INCLUDE] at h) ts

theorem begins_word {t : Text} (h : IsWord t) : begins (some t) = false := by
  obtain ⟨hsemi, -, hopen, hclose⟩ := h
  simp [begins, hsemi, hopen, hclose]

/-- The words of a directive behind its first. -/
theorem expand_words {ws : List Text} (hws : Words ws) {prev : Option Text}
    (hprev : begins prev = false) (c : Char) (ts : List Text) :
    expand included prev (ws ++ [c] :: ts) = ws ++ [c] :: expand included (some [c]) ts := by
  induction ws generalizing prev with
  | nil => exact expand_mark included prev ts
  | cons w ws ih =>
    obtain ⟨hw, hrest⟩ := List.forall_mem_cons.mp hws
    rw [List.cons_append, expand_step included (by simp [hprev]), ih hrest (begins_word hw)]
    rfl

/-- A directive that includes nothing. -/
theorem expand_kept {args : List Text} (hargs : Words args) {prev : Option Text} {c : Char}
    (h : args.head? = some INCLUDE → 2 < args.length) (ts : List Text) :
    expand included prev (args ++ [c] :: ts) = args ++ [c] :: expand included (some [c]) ts := by
  match args, hargs, h with
  | [], _, _ => exact expand_mark included prev ts
  | w :: ws, hargs, h =>
    obtain ⟨hw, hrest⟩ := List.forall_mem_cons.mp hargs
    have hwords := expand_words included hrest (begins_word hw) c ts
    by_cases hinc : w = INCLUDE
    · match ws, hrest, h, hwords with
      | [], _, h, _ => exact absurd (h (by simp [hinc])) (by simp)
      | [_], _, h, _ => exact absurd (h (by simp [hinc])) (by simp)
      | a :: b :: ws, hrest, h, hwords =>
        have hb : b ≠ [';'] := (hrest b (by simp)).1
        rw [List.cons_append, List.cons_append, List.cons_append, expand,
          if_neg (fun hall => hb hall.2.1)]
        rw [List.cons_append, List.cons_append] at hwords
        rw [hwords]
        rfl
    · rw [List.cons_append, expand_step included (fun hall => hinc hall.1), hwords]
      rfl

end

/-- The tokens of a whole file with whole files in the places: those of the tree with their trees
in the places. -/
theorem expand_whole {included : Text → List Text} {nodes : Text → List ConfNode}
    (hin : ∀ pat, Whole (nodes pat) (included pat)) {ns : List ConfNode} {ts : List Text}
    (h : Whole ns ts) {prev : Option Text} (hprev : begins prev = true) (rest : List Text) :
    ∃ out last, expand included prev (ts ++ rest) = out ++ expand included last rest ∧
      begins last = true ∧ Whole (inlineNodes nodes ns) out := by
  induction h generalizing prev rest with
  | nil => exact ⟨[], prev, rfl, hprev, by rw [inlineNodes]; exact .nil⟩
  | @blank ns ts more ih =>
    obtain ⟨out, last, hout, hlast, hwhole⟩ := @ih (some [';']) (by decide) rest
    refine ⟨[';'] :: out, last, ?_, hlast, .blank hwhole⟩
    rw [List.cons_append, expand_mark, hout]
    rfl
  | @line args ns ts hargs hne hinc more ih =>
    obtain ⟨out, last, hout, hlast, hwhole⟩ := @ih (some [';']) (by decide) rest
    by_cases hpat : ∃ pat, args = [INCLUDE, pat]
    · obtain ⟨pat, rfl⟩ := hpat
      refine ⟨included pat ++ out, last, ?_, hlast, ?_⟩
      · have htokens : [INCLUDE, pat] ++ [';'] :: ts ++ rest =
            INCLUDE :: pat :: [';'] :: (ts ++ rest) := by simp
        rw [htokens, expand, if_pos ⟨rfl, rfl, hprev⟩, hout, List.append_assoc]
      · rw [inlineNodes, inlineNode, if_pos rfl]
        exact (hin pat).append hwhole
    · have hkept : ∀ pat, args ≠ [INCLUDE, pat] := fun pat hargs' => hpat ⟨pat, hargs'⟩
      have hlong : args.head? = some INCLUDE → 2 < args.length := by
        intro hhead
        match args, hhead, hinc, hkept with
        | [w], hhead, hinc, _ =>
          rw [List.head?_cons, Option.some.injEq] at hhead
          exact absurd (by rw [hhead]) hinc
        | [w, pat], hhead, _, hkept =>
          rw [List.head?_cons, Option.some.injEq] at hhead
          exact absurd (by rw [hhead]) (hkept pat)
        | _ :: _ :: _ :: _, _, _, _ => simp
      refine ⟨args ++ [';'] :: out, last, ?_, hlast, ?_⟩
      · rw [List.append_assoc, List.cons_append, expand_kept included hargs hlong, hout]
        simp
      · rw [inlineNodes, inlineNode_kept nodes hkept, inlineNodes]
        exact .line hargs hne hinc hwhole
  | @block args cs ns inner ts hargs hinc inside more ihin ihmore =>
    obtain ⟨out, last, hout, hlast, hwhole⟩ :=
      @ihin (some ['{']) (by decide) (['}'] :: (ts ++ rest))
    obtain ⟨out', last', hout', hlast', hwhole'⟩ := @ihmore (some ['}']) (by decide) rest
    have hkept : ∀ pat, args ≠ [INCLUDE, pat] := by
      rintro pat rfl
      exact hinc rfl
    refine ⟨args ++ ['{'] :: (out ++ ['}'] :: out'), last', ?_, hlast', ?_⟩
    · have htokens : args ++ ['{'] :: (inner ++ ['}'] :: ts) ++ rest =
          args ++ ['{'] :: (inner ++ ['}'] :: (ts ++ rest)) := by simp
      rw [htokens, expand_kept included hargs (fun hhead => absurd hhead hinc), hout, expand_mark,
        hout']
      simp
    · rw [inlineNodes, inlineNode_kept nodes hkept]
      exact .block hargs hinc hwhole hwhole'

theorem nginxConf_whole {files : Files}
    (h : ∀ path text, files.read path = some text → ∃ ns, Whole ns (confTokens false [] text))
    (levels : Nat) (path : Text) :
    Whole (inlined files levels path) (nginxConf files levels path) := by
  induction levels generalizing path with
  | zero => exact .nil
  | succ levels ih =>
    rw [inlined, nginxConf]
    cases hread : files.read path with
    | none => exact .nil
    | some text =>
      obtain ⟨ns, hns⟩ := h path text hread
      have hin := fun pat => Whole.flatMap ih (files.glob pat)
      obtain ⟨out, last, hout, -, hwhole⟩ := @expand_whole _ _ hin _ _ hns none rfl []
      dsimp only
      rw [(block_tree hns.tokens).1]
      rw [List.append_nil, expand, List.append_nil] at hout
      rw [hout]
      exact hwhole

/-- Where every readable file has whole directives, the tree of the config with the tokens of
the included files in their places is the tree with their own trees in these places, however deep
they include one another, up to the limit of levels. -/
theorem includes_in_place {files : Files}
    (h : ∀ path text, files.read path = some text → ∃ ns, Whole ns (confTokens false [] text))
    (levels : Nat) (path : Text) :
    tree [] (nginxConf files levels path) = (inlined files levels path, []) :=
  (block_tree (nginxConf_whole h levels path).tokens).1

/-- A config that includes a file of one directive. -/
def twoFiles : Files where
  read path := if path = ['m'] then some (INCLUDE ++ [' ', 'a', ';']) else some ['u', ' ', 'x', ';']
  glob pat := if pat = ['a'] then [['f']] else []

theorem includes_in_place_user :
    tree [] (nginxConf twoFiles LEVELS ['m']) = ([.mk [['u'], ['x']] []], []) := by
  have hmain :
      Whole [.mk [INCLUDE, ['a']] []] (confTokens false [] (INCLUDE ++ [' ', 'a', ';'])) := by
    have htokens : confTokens false [] (INCLUDE ++ [' ', 'a', ';']) = [INCLUDE, ['a'], [';']] := by
      simp [confTokens, INCLUDE, isQuote, isBlank, flush]
    rw [htokens]
    exact .line (by simp [Words, IsWord, INCLUDE]) (by simp) (by simp) .nil
  have hfile : Whole [.mk [['u'], ['x']] []] (confTokens false [] ['u', ' ', 'x', ';']) := by
    have htokens : confTokens false [] ['u', ' ', 'x', ';'] = [['u'], ['x'], [';']] := by
      simp [confTokens, isQuote, isBlank, flush]
    rw [htokens]
    exact .line (by simp [Words, IsWord]) (by simp) (by simp) .nil
  have hread : ∀ path text, twoFiles.read path = some text →
      ∃ ns, Whole ns (confTokens false [] text) := by
    intro path text h
    simp only [twoFiles] at h
    split at h
    · cases h
      exact ⟨_, hmain⟩
    · cases h
      exact ⟨_, hfile⟩
  have hincluded : inlined twoFiles 8 ['f'] = [.mk [['u'], ['x']] []] := by
    rw [inlined]
    simp [twoFiles, (block_tree hfile.tokens).1, inlineNodes, inlineNode, INCLUDE]
  have hinlined : inlined twoFiles LEVELS ['m'] = [.mk [['u'], ['x']] []] := by
    rw [LEVELS, inlined]
    have htext : twoFiles.read ['m'] = some (INCLUDE ++ [' ', 'a', ';']) := rfl
    have hglob : twoFiles.glob ['a'] = [['f']] := rfl
    rw [htext]
    simp [(block_tree hmain.tokens).1, inlineNodes, inlineNode, hglob, hincluded]
  rw [includes_in_place hread, hinlined]

end Kervax.Conf
