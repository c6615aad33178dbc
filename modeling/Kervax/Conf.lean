-- The configs of the proxies on a node (`main.go`): the tokens of an nginx config or a Caddyfile
-- (`confTokens`), the tree of directives (`confTree`), and the included files (`nginxConf`). A
-- character stands for its bytes: each one that the code looks for is ASCII.
import Mathlib.Data.List.Basic

namespace Kervax.Conf

abbrev Text := List Char

/-! ## Tokens -/

def isQuote (c : Char) : Bool := c = '"' || c = '\''

def isBlank (c : Char) : Bool := c = ' ' || c = '\t' || c = '\r'

/-- The word that was read, if it has a character. -/
def flush (cur : Text) : List Text := if cur = [] then [] else [cur]

/-- A brace right before a word belongs to it in a Caddyfile: a placeholder. -/
def placeholder : Text → Bool
  | [] => false
  | c :: _ => !(c = '\n' || isBlank c)

/-- `confTokens`, with what was read of a word. -/
def confTokens (lines : Bool) (cur : Text) : Text → List Text
  | [] => flush cur
  | c :: s =>
    if isQuote c then
      -- without a second quote the rest of the text belongs to the word
      confTokens lines (cur ++ s.takeWhile (· ≠ c)) ((s.dropWhile (· ≠ c)).drop 1)
    else if c = '#' ∧ cur = [] then confTokens lines cur (s.dropWhile (· ≠ '\n'))
    else if c = '\n' then
      flush cur ++ (if lines then [['\n']] else []) ++ confTokens lines [] s
    else if isBlank c then flush cur ++ confTokens lines [] s
    else if c = ';' ∨ (c = '{' ∨ c = '}') ∧ (cur = [] ∨ lines = false) then
      if lines ∧ c = '{' ∧ placeholder s then confTokens lines (cur ++ [c]) s
      else flush cur ++ [c] :: confTokens lines [] s
    else confTokens lines (cur ++ [c]) s
termination_by s => s.length
decreasing_by
  all_goals simp only [List.length_cons, List.length_drop]
  · have := (List.dropWhile_sublist (p := (· ≠ c)) (l := s)).length_le
    omega
  · have := (List.dropWhile_sublist (p := (· ≠ '\n')) (l := s)).length_le
    omega
  all_goals omega

/-! ## The tree of directives -/

/-- `confNode`. A directive without a block and one with an empty block are the same. -/
inductive ConfNode
  | mk (args : List Text) (children : List ConfNode)

def ConfNode.args : ConfNode → List Text
  | .mk args _ => args

def ConfNode.children : ConfNode → List ConfNode
  | .mk _ children => children

/-- A directive that ends here, if it has a word. -/
def directive (args : List Text) : List ConfNode := if args = [] then [] else [.mk args []]

/-- `confTree`, with the words of the directive so far: the nodes, and the tokens that are not
read yet. -/
def confTree (args ts : List Text) : { r : List ConfNode × List Text // r.2.length ≤ ts.length } :=
  match ts with
  | [] => ⟨(directive args, []), Nat.le_refl _⟩
  | t :: ts =>
    if t = [';'] ∨ t = ['\n'] then
      match confTree [] ts with
      | ⟨(rest, left), h⟩ => ⟨(directive args ++ rest, left), Nat.le_succ_of_le h⟩
    else if t = ['{'] then
      match confTree [] ts with
      | ⟨(block, more), hblock⟩ =>
        have _ : more.length ≤ ts.length := hblock
        match confTree [] more with
        | ⟨(rest, left), h⟩ =>
          ⟨(.mk args block :: rest, left), Nat.le_succ_of_le (Nat.le_trans h hblock)⟩
    else if t = ['}'] then ⟨(directive args, ts), Nat.le_succ _⟩
    else
      match confTree (args ++ [t]) ts with
      | ⟨rest, h⟩ => ⟨rest, Nat.le_succ_of_le h⟩
termination_by ts.length
decreasing_by
  all_goals simp only [List.length_cons]
  all_goals omega

/-- The nodes and the rest. -/
def tree (args ts : List Text) : List ConfNode × List Text := (confTree args ts).1

@[simp] theorem tree_nil (args : List Text) : tree args [] = (directive args, []) := by
  unfold tree
  rw [confTree]

theorem tree_end {t : Text} (ht : t = [';'] ∨ t = ['\n']) (args ts : List Text) :
    tree args (t :: ts) = (directive args ++ (tree [] ts).1, (tree [] ts).2) := by
  unfold tree
  rw [confTree]
  simp only [ht, if_true]

theorem tree_open (args ts : List Text) :
    tree args (['{'] :: ts) =
      (.mk args (tree [] ts).1 :: (tree [] (tree [] ts).2).1, (tree [] (tree [] ts).2).2) := by
  unfold tree
  rw [confTree]
  simp

theorem tree_close (args ts : List Text) : tree args (['}'] :: ts) = (directive args, ts) := by
  unfold tree
  rw [confTree]
  simp

/-- A word of a directive: none of the tokens that mean something else. -/
def IsWord (t : Text) : Prop := t ≠ [';'] ∧ t ≠ ['\n'] ∧ t ≠ ['{'] ∧ t ≠ ['}']

theorem tree_word {t : Text} (ht : IsWord t) (args ts : List Text) :
    tree args (t :: ts) = tree (args ++ [t]) ts := by
  obtain ⟨hsemi, hline, hopen, hclose⟩ := ht
  unfold tree
  rw [confTree]
  simp [hsemi, hline, hopen, hclose]

/-! ## Included files -/

/-- The files of the node: what a path reads, and the paths of a pattern (`filepath.Glob` of the
pattern under `/etc/nginx`). -/
structure Files where
  read : Text → Option Text
  glob : Text → List Text

def INCLUDE : Text := ['i', 'n', 'c', 'l', 'u', 'd', 'e']

/-- A directive begins behind the token: there is none, or it ends another one. -/
def begins : Option Text → Bool
  | none => true
  | some t => t = [';'] || t = ['{'] || t = ['}']

/-- The loop of `nginxConf`, behind the token `prev`. -/
def expand (included : Text → List Text) (prev : Option Text) : List Text → List Text
  | t :: pat :: mark :: ts =>
    if t = INCLUDE ∧ mark = [';'] ∧ begins prev then included pat ++ expand included (some mark) ts
    else t :: expand included (some t) (pat :: mark :: ts)
  | t :: ts => t :: expand included (some t) ts
  | [] => []

/-- `nginxConf`, so many levels deep. -/
def nginxConf (files : Files) : Nat → Text → List Text
  | 0, _ => []
  | levels + 1, path =>
    match files.read path with
    | none => []
    | some text =>
      expand (fun pat => (files.glob pat).flatMap (nginxConf files levels)) none
        (confTokens false [] text)

/-- The levels from the config of nginx on: it includes no deeper than 8. -/
def LEVELS : Nat := 9

end Kervax.Conf
