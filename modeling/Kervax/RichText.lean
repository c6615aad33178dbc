-- The rows of a notification (`notification_text._Rich`): pieces of text, each under the
-- tags that are open there, and the HTML parser below them.
import Kervax.ClientIp
import Kervax.Markup

namespace Kervax.RichText

/-- `_TAGS`. -/
def tags : List (List Char) :=
  ["b", "strong", "i", "em", "u", "ins", "s", "strike", "del", "code", "a", "tg-spoiler"].map
    String.toList

/-! ## The parser -/

/-- A call of the parser's handlers. -/
inductive Event
  | startTag (tag : List Char) (attrs : List (List Char × Option (List Char)))
  | endTag (tag : List Char)
  | data (s : List Char)

/-- What the code takes from the standard library: the handler calls of `HTMLParser` on a text
that is not plain (`none` when it raises), and beyond ASCII what `\w` matches and the small
letter that `re.I` compares. -/
structure Outside where
  parse : List Char → Option (List Event)
  alnum : Char → Bool
  fold : Char → Char

/-- What `html.escape` writes, and `html.unescape` reads back. -/
def escapes : List (Char × List Char) :=
  [('&', "amp".toList), ('<', "lt".toList), ('>', "gt".toList), ('"', "quot".toList),
    ('\'', "#x27".toList)]

def escaped (c : Char) : Markup.Piece := match escapes.lookup c with
  | some body => .entity body
  | none => .char c

/-- `html.escape(s, quote=True)`. -/
def escape (s : List Char) : List Char := Markup.render (s.map escaped)

def unescaped (body : List Char) : Option Char :=
  (escapes.find? fun cb => cb.2 = body).map Prod.fst

/-- A token of a plain text: a character, or a tag without attributes but the link of an `a`. -/
inductive Token
  | char (c : Char)
  | opening (tag : List Char) (href : Option (List Char))
  | closing (tag : List Char)

/-- The value of an escaped attribute, once `k` more characters are skipped. -/
def value : Nat → List Char → Option (List Char)
  | _, [] => some []
  | k + 1, _ :: t => value k t
  | 0, c :: t =>
    if c = '&' then
      match unescaped (t.takeWhile (· ≠ ';')) with
      | some d => if ';' ∈ t then
          (value ((t.takeWhile (· ≠ ';')).length + 1) t).map (d :: ·) else none
      | none => none
    else if c = '<' ∨ c = '>' ∨ c = '"' then none
    else (value 0 t).map (c :: ·)

def hrefStart : List Char := " href=\"".toList

/-- What stands between `<` and `>`. -/
def tagOf (body : List Char) : Option Token :=
  if body ∈ tags then some (.opening body none)
  else if body.head? = some '/' ∧ body.tail ∈ tags then some (.closing body.tail)
  else if ('a' :: hrefStart).isPrefixOf body ∧ body.getLast? = some '"' then
    (value 0 (body.drop 8).dropLast).map fun href => .opening ['a'] (some href)
  else none

/-- The tokens of a plain text, once `k` more characters are skipped. -/
def tokens : Nat → List Char → Option (List Token)
  | _, [] => some []
  | k + 1, _ :: t => tokens k t
  | 0, c :: t =>
    if c = '<' then
      match tagOf (t.takeWhile (· ≠ '>')) with
      | some tok => if '>' ∈ t then
          (tokens ((t.takeWhile (· ≠ '>')).length + 1) t).map (tok :: ·) else none
      | none => none
    else if c = '&' then
      match unescaped (t.takeWhile (· ≠ ';')) with
      | some d => if ';' ∈ t then
          (tokens ((t.takeWhile (· ≠ ';')).length + 1) t).map (.char d :: ·) else none
      | none => none
    else if c = '>' then none
    else (tokens 0 t).map (.char c :: ·)

/-- The characters between two tags are one call of `handle_data`. -/
def events : List Token → List Event
  | [] => []
  | .char c :: ts => match events ts with
    | .data s :: es => .data (c :: s) :: es
    | es => .data [c] :: es
  | .opening tag href :: ts =>
    .startTag tag ((href.map fun h => ("href".toList, some h)).toList) :: events ts
  | .closing tag :: ts => .endTag tag :: events ts

/-- `feed` and `close`: plain texts as the parser documents them. -/
def parse (w : Outside) (text : List Char) : Option (List Event) :=
  match tokens 0 text with
  | some ts => some (events ts)
  | none => w.parse text

/-! ## `_Rich` -/

/-- An open tag of the stack; its opening text is `opening`. -/
structure OpenTag where
  tag : List Char
  href : Option (List Char)
  known : tag ∈ tags
  link : href ≠ none → tag = ['a']

/-- A piece of text under its open tags, outermost first. -/
abbrev Row := List (List Char × List OpenTag)

structure Rich where
  rows : List Row
  cur : Row
  stack : List OpenTag
  pre : Nat
  removed : Bool

def Rich.new : Rich := ⟨[], [], [], 0, false⟩

/-- `self.rows`. -/
def Rich.all (r : Rich) : List Row := r.rows ++ [r.cur]

/-- `self.rows.append([])`. -/
def Rich.newRow (r : Rich) : Rich := { r with rows := r.rows ++ [r.cur], cur := [] }

/-- `dict(attrs).get('href')`. -/
def hrefOf (attrs : List (List Char × Option (List Char))) : Option (List Char) :=
  (attrs.reverse.lookup "href".toList).join

/-- `handle_starttag`. -/
def Rich.startTag (r : Rich) (tag : List Char) (attrs : List (List Char × Option (List Char))) :
    Rich :=
  if tag = "br".toList then r.newRow
  else if tag = "pre".toList then { r with pre := r.pre + 1, removed := true }
  else if h : tag ∈ tags then
    { r with stack := r.stack ++ [if ha : tag = ['a'] then ⟨tag, hrefOf attrs, h, fun _ => ha⟩
        else ⟨tag, none, h, fun hn => absurd rfl hn⟩] }
  else r

/-- `del self.stack[i:]`, at the last item of the tag. -/
def closeTag (stack : List OpenTag) (tag : List Char) : List OpenTag :=
  if stack.any fun item => item.tag = tag then
    (stack.reverse.dropWhile fun item => item.tag ≠ tag).tail.reverse
  else stack

/-- `handle_endtag`. -/
def Rich.endTag (r : Rich) (tag : List Char) : Rich :=
  { r with
    pre := if tag = "pre".toList then r.pre - 1 else r.pre
    stack := closeTag r.stack tag }

/-- `data.replace('\r\n', '\n').replace('\r', '\n')`. -/
def newlines : List Char → List Char
  | [] => []
  | '\r' :: '\n' :: t => '\n' :: newlines t
  | '\r' :: t => '\n' :: newlines t
  | c :: t => c :: newlines t

/-- The characters that a row shows as a blank. -/
def isControl (c : Char) : Bool :=
  let n := c.toNat
  n ≤ 9 ∨ (11 ≤ n ∧ n ≤ 0x1f) ∨ (0x7f ≤ n ∧ n ≤ 0x9f) ∨ n = 0x2028 ∨ n = 0x2029 ∨
    (0x202a ≤ n ∧ n ≤ 0x202e) ∨ (0x2066 ≤ n ∧ n ≤ 0x2069)

def clean (part : List Char) : List Char := part.map fun c => if isControl c then ' ' else c

/-- `self.rows[-1].append`. -/
def Rich.addPart (r : Rich) (part : List Char) : Rich :=
  if part ≠ [] then { r with cur := r.cur ++ [(clean part, r.stack)] } else r

/-- `handle_data`. -/
def Rich.data (r : Rich) (s : List Char) : Rich :=
  if r.pre ≠ 0 then r
  else match (newlines s).splitOn '\n' with
    | [] => r
    | part :: parts => parts.foldl (fun r part => r.newRow.addPart part) (r.addPart part)

def Rich.step (r : Rich) : Event → Rich
  | .startTag tag attrs => r.startTag tag attrs
  | .endTag tag => r.endTag tag
  | .data s => r.data s

/-- `_Rich(text, html_mode)`, when the parser does not raise. -/
def rich (w : Outside) (text : List Char) (htmlMode : Bool) : Option Rich :=
  if htmlMode then (parse w text).map fun es => es.foldl Rich.step Rich.new
  else some (Rich.new.data text)

end Kervax.RichText
