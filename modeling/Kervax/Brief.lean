-- The short text of a notification (`notification_text.brief`): which rows it takes, how the
-- last one and the last link are kept, and how each row is cut.
import Kervax.RichText

namespace Kervax.Brief

open RichText

/-! ## Commands -/

/-- `\w`. -/
def isWord (w : Outside) (c : Char) : Bool :=
  c.isAlphanum || c = '_' || (128 ≤ c.toNat && w.alnum c)

def isWord? (w : Outside) (c : Option Char) : Bool := c.any (isWord w)

/-- The small letter that `re.I` compares. -/
def fold (w : Outside) (c : Char) : Char := if c.toNat < 128 then c.toLower else w.fold c

/-- What follows a word of the pattern. -/
def after (w : Outside) : List Char → List Char → Option (List Char)
  | [], s => some s
  | _ :: _, [] => none
  | l :: ls, c :: s => if fold w c = fold w l then after w ls s else none

/-- `\s+`, and what follows. -/
def spaces (s : List Char) : Option (List Char) :=
  if s.head?.any isSpace then some (s.dropWhile isSpace) else none

/-- One of the words, then a word boundary. -/
def wordOf (w : Outside) (words : List String) (s : List Char) : Bool :=
  words.any fun word => (after w word.toList s).any fun rest => !isWord? w rest.head?

def startsDash (s : List Char) : Bool := s.head? = some '-'

/-- A word and blanks, then what `next` accepts. -/
def spaced (w : Outside) (word : String) (next : List Char → Bool) (s : List Char) : Bool :=
  ((after w word.toList s).bind spaces).any next

/-- `-\w|[\w.-]+@`. -/
def sshTarget (w : Outside) (s : List Char) : Bool :=
  (startsDash s && isWord? w s.tail.head?) ||
    (s.head?.any (fun c => isWord w c || c = '.' || c = '-') &&
      (s.dropWhile fun c => isWord w c || c = '.' || c = '-').head? = some '@')

/-- The label at the start of a row. -/
def label (w : Outside) (s : List Char) : Bool :=
  ["Что сделать", "Команда", "Последняя строка лога", "Лог"].any fun word =>
    (after w word.toList (s.dropWhile isSpace)).any fun rest =>
      (rest.dropWhile isSpace).head? = some ':'

/-- `_COMMAND`, at one place. -/
def commandAt (w : Outside) (prev : Option Char) (s : List Char) : Bool :=
  (prev.isNone && label w s) ||
    (isWord? w prev ≠ isWord? w s.head? &&
      (wordOf w ["ansible-playbook"] s ||
        spaced w "sudo" (fun rest => rest ≠ []) s ||
        spaced w "curl" startsDash s ||
        spaced w "wget" startsDash s ||
        spaced w "ssh" (sshTarget w) s ||
        spaced w "kubectl" (wordOf w ["apply", "exec", "delete", "rollout", "create"]) s ||
        spaced w "docker" (fun rest => spaced w "exec" startsDash rest ||
          spaced w "run" startsDash rest ||
          spaced w "compose" (fun rest => startsDash rest ||
            wordOf w ["up", "down", "restart", "build"] rest) rest) s))

/-- `_COMMAND.search`. -/
def commandIn (w : Outside) (prev : Option Char) : List Char → Bool
  | [] => commandAt w prev []
  | c :: s => commandAt w prev (c :: s) || commandIn w (some c) s

/-! ## Rows -/

/-- `_plain`. -/
def plain (row : Row) : List Char := row.flatMap Prod.fst

/-- `_command`. -/
def isCommand (w : Outside) (row : Row) : Bool :=
  let s := (plain row).dropWhile isSpace
  commandAt w none s ||
    (commandIn w none s && row.any fun part => part.2.any fun item => item.tag = "code".toList)

def dots : List Char := "...".toList

/-- The text of an opening tag. -/
def opening (item : OpenTag) : List Char := match item.href with
  | some href => "<a href=\"".toList ++ escape href ++ "\">".toList
  | none => '<' :: item.tag ++ ['>']

def closing (item : OpenTag) : List Char := "</".toList ++ item.tag ++ ['>']

/-- One piece of a row. -/
def piece (htmlMode : Bool) (text : List Char) (stack : List OpenTag) : List Char :=
  if htmlMode then stack.flatMap opening ++ escape text ++ stack.reverse.flatMap closing else text

/-- The pieces of a row while characters are left. -/
def pieces (htmlMode : Bool) : Nat → Row → List Char
  | _, [] => []
  | left, part :: row =>
    let text := part.1.take left
    if text = [] then []
    else piece htmlMode text part.2 ++ pieces htmlMode (left - text.length) row

/-- `_render`. -/
def render (row : Row) (budget : Int) (htmlMode : Bool) : List Char :=
  let cut := budget < (plain row).length
  let left := if cut then max 0 (budget - 3) else budget
  Texts.rstripBy isSpace (pieces htmlMode left.toNat row) ++ if cut then dots else []

/-! ## `brief` -/

/-- The limits of a text. -/
structure Limits where
  maxChars : Int
  maxLines : Nat
  lineChars : Int

/-- `MAX_CHARS`, `MAX_LINES`, `LINE_CHARS`. -/
def defaults : Limits := ⟨480, 4, 150⟩

/-- The rows of the text, and whether something was removed from it. -/
def rowsOf (w : Outside) (text : List Char) (htmlMode : Bool) : List Row × Bool :=
  match rich w text htmlMode with
  | some r => (r.all, r.removed)
  | none => ((Rich.new.data text).all, true)

/-- The rows that are kept: no blank ones, and no commands. -/
def kept (w : Outside) (text : List Char) (htmlMode : Bool) : List Row :=
  (rowsOf w text htmlMode).1.filter fun row => strip (plain row) ≠ [] && !isCommand w row

/-- `'\n'.join`. -/
def joined (lines : List (List Char)) : List Char := ['\n'].intercalate lines

/-- Nothing was removed, and everything is within the limits. -/
def fits (w : Outside) (lim : Limits) (text : List Char) (htmlMode : Bool) : Bool :=
  let rows := kept w text htmlMode
  !(rowsOf w text htmlMode).2 && rows.length = (rowsOf w text htmlMode).1.length &&
    rows.length ≤ lim.maxLines && (joined (rows.map plain)).length ≤ lim.maxChars &&
    rows.all fun row => (plain row).length ≤ lim.lineChars

/-- The open tags with a link. -/
def links (rows : List Row) : List OpenTag :=
  rows.flatMap fun row => row.flatMap fun part => part.2.filter fun item => item.href.getD [] ≠ []

def linkText : List Char := "Подробнее в панели".toList

/-- The line that a lost link gets. -/
def linkRow (link : OpenTag) : Row := [(linkText, [link])]

/-- The last link takes the last line. -/
def rescued (lim : Limits) (chosen : List Row) (link : OpenTag) : List Row :=
  chosen.take (lim.maxLines - 1) ++ [linkRow link]

/-- The rows that are shown, before the links are looked at. -/
def firstRows (lim : Limits) (keepLast : Bool) (rows : List Row) : List Row :=
  if keepLast && lim.maxLines < rows.length then
    rows.take (lim.maxLines - 1) ++ rows.getLast?.toList
  else rows.take lim.maxLines

/-- `chosen[-1] = chosen[-1] + [('...', ())]`. -/
def withDots (chosen : List Row) : List Row := match chosen.getLast? with
  | some row => chosen.dropLast ++ [row ++ [(dots, [])]]
  | none => chosen

def linked (link : OpenTag) (rows : List Row) : Bool :=
  link.href ∈ (links rows).map OpenTag.href

/-- The last link, when the rows do not show it. -/
def lostLink (lim : Limits) (rows chosen : List Row) : Option OpenTag :=
  (links rows).getLast?.filter fun link => 1 < lim.maxLines && !linked link chosen

/-- The rows that are shown. -/
def chosenRows (lim : Limits) (keepLast : Bool) (rows : List Row) : List Row :=
  let chosen := firstRows lim keepLast rows
  match lostLink lim rows chosen with
  | some link => rescued lim chosen link
  | none =>
    if chosen.length < rows.length && !keepLast &&
        !dots.isSuffixOf (plain (chosen.getLast?.getD [])) then withDots chosen
    else chosen

/-- The lines of `build`, with what is left and what is reserved for the last one. -/
def lines (lim : Limits) (htmlMode : Bool) (reserve : Int) : Int → List Row → List (List Char)
  | _, [] => []
  | left, row :: rest =>
    let budget := min lim.lineChars (left - if rest ≠ [] then reserve else 0)
    if budget < 4 then []
    else render row budget htmlMode ::
      lines lim htmlMode reserve (left - (min ((plain row).length : Int) budget + 1)) rest

/-- What is reserved for the last row. -/
def reserveOf (lim : Limits) (selected : List Row) (reserveLast : Bool) : Int :=
  if reserveLast && 1 < selected.length then
    min ((plain (selected.getLast?.getD [])).length : Int) lim.lineChars + 1
  else 0

/-- `build`. -/
def build (lim : Limits) (htmlMode : Bool) (selected : List Row) (reserveLast : Bool) : List Char :=
  joined (lines lim htmlMode (reserveOf lim selected reserveLast) lim.maxChars selected)

/-- The links of a text that is parsed again. -/
def visibleLink (w : Outside) (link : OpenTag) (text : List Char) : Bool :=
  (rich w text true).any fun r => linked link r.all

def nothing : List Char := "Подробности в панели".toList

/-- Whether the last row is kept: as asked, or by the mark of its text. -/
def keepsLast (keepLast : Bool) (rows : List Row) : Bool :=
  let s := (plain (rows.getLast?.getD [])).dropWhile isSpace
  keepLast || "📝".toList.isPrefixOf s || "↪".toList.isPrefixOf s

/-- The short text of rows that are not shown as they are. -/
def shorten (w : Outside) (lim : Limits) (htmlMode keepLast : Bool) (rows : List Row) : List Char :=
  let chosen := chosenRows lim (keepsLast keepLast rows) rows
  let result := build lim htmlMode chosen (keepsLast keepLast rows)
  match (links rows).getLast? with
  | some link => if htmlMode && 1 < lim.maxLines && !visibleLink w link result then
      build lim htmlMode (rescued lim chosen link) true
    else result
  | none => result

/-- `brief`. -/
def brief (w : Outside) (lim : Limits) (text : List Char) (htmlMode keepLast : Bool) : List Char :=
  if fits w lim text htmlMode then text
  else if kept w text htmlMode = [] then nothing
  else shorten w lim htmlMode keepLast (kept w text htmlMode)

end Kervax.Brief
