-- How a text for Telegram is cut: `_clip` of the sender (`alerts.py`), `_cut_html` of the
-- buttons and the text of an alert with its status lines (`tg_buttons.py`).
import Kervax.ClientIp
import Kervax.Markup

namespace Kervax.TgText

/-- A local time. -/
structure Clock where
  year : Nat
  month : Nat
  day : Nat
  hour : Nat
  minute : Nat

/-- What the code takes from the standard library: which characters that are not ASCII
`\w` matches, `str.lower` of a text that is not ASCII, and the local time of an instant. -/
structure Outside where
  alnum : Char → Bool
  lower : List Char → List Char
  zone : List Char → Int → Clock

/-! ## `alerts._clip` -/

/-- `_u16`. -/
def u16 (s : List Char) : Int := (s.map fun c => if 0x10000 ≤ c.toNat then (2 : Int) else 1).sum

def dots : List Char := "...".toList

/-- `\w`. -/
def isWord (w : Outside) (c : Char) : Bool :=
  c.isAlphanum || c = '_' || (128 ≤ c.toNat && w.alnum c)

/-- `tag.lower()`. -/
def lower (w : Outside) (s : List Char) : List Char :=
  if s.all fun c => c.toNat < 128 then s.map Char.toLower else w.lower s

/-- `_OPEN_CLOSE`. -/
def openClose (w : Outside) : Markup.Pattern where
  first c := c.isAlpha
  more c := isWord w c || c = '-'
  slash := by decide
  space := by simp [isWord]
  gt := by simp [isWord]

/-- `while n > 0 and _u16(text[:n]) > room`. -/
def fit (text : List Char) (room n : Int) : Int :=
  if 0 < n ∧ room < u16 (Texts.upTo text n) then
    fit text room (n - (u16 (Texts.upTo text n) - room))
  else n
termination_by n.toNat
decreasing_by omega

/-- A place is moved before the last `o` that no `c` follows. -/
def unopened (o c : Char) (text : List Char) (n : Int) : Int :=
  if Texts.rfind c (Texts.upTo text n) < Texts.rfind o (Texts.upTo text n) then
    Texts.rfind o (Texts.upTo text n)
  else n

/-- The open tags after one more tag, innermost first. -/
def clipTag (w : Outside) (stack : List (List Char)) (m : Bool × List Char) : List (List Char) :=
  if m.1 = false then lower w m.2 :: stack
  else if lower w m.2 ∈ stack then (stack.dropWhile (· ≠ lower w m.2)).tail
  else stack

/-- Where the text is cut, before the tag and the entity it may be in. -/
def clipLine (text : List Char) (limit : Int) : Int :=
  let n := fit text (limit - 3) (limit - 3)
  let nl := Texts.rfind '\n' (Texts.upTo text n)
  if n / 2 < nl then nl else n

/-- `_clip`. -/
def clip (w : Outside) (text : List Char) (htmlMode : Bool) (limit : Int) : List Char :=
  if u16 text ≤ limit then text
  else
    let n := clipLine text limit
    let n := if htmlMode then unopened '&' ';' text (unopened '<' '>' text n) else n
    let head := Texts.rstripBy isSpace (Texts.upTo text n) ++ dots
    if htmlMode then
      head ++ Markup.closings (((openClose w).find 0 head).foldl (clipTag w) [])
    else head

/-! ## `tg_buttons._cut_html` -/

def isLetter (c : Char) : Bool := 'a' ≤ c && c ≤ 'z'

/-- The tags of `_cut_html`: names of small letters. -/
def letterTags : Markup.Pattern where
  first := isLetter
  more := isLetter
  slash := by decide
  space := by decide
  gt := by decide

def cutTag (opened : List (List Char)) (m : Bool × List Char) : List (List Char) :=
  if m.1 then
    if opened.head? = some m.2 then opened.tail else opened
  else m.2 :: opened

/-- The text up to the limit or the last line before it, without the tag and the entity that
it is cut in. -/
def cutHead (text : List Char) (limit : Int) : List Char :=
  let cut := Texts.upTo text limit
  let nl := Texts.rfind '\n' cut
  let cut := if limit / 2 < nl then Texts.upTo cut nl else cut
  let lt := Texts.rfind '<' cut
  let amp := Texts.rfind '&' cut
  let cut := if Texts.rfind '>' cut < lt then Texts.upTo cut lt else cut
  if Texts.rfind ';' cut < amp then Texts.upTo cut amp else cut

/-- The closing tags of what is open in the cut text. -/
def closers (text : List Char) (limit : Int) : List Char :=
  Markup.closings ((letterTags.find 0 (cutHead text limit)).foldl cutTag [])

/-- `_cut_html`. -/
def cutHtml (text : List Char) (limit : Int) : List Char :=
  if text.length ≤ limit then text else cutHead text limit ++ dots ++ closers text limit

/-! ## `tg_buttons.row_text` -/

/-- What `row_text` reads of a row. -/
structure Row where
  text : List Char
  ackedBy : List Char
  ackedAt : Option Int
  us : Bool
  usBy : List Char
  fix : Bool
  fixBy : List Char
  muted : List Char
  resolvedAt : Option Int

/-- `_esc`. -/
def esc (s : List Char) : List Char := s.flatMap fun c =>
  if c = '&' then "&amp;".toList
  else if c = '<' then "&lt;".toList
  else if c = '>' then "&gt;".toList
  else [c]

def two (n : Nat) : List Char := if n < 10 then '0' :: Nat.toDigits 10 n else Nat.toDigits 10 n

/-- `hhmm`. -/
def hhmm (w : Outside) (t : Int) (tz : List Char) (now : Int) : List Char :=
  let at_ := w.zone tz t
  let ref := w.zone tz now
  let time := two at_.hour ++ ':' :: two at_.minute
  if at_.year = ref.year ∧ at_.month = ref.month ∧ at_.day = ref.day then time
  else time ++ ' ' :: two at_.day ++ '.' :: two at_.month

/-- The status lines of a row. -/
def statusLines (w : Outside) (row : Row) (tz : List Char) (now : Int) : List (List Char) :=
  ((row.ackedAt.filter fun _ => row.ackedBy ≠ []).toList.map fun t =>
    "✋ взял ".toList ++ esc row.ackedBy ++ " в ".toList ++ hhmm w t tz now) ++
  (if row.us then ["✅ ".toList ++ esc row.usBy ++ ": это мы".toList] else []) ++
  (if row.fix then ["✅ ".toList ++ esc row.fixBy ++ ": починили".toList] else []) ++
  (if row.muted ≠ [] then [esc row.muted] else []) ++
  row.resolvedAt.toList.map fun t => "✅ снова в норме в ".toList ++ hhmm w t tz now

def sizes (lines : List (List Char)) : Int := (lines.map fun x => (x.length : Int) + 1).sum

/-- The limit of the alert's text over its status lines. -/
def rowLimit (lines : List (List Char)) : Int := 4000 - sizes lines - 20

/-- The text of the alert and its status lines below. -/
def rowWhole (w : Outside) (row : Row) (tz : List Char) (now : Int) : List Char :=
  let lines := statusLines w row tz now
  if lines ≠ [] then
    cutHtml row.text (rowLimit lines) ++ "\n\n".toList ++ ['\n'].intercalate lines
  else row.text

/-- `row_text`. -/
def rowText (w : Outside) (row : Row) (tz : List Char) (now : Int) : List Char :=
  cutHtml (rowWhole w row tz now) 4000

end Kervax.TgText
