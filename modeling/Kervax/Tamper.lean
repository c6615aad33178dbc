-- Signs of a hacked page (`tamper.py`): what an observation of the page sees, which signs
-- it leaves, and what the buttons of the card accept. Times are microseconds; texts for
-- people and what only they read are left out.
import Kervax.ClientIp
import Kervax.Dict
import Mathlib.Data.List.Sort
import Mathlib.Data.List.Dedup
import Mathlib.Data.List.Lex
import Mathlib.Data.String.Basic
import Mathlib.Algebra.Order.Ring.Int

namespace Kervax.Tamper

def minutes (n : Int) : Int := n * 60 * 1000000
def hours (n : Int) : Int := n * 3600 * 1000000

/-- `SCAN_EVERY`, `RECHECK`, `POSTPONE`, `OLD_GRACE`. -/
def scanEvery : Int := hours 1
def recheck : Int := minutes 10
def postpone : Int := hours (7 * 24)
def oldGrace : Int := hours (2 * 24)

/-- What the code takes from the standard library and from its longest expression: `str.lower`,
the digits of `\d`, `is_vendor`, the numbers of a version (`_vt`), and
`int(old * 0.8 + new * 0.2)` in floats. -/
structure Outside where
  lower : List Char → List Char
  digit : Char → Bool
  vendor : String → Bool
  vt : String → List Int
  mix : Int → Int → Int

/-! ## The page -/

structure Bot where
  size : Int
  title : String

structure Engine where
  wp : String
  php : String

/-- A parsed observation. `js` are the own scripts that were read, with their domains, and
`jsPage` all own scripts of the page. -/
structure Obs where
  size : Int
  title : String
  domains : List (String × String)
  bot : Option Bot
  engine : Engine
  js : List (String × List String)
  jsPage : Option (List String)

/-- `_SPACES.sub(" ", t)`: each run of spaces is one space. -/
def spaced : List Char → List Char
  | [] => []
  | c :: t => if isSpace c then
      if t.head?.any isSpace then spaced t else ' ' :: spaced t
    else c :: spaced t

/-- `_DIGITS.sub("0", t)`: each run of digits is one zero. -/
def zeroed (digit : Char → Bool) : List Char → List Char
  | [] => []
  | c :: t => if digit c then
      if t.head?.any digit then zeroed digit t else '0' :: zeroed digit t
    else c :: zeroed digit t

def cleanTitle (t : String) : List Char := (strip (spaced t.toList)).take 200

def normTitle (w : Outside) (t : String) : List Char := zeroed w.digit (w.lower (cleanTitle t))

/-! ## Versions with holes -/

structure OldItem where
  what : String
  fix : Option String
  eol : Bool

/-- The releases of PHP with their parsed dates, and whether they are of security. -/
structure Php where
  rel : List (String × Option Int × Bool)
  sup : List String

structure Versions where
  wp : List (String × String)
  php : Option Php

def branch (v : String) : String := ".".intercalate ((v.splitOn ".").take 2)

def wpVerdict (w : Outside) (ver : String) (stable : List (String × String)) : Option OldItem :=
  if ver = "" ∨ stable.lookup ver ≠ some "insecure" then none
  else
    let safe := ((stable.filter fun vs => vs.2 ≠ "insecure" && w.vt ver < w.vt vs.1).map
      Prod.fst).insertionSort fun a b => w.vt a ≤ w.vt b
    let same := safe.filter fun v => branch v = branch ver
    some ⟨"WordPress " ++ ver, some ((same.head?.or safe.getLast?).getD ""), false⟩

/-- `max(fixes, key=_vt)`: the first of the greatest. -/
def newest (w : Outside) (fixes : List String) : Option String :=
  fixes.foldl (fun best v => match best with
    | none => some v
    | some b => if w.vt b < w.vt v then some v else some b) none

def phpVerdict (w : Outside) (ver : String) (php : Option Php) (now : Int) : Option OldItem :=
  match php with
  | none => none
  | some php =>
    if ver = "" then none
    else if php.sup ≠ [] ∧ branch ver ∉ php.sup ∧ php.sup.all (fun s => w.vt (branch ver) < w.vt s) then
      some ⟨"PHP " ++ ver, none, true⟩
    else
      (newest w ((php.rel.filter fun r => r.2.2 && branch r.1 = branch ver && w.vt ver < w.vt r.1 &&
        r.2.1.any fun at_ => oldGrace ≤ now - at_).map Prod.fst)).map
          fun fix => ⟨"PHP " ++ ver, some fix, false⟩

def oldItems (w : Outside) (eng : Engine) (versions : Versions) (now : Int) : List OldItem :=
  (wpVerdict w eng.wp versions.wp).toList ++ (phpVerdict w eng.php versions.php now).toList

/-! ## The state -/

inductive Group
  | empty
  | title
  | dom
  | bot
  | old
  | php
  | edit
  deriving DecidableEq

/-- `_PAGE_SIGNS`. -/
def pageSigns : List Group := [.empty, .title, .dom, .bot]

/-- What is noted about a sign of the page. -/
inductive Facts
  | none
  | empty (size was : Int) (title : String)
  | title (title was : String)
  | bot (title : String) (size human : Int)

/-- What an observation sees of a group. -/
structure Seen where
  facts : Facts
  list : List (String × String)

/-- Where a foreign domain came from, and since when it is there. -/
structure Listed where
  src : String
  since : Int

/-- A sign: its facts, its domains, versions or files. -/
structure Sign where
  facts : Facts
  list : List (String × Listed)
  items : List OldItem
  files : List String
  since : Int

structure Base where
  title : String
  size : Int
  domains : List (String × String)
  js : Option (List (String × Bool))

structure Posted where
  «until» : Int
  what : List String

structure Last where
  «at» : Int
  size : Int
  title : String
  domains : List (String × String)
  bot : Option Bot

structure Wall where
  who : String
  since : Int
  «at» : Int

structure State where
  base : Option Base
  signs : List (Group × Sign)
  pend : List (Group × Int)
  post : List (Group × Posted)
  okOld : List String
  botOk : Option (List Char)
  engine : Engine
  last : Option Last
  next : Int
  err : Option String
  wall : Option Wall

/-- The state of a site that was not looked at yet. -/
def State.new : State :=
  ⟨none, [], [], [], [], none, ⟨"", ""⟩, none, 0, none, none⟩

def drop {α : Type} (d : List (Group × α)) (k : Group) : List (Group × α) := d.filter fun kv => kv.1 ≠ k

/-- `hidden`, once the entries that ran out are gone. -/
def hidden (post : List (Group × Posted)) (k : Group) (item : String) : Bool :=
  (post.lookup k).any fun v => v.what = [] || item ∈ v.what

def domList (signs : List (Group × Sign)) : List (String × Listed) :=
  ((signs.lookup .dom).map Sign.list).getD []

/-- `_items`. -/
def itemsOf (k : Group) (s : Sign) : List String :=
  match k with
  | .dom => (Dict.keys s.list).insertionSort (· ≤ ·)
  | .old => s.items.map OldItem.what
  | .php | .edit => s.files.reverse.dedup.reverse
  | _ => []

/-! ## An observation -/

/-- The domains of a script that is read for the first time go to the base, but not those of a
sign. -/
def takeOne (w : Outside) (signed : List String) (acc : List (String × String) × List (String × Bool))
    (p : String) (ds : List String) : List (String × String) × List (String × Bool) :=
  if acc.2.lookup p = some true ∨ (p ∉ Dict.keys acc.2 ∧ w.vendor p = false) then acc
  else
    (ds.foldl (fun doms d => if d ∈ signed ∨ d ∈ Dict.keys doms then doms else Dict.put doms d p) acc.1,
      Dict.put acc.2 p true)

/-- `_take_js`. -/
def takeJs (w : Outside) (base : Base) (o : Obs) (signed : List String) : Base :=
  match o.jsPage with
  | none => base
  | some page =>
    let js := base.js.getD (page.map fun p => (p, !w.vendor p))
    let out := o.js.foldl (fun acc pd => takeOne w signed acc pd.1 pd.2) (base.domains, js)
    { base with domains := out.1, js := some (out.2.filter fun pv => pv.1 ∈ page) }

/-- The base that an observation is compared with. -/
def baseFor (w : Outside) (st : State) (o : Obs) : Base :=
  match st.base with
  | none => ⟨o.title, o.size, o.domains, o.jsPage.map fun page =>
      page.map fun p => (p, p ∈ Dict.keys o.js)⟩
  | some base => takeJs w base o (Dict.keys (domList st.signs))

/-- The page is several times smaller, or has lost its title. -/
def emptied (b : Base) (o : Obs) : Bool :=
  (2048 ≤ b.size && o.size * 5 ≤ b.size) || (b.title ≠ "" && o.title = "")

def retitled (w : Outside) (b : Base) (o : Obs) : Bool :=
  b.title ≠ "" && o.title ≠ "" && normTitle w o.title ≠ normTitle w b.title

/-- The domains that neither the base nor the fleet knows, and that are not postponed. -/
def foreign (b : Base) (o : Obs) (post : List (Group × Posted)) (fleet : List String) :
    List (String × String) :=
  o.domains.filter fun d => d.1 ∉ Dict.keys b.domains && d.1 ∉ fleet && !hidden post .dom d.1

/-- `st.get("bot_ok") or "\0"`. -/
def botOk (st : State) : List Char := match st.botOk with
  | some (c :: t) => c :: t
  | _ => ['\x00']

/-- Googlebot is shown another page, and not one that was accepted. -/
def botDiffers (w : Outside) (st : State) (o : Obs) (bot : Bot) : Bool :=
  (normTitle w bot.title ≠ normTitle w o.title ||
    (2048 ≤ max bot.size o.size && max (min bot.size o.size) 1 * 3 ≤ max bot.size o.size)) &&
  normTitle w bot.title ≠ botOk st

/-- What the observation sees, before what is postponed is taken out. -/
def looked (w : Outside) (st : State) (o : Obs) (post : List (Group × Posted)) (fleet : List String) :
    List (Group × Seen) :=
  let b := baseFor w st o
  let page := if st.base.isNone then []
    else (if emptied b o then [(Group.empty, Seen.mk (.empty o.size b.size b.title) [])]
        else if retitled w b o then [(Group.title, Seen.mk (.title o.title b.title) [])] else []) ++
      if foreign b o post fleet ≠ [] then [(Group.dom, Seen.mk .none (foreign b o post fleet))] else []
  page ++ (o.bot.toList.filter (botDiffers w st o)).map fun bot =>
    (Group.bot, Seen.mk (.bot bot.title bot.size o.size) [])

/-- `post`, without the entries that ran out. -/
def livePost (st : State) (now : Int) : List (Group × Posted) :=
  st.post.filter fun kv => now < kv.2.until

/-- What the observation sees. -/
def sees (w : Outside) (st : State) (o : Obs) (now : Int) (fleet : List String) :
    List (Group × Seen) :=
  (looked w st o (livePost st now) fleet).filter fun kv =>
    kv.1 = .dom || !hidden (livePost st now) kv.1 ""

/-- New domains gather in a sign, each with its own time. -/
def gather (now : Int) (lst : List (String × Listed)) (d : String × String) :
    List (String × Listed) :=
  if d.1 ∈ Dict.keys lst then lst else Dict.put lst d.1 ⟨d.2, now⟩

/-- A sign that goes on: the domains that are still seen, and the new ones. -/
def goesOn (prev : Sign) (s : Seen) (k : Group) (now : Int) : Sign :=
  if k = .dom then
    { prev with
      list := s.list.foldl (gather now) (prev.list.filter fun d => d.1 ∈ Dict.keys s.list) }
  else ⟨s.facts, [], [], [], prev.since⟩

/-- A sign that was seen twice. -/
def confirmed (s : Seen) (since : Int) : Sign :=
  ⟨s.facts, s.list.map fun d => (d.1, ⟨d.2, since⟩), [], [], since⟩

/-- One group of the page: its sign and its suspicion after the observation. -/
def settle (seen : List (Group × Seen)) (now : Int)
    (acc : List (Group × Sign) × List (Group × Int)) (k : Group) :
    List (Group × Sign) × List (Group × Int) :=
  match seen.lookup k with
  | none => (drop acc.1 k, drop acc.2 k)
  | some s =>
    match acc.1.lookup k, acc.2.lookup k with
    | some prev, _ => (Dict.put acc.1 k (goesOn prev s k now), acc.2)
    | none, some since => (Dict.put acc.1 k (confirmed s since), drop acc.2 k)
    | none, none => (acc.1, Dict.put acc.2 k now)

/-- The versions with holes that are neither accepted nor postponed. -/
def oldSeen (w : Outside) (st : State) (o : Obs) (now : Int) (versions : Versions) : List OldItem :=
  (oldItems w o.engine versions now).filter fun it =>
    it.what ∉ st.okOld && !hidden (livePost st now) .old it.what

def settleOld (items : List OldItem) (now : Int) (signs : List (Group × Sign)) :
    List (Group × Sign) :=
  if items ≠ [] then
    Dict.put signs .old ⟨.none, [], items, [], ((signs.lookup .old).map Sign.since).getD now⟩
  else drop signs .old

/-- `observe`. -/
def observe (w : Outside) (st : State) (o : Obs) (now : Int) (fleet : List String)
    (versions : Versions) : State :=
  let b := baseFor w st o
  let out := pageSigns.foldl (settle (sees w st o now fleet) now) (st.signs, st.pend)
  let calm := (looked w st o (livePost st now) fleet).lookup .empty |>.isNone
  let base := if calm && .empty ∉ Dict.keys out.2 && b.size ≠ 0 && o.size ≠ 0 &&
      normTitle w o.title = normTitle w b.title then { b with size := w.mix b.size o.size } else b
  { st with
    base := some base
    signs := settleOld (oldSeen w st o now versions) now out.1
    pend := out.2
    post := livePost st now
    engine := o.engine
    last := some ⟨now, o.size, o.title, o.domains, o.bot⟩
    next := now + if out.2 ≠ [] then recheck else scanEvery
    err := none
    wall := none }

/-- `walled`. -/
def walled (st : State) (who : String) (now : Int) : State :=
  { st with
    signs := st.signs.filter fun kv => kv.1 ∉ pageSigns
    pend := st.pend.filter fun kv => kv.1 ∉ pageSigns
    wall := some ⟨who, (st.wall.map Wall.since).getD now, now⟩
    next := now + scanEvery
    err := none }

/-- `failed`. -/
def failed (st : State) (why : String) (now : Int) : State :=
  { st with err := some (String.ofList (why.toList.take 200)), next := now + scanEvery }

/-! ## The buttons -/

/-- `mode "later"`: what is in the group now is hidden for a week. -/
def later (st : State) (k : Group) (now : Int) : State :=
  match st.signs.lookup k with
  | none => st
  | some s =>
    { st with
      signs := drop st.signs k
      pend := drop st.pend k
      post := Dict.put st.post k ⟨now + postpone, itemsOf k s⟩ }

/-- The page as it is now becomes the base. -/
def okPage (st : State) : State :=
  { st with
    base := match st.last with
      | some l => some
        { title := l.title, size := l.size
          domains := (st.base.map Base.domains).getD [], js := st.base.bind Base.js }
      | none => st.base
    signs := drop (drop st.signs .empty) .title
    pend := drop (drop st.pend .empty) .title }

/-- The domains that are taken: one, those of the sign, or all of the page. -/
def taken (st : State) (all : Bool) (arg : String) : List String :=
  if !all && arg ≠ "" then [arg]
  else Dict.keys (domList st.signs) ++
    if all then Dict.keys ((st.last.map Last.domains).getD []) else []

/-- Where a domain came from: its source in the sign, or else on the page. -/
def srcOf (st : State) (d : String) : String :=
  match (domList st.signs).lookup d with
  | some v => if v.src ≠ "" then v.src else (((st.last.map Last.domains).getD []).lookup d).getD ""
  | none => (((st.last.map Last.domains).getD []).lookup d).getD ""

def okDomains (st : State) (all : Bool) (arg : String) : State :=
  let doms := (taken st all arg).foldl (fun doms d => Dict.put doms d (srcOf st d))
    ((st.base.map Base.domains).getD [])
  let left := (domList st.signs).filter fun d => d.1 ∉ Dict.keys doms
  { st with
    base := some { (st.base.getD ⟨"", 0, [], none⟩) with domains := doms }
    signs := if left ≠ [] then
        st.signs.map fun kv => (kv.1, if kv.1 = .dom then { kv.2 with list := left } else kv.2)
      else drop st.signs .dom
    pend := if left ≠ [] then st.pend else drop st.pend .dom }

def okBot (w : Outside) (st : State) : State :=
  { st with
    botOk := match st.last.bind Last.bot with
      | some bot => some (normTitle w bot.title)
      | none => st.botOk
    signs := drop st.signs .bot
    pend := drop st.pend .bot }

def okVersions (st : State) (all : Bool) (arg : String) : State :=
  let items := ((st.signs.lookup .old).map Sign.items).getD []
  let take := if !all && arg ≠ "" then [arg] else items.map OldItem.what
  let ok := (st.okOld.filter fun v => v ∉ take) ++ take.filter fun v => v ≠ ""
  let left := items.filter fun it => it.what ∉ ok
  { st with
    okOld := ok.drop (ok.length - 20)
    signs := if left ≠ [] then
        st.signs.map fun kv => (kv.1, if kv.1 = .old then { kv.2 with items := left } else kv.2)
      else drop st.signs .old }

/-- "This is fine" for one group; `all` is set when every group is accepted. -/
def okGroup (w : Outside) (all : Bool) (arg : String) (st : State) (k : Group) : State :=
  match k with
  | .empty | .title => okPage st
  | .dom => okDomains st all arg
  | .bot => okBot w st
  | .old => okVersions st all arg
  | .php | .edit => { st with signs := drop st.signs k }

/-- `accept(state, "all")`. -/
def acceptAll (w : Outside) (st : State) : State :=
  (Dict.keys st.signs ++ Dict.keys st.pend).foldl (okGroup w true "") st

/-- `accept` of one group, or of one line of it. -/
def accept (w : Outside) (st : State) (k : Group) (arg : String) : State := okGroup w false arg st k

end Kervax.Tamper
