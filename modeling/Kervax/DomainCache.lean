-- The cache of the domain terms (`checks.py`): under which domain a target is looked up, and
-- which domains a manual check forgets.
import Kervax.ClientIp
import Kervax.Texts
import Kervax.Dict
import Mathlib.Algebra.Order.Field.Rat
import Mathlib.Data.List.DropRight

namespace Kervax.DomainCache

/-! ## The host of a target -/

def schemeEnd : List Char := "://".toList

/-- What ends the host in a URL, the dots and brackets around it, and what begins a zone. -/
def marks : List Char := ":/?#@[].%".toList

/-- What is taken from the standard library: the small letters of a character beyond ASCII,
which are no marks, no new blanks and stay as they are, and the netlocs that `urlparse` refuses,
for brackets that hold no address or for characters that fall apart into marks. -/
structure Outside where
  lower : Char → List Char
  refuses : List Char → Bool
  lower_ne_nil : ∀ c, lower c ≠ []
  lower_mark : ∀ c, 128 ≤ c.toNat → ∀ d ∈ lower c, d ∉ marks
  lower_blank : ∀ c, 128 ≤ c.toNat → isSpace c = false → ∀ d ∈ lower c, isSpace d = false
  lower_lower : ∀ c, 128 ≤ c.toNat → ∀ d ∈ lower c,
    (if d.toNat < 128 then [d.toLower] else lower d) = [d]

/-- `str.lower`; a capital sigma is the same small one at the end of a word. -/
def lower (w : Outside) (s : List Char) : List Char :=
  s.flatMap fun c => if c.toNat < 128 then [c.toLower] else w.lower c

/-- A character of a scheme, and its first one. -/
def schemeChar (c : Char) : Bool := c.isAlphanum || c = '+' || c = '-' || c = '.'
def schemeStart (s : List Char) : Bool := s.head?.any Char.isAlpha

/-- What a URL is read without: blanks and control characters in front, tabs and line ends. -/
def cleanUrl (url : List Char) : List Char :=
  (url.dropWhile fun c => c.toNat ≤ 32).filter fun c => c ∉ ['\t', '\r', '\n']

/-- The netloc of `urlsplit`, if there are two slashes behind the scheme. -/
def netlocOf (url : List Char) : Option (List Char) :=
  let scheme := url.takeWhile (· ≠ ':')
  let rest := if ':' ∈ url ∧ schemeStart scheme ∧ scheme.all schemeChar then
      url.drop (scheme.length + 1) else url
  if "//".toList.isPrefixOf rest then some ((rest.drop 2).takeWhile (· ∉ "/?#".toList)) else none

/-- `hostname`: behind the user info, in brackets or up to the port; a zone keeps its letters. -/
def hostname (w : Outside) (netloc : List Char) : List Char :=
  let hostinfo := netloc.rtakeWhile (· ≠ '@')
  let host := if '[' ∈ hostinfo then (hostinfo.dropWhile (· ≠ '[')).tail.takeWhile (· ≠ ']')
    else hostinfo.takeWhile (· ≠ ':')
  lower w (host.takeWhile (· ≠ '%')) ++ host.dropWhile (· ≠ '%')

/-- `urlparse(host).hostname or host`, none when it raises. -/
def urlHost (w : Outside) (host : List Char) : Option (List Char) :=
  match netlocOf (cleanUrl host) with
  | some netloc =>
    if w.refuses netloc then none
    else some (if hostname w netloc = [] then host else hostname w netloc)
  | none => some host

/-- `_MULTI_TLD`. -/
def multiTld : List (List Char) :=
  ["co.uk", "org.uk", "ac.uk", "gov.uk", "me.uk", "com.au", "net.au", "org.au", "co.nz", "com.cy",
    "co.il", "com.br", "com.tr", "co.jp", "com.sg", "com.hk", "com.ua", "co.za", "com.mx",
    "com.ar"].map String.toList

/-- The host of `_registrable_domain`. -/
def hostOf (w : Outside) (target : List Char) : Option (List Char) :=
  let host := strip target
  (if Texts.fromEach schemeEnd host ≠ [] then urlHost w host else some host).map fun host =>
    lower w (Texts.rstripBy (· = '.') (strip ((host.takeWhile (· ≠ '/')).takeWhile (· ≠ ':'))))

/-- The last labels of a host: two, or three under a suffix of two. -/
def registrable (host : List Char) : List Char :=
  let labels := (host.splitOn '.').filter (· ≠ [])
  let lastOnes := fun n => ['.'].intercalate (labels.drop (labels.length - n))
  if labels.length ≤ 2 then ['.'].intercalate labels
  else if lastOnes 2 ∈ multiTld then lastOnes 3 else lastOnes 2

/-- `_registrable_domain`. -/
def registrableDomain (w : Outside) (target : List Char) : Option (List Char) :=
  (hostOf w target).map registrable

/-! ## The cache -/

structure Entry where
  days : Option Int
  msg : String
  ts : ℚ

/-- `_DOMAIN_CACHE`. -/
abbrev Cache := List (List Char × Entry)

/-- `_DOMAIN_TTL_OK`, `_DOMAIN_TTL_ERR`, `_DOMAIN_TTL_HOT`, `_DOMAIN_HOT_DAYS`. -/
def ttlOk : ℚ := 6 * 3600
def ttlErr : ℚ := 15 * 60
def ttlHot : ℚ := 30 * 60
def hotDays : Int := 7

def Entry.ttl (e : Entry) : ℚ := match e.days with
  | none => ttlErr
  | some days => if days ≤ hotDays then ttlHot else ttlOk

/-- `_domain_cache_get`. -/
def domainCacheGet (cache : Cache) (now : ℚ) (domain : List Char) : Option (Option Int × String) :=
  match cache.lookup domain with
  | none => none
  | some e => if e.ttl ≤ now - e.ts then none else some (e.days, e.msg)

/-- `_domain_days_cached`, with what the registry answers. -/
def domainDaysCached (ask : List Char → Option Int × String) (cache : Cache) (now : ℚ)
    (domain : List Char) : (Option Int × String) × Cache :=
  match domainCacheGet cache now domain with
  | some answer => (answer, cache)
  | none => (ask domain, Dict.put cache domain ⟨(ask domain).1, (ask domain).2, now⟩)

/-- The host of `forget_domain`. -/
def forgetHost (w : Outside) (target : List Char) : List Char :=
  let host := Texts.afterFirst schemeEnd (lower w (strip target))
  Texts.stripBy (· = '.') ((host.takeWhile (· ≠ '/')).takeWhile (· ≠ ':'))

/-- The key is the host or a parent of it. -/
def covers (host key : List Char) : Bool := host = key || Texts.endsWith host ('.' :: key)

/-- `forget_domain`. -/
def forgetDomain (w : Outside) (target : List Char) (cache : Cache) : Cache :=
  cache.filter fun e => !covers (forgetHost w target) e.1

end Kervax.DomainCache
