-- Internet addresses as text: the readings that Python's `ipaddress` accepts,
-- the one text that it writes, and the networks an address stands in.
import Mathlib.Data.List.Basic
import Mathlib.Data.BitVec

namespace IpAddress

/-! ## Addresses and networks -/

/-- An address. The scope of the sixth version is a text of its own that no
network looks at. -/
inductive Address
  | v4 (ip : BitVec 32)
  | v6 (ip : BitVec 128) (scope : Option (List Char))
deriving DecidableEq, Repr

/-- A network: its first address and the length of its mask. -/
inductive Network
  | v4 (first : BitVec 32) (len : Nat)
  | v6 (first : BitVec 128) (len : Nat)
deriving DecidableEq, Repr

/-- The mask of the upper `len` bits. -/
def netmask (w len : Nat) : BitVec w := BitVec.allOnes w <<< (w - len)

/-- An address stands in a network of its own version only. -/
def Network.holds : Network → Address → Bool
  | .v4 first len, .v4 ip => ip &&& netmask 32 len == first
  | .v6 first len, .v6 ip _ => ip &&& netmask 128 len == first
  | _, _ => false

/-! ## Reading -/

/-- The value of a hexadecimal digit. -/
def hexDigit? (c : Char) : Option Nat :=
  if '0' ≤ c ∧ c ≤ '9' then some (c.toNat - '0'.toNat)
  else if 'a' ≤ c ∧ c ≤ 'f' then some (c.toNat - 'a'.toNat + 10)
  else if 'A' ≤ c ∧ c ≤ 'F' then some (c.toNat - 'A'.toNat + 10)
  else none

/-- The number that digits of a base spell. -/
def number (base : Nat) (digits : List Nat) : Nat := digits.foldl (fun n d => n * base + d) 0

/-- `_parse_octet`: at most three decimal digits without a leading zero. -/
def parseOctet (s : List Char) : Option Nat :=
  if s = [] ∨ ¬ s.all Char.isDigit ∨ 3 < s.length then none
  else if s ≠ ['0'] ∧ s.head? = some '0' then none
  else
    let n := number 10 (s.map fun c => c.toNat - '0'.toNat)
    if 255 < n then none else some n

/-- `IPv4Address(text)`. -/
def readV4 (s : List Char) : Option (BitVec 32) :=
  if '/' ∈ s then none
  else do
    let octets ← (s.splitOn '.').mapM parseOctet
    if octets.length = 4 then some (BitVec.ofNat 32 (number 256 octets)) else none

/-- `_parse_hextet`: one to four hexadecimal digits. -/
def parseHextet (s : List Char) : Option Nat :=
  if s = [] ∨ 4 < s.length then none else (s.mapM hexDigit?).map (number 16)

/-- `'%x' % n`. -/
def hex (n : Nat) : List Char := Nat.toDigits 16 n

/-- The parts between the colons; a dotted suffix counts as two of them. -/
def parts (s : List Char) : Option (List (List Char)) :=
  let ps := s.splitOn ':'
  if ps.length < 3 then none
  else
    let last := ps.getLastD []
    if '.' ∈ last then
      (readV4 last).map fun ip =>
        ps.dropLast ++ [hex (ip.toNat / 65536), hex (ip.toNat % 65536)]
    else some ps

/-- How many parts stand before and after the `::`, and how many it skips. -/
structure Layout where
  hi : Nat
  lo : Nat
  skipped : Nat
deriving DecidableEq, Repr

/-- The layout of the parts: there is at most one `::`, and an empty part at an
end belongs to it. -/
def layout (ps : List (List Char)) : Option Layout :=
  match (List.range ps.length).filter fun i => 0 < i ∧ i + 1 < ps.length ∧ ps[i]? = some [] with
  | [] =>
    if ps.length = 8 ∧ ps.head? ≠ some [] ∧ ps.getLast? ≠ some [] then some ⟨8, 0, 0⟩ else none
  | [skip] =>
    let hi := if ps.head? = some [] then skip - 1 else skip
    let lo := if ps.getLast? = some [] then ps.length - skip - 2 else ps.length - skip - 1
    if ps.head? = some [] ∧ hi ≠ 0 then none
    else if ps.getLast? = some [] ∧ lo ≠ 0 then none
    else if 8 ≤ hi + lo then none
    else some ⟨hi, lo, 8 - (hi + lo)⟩
  | _ => none

/-- `IPv6Address._ip_int_from_string`. -/
def readV6 (s : List Char) : Option (BitVec 128) := do
  let ps ← parts s
  if 9 < ps.length then none
  else do
    let l ← layout ps
    let hi ← (ps.take l.hi).mapM parseHextet
    let lo ← (ps.drop (ps.length - l.lo)).mapM parseHextet
    some (BitVec.ofNat 128 (number 65536 (hi ++ List.replicate l.skipped 0 ++ lo)))

/-- `_split_scope_id`: the text before the first `%`, and the scope after it. -/
def splitScope (s : List Char) : Option (List Char × Option (List Char)) :=
  match s.splitOn '%' with
  | [addr] => some (addr, none)
  | [addr, scope] => if scope = [] then none else some (addr, some scope)
  | _ => none

/-- `ip_address(text)`: the fourth version is tried first. -/
def ipAddress (s : List Char) : Option Address :=
  match readV4 s with
  | some ip => some (.v4 ip)
  | none =>
    if '/' ∈ s then none
    else do
      let (addr, scope) ← splitScope s
      let ip ← readV6 addr
      some (.v6 ip scope)

/-! ## Writing -/

/-- The octets of an address of the fourth version, highest first. -/
def octets (ip : BitVec 32) : List Nat :=
  [ip.toNat / 16777216 % 256, ip.toNat / 65536 % 256, ip.toNat / 256 % 256, ip.toNat % 256]

/-- `str(IPv4Address)`. -/
def writeV4 (ip : BitVec 32) : List Char :=
  ['.'].intercalate ((octets ip).map fun n => (Nat.repr n).toList)

/-- The eight groups of an address of the sixth version, highest first. -/
def groups (ip : BitVec 128) : List Nat :=
  (List.range 8).map fun i => ip.toNat / 65536 ^ (7 - i) % 65536

/-- The longest run of zeros, the first of these, as its start and length: one
pass that keeps the best run so far and the length of the open one. -/
def longestZeros (gs : List Nat) : Nat × Nat :=
  (gs.zipIdx.foldl (fun (best, len) (g, i) =>
    if g = 0 then (if best.2 < len + 1 then (i - len, len + 1) else best, len + 1)
    else (best, 0)) ((0, 0), 0)).1

/-- `_compress_hextets`: the longest run of two zeros or more becomes one empty
part, with one more at an end of the text that it touches. -/
def compress (gs : List Nat) : List (List Char) :=
  let (start, len) := longestZeros gs
  let ps := gs.map hex
  if len ≤ 1 then ps
  else
    let ps := ps.take start ++ [[]] ++ ps.drop (start + len) ++
      (if start + len = gs.length then [[]] else [])
    if start = 0 then [] :: ps else ps

/-- `str(IPv6Address)`; an address that maps one of the fourth version is
written with its dots. -/
def writeV6 (ip : BitVec 128) (scope : Option (List Char)) : List Char :=
  let text :=
    if ip.toNat / 4294967296 = 65535 then
      "::ffff:".toList ++ writeV4 (BitVec.ofNat 32 (ip.toNat % 4294967296))
    else [':'].intercalate (compress (groups ip))
  match scope with
  | none => text
  | some s => text ++ '%' :: s

/-- `str(address)`. -/
def Address.str : Address → List Char
  | .v4 ip => writeV4 ip
  | .v6 ip scope => writeV6 ip scope

/-- An address as text reads back: a mapped one, a long run of zeros, a scope. -/
example :
    ipAddress "::ffff:10.0.0.1".toList = some (.v6 281470849515521 none) ∧
    (Address.v6 281470849515521 none).str = "::ffff:10.0.0.1".toList ∧
    (ipAddress "2001:DB8:0:0:1:0:0:1".toList).map Address.str =
      some "2001:db8::1:0:0:1".toList ∧
    (ipAddress "fe80::%eth0".toList).map Address.str = some "fe80::%eth0".toList ∧
    ipAddress "010.0.0.1".toList = none ∧ ipAddress "1::2::3".toList = none := by
  decide +kernel

end IpAddress
