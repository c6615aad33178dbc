-- The checks that the agent makes on the parameters of a command before it asks a root
-- helper: paths, names, addresses, keys and secrets. A text is what the panel's JSON
-- decodes to, so it is a list of characters; `len` counts its bytes.
import Kervax.IpAddressLaws
import Mathlib.Computability.RegularExpressions
import Mathlib.Data.List.DropRight
import Mathlib.Data.List.Infix

namespace Kervax.Spools

/-! ## Texts -/

abbrev Text := List Char

/-- `len`. -/
def len (s : Text) : Nat := (s.map Char.utf8Size).sum

/-- `strings.HasPrefix`, `strings.TrimPrefix`, `strings.Contains`. -/
def hasPrefix (s : Text) (p : String) : Bool := p.toList.isPrefixOf s
def trimPrefix (s : Text) (p : String) : Text := if hasPrefix s p then s.drop p.toList.length else s
def contains (s : Text) (p : String) : Bool := decide (p.toList <:+: s)

/-- `strings.Cut`: what is before the first `sep`, what is after it, and whether it is there. -/
def cutAt (sep : Char) (s : Text) : Text × Text × Bool :=
  (s.takeWhile (· ≠ sep), (s.dropWhile (· ≠ sep)).drop 1, s.contains sep)

/-- `unicode.IsSpace`. -/
def isSpace (c : Char) : Bool :=
  [0x09, 0x0a, 0x0b, 0x0c, 0x0d, 0x20, 0x85, 0xa0, 0x1680, 0x2028, 0x2029, 0x202f, 0x205f,
    0x3000].contains c.toNat || (0x2000 ≤ c.toNat && c.toNat ≤ 0x200a)

/-- `strings.TrimSpace`. -/
def trimSpace (s : Text) : Text := (s.dropWhile isSpace).rdropWhile isSpace

/-- `strconv.Itoa`, `%d`. -/
def itoa (n : Int) : Text := (toString n).toList

/-! ## Characters -/

def isLower (c : Char) : Bool := 'a' ≤ c && c ≤ 'z'
def isUpper (c : Char) : Bool := 'A' ≤ c && c ≤ 'Z'
def isNum (c : Char) : Bool := '0' ≤ c && c ≤ '9'
def isAlnum (c : Char) : Bool := isLower c || isUpper c || isNum c

/-- A letter, a digit or one of these. -/
def alnumOr (more : String) (c : Char) : Bool := isAlnum c || more.toList.contains c

/-! ## Regular expressions -/

abbrev Re := RegularExpression Char

def Re.oneOf (cs : String) : Re := (cs.toList.map RegularExpression.char).foldr (· + ·) 0
def Re.lit (s : String) : Re := (s.toList.map RegularExpression.char).foldr (· * ·) 1

/-- `r+`, `r?`, `r{lo,hi}`. -/
def Re.some (r : Re) : Re := r * r.star
def Re.opt (r : Re) : Re := 1 + r
def Re.between (lo hi : Nat) (r : Re) : Re := r ^ lo * (Re.opt r) ^ (hi - lo)

def letters : String := "ABCDEFGHIJKLMNOPQRSTUVWXYZabcdefghijklmnopqrstuvwxyz"
def digits : String := "0123456789"

/-- `[A-Za-z0-9…]`. -/
def Re.alnum (more : String) : Re := Re.oneOf (letters ++ digits ++ more)

/-- `backupTimeRe`: `^([01][0-9]|2[0-3]):[0-5][0-9]$`. -/
def backupTimeRe : Re :=
  (Re.oneOf "01" * Re.oneOf digits + Re.lit "2" * Re.oneOf "0123") * Re.lit ":" *
    Re.oneOf "012345" * Re.oneOf digits

/-- `backupSecretRe`: `^[A-Za-z0-9+/=_.,:@%-]{8,256}$`. -/
def backupSecretRe : Re := Re.between 8 256 (Re.alnum "+/=_.,:@%-")

/-- `backupHpassRe`: `^[A-Za-z0-9._~-]{8,128}$`. -/
def backupHpassRe : Re := Re.between 8 128 (Re.alnum "._~-")

/-- `backupRepoURLRe`: `rest:`, the scheme, a login, a host by name or in brackets, a
port, and a path. -/
def backupRepoURLRe : Re :=
  Re.lit "rest:http" * Re.opt (Re.lit "s") * Re.lit "://" *
    Re.opt (Re.some (Re.alnum "._-") * Re.lit ":" * Re.some (Re.alnum "._%+=-") * Re.lit "@") *
    (Re.some (Re.alnum ".-") +
      Re.lit "[" * Re.some (Re.oneOf (digits ++ "ABCDEFabcdef:.")) * Re.lit "]") *
    Re.opt (Re.lit ":" * Re.between 1 5 (Re.oneOf digits)) *
    (Re.lit "/" * Re.some (Re.alnum "._-")).star * Re.opt (Re.lit "/")

/-- `backupStorageMountRe`: `^(?:/[A-Za-z0-9._-]+)+$`. -/
def backupStorageMountRe : Re := Re.some (Re.lit "/" * Re.some (Re.alnum "._-"))

/-! ## Paths -/

def backupPathOK (p : Text) : Bool :=
  hasPrefix p "/" && !contains p ".." && p.all (alnumOr "/._-+")

/-- `dumpSysDir`: directories of the system. -/
def dumpSysDir (s : Text) : Bool :=
  let p := s.rdropWhile (· = '/') ++ ['/']
  ["/", "/var/", "/home/"].any (fun d => p = d.toList) ||
    ["/bin/", "/boot/", "/dev/", "/etc/", "/lib", "/proc/", "/root/", "/run/", "/sbin/", "/snap/",
      "/sys/", "/tmp/", "/usr/", "/var/tmp/", "/var/lib/", "/var/log/", "/var/cache/",
      "/var/spool/", "/var/run/", "/var/lock/", "/var/mail/"].any (hasPrefix p)

def dumpDirOK (s : Text) : Bool := s.all (alnumOr "._-/") && !dumpSysDir s

/-- `filepath.Clean` of a path from the root. -/
def clean (p : Text) : Text :=
  '/' :: ['/'].intercalate ((p.splitOn '/').foldl (fun out seg =>
    if seg = [] ∨ seg = ['.'] then out
    else if seg = ['.', '.'] then out.dropLast
    else out ++ [seg]) [])

def backupStorageMountOK (mount : Text) : Bool :=
  mount = ['/'] || (len mount ≤ 512 && backupStorageMountRe.rmatch mount && clean mount = mount)

def diskMountOK (m : Text) : Bool :=
  m.head? = some '/' && len m ≤ 256 && !contains m ".." && !contains m "//" && m.all (alnumOr "/._-")

/-! ## Names and addresses -/

def backupNameOK (s : Text) : Bool := s ≠ [] && s.all (alnumOr "._-")

def backupRepoNameOK (s : Text) : Bool :=
  backupNameOK s && len s ≤ 128 && s.head? ≠ some '.' && s.head? ≠ some '-'

def backupIPOK (s : Text) : Bool :=
  s ≠ [] && s.all fun c =>
    isNum c || ('a' ≤ c && c ≤ 'f') || ('A' ≤ c && c ≤ 'F') || c = '.' || c = ':'

/-- `mirrorHostOK`: an address, or a name of DNS. -/
def mirrorHostOK (s : Text) : Bool :=
  backupIPOK s || (s ≠ [] && len s ≤ 253 && s.head? ≠ some '-' && s.head? ≠ some '.' &&
    s.all (alnumOr ".-"))

/-! ## Keys -/

def base64Char (c : Char) : Bool := alnumOr "+/" c

/-- `mirrorPubKeyOK`. -/
def mirrorPubKeyOK (s : Text) : Bool :=
  let b := s.drop "ssh-ed25519 ".toList.length
  hasPrefix s "ssh-ed25519 " && len b = 68 && b.all base64Char

def hostKeyTypes : List String :=
  ["ssh-ed25519", "ecdsa-sha2-nistp256", "ecdsa-sha2-nistp384", "ecdsa-sha2-nistp521", "ssh-rsa"]

/-- The body of a host key: base64, with `=` among its last three. A character of more
bytes than one is refused, so up to there the place in the text is the place in bytes. -/
def keyBodyOK (b : Text) : Bool :=
  b.zipIdx.all fun (c, i) => (c = '=' && len b ≤ i + 3) || base64Char c

/-- `mirrorHostKeyOK`. -/
def mirrorHostKeyOK (s : Text) : Bool :=
  let (t, b, ok) := cutAt ' ' s
  ok && 20 ≤ len b && len b ≤ 2000 && hostKeyTypes.any (fun k => t = k.toList) && keyBodyOK b

/-! ## Internet addresses -/

/-- `net.ParseIP`: an address of the fourth version is a mapped one of the sixth; a
scope is refused. -/
def parseIP (s : Text) : Option (BitVec 128) :=
  match IpAddress.readV4 s with
  | some ip => some (BitVec.ofNat 128 (65535 * 4294967296 + ip.toNat))
  | none => IpAddress.readV6 s

/-- `IP.String`: a mapped address is written as the fourth version. -/
def ipString (ip : BitVec 128) : Text :=
  if ip.toNat / 4294967296 = 65535 then
    IpAddress.writeV4 (BitVec.ofNat 32 (ip.toNat % 4294967296))
  else [':'].intercalate (IpAddress.compress (IpAddress.groups ip))

/-- The length of a mask: digits only, at most `bits`. -/
def maskOK (bits : Nat) (s : Text) : Bool :=
  s ≠ [] && s.all isNum && IpAddress.number 10 (s.map fun c => c.toNat - '0'.toNat) ≤ bits

/-- `net.ParseCIDR` gives no error. -/
def cidrOK (s : Text) : Bool :=
  let (addr, mask, found) := cutAt '/' s
  found && if (IpAddress.readV4 addr).isSome then maskOK 32 mask
    else (IpAddress.readV6 addr).isSome && maskOK 128 mask

/-- What is written of an address reads back. -/
theorem parseIP_ipString (ip : BitVec 128) : parseIP (ipString ip) = some ip := by
  unfold parseIP ipString
  by_cases h : ip.toNat / 4294967296 = 65535
  · rw [if_pos h, IpAddress.readV4_writeV4]
    simp only [Option.some.injEq]
    have hlt := ip.isLt
    apply BitVec.eq_of_toNat_eq
    simp only [BitVec.toNat_ofNat]
    omega
  · rw [if_neg h, IpAddress.readV4_of_no_dot (IpAddress.dot_notMem_compress ip)]
    exact IpAddress.readV6_compress ip

/-! ## Systemd units -/

def unitTypes : List String :=
  ["service", "socket", "timer", "mount", "automount", "swap", "path"]

/-- The name of a unit that can fail: `strings.LastIndex(u, ".")` splits off its type. -/
def unitOK (u : Text) : Bool :=
  u ≠ [] && len u ≤ 200 && u.head? ≠ some '-' && u.all (alnumOr "@._:-\\") &&
    u.contains '.' && (u.rdropWhile (· ≠ '.')).length ≠ 1 &&
    unitTypes.any fun t => u.rtakeWhile (· ≠ '.') = t.toList

end Kervax.Spools
