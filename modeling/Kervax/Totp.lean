-- One-time codes (`totp.py`): the code of a secret and of a 30-second counter, and the
-- counter that a given code stands for.
import Kervax.ClientIp

namespace Kervax.Totp

/-! ## SHA-1 and HMAC -/

/-- The remainder of a 32-bit word. -/
def word (x : Nat) : Nat := x % 2 ^ 32

def rotl (n x : Nat) : Nat := word (x <<< n) ||| (x >>> (32 - n))

/-- Big-endian bytes of a number. -/
def bytesOf : Nat → Nat → List Nat
  | 0, _ => []
  | n + 1, x => bytesOf n (x / 256) ++ [x % 256]

def numberOf (bytes : List Nat) : Nat := bytes.foldl (fun x b => x * 256 + b) 0

/-- A list in pieces of `n`; what is over at the end is left out. -/
def pieces (n : Nat) : Nat → List Nat → List (List Nat)
  | 0, _ => []
  | k + 1, l => l.take n :: pieces n k (l.drop n)

/-- The message with its padding, in blocks of 64 bytes. -/
def blocks (msg : List Nat) : List (List Nat) :=
  let padded := msg ++ [0x80] ++ List.replicate ((119 - msg.length % 64) % 64) 0 ++
    bytesOf 8 (8 * msg.length)
  pieces 64 (padded.length / 64) padded

/-- The words of a block that the rounds go through, the newest first. -/
def schedule : Nat → List Nat → List Nat
  | 0, ws => ws
  | n + 1, ws =>
    schedule n (rotl 1 (ws.getD 2 0 ^^^ ws.getD 7 0 ^^^ ws.getD 13 0 ^^^ ws.getD 15 0) :: ws)

/-- The function and the constant of a round. -/
def mix (t b c d : Nat) : Nat :=
  if t < 20 then word (((b &&& c) ||| ((2 ^ 32 - 1 - b) &&& d)) + 0x5A827999)
  else if t < 40 then word ((b ^^^ c ^^^ d) + 0x6ED9EBA1)
  else if t < 60 then word (((b &&& c) ||| (b &&& d) ||| (c &&& d)) + 0x8F1BBCDC)
  else word ((b ^^^ c ^^^ d) + 0xCA62C1D6)

structure Digest where
  a : Nat := 0x67452301
  b : Nat := 0xEFCDAB89
  c : Nat := 0x98BADCFE
  d : Nat := 0x10325476
  e : Nat := 0xC3D2E1F0

def Digest.round (h : Digest) (t w : Nat) : Digest :=
  ⟨word (rotl 5 h.a + mix t h.b h.c h.d + h.e + w), h.a, rotl 30 h.b, h.c, h.d⟩

def Digest.rounds (h : Digest) : Nat → List Nat → Digest
  | _, [] => h
  | t, w :: ws => (h.round t w).rounds (t + 1) ws

def Digest.block (h : Digest) (block : List Nat) : Digest :=
  let words := (pieces 4 16 block).map numberOf
  let g := h.rounds 0 (schedule 64 words.reverse).reverse
  ⟨word (h.a + g.a), word (h.b + g.b), word (h.c + g.c), word (h.d + g.d), word (h.e + g.e)⟩

def sha1 (msg : List Nat) : List Nat :=
  let h := (blocks msg).foldl Digest.block {}
  [h.a, h.b, h.c, h.d, h.e].flatMap (bytesOf 4)

/-- `hmac.new(key, msg, hashlib.sha1).digest()`. -/
def hmacSha1 (key msg : List Nat) : List Nat :=
  let key := if 64 < key.length then sha1 key else key
  let key := key ++ List.replicate (64 - key.length) 0
  sha1 (key.map (· ^^^ 0x5c) ++ sha1 (key.map (· ^^^ 0x36) ++ msg))

/-! ## The code -/

/-- The value of a letter of base32. -/
def base32Digit (c : Char) : Option Nat :=
  if 'A' ≤ c ∧ c ≤ 'Z' then some (c.toNat - 'A'.toNat)
  else if '2' ≤ c ∧ c ≤ '7' then some (c.toNat - '2'.toNat + 26)
  else none

/-- `base64.b32decode` of the secret with its padding; nothing is an error. -/
def b32decode (secret : String) : Option (List Nat) := do
  let text := secret.toList.map Char.toUpper
  let padded := text ++ List.replicate ((8 - text.length % 8) % 8) '='
  let letters := (padded.reverse.dropWhile (· = '=')).reverse
  if padded.length - letters.length ∉ [0, 1, 3, 4, 6] then none
  else
    let digits ← letters.mapM base32Digit
    let size := 5 * digits.length / 8
    return bytesOf size (digits.foldl (fun x d => x * 32 + d) 0 >>> (5 * digits.length - 8 * size))

/-- `str(n).zfill(6)` of a number below a million. -/
def sixDigits (n : Nat) : List Char :=
  [100000, 10000, 1000, 100, 10, 1].map fun p => Char.ofNat ('0'.toNat + n / p % 10)

/-- `_hotp`. -/
def hotp (secret : String) (counter : Nat) : Option (List Char) :=
  (b32decode secret).map fun key =>
    let mac := hmacSha1 key (bytesOf 8 counter)
    let offset := mac.getLast?.getD 0 &&& 0x0F
    let code := numberOf ((mac.drop offset).take 4) &&& 0x7FFFFFFF
    sixDigits (code % 10 ^ 6)

/-- The counters of the window: a step to either side of the clock. -/
def window (now : Nat) : List Nat := [now / 30 - 1, now / 30, now / 30 + 1]

/-- `code.strip()`, and only digits: what is no ASCII digit is no digit of a code. -/
def digitsOf (code : String) : Option (List Char) :=
  let code := strip code.toList
  if code ≠ [] ∧ code.all Char.isDigit then some code else none

/-- `matched_counter`. -/
def matchedCounter (secret code : String) (now : Nat) : Option Nat :=
  if secret = "" ∨ code = "" then none
  else
    match digitsOf code with
    | none => none
    | some code => (window now).find? fun counter => hotp secret counter = some code

/-- `verify`. -/
def verify (secret code : String) (now : Nat) : Bool :=
  if secret = "" ∨ code = "" then false
  else
    match digitsOf code with
    | none => false
    | some code => (window now).any fun counter => hotp secret counter = some code

/-- `verify` takes the codes that stand for a counter, and forgets which. -/
theorem verify_iff (secret code : String) (now : Nat) :
    verify secret code now = (matchedCounter secret code now).isSome := by
  unfold verify matchedCounter
  split
  · rfl
  · cases digitsOf code with
    | none => rfl
    | some code =>
      rw [Bool.eq_iff_iff, List.find?_isSome]
      simp

/-- No counter stands for a code of no secret. -/
theorem matchedCounter_empty (code : String) (now : Nat) : matchedCounter "" code now = none := by
  unfold matchedCounter
  rw [if_pos (.inl rfl)]

theorem matchedCounter_of_digits {secret code : String} {digits : List Char} (hs : secret ≠ "")
    (hcode : code ≠ "") (hd : digitsOf code = some digits) (now : Nat) :
    matchedCounter secret code now =
      (window now).find? fun counter => hotp secret counter = some digits := by
  unfold matchedCounter
  rw [if_neg (not_or.mpr ⟨hs, hcode⟩), hd]

/-- The secret of the test vectors, `12345678901234567890` in base32. -/
def secretKey : String := "GEZDGNBVGY3TQOJQGEZDGNBVGY3TQOJQ"

theorem hotp_vectors : hotp secretKey 0 = some "755224".toList ∧
    hotp secretKey 1 = some "287082".toList ∧ hotp secretKey 2 = some "359152".toList := by
  decide +kernel

end Kervax.Totp
