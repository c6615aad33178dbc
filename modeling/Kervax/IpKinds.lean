-- The kinds of internet addresses as Python's `ipaddress` tells them (3.14): the
-- special networks, and what an address of the sixth version says that carries one of
-- the fourth.
import Kervax.IpAddress

namespace IpAddress

/-! ## The networks -/

def v4LinkLocal : Network := .v4 0xa9fe0000 16
def v4Multicast : Network := .v4 0xe0000000 4
def v4Loopback : Network := .v4 0x7f000000 8
def v4Reserved : Network := .v4 0xf0000000 4
def v4Shared : Network := .v4 0x64400000 10

def v4Private : List Network :=
  [.v4 0 8, .v4 0x0a000000 8, .v4 0x7f000000 8, .v4 0xa9fe0000 16, .v4 0xac100000 12,
    .v4 0xc0000000 24, .v4 0xc00000aa 31, .v4 0xc0000200 24, .v4 0xc0a80000 16, .v4 0xc6120000 15,
    .v4 0xc6336400 24, .v4 0xcb007100 24, .v4 0xf0000000 4, .v4 0xffffffff 32]

def v4PrivateExceptions : List Network := [.v4 0xc0000009 32, .v4 0xc000000a 32]

def v6LinkLocal : Network := .v6 0xfe800000000000000000000000000000 10
def v6Multicast : Network := .v6 0xff000000000000000000000000000000 8

def v6Private : List Network :=
  [.v6 1 128, .v6 0 128, .v6 0x00000000000000000000ffff00000000 96,
    .v6 0x0064ff9b000100000000000000000000 48, .v6 0x01000000000000000000000000000000 64,
    .v6 0x20010000000000000000000000000000 23, .v6 0x20010db8000000000000000000000000 32,
    .v6 0x20020000000000000000000000000000 16, .v6 0x3fff0000000000000000000000000000 20,
    .v6 0xfc000000000000000000000000000000 7, .v6 0xfe800000000000000000000000000000 10]

def v6PrivateExceptions : List Network :=
  [.v6 0x20010001000000000000000000000001 128, .v6 0x20010001000000000000000000000002 128,
    .v6 0x20010003000000000000000000000000 32, .v6 0x20010004011200000000000000000000 48,
    .v6 0x20010020000000000000000000000000 28, .v6 0x20010030000000000000000000000000 28]

def v6Reserved : List Network :=
  [.v6 0 8, .v6 0x01000000000000000000000000000000 8, .v6 0x02000000000000000000000000000000 7,
    .v6 0x04000000000000000000000000000000 6, .v6 0x08000000000000000000000000000000 5,
    .v6 0x10000000000000000000000000000000 4, .v6 0x40000000000000000000000000000000 3,
    .v6 0x60000000000000000000000000000000 3, .v6 0x80000000000000000000000000000000 3,
    .v6 0xa0000000000000000000000000000000 3, .v6 0xc0000000000000000000000000000000 3,
    .v6 0xe0000000000000000000000000000000 4, .v6 0xf0000000000000000000000000000000 5,
    .v6 0xf8000000000000000000000000000000 6, .v6 0xfe000000000000000000000000000000 9]

/-! ## The kinds -/

/-- `IPv6Address.ipv4_mapped`. -/
def ipv4Mapped (ip : BitVec 128) : Option (BitVec 32) :=
  if ip >>> 32 = 0xffff then some (ip.setWidth 32) else none

/-- A mapped address stands for the one it maps. -/
def unmapped : Address → Address
  | .v4 ip => .v4 ip
  | .v6 ip scope =>
    match ipv4Mapped ip with
    | some e => .v4 e
    | none => .v6 ip scope

def Address.isLinkLocal (a : Address) : Bool :=
  match unmapped a with
  | .v4 ip => v4LinkLocal.holds (.v4 ip)
  | .v6 ip s => v6LinkLocal.holds (.v6 ip s)

def Address.isUnspecified (a : Address) : Bool :=
  match unmapped a with
  | .v4 ip => ip == 0
  | .v6 ip _ => ip == 0

def Address.isMulticast (a : Address) : Bool :=
  match unmapped a with
  | .v4 ip => v4Multicast.holds (.v4 ip)
  | .v6 ip s => v6Multicast.holds (.v6 ip s)

def Address.isLoopback (a : Address) : Bool :=
  match unmapped a with
  | .v4 ip => v4Loopback.holds (.v4 ip)
  | .v6 ip _ => ip == 1

def Address.isReserved (a : Address) : Bool :=
  match unmapped a with
  | .v4 ip => v4Reserved.holds (.v4 ip)
  | .v6 ip s => v6Reserved.any fun n => n.holds (.v6 ip s)

def Address.isPrivate (a : Address) : Bool :=
  match unmapped a with
  | .v4 ip =>
    (v4Private.any fun n => n.holds (.v4 ip)) && v4PrivateExceptions.all fun n => !n.holds (.v4 ip)
  | .v6 ip s =>
    (v6Private.any fun n => n.holds (.v6 ip s)) &&
      v6PrivateExceptions.all fun n => !n.holds (.v6 ip s)

def Address.isGlobal (a : Address) : Bool :=
  match unmapped a with
  | .v4 ip => !v4Shared.holds (.v4 ip) && !(Address.v4 ip).isPrivate
  | .v6 ip s => !(Address.v6 ip s).isPrivate

/-! ## Addresses that carry one of the fourth version -/

/-- How an address carries one of the fourth version: mapped, behind the prefix of NAT64,
or in the prefix of 6to4 with any last eighty bits. -/
inductive Carrier
  | mapped
  | nat64
  | sixToFour (rest : BitVec 80)
deriving DecidableEq, Repr

def Carrier.carry : Carrier → BitVec 32 → BitVec 128
  | .mapped, e => 0#80 ++ 0xffff#16 ++ e
  | .nat64, e => 0x0064ff9b#32 ++ 0#64 ++ e
  | .sixToFour rest, e => 0x2002#16 ++ e ++ rest

theorem toNat_append {n m : Nat} (x : BitVec n) (y : BitVec m) :
    (x ++ y).toNat = x.toNat * 2 ^ m + y.toNat := by
  rw [BitVec.toNat_append, ← Nat.shiftLeft_add_eq_or_of_lt y.isLt, Nat.shiftLeft_eq]

theorem toNat_nat64 (e : BitVec 32) :
    (Carrier.nat64.carry e).toNat = 0x0064ff9b * 2 ^ 96 + e.toNat := by
  unfold Carrier.carry
  rw [toNat_append, toNat_append]
  simp

theorem toNat_sixToFour (rest : BitVec 80) (e : BitVec 32) :
    ((Carrier.sixToFour rest).carry e).toNat =
      (0x2002 * 2 ^ 32 + e.toNat) * 2 ^ 80 + rest.toNat := by
  unfold Carrier.carry
  rw [toNat_append, toNat_append]
  rfl

theorem toNat_mapped (e : BitVec 32) :
    (Carrier.mapped.carry e).toNat = 0xffff * 2 ^ 32 + e.toNat := by
  unfold Carrier.carry
  rw [toNat_append, toNat_append]
  rfl

/-- What the upper bits say whether an address is mapped. -/
theorem ipv4Mapped_eq_none {ip : BitVec 128} (h : ip.toNat / 2 ^ 32 ≠ 0xffff) :
    ipv4Mapped ip = none := by
  unfold ipv4Mapped
  apply if_neg
  intro hip
  apply h
  have := congrArg BitVec.toNat hip
  rwa [BitVec.toNat_ushiftRight, Nat.shiftRight_eq_div_pow] at this

theorem ipv4Mapped_mapped (e : BitVec 32) : ipv4Mapped (Carrier.mapped.carry e) = some e := by
  have hlt := e.isLt
  unfold ipv4Mapped
  rw [if_pos]
  · congr 1
    apply BitVec.eq_of_toNat_eq
    rw [BitVec.toNat_setWidth, toNat_mapped]
    omega
  · apply BitVec.eq_of_toNat_eq
    rw [BitVec.toNat_ushiftRight, Nat.shiftRight_eq_div_pow, toNat_mapped]
    change _ = 0xffff
    omega

theorem unmapped_mapped (e : BitVec 32) (scope : Option (List Char)) :
    unmapped (.v6 (Carrier.mapped.carry e) scope) = .v4 e := by
  dsimp only [unmapped]
  rw [ipv4Mapped_mapped]

/-- A mask keeps the upper bits. -/
theorem toNat_and_netmask {w len : Nat} (ip : BitVec w) :
    (ip &&& netmask w len).toNat = ip.toNat / 2 ^ (w - len) * 2 ^ (w - len) := by
  have hshift : ip &&& netmask w len = (ip >>> (w - len)) <<< (w - len) := by
    unfold netmask
    ext i hi
    by_cases h : i < w - len
    · simp [h]
    · have hback : w - len + (i - (w - len)) = i := by omega
      simp [h, hback, BitVec.getLsbD_eq_getElem hi]
  rw [hshift, BitVec.toNat_shiftLeft, BitVec.toNat_ushiftRight, Nat.shiftRight_eq_div_pow,
    Nat.shiftLeft_eq]
  apply Nat.mod_eq_of_lt
  exact lt_of_le_of_lt (Nat.div_mul_le_self _ _) ip.isLt

/-- An address stands in a network when their upper bits are equal. -/
theorem masked_iff {w len : Nat} {ip first : BitVec w} (hfirst : first.toNat % 2 ^ (w - len) = 0) :
    (ip &&& netmask w len == first) =
      decide (ip.toNat / 2 ^ (w - len) = first.toNat / 2 ^ (w - len)) := by
  have hdiv := Nat.div_add_mod first.toNat (2 ^ (w - len))
  rw [hfirst] at hdiv
  rw [Bool.eq_iff_iff, beq_iff_eq, decide_eq_true_eq, ← BitVec.toNat_inj, toNat_and_netmask]
  constructor
  · intro h
    rw [← h, Nat.mul_div_cancel _ (Nat.two_pow_pos _)]
  · intro h
    rw [h, Nat.mul_comm]
    exact hdiv

theorem holds_v6 {first ip : BitVec 128} {len : Nat} {scope : Option (List Char)}
    (hfirst : first.toNat % 2 ^ (128 - len) = 0) :
    (Network.v6 first len).holds (.v6 ip scope) =
      decide (ip.toNat / 2 ^ (128 - len) = first.toNat / 2 ^ (128 - len)) :=
  masked_iff hfirst

end IpAddress
