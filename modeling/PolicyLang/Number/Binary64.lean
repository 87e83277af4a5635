import PolicyLang.Number.Decimal

/-!
# Binary floating point

A double is kept as its 64 bits. Without the sign bit they are a code that orders the doubles by
size: below `2 ^ 52` it counts steps of `2 ^ -1074`, and from there on each block of `2 ^ 52` codes
has steps twice as long as the block before.
-/

namespace PolicyLang

structure Binary64 where
  bits : UInt64
deriving DecidableEq, Repr

namespace Binary64

def signBit : Nat := 0x8000000000000000

/-- The bit in front of the stored ones, `2 ^ 52`, which all but the smallest doubles have. -/
def hiddenBit : Nat := 0x10000000000000

def code (x : Binary64) : Nat := x.bits.toNat % signBit

def isNegative (x : Binary64) : Bool := signBit ≤ x.bits.toNat

def infinity : Nat := 0x7ff * hiddenBit

def isFinite (x : Binary64) : Bool := x.code < infinity

def isNaN (x : Binary64) : Bool := infinity < x.code

def ofCode (negative : Bool) (k : Nat) : Binary64 :=
  ⟨UInt64.ofNat (if negative then signBit + k else k)⟩

/-- The size of the double with code `k`, in steps of `2 ^ -1074`. -/
def steps (k : Nat) : Nat :=
  if k < hiddenBit then k else (hiddenBit + k % hiddenBit) <<< (k / hiddenBit - 1)

/-- No part of the value stands behind the point. -/
def isWhole (x : Binary64) : Bool := x.isFinite && steps x.code % (1 <<< 1074) == 0

/-- The quotient rounded to the nearest natural number, a half to the even one. -/
def roundDiv (num den : Nat) : Nat :=
  let q := num / den
  let r := num % den
  if 2 * r < den ∨ (2 * r = den ∧ q % 2 = 0) then q else q + 1

/-- The code of the double nearest to `num / den` steps of `2 ^ -1074`. -/
def nearest (num den : Nat) : Nat :=
  let block := (num / den).log2 - 52
  min infinity (block * hiddenBit + roundDiv num (den <<< block))

end Binary64

/-- The code of the double nearest to a decimal. The first cases are far outside of the range of a
double, where the powers of ten need not be worked out. -/
def Decimal.code (d : Decimal) : Nat :=
  if d.digits = 0 then 0
  else if 400 < d.exponent then Binary64.infinity
  else if d.exponent + d.digits.log2 + 1 < -400 then 0
  else
    Binary64.nearest ((d.digits * Nat.pow 10 d.exponent.toNat) <<< 1074)
      (Nat.pow 10 (-d.exponent).toNat)

def Binary64.read? (text : String) : Option Binary64 :=
  let (negative, cs) := splitSign text.toList
  (Decimal.read? cs).map fun d => .ofCode negative d.code

end PolicyLang
