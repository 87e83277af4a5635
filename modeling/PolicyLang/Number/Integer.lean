/-!
# Integers in decimal notation

An integer is an optional sign and at least one digit. Programs hold the integers of 64 signed
bits, of which there is one more below zero than above.
-/

namespace PolicyLang

/-- Splits an optional sign off a numeral; the flag says that it is a minus. -/
def splitSign : List Char → Bool × List Char
  | '+' :: cs => (false, cs)
  | '-' :: cs => (true, cs)
  | cs => (false, cs)

def natOfDigits? (cs : List Char) : Option Nat :=
  if cs ≠ [] ∧ cs.all Char.isDigit then some (Nat.ofDigitChars 10 cs 0) else none

def intOfDigits? (cs : List Char) : Option Int :=
  let (negative, digits) := splitSign cs
  (natOfDigits? digits).map fun n => if negative then -n else n

/-- The integers that a program can hold. -/
def InRange (n : Int) : Prop := -0x8000000000000000 ≤ n ∧ n < 0x8000000000000000

instance (n : Int) : Decidable (InRange n) := inferInstanceAs (Decidable (_ ∧ _))

def readInt? (text : String) : Option Int :=
  (intOfDigits? text.toList).filter fun n => InRange n

end PolicyLang
