import PolicyLang.Number.Binary64

/-!
# Shortest decimals

Of the decimals that read back as a given double, the one with the fewest digits is written, and of
several that short the one nearest to the double. It is found on the coarsest grid of multiples of
a power of ten where one of the double's two neighbours reads back.
-/

namespace PolicyLang.Binary64

/-- The neighbour on the grid of multiples of `10 ^ g` that reads back as the double with code `k`.
If both do it is the nearer one, and the upper one if they are equally near. -/
def onGrid? (k : Nat) (g : Int) : Option Decimal :=
  let num := steps k * Nat.pow 10 (-g).toNat
  let den := Nat.pow 10 g.toNat <<< 1074
  if num < den then none
  else
    let lower := Decimal.strip (num / den) g
    let upper := Decimal.strip (num / den + 1) g
    match lower.code == k, upper.code == k with
    | true, true => if 2 * (num % den) < den then lower else upper
    | true, false => lower
    | false, true => upper
    | false, false => none

/-- The grids on which a finite double can have its shortest decimal, the coarsest first. On the last one
all doubles stand exactly. -/
def grids : List Int := (List.range 1383).map fun (i : Nat) => (308 : Int) - i

def exact (k : Nat) : Decimal := Decimal.strip (steps k * Nat.pow 5 1074) (-1074)

def shortest (k : Nat) : Decimal :=
  if k = 0 then ⟨0, 0⟩ else (grids.findSome? (onGrid? k)).getD (exact k)

def signed (x : Binary64) (size : List Char) : String :=
  String.ofList (if x.isNegative then '-' :: size else size)

def write (layout : Decimal → List Char) (x : Binary64) : String :=
  if x.isNaN then "NaN"
  else if x.isFinite then x.signed (layout (shortest x.code))
  else x.signed ['i', 'n', 'f']

/-- No exponent, whatever the size of a number, and no point where its value is whole. -/
def plain (x : Binary64) : String := x.write Decimal.positional

/-- A listing turns to scientific notation below `0.0001` and from `10 ^ 16` on. -/
def compact (x : Binary64) : String :=
  x.write fun d =>
    if d.digits = 0 ∨ (-4 ≤ d.leading ∧ d.leading < 16) then d.pointed else d.scientific

end PolicyLang.Binary64
