/-!
# Alignment

Fills a text with spaces up to a width. A text that is already as wide stays as it is; where the
filling of a centred text is odd, the larger half goes to the right.
-/

namespace PolicyLang.Text

def spaces (n : Nat) : String := String.ofList (List.replicate n ' ')

def alignLeft (width : Nat) (s : String) : String := s ++ spaces (width - s.length)

def alignRight (width : Nat) (s : String) : String := spaces (width - s.length) ++ s

def center (width : Nat) (s : String) : String :=
  let fill := width - s.length
  spaces (fill / 2) ++ s ++ spaces (fill - fill / 2)

inductive Alignment where
  | left | right | center
deriving DecidableEq, Repr

def align : Alignment → Nat → String → String
  | .left => alignLeft
  | .right => alignRight
  | .center => center

end PolicyLang.Text
