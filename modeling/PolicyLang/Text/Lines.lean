/-!
# Lines

Splits a text at its line feeds. A carriage return just before a line feed belongs to the line
end, and a line feed at the very end of a text starts no further line.
-/

namespace PolicyLang.Text

def lines : List Char → List (List Char)
  | [] => []
  | '\n' :: cs => [] :: lines cs
  | '\r' :: '\n' :: cs => [] :: lines cs
  | c :: cs =>
    match lines cs with
    | [] => [[c]]
    | l :: ls => (c :: l) :: ls

def indented (line : String) : String := "    " ++ line ++ "\n"

/-- Moves each line of a text four spaces further in. -/
def indent (text : String) : String :=
  String.join ((lines text.toList).map fun l => indented (String.ofList l))

end PolicyLang.Text
