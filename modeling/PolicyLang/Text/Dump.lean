/-!
# Dumps

A layout for nested data in which every part has a line of its own: the items of a group stand
between its opening and closing line, four spaces further in, each with a comma behind it.
-/

namespace PolicyLang

inductive Dump where
  | atom (text : String)
  | field (label : String) (value : Dump)
  /-- An opening text, the items, a closing text. Without items the two texts stand together. -/
  | group (opening : String) (items : List Dump) (closing : String)

namespace Dump

def record (name : String) (fields : List Dump) : Dump := group (name ++ " \x7b") fields "\x7d"

def variant (name : String) (value : Dump) : Dump := group (name ++ "(") [value] ")"

def list (items : List Dump) : Dump := group "[" items "]"

def margin (depth : Nat) : String := String.ofList (List.replicate (4 * depth) ' ')

mutual

/-- The text of a dump whose first line already has its margin. -/
def render (depth : Nat) : Dump → String
  | atom text => text
  | field label value => label ++ ": " ++ value.render depth
  | group opening [] closing => opening ++ closing
  | group opening (item :: items) closing =>
    opening ++ "\n" ++ renderItems (depth + 1) (item :: items) ++ margin depth ++ closing

def renderItems (depth : Nat) : List Dump → String
  | [] => ""
  | item :: items => margin depth ++ item.render depth ++ ",\n" ++ renderItems depth items

end

end Dump

end PolicyLang
