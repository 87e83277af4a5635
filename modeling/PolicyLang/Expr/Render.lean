import PolicyLang.Expr.Basic
import PolicyLang.Number.Shortest
import PolicyLang.Text.Quoted

/-!
# Conditions as canonical text

Every operator has its own pair of parentheses, so the text has one reading only.
-/

namespace PolicyLang

/-- Doubles that are whole get a point, so that they are read as doubles again. -/
def Literal.render : Literal → String
  | int n => n.repr
  | float x => if x.isWhole then x.plain ++ ".0" else x.plain
  | str s => String.ofList (Quoted.write s.toList)
  | bool true => "true"
  | bool false => "false"

namespace Expr

mutual

def render : Expr → String
  | literal v _ => v.render
  | ident name _ => name
  | attr object name _ => object.render ++ "." ++ name
  | call callee args _ => callee.render ++ "(" ++ ", ".intercalate (renderAll args) ++ ")"
  | negate operand _ => "(not " ++ operand.render ++ ")"
  | binary op left right _ => "(" ++ left.render ++ " " ++ op.symbol ++ " " ++ right.render ++ ")"

def renderAll : List Expr → List String
  | [] => []
  | e :: es => e.render :: renderAll es

end

end Expr

end PolicyLang
