import PolicyLang.Expr.Basic
import PolicyLang.Parser.Basic

/-!
# Reading conditions

From the loosest to the tightest binding: `or`, `and`, `not`, one comparison, values. A value is a
literal, a condition in parentheses, or a name followed by calls and attributes.

Conditions nest within a budget. A condition takes one unit of it, and so does each `not`, each
parenthesis and each call argument for what stands inside. `expression n` and `negation n` read
with `n` units left, so recursion on the budget is all that nesting needs.
-/

namespace PolicyLang

/-! ## Literals -/

/-- A number with a point is a float, any other one an integer. -/
def Literal.ofNumber (text : String) : Except Cause Literal :=
  if '.' ∈ text.toList then
    match Binary64.read? text with
    | none => .error .badNumber
    | some x => if x.isFinite then .ok (.float x) else .error .floatRange
  else
    match readInt? text with
    | none => .error .intRange
    | some n => .ok (.int n)

/-! ## Calls and attributes -/

structure Arguments where
  args : List Expr
  close : Span

structure Link where
  name : Token
  call : Option Arguments

namespace Expr

def called (e : Expr) : Option Arguments → Expr
  | none => e
  | some a => call e a.args (e.span.to a.close)

def linked (e : Expr) (l : Link) : Expr :=
  (attr e l.name.text (e.span.to l.name.span)).called l.call

end Expr

namespace Parser

def arguments (expr : Parser Expr) : Parser Arguments :=
  branch
    (do
      let first ← expr
      let more ← many fun t => if t.kind = .comma then .item expr else .stop
      let close ← expect .rparen .closeArguments
      pure ⟨first :: more, close.span⟩)
    fun t => if t.kind = .rparen then some (pure ⟨[], t.span⟩) else none

def arguments? (expr : Parser Expr) : Parser (Option Arguments) :=
  branch (pure none) fun t => if t.kind = .lparen then some (some <$> arguments expr) else none

/-- An attribute behind a dot. Keywords are names there. -/
def link (expr : Parser Expr) : Parser Link :=
  next .attrName fun t =>
    if t.kind = .ident ∨ t.kind.isKeyword then
      .ok do
        let call ← arguments? expr
        pure ⟨t, call⟩
    else .error .attrName

def chain (expr : Parser Expr) (name : Token) : Parser Expr := do
  let call ← arguments? expr
  let links ← many fun t => if t.kind = .dot then .item (link expr) else .stop
  pure (links.foldl Expr.linked ((Expr.ident name.text name.span).called call))

/-! ## Levels of binding -/

def parenthesised (expr : Parser Expr) : Parser Expr := do
  let e ← expr
  let _ ← expect .rparen .closeParen
  pure e

def value (expr : Parser Expr) : Parser Expr :=
  next .operand fun t =>
    match t.kind with
    | .number => (Literal.ofNumber t.text).map fun l => pure (.literal l t.span)
    | .string => .ok (pure (.literal (.str t.text) t.span))
    | .boolean b => .ok (pure (.literal (.bool b) t.span))
    | .lparen => .ok (parenthesised expr)
    | .ident => .ok (chain expr t)
    | _ => .error .operand

/-- One value, or two with a comparison between them; a second comparison is refused. -/
def comparison (expr : Parser Expr) : Parser Expr := do
  let left ← value expr
  branch (pure left) fun t =>
    match t.kind with
    | .compare c => some do
        let right ← value expr
        refuse TokenKind.isComparison .chainedComparison
        pure (.join (.compare c) left right)
    | _ => none

def unary (operand expr : Parser Expr) : Parser Expr :=
  branch (comparison expr) fun t =>
    if t.kind = .kwNot then
      some do
        let e ← operand
        pure (.negate e (t.span.to e.span))
    else none

def leftAssoc (op : BinaryOp) (kind : TokenKind) (operand : Parser Expr) : Parser Expr := do
  let first ← operand
  let more ← many fun t => if t.kind = kind then .item operand else .stop
  pure (more.foldl (Expr.join op) first)

def disjunction (operand : Parser Expr) : Parser Expr :=
  leftAssoc .or .kwOr (leftAssoc .and .kwAnd operand)

/-! ## The budget -/

/-- The level of `not`, where `n` units are left for what stands inside. -/
def negation : Nat → Parser Expr
  | 0 => unary (fail .tooDeep) (fail .tooDeep)
  | n + 1 => defer fun _ => unary (negation n) (disjunction (negation n))

/-- A condition that may take `n` units. -/
def expression : Nat → Parser Expr
  | 0 => fail .tooDeep
  | n + 1 => disjunction (negation n)

end Parser

end PolicyLang
