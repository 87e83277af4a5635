import PolicyLang.Token.Basic

/-!
# Syntax errors

A cause says what the reader of a program missed or refused, an error adds the token it stopped at.
The wording of both stands here.
-/

namespace PolicyLang

inductive Cause where
  | afterEnd
  | statement
  | policyName | policyColon | policyOpen | policyItem
  | policyClose (name : String)
  | ruleName | ruleColon | ruleOpen | ruleItem
  | ruleClose (name : String)
  | category
  | importPath
  | priorityNumber | priorityFraction | priorityRange
  | thenWord
  | verb
  | strayTarget | routeTo | routeTarget
  | tooDeep
  | chainedComparison
  | operand
  | badNumber | floatRange | intRange
  | closeParen
  | attrName
  | closeArguments
deriving DecidableEq, Repr

def Cause.message : Cause → String
  | afterEnd => "unexpected token after end of file"
  | statement => "expected 'policy', 'rule' or 'import'"
  | policyName => "expected policy name after 'policy'"
  | policyColon => "expected ':' after policy name"
  | policyOpen => "expected '\x7b' to open policy body"
  | policyItem => "expected 'rule', 'when', 'priority' or an action in policy body"
  | policyClose name => "expected '\x7d' to close policy '" ++ name ++ "'"
  | ruleName => "expected rule name after 'rule'"
  | ruleColon => "expected ':' and a category after rule name"
  | ruleOpen => "expected '\x7b' to open rule body"
  | ruleItem => "expected 'when', 'priority' or an action in rule body"
  | ruleClose name => "expected '\x7d' to close rule '" ++ name ++ "'"
  | category =>
    "expected category (one of " ++ ", ".intercalate (Category.all.map Category.name) ++ ")"
  | importPath => "expected a quoted path after 'import'"
  | priorityNumber => "expected a number after 'priority'"
  | priorityFraction => "priority must be an integer"
  | priorityRange => "priority is out of range"
  | thenWord => "expected 'then' after condition"
  | verb => "expected action (one of " ++ ", ".intercalate (Verb.all.map Verb.name) ++ ")"
  | strayTarget => "a 'to' target is only allowed after 'route'"
  | routeTo => "expected 'to' after 'route'"
  | routeTarget => "expected route target after 'to'"
  | tooDeep => "expression is nested too deeply"
  | chainedComparison => "comparison operators cannot be chained; combine comparisons with 'and'"
  | operand => "expected expression"
  | badNumber => "invalid number literal"
  | floatRange => "float literal is out of range"
  | intRange => "integer literal is out of range"
  | closeParen => "expected ')' to close parenthesized expression"
  | attrName => "expected attribute name after '.'"
  | closeArguments => "expected ')' to close argument list"

/-- A cause, and kind, text and place of the token to blame. -/
structure SyntaxError where
  cause : Cause
  found : TokenKind
  text : String
  line : Nat
  column : Nat
deriving DecidableEq, Repr

def Cause.at (c : Cause) (t : Token) : SyntaxError :=
  ⟨c, t.kind, t.text, t.span.line, t.span.column⟩

def SyntaxError.message (e : SyntaxError) : String :=
  "syntax error at line " ++ e.line.repr ++ ", column " ++ e.column.repr ++ ": " ++
    e.cause.message ++ " (found " ++ e.found.describe ++ " '" ++ e.text ++ "')"

end PolicyLang
