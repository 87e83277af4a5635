import PolicyLang.Number.Shortest
import PolicyLang.Program.Basic
import PolicyLang.Text.Dump
import PolicyLang.Text.Quoted

/-!
# Programs as dumps

Shows every field of every node, spans included.
-/

namespace PolicyLang

open Dump

def quotedListing (s : String) : String := String.ofList (Quoted.listing s.toList)

def textDump (s : String) : Dump := atom (quotedListing s)

def Span.dump (s : Span) : Dump :=
  record "Span" [field "line" (atom s.line.repr), field "column" (atom s.column.repr),
    field "start" (atom s.start.repr), field "end" (atom s.stop.repr)]

def spanField (s : Span) : Dump := field "span" s.dump

/-! ## Conditions -/

def Literal.dump : Literal → Dump
  | int n => variant "Int" (atom n.repr)
  | float x => variant "Float" (atom x.compact)
  | str s => variant "Str" (textDump s)
  | bool true => variant "Bool" (atom "true")
  | bool false => variant "Bool" (atom "false")

def BinaryOp.dump : BinaryOp → Dump
  | and => atom "And"
  | or => atom "Or"
  | compare .eq => atom "Eq"
  | compare .ne => atom "Ne"
  | compare .lt => atom "Lt"
  | compare .gt => atom "Gt"
  | compare .le => atom "Le"
  | compare .ge => atom "Ge"

namespace Expr

/-- An expression apart from its shape, which is `kind`. -/
def node (kind : Dump) (s : Span) : Dump := record "Expr" [field "kind" kind, spanField s]

mutual

def dump : Expr → Dump
  | literal v s => node (variant "Literal" v.dump) s
  | ident name s => node (variant "Ident" (textDump name)) s
  | attr object name s =>
    node (record "AttrAccess" [field "object" object.dump, field "attr" (textDump name)]) s
  | call callee args s =>
    node (record "FuncCall" [field "callee" callee.dump, field "args" (list (dumpAll args))]) s
  | negate operand s =>
    node (record "UnaryOp" [field "op" (atom "Not"), field "operand" operand.dump]) s
  | binary op left right s =>
    node (record "BinaryOp"
      [field "op" op.dump, field "left" left.dump, field "right" right.dump]) s

def dumpAll : List Expr → List Dump
  | [] => []
  | e :: es => e.dump :: dumpAll es

end

end Expr

/-! ## Clauses -/

def Target.dump (t : Target) : Dump :=
  record "RouteTarget" [field "target" (textDump t.name), spanField t.span]

def Verdict.dump : Verdict → Dump
  | deny => atom "Deny"
  | allow => atom "Allow"
  | escalate => atom "Escalate"
  | route t => variant "Route" t.dump

def Action.dump (a : Action) : Dump :=
  record "ActionBlock" [field "verdict" a.verdict.dump, spanField a.span]

def Guard.dump (g : Guard) : Dump :=
  record "ConditionBlock"
    [field "condition" g.condition.dump, field "action" g.action.dump, spanField g.span]

def Priority.dump (p : Priority) : Dump :=
  record "Priority" [field "value" (atom p.value.repr), spanField p.span]

def Clause.dump : Clause → Dump
  | priority p => variant "Priority" p.dump
  | guard g => variant "Condition" g.dump
  | action a => variant "Action" a.dump

/-! ## Declarations -/

def Category.dump : Category → Dump
  | safety => atom "Safety"
  | privacy => atom "Privacy"
  | operational => atom "Operational"
  | routing => atom "Routing"
  | custom => atom "Custom"

def declarationDump (kind name : String) (category : Category) (body : List Dump) (s : Span) :
    Dump :=
  record kind [field "name" (textDump name), field "category" category.dump,
    field "body" (list body), spanField s]

def Rule.dump (r : Rule) : Dump :=
  declarationDump "RuleDecl" r.name r.category (r.body.map Clause.dump) r.span

def RuleRef.dump (r : RuleRef) : Dump :=
  record "RuleRef" [field "name" (textDump r.name), spanField r.span]

def PolicyItem.dump : PolicyItem → Dump
  | ref r => variant "RuleRef" r.dump
  | rule r => variant "Rule" r.dump
  | clause c => c.dump

def Policy.dump (p : Policy) : Dump :=
  declarationDump "PolicyDecl" p.name p.category (p.body.map PolicyItem.dump) p.span

def Import.dump (i : Import) : Dump :=
  record "Import" [field "path" (textDump i.path), spanField i.span]

def Statement.dump : Statement → Dump
  | policy p => variant "Policy" p.dump
  | rule r => variant "Rule" r.dump
  | imports i => variant "Import" i.dump

def Program.dump (p : Program) : Dump :=
  record "Program" [field "statements" (list (p.statements.map Statement.dump)), spanField p.span]

end PolicyLang
