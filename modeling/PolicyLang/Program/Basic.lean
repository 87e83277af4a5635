import PolicyLang.Expr.Basic

/-!
# Programs

A program is a list of policies, rules and imports. Rules are made of clauses; a policy holds
clauses too, and besides them rules of its own and references to rules declared elsewhere.
-/

namespace PolicyLang

/-! ## Clauses -/

structure Target where
  name : String
  span : Span
deriving DecidableEq, Repr

inductive Verdict where
  | deny
  | allow
  | escalate
  | route (target : Target)
deriving DecidableEq, Repr

def Verdict.verb : Verdict → Verb
  | deny => .deny
  | allow => .allow
  | escalate => .escalate
  | route _ => .route

structure Action where
  verdict : Verdict
  span : Span
deriving DecidableEq, Repr

structure Guard where
  condition : Expr
  action : Action
  span : Span
deriving DecidableEq, Repr

structure Priority where
  value : Int
  span : Span
deriving DecidableEq, Repr

inductive Clause where
  | priority (p : Priority)
  | guard (g : Guard)
  | action (a : Action)
deriving DecidableEq, Repr

/-! ## Declarations -/

structure Rule where
  name : String
  category : Category
  body : List Clause
  span : Span
deriving DecidableEq, Repr

/-- The name of a rule that is declared elsewhere. -/
structure RuleRef where
  name : String
  span : Span
deriving DecidableEq, Repr

inductive PolicyItem where
  | ref (r : RuleRef)
  | rule (r : Rule)
  | clause (c : Clause)
deriving DecidableEq, Repr

structure Policy where
  name : String
  category : Category
  body : List PolicyItem
  span : Span
deriving DecidableEq, Repr

structure Import where
  path : String
  span : Span
deriving DecidableEq, Repr

inductive Statement where
  | policy (p : Policy)
  | rule (r : Rule)
  | imports (i : Import)
deriving DecidableEq, Repr

structure Program where
  statements : List Statement
  span : Span
deriving DecidableEq, Repr

namespace Program

def policies (p : Program) : List Policy :=
  p.statements.filterMap fun | .policy q => some q | _ => none

/-- The rules at the top level; those inside policies are not among them. -/
def rules (p : Program) : List Rule :=
  p.statements.filterMap fun | .rule r => some r | _ => none

def imports (p : Program) : List Import :=
  p.statements.filterMap fun | .imports i => some i | _ => none

end Program

end PolicyLang
