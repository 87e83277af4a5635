/-!
# The words of a policy

Categories sort policies and rules, verbs name what a rule decides, comparisons and connectives
build conditions.
-/

namespace PolicyLang

inductive Category where
  | safety | privacy | operational | routing | custom
deriving DecidableEq, Repr

namespace Category

def all : List Category := [safety, privacy, operational, routing, custom]

def name : Category → String
  | safety => "safety"
  | privacy => "privacy"
  | operational => "operational"
  | routing => "routing"
  | custom => "custom"

end Category

inductive Verb where
  | deny | allow | escalate | route
deriving DecidableEq, Repr

namespace Verb

def all : List Verb := [deny, allow, escalate, route]

def name : Verb → String
  | deny => "deny"
  | allow => "allow"
  | escalate => "escalate"
  | route => "route"

end Verb

inductive Comparison where
  | eq | ne | lt | gt | le | ge
deriving DecidableEq, Repr

def Comparison.symbol : Comparison → String
  | eq => "=="
  | ne => "!="
  | lt => "<"
  | gt => ">"
  | le => "<="
  | ge => ">="

/-- An operator between two conditions or two values. -/
inductive BinaryOp where
  | and
  | or
  | compare (c : Comparison)
deriving DecidableEq, Repr

def BinaryOp.symbol : BinaryOp → String
  | and => "and"
  | or => "or"
  | compare c => c.symbol

end PolicyLang
