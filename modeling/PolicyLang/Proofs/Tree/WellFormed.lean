import PolicyLang.Proofs.Lexical.Language
import PolicyLang.Proofs.Number.Numeral
import PolicyLang.Program.Basic

/-!
# Well-formed trees

The trees that can be written: names are words, numbers have no sign, and calls and attributes stand
on what can be called or has attributes. `depth` and `need` say how deep a tree nests in canonical
text, where every operator has its own parentheses.
-/

namespace PolicyLang

open Lexical

def IsWord (s : String) : Prop :=
  ∃ c cs, s.toList = c :: cs ∧ Letter c ∧ ∀ d ∈ cs, WordChar d

/-- A word that is not a keyword. -/
def IsName (s : String) : Prop := IsWord s ∧ ∀ k, ¬ Spells s.toList k

def Literal.WellFormed : Literal → Prop
  | int n => Unsigned n
  | float x => x.Unsigned
  | str _ | bool _ => True

namespace Expr

/-! ## Conditions -/

/-- What can be called: a name or an attribute. -/
def IsCallee : Expr → Prop
  | ident .. | attr .. => True
  | _ => False

/-- What can have attributes: a name, an attribute or a call. -/
def IsObject : Expr → Prop
  | ident .. | attr .. | call .. => True
  | _ => False

mutual

def WellFormed : Expr → Prop
  | literal v _ => v.WellFormed
  | ident name _ => IsName name
  | attr object name _ => object.WellFormed ∧ object.IsObject ∧ IsWord name
  | call callee args _ => callee.WellFormed ∧ callee.IsCallee ∧ AllWellFormed args
  | negate operand _ => operand.WellFormed
  | binary _ left right _ => left.WellFormed ∧ right.WellFormed

def AllWellFormed : List Expr → Prop
  | [] => True
  | e :: es => e.WellFormed ∧ AllWellFormed es

end

mutual

/-- How deep a condition nests in canonical text: an operator's parentheses count one, and so do
`not` and the place of an argument. -/
def depth : Expr → Nat
  | literal .. | ident .. => 0
  | attr object _ _ => object.depth
  | call callee args _ => max callee.depth (argsDepth args)
  | negate operand _ => operand.depth + 2
  | binary _ left right _ => max left.depth right.depth + 1

def argsDepth : List Expr → Nat
  | [] => 0
  | e :: es => max (e.depth + 1) (argsDepth es)

end

theorem IsCallee.isObject {e : Expr} (h : e.IsCallee) : e.IsObject := by
  cases e <;> first | exact h | trivial

end Expr

/-! ## Clauses -/

def Verdict.WellFormed : Verdict → Prop
  | route t => IsName t.name
  | _ => True

def Action.WellFormed (a : Action) : Prop := a.verdict.WellFormed

def Guard.WellFormed (g : Guard) : Prop := g.condition.WellFormed ∧ g.action.WellFormed

def Clause.WellFormed : Clause → Prop
  | priority p => Unsigned p.value
  | guard g => g.WellFormed
  | action a => a.WellFormed

def Clause.need : Clause → Nat
  | guard g => g.condition.depth + 1
  | _ => 0

/-! ## Declarations -/

def largest {α : Type} (need : α → Nat) (as : List α) : Nat := (as.map need).foldr max 0

def Rule.WellFormed (r : Rule) : Prop := IsName r.name ∧ ∀ c ∈ r.body, c.WellFormed

def Rule.need (r : Rule) : Nat := largest Clause.need r.body

def PolicyItem.WellFormed : PolicyItem → Prop
  | ref r => IsName r.name
  | rule r => r.WellFormed
  | clause c => c.WellFormed

def PolicyItem.need : PolicyItem → Nat
  | ref _ => 0
  | rule r => r.need
  | clause c => c.need

def Policy.WellFormed (p : Policy) : Prop := IsName p.name ∧ ∀ i ∈ p.body, i.WellFormed

def Policy.need (p : Policy) : Nat := largest PolicyItem.need p.body

def Statement.WellFormed : Statement → Prop
  | policy p => p.WellFormed
  | rule r => r.WellFormed
  | imports _ => True

def Statement.need : Statement → Nat
  | policy p => p.need
  | rule r => r.need
  | imports _ => 0

def Program.WellFormed (p : Program) : Prop := ∀ s ∈ p.statements, s.WellFormed

/-- The limit that the canonical text of a program needs: one for each condition, and how deep it
nests. -/
def Program.need (p : Program) : Nat := largest Statement.need p.statements

end PolicyLang
