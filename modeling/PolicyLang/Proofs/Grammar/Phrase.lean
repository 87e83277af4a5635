import PolicyLang.Number.Binary64
import PolicyLang.Program.Basic
import PolicyLang.Token.Basic

/-!
# The grammar

Which token lists are conditions, clauses, declarations and documents, and the tree of each. A
phrase is a list of tokens without its end mark. Nothing here looks ahead or counts nesting: the
relations say what may be written, not how it is read.
-/

namespace PolicyLang.Grammar

/-! ## Literals -/

/-- A number without a point is an integer of 64 bits, one with a point a finite double. -/
inductive NumberLiteral : String → Literal → Prop
  | int {text n} : '.' ∉ text.toList → readInt? text = some n → NumberLiteral text (.int n)
  | float {text x} : '.' ∈ text.toList → Binary64.read? text = some x → x.isFinite = true →
      NumberLiteral text (.float x)

/-! ## Conditions -/

mutual

/-- `and ('or' and)*`, grouped from the left. -/
inductive OrPhrase : List Token → Expr → Prop
  | mk {us e vs g} : AndPhrase us e → OrTail e vs g → OrPhrase (us ++ vs) g

/-- What may stand behind the condition `e`, and the tree of both. -/
inductive OrTail : Expr → List Token → Expr → Prop
  | nil {e} : OrTail e [] e
  | cons {e t us f vs g} : t.kind = .kwOr → AndPhrase us f →
      OrTail (.binary .or e f (e.span.to f.span)) vs g → OrTail e (t :: (us ++ vs)) g

/-- `not ('and' not)*`, grouped from the left. -/
inductive AndPhrase : List Token → Expr → Prop
  | mk {us e vs g} : NotPhrase us e → AndTail e vs g → AndPhrase (us ++ vs) g

inductive AndTail : Expr → List Token → Expr → Prop
  | nil {e} : AndTail e [] e
  | cons {e t us f vs g} : t.kind = .kwAnd → NotPhrase us f →
      AndTail (.binary .and e f (e.span.to f.span)) vs g → AndTail e (t :: (us ++ vs)) g

inductive NotPhrase : List Token → Expr → Prop
  | not {t us e} : t.kind = .kwNot → NotPhrase us e →
      NotPhrase (t :: us) (.negate e (t.span.to e.span))
  | plain {us e} : ComparisonPhrase us e → NotPhrase us e

/-- At most one comparison stands between two values. -/
inductive ComparisonPhrase : List Token → Expr → Prop
  | value {us e} : ValuePhrase us e → ComparisonPhrase us e
  | compare {us e t c vs f} : ValuePhrase us e → t.kind = .compare c → ValuePhrase vs f →
      ComparisonPhrase (us ++ t :: vs) (.binary (.compare c) e f (e.span.to f.span))

inductive ValuePhrase : List Token → Expr → Prop
  | number {t l} : t.kind = .number → NumberLiteral t.text l → ValuePhrase [t] (.literal l t.span)
  | string {t} : t.kind = .string → ValuePhrase [t] (.literal (.str t.text) t.span)
  | boolean {t b} : t.kind = .boolean b → ValuePhrase [t] (.literal (.bool b) t.span)
  | parens {l us e r} : l.kind = .lparen → OrPhrase us e → r.kind = .rparen →
      ValuePhrase (l :: (us ++ [r])) e
  | chain {t us f vs g} : t.kind = .ident → CallPhrase (.ident t.text t.span) us f →
      LinkTail f vs g → ValuePhrase (t :: (us ++ vs)) g

/-- The condition `e`, or a call of it. -/
inductive CallPhrase : Expr → List Token → Expr → Prop
  | none {e} : CallPhrase e [] e
  | empty {e l r} : l.kind = .lparen → r.kind = .rparen →
      CallPhrase e [l, r] (.call e [] (e.span.to r.span))
  | args {e l us f vs fs r} : l.kind = .lparen → OrPhrase us f → ArgTail vs fs →
      r.kind = .rparen → CallPhrase e (l :: (us ++ (vs ++ [r]))) (.call e (f :: fs) (e.span.to r.span))

inductive ArgTail : List Token → List Expr → Prop
  | nil : ArgTail [] []
  | cons {t us f vs fs} : t.kind = .comma → OrPhrase us f → ArgTail vs fs →
      ArgTail (t :: (us ++ vs)) (f :: fs)

/-- Attributes of the condition `e`, each with the call behind it. Any keyword is a name there. -/
inductive LinkTail : Expr → List Token → Expr → Prop
  | nil {e} : LinkTail e [] e
  | cons {e d n us f vs g} : d.kind = .dot → n.kind = .ident ∨ n.kind.isKeyword = true →
      CallPhrase (.attr e n.text (e.span.to n.span)) us f → LinkTail f vs g →
      LinkTail e (d :: n :: (us ++ vs)) g

end

/-! ## Clauses -/

inductive ActionPhrase : List Token → Action → Prop
  | deny {t} : t.kind = .verb .deny → ActionPhrase [t] ⟨.deny, t.span⟩
  | allow {t} : t.kind = .verb .allow → ActionPhrase [t] ⟨.allow, t.span⟩
  | escalate {t} : t.kind = .verb .escalate → ActionPhrase [t] ⟨.escalate, t.span⟩
  | route {t o n} : t.kind = .verb .route → o.kind = .kwTo → n.kind = .ident →
      ActionPhrase [t, o, n] ⟨.route ⟨n.text, n.span⟩, t.span.to n.span⟩

inductive GuardPhrase : List Token → Guard → Prop
  | mk {w us e t vs a} : w.kind = .kwWhen → OrPhrase us e → t.kind = .kwThen → ActionPhrase vs a →
      GuardPhrase (w :: (us ++ t :: vs)) ⟨e, a, w.span.to a.span⟩

inductive PriorityPhrase : List Token → Priority → Prop
  | mk {p n v} : p.kind = .kwPriority → n.kind = .number → '.' ∉ n.text.toList →
      readInt? n.text = some v → PriorityPhrase [p, n] ⟨v, p.span.to n.span⟩

inductive ClausePhrase : List Token → Clause → Prop
  | priority {us p} : PriorityPhrase us p → ClausePhrase us (.priority p)
  | guard {us g} : GuardPhrase us g → ClausePhrase us (.guard g)
  | action {us a} : ActionPhrase us a → ClausePhrase us (.action a)

/-! ## Declarations -/

inductive Many {α : Type} (D : List Token → α → Prop) : List Token → List α → Prop
  | nil : Many D [] []
  | cons {us a vs as} : D us a → Many D vs as → Many D (us ++ vs) (a :: as)

inductive RulePhrase : List Token → Rule → Prop
  | mk {r n o k c b us body e} : r.kind = .kwRule → n.kind = .ident → o.kind = .colon →
      k.kind = .category c → b.kind = .lbrace → Many ClausePhrase us body → e.kind = .rbrace →
      RulePhrase (r :: n :: o :: k :: b :: (us ++ [e])) ⟨n.text, c, body, r.span.to e.span⟩

inductive ItemPhrase : List Token → PolicyItem → Prop
  | ref {r n} : r.kind = .kwRule → n.kind = .ident →
      ItemPhrase [r, n] (.ref ⟨n.text, r.span.to n.span⟩)
  | rule {us r} : RulePhrase us r → ItemPhrase us (.rule r)
  | clause {us c} : ClausePhrase us c → ItemPhrase us (.clause c)

inductive PolicyPhrase : List Token → Policy → Prop
  | mk {p n o k c b us body e} : p.kind = .kwPolicy → n.kind = .ident → o.kind = .colon →
      k.kind = .category c → b.kind = .lbrace → Many ItemPhrase us body → e.kind = .rbrace →
      PolicyPhrase (p :: n :: o :: k :: b :: (us ++ [e])) ⟨n.text, c, body, p.span.to e.span⟩

inductive ImportPhrase : List Token → Import → Prop
  | mk {i s} : i.kind = .kwImport → s.kind = .string →
      ImportPhrase [i, s] ⟨s.text, i.span.to s.span⟩

inductive StatementPhrase : List Token → Statement → Prop
  | policy {us p} : PolicyPhrase us p → StatementPhrase us (.policy p)
  | rule {us r} : RulePhrase us r → StatementPhrase us (.rule r)
  | imports {us i} : ImportPhrase us i → StatementPhrase us (.imports i)

abbrev Document : List Token → List Statement → Prop := Many StatementPhrase

end PolicyLang.Grammar
