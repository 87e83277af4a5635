import PolicyLang.Proofs.Render.ConditionTokens

/-!
# The tokens of programs

The tokens of a program in canonical text, without their places. Those of a well-formed program are
read as that program, its spans forgotten, and the budget they need is exactly what the program says.
-/

namespace PolicyLang

open PolicyLang.Grammar PolicyLang.Parser

/-! ## Tokens -/

def Verdict.tokens : Verdict → List Token
  | deny => [.bare (.verb .deny) "deny"]
  | allow => [.bare (.verb .allow) "allow"]
  | escalate => [.bare (.verb .escalate) "escalate"]
  | route t => [.bare (.verb .route) "route", .bare .kwTo "to", .bare .ident t.name]

def Clause.tokens : Clause → List Token
  | priority p => [.bare .kwPriority "priority", .bare .number p.value.repr]
  | guard g => .bare .kwWhen "when" ::
      (g.condition.tokens ++ .bare .kwThen "then" :: g.action.verdict.tokens)
  | action a => a.verdict.tokens

def blockTokens (word name : Token) (c : Category) (body : List Token) : List Token :=
  word :: name :: .bare .colon ":" :: .bare (.category c) c.name :: .bare .lbrace "\x7b" ::
    (body ++ [.bare .rbrace "\x7d"])

def Rule.tokens (r : Rule) : List Token :=
  blockTokens (.bare .kwRule "rule") (.bare .ident r.name) r.category (r.body.flatMap Clause.tokens)

def PolicyItem.tokens : PolicyItem → List Token
  | ref r => [.bare .kwRule "rule", .bare .ident r.name]
  | rule r => r.tokens
  | clause c => c.tokens

def Statement.tokens : Statement → List Token
  | policy p => blockTokens (.bare .kwPolicy "policy") (.bare .ident p.name) p.category
      (p.body.flatMap PolicyItem.tokens)
  | rule r => r.tokens
  | imports i => [.bare .kwImport "import", .bare .string i.path]

def Program.tokens (p : Program) : List Token := p.statements.flatMap Statement.tokens

/-! ## Trees without their places -/

abbrev Action.erase (a : Action) : Action := a.mapSpans fun _ => {}

abbrev Clause.erase (c : Clause) : Clause := c.mapSpans fun _ => {}

abbrev Rule.erase (r : Rule) : Rule := r.mapSpans fun _ => {}

abbrev PolicyItem.erase (i : PolicyItem) : PolicyItem := i.mapSpans fun _ => {}

abbrev Statement.erase (s : Statement) : Statement := s.mapSpans fun _ => {}

namespace Grammar

/-! ## Clauses -/

theorem actionPhrase_tokens (a : Action) : ActionPhrase a.verdict.tokens a.erase := by
  obtain ⟨v, s⟩ := a
  cases v with
  | deny => exact .deny rfl
  | allow => exact .allow rfl
  | escalate => exact .escalate rfl
  | route t => exact .route (n := .bare .ident t.name) rfl rfl rfl

theorem reads_clause {c : Clause} (h : c.WellFormed) : ReadsClause c.tokens c.erase c.need := by
  cases c with
  | priority p =>
    exact readsClause_priority (n := .bare .number p.value.repr) rfl rfl
      (Priority.ofNumber_unsigned h)
  | guard g =>
    obtain ⟨he, -⟩ := h
    have hor : ReadsOr g.condition.tokens g.condition.erase g.condition.depth :=
      readsOr_of_not (readsNot_of_comparison (readsComparison_value (reads_value he))
        g.condition.head_tokens)
    exact readsClause_guard (w := .bare .kwWhen "when") (t := .bare .kwThen "then") rfl hor rfl
      (actionPhrase_tokens g.action)
  | action a => exact readsClause_action (actionPhrase_tokens a)

/-! ## Declarations -/

theorem reads_items {α : Type} {step : Nat → Token → Step α} {F G : TokenKind → Prop}
    (hGF : ∀ k, G k → F k) (hG : ∀ n t, G t.kind → step n t = .stop) {tokens : α → List Token}
    {erase : α → α} {need : α → Nat} {as : List α}
    (h : ∀ a ∈ as, ReadsItem step F (tokens a) (erase a) (need a)) :
    ReadsAfter F (fun n => many (step n)) G (as.flatMap tokens) (as.map erase) (largest need as) := by
  induction as with
  | nil => exact reads_items_nil hGF hG
  | cons a as ih =>
    exact reads_items_cons (h a (by simp)) (ih fun b hb => h b (by simp [hb]))

theorem reads_rule {r : Rule} (h : r.WellFormed) : ReadsRule r.tokens r.erase r.need := by
  have hbody : ReadsBody ruleStep (r.body.flatMap Clause.tokens) r.erase.body r.need :=
    reads_items behind_rbrace (fun _ _ ht => if_pos ht) fun c hc => (reads_clause (h.2 c hc)).ruleItem
  exact readsRule_mk (w := .bare .kwRule "rule") (n := .bare .ident r.name)
    (k := .bare (.category r.category) r.category.name) rfl rfl rfl rfl rfl hbody rfl

theorem reads_policyItem {i : PolicyItem} (h : i.WellFormed) :
    ReadsItem policyStep Behind i.tokens i.erase i.need := by
  cases i with
  | ref r => exact readsItem_ref (w := .bare .kwRule "rule") (n := .bare .ident r.name) rfl rfl
  | rule r => exact (reads_rule h).policyItem
  | clause c => exact (reads_clause h).policyItem

theorem reads_statement {s : Statement} (h : s.WellFormed) :
    ReadsItem statementStep (fun _ => True) s.tokens s.erase s.need := by
  cases s with
  | policy p =>
    have hbody : ReadsBody policyStep (p.body.flatMap PolicyItem.tokens)
        (p.body.map PolicyItem.erase) p.need :=
      reads_items behind_rbrace policyStep_rbrace fun i hi => reads_policyItem (h.2 i hi)
    exact readsItem_policy (w := .bare .kwPolicy "policy") (n := .bare .ident p.name)
      (k := .bare (.category p.category) p.category.name) rfl rfl rfl rfl rfl hbody rfl
  | rule r => exact (reads_rule h).statement
  | imports i => exact readsItem_import (i := .bare .kwImport "import") (s := .bare .string i.path) rfl rfl

/-- A well-formed program is read from its tokens, with exactly the budget that it needs. -/
theorem reads_program {p : Program} (h : p.WellFormed) :
    ReadsDocument p.tokens p.erase.statements p.need :=
  reads_items (fun _ => False.elim) (fun _ _ => False.elim) fun s hs => reads_statement (h s hs)

end Grammar

end PolicyLang
