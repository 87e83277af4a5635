import PolicyLang.Program.Parser
import PolicyLang.Proofs.Parser.Lockstep

/-!
# All parsers run in lockstep

Two runs of the same parser agree, and so do a run with some budget and one with a larger one until
the smaller one is used up. Results are the same up to the spans that are compared.
-/

namespace PolicyLang.Pairing

open PolicyLang.Parser

variable (P : Pairing)

/-! ## Conditions -/

def SameExpr (e f : Expr) : Prop := e.mapSpans P.left = f.mapSpans P.right

def SameArguments (a b : Arguments) : Prop :=
  List.Forall₂ P.SameExpr a.args b.args ∧ P.left a.close = P.right b.close

def SameCall : Option Arguments → Option Arguments → Prop
  | none, none => True
  | some a, some b => P.SameArguments a b
  | _, _ => False

def SameLink (l m : Link) : Prop := P.Same l.name m.name ∧ P.SameCall l.call m.call

variable {P}

theorem SameExpr.span {e f : Expr} (h : P.SameExpr e f) : P.left e.span = P.right f.span := by
  have := congrArg Expr.span (id h : e.mapSpans P.left = f.mapSpans P.right)
  simpa using this

theorem SameExpr.join {e f e' f' : Expr} (op : BinaryOp) (h : P.SameExpr e e')
    (h' : P.SameExpr f f') : P.SameExpr (.join op e f) (.join op e' f') := by
  simp only [SameExpr, Expr.join, Expr.mapSpans] at *
  rw [h, h', P.join (SameExpr.span h) (SameExpr.span h')]

theorem mapSpansAll_eq_of_forall₂ {es fs : List Expr} (h : List.Forall₂ P.SameExpr es fs) :
    Expr.mapSpansAll P.left es = Expr.mapSpansAll P.right fs := by
  induction h with
  | nil => rfl
  | cons he _ ih => rw [Expr.mapSpansAll, Expr.mapSpansAll, he, ih]

theorem SameExpr.called {e f : Expr} {c d : Option Arguments} (h : P.SameExpr e f)
    (hc : P.SameCall c d) : P.SameExpr (e.called c) (f.called d) := by
  cases c with
  | none =>
    cases d with
    | none => exact h
    | some b => exact hc.elim
  | some a =>
    cases d with
    | none => exact hc.elim
    | some b =>
      have hs := P.join h.span hc.2
      simp only [SameExpr, Expr.called, Expr.mapSpans] at *
      rw [h, mapSpansAll_eq_of_forall₂ hc.1, hs]

theorem SameExpr.linked {e f : Expr} {l m : Link} (h : P.SameExpr e f) (hl : P.SameLink l m) :
    P.SameExpr (e.linked l) (f.linked m) := by
  refine SameExpr.called ?_ hl.2
  have hs := P.join h.span hl.1.span
  simp only [SameExpr, Expr.mapSpans] at *
  rw [h, hl.1.text, hs]

theorem SameExpr.foldl {α β : Type} {R : α → β → Prop} (f : Expr → α → Expr) (g : Expr → β → Expr)
    {as : List α} {bs : List β} (h : List.Forall₂ R as bs) {e e' : Expr} (he : P.SameExpr e e')
    (hfg : ∀ e e' a b, P.SameExpr e e' → R a b → P.SameExpr (f e a) (g e' b)) :
    P.SameExpr (as.foldl f e) (bs.foldl g e') := by
  induction h generalizing e e' with
  | nil => exact he
  | cons hab _ ih => exact ih (hfg _ _ _ _ he hab)

theorem SameExpr.negate {t u : Token} {e f : Expr} (ht : P.Same t u) (h : P.SameExpr e f) :
    P.SameExpr (.negate e (t.span.to e.span)) (.negate f (u.span.to f.span)) := by
  have hs := P.join ht.span h.span
  simp only [SameExpr, Expr.mapSpans] at *
  rw [h, hs]

theorem sameExpr_literal {t u : Token} (ht : P.Same t u) (l : Literal) :
    P.SameExpr (.literal l t.span) (.literal l u.span) := by
  simp only [SameExpr, Expr.mapSpans, ht.span]

theorem sameExpr_ident {t u : Token} (ht : P.Same t u) :
    P.SameExpr (.ident t.text t.span) (.ident u.text u.span) := by
  simp only [SameExpr, Expr.mapSpans, ht.span, ht.text]

theorem lockstep_tail {α β : Type} {R : α → β → Prop} {p : Parser α} {q : Parser β} (k : TokenKind)
    (h : P.Lockstep R p q) :
    P.Lockstep (List.Forall₂ R) (many fun t => if t.kind = k then .item p else .stop)
      (many fun t => if t.kind = k then .item q else .stop) := by
  apply lockstep_many
  intro t u ht
  rw [← ht.kind]
  by_cases hk : t.kind = k
  · rw [if_pos hk, if_pos hk]; exact h
  · rw [if_neg hk, if_neg hk]; trivial

theorem sameChoice_ite {α β : Type} {R : α → β → Prop} {t u : Token} {k : TokenKind} {p : Parser α}
    {q : Parser β} (ht : P.Same t u) (h : t.kind = k → P.Lockstep R p q) :
    SameChoice P R (if t.kind = k then some p else none) (if u.kind = k then some q else none) := by
  rw [← ht.kind]
  by_cases hk : t.kind = k
  · rw [if_pos hk, if_pos hk]; exact h hk
  · rw [if_neg hk, if_neg hk]; trivial

section
variable {expr expr' : Parser Expr} (h : P.Lockstep P.SameExpr expr expr')
include h

theorem lockstep_arguments : P.Lockstep P.SameArguments (arguments expr) (arguments expr') := by
  refine lockstep_branch ?_ fun t u ht => sameChoice_ite ht fun _ => lockstep_pure ⟨.nil, ht.span⟩
  apply lockstep_bind h
  intro e f hef
  apply lockstep_bind (lockstep_tail .comma h)
  intro es fs hs
  exact lockstep_bind (lockstep_expect _ _) fun t u ht => lockstep_pure ⟨.cons hef hs, ht.span⟩

theorem lockstep_arguments? : P.Lockstep P.SameCall (arguments? expr) (arguments? expr') :=
  lockstep_branch (lockstep_pure trivial) fun _ _ ht => sameChoice_ite ht fun _ =>
    lockstep_map (lockstep_arguments h) fun _ _ hab => hab

theorem lockstep_link : P.Lockstep P.SameLink (link expr) (link expr') := by
  apply lockstep_next
  intro t u ht
  rw [← ht.kind]
  by_cases hk : t.kind = .ident ∨ t.kind.isKeyword = true
  · rw [if_pos hk, if_pos hk]
    exact lockstep_bind (lockstep_arguments? h) fun c d hcd => lockstep_pure ⟨ht, hcd⟩
  · rw [if_neg hk, if_neg hk]
    exact rfl

theorem lockstep_chain {t u : Token} (ht : P.Same t u) :
    P.Lockstep P.SameExpr (chain expr t) (chain expr' u) := by
  refine lockstep_bind (lockstep_arguments? h) fun c d hcd => ?_
  refine lockstep_bind (lockstep_tail .dot (lockstep_link h)) fun ls ms hs => lockstep_pure ?_
  exact SameExpr.foldl Expr.linked Expr.linked hs ((sameExpr_ident ht).called hcd)
    fun _ _ _ _ he hl => he.linked hl

theorem lockstep_parenthesised :
    P.Lockstep P.SameExpr (parenthesised expr) (parenthesised expr') :=
  lockstep_bind h fun _ _ hef => lockstep_bind (lockstep_expect _ _) fun _ _ _ => lockstep_pure hef

theorem lockstep_value : P.Lockstep P.SameExpr (value expr) (value expr') := by
  apply lockstep_next
  intro t u ht
  rw [← ht.kind, ← ht.text]
  split
  · cases Literal.ofNumber t.text with
    | error c => exact rfl
    | ok l => exact lockstep_pure (sameExpr_literal ht l)
  · exact lockstep_pure (sameExpr_literal ht _)
  · exact lockstep_pure (sameExpr_literal ht _)
  · exact lockstep_parenthesised h
  · exact lockstep_chain h ht
  · exact rfl

theorem lockstep_comparison : P.Lockstep P.SameExpr (comparison expr) (comparison expr') := by
  apply lockstep_bind (lockstep_value h)
  intro e e' he
  apply lockstep_branch (lockstep_pure he)
  intro t u ht
  rw [← ht.kind]
  split
  · apply lockstep_bind (lockstep_value h)
    intro f f' hf
    exact lockstep_bind (lockstep_refuse _ _) fun _ _ _ => lockstep_pure (he.join _ hf)
  · trivial

theorem lockstep_unary {operand operand' : Parser Expr}
    (ho : P.Lockstep P.SameExpr operand operand') :
    P.Lockstep P.SameExpr (unary operand expr) (unary operand' expr') :=
  lockstep_branch (lockstep_comparison h) fun _ _ ht => sameChoice_ite ht fun _ =>
    lockstep_bind ho fun _ _ he => lockstep_pure (.negate ht he)

end

theorem lockstep_leftAssoc (op : BinaryOp) (k : TokenKind) {operand operand' : Parser Expr}
    (h : P.Lockstep P.SameExpr operand operand') :
    P.Lockstep P.SameExpr (leftAssoc op k operand) (leftAssoc op k operand') :=
  lockstep_bind h fun _ _ he => lockstep_bind (lockstep_tail k h) fun _ _ hs =>
    lockstep_pure (SameExpr.foldl (Expr.join op) (Expr.join op) hs he fun _ _ _ _ he hf =>
      he.join op hf)

theorem lockstep_disjunction {operand operand' : Parser Expr}
    (h : P.Lockstep P.SameExpr operand operand') :
    P.Lockstep P.SameExpr (disjunction operand) (disjunction operand') :=
  lockstep_leftAssoc .or .kwOr (lockstep_leftAssoc .and .kwAnd h)

variable (P) in
/-- The left budget is the right one or, where there is slack, a smaller one. -/
def Budgets (n m : Nat) : Prop := n = m ∨ P.slack ∧ n ≤ m

theorem Budgets.of_succ {n m : Nat} (h : P.Budgets (n + 1) (m + 1)) : P.Budgets n m := by
  rcases h with h | ⟨hs, h⟩
  · exact .inl (Nat.succ.inj h)
  · exact .inr ⟨hs, Nat.le_of_succ_le_succ h⟩

theorem lockstep_negation {n m : Nat} (h : P.Budgets n m) :
    P.Lockstep P.SameExpr (negation n) (negation m) := by
  -- only with slack can the left budget be used up before the right one
  induction n generalizing m with
  | zero =>
    cases m with
    | zero => exact lockstep_unary (lockstep_fail _) (lockstep_fail _)
    | succ m =>
      obtain ⟨hs, -⟩ : P.slack ∧ 0 ≤ m + 1 := h.resolve_left (by omega)
      exact lockstep_unary (lockstep_tooDeep hs _) (lockstep_tooDeep hs _)
  | succ n ih =>
    cases m with
    | zero => rcases h with h | ⟨-, h⟩ <;> omega
    | succ m => exact lockstep_unary (lockstep_disjunction (ih h.of_succ)) (ih h.of_succ)

theorem lockstep_expression {n m : Nat} (h : P.Budgets n m) :
    P.Lockstep P.SameExpr (expression n) (expression m) := by
  cases n with
  | zero =>
    cases m with
    | zero => exact lockstep_fail _
    | succ m =>
      obtain ⟨hs, -⟩ : P.slack ∧ 0 ≤ m + 1 := h.resolve_left (by omega)
      exact lockstep_tooDeep hs _
  | succ n =>
    cases m with
    | zero => rcases h with h | ⟨-, h⟩ <;> omega
    | succ m => exact lockstep_disjunction (lockstep_negation h.of_succ)

/-! ## Clauses -/

variable (P) in
/-- Two trees are the same up to the spans that are compared. -/
def SameTree {α : Type} (mapSpans : (Span → Span) → α → α) (a b : α) : Prop :=
  mapSpans P.left a = mapSpans P.right b

theorem SameTree.map {α : Type} {m : (Span → Span) → α → α} {as bs : List α}
    (h : List.Forall₂ (P.SameTree m) as bs) : as.map (m P.left) = bs.map (m P.right) := by
  induction h with
  | nil => rfl
  | cons hab _ ih => rw [List.map_cons, List.map_cons, ih, id hab]

theorem lockstep_plainAction {t u : Token} (ht : P.Same t u) {v w : Verdict}
    (hv : v.mapSpans P.left = w.mapSpans P.right) :
    P.Lockstep (P.SameTree Action.mapSpans) (plainAction t v) (plainAction u w) :=
  lockstep_bind (lockstep_refuse _ _) fun _ _ _ => lockstep_pure (by
    simp only [SameTree, Action.mapSpans, hv, ht.span])

theorem lockstep_actionAfter {t u : Token} (ht : P.Same t u) :
    ∀ v, P.Lockstep (P.SameTree Action.mapSpans) (actionAfter t v) (actionAfter u v)
  | .deny => lockstep_plainAction ht rfl
  | .allow => lockstep_plainAction ht rfl
  | .escalate => lockstep_plainAction ht rfl
  | .route => by
    apply lockstep_bind (lockstep_expect _ _)
    intro _ _ _
    refine lockstep_bind (lockstep_expect _ _) fun n m hn => lockstep_pure ?_
    simp only [SameTree, Action.mapSpans, Verdict.mapSpans, Target.mapSpans, hn.text, hn.span,
      P.join ht.span hn.span]

theorem lockstep_action : P.Lockstep (P.SameTree Action.mapSpans) action action := by
  apply lockstep_next
  intro t u ht
  rw [← ht.kind]
  split
  · exact lockstep_actionAfter ht _
  · exact rfl

variable {n m : Nat} (hnm : P.Budgets n m)

include hnm in
theorem lockstep_guardAfter {t u : Token} (ht : P.Same t u) :
    P.Lockstep (P.SameTree Guard.mapSpans) (guardAfter n t) (guardAfter m u) := by
  apply lockstep_bind (lockstep_expression hnm)
  intro e f he
  apply lockstep_bind (lockstep_expect _ _)
  intro _ _ _
  refine lockstep_bind lockstep_action fun a b ha => lockstep_pure ?_
  have hs : P.left a.span = P.right b.span := by
    have := congrArg Action.span (id ha : a.mapSpans P.left = b.mapSpans P.right)
    exact this
  have hj := P.join ht.span hs
  simp only [SameTree, SameExpr, Guard.mapSpans] at *
  rw [he, ha, hj]

theorem lockstep_priorityAfter {t u : Token} (ht : P.Same t u) :
    P.Lockstep (P.SameTree Priority.mapSpans) (priorityAfter t) (priorityAfter u) := by
  apply lockstep_next
  intro k l hk
  rw [← hk.kind, ← hk.text]
  split
  · cases Priority.ofNumber k.text with
    | error c => exact rfl
    | ok v =>
      refine lockstep_pure ?_
      simp only [SameTree, Priority.mapSpans, P.join ht.span hk.span]
  · exact rfl

include hnm in
theorem sameChoice_clauseAfter? {t u : Token} (ht : P.Same t u) :
    SameChoice P (P.SameTree Clause.mapSpans) (clauseAfter? n t) (clauseAfter? m u) := by
  unfold clauseAfter?
  rw [← ht.kind]
  split
  · exact lockstep_map (lockstep_guardAfter hnm ht) fun _ _ => congrArg Clause.guard
  · exact lockstep_map (lockstep_priorityAfter ht) fun _ _ => congrArg Clause.priority
  · exact lockstep_map (lockstep_actionAfter ht _) fun _ _ => congrArg Clause.action
  · trivial

/-! ## Declarations -/

theorem lockstep_category : P.Lockstep Eq category category := by
  apply lockstep_next
  intro t u ht
  rw [← ht.kind]
  split
  · exact lockstep_pure rfl
  · exact rfl

include hnm in
theorem sameStep_ruleStep {t u : Token} (ht : P.Same t u) :
    SameStep P (P.SameTree Clause.mapSpans) (ruleStep n t) (ruleStep m u) := by
  have hc := sameChoice_clauseAfter? hnm ht
  unfold ruleStep
  rw [← ht.kind]
  split
  · trivial
  · rcases hc.cases with ⟨hn, hn'⟩ | ⟨p, q, hp, hq, hpq⟩
    · rw [hn, hn']
      exact rfl
    · rw [hp, hq]
      exact hpq

include hnm in
theorem lockstep_ruleAfterName {t u k l : Token} (ht : P.Same t u) (hk : P.Same k l) :
    P.Lockstep (P.SameTree Rule.mapSpans) (ruleAfterName n t k) (ruleAfterName m u l) := by
  unfold ruleAfterName
  rw [hk.text]
  apply lockstep_bind lockstep_category
  intro c d hc
  subst hc
  apply lockstep_bind (lockstep_expect _ _)
  intro _ _ _
  apply lockstep_bind (lockstep_many fun _ _ ht => sameStep_ruleStep hnm ht)
  intro as bs hs
  refine lockstep_bind (lockstep_expect _ _) fun e f he => lockstep_pure ?_
  simp only [SameTree, Rule.mapSpans, SameTree.map hs, P.join ht.span he.span]

include hnm in
theorem lockstep_ruleAfter {t u : Token} (ht : P.Same t u) :
    P.Lockstep (P.SameTree Rule.mapSpans) (ruleAfter n t) (ruleAfter m u) :=
  lockstep_bind (lockstep_expect _ _) fun _ _ hk => lockstep_bind (lockstep_expect _ _) fun _ _ _ =>
    lockstep_ruleAfterName hnm ht hk

include hnm in
theorem lockstep_ruleItemAfter {t u : Token} (ht : P.Same t u) :
    P.Lockstep (P.SameTree PolicyItem.mapSpans) (ruleItemAfter n t) (ruleItemAfter m u) := by
  apply lockstep_bind (lockstep_expect _ _)
  intro k l hk
  refine lockstep_branch (lockstep_pure ?_) fun _ _ ho => sameChoice_ite ho fun _ => ?_
  · simp only [SameTree, PolicyItem.mapSpans, RuleRef.mapSpans, hk.text, P.join ht.span hk.span]
  · exact lockstep_map (lockstep_ruleAfterName hnm ht hk) fun _ _ => congrArg PolicyItem.rule

include hnm in
theorem sameStep_policyStep {t u : Token} (ht : P.Same t u) :
    SameStep P (P.SameTree PolicyItem.mapSpans) (policyStep n t) (policyStep m u) := by
  have hc := sameChoice_clauseAfter? hnm ht
  unfold policyStep
  rw [← ht.kind]
  split
  · trivial
  · exact lockstep_ruleItemAfter hnm ht
  · rcases hc.cases with ⟨hn, hn'⟩ | ⟨p, q, hp, hq, hpq⟩
    · rw [hn, hn']
      exact rfl
    · rw [hp, hq]
      exact lockstep_map hpq fun _ _ => congrArg PolicyItem.clause

include hnm in
theorem lockstep_policyAfter {t u : Token} (ht : P.Same t u) :
    P.Lockstep (P.SameTree Policy.mapSpans) (policyAfter n t) (policyAfter m u) := by
  apply lockstep_bind (lockstep_expect _ _)
  intro k l hk
  rw [hk.text]
  apply lockstep_bind (lockstep_expect _ _)
  intro _ _ _
  apply lockstep_bind lockstep_category
  intro c d hc
  subst hc
  apply lockstep_bind (lockstep_expect _ _)
  intro _ _ _
  apply lockstep_bind (lockstep_many fun _ _ ht => sameStep_policyStep hnm ht)
  intro as bs hs
  refine lockstep_bind (lockstep_expect _ _) fun e f he => lockstep_pure ?_
  simp only [SameTree, Policy.mapSpans, SameTree.map hs, P.join ht.span he.span]

theorem lockstep_importAfter {t u : Token} (ht : P.Same t u) :
    P.Lockstep (P.SameTree Import.mapSpans) (importAfter t) (importAfter u) :=
  lockstep_bind (lockstep_expect _ _) fun s r hs => lockstep_pure (by
    simp only [SameTree, Import.mapSpans, hs.text, P.join ht.span hs.span])

include hnm in
theorem lockstep_document :
    P.Lockstep (List.Forall₂ (P.SameTree Statement.mapSpans)) (document n) (document m) := by
  apply lockstep_many
  intro t u ht
  unfold statementStep
  rw [← ht.kind]
  split
  · exact lockstep_map (lockstep_policyAfter hnm ht) fun _ _ => congrArg Statement.policy
  · exact lockstep_map (lockstep_ruleAfter hnm ht) fun _ _ => congrArg Statement.rule
  · exact lockstep_map (lockstep_importAfter ht) fun _ _ => congrArg Statement.imports
  · exact rfl

end PolicyLang.Pairing
