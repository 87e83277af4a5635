import PolicyLang.Program.Parser
import PolicyLang.Proofs.Parser.Within
import PolicyLang.Proofs.Tree.Nesting

/-!
# Reading within the limit

With a limit of `n`, the conditions that are read nest less deep than `n`, and `n` tokens have been
read when the limit is used up.
-/

namespace PolicyLang.Parser

/-! ## Conditions -/

/-- A parser of conditions with `n` units for them. -/
abbrev Nests (n : Nat) : Parser Expr → Prop := Within n fun e => e.nest < n

theorem ofNumber_ne_tooDeep {text : String} {c : Cause} (h : Literal.ofNumber text = .error c) :
    c ≠ .tooDeep := by
  rintro rfl
  unfold Literal.ofNumber at h
  split at h
  · split at h
    · cases h
    · split at h <;> cases h
  · split at h <;> cases h

theorem within_tail {α : Type} {n : Nat} {Q : α → Prop} {p : Parser α} (k : TokenKind)
    (h : Within n Q p) :
    Within n (fun as => ∀ a ∈ as, Q a) (many fun t => if t.kind = k then .item p else .stop) := by
  refine (within_many (fun t c hc => ?_) fun t q hq => ?_).of_le (Nat.le_succ n)
  · split at hc <;> cases hc
  · split at hq
    · cases hq
      exact h
    · cases hq

section
variable {n : Nat} {expr : Parser Expr} (h : Nests n expr)
include h

theorem within_arguments : Within n (fun a => ∀ e ∈ a.args, e.nest < n) (arguments expr) := by
  refine within_branch ?_ fun t p hp => ?_
  · refine h.bind fun e he => (within_tail .comma h).bind fun es hes => ?_
    exact (within_expect _ (by decide)).bind fun _ _ =>
      within_pure (List.forall_mem_cons.mpr ⟨he, hes⟩)
  · split at hp
    · cases hp
      exact within_pure (List.forall_mem_nil _)
    · cases hp

theorem within_arguments? : Within n (Expr.CallNests n) (arguments? expr) := by
  refine within_branch (within_pure fun _ ha => by cases ha) fun t p hp => ?_
  split at hp
  · cases hp
    refine ((within_arguments h).map fun a ha b hb => ?_).of_le (Nat.sub_le n 1)
    cases hb
    exact ha
  · cases hp

theorem within_link : Within n (fun l => Expr.CallNests n l.call) (link expr) := by
  refine (within_next (by decide) (fun t d hd => ?_) fun t p hp => ?_).of_le (Nat.le_succ n)
  · split at hd
    · cases hd
    · cases hd
      decide
  · split at hp
    · cases hp
      exact (within_arguments? h).bind fun c hc => within_pure hc
    · cases hp

theorem within_chain (t : Token) : Within n (fun e => e.nest ≤ n) (chain expr t) := by
  refine (within_arguments? h).bind fun c hc => ?_
  refine (within_tail .dot (within_link h)).bind fun ls hls => within_pure ?_
  exact Expr.nest_foldl_linked (Expr.nest_called (Nat.zero_le n) hc) hls

theorem within_parenthesised : Within n (fun e => e.nest ≤ n) (parenthesised expr) :=
  h.bind fun _ he => (within_expect _ (by decide)).bind fun _ _ => within_pure (Nat.le_of_lt he)

theorem nests_value : Nests (n + 1) (value expr) := by
  have hall : Within (n + 1) (fun e => e.nest ≤ n) (value expr) := by
    refine within_next (by decide) (fun t d hd => ?_) fun t p hp => ?_
    · split at hd
      · cases hl : Literal.ofNumber t.text with
        | error c => rw [hl] at hd; cases hd; exact ofNumber_ne_tooDeep hl
        | ok l => rw [hl] at hd; cases hd
      all_goals cases hd
      decide
    · split at hp
      · cases hl : Literal.ofNumber t.text with
        | error c => rw [hl] at hp; cases hp
        | ok l => rw [hl] at hp; cases hp; exact within_pure (Nat.zero_le n)
      · cases hp; exact within_pure (Nat.zero_le n)
      · cases hp; exact within_pure (Nat.zero_le n)
      · cases hp; exact within_parenthesised h
      · cases hp; exact within_chain h t
      · cases hp
  exact hall.mono fun _ he => Nat.lt_succ_of_le he

theorem nests_comparison : Nests (n + 1) (comparison expr) := by
  refine (nests_value h).bind fun e he => within_branch (within_pure he) fun t p hp => ?_
  split at hp
  · cases hp
    refine ((nests_value h).bind fun f hf => ?_).of_le (Nat.le_succ n)
    exact (within_refuse _ (by decide)).bind fun _ _ => within_pure (Nat.max_lt.mpr ⟨he, hf⟩)
  · cases hp

theorem nests_unary {operand : Parser Expr} (ho : Nests n operand) :
    Nests (n + 1) (unary operand expr) := by
  refine within_branch (nests_comparison h) fun t p hp => ?_
  split at hp
  · cases hp
    refine ho.bind fun e he => within_pure ?_
    rw [Expr.nest]
    omega
  · cases hp

end

theorem nests_leftAssoc {n : Nat} (op : BinaryOp) (k : TokenKind) {operand : Parser Expr}
    (h : Nests n operand) : Nests n (leftAssoc op k operand) :=
  h.bind fun _ he => (within_tail k h).bind fun _ hes => within_pure (Expr.nest_foldl_join he hes)

theorem nests_disjunction {n : Nat} {operand : Parser Expr} (h : Nests n operand) :
    Nests n (disjunction operand) :=
  nests_leftAssoc .or .kwOr (nests_leftAssoc .and .kwAnd h)

theorem nests_negation : ∀ n, Nests (n + 1) (negation n)
  | 0 => nests_unary (within_tooDeep _) (within_tooDeep _)
  | n + 1 => nests_unary (nests_disjunction (nests_negation n)) (nests_negation n)

theorem nests_expression : ∀ n, Nests n (expression n)
  | 0 => within_tooDeep _
  | n + 1 => nests_disjunction (nests_negation n)

/-! ## Clauses -/

section
variable {k : Nat}

theorem within_plainAction (t : Token) (v : Verdict) :
    Within k (fun _ => True) (plainAction t v) :=
  (within_refuse _ (by decide)).bind fun _ _ => within_pure trivial

theorem within_actionAfter (t : Token) : ∀ v, Within k (fun _ => True) (actionAfter t v)
  | .deny => within_plainAction t .deny
  | .allow => within_plainAction t .allow
  | .escalate => within_plainAction t .escalate
  | .route => (within_expect _ (by decide)).bind fun _ _ =>
      (within_expect _ (by decide)).bind fun _ _ => within_pure trivial

theorem within_action : Within k (fun _ => True) action := by
  refine (within_next (by decide) (fun t d hd => ?_) fun t p hp => ?_).of_le (Nat.le_succ k)
  · split at hd <;> cases hd
    decide
  · split at hp
    · cases hp
      exact within_actionAfter t _
    · cases hp

theorem ofNumber_priority_ne_tooDeep {text : String} {c : Cause}
    (h : Priority.ofNumber text = .error c) : c ≠ .tooDeep := by
  rintro rfl
  unfold Priority.ofNumber at h
  split at h
  · cases h
  · split at h <;> cases h

theorem within_priorityAfter (t : Token) : Within k (fun _ => True) (priorityAfter t) := by
  refine (within_next (by decide) (fun u d hd => ?_) fun u p hp => ?_).of_le (Nat.le_succ k)
  · split at hd
    · cases hn : Priority.ofNumber u.text with
      | error c => rw [hn] at hd; cases hd; exact ofNumber_priority_ne_tooDeep hn
      | ok n => rw [hn] at hd; cases hd
    · cases hd
      decide
  · split at hp
    · cases hn : Priority.ofNumber u.text with
      | error c => rw [hn] at hp; cases hp
      | ok n => rw [hn] at hp; cases hp; exact within_pure trivial
    · cases hp

theorem within_category : Within k (fun _ => True) category := by
  refine (within_next (by decide) (fun t d hd => ?_) fun t p hp => ?_).of_le (Nat.le_succ k)
  · split at hd <;> cases hd
    decide
  · split at hp
    · cases hp
      exact within_pure trivial
    · cases hp

end

section
variable (n : Nat)

theorem within_guardAfter (t : Token) :
    Within n (fun g => g.condition.nest < n) (guardAfter n t) :=
  (nests_expression n).bind fun _ he => (within_expect _ (by decide)).bind fun _ _ =>
    within_action.bind fun _ _ => within_pure he

theorem within_clauseAfter? {t : Token} {p : Parser Clause} (h : clauseAfter? n t = some p) :
    Within n (fun c => Shallow n c.conditions) p := by
  unfold clauseAfter? at h
  split at h
  · cases h
    exact (within_guardAfter n t).map fun g hg => List.forall_mem_singleton.mpr hg
  · cases h
    exact (within_priorityAfter t).map fun _ _ => shallow_nil n
  · cases h
    exact (within_actionAfter t _).map fun _ _ => shallow_nil n
  · cases h

/-! ## Declarations -/

theorem within_ruleBody :
    Within n (fun body => ∀ c ∈ body, Shallow n c.conditions) (many (ruleStep n)) := by
  refine (within_many (fun t c hc => ?_) fun t p hp => ?_).of_le (Nat.le_succ n)
  · unfold ruleStep at hc
    split at hc
    · cases hc
    · split at hc <;> cases hc
      decide
  · unfold ruleStep at hp
    split at hp
    · cases hp
    · split at hp
      · rename_i hq
        cases hp
        exact within_clauseAfter? n hq
      · cases hp

theorem within_ruleAfterName (t name : Token) :
    Within n (fun r => Shallow n r.conditions) (ruleAfterName n t name) :=
  within_category.bind fun _ _ => (within_expect _ (by decide)).bind fun _ _ =>
    (within_ruleBody n).bind fun _ hbody => (within_expect _ (by simp)).bind fun _ _ =>
      within_pure (shallow_flatMap hbody)

theorem within_ruleAfter (t : Token) :
    Within n (fun r => Shallow n r.conditions) (ruleAfter n t) :=
  (within_expect _ (by decide)).bind fun _ _ => (within_expect _ (by decide)).bind fun _ _ =>
    within_ruleAfterName n t _

theorem within_ruleItemAfter (t : Token) :
    Within n (fun i => Shallow n i.conditions) (ruleItemAfter n t) := by
  refine (within_expect _ (by decide)).bind fun name _ => ?_
  refine within_branch (within_pure (shallow_nil n)) fun o p hp => ?_
  split at hp
  · cases hp
    have hrule : Within n (fun i => Shallow n i.conditions)
        (PolicyItem.rule <$> ruleAfterName n t name) :=
      (within_ruleAfterName n t name).map fun _ hr => hr
    exact hrule.of_le (Nat.sub_le n 1)
  · cases hp

theorem within_policyBody :
    Within n (fun body => ∀ i ∈ body, Shallow n i.conditions) (many (policyStep n)) := by
  refine (within_many (fun t c hc => ?_) fun t p hp => ?_).of_le (Nat.le_succ n)
  · unfold policyStep at hc
    split at hc
    · cases hc
    · cases hc
    · split at hc <;> cases hc
      decide
  · unfold policyStep at hp
    split at hp
    · cases hp
    · cases hp
      exact within_ruleItemAfter n t
    · split at hp
      · rename_i hq
        cases hp
        exact (within_clauseAfter? n hq).map fun _ hc => hc
      · cases hp

theorem within_policyAfter (t : Token) :
    Within n (fun p => Shallow n p.conditions) (policyAfter n t) :=
  (within_expect _ (by decide)).bind fun _ _ => (within_expect _ (by decide)).bind fun _ _ =>
    within_category.bind fun _ _ => (within_expect _ (by decide)).bind fun _ _ =>
      (within_policyBody n).bind fun _ hbody => (within_expect _ (by simp)).bind fun _ _ =>
        within_pure (shallow_flatMap hbody)

theorem within_importAfter (t : Token) : Within n (fun _ => True) (importAfter t) :=
  (within_expect _ (by decide)).bind fun _ _ => within_pure trivial

/-- A document that is read within the limit `n` has no condition that nests as deep as `n`, and more
than `n` tokens stand before a place where the limit is used up. -/
theorem within_document :
    Within (n + 1) (fun ss => ∀ s ∈ ss, Shallow n s.conditions) (document n) := by
  refine within_many (fun t c hc => ?_) fun t p hp => ?_
  · unfold statementStep at hc
    split at hc <;> cases hc
    decide
  · unfold statementStep at hp
    split at hp
    · cases hp
      exact (within_policyAfter n t).map fun _ hp => hp
    · cases hp
      exact (within_ruleAfter n t).map fun _ hr => hr
    · cases hp
      exact (within_importAfter n t).map fun _ _ => shallow_nil n
    · cases hp

end

end PolicyLang.Parser
