import PolicyLang.Proofs.Grammar.Completeness
import PolicyLang.Proofs.Grammar.Soundness
import PolicyLang.Proofs.Parser.Mending

/-!
# Every error can be mended

Where a parser of the language stops for another reason than its budget, what it has read can be
continued within that budget: open calls, parentheses, conditions and bodies are closed, and a name,
a verb or a literal is put where one was missing.
-/

namespace PolicyLang.Grammar

open PolicyLang.Parser

variable {F G : TokenKind → Prop} {n : Nat}

/-! ## Repeated operands -/

section
variable {operand : Nat → Parser Expr} {k : TokenKind} (hG : ∀ j, G j → F j ∧ j ≠ k) (hk : F k)
  (ho : Mendable Anything operand F n) (hst : Steady Anything operand F n)
include hG hk ho hst

theorem mendable_tail :
    Mendable F (fun n => many fun t => if t.kind = k then .item (operand n) else .stop) G n := by
  refine mendable_many (fun j hj => (hG j hj).1) (fun _ _ ht => if_neg (hG _ ht).2) ?_
  intro t q hq
  dsimp only at hq
  split at hq
  · rename_i ht
    exact ⟨operand, fun _ => if_pos ht, ht ▸ hk, ho, hst⟩
  · cases hq

theorem mendable_leftAssoc (op : BinaryOp) :
    Mendable Anything (fun n => leftAssoc op k (operand n)) G n :=
  ho.bind (f := fun n first => (many fun t => if t.kind = k then .item (operand n) else .stop) >>=
    fun more => pure (more.foldl (Expr.join op) first)) hst
    (fun _ => (mendable_tail hG hk ho hst).bind_pure fun _ _ => rfl)
    fun _ => .nil ((readsTail_nil hG).bind_pure fun _ => rfl)

end

/-! ## Conditions -/

theorem steady_expression : Steady Anything expression (Below 1) n := by
  apply steady_of_sound (sound_expression n)
  intro us e he
  obtain ⟨d, -, h⟩ := exists_readsOr he
  obtain ⟨t, vs, rfl, -⟩ := he.head
  exact ⟨d + 1, (readsExpression h).anything fun h => by cases h⟩

theorem Called.reads {us : List Token} {c : Option Arguments} :
    Called us c → ∃ d ≤ us.length, ReadsCall expression us c d
  | .none => ⟨0, Nat.le_refl _, readsCall_none⟩
  | .empty hl hr => ⟨0, Nat.zero_le _, readsCall_some hl (reads_no_arguments hr _)⟩
  | .args hl hf hfs hr => by
    obtain ⟨d, hd, h⟩ := exists_readsOr hf
    obtain ⟨d', hd', h'⟩ := exists_readsArgs hfs
    exact exists_readsCall_args hl hf h hd h' hd' hr

theorem steady_call : Steady Anything (fun n => arguments? (expression n)) (· ≠ .lparen) n :=
  steady_of_readsAfter (sound_arguments? (sound_expression n)) fun _ _ => Called.reads

theorem steady_link : Steady Anything (fun n => link (expression n)) (· ≠ .lparen) n := by
  refine steady_of_reads (sound_link (sound_expression n)) ?_
  rintro _ ⟨m, c⟩ ⟨us, rfl, hm, hus⟩
  obtain ⟨d, hd, h⟩ := hus.reads
  exact ⟨d, by simp; omega, reads_link hm h⟩

theorem steady_value : Steady Anything (fun n => value (expression n)) (Below 4) n :=
  steady_of_reads (sound_value (sound_expression n)) fun _ _ => exists_readsValue

theorem viable_value :
    Viable Anything (fun n => value (expression n)) (Below 4) n [] :=
  .of_reads (w := [⟨.ident, "x", {}⟩]) (by simp) (readsValue_chain rfl readsCall_none readsLinks_nil)

section
variable (he : Mendable Anything expression (Below 1) n)
include he

theorem mendable_argTail :
    Mendable (Below 1) (fun n => many fun t => if t.kind = .comma then .item (expression n)
      else .stop) (· = .rparen) n :=
  mendable_tail (by rintro _ rfl; simp [Below, grip]) (by simp [Below, grip]) he steady_expression

theorem mendable_arguments (F : TokenKind → Prop) :
    Mendable Anything (fun n => arguments (expression n)) F n := by
  have hclose : ∀ first more, Mendable (· = .rparen) (fun _ => expect .rparen .closeArguments >>=
      fun r => pure (Arguments.mk (first :: more) r.span)) F n :=
    fun _ _ => mendable_expect_pure _ _ (by decide) rfl
  have hmore := fun first => (mendable_argTail he).bind (f := fun _ more =>
    expect .rparen .closeArguments >>= fun r => pure (Arguments.mk (first :: more) r.span))
    (steady_of_readsAfter (sound_argTail (sound_expression n)) fun _ _ => exists_readsArgs)
    (hclose first) fun _ => viable_expect_pure _ _ (by decide) rfl
  have hargs := he.bind (f := fun n first => (many fun t => if t.kind = .comma then
    .item (expression n) else .stop) >>= fun more => expect .rparen .closeArguments >>= fun r =>
    pure (Arguments.mk (first :: more) r.span)) steady_expression hmore fun first => ?_
  · refine .branch (.of_reads (w := [⟨.rparen, ")", {}⟩]) (by simp) (reads_no_arguments rfl F)) hargs
      fun t => ?_
    by_cases ht : t.kind = .rparen
    · exact .inr ⟨_, fun _ => if_pos ht, trivial, mendable_pure _⟩
    · exact .inl fun _ => if_neg ht
  · refine ⟨[⟨.rparen, ")", {}⟩], ⟨[first], {}⟩, 0, by simp, Nat.zero_le _, ?_⟩
    have hclose := reads_expect_pure (t := ⟨.rparen, ")", {}⟩) rfl .closeArguments
      (fun r => Arguments.mk [first] r.span) F
    exact readsArgs_nil.bind (hclose.after rfl)

theorem mendable_call :
    Mendable Anything (fun n => arguments? (expression n)) (· ≠ .lparen) n := by
  apply Mendable.branch (.nil readsCall_none) (mendable_pure _)
  intro t
  by_cases ht : t.kind = .lparen
  · exact .inr ⟨_, fun _ => if_pos ht, trivial, (mendable_arguments he _).map some⟩
  · exact .inl fun _ => if_neg ht

theorem mendable_link : Mendable Anything (fun n => link (expression n)) (· ≠ .lparen) n := by
  refine .next (.of_reads (w := [⟨.ident, "x", {}⟩]) (by simp) (reads_link (.inl rfl) readsCall_none))
    fun t q hq => ?_
  split at hq
  · rename_i ht
    have hc := (mendable_call he).bind_pure (f := fun _ call => pure (Link.mk t call)) fun _ _ => rfl
    exact ⟨_, fun _ => if_pos ht, trivial, hc⟩
  · cases hq

theorem mendable_linkTail :
    Mendable (· ≠ .lparen) (fun n => linkTail (expression n)) (Below 4) n := by
  refine mendable_many ?_ ?_ fun t q hq => ?_
  · rintro k hk rfl
    simp [Below, grip] at hk
  · intro _ t ht
    apply if_neg
    intro hk
    simp [Below, grip, hk] at ht
  · split at hq
    · rename_i ht
      exact ⟨_, fun _ => if_pos ht, by simp [ht], mendable_link he, steady_link⟩
    · cases hq

theorem mendable_chain (t : Token) :
    Mendable Anything (fun n => chain (expression n) t) (Below 4) n :=
  (mendable_call he).bind (f := fun n call => linkTail (expression n) >>= fun links =>
    pure (links.foldl Expr.linked ((Expr.ident t.text t.span).called call))) steady_call
    (fun _ => (mendable_linkTail he).bind_pure fun _ _ => rfl)
    fun _ => .nil (readsLinks_nil.bind_pure fun _ => rfl)

theorem mendable_parenthesised (F : TokenKind → Prop) :
    Mendable Anything (fun n => parenthesised (expression n)) F n :=
  he.bind (f := fun _ e => expect .rparen .closeParen >>= fun _ => pure e) steady_expression
    (fun e => mendable_expect_pure _ (fun _ => e) (by decide) (by simp [Below, grip]))
    fun e => viable_expect_pure _ (fun _ => e) (by decide) (by simp [Below, grip])

theorem mendable_value : Mendable Anything (fun n => value (expression n)) (Below 4) n := by
  apply Mendable.next viable_value
  intro t q hq
  split at hq
  · rename_i ht
    cases hl : Literal.ofNumber t.text with
    | error c => rw [hl] at hq; cases hq
    | ok l => exact ⟨_, fun _ => rfl, trivial, mendable_pure _⟩
  · exact ⟨_, fun _ => rfl, trivial, mendable_pure _⟩
  · exact ⟨_, fun _ => rfl, trivial, mendable_pure _⟩
  · exact ⟨_, fun _ => rfl, trivial, mendable_parenthesised he _⟩
  · exact ⟨_, fun _ => rfl, trivial, mendable_chain he t⟩
  · cases hq

theorem mendable_comparison :
    Mendable Anything (fun n => comparison (expression n)) (Below 3) n := by
  refine (mendable_value he).bind (f := fun n => comparisonTail (expression n)) steady_value
    (fun e => .branch (.nil (reads_no_comparison e)) (mendable_pure _) fun t => ?_)
    fun e => .nil (reads_no_comparison e)
  split
  · rename_i c ht
    have hright := (mendable_value he).bind (f := fun _ f => refuse TokenKind.isComparison
      .chainedComparison >>= fun _ => pure (Expr.join (.compare c) e f)) steady_value
      (fun f => mendable_of_stops (.nil (reads_refuse_comparison _)) fun us rest d h => ?_)
      fun f => .nil (reads_refuse_comparison _)
    · exact .inr ⟨_, fun _ => rfl, by simp [ht, Below, grip], hright⟩
    · exact eq_nil_of_run_refuse_bind h
  · exact .inl fun _ => rfl

end

/-! ## The budget -/

theorem mendable_succ {p q : Nat → Parser Expr} (h : Mendable Anything p F n)
    (h0 : q 0 = fail .tooDeep) (hs : ∀ n, q (n + 1) = p n) (hne : ∀ n, ∃ f, (p n).run [] = .error f) :
    Mendable Anything q F (n + 1) := by
  intro us rest c hr hc
  rw [hs] at hr
  obtain ⟨w, e, d, hw, hd, hra⟩ := h hr hc
  refine ⟨w, e, d + 1, hw, Nat.succ_le_succ hd, (reads_succ hra.toReads h0 hs).anything fun h => ?_⟩
  have hrun := hra.ok (n := d) (Nat.le_refl _) (heads_nil F)
  obtain ⟨f, hf⟩ := hne d
  rw [h, List.nil_append, hf] at hrun
  cases hrun

theorem run_negation_nil (n : Nat) : (negation n).run [] = .error ⟨.operand, []⟩ := by
  cases n <;> rfl

theorem run_disjunction_nil (n : Nat) :
    (disjunction (negation n)).run [] = .error ⟨.operand, []⟩ := by
  simp only [disjunction, leftAssoc, run_bind, run_negation_nil]

theorem viable_negation : Viable Anything negation (Below 3) n [] := by
  have hx : ReadsValue expression [⟨.ident, "x", {}⟩] (.ident "x" {}) 0 :=
    readsValue_chain rfl readsCall_none readsLinks_nil
  exact .of_reads (by simp) (readsNot_comparison (by decide) (readsComparison_value hx))

theorem mendable_unary (ho : Mendable Anything operand (Below 3) n)
    (he : Mendable Anything expression (Below 1) n) : Mendable Anything negation (Below 3) n := by
  have heq : negation = fun n => unary (operand n) (expression n) := funext negation_eq
  have hs := viable_negation (n := n)
  rw [heq] at hs ⊢
  apply Mendable.branch hs (mendable_comparison he)
  intro t
  by_cases ht : t.kind = .kwNot
  · have hnot := ho.bind_pure (f := fun _ e => pure (Expr.negate e (t.span.to e.span)))
      fun _ _ => rfl
    exact .inr ⟨_, fun _ => if_pos ht, trivial, hnot⟩
  · exact .inl fun _ => if_neg ht

theorem steady_negation : Steady Anything negation (Below 3) n :=
  steady_of_reads (sound_negation n) fun _ _ => exists_readsNot

theorem steady_conjunction :
    Steady Anything (fun n => leftAssoc .and .kwAnd (negation n)) (Below 2) n :=
  steady_of_reads (sound_conjunction (sound_negation n)) fun _ _ => exists_readsAnd

theorem mendable_disjunction (h : Mendable Anything negation (Below 3) n) :
    Mendable Anything (fun n => disjunction (negation n)) (Below 1) n := by
  refine mendable_leftAssoc (F := Below 2) (fun k hk => ⟨hk.mono (by decide), ?_⟩)
    (by simp [Below, grip]) (mendable_leftAssoc (F := Below 3)
      (fun k hk => ⟨hk.mono (by decide), ?_⟩) (by simp [Below, grip]) h steady_negation .and)
    steady_conjunction .or
  · intro heq
    subst heq
    simp [Below, grip] at hk
  · intro heq
    subst heq
    simp [Below, grip] at hk

theorem mendable_negation : ∀ n, Mendable Anything negation (Below 3) n
  | 0 => mendable_unary (mendable_tooDeep rfl) (mendable_tooDeep rfl)
  | n + 1 => by
    have h := mendable_negation n
    refine mendable_unary (mendable_succ h rfl (fun _ => rfl) fun m => ⟨_, run_negation_nil m⟩) ?_
    exact mendable_succ (mendable_disjunction h) rfl (fun _ => rfl) fun m => ⟨_, run_disjunction_nil m⟩

theorem mendable_expression : ∀ n, Mendable Anything expression (Below 1) n
  | 0 => mendable_tooDeep rfl
  | n + 1 => mendable_succ (mendable_disjunction (mendable_negation n)) rfl (fun _ => rfl)
      fun m => ⟨_, run_disjunction_nil m⟩

/-! ## Clauses -/

theorem mendable_plainAction (t : Token) (v : Verdict) :
    Mendable Anything (fun _ => plainAction t v) (· ≠ .kwTo) n :=
  mendable_of_stops (.nil ((reads_plainAction t v).anything fun _ => rfl))
    fun _ _ _ => eq_nil_of_run_refuse_bind

theorem mendable_actionAfter (t : Token) :
    ∀ v, Mendable Anything (fun _ => actionAfter t v) (· ≠ .kwTo) n
  | .deny => mendable_plainAction t .deny
  | .allow => mendable_plainAction t .allow
  | .escalate => mendable_plainAction t .escalate
  | .route => .expect_bind
      (f := fun _ _ => expect .ident .routeTarget >>= fun n =>
        pure (Action.mk (.route ⟨n.text, n.span⟩) (t.span.to n.span)))
      (fun _ => mendable_expect_pure _ _ (by decide) trivial)
      (fun _ => viable_expect_pure _ _ (by decide) trivial) (by decide) trivial

theorem viable_action : Viable Anything (fun _ => action) (· ≠ .kwTo) n [] :=
  .of_reads (w := [⟨.verb .deny, "deny", {}⟩]) (by simp) (reads_action (.deny rfl))

theorem mendable_action : Mendable Anything (fun _ => action) (· ≠ .kwTo) n := by
  apply Mendable.next viable_action
  intro t q hq
  split at hq
  · exact ⟨_, fun _ => rfl, trivial, mendable_actionAfter t _⟩
  · cases hq

theorem mendable_guardAfter (w : Token) :
    Mendable Anything (fun n => guardAfter n w) (· ≠ .kwTo) n := by
  let f (e : Expr) (_ : Nat) (_ : Token) : Parser Guard := action >>= fun a =>
    pure (Guard.mk e a (w.span.to a.span))
  have hm : ∀ e t, Mendable Anything (fun n => f e n t) (· ≠ .kwTo) n :=
    fun _ _ => mendable_action.bind_pure fun _ _ => rfl
  have hs : ∀ e t, Viable Anything (fun n => f e n t) (· ≠ .kwTo) n [] := by
    intro e t
    have ha : ActionPhrase [⟨.verb .deny, "deny", {}⟩] ⟨.deny, {}⟩ := .deny rfl
    have h := (reads_action ha).bind_pure
      (f := fun _ a => pure (Guard.mk e a (w.span.to a.span))) fun _ => rfl
    exact .of_reads (by simp) h
  refine (mendable_expression n).bind (f := fun n e => expect .kwThen .thenWord >>= f e n)
    steady_expression (fun e => .expect_bind (hm e) (hs e) (by decide) (by simp [Below, grip]))
    fun e => .expect_bind (hs e) (by decide) (by simp [Below, grip])

theorem mendable_priorityAfter (p : Token) (F : TokenKind → Prop) :
    Mendable Anything (fun _ => priorityAfter p) F n := by
  have h0 : Priority.ofNumber "0" = .ok 0 := by decide
  refine .next (.of_reads (w := [⟨.number, "0", {}⟩]) (by simp) (reads_priorityAfter rfl h0 F))
    fun t q hq => ?_
  split at hq
  · rename_i ht
    cases hv : Priority.ofNumber t.text with
    | error c => rw [hv] at hq; cases hq
    | ok v => exact ⟨_, fun _ => by rw [if_pos ht]; rfl, trivial, mendable_pure _⟩
  · cases hq

theorem mendable_clauseAfter? {t : Token} {q : Parser Clause} (h : clauseAfter? n t = some q) :
    ∃ p, (∀ m, clauseAfter? m t = some (p m)) ∧ StartsClause t.kind ∧ Mendable Anything p Behind n := by
  have hFG : ∀ k, Behind k → k ≠ .kwTo := fun _ hk => hk.1
  unfold clauseAfter? at h
  split at h
  · rename_i ht
    exact ⟨fun m => .guard <$> guardAfter m t, fun m => by simp only [clauseAfter?, ht], .inl ht,
      ((mendable_guardAfter t).mono hFG).map _⟩
  · rename_i ht
    exact ⟨fun _ => .priority <$> priorityAfter t, fun m => by simp only [clauseAfter?, ht],
      .inr (.inl ht), (mendable_priorityAfter t _).map _⟩
  · rename_i v ht
    exact ⟨fun _ => .action <$> actionAfter t v, fun m => by simp only [clauseAfter?, ht],
      .inr (.inr ⟨v, ht⟩), ((mendable_actionAfter t v).mono hFG).map _⟩
  · cases h

/-! ## Declarations -/

theorem steady_of_readsItem {step : Nat → Token → Step α} {D : List Token → α → Prop} {t : Token}
    {p : Nat → Parser α} (hp : ∀ m, step m t = .item (p m))
    (hs : Sound (p n) fun us a => D (t :: us) a)
    (hr : ∀ {us a}, D us a → ∃ d < us.length, ReadsItem step F us a d) : Steady Anything p F n := by
  apply steady_of_reads hs
  intro us a hD
  obtain ⟨d, hd, t', us', p', hus, -, hp', h⟩ := hr hD
  obtain ⟨rfl, rfl⟩ := List.cons.inj hus
  have hpp : p' = p := by
    funext m
    have := (hp' m).symm.trans (hp m)
    injection this
  exact ⟨d, Nat.le_of_lt_succ hd, hpp ▸ h⟩

theorem mendable_ruleItems : MendableItems ruleStep Behind n := by
  intro t q hq
  unfold ruleStep at hq
  split at hq
  · cases hq
  · cases hc : clauseAfter? n t with
    | none => rw [hc] at hq; cases hq
    | some q' =>
      obtain ⟨p, hp, ht, hm⟩ := mendable_clauseAfter? hc
      have hi : ∀ m, ruleStep m t = .item (p m) := fun m => ruleStep_of_clause ht (hp m)
      refine ⟨p, hi, ht.behind, hm, steady_of_readsItem hi (sound_clauseAfter? (hp n)) ?_⟩
      intro us c hD
      obtain ⟨d, hd, h⟩ := hD.reads
      exact ⟨d, hd, h.ruleItem⟩

theorem viable_category : Viable Anything (fun _ => category) (· = .lbrace) n [] :=
  .of_reads (w := [⟨.category .custom, "custom", {}⟩]) (by simp) ((reads_pure _ _).next fun _ => rfl)

theorem mendable_category : Mendable Anything (fun _ => category) (· = .lbrace) n := by
  apply Mendable.next viable_category
  intro t q hq
  split at hq
  · exact ⟨_, fun _ => rfl, trivial, mendable_pure _⟩
  · cases hq

theorem steady_category : Steady Anything (fun _ => category) (· = .lbrace) n := by
  refine steady_of_reads sound_category ?_
  rintro _ c ⟨k, rfl, hk⟩
  exact ⟨0, by simp, (reads_pure c _).next fun _ => by rw [hk]⟩

theorem mendable_block {step : Nat → Token → Step α}
    (hm : Mendable G (fun m => many (step m)) (· = .rbrace) n)
    (hst : Steady G (fun m => many (step m)) (· = .rbrace) n)
    (hnil : ReadsAfter G (fun m => many (step m)) (· = .rbrace) [] [] 0)
    (hopen hclose : Cause) (g : Category → List α → Token → β) (F : TokenKind → Prop) :
    Mendable Anything (fun m => category >>= fun c => expect .lbrace hopen >>= fun _ =>
      many (step m) >>= fun body => expect .rbrace hclose >>= fun e => pure (g c body e)) F n := by
  let body (c : Category) (m : Nat) (_ : Token) : Parser β :=
    many (step m) >>= fun body => expect .rbrace hclose >>= fun e => pure (g c body e)
  have hbody : ∀ c t, Mendable G (fun m => body c m t) F n := fun c _ =>
    hm.bind (f := fun _ body => expect .rbrace hclose >>= fun e => pure (g c body e)) hst
      (fun _ => mendable_expect_pure _ _ (by decide) rfl)
      fun _ => viable_expect_pure _ _ (by decide) rfl
  have hnilbody : ∀ c t, Viable G (fun m => body c m t) F n [] := by
    intro c t
    have hend := reads_expect_pure (t := ⟨.rbrace, "\x7d", {}⟩) rfl hclose (g c []) F
    exact ⟨[⟨.rbrace, "\x7d", {}⟩], _, 0, by simp, Nat.zero_le _, hnil.bind (hend.after rfl)⟩
  exact mendable_category.bind (f := fun m c => expect .lbrace hopen >>= body c m) steady_category
    (fun c => .expect_bind (fun t => (hbody c t).anything) (fun t => (hnilbody c t).anything)
      (by decide) rfl)
    fun c => .expect_bind (fun t => (hnilbody c t).anything) (by decide) rfl

theorem viable_block {step : Nat → Token → Step α}
    (hnil : ReadsAfter G (fun m => many (step m)) (· = .rbrace) [] [] 0)
    (hopen hclose : Cause) (g : Category → List α → Token → β) (F : TokenKind → Prop) :
    Viable Anything (fun m => category >>= fun c => expect .lbrace hopen >>= fun _ =>
      many (step m) >>= fun body => expect .rbrace hclose >>= fun e => pure (g c body e)) F n [] :=
  .of_reads (by simp) (reads_block (k := ⟨.category .custom, "custom", {}⟩)
    (b := ⟨.lbrace, "\x7b", {}⟩) (e := ⟨.rbrace, "\x7d", {}⟩) rfl rfl hnil rfl hopen hclose g)

theorem mendable_header {f : Nat → Token → Parser α} (hf : ∀ t, Mendable Anything (fun m => f m t) F n)
    (hs : ∀ t, Viable Anything (fun m => f m t) F n []) (hname hcolon : Cause) :
    Mendable Anything (fun m => expect .ident hname >>= fun t => expect .colon hcolon >>= fun _ =>
      f m t) F n :=
  .expect_bind (f := fun m t => expect .colon hcolon >>= fun _ => f m t)
    (fun t => .expect_bind (fun _ => hf t) (fun _ => hs t) (by decide) trivial)
    (fun t => .expect_bind (fun _ => hs t) (by decide) trivial) (by decide) trivial

theorem readsRuleBody_nil : ReadsBody ruleStep [] [] 0 :=
  reads_items_nil behind_rbrace fun _ _ ht => if_pos ht

theorem mendable_ruleBody : Mendable Behind (fun m => many (ruleStep m)) (· = .rbrace) n :=
  mendable_many behind_rbrace (fun _ _ ht => if_pos ht) mendable_ruleItems

theorem steady_ruleBody : Steady Behind (fun m => many (ruleStep m)) (· = .rbrace) n :=
  steady_of_readsAfter (sound_ruleBody n) fun _ _ => exists_readsRuleBody

section
variable (w : Token) (F : TokenKind → Prop)

theorem mendable_ruleAfterName (t : Token) :
    Mendable Anything (fun m => ruleAfterName m w t) F n :=
  mendable_block mendable_ruleBody steady_ruleBody readsRuleBody_nil .ruleOpen (.ruleClose t.text)
    (fun c body e => Rule.mk t.text c body (w.span.to e.span)) F

theorem viable_ruleAfterName (t : Token) :
    Viable Anything (fun m => ruleAfterName m w t) F n [] :=
  viable_block readsRuleBody_nil .ruleOpen (.ruleClose t.text)
    (fun c body e => Rule.mk t.text c body (w.span.to e.span)) F

theorem mendable_ruleAfter : Mendable Anything (fun m => ruleAfter m w) F n :=
  mendable_header (mendable_ruleAfterName w F) (viable_ruleAfterName w F) .ruleName .ruleColon

theorem mendable_ruleItemAfter : Mendable Anything (fun m => ruleItemAfter m w) Behind n := by
  have hs : ∀ t, Viable Anything (fun m => ruleItemTail m w t) Behind n [] := fun t =>
    .of_reads noEnd_nil (reads_ruleItemTail_ref w t)
  refine .expect_bind (f := fun m t => ruleItemTail m w t) (fun t => ?_) hs (by decide) trivial
  apply Mendable.branch (hs t) (mendable_pure _)
  intro o
  by_cases ho : o.kind = .colon
  · exact .inr ⟨_, fun _ => if_pos ho, trivial, (mendable_ruleAfterName w Behind t).map _⟩
  · exact .inl fun _ => if_neg ho

end

theorem mendable_policyItems : MendableItems policyStep Behind n := by
  intro t q hq
  unfold policyStep at hq
  split at hq
  · cases hq
  · rename_i ht
    have hi : ∀ m, policyStep m t = .item (ruleItemAfter m t) := fun m => by
      simp only [policyStep, ht]
    exact ⟨_, hi, by simp [ht, Behind], mendable_ruleItemAfter t,
      steady_of_readsItem hi (sound_ruleItemAfter n ht) ItemPhrase.reads⟩
  · cases hc : clauseAfter? n t with
    | none => rw [hc] at hq; cases hq
    | some q' =>
      obtain ⟨p, hp, ht, hm⟩ := mendable_clauseAfter? hc
      have hi : ∀ m, policyStep m t = .item (.clause <$> p m) := fun m =>
        policyStep_of_clause ht (hp m)
      exact ⟨_, hi, ht.behind, hm.map _, steady_of_readsItem hi
        (sound_map (sound_clauseAfter? (hp n)) fun _ _ => .clause) ItemPhrase.reads⟩

theorem readsPolicyBody_nil : ReadsBody policyStep [] [] 0 :=
  reads_items_nil behind_rbrace policyStep_rbrace

theorem mendable_policyBody : Mendable Behind (fun m => many (policyStep m)) (· = .rbrace) n :=
  mendable_many behind_rbrace policyStep_rbrace mendable_policyItems

theorem steady_policyBody : Steady Behind (fun m => many (policyStep m)) (· = .rbrace) n :=
  steady_of_readsAfter (sound_policyBody n) fun _ _ => exists_readsPolicyBody

theorem mendable_policyAfter (w : Token) (F : TokenKind → Prop) :
    Mendable Anything (fun m => policyAfter m w) F n := by
  let g (t : Token) (c : Category) (body : List PolicyItem) (e : Token) : Policy :=
    ⟨t.text, c, body, w.span.to e.span⟩
  exact mendable_header
    (fun t => mendable_block mendable_policyBody steady_policyBody readsPolicyBody_nil .policyOpen
      (.policyClose t.text) (g t) F)
    (fun t => viable_block readsPolicyBody_nil .policyOpen (.policyClose t.text) (g t) F)
    .policyName .policyColon

theorem mendable_importAfter (w : Token) (F : TokenKind → Prop) :
    Mendable Anything (fun _ => importAfter w) F n :=
  mendable_expect_pure _ (fun path => Import.mk path.text (w.span.to path.span)) (by decide) trivial

/-! ## Documents -/

theorem mendable_statements : MendableItems statementStep Anything n := by
  intro t q hq
  unfold statementStep at hq
  split at hq
  · rename_i ht
    have hi : ∀ m, statementStep m t = .item (.policy <$> policyAfter m t) := fun m => by
      simp only [statementStep, ht]
    exact ⟨_, hi, trivial, (mendable_policyAfter t _).map _, steady_of_readsItem hi
      (sound_map (sound_policyAfter n ht) fun _ _ => .policy) StatementPhrase.reads⟩
  · rename_i ht
    have hi : ∀ m, statementStep m t = .item (.rule <$> ruleAfter m t) := fun m => by
      simp only [statementStep, ht]
    exact ⟨_, hi, trivial, (mendable_ruleAfter t _).map _, steady_of_readsItem hi
      (sound_map (sound_ruleAfter n ht) fun _ _ => .rule) StatementPhrase.reads⟩
  · rename_i ht
    have hi : ∀ m, statementStep m t = .item (.imports <$> importAfter t) := fun m => by
      simp only [statementStep, ht]
    exact ⟨_, hi, trivial, (mendable_importAfter t _).map _, steady_of_readsItem hi
      (sound_map (sound_importAfter ht) fun _ _ => .imports) StatementPhrase.reads⟩
  · cases hq

/-- What a document was found to be before an error is the front of a document. -/
theorem mendable_document (n : Nat) : Mendable Anything document (fun _ => False) n :=
  mendable_many (fun _ => False.elim) (fun _ _ => False.elim) mendable_statements

end PolicyLang.Grammar
