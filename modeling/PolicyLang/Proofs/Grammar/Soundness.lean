import PolicyLang.Program.Parser
import PolicyLang.Proofs.Grammar.Phrase
import PolicyLang.Proofs.Parser.Success

/-!
# Only phrases are read

What the parsers take off the front of a token list is a phrase of the grammar, with the tree they
make of it. The readers of what stands behind a first token get that token's kind as a hypothesis.
-/

namespace PolicyLang.Grammar

open PolicyLang.Parser

theorem ofNumber_eq_ok {text : String} {l : Literal} (h : Literal.ofNumber text = .ok l) :
    NumberLiteral text l := by
  unfold Literal.ofNumber at h
  split at h
  · rename_i hdot
    cases hx : Binary64.read? text with
    | none => rw [hx] at h; cases h
    | some x =>
      rw [hx] at h
      simp only at h
      split at h
      · rename_i hfin; cases h; exact .float hdot hx hfin
      · cases h
  · rename_i hdot
    cases hn : readInt? text with
    | none => rw [hn] at h; cases h
    | some n => rw [hn] at h; cases h; exact .int hdot hn

/-! ## Conditions -/

/-- The tokens behind what is called, and what is read there before the tree is made. -/
inductive Called : List Token → Option Arguments → Prop
  | none : Called [] none
  | empty {l r} : l.kind = .lparen → r.kind = .rparen → Called [l, r] (some ⟨[], r.span⟩)
  | args {l us f vs fs r} : l.kind = .lparen → OrPhrase us f → ArgTail vs fs →
      r.kind = .rparen → Called (l :: (us ++ (vs ++ [r]))) (some ⟨f :: fs, r.span⟩)

theorem Called.phrase (e : Expr) : ∀ {us c}, Called us c → CallPhrase e us (e.called c)
  | _, _, .none => .none
  | _, _, .empty hl hr => .empty hl hr
  | _, _, .args hl hf hfs hr => .args hl hf hfs hr

section
variable {expr : Parser Expr} (he : Sound expr OrPhrase)
include he

theorem sound_argTail :
    Sound (many fun t => if t.kind = .comma then .item expr else .stop) ArgTail := by
  apply sound_many .nil
  intro t p hp
  split at hp
  · rename_i hk
    cases hp
    exact he.mono fun us a ha vs as => .cons hk ha
  · cases hp

theorem sound_arguments {l : Token} (hl : l.kind = .lparen) :
    Sound (arguments expr) fun us a => Called (l :: us) (some a) := by
  refine sound_branch ?_ fun t p hp => ?_
  · apply sound_bind he
    intro us e hus
    apply sound_bind (sound_argTail he)
    intro vs fs hvs
    apply sound_bind (sound_expect .rparen .closeArguments)
    intro ws r hr
    obtain ⟨rfl, hk⟩ := hr
    exact sound_pure (by simpa using Called.args hl hus hvs hk)
  · split at hp
    · rename_i hk
      cases hp
      exact sound_pure (.empty hl hk)
    · cases hp

theorem sound_arguments? : Sound (arguments? expr) Called := by
  apply sound_branch (sound_pure .none)
  intro t p hp
  split at hp
  · rename_i hk
    cases hp
    exact sound_map (sound_arguments he hk) fun us a h => h
  · cases hp

theorem sound_link : Sound (link expr) fun us l => ∃ vs, us = l.name :: vs ∧
    (l.name.kind = .ident ∨ l.name.kind.isKeyword = true) ∧ Called vs l.call := by
  apply sound_next
  intro t p hp
  split at hp
  · rename_i hk
    cases hp
    refine sound_bind (sound_arguments? he) fun us c hus => sound_pure ?_
    exact ⟨us, by simp, hk, hus⟩
  · cases hp

theorem sound_linkTail :
    Sound (many fun t => if t.kind = .dot then .item (link expr) else .stop) fun us ls =>
      ∀ e : Expr, LinkTail e us (ls.foldl Expr.linked e) := by
  apply sound_many fun _ => .nil
  intro t p hp
  split at hp
  · rename_i hk
    cases hp
    refine (sound_link he).mono ?_
    rintro _ l ⟨us, rfl, hn, hus⟩ vs ls hvs e
    exact LinkTail.cons hk hn (hus.phrase _) (hvs _)
  · cases hp

theorem sound_chain {t : Token} (ht : t.kind = .ident) :
    Sound (chain expr t) fun us e => ValuePhrase (t :: us) e := by
  refine sound_bind (sound_arguments? he) fun us c hus => ?_
  apply sound_bind (sound_linkTail he)
  intro vs ls hvs
  exact sound_pure (by simpa using ValuePhrase.chain ht (hus.phrase _) (hvs _))

theorem sound_parenthesised {l : Token} (hl : l.kind = .lparen) :
    Sound (parenthesised expr) fun us e => ValuePhrase (l :: us) e := by
  apply sound_bind he
  intro us e hus
  apply sound_bind (sound_expect .rparen .closeParen)
  intro vs r hr
  obtain ⟨rfl, hk⟩ := hr
  exact sound_pure (by simpa using ValuePhrase.parens hl hus hk)

theorem sound_value : Sound (value expr) ValuePhrase := by
  apply sound_next
  intro t p hp
  split at hp
  · rename_i hk
    cases hl : Literal.ofNumber t.text with
    | error c => rw [hl] at hp; cases hp
    | ok l => rw [hl] at hp; cases hp; exact sound_pure (.number hk (ofNumber_eq_ok hl))
  · rename_i hk; cases hp; exact sound_pure (.string hk)
  · rename_i b hk; cases hp; exact sound_pure (.boolean hk)
  · rename_i hk; cases hp; exact sound_parenthesised he hk
  · rename_i hk; cases hp; exact sound_chain he hk
  · cases hp

theorem sound_comparison : Sound (comparison expr) ComparisonPhrase := by
  apply sound_bind (sound_value he)
  intro us e hus
  apply sound_branch (sound_pure (by simpa using ComparisonPhrase.value hus))
  intro t p hp
  split at hp
  · rename_i c hk
    cases hp
    apply sound_bind (sound_value he)
    intro vs f hvs
    apply sound_bind (sound_refuse _ _)
    intro ws _ hws
    subst hws
    exact sound_pure (by simpa [Expr.join] using ComparisonPhrase.compare hus hk hvs)
  · cases hp

theorem sound_unary {operand : Parser Expr} (ho : Sound operand NotPhrase) :
    Sound (unary operand expr) NotPhrase := by
  apply sound_branch ((sound_comparison he).mono fun _ _ => .plain)
  intro t p hp
  split at hp
  · rename_i hk
    cases hp
    exact sound_bind ho fun us e hus => sound_pure (by simpa using NotPhrase.not hk hus)
  · cases hp

end

theorem sound_conjunction {operand : Parser Expr} (ho : Sound operand NotPhrase) :
    Sound (leftAssoc .and .kwAnd operand) AndPhrase := by
  refine sound_bind ho fun us e hus =>
    sound_bind (D := fun us fs => ∀ e, AndTail e us (fs.foldl (Expr.join .and) e)) ?_ fun vs fs hvs =>
      sound_pure (by simpa using AndPhrase.mk hus (hvs e))
  apply sound_many fun _ => .nil
  intro t p hp
  split at hp
  · rename_i hk
    cases hp
    exact ho.mono fun us a ha vs as has e => .cons hk ha (has _)
  · cases hp

theorem sound_disjunction {operand : Parser Expr} (ho : Sound operand NotPhrase) :
    Sound (disjunction operand) OrPhrase := by
  have ha := sound_conjunction ho
  refine sound_bind ha fun us e hus =>
    sound_bind (D := fun us fs => ∀ e, OrTail e us (fs.foldl (Expr.join .or) e)) ?_ fun vs fs hvs =>
      sound_pure (by simpa using OrPhrase.mk hus (hvs e))
  apply sound_many fun _ => .nil
  intro t p hp
  split at hp
  · rename_i hk
    cases hp
    exact ha.mono fun us a ha vs as has e => .cons hk ha (has _)
  · cases hp

theorem sound_negation : ∀ n, Sound (negation n) NotPhrase
  | 0 => sound_unary (sound_fail ..) (sound_fail ..)
  | n + 1 => sound_unary (sound_disjunction (sound_negation n)) (sound_negation n)

theorem sound_expression : ∀ n, Sound (expression n) OrPhrase
  | 0 => sound_fail ..
  | n + 1 => sound_disjunction (sound_negation n)

/-! ## Clauses -/

theorem sound_plainAction {t : Token} {v : Verdict} (h : ActionPhrase [t] ⟨v, t.span⟩) :
    Sound (plainAction t v) fun us a => ActionPhrase (t :: us) a := by
  apply sound_bind (sound_refuse _ _)
  intro us _ hus
  subst hus
  exact sound_pure (by simpa using h)

theorem sound_actionAfter {t : Token} : ∀ {v : Verb}, t.kind = .verb v →
    Sound (actionAfter t v) fun us a => ActionPhrase (t :: us) a
  | .deny, hk => sound_plainAction (.deny hk)
  | .allow, hk => sound_plainAction (.allow hk)
  | .escalate, hk => sound_plainAction (.escalate hk)
  | .route, hk => by
    apply sound_bind (sound_expect .kwTo .routeTo)
    intro us o ho
    obtain ⟨rfl, ho⟩ := ho
    apply sound_bind (sound_expect .ident .routeTarget)
    intro vs n hn
    obtain ⟨rfl, hn⟩ := hn
    exact sound_pure (by simpa using ActionPhrase.route hk ho hn)

theorem sound_action : Sound action ActionPhrase := by
  apply sound_next
  intro t p hp
  split at hp
  · rename_i v hk
    cases hp
    exact sound_actionAfter hk
  · cases hp

theorem sound_guardAfter (limit : Nat) {w : Token} (hw : w.kind = .kwWhen) :
    Sound (guardAfter limit w) fun us g => GuardPhrase (w :: us) g := by
  apply sound_bind (sound_expression limit)
  intro us e hus
  apply sound_bind (sound_expect .kwThen .thenWord)
  intro ts t ht
  obtain ⟨rfl, ht⟩ := ht
  apply sound_bind sound_action
  intro vs a hvs
  exact sound_pure (by simpa using GuardPhrase.mk hw hus ht hvs)

theorem ofNumber_priority_eq_ok {text : String} {n : Int} (h : Priority.ofNumber text = .ok n) :
    '.' ∉ text.toList ∧ readInt? text = some n := by
  unfold Priority.ofNumber at h
  split at h
  · cases h
  · rename_i hdot
    cases hn : readInt? text with
    | none => rw [hn] at h; cases h
    | some m => rw [hn] at h; cases h; exact ⟨hdot, rfl⟩

theorem sound_priorityAfter {p : Token} (hp : p.kind = .kwPriority) :
    Sound (priorityAfter p) fun us a => PriorityPhrase (p :: us) a := by
  apply sound_next
  intro t q hq
  split at hq
  · rename_i hk
    cases hn : Priority.ofNumber t.text with
    | error c => rw [hn] at hq; cases hq
    | ok n =>
      rw [hn] at hq
      cases hq
      obtain ⟨hdot, hv⟩ := ofNumber_priority_eq_ok hn
      exact sound_pure (.mk hp hk hdot hv)
  · cases hq

theorem sound_clauseAfter? {limit : Nat} {t : Token} {p : Parser Clause}
    (h : clauseAfter? limit t = some p) : Sound p fun us c => ClausePhrase (t :: us) c := by
  unfold clauseAfter? at h
  split at h
  · rename_i hk; cases h; exact sound_map (sound_guardAfter limit hk) fun _ _ => .guard
  · rename_i hk; cases h; exact sound_map (sound_priorityAfter hk) fun _ _ => .priority
  · rename_i v hk; cases h; exact sound_map (sound_actionAfter hk) fun _ _ => .action
  · cases h

/-! ## Declarations -/

theorem sound_category : Sound category fun us c => ∃ k, us = [k] ∧ k.kind = .category c := by
  apply sound_next
  intro t p hp
  split at hp
  · rename_i c hk
    cases hp
    exact sound_pure ⟨t, rfl, hk⟩
  · cases hp

theorem sound_ruleBody (limit : Nat) : Sound (many (ruleStep limit)) (Many ClausePhrase) := by
  apply sound_many .nil
  intro t p hp
  unfold ruleStep at hp
  split at hp
  · cases hp
  · split at hp
    · rename_i q hq
      cases hp
      exact (sound_clauseAfter? hq).mono fun us a ha vs as hvs => .cons ha hvs
    · cases hp

theorem sound_ruleAfterName (limit : Nat) {r n o : Token} (hr : r.kind = .kwRule)
    (hn : n.kind = .ident) (ho : o.kind = .colon) :
    Sound (ruleAfterName limit r n) fun us a => RulePhrase (r :: n :: o :: us) a := by
  apply sound_bind sound_category
  intro ks c hks
  obtain ⟨k, rfl, hk⟩ := hks
  apply sound_bind (sound_expect .lbrace .ruleOpen)
  intro bs b hb
  obtain ⟨rfl, hb⟩ := hb
  apply sound_bind (sound_ruleBody limit)
  intro us body hus
  apply sound_bind (sound_expect .rbrace _)
  intro es e he
  obtain ⟨rfl, he⟩ := he
  exact sound_pure (by simpa using RulePhrase.mk hr hn ho hk hb hus he)

theorem sound_ruleAfter (limit : Nat) {r : Token} (hr : r.kind = .kwRule) :
    Sound (ruleAfter limit r) fun us a => RulePhrase (r :: us) a := by
  apply sound_bind (sound_expect .ident .ruleName)
  intro ns n hn
  obtain ⟨rfl, hn⟩ := hn
  apply sound_bind (sound_expect .colon .ruleColon)
  intro os o ho
  obtain ⟨rfl, ho⟩ := ho
  exact sound_ruleAfterName limit hr hn ho

theorem sound_ruleItemAfter (limit : Nat) {r : Token} (hr : r.kind = .kwRule) :
    Sound (ruleItemAfter limit r) fun us i => ItemPhrase (r :: us) i := by
  apply sound_bind (sound_expect .ident .ruleName)
  intro ns n hn
  obtain ⟨rfl, hn⟩ := hn
  apply sound_branch (sound_pure (.ref hr hn))
  intro o p hp
  split at hp
  · rename_i ho
    cases hp
    exact sound_map (sound_ruleAfterName limit hr hn ho) fun _ _ => .rule
  · cases hp

theorem sound_policyBody (limit : Nat) : Sound (many (policyStep limit)) (Many ItemPhrase) := by
  apply sound_many .nil
  intro t p hp
  unfold policyStep at hp
  split at hp
  · cases hp
  · rename_i hk
    cases hp
    exact (sound_ruleItemAfter limit hk).mono fun us a ha vs as hvs => .cons ha hvs
  · split at hp
    · rename_i q hq
      cases hp
      exact sound_map (sound_clauseAfter? hq) fun us a ha vs as hvs => .cons (.clause ha) hvs
    · cases hp

theorem sound_policyAfter (limit : Nat) {p : Token} (hp : p.kind = .kwPolicy) :
    Sound (policyAfter limit p) fun us a => PolicyPhrase (p :: us) a := by
  apply sound_bind (sound_expect .ident .policyName)
  intro ns n hn
  obtain ⟨rfl, hn⟩ := hn
  apply sound_bind (sound_expect .colon .policyColon)
  intro os o ho
  obtain ⟨rfl, ho⟩ := ho
  apply sound_bind sound_category
  intro ks c hks
  obtain ⟨k, rfl, hk⟩ := hks
  apply sound_bind (sound_expect .lbrace .policyOpen)
  intro bs b hb
  obtain ⟨rfl, hb⟩ := hb
  apply sound_bind (sound_policyBody limit)
  intro us body hus
  apply sound_bind (sound_expect .rbrace _)
  intro es e he
  obtain ⟨rfl, he⟩ := he
  exact sound_pure (by simpa using PolicyPhrase.mk hp hn ho hk hb hus he)

theorem sound_importAfter {i : Token} (hi : i.kind = .kwImport) :
    Sound (importAfter i) fun us a => ImportPhrase (i :: us) a := by
  apply sound_bind (sound_expect .string .importPath)
  intro ss s hs
  obtain ⟨rfl, hs⟩ := hs
  exact sound_pure (.mk hi hs)

theorem sound_document (limit : Nat) : Sound (document limit) Document := by
  apply sound_many .nil
  intro t p hp
  unfold statementStep at hp
  split at hp
  · rename_i hk
    cases hp
    exact sound_map (sound_policyAfter limit hk) fun us a ha vs as hvs => .cons (.policy ha) hvs
  · rename_i hk
    cases hp
    exact sound_map (sound_ruleAfter limit hk) fun us a ha vs as hvs => .cons (.rule ha) hvs
  · rename_i hk
    cases hp
    exact sound_map (sound_importAfter hk) fun us a ha vs as hvs => .cons (.imports ha) hvs
  · cases hp

end PolicyLang.Grammar
