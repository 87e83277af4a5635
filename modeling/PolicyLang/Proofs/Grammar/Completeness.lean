import PolicyLang.Proofs.Grammar.Steps

/-!
# Every phrase is read

Each phrase is read by its parser, before any token that does not hold on to it, and the budget it
needs is at most its number of tokens.
-/

namespace PolicyLang.Grammar

open PolicyLang.Parser

/-! ## First tokens -/

def startsValue (k : TokenKind) : Prop :=
  k = .number ∨ k = .string ∨ (∃ b, k = .boolean b) ∨ k = .lparen ∨ k = .ident

theorem ValuePhrase.head {us : List Token} {e : Expr} :
    ValuePhrase us e → ∃ t vs, us = t :: vs ∧ startsValue t.kind
  | .number ht _ => ⟨_, _, rfl, by simp [startsValue, ht]⟩
  | .string ht => ⟨_, _, rfl, by simp [startsValue, ht]⟩
  | .boolean ht => ⟨_, _, rfl, by simp [startsValue, ht]⟩
  | .parens ht _ _ => ⟨_, _, rfl, by simp [startsValue, ht]⟩
  | .chain ht _ _ => ⟨_, _, rfl, by simp [startsValue, ht]⟩

theorem ComparisonPhrase.head {us : List Token} {e : Expr} :
    ComparisonPhrase us e → ∃ t vs, us = t :: vs ∧ startsValue t.kind
  | .value h => h.head
  | .compare h _ _ => by
    obtain ⟨t, vs, rfl, ht⟩ := h.head
    exact ⟨t, _, rfl, ht⟩

theorem NotPhrase.head {us : List Token} {e : Expr} :
    NotPhrase us e → ∃ t vs, us = t :: vs ∧ (startsValue t.kind ∨ t.kind = .kwNot)
  | .not ht _ => ⟨_, _, rfl, .inr ht⟩
  | .plain h => by
    obtain ⟨t, vs, rfl, ht⟩ := h.head
    exact ⟨t, vs, rfl, .inl ht⟩

theorem OrPhrase.head {us : List Token} {e : Expr} :
    OrPhrase us e → ∃ t vs, us = t :: vs ∧ (startsValue t.kind ∨ t.kind = .kwNot)
  | .mk (.mk h _) _ => by
    obtain ⟨t, vs, rfl, ht⟩ := h.head
    exact ⟨t, _, rfl, ht⟩

/-! ## From tighter levels to looser ones -/

section
variable {us : List Token} {e : Expr} {d : Nat}

theorem readsNot_of_comparison (h : ReadsComparison expression us e d)
    (hus : ∃ t ts, us = t :: ts ∧ startsValue t.kind) : ReadsNot us e d := by
  obtain ⟨t, ts, rfl, ht⟩ := hus
  exact readsNot_comparison (by rintro hk; simp [startsValue, hk] at ht) h

theorem readsAnd_of_not (h : ReadsNot us e d) : ReadsAnd us e d := by
  have := reads_leftAssoc .and h readsAndTail_nil
  simpa using this

theorem readsOr_of_and (h : ReadsAnd us e d) : ReadsOr us e d := by
  have := reads_leftAssoc .or h readsOrTail_nil
  rw [List.append_nil, Nat.max_zero] at this
  exact this

theorem readsOr_of_not (h : ReadsNot us e d) : ReadsOr us e d := readsOr_of_and (readsAnd_of_not h)

end

/-! ## Conditions -/

theorem NumberLiteral.ofNumber {text : String} {l : Literal} :
    NumberLiteral text l → Literal.ofNumber text = .ok l
  | .int hdot hn => by simp [Literal.ofNumber, hdot, hn]
  | .float hdot hx hfin => by simp [Literal.ofNumber, hdot, hx, hfin]

theorem exists_readsCall_args {l r : Token} {us vs : List Token} {f : Expr} {fs : List Expr}
    {d d' : Nat} (hl : l.kind = .lparen) (hf : OrPhrase us f) (h : ReadsOr us f d)
    (hd : d ≤ us.length) (h' : ReadsArgs expression vs fs d') (hd' : d' ≤ vs.length)
    (hr : r.kind = .rparen) : ∃ d ≤ (l :: (us ++ (vs ++ [r]))).length,
      ReadsCall expression (l :: (us ++ (vs ++ [r]))) (some ⟨f :: fs, r.span⟩) d := by
  obtain ⟨t, ts, rfl, ht⟩ := hf.head
  have ht : t.kind ≠ .rparen := by rintro hk; simp [startsValue, hk] at ht
  refine ⟨max (d + 1) d', by simp at *; omega, readsCall_some hl ?_⟩
  exact reads_arguments ht (readsExpression h) h' hr _

mutual

/-- A condition is read with a budget of at most its length, and with exactly one smallest budget. -/
theorem exists_readsOr : ∀ {us e}, OrPhrase us e → ∃ d ≤ us.length, ReadsOr us e d
  | _, _, .mk he hfs => by
    obtain ⟨d, hd, h⟩ := exists_readsAnd he
    obtain ⟨fs, rfl, d', hd', h'⟩ := exists_readsOrTail hfs
    exact ⟨max d d', by simp; omega, reads_leftAssoc _ h h'⟩

theorem exists_readsOrTail : ∀ {e us g}, OrTail e us g →
    ∃ fs : List Expr, fs.foldl (.join .or) e = g ∧ ∃ d ≤ us.length, ReadsOrTail us fs d
  | _, _, _, .nil => ⟨[], rfl, 0, Nat.le_refl _, readsOrTail_nil⟩
  | _, _, _, .cons (f := f) ht hf hfs => by
    obtain ⟨d, hd, h⟩ := exists_readsAnd hf
    obtain ⟨fs, rfl, d', hd', h'⟩ := exists_readsOrTail hfs
    exact ⟨f :: fs, rfl, max d d', by simp; omega, readsTail_cons (by simp [Below, grip]) ht h h'⟩

theorem exists_readsAnd : ∀ {us e}, AndPhrase us e → ∃ d ≤ us.length, ReadsAnd us e d
  | _, _, .mk he hfs => by
    obtain ⟨d, hd, h⟩ := exists_readsNot he
    obtain ⟨fs, rfl, d', hd', h'⟩ := exists_readsAndTail hfs
    exact ⟨max d d', by simp; omega, reads_leftAssoc _ h h'⟩

theorem exists_readsAndTail : ∀ {e us g}, AndTail e us g →
    ∃ fs : List Expr, fs.foldl (.join .and) e = g ∧ ∃ d ≤ us.length, ReadsAndTail us fs d
  | _, _, _, .nil => ⟨[], rfl, 0, Nat.le_refl _, readsAndTail_nil⟩
  | _, _, _, .cons (f := f) ht hf hfs => by
    obtain ⟨d, hd, h⟩ := exists_readsNot hf
    obtain ⟨fs, rfl, d', hd', h'⟩ := exists_readsAndTail hfs
    exact ⟨f :: fs, rfl, max d d', by simp; omega, readsTail_cons (by simp [Below, grip]) ht h h'⟩

theorem exists_readsNot : ∀ {us e}, NotPhrase us e → ∃ d ≤ us.length, ReadsNot us e d
  | _, _, .not ht he => by
    obtain ⟨d, hd, h⟩ := exists_readsNot he
    exact ⟨d + 1, by simpa using hd, readsNot_not ht h⟩
  | _, _, .plain he => by
    obtain ⟨d, hd, h⟩ := exists_readsComparison he
    exact ⟨d, hd, readsNot_of_comparison h he.head⟩

theorem exists_readsComparison :
    ∀ {us e}, ComparisonPhrase us e → ∃ d ≤ us.length, ReadsComparison expression us e d
  | _, _, .value he => by
    obtain ⟨d, hd, h⟩ := exists_readsValue he
    exact ⟨d, hd, readsComparison_value h⟩
  | _, _, .compare he ht hf => by
    obtain ⟨d, hd, h⟩ := exists_readsValue he
    obtain ⟨d', hd', h'⟩ := exists_readsValue hf
    exact ⟨max d d', by simp; omega, readsComparison_compare h ht h'⟩

theorem exists_readsValue :
    ∀ {us e}, ValuePhrase us e → ∃ d ≤ us.length, ReadsValue expression us e d
  | _, _, .number ht hl => ⟨0, Nat.zero_le _, readsValue_number ht hl.ofNumber⟩
  | _, _, .string ht => ⟨0, Nat.zero_le _, readsValue_string ht⟩
  | _, _, .boolean ht => ⟨0, Nat.zero_le _, readsValue_boolean ht⟩
  | _, _, .parens hl he hr => by
    obtain ⟨d, hd, h⟩ := exists_readsOr he
    exact ⟨d + 1, by simp; omega, readsValue_parens hl (readsExpression h) hr⟩
  | _, _, .chain ht hc hls => by
    obtain ⟨ls, rfl, d', hd', h'⟩ := exists_readsLinks hls
    obtain ⟨c, rfl, d, hd, h⟩ := exists_readsCall hc
    exact ⟨max d d', by simp; omega, readsValue_chain ht h h'⟩

theorem exists_readsCall : ∀ {e us g}, CallPhrase e us g →
    ∃ c, e.called c = g ∧ ∃ d ≤ us.length, ReadsCall expression us c d
  | _, _, _, .none => ⟨none, rfl, 0, Nat.le_refl _, readsCall_none⟩
  | _, _, _, .empty (r := r) hl hr =>
    ⟨some ⟨[], r.span⟩, rfl, 0, Nat.zero_le _, readsCall_some hl (reads_no_arguments hr _)⟩
  | _, _, _, .args hl hf hfs hr => by
    obtain ⟨d, hd, h⟩ := exists_readsOr hf
    obtain ⟨d', hd', h'⟩ := exists_readsArgs hfs
    exact ⟨some _, rfl, exists_readsCall_args hl hf h hd h' hd' hr⟩

theorem exists_readsArgs : ∀ {us fs}, ArgTail us fs → ∃ d ≤ us.length, ReadsArgs expression us fs d
  | _, _, .nil => ⟨0, Nat.le_refl _, readsArgs_nil⟩
  | _, _, .cons ht hf hfs => by
    obtain ⟨d, hd, h⟩ := exists_readsOr hf
    obtain ⟨d', hd', h'⟩ := exists_readsArgs hfs
    exact ⟨max (d + 1) d', by simp; omega,
      readsTail_cons (by simp [Below, grip]) ht (readsExpression h) h'⟩

theorem exists_readsLinks : ∀ {e us g}, LinkTail e us g →
    ∃ ls : List Link, ls.foldl Expr.linked e = g ∧ ∃ d ≤ us.length, ReadsLinks expression us ls d
  | _, _, _, .nil => ⟨[], rfl, 0, Nat.le_refl _, readsLinks_nil⟩
  | _, _, _, .cons (n := n) hdot hn hc hls => by
    obtain ⟨ls, rfl, d', hd', h'⟩ := exists_readsLinks hls
    obtain ⟨c, rfl, d, hd, h⟩ := exists_readsCall hc
    exact ⟨⟨n, c⟩ :: ls, rfl, max d d', by simp; omega, readsLinks_cons hdot hn h h'⟩

end

/-! ## Clauses -/

theorem ClausePhrase.reads : ∀ {us c}, ClausePhrase us c → ∃ d < us.length, ReadsClause us c d
  | _, _, .priority (.mk hp hn hdot hv) =>
    ⟨0, by simp, readsClause_priority hp hn (by simp [Priority.ofNumber, hdot, hv])⟩
  | _, _, .guard (.mk hw he ht ha) => by
    obtain ⟨d, hd, h⟩ := exists_readsOr he
    exact ⟨d + 1, by simp; omega, readsClause_guard hw h ht ha⟩
  | _, _, .action ha => by
    obtain ⟨t, vs, v, rfl, -⟩ := ha.reads
    exact ⟨0, by simp, readsClause_action ha⟩

/-! ## Bodies -/

theorem Many.reads {α : Type} {D : List Token → α → Prop} {step : Nat → Token → Step α}
    {F G : TokenKind → Prop} (hGF : ∀ k, G k → F k) (hG : ∀ n t, G t.kind → step n t = .stop)
    (h : ∀ us a, D us a → ∃ d < us.length, ReadsItem step F us a d) {us : List Token}
    {as : List α} (hus : Many D us as) :
    ∃ d ≤ us.length, ReadsAfter F (fun n => many (step n)) G us as d := by
  induction hus with
  | nil => exact ⟨0, Nat.le_refl _, reads_items_nil hGF hG⟩
  | cons ha _ ih =>
    obtain ⟨d, hd, ha⟩ := h _ _ ha
    obtain ⟨d', hd', has⟩ := ih
    exact ⟨max d d', by simp; omega, reads_items_cons ha has⟩

theorem behind_rbrace (k : TokenKind) (hk : k = .rbrace) : Behind k := by simp [hk, Behind]

theorem exists_readsRuleBody {us : List Token} {body : List Clause} (h : Many ClausePhrase us body) :
    ∃ d ≤ us.length, ReadsBody ruleStep us body d := by
  apply h.reads behind_rbrace (fun _ _ ht => if_pos ht)
  intro vs c hc
  obtain ⟨d, hd, h⟩ := hc.reads
  exact ⟨d, hd, h.ruleItem⟩

theorem RulePhrase.reads {us : List Token} {r : Rule} :
    RulePhrase us r → ∃ d < us.length, ReadsRule us r d
  | .mk hw hn ho hk hb hus he => by
    obtain ⟨d, hd, h⟩ := exists_readsRuleBody hus
    exact ⟨d, by simp; omega, readsRule_mk hw hn ho hk hb h he⟩

theorem ItemPhrase.reads {us : List Token} {i : PolicyItem} :
    ItemPhrase us i → ∃ d < us.length, ReadsItem policyStep Behind us i d
  | .ref hw hn => ⟨0, by simp, readsItem_ref hw hn⟩
  | .rule hr => by
    obtain ⟨d, hd, h⟩ := hr.reads
    exact ⟨d, hd, h.policyItem⟩
  | .clause hc => by
    obtain ⟨d, hd, h⟩ := hc.reads
    exact ⟨d, hd, h.policyItem⟩

theorem policyStep_rbrace (n : Nat) (t : Token) (ht : t.kind = .rbrace) :
    policyStep n t = .stop := by
  simp only [policyStep, ht]

theorem exists_readsPolicyBody {us : List Token} {body : List PolicyItem}
    (h : Many ItemPhrase us body) :
    ∃ d ≤ us.length, ReadsBody policyStep us body d :=
  h.reads behind_rbrace policyStep_rbrace fun _ _ => ItemPhrase.reads

theorem StatementPhrase.reads : ∀ {us s}, StatementPhrase us s →
    ∃ d < us.length, ReadsItem statementStep (fun _ => True) us s d
  | _, _, .policy (.mk hw hn ho hk hb hus he) => by
    obtain ⟨d, hd, h⟩ := exists_readsPolicyBody hus
    exact ⟨d, by simp; omega, readsItem_policy hw hn ho hk hb h he⟩
  | _, _, .rule hr => by
    obtain ⟨d, hd, h⟩ := hr.reads
    exact ⟨d, hd, h.statement⟩
  | _, _, .imports (.mk hi hs) => ⟨0, by simp, readsItem_import hi hs⟩

/-! ## Documents -/

/-- No token ends a document before the token list does. -/
abbrev ReadsDocument : List Token → List Statement → Nat → Prop :=
  ReadsAfter (fun _ => True) document fun _ => False

theorem Document.reads {us : List Token} {ss : List Statement} (h : Document us ss) :
    ∃ d ≤ us.length, ReadsDocument us ss d :=
  Many.reads (fun _ => False.elim) (fun _ _ => False.elim) (fun _ _ => StatementPhrase.reads) h

end PolicyLang.Grammar
