import PolicyLang.Proofs.Grammar.Completeness
import PolicyLang.Proofs.Lexical.Cutting
import PolicyLang.Proofs.Number.Whole
import PolicyLang.Proofs.Tree.Spans
import PolicyLang.Proofs.Tree.WellFormed

/-!
# The tokens of conditions

The tokens of a condition in canonical text, without their places. Those of a well-formed condition are
read as that condition, its spans forgotten, and the budget they need is exactly its depth.
-/

namespace PolicyLang

open PolicyLang.Grammar PolicyLang.Parser PolicyLang.Lexical

/-! ## Conditions -/

def Literal.token : Literal → Token
  | int n => .bare .number n.repr
  | float x => .bare .number (float x).render
  | str s => .bare .string s
  | bool b => .bare (.boolean b) (TokenKind.boolean b).describe

def BinaryOp.kind : BinaryOp → TokenKind
  | and => .kwAnd
  | or => .kwOr
  | compare c => .compare c

def BinaryOp.token (op : BinaryOp) : Token := .bare op.kind op.symbol

namespace Expr

mutual

def tokens : Expr → List Token
  | literal v _ => [v.token]
  | ident name _ => [.bare .ident name]
  | attr object name _ => object.tokens ++ [.bare .dot ".", .bare (.ofWord name) name]
  | call callee args _ =>
    callee.tokens ++ .bare .lparen "(" :: ((commaTokens args).tail ++ [.bare .rparen ")"])
  | negate operand _ =>
    .bare .lparen "(" :: (.bare .kwNot "not" :: operand.tokens ++ [.bare .rparen ")"])
  | binary op left right _ =>
    .bare .lparen "(" :: (left.tokens ++ op.token :: right.tokens ++ [.bare .rparen ")"])

def commaTokens : List Expr → List Token
  | [] => []
  | e :: es => .bare .comma "," :: (e.tokens ++ commaTokens es)

end

abbrev erase (e : Expr) : Expr := e.mapSpans fun _ => {}

abbrev eraseAll (es : List Expr) : List Expr := mapSpansAll (fun _ => {}) es

theorem join_erase (op : BinaryOp) (e f : Expr) (s : Span) :
    join op e.erase f.erase = (binary op e f s).erase := by
  simp only [join, erase, mapSpans, mapSpans_span]
  rfl

theorem negate_erase (e : Expr) (s : Span) :
    negate e.erase (({} : Span).to e.erase.span) = (negate e s).erase := by
  simp only [erase, mapSpans, mapSpans_span]
  rfl

theorem called_erase (e : Expr) (args : List Expr) (s : Span) :
    e.erase.called (some ⟨eraseAll args, {}⟩) = (call e args s).erase := by
  simp only [called, erase, mapSpans, mapSpans_span]
  rfl

theorem attr_erase (e : Expr) (name : String) (s : Span) :
    attr e.erase name (e.erase.span.to {}) = (attr e name s).erase := by
  simp only [erase, mapSpans, mapSpans_span]
  rfl

theorem head_tokens (e : Expr) : ∃ t ts, e.tokens = t :: ts ∧ startsValue t.kind := by
  cases e with
  | literal v _ =>
    refine ⟨_, _, by rw [tokens], ?_⟩
    cases v <;> simp [Literal.token, startsValue]
  | ident _ _ => exact ⟨_, _, by rw [tokens], by simp [startsValue]⟩
  | attr e _ _ =>
    obtain ⟨t, ts, h, ht⟩ := head_tokens e
    exact ⟨t, _, by rw [tokens, h, List.cons_append], ht⟩
  | call e _ _ =>
    obtain ⟨t, ts, h, ht⟩ := head_tokens e
    exact ⟨t, _, by rw [tokens, h, List.cons_append], ht⟩
  | negate _ _ => exact ⟨_, _, by rw [tokens], by simp [startsValue]⟩
  | binary _ _ _ _ => exact ⟨_, _, by rw [tokens], by simp [startsValue]⟩

end Expr

theorem Literal.ofNumber_unsigned {n : Int} (h : Unsigned n) : Literal.ofNumber n.repr = .ok (.int n) := by
  obtain ⟨_, _, _, hr⟩ := exists_repr_of_unsigned h
  simp [Literal.ofNumber, not_dot_mem_repr h, hr]

theorem Literal.ofNumber_render {x : Binary64} (h : x.Unsigned) :
    Literal.ofNumber (float x).render = .ok (.float x) := by
  obtain ⟨whole, fraction, hp, -, -, -, hr⟩ := Literal.exists_render_float h
  have hdot : '.' ∈ (float x).render.toList := by
    rw [hp, String.toList_ofList]
    simp
  simp [Literal.ofNumber, hdot, hr, h.1]

theorem Priority.ofNumber_unsigned {n : Int} (h : Unsigned n) : Priority.ofNumber n.repr = .ok n := by
  obtain ⟨_, _, _, hr⟩ := exists_repr_of_unsigned h
  simp [Priority.ofNumber, not_dot_mem_repr h, hr]

namespace Grammar

section
variable {us vs : List Token} {e f : Expr} {d d' : Nat}

theorem readsOr_and (he : ReadsNot us e d) (hf : ReadsNot vs f d') :
    ReadsOr (us ++ BinaryOp.and.token :: vs) (.join .and e f) (max d d') := by
  have := reads_leftAssoc .and he (readsTail_cons (k := .kwAnd) (t := BinaryOp.and.token)
    (by simp [Below, grip]) rfl hf readsAndTail_nil)
  exact readsOr_of_and (by simpa using this)

theorem readsOr_or (he : ReadsNot us e d) (hf : ReadsNot vs f d') :
    ReadsOr (us ++ BinaryOp.or.token :: vs) (.join .or e f) (max d d') := by
  have := reads_leftAssoc .or (readsAnd_of_not he) (readsTail_cons (k := .kwOr)
    (t := BinaryOp.or.token) (by simp [Below, grip]) rfl (readsAnd_of_not hf) readsOrTail_nil)
  rw [List.append_nil, Nat.max_zero] at this
  exact this

theorem readsOr_binary (op : BinaryOp) (he : ReadsValue expression us e d)
    (hf : ReadsValue expression vs f d') (hus : ∃ t ts, us = t :: ts ∧ startsValue t.kind)
    (hvs : ∃ t ts, vs = t :: ts ∧ startsValue t.kind) :
    ReadsOr (us ++ op.token :: vs) (.join op e f) (max d d') := by
  have he' := readsNot_of_comparison (readsComparison_value he) hus
  have hf' := readsNot_of_comparison (readsComparison_value hf) hvs
  cases op with
  | and => exact readsOr_and he' hf'
  | or => exact readsOr_or he' hf'
  | compare c =>
    have hc := readsComparison_compare (t := (BinaryOp.compare c).token) he rfl hf
    obtain ⟨t, ts, rfl, ht⟩ := hus
    exact readsOr_of_not (readsNot_of_comparison hc ⟨t, _, rfl, ht⟩)

end

/-! ## Well-formed conditions -/

theorem readsParens {us : List Token} {e : Expr} {d : Nat} (h : ReadsOr us e d) :
    ReadsValue expression (.bare .lparen "(" :: (us ++ [.bare .rparen ")"])) e (d + 1) :=
  readsValue_parens rfl (readsExpression h) rfl

theorem readsExpression_of_value {us : List Token} {e : Expr} {d : Nat}
    (h : ReadsValue expression us e d) (hus : ∃ t ts, us = t :: ts ∧ startsValue t.kind) :
    Reads expression (Below 1) us e (d + 1) :=
  readsExpression (readsOr_of_not (readsNot_of_comparison (readsComparison_value h) hus))

theorem ofWord_word (name : String) :
    TokenKind.ofWord name = .ident ∨ (TokenKind.ofWord name).isKeyword = true := by
  have h : WordKind name.toList (TokenKind.ofWord name) := by
    rw [← ofWord_eq_iff, String.ofList_toList]
  generalize TokenKind.ofWord name = k at h
  cases h with
  | keyword hk => exact .inr hk.1
  | name => exact .inl rfl

/-- What can have attributes is read together with any attributes behind it. -/
def ReadsObject (e : Expr) : Prop :=
  ∀ ⦃vs ls d⦄, ReadsLinks expression vs ls d →
    ReadsValue expression (e.tokens ++ vs) (ls.foldl Expr.linked e.erase) (max e.depth d)

/-- What can be called is read together with any call and attributes behind it. -/
def ReadsCallee (e : Expr) : Prop :=
  ∀ ⦃us c d vs ls d'⦄, ReadsCall expression us c d → ReadsLinks expression vs ls d' →
    ReadsValue expression (e.tokens ++ (us ++ vs)) (ls.foldl Expr.linked (e.erase.called c))
      (max e.depth (max d d'))

theorem ReadsCallee.readsObject {e : Expr} (h : ReadsCallee e) : ReadsObject e := by
  intro vs ls d hls
  have := h readsCall_none hls
  simpa [Expr.called] using this

theorem readsCallee_ident (name : String) (s : Span) : ReadsCallee (.ident name s) := by
  intro us c d vs ls d' hc hls
  have := readsValue_chain (t := .bare .ident name) rfl hc hls
  simp only [Expr.tokens, Expr.depth, Expr.erase, Expr.mapSpans, Nat.zero_max]
  exact this

theorem ReadsObject.readsCallee_attr {e : Expr} (h : ReadsObject e) (name : String) (s : Span) :
    ReadsCallee (.attr e name s) := by
  intro us c d vs ls d' hc hls
  have := h (readsLinks_cons (t := .bare .dot ".") (n := .bare (.ofWord name) name) rfl
    (ofWord_word name) hc hls)
  rw [List.foldl_cons, Expr.linked] at this
  rw [Token.bare_text, Token.bare_span, Expr.attr_erase e name s] at this
  simpa [Expr.tokens, Expr.depth] using this

theorem ReadsCallee.readsObject_call {e : Expr} (h : ReadsCallee e) {args : List Expr} (s : Span)
    (ha : ReadsCall expression (.bare .lparen "(" :: ((Expr.commaTokens args).tail ++
      [.bare .rparen ")"])) (some ⟨Expr.eraseAll args, {}⟩) (Expr.argsDepth args)) :
    ReadsObject (.call e args s) := by
  intro vs ls d hls
  have := h ha hls
  rw [Expr.called_erase e args s] at this
  simpa [Expr.tokens, Expr.depth, Nat.max_assoc] using this

theorem reads_literal (v : Literal) {s : Span} (h : v.WellFormed) :
    ReadsValue expression [v.token] (Expr.literal v s).erase 0 := by
  cases v with
  | int n => exact readsValue_number (t := .bare .number n.repr) rfl (Literal.ofNumber_unsigned h)
  | float x => exact readsValue_number (t := (Literal.float x).token) rfl (Literal.ofNumber_render h)
  | str s => exact readsValue_string (t := .bare .string s) rfl
  | bool b => exact readsValue_boolean (t := (Literal.bool b).token) rfl

mutual

/-- A well-formed condition is read from its tokens, with the budget that its depth says. -/
theorem reads_value : ∀ {e : Expr}, e.WellFormed → ReadsValue expression e.tokens e.erase e.depth
  | .literal v _, h => reads_literal v h
  | .ident name s, _ => by
    have := (readsCallee_ident name s).readsObject readsLinks_nil
    simpa using this
  | .attr o name s, ⟨h, ho, _⟩ => by
    have := ((reads_object h ho).readsCallee_attr name s).readsObject readsLinks_nil
    simpa using this
  | .call callee args s, h => by
    have := reads_object (e := .call callee args s) h trivial readsLinks_nil
    simpa using this
  | .negate e s, h => by
    have he : ReadsNot e.tokens e.erase e.depth :=
      readsNot_of_comparison (readsComparison_value (reads_value h)) e.head_tokens
    have := readsParens (readsOr_of_not (readsNot_not (t := .bare .kwNot "not") rfl he))
    rw [Token.bare_span, Expr.negate_erase e s] at this
    simpa [Expr.tokens, Expr.depth] using this
  | .binary op e f s, ⟨he, hf⟩ => by
    have := readsParens (readsOr_binary op (reads_value he) (reads_value hf) e.head_tokens
      f.head_tokens)
    rw [Expr.join_erase op e f s] at this
    simpa [Expr.tokens, Expr.depth] using this

theorem reads_object : ∀ {e : Expr}, e.WellFormed → e.IsObject → ReadsObject e
  | .ident name s, _, _ => (readsCallee_ident name s).readsObject
  | .attr o name s, ⟨h, ho, _⟩, _ => ((reads_object h ho).readsCallee_attr name s).readsObject
  -- only names and attributes are read together with a call behind them
  | .call (.ident name t) args s, ⟨_, _, ha⟩, _ =>
    (readsCallee_ident name t).readsObject_call s (reads_call ha)
  | .call (.attr o name t) args s, ⟨⟨h, ho, _⟩, _, ha⟩, _ =>
    ((reads_object h ho).readsCallee_attr name t).readsObject_call s (reads_call ha)
  | .call (.literal ..) _ _, ⟨_, hc, _⟩, _ | .call (.call ..) _ _, ⟨_, hc, _⟩, _
  | .call (.negate ..) _ _, ⟨_, hc, _⟩, _ | .call (.binary ..) _ _, ⟨_, hc, _⟩, _ => hc.elim
  | .literal .., _, ho | .negate .., _, ho | .binary .., _, ho => ho.elim

theorem reads_commaTokens : ∀ {es : List Expr}, Expr.AllWellFormed es →
    ReadsArgs expression (Expr.commaTokens es) (Expr.eraseAll es) (Expr.argsDepth es)
  | [], _ => readsArgs_nil
  | e :: es, ⟨he, hes⟩ =>
    readsTail_cons (t := .bare .comma ",") (by simp [Below, grip]) rfl
      (readsExpression_of_value (reads_value he) e.head_tokens) (reads_commaTokens hes)

theorem reads_call : ∀ {args : List Expr}, Expr.AllWellFormed args →
    ReadsCall expression (.bare .lparen "(" :: ((Expr.commaTokens args).tail ++
      [.bare .rparen ")"])) (some ⟨Expr.eraseAll args, {}⟩) (Expr.argsDepth args)
  | [], _ => readsCall_some rfl (reads_no_arguments rfl _)
  | e :: es, ⟨he, hes⟩ => by
    have hv := readsExpression_of_value (reads_value he) e.head_tokens
    obtain ⟨t, ts, hts, ht⟩ := e.head_tokens
    rw [hts] at hv
    have hne : t.kind ≠ .rparen := by rintro hk; simp [startsValue, hk] at ht
    have := reads_arguments hne hv (reads_commaTokens hes) (r := .bare .rparen ")") rfl (· ≠ .lparen)
    refine readsCall_some rfl ?_
    simpa [Expr.commaTokens, Expr.argsDepth, Expr.mapSpansAll, hts] using this

end

end Grammar

end PolicyLang
