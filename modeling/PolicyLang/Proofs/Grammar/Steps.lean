import PolicyLang.Program.Parser
import PolicyLang.Proofs.Grammar.Phrase
import PolicyLang.Proofs.Parser.Budget

/-!
# How phrases are read

For each way to write a phrase: if its parts are read within some budgets, so is the whole, and the
budget it needs is worked out from theirs. No induction yet.
-/

namespace PolicyLang.Grammar

open PolicyLang.Parser

/-- How tightly a token holds on to a condition that stands before it. -/
def grip : TokenKind → Nat
  | .lparen | .dot => 4
  | .compare _ => 3
  | .kwAnd => 2
  | .kwOr => 1
  | _ => 0

/-- A token that may stand behind a phrase of some level without being taken for a part of it. -/
def Below (level : Nat) (k : TokenKind) : Prop := grip k < level

theorem Below.mono {l m : Nat} {k : TokenKind} (h : Below l k) (hlm : l ≤ m) : Below m k :=
  Nat.lt_of_lt_of_le h hlm

section
variable {expr operand : Nat → Parser Expr} {us vs : List Token} {e f : Expr} {fs : List Expr}
  {F G : TokenKind → Prop} {d d' : Nat}

/-! ## Repeated operands -/

abbrev ReadsTail (k : TokenKind) (operand : Nat → Parser Expr) (F G : TokenKind → Prop) :
    List Token → List Expr → Nat → Prop :=
  ReadsAfter F (fun n => many fun t => if t.kind = k then .item (operand n) else .stop) G

theorem readsTail_nil {k : TokenKind} (hG : ∀ j, G j → F j ∧ j ≠ k) :
    ReadsTail k operand F G [] [] 0 :=
  ⟨reads_many_nil fun _ _ ht => if_neg (hG _ ht).2, fun hr => hr.mono fun _ hj => (hG _ hj).1,
    fun _ => rfl⟩

theorem readsTail_cons {t : Token} {k : TokenKind} (hk : F k) (ht : t.kind = k)
    (hf : Reads operand F us f d) (hfs : ReadsTail k operand F G vs fs d') :
    ReadsTail k operand F G (t :: (us ++ vs)) (f :: fs) (max d d') :=
  (reads_many_cons (fun _ => if_pos ht) hf hfs).after (ht ▸ hk)

theorem reads_leftAssoc (op : BinaryOp) {k : TokenKind} (he : Reads operand F us e d)
    (hfs : ReadsTail k operand F G vs fs d') :
    Reads (fun n => leftAssoc op k (operand n)) G (us ++ vs) (fs.foldl (Expr.join op) e)
      (max d d') :=
  he.bind (f := fun n first => (many fun t => if t.kind = k then .item (operand n) else .stop) >>=
    fun more => pure (more.foldl (Expr.join op) first)) (hfs.bind_pure fun _ => rfl)

/-! ## Calls and attributes -/

abbrev ReadsArgs (expr : Nat → Parser Expr) : List Token → List Expr → Nat → Prop :=
  ReadsTail .comma expr (Below 1) (· = .rparen)

theorem readsArgs_nil : ReadsArgs expr [] [] 0 :=
  readsTail_nil fun k hk => by simp [hk, Below, grip]

theorem reads_no_arguments {r : Token} (hr : r.kind = .rparen) (F : TokenKind → Prop) :
    Reads (fun n => arguments (expr n)) F [r] ⟨[], r.span⟩ 0 :=
  (reads_pure _ F).branch_some fun _ => if_pos hr

theorem reads_arguments {t r : Token} (ht : t.kind ≠ .rparen)
    (he : Reads expr (Below 1) (t :: us) e d) (hfs : ReadsArgs expr vs fs d')
    (hr : r.kind = .rparen) (F : TokenKind → Prop) :
    Reads (fun n => arguments (expr n)) F (t :: us ++ (vs ++ [r])) ⟨e :: fs, r.span⟩
      (max d d') := by
  let g (first : Expr) (more : List Expr) (r : Token) : Arguments := ⟨first :: more, r.span⟩
  have hclose := reads_expect_pure hr .closeArguments (g e fs) F
  have hmore := hfs.bind (f := fun _ more => expect .rparen .closeArguments >>= fun r =>
    pure (g e more r)) (hclose.after hr)
  have h := he.bind (f := fun n first => (many fun t => if t.kind = .comma then .item (expr n)
    else .stop) >>= fun more => expect .rparen .closeArguments >>= fun r =>
    pure (g first more r)) hmore
  rw [Nat.max_zero] at h
  exact h.branch_none fun _ => if_neg ht

abbrev ReadsCall (expr : Nat → Parser Expr) : List Token → Option Arguments → Nat → Prop :=
  ReadsAfter (fun _ => True) (fun n => arguments? (expr n)) (· ≠ .lparen)

theorem readsCall_none : ReadsCall expr [] none 0 :=
  ⟨reads_branch_pure none fun _ _ ht => if_neg ht, fun _ _ _ => trivial, fun _ => rfl⟩

theorem readsCall_some {l : Token} {a : Arguments} (hl : l.kind = .lparen)
    (ha : Reads (fun n => arguments (expr n)) (· ≠ .lparen) us a d) :
    ReadsCall expr (l :: us) (some a) d :=
  ((ha.map some).branch_some fun _ => if_pos hl).after trivial

abbrev linkTail (expr : Parser Expr) : Parser (List Link) :=
  many fun t => if t.kind = .dot then .item (link expr) else .stop

abbrev ReadsLinks (expr : Nat → Parser Expr) : List Token → List Link → Nat → Prop :=
  ReadsAfter (· ≠ .lparen) (fun n => linkTail (expr n)) (Below 4)

theorem readsLinks_nil : ReadsLinks expr [] [] 0 := by
  refine ⟨reads_many_nil fun _ t ht => if_neg ?_, fun hr => hr.mono ?_, fun _ => rfl⟩
  · intro hk
    simp [Below, grip, hk] at ht
  · rintro k hk rfl
    simp [Below, grip] at hk

theorem reads_link {n : Token} {c : Option Arguments}
    (hn : n.kind = .ident ∨ n.kind.isKeyword = true) (hc : ReadsCall expr us c d) :
    Reads (fun m => link (expr m)) (· ≠ .lparen) (n :: us) ⟨n, c⟩ d :=
  (hc.toReads.bind_pure (f := fun _ call => pure ⟨n, call⟩) fun _ => rfl).next fun _ => if_pos hn

theorem readsLinks_cons {t n : Token} {c : Option Arguments} {ls : List Link}
    (ht : t.kind = .dot) (hn : n.kind = .ident ∨ n.kind.isKeyword = true)
    (hc : ReadsCall expr us c d) (hls : ReadsLinks expr vs ls d') :
    ReadsLinks expr (t :: n :: (us ++ vs)) (⟨n, c⟩ :: ls) (max d d') :=
  (reads_many_cons (fun _ => if_pos ht) (reads_link hn hc) hls).after (by simp [ht])

/-! ## Levels of binding -/

abbrev ReadsValue (expr : Nat → Parser Expr) : List Token → Expr → Nat → Prop :=
  Reads (fun n => value (expr n)) (Below 4)

theorem readsValue_number {t : Token} {l : Literal} (ht : t.kind = .number)
    (hl : Literal.ofNumber t.text = .ok l) : ReadsValue expr [t] (.literal l t.span) 0 :=
  (reads_pure _ _).next fun _ => by rw [ht, hl]; rfl

theorem readsValue_string {t : Token} (ht : t.kind = .string) :
    ReadsValue expr [t] (.literal (.str t.text) t.span) 0 :=
  (reads_pure _ _).next fun _ => by rw [ht]

theorem readsValue_boolean {t : Token} {b : Bool} (ht : t.kind = .boolean b) :
    ReadsValue expr [t] (.literal (.bool b) t.span) 0 :=
  (reads_pure _ _).next fun _ => by rw [ht]

theorem readsValue_parens {l r : Token} (hl : l.kind = .lparen)
    (he : Reads expr (Below 1) us e d) (hr : r.kind = .rparen) :
    ReadsValue expr (l :: (us ++ [r])) e d := by
  have hclose := reads_expect_pure hr .closeParen (fun _ => e) (Below 4)
  have hr₁ : Below 1 r.kind := by simp [hr, Below, grip]
  have hin : Reads (fun n => parenthesised (expr n)) (Below 4) (us ++ [r]) e d := by
    have h := he.bind (f := fun _ e => expect .rparen .closeParen >>= fun _ => pure e)
      (hclose.after hr₁)
    rw [Nat.max_zero] at h
    exact h
  exact hin.next fun _ => by rw [hl]

theorem readsValue_chain {t : Token} {c : Option Arguments} {ls : List Link}
    (ht : t.kind = .ident) (hc : ReadsCall expr us c d) (hls : ReadsLinks expr vs ls d') :
    ReadsValue expr (t :: (us ++ vs))
      (ls.foldl Expr.linked ((Expr.ident t.text t.span).called c)) (max d d') := by
  have hin : Reads (fun n => chain (expr n) t) (Below 4) (us ++ vs)
      (ls.foldl Expr.linked ((Expr.ident t.text t.span).called c)) (max d d') :=
    hc.toReads.bind (hls.bind_pure fun _ => rfl)
  exact hin.next fun _ => by rw [ht]

abbrev ReadsComparison (expr : Nat → Parser Expr) : List Token → Expr → Nat → Prop :=
  Reads (fun n => comparison (expr n)) (Below 3)

abbrev comparisonTail (expr : Parser Expr) (left : Expr) : Parser Expr :=
  branch (pure left) fun t =>
    match t.kind with
    | .compare c => some do
        let right ← value expr
        refuse TokenKind.isComparison .chainedComparison
        pure (.join (.compare c) left right)
    | _ => none

theorem reads_no_comparison (e : Expr) :
    ReadsAfter (Below 4) (fun n => comparisonTail (expr n) e) (Below 3) [] e 0 := by
  refine ⟨reads_branch_pure e fun _ t ht => ?_, fun hr => ?_, fun _ => rfl⟩
  · split
    · rename_i hk
      simp [hk, Below, grip] at ht
    · rfl
  · exact hr.mono fun k hk => hk.mono (by decide)

theorem reads_refuse_comparison (e : Expr) :
    ReadsAfter (Below 4) (fun _ => refuse TokenKind.isComparison .chainedComparison >>= fun _ =>
      pure e) (Below 3) [] e 0 := by
  refine ⟨⟨fun {n rest} _ hr => ?_, fun _ hn => absurd hn (Nat.not_lt_zero _)⟩,
    fun hr => hr.mono fun k hk => hk.mono (by decide), fun _ => rfl⟩
  cases rest with
  | nil => rfl
  | cons u ts =>
    have hu : u.kind.isComparison = false := by
      have hu : Below 3 u.kind := by simpa using hr
      unfold TokenKind.isComparison
      split
      · rename_i hk
        simp [hk, Below, grip] at hu
      · rfl
    simp [run_bind, run_refuse_cons, hu]

theorem readsComparison_value (he : ReadsValue expr us e d) : ReadsComparison expr us e d := by
  have h := he.bind (f := fun n => comparisonTail (expr n)) (reads_no_comparison e)
  rw [Nat.max_zero, List.append_nil] at h
  exact h

theorem readsComparison_compare {t : Token} {c : Comparison} (he : ReadsValue expr us e d)
    (ht : t.kind = .compare c) (hf : ReadsValue expr vs f d') :
    ReadsComparison expr (us ++ t :: vs) (.join (.compare c) e f) (max d d') := by
  have hright := hf.bind (f := fun _ f => refuse TokenKind.isComparison .chainedComparison >>=
    fun _ => pure (Expr.join (.compare c) e f)) (reads_refuse_comparison _)
  refine he.bind (f := fun n => comparisonTail (expr n)) ?_
  refine ⟨?_, fun _ => by simp [ht, Below, grip], fun h => by cases h⟩
  apply Reads.branch_some (by simpa using hright)
  intro _
  rw [ht]

end

/-! ## The budget -/

section
variable {us vs : List Token} {e : Expr} {fs : List Expr} {t : Token} {d d' : Nat}

/-- What may stand behind `not` with a budget of `n`: nothing is left for that if `n` is zero. -/
def operand : Nat → Parser Expr
  | 0 => fail .tooDeep
  | n + 1 => negation n

theorem negation_eq (n : Nat) : negation n = unary (operand n) (expression n) := by
  cases n <;> rfl

theorem reads_succ {p q : Nat → Parser Expr} {F : TokenKind → Prop} (h : Reads p F us e d)
    (h0 : q 0 = fail .tooDeep) (hs : ∀ n, q (n + 1) = p n) : Reads q F us e (d + 1) := by
  refine ⟨fun {n rest} hn hr => ?_, fun {n} rest hn => ?_⟩
  · obtain ⟨m, rfl⟩ : ∃ m, n = m + 1 := ⟨n - 1, by omega⟩
    rw [hs]
    exact h.ok (by omega) hr
  · cases n with
    | zero => rw [h0]; exact ⟨_, rfl⟩
    | succ m => rw [hs]; exact h.tooDeep rest (by omega)

abbrev ReadsNot : List Token → Expr → Nat → Prop := Reads negation (Below 3)

theorem readsNot_not (ht : t.kind = .kwNot) (he : ReadsNot us e d) :
    ReadsNot (t :: us) (.negate e (t.span.to e.span)) (d + 1) := by
  have ho : Reads operand (Below 3) us e (d + 1) := reads_succ he rfl fun _ => rfl
  have h : Reads (fun n => unary (operand n) (expression n)) (Below 3) (t :: us)
      (.negate e (t.span.to e.span)) (d + 1) :=
    (ho.bind_pure (f := fun _ e => pure (.negate e (t.span.to e.span))) fun _ => rfl).branch_some
      fun _ => if_pos ht
  exact h.congr fun n rest => by rw [negation_eq]

theorem readsNot_comparison (ht : t.kind ≠ .kwNot) (he : ReadsComparison expression (t :: us) e d) :
    ReadsNot (t :: us) e d := by
  have h : Reads (fun n => unary (operand n) (expression n)) (Below 3) (t :: us) e d :=
    he.branch_none fun _ => if_neg ht
  exact h.congr fun n rest => by rw [negation_eq]

abbrev ReadsAndTail : List Token → List Expr → Nat → Prop :=
  ReadsTail .kwAnd negation (Below 3) (Below 2)

abbrev ReadsAnd : List Token → Expr → Nat → Prop :=
  Reads (fun n => leftAssoc .and .kwAnd (negation n)) (Below 2)

theorem readsAndTail_nil : ReadsAndTail [] [] 0 :=
  readsTail_nil fun k hk => ⟨hk.mono (by decide), by rintro rfl; simp [Below, grip] at hk⟩

abbrev ReadsOrTail : List Token → List Expr → Nat → Prop :=
  ReadsTail .kwOr (fun n => leftAssoc .and .kwAnd (negation n)) (Below 2) (Below 1)

abbrev ReadsOr : List Token → Expr → Nat → Prop :=
  Reads (fun n => disjunction (negation n)) (Below 1)

theorem readsOrTail_nil : ReadsOrTail [] [] 0 :=
  readsTail_nil fun k hk => ⟨hk.mono (by decide), by rintro rfl; simp [Below, grip] at hk⟩

theorem readsExpression (he : ReadsOr us e d) : Reads expression (Below 1) us e (d + 1) :=
  reads_succ he rfl fun _ => rfl

end

/-! ## Clauses -/

theorem reads_plainAction (t : Token) (v : Verdict) :
    Reads (fun _ => plainAction t v) (· ≠ .kwTo) [] ⟨v, t.span⟩ 0 := by
  refine ⟨fun {n rest} _ hr => ?_, fun _ hn => absurd hn (Nat.not_lt_zero _)⟩
  cases rest with
  | nil => rfl
  | cons u us =>
    have hu : u.kind ≠ .kwTo := by simpa using hr
    simp [plainAction, run_bind, run_refuse_cons, hu]

theorem reads_route {t o n : Token} (ho : o.kind = .kwTo) (hn : n.kind = .ident) :
    Reads (fun _ => actionAfter t .route) (· ≠ .kwTo) [o, n]
      ⟨.route ⟨n.text, n.span⟩, t.span.to n.span⟩ 0 := by
  have h := reads_expect_pure hn .routeTarget
    (fun n => Action.mk (.route ⟨n.text, n.span⟩) (t.span.to n.span)) (· ≠ .kwTo)
  exact Reads.expect_bind (f := fun _ _ => expect .ident .routeTarget >>= fun n =>
    pure (Action.mk (.route ⟨n.text, n.span⟩) (t.span.to n.span))) h ho

theorem ActionPhrase.reads {us : List Token} {a : Action} : ActionPhrase us a →
    ∃ t vs v, us = t :: vs ∧ t.kind = .verb v ∧
      Reads (fun _ => actionAfter t v) (· ≠ .kwTo) vs a 0
  | .deny ht => ⟨_, _, _, rfl, ht, reads_plainAction _ _⟩
  | .allow ht => ⟨_, _, _, rfl, ht, reads_plainAction _ _⟩
  | .escalate ht => ⟨_, _, _, rfl, ht, reads_plainAction _ _⟩
  | .route ht ho hn => ⟨_, _, _, rfl, ht, reads_route ho hn⟩

theorem reads_action {us : List Token} {a : Action} (ha : ActionPhrase us a) :
    Reads (fun _ => action) (· ≠ .kwTo) us a 0 := by
  obtain ⟨t, vs, v, rfl, ht, h⟩ := ha.reads
  exact h.next fun _ => by rw [ht]

theorem reads_guardAfter {w t : Token} {us vs : List Token} {e : Expr} {a : Action} {d : Nat}
    (he : ReadsOr us e d) (ht : t.kind = .kwThen) (ha : ActionPhrase vs a) :
    Reads (fun n => guardAfter n w) (· ≠ .kwTo) (us ++ t :: vs) ⟨e, a, w.span.to a.span⟩
      (d + 1) := by
  have hthen := Reads.expect_bind (f := fun _ _ => action >>= fun a =>
    pure (Guard.mk e a (w.span.to a.span))) (c := .thenWord)
    ((reads_action ha).bind_pure fun _ => rfl) ht
  have h := (readsExpression he).bind (f := fun _ e => expect .kwThen .thenWord >>= fun _ =>
    action >>= fun a => pure (Guard.mk e a (w.span.to a.span)))
    (hthen.after (by simp [ht, Below, grip]))
  rw [Nat.max_zero] at h
  exact h

theorem reads_priorityAfter {p n : Token} {v : Int} (hn : n.kind = .number)
    (hv : Priority.ofNumber n.text = .ok v) (F : TokenKind → Prop) :
    Reads (fun _ => priorityAfter p) F [n] ⟨v, p.span.to n.span⟩ 0 :=
  (reads_pure _ F).next fun _ => by rw [if_pos hn, hv]; rfl

/-- The kinds of tokens that may stand behind any item of a body. -/
def Behind (k : TokenKind) : Prop := k ≠ .kwTo ∧ k ≠ .colon

def StartsClause (k : TokenKind) : Prop := k = .kwWhen ∨ k = .kwPriority ∨ ∃ v, k = .verb v

theorem StartsClause.behind {k : TokenKind} (h : StartsClause k) : Behind k := by
  rcases h with rfl | rfl | ⟨v, rfl⟩ <;> simp [Behind]

theorem ruleStep_of_clause {n : Nat} {t : Token} {p : Parser Clause} (ht : StartsClause t.kind)
    (hp : clauseAfter? n t = some p) : ruleStep n t = .item p := by
  have hb : t.kind ≠ .rbrace := by
    intro hb
    simp [StartsClause, hb] at ht
  simp only [ruleStep, if_neg hb, hp]

theorem policyStep_of_clause {n : Nat} {t : Token} {p : Parser Clause} (ht : StartsClause t.kind)
    (hp : clauseAfter? n t = some p) : policyStep n t = .item (.clause <$> p) := by
  rcases ht with ht | ht | ⟨v, ht⟩ <;> simp only [policyStep, ht, hp]

def ReadsClause (us : List Token) (c : Clause) (d : Nat) : Prop :=
  ∃ t vs p, us = t :: vs ∧ StartsClause t.kind ∧ (∀ n, clauseAfter? n t = some (p n)) ∧
    Reads p Behind vs c d

theorem readsClause_guard {w t : Token} {us vs : List Token} {e : Expr} {a : Action} {d : Nat}
    (hw : w.kind = .kwWhen) (he : ReadsOr us e d) (ht : t.kind = .kwThen)
    (ha : ActionPhrase vs a) :
    ReadsClause (w :: (us ++ t :: vs)) (.guard ⟨e, a, w.span.to a.span⟩) (d + 1) :=
  ⟨w, _, fun n => .guard <$> guardAfter n w, rfl, .inl hw, fun n => by simp only [clauseAfter?, hw],
    ((reads_guardAfter he ht ha).map Clause.guard).mono fun _ hk => hk.1⟩

theorem readsClause_priority {p n : Token} {v : Int} (hp : p.kind = .kwPriority)
    (hn : n.kind = .number) (hv : Priority.ofNumber n.text = .ok v) :
    ReadsClause [p, n] (.priority ⟨v, p.span.to n.span⟩) 0 :=
  ⟨p, _, fun _ => .priority <$> priorityAfter p, rfl, .inr (.inl hp),
    fun m => by simp only [clauseAfter?, hp], (reads_priorityAfter hn hv Behind).map Clause.priority⟩

theorem readsClause_action {us : List Token} {a : Action} (ha : ActionPhrase us a) :
    ReadsClause us (.action a) 0 := by
  obtain ⟨t, vs, v, rfl, ht, h⟩ := ha.reads
  exact ⟨t, vs, fun _ => .action <$> actionAfter t v, rfl, .inr (.inr ⟨v, ht⟩),
    fun n => by simp only [clauseAfter?, ht], (h.map Clause.action).mono fun _ hk => hk.1⟩

theorem ReadsClause.ruleItem {us : List Token} {c : Clause} {d : Nat} (h : ReadsClause us c d) :
    ReadsItem ruleStep Behind us c d := by
  obtain ⟨t, vs, p, rfl, ht, hp, hr⟩ := h
  exact ⟨t, vs, p, rfl, ht.behind, fun n => ruleStep_of_clause ht (hp n), hr⟩

theorem ReadsClause.policyItem {us : List Token} {c : Clause} {d : Nat} (h : ReadsClause us c d) :
    ReadsItem policyStep Behind us (.clause c) d := by
  obtain ⟨t, vs, p, rfl, ht, hp, hr⟩ := h
  exact ⟨t, vs, fun n => .clause <$> p n, rfl, ht.behind, fun n => policyStep_of_clause ht (hp n),
    hr.map PolicyItem.clause⟩

/-! ## Declarations -/

section
variable {α β : Type} {us : List Token} {d : Nat}

theorem reads_block {F G : TokenKind → Prop} {step : Nat → Token → Step α} {k b e : Token}
    {c : Category} {body : List α} (hk : k.kind = .category c) (hb : b.kind = .lbrace)
    (hus : ReadsAfter G (fun m => many (step m)) (· = .rbrace) us body d) (he : e.kind = .rbrace)
    (hopen hclose : Cause) (g : Category → List α → Token → β) :
    Reads (fun m => category >>= fun c => expect .lbrace hopen >>= fun _ =>
      many (step m) >>= fun body => expect .rbrace hclose >>= fun e => pure (g c body e)) F
      (k :: b :: (us ++ [e])) (g c body e) d := by
  have hend := reads_expect_pure he hclose (g c body) F
  have hbody := hus.toReads.bind (f := fun _ body => expect .rbrace hclose >>= fun e =>
    pure (g c body e)) (hend.after he)
  rw [Nat.max_zero] at hbody
  have hbrace := Reads.expect_bind (f := fun m _ => many (step m) >>= fun body =>
    expect .rbrace hclose >>= fun e => pure (g c body e)) (c := hopen) hbody hb
  have hcat : Reads (fun _ => category) (· = .lbrace) [k] c 0 :=
    (reads_pure c _).next fun _ => by rw [hk]
  have h := hcat.bind (f := fun m c => expect .lbrace hopen >>= fun _ => many (step m) >>=
    fun body => expect .rbrace hclose >>= fun e => pure (g c body e)) (hbrace.after hb)
  rw [Nat.zero_max] at h
  exact h

/-- The items between the braces of a declaration. -/
abbrev ReadsBody (step : Nat → Token → Step α) : List Token → List α → Nat → Prop :=
  ReadsAfter Behind (fun m => many (step m)) (· = .rbrace)

def ReadsRule (us : List Token) (r : Rule) (d : Nat) : Prop :=
  ∃ w n o vs, us = w :: n :: o :: vs ∧ w.kind = .kwRule ∧ n.kind = .ident ∧ o.kind = .colon ∧
    ∀ F, Reads (fun m => ruleAfterName m w n) F vs r d

theorem readsRule_mk {w n o k b e : Token} {c : Category} {body : List Clause}
    (hw : w.kind = .kwRule) (hn : n.kind = .ident) (ho : o.kind = .colon)
    (hk : k.kind = .category c) (hb : b.kind = .lbrace)
    (hus : ReadsBody ruleStep us body d) (he : e.kind = .rbrace) :
    ReadsRule (w :: n :: o :: k :: b :: (us ++ [e])) ⟨n.text, c, body, w.span.to e.span⟩ d :=
  ⟨w, n, o, _, rfl, hw, hn, ho, fun _ => reads_block hk hb hus he .ruleOpen (.ruleClose n.text)
    fun c body e => Rule.mk n.text c body (w.span.to e.span)⟩

theorem ReadsRule.statement {r : Rule} (h : ReadsRule us r d) :
    ReadsItem statementStep (fun _ => True) us (.rule r) d := by
  obtain ⟨w, n, o, vs, rfl, hw, hn, ho, hr⟩ := h
  have hcolon := Reads.expect_bind (f := fun m _ => ruleAfterName m w n) (c := .ruleColon)
    (hr fun _ => True) ho
  have hname := Reads.expect_bind (f := fun m n => expect .colon .ruleColon >>= fun _ =>
    ruleAfterName m w n) (c := .ruleName) hcolon hn
  exact ⟨w, _, fun m => .rule <$> ruleAfter m w, rfl, trivial,
    fun m => by simp only [statementStep, hw], hname.map Statement.rule⟩

abbrev ruleItemTail (limit : Nat) (start name : Token) : Parser PolicyItem :=
  branch (pure (.ref ⟨name.text, start.span.to name.span⟩)) fun t =>
    if t.kind = .colon then some (.rule <$> ruleAfterName limit start name) else none

theorem ReadsRule.policyItem {r : Rule} (h : ReadsRule us r d) :
    ReadsItem policyStep Behind us (.rule r) d := by
  obtain ⟨w, n, o, vs, rfl, hw, hn, ho, hr⟩ := h
  have hcolon : Reads (fun m => ruleItemTail m w n) Behind (o :: vs) (.rule r) d :=
    ((hr Behind).map PolicyItem.rule).branch_some fun _ => if_pos ho
  have hname := Reads.expect_bind (f := fun m n => ruleItemTail m w n) (c := .ruleName) hcolon hn
  exact ⟨w, _, fun m => ruleItemAfter m w, rfl, by simp [hw, Behind],
    fun m => by simp only [policyStep, hw], hname⟩

theorem reads_ruleItemTail_ref (w n : Token) :
    Reads (fun m => ruleItemTail m w n) Behind [] (.ref ⟨n.text, w.span.to n.span⟩) 0 :=
  reads_branch_pure _ fun _ _ ht => if_neg ht.2

theorem readsItem_ref {w n : Token} (hw : w.kind = .kwRule) (hn : n.kind = .ident) :
    ReadsItem policyStep Behind [w, n] (PolicyItem.ref ⟨n.text, w.span.to n.span⟩) 0 := by
  have hname := Reads.expect_bind (f := fun m n => ruleItemTail m w n) (c := .ruleName)
    (reads_ruleItemTail_ref w n) hn
  exact ⟨w, _, fun m => ruleItemAfter m w, rfl, by simp [hw, Behind],
    fun m => by simp only [policyStep, hw], hname⟩

theorem readsItem_policy {w n o k b e : Token} {c : Category} {body : List PolicyItem}
    (hw : w.kind = .kwPolicy) (hn : n.kind = .ident) (ho : o.kind = .colon)
    (hk : k.kind = .category c) (hb : b.kind = .lbrace)
    (hus : ReadsBody policyStep us body d) (he : e.kind = .rbrace) :
    ReadsItem statementStep (fun _ => True) (w :: n :: o :: k :: b :: (us ++ [e]))
      (.policy ⟨n.text, c, body, w.span.to e.span⟩) d := by
  let g (n : Token) (c : Category) (body : List PolicyItem) (e : Token) : Policy :=
    ⟨n.text, c, body, w.span.to e.span⟩
  have hblock := reads_block (F := fun _ => True) hk hb hus he .policyOpen (.policyClose n.text)
    (g n)
  have hcolon := Reads.expect_bind (f := fun m _ => category >>= fun c =>
    expect .lbrace .policyOpen >>= fun _ => many (policyStep m) >>= fun body =>
    expect .rbrace (.policyClose n.text) >>= fun e => pure (g n c body e)) (c := .policyColon)
    hblock ho
  have hname := Reads.expect_bind (f := fun m n => expect .colon .policyColon >>= fun _ =>
    category >>= fun c => expect .lbrace .policyOpen >>= fun _ => many (policyStep m) >>=
    fun body => expect .rbrace (.policyClose n.text) >>= fun e => pure (g n c body e))
    (c := .policyName) hcolon hn
  exact ⟨w, _, fun m => .policy <$> policyAfter m w, rfl, trivial,
    fun m => by simp only [statementStep, hw], hname.map Statement.policy⟩

theorem readsItem_import {i s : Token} (hi : i.kind = .kwImport) (hs : s.kind = .string) :
    ReadsItem statementStep (fun _ => True) [i, s] (.imports ⟨s.text, i.span.to s.span⟩) 0 := by
  have h := reads_expect_pure hs .importPath (fun s => Import.mk s.text (i.span.to s.span))
    fun _ => True
  exact ⟨i, _, fun _ => .imports <$> importAfter i, rfl, trivial,
    fun m => by simp only [statementStep, hi], h.map Statement.imports⟩

end

end PolicyLang.Grammar
