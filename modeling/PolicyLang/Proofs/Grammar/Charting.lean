import PolicyLang.Proofs.Grammar.Brackets
import PolicyLang.Proofs.Grammar.Charts
import PolicyLang.Proofs.Grammar.Completeness

/-!
# Every phrase is charted

The tree of a phrase is charted over its tokens. Where the tokens of a condition have balanced
parentheses, they are read on their own as this condition, within the budget of the phrase.
-/

namespace PolicyLang.Grammar

open PolicyLang.Parser

/-- With balanced parentheses, the tokens are read as a whole condition where conditions may nest up to
`n`: one unit of the budget is for entering the condition. -/
def Fits (n : Nat) (us : List Token) (e : Expr) : Prop := Balanced us → ∃ d < n, ReadsOr us e d

theorem Fits.mono {n m : Nat} (h : n ≤ m) (us : List Token) (e : Expr) (hn : Fits n us e) :
    Fits m us e := by
  intro hb
  obtain ⟨d, hd, hr⟩ := hn hb
  exact ⟨d, Nat.lt_of_lt_of_le hd h, hr⟩

/-- With balanced parentheses, the tokens are read as this condition within the budget. -/
def Readable (n : Nat) : List Token → Expr → Prop := Fits (n + 1)

theorem Readable.mono {n m : Nat} (h : n ≤ m) (us : List Token) (e : Expr) (hn : Readable n us e) :
    Readable m us e :=
  Fits.mono (Nat.succ_le_succ h) us e hn

section
variable {us vs : List Token} {e f : Expr} {d d' : Nat}

theorem readsOr_of_comparison (h : ReadsComparison expression us e d)
    (hus : ∃ t ts, us = t :: ts ∧ startsValue t.kind) : ReadsOr us e d :=
  readsOr_of_not (readsNot_of_comparison h hus)

theorem readable_of_value (h : ReadsValue expression us e d)
    (hus : ∃ t ts, us = t :: ts ∧ startsValue t.kind) : Readable d us e :=
  fun _ => ⟨d, Nat.lt_succ_self d, readsOr_of_comparison (readsComparison_value h) hus⟩

theorem wrapped_join {op : BinaryOp} {t : Token} (ht : Neutral t.kind)
    (he : Wrapped (Readable d) us e) (hf : Wrapped (Readable d') vs f) (hus : Balanced us)
    (hvs : Balanced vs) (h : ReadsOr (us ++ t :: vs) (.join op e f) (max d d')) :
    Wrapped (Readable (max d d')) (us ++ t :: vs) (.join op e f) := by
  refine (he.imp (Readable.mono (Nat.le_max_left ..))).join
    (hf.imp (Readable.mono (Nat.le_max_right ..))) ?_
  intro os us' vs' cs hu hv hos hcs hb
  rw [hu] at hus
  rw [hv] at hvs
  obtain ⟨rfl, rfl⟩ := hus.eq_nil_of_ends hvs ht hos hcs hb
  rw [List.nil_append] at hu
  rw [List.append_nil] at hv
  exact ⟨max d d', Nat.lt_succ_self _, hu ▸ hv ▸ h⟩

theorem wrapped_negate {t : Token} (ht : Neutral t.kind) (he : Wrapped (Readable d) us e)
    (hus : Balanced us) (h : ReadsOr (t :: us) (.negate e (t.span.to e.span)) (d + 1)) :
    Wrapped (Readable (d + 1)) (t :: us) (.negate e (t.span.to e.span)) := by
  refine (he.imp (Readable.mono (Nat.le_succ d))).negate ?_
  intro us' cs hu hcs hb
  rw [Balanced.cons_iff ht] at hb
  rw [hu] at hus
  obtain rfl := hus.eq_nil_of_rparens hcs hb
  rw [List.append_nil] at hu
  exact ⟨d + 1, Nat.lt_succ_self _, hu ▸ h⟩

end

/-! ## Repeated operands -/

/-- An operand behind its operator. -/
def Operand (k : TokenKind) (R : List Token → Expr → Nat → Prop) (us : List Token) (f : Expr) :
    Prop :=
  ∃ t vs d, us = t :: vs ∧ t.kind = k ∧ R vs f d ∧ Balanced vs ∧ Wrapped (Readable d) vs f

theorem operand_cons {k : TokenKind} {R : List Token → Expr → Nat → Prop} {t : Token}
    {us vs : List Token} {f : Expr} {fs : List Expr} {d : Nat} (ht : t.kind = k) (h : R us f d)
    (hus : Balanced us) (hw : Wrapped (Readable d) us f) (hfs : Many (Operand k R) vs fs) :
    Many (Operand k R) (t :: (us ++ vs)) (f :: fs) := by
  have hf : Operand k R (t :: us) f := ⟨t, us, d, rfl, ht, h, hus, hw⟩
  exact .cons hf hfs

section
variable {operand : Nat → Parser Expr} {F G : TokenKind → Prop} {op : BinaryOp} {k : TokenKind}
  {us vs : List Token} {e : Expr} {fs : List Expr} {d : Nat}

/-- The condition is read together with any operands behind it. -/
def ReadsFirst (op : BinaryOp) (k : TokenKind) (operand : Nat → Parser Expr)
    (F G : TokenKind → Prop) (us : List Token) (e : Expr) (d : Nat) : Prop :=
  ∀ ⦃vs fs d'⦄, ReadsTail k operand F G vs fs d' →
    Reads (fun n => leftAssoc op k (operand n)) G (us ++ vs) (fs.foldl (Expr.join op) e) (max d d')

theorem ReadsFirst.snoc {t : Token} {f : Expr} {d' : Nat}
    (h : ReadsFirst op k operand F G us e d) (hk : F k) (ht : t.kind = k)
    (hf : Reads operand F vs f d') :
    ReadsFirst op k operand F G (us ++ t :: vs) (.join op e f) (max d d') := by
  intro ws fs d'' hws
  have := h (readsTail_cons hk ht hf hws)
  rw [← Nat.max_assoc] at this
  simpa using this

/-- From the left, each operand makes a larger condition, and all of these are charted. -/
theorem wrapped_leftAssoc (hk : F k) (hn : Neutral k)
    (hnil : ReadsTail k operand F G [] [] 0)
    (hor : ∀ {us e d}, Reads (fun n => leftAssoc op k (operand n)) G us e d → ReadsOr us e d)
    (h : ReadsFirst op k operand F G us e d) (hus : Balanced us) (he : Wrapped (Readable d) us e)
    (hvs : Many (Operand k (Reads operand F)) vs fs) :
    ∃ d', Reads (fun n => leftAssoc op k (operand n)) G (us ++ vs) (fs.foldl (Expr.join op) e) d' ∧
      Wrapped (Readable d') (us ++ vs) (fs.foldl (Expr.join op) e) := by
  induction hvs generalizing us e d with
  | nil =>
    have := h hnil
    rw [Nat.max_zero] at this
    exact ⟨d, this, by rwa [List.append_nil]⟩
  | cons hf _ ih =>
    obtain ⟨t, ws, d₁, rfl, ht, hf, hws, hwf⟩ := hf
    have ht' : Neutral t.kind := ht ▸ hn
    have hnext := h.snoc hk ht hf
    have hread := hnext hnil
    rw [List.append_nil, Nat.max_zero] at hread
    have := ih hnext (hus.append (.cons ht' hws)) (wrapped_join ht' he hwf hus hws (hor hread))
    simpa using this

end

/-! ## Calls and attributes -/

/-- An attribute behind its dot, with the call behind it. -/
def Linked (us : List Token) (l : Link) : Prop :=
  ∃ t vs d, us = t :: l.name :: vs ∧ t.kind = .dot ∧
    (l.name.kind = .ident ∨ l.name.kind.isKeyword = true) ∧ ReadsCall expression vs l.call d ∧
    CallLaid (Readable d) vs l.call

theorem linked_cons {t n : Token} {us vs : List Token} {c : Option Arguments} {ls : List Link}
    {d : Nat} (ht : t.kind = .dot) (hn : n.kind = .ident ∨ n.kind.isKeyword = true)
    (h : ReadsCall expression us c d) (hc : CallLaid (Readable d) us c) (hls : Many Linked vs ls) :
    Many Linked (t :: n :: (us ++ vs)) (⟨n, c⟩ :: ls) := by
  have hl : Linked (t :: n :: us) ⟨n, c⟩ := ⟨t, us, d, rfl, ht, hn, h, hc⟩
  exact .cons hl hls

/-- The condition is read together with any attributes behind it. -/
def ReadsRoot (us : List Token) (e : Expr) (d : Nat) : Prop :=
  ∀ ⦃vs ls d'⦄, ReadsLinks expression vs ls d' →
    ReadsValue expression (us ++ vs) (ls.foldl Expr.linked e) (max d d')

/-- It is charted over the tokens too, and they begin like a value. -/
structure Root (us : List Token) (e : Expr) (d : Nat) : Prop where
  reads : ReadsRoot us e d
  head : ∃ t ts, us = t :: ts ∧ startsValue t.kind
  charted : Charted (Readable d) us (.expr e)

section
variable {us vs : List Token} {e : Expr} {d d' : Nat}

theorem ReadsRoot.value (h : ReadsRoot us e d) : ReadsValue expression us e d := by
  have := h readsLinks_nil
  rwa [List.append_nil, Nat.max_zero] at this

theorem Root.called {c : Option Arguments} (h : Root us e d)
    (hread : ReadsRoot (us ++ vs) (e.called c) (max d d')) (hc : CallLaid (Readable d') vs c) :
    Root (us ++ vs) (e.called c) (max d d') := by
  obtain ⟨-, ⟨t, ts, rfl, ht⟩, hcharted⟩ := h
  have hhead : ∃ u us, t :: ts ++ vs = u :: us ∧ startsValue u.kind := ⟨t, _, rfl, ht⟩
  refine ⟨hread, hhead, ?_⟩
  exact (hcharted.imp (Readable.mono (Nat.le_max_left ..))).called
    (hc.imp (Readable.mono (Nat.le_max_right ..))) (readable_of_value hread.value hhead)

theorem Root.linked {l : Link} (h : Root us e d) (hl : Linked vs l) :
    ∃ d', Root (us ++ vs) (e.linked l) d' := by
  obtain ⟨t, ws, d₁, rfl, ht, hn, hcall, hlaid⟩ := hl
  obtain ⟨n, c⟩ := l
  have hattr : ReadsRoot (us ++ [t, n]) (.attr e n.text (e.span.to n.span)) d := by
    intro xs ls d' hxs
    have := h.reads (readsLinks_cons ht hn readsCall_none hxs)
    rw [Nat.zero_max] at this
    simpa [Expr.linked, Expr.called] using this
  have hread : ReadsRoot (us ++ [t, n] ++ ws) ((Expr.attr e n.text (e.span.to n.span)).called c)
      (max d d₁) := by
    intro xs ls d' hxs
    have := h.reads (readsLinks_cons ht hn hcall hxs)
    rw [← Nat.max_assoc] at this
    simpa [Expr.linked] using this
  have hhead : ∃ u ts, us ++ [t, n] = u :: ts ∧ startsValue u.kind := by
    obtain ⟨u, ts, rfl, hu⟩ := h.head
    exact ⟨u, _, rfl, hu⟩
  have hroot : Root (us ++ [t, n]) (.attr e n.text (e.span.to n.span)) d :=
    ⟨hattr, hhead, h.charted.attr (readable_of_value hattr.value hhead)⟩
  have := hroot.called hread hlaid
  rw [List.append_assoc] at this
  exact ⟨_, this⟩

theorem Root.foldl_linked {ls : List Link} (h : Root us e d) (hvs : Many Linked vs ls) :
    ∃ d', Root (us ++ vs) (ls.foldl Expr.linked e) d' := by
  induction hvs generalizing us e d with
  | nil => exact ⟨d, by rwa [List.append_nil]⟩
  | cons hl _ ih =>
    obtain ⟨d₁, h₁⟩ := h.linked hl
    have := ih h₁
    rwa [List.append_assoc] at this

theorem root_ident {t : Token} {c : Option Arguments} (ht : t.kind = .ident)
    (hcall : ReadsCall expression us c d) (hc : CallLaid (Readable d) us c) :
    ∃ d', Root (t :: us) ((Expr.ident t.text t.span).called c) d' := by
  have hread {us : List Token} {c : Option Arguments} {d : Nat} (hcall : ReadsCall expression us c d) :
      ReadsRoot ([t] ++ us) ((Expr.ident t.text t.span).called c) (max 0 d) := by
    intro vs ls d' hls
    have := readsValue_chain ht hcall hls
    rwa [Nat.zero_max]
  have hname := hread readsCall_none
  have hhead : ∃ u ts, [t] = u :: ts ∧ startsValue u.kind := ⟨t, [], rfl, by simp [startsValue, ht]⟩
  have hroot : Root [t] (.ident t.text t.span) 0 :=
    ⟨hname, hhead, charted_leaf (spans_singleton t) rfl (readable_of_value hname.value hhead)⟩
  exact ⟨_, hroot.called (hread hcall) hc⟩

end

/-! ## Conditions -/

theorem wrapped_literal {t : Token} {l : Literal} (h : ValuePhrase [t] (.literal l t.span))
    (hread : ReadsValue expression [t] (.literal l t.span) 0) :
    ∃ d, ReadsValue expression [t] (.literal l t.span) d ∧
      Wrapped (Readable d) [t] (.literal l t.span) := by
  have hleaf := charted_leaf (spans_singleton t) rfl (readable_of_value hread h.head)
  exact ⟨0, hread, hleaf.wrapped⟩

mutual

theorem wrapped_or : ∀ {us e}, OrPhrase us e → ∃ d, ReadsOr us e d ∧ Wrapped (Readable d) us e
  | _, _, .mk he hfs => by
    obtain ⟨d, h, hw⟩ := wrapped_and he
    obtain ⟨fs, rfl, hops⟩ := operands_orTail hfs
    exact wrapped_leftAssoc (by simp [Below, grip]) (by simp [Neutral]) readsOrTail_nil id
      (fun vs fs d' hvs => reads_leftAssoc .or h hvs) he.balanced hw hops

theorem operands_orTail : ∀ {e us g}, OrTail e us g →
    ∃ fs : List Expr, fs.foldl (.join .or) e = g ∧ Many (Operand .kwOr ReadsAnd) us fs
  | _, _, _, .nil => ⟨[], rfl, .nil⟩
  | _, _, _, .cons (f := f) ht hf hfs => by
    obtain ⟨d, h, hw⟩ := wrapped_and hf
    obtain ⟨fs, rfl, hops⟩ := operands_orTail hfs
    exact ⟨f :: fs, rfl, operand_cons ht h hf.balanced hw hops⟩

theorem wrapped_and : ∀ {us e}, AndPhrase us e → ∃ d, ReadsAnd us e d ∧ Wrapped (Readable d) us e
  | _, _, .mk he hfs => by
    obtain ⟨d, h, hw⟩ := wrapped_not he
    obtain ⟨fs, rfl, hops⟩ := operands_andTail hfs
    exact wrapped_leftAssoc (by simp [Below, grip]) (by simp [Neutral]) readsAndTail_nil readsOr_of_and
      (fun vs fs d' hvs => reads_leftAssoc .and h hvs) he.balanced hw hops

theorem operands_andTail : ∀ {e us g}, AndTail e us g →
    ∃ fs : List Expr, fs.foldl (.join .and) e = g ∧ Many (Operand .kwAnd ReadsNot) us fs
  | _, _, _, .nil => ⟨[], rfl, .nil⟩
  | _, _, _, .cons (f := f) ht hf hfs => by
    obtain ⟨d, h, hw⟩ := wrapped_not hf
    obtain ⟨fs, rfl, hops⟩ := operands_andTail hfs
    exact ⟨f :: fs, rfl, operand_cons ht h hf.balanced hw hops⟩

theorem wrapped_not : ∀ {us e}, NotPhrase us e → ∃ d, ReadsNot us e d ∧ Wrapped (Readable d) us e
  | _, _, .not ht he => by
    obtain ⟨d, h, hw⟩ := wrapped_not he
    have hread := readsNot_not ht h
    exact ⟨d + 1, hread, wrapped_negate (by simp [ht, Neutral]) hw he.balanced (readsOr_of_not hread)⟩
  | _, _, .plain he => by
    obtain ⟨d, h, hw⟩ := wrapped_comparison he
    exact ⟨d, readsNot_of_comparison h he.head, hw⟩

theorem wrapped_comparison : ∀ {us e}, ComparisonPhrase us e →
    ∃ d, ReadsComparison expression us e d ∧ Wrapped (Readable d) us e
  | _, _, .value he => by
    obtain ⟨d, h, hw⟩ := wrapped_value he
    exact ⟨d, readsComparison_value h, hw⟩
  | _, _, .compare he ht hf => by
    obtain ⟨d, h, hw⟩ := wrapped_value he
    obtain ⟨d', h', hw'⟩ := wrapped_value hf
    have hread := readsComparison_compare h ht h'
    exact ⟨max d d', hread, wrapped_join (by simp [ht, Neutral]) hw hw' he.balanced hf.balanced
      (readsOr_of_comparison hread (ComparisonPhrase.compare he ht hf).head)⟩

theorem wrapped_value : ∀ {us e}, ValuePhrase us e →
    ∃ d, ReadsValue expression us e d ∧ Wrapped (Readable d) us e
  | _, _, .number ht hl => wrapped_literal (.number ht hl) (readsValue_number ht hl.ofNumber)
  | _, _, .string ht => wrapped_literal (.string ht) (readsValue_string ht)
  | _, _, .boolean ht => wrapped_literal (.boolean ht) (readsValue_boolean ht)
  | _, _, .parens hl he hr => by
    obtain ⟨d, h, hw⟩ := wrapped_or he
    exact ⟨d + 1, readsValue_parens hl (readsExpression h) hr,
      (hw.imp (Readable.mono (Nat.le_succ d))).parens hl hr⟩
  | _, _, .chain ht hc hls => by
    obtain ⟨ls, rfl, hlinks⟩ := linked_tail hls
    obtain ⟨c, rfl, d, h, hlaid⟩ := laid_call hc
    obtain ⟨d₁, hroot⟩ := root_ident ht h hlaid
    obtain ⟨d', hroot'⟩ := hroot.foldl_linked hlinks
    exact ⟨d', hroot'.reads.value, hroot'.charted.wrapped⟩

theorem laid_call : ∀ {e us g}, CallPhrase e us g →
    ∃ c, e.called c = g ∧ ∃ d, ReadsCall expression us c d ∧ CallLaid (Readable d) us c
  | _, _, _, .none => ⟨none, rfl, 0, readsCall_none, rfl⟩
  | _, _, _, .empty (r := r) hl hr =>
    ⟨some ⟨[], r.span⟩, rfl, 0, readsCall_some hl (reads_no_arguments hr _), [_], _, rfl, rfl, .nil⟩
  | _, _, _, .args (l := l) (r := r) hl he hfs hr => by
    obtain ⟨d, h, hw⟩ := wrapped_or he
    obtain ⟨d', h', hlaid⟩ := laid_args hfs
    obtain ⟨t, ts, rfl, ht⟩ := he.head
    have ht : t.kind ≠ .rparen := by rintro hk; simp [startsValue, hk] at ht
    refine ⟨some ⟨_ :: _, r.span⟩, rfl, max (d + 1) d',
      readsCall_some hl (reads_arguments ht (readsExpression h) h' hr _), _, r, by rw [← List.append_assoc, ← List.cons_append], rfl, ?_⟩
    have hw := hw.imp (Readable.mono (by omega : d ≤ max (d + 1) d'))
    have hargs := (hlaid [r]).imp (Readable.mono (Nat.le_max_right (d + 1) d'))
    exact (hw.laid_cons hargs).append_left [l]

theorem laid_args : ∀ {us fs}, ArgTail us fs → ∃ d, ReadsArgs expression us fs d ∧
    ∀ vs, Laid (Readable d) (us ++ vs) (fs.map Node.expr)
  | _, _, .nil => ⟨0, readsArgs_nil, fun _ => .nil⟩
  | _, _, .cons (t := t) ht hf hfs => by
    obtain ⟨d, h, hw⟩ := wrapped_or hf
    obtain ⟨d', h', hlaid⟩ := laid_args hfs
    refine ⟨max (d + 1) d', readsTail_cons (by simp [Below, grip]) ht (readsExpression h) h',
      fun vs => ?_⟩
    have hw := hw.imp (Readable.mono (by omega : d ≤ max (d + 1) d'))
    have hargs := (hlaid vs).imp (Readable.mono (Nat.le_max_right (d + 1) d'))
    rw [List.cons_append, List.append_assoc]
    exact (hw.laid_cons hargs).append_left [t]

theorem linked_tail : ∀ {e us g}, LinkTail e us g →
    ∃ ls : List Link, ls.foldl Expr.linked e = g ∧ Many Linked us ls
  | _, _, _, .nil => ⟨[], rfl, .nil⟩
  | _, _, _, .cons (n := n) ht hn hc hls => by
    obtain ⟨ls, rfl, hlinks⟩ := linked_tail hls
    obtain ⟨c, rfl, d, h, hlaid⟩ := laid_call hc
    exact ⟨⟨n, c⟩ :: ls, rfl, linked_cons ht hn h hlaid hlinks⟩

end

/-! ## Clauses -/

theorem charted_action {P : List Token → Expr → Prop} {us : List Token} {a : Action} :
    ActionPhrase us a → Charted P us (.action a)
  | .deny _ => .mk (spans_singleton _) (by simp) .nil
  | .allow _ => .mk (spans_singleton _) (by simp) .nil
  | .escalate _ => .mk (spans_singleton _) (by simp) .nil
  | .route (t := t) (o := o) (n := n) _ _ _ => by
    have htarget : Charted P [n] (.target ⟨n.text, n.span⟩) :=
      .mk (spans_singleton n) (by simp) .nil
    exact .mk ((spans_singleton t).to [o] (spans_singleton n)) (by simp)
      (htarget.laid.append_left [t, o])

theorem charted_guard {w t : Token} {us vs : List Token} {e : Expr} {a : Action} {n : Nat}
    (he : Wrapped (Fits n) us e) (ha : ActionPhrase vs a) :
    Charted (Fits n) (w :: (us ++ t :: vs)) (.guard ⟨e, a, w.span.to a.span⟩) := by
  have haction : Charted (Fits n) vs (.action a) := charted_action ha
  refine .mk ?_ (by simp) ((he.laid_cons (haction.laid.append_left [t])).append_left [w])
  obtain ⟨hs, -, -⟩ := haction
  have := (spans_singleton w).to (us ++ [t]) hs
  simpa [Node.span] using this

theorem charted_clause : ∀ {us c}, ClausePhrase us c →
    ∃ d, ReadsClause us c d ∧ Charted (Fits d) us (Node.ofClause c)
  | _, _, .priority (.mk (p := p) (n := n) hp hn hdot hv) =>
    ⟨0, readsClause_priority hp hn (by simp [Priority.ofNumber, hdot, hv]),
      .mk ((spans_singleton p).to [] (spans_singleton n)) (by simp [Node.ofClause]) .nil⟩
  | _, _, .guard (.mk hw he ht ha) => by
    obtain ⟨d, h, hwrapped⟩ := wrapped_or he
    exact ⟨d + 1, readsClause_guard hw h ht ha, charted_guard hwrapped ha⟩
  | _, _, .action ha => ⟨0, readsClause_action ha, charted_action ha⟩

/-! ## Bodies -/

theorem Many.laid {α : Type} {D : List Token → α → Prop} {us : List Token} {as : List α}
    (hus : Many D us as) (node : α → Node) {step : Nat → Token → Step α} {F G : TokenKind → Prop}
    (hGF : ∀ k, G k → F k) (hG : ∀ n t, G t.kind → step n t = .stop)
    (h : ∀ us a, D us a → ∃ d, ReadsItem step F us a d ∧ Charted (Fits d) us (node a)) :
    ∃ d, ReadsAfter F (fun n => many (step n)) G us as d ∧
      ∀ vs, Laid (Fits d) (us ++ vs) (as.map node) := by
  induction hus with
  | nil => exact ⟨0, reads_items_nil hGF hG, fun _ => .nil⟩
  | cons ha _ ih =>
    obtain ⟨d, ha, hnode⟩ := h _ _ ha
    obtain ⟨d', has, hlaid⟩ := ih
    refine ⟨max d d', reads_items_cons ha has, fun vs => ?_⟩
    rw [List.append_assoc]
    exact (hnode.imp (Fits.mono (Nat.le_max_left d d'))).laid_cons
      ((hlaid vs).imp (Fits.mono (Nat.le_max_right d d')))

theorem spans_block (w n o k b : Token) (us : List Token) (e : Token) :
    Spans (w :: n :: o :: k :: b :: (us ++ [e])) (w.span.to e.span) :=
  (spans_singleton w).to (n :: o :: k :: b :: us) (spans_singleton e)

theorem charted_rule {us : List Token} {r : Rule} :
    RulePhrase us r → ∃ d, ReadsRule us r d ∧ Charted (Fits d) us (.rule r)
  | .mk (r := w) (n := n) (o := o) (k := k) (b := b) (e := e) hw hn ho hk hb hus he => by
    obtain ⟨d, h, hlaid⟩ := hus.laid Node.ofClause behind_rbrace
      (fun _ _ ht => if_pos ht) fun us c hc => by
        obtain ⟨d, h, hnode⟩ := charted_clause hc
        exact ⟨d, h.ruleItem, hnode⟩
    exact ⟨d, readsRule_mk hw hn ho hk hb h he, .mk (spans_block w n o k b _ e) (by simp)
      ((hlaid [e]).append_left [w, n, o, k, b])⟩

theorem charted_item {us : List Token} {i : PolicyItem} : ItemPhrase us i →
    ∃ d, ReadsItem policyStep Behind us i d ∧ Charted (Fits d) us (Node.ofItem i)
  | .ref (r := w) (n := n) hw hn =>
    ⟨0, readsItem_ref hw hn,
      .mk ((spans_singleton w).to [] (spans_singleton n)) (by simp [Node.ofItem]) .nil⟩
  | .rule hr => by
    obtain ⟨d, h, hnode⟩ := charted_rule hr
    exact ⟨d, h.policyItem, hnode⟩
  | .clause hc => by
    obtain ⟨d, h, hnode⟩ := charted_clause hc
    exact ⟨d, h.policyItem, hnode⟩

theorem charted_statement : ∀ {us s}, StatementPhrase us s →
    ∃ d, ReadsItem statementStep (fun _ => True) us s d ∧
      Charted (Fits d) us (Node.ofStatement s)
  | _, _, .policy (.mk (p := w) (n := n) (o := o) (k := k) (b := b) (e := e) hw hn ho hk hb hus
      he) => by
    obtain ⟨d, h, hlaid⟩ := hus.laid Node.ofItem behind_rbrace policyStep_rbrace
      fun _ _ => charted_item
    exact ⟨d, readsItem_policy hw hn ho hk hb h he, .mk (spans_block w n o k b _ e)
      (by simp [Node.ofStatement]) ((hlaid [e]).append_left [w, n, o, k, b])⟩
  | _, _, .rule hr => by
    obtain ⟨d, h, hnode⟩ := charted_rule hr
    exact ⟨d, h.statement, hnode⟩
  | _, _, .imports (.mk (i := i) (s := s) hi hs) =>
    ⟨0, readsItem_import hi hs,
      .mk ((spans_singleton i).to [] (spans_singleton s)) (by simp [Node.ofStatement]) .nil⟩

/-- The statements of a document are charted over its tokens, in order, and the budget of the document
is enough for all of its conditions. -/
theorem laid_document {us : List Token} {ss : List Statement} (h : Document us ss) :
    ∃ d, ReadsDocument us ss d ∧ Laid (Fits d) us (ss.map Node.ofStatement) := by
  obtain ⟨d, hread, hlaid⟩ := Many.laid h Node.ofStatement (fun _ => False.elim)
    (fun _ _ => False.elim) (fun _ _ => charted_statement)
  have := hlaid []
  rw [List.append_nil] at this
  exact ⟨d, hread, this⟩

end PolicyLang.Grammar
