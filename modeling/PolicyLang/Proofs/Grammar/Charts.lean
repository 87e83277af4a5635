import PolicyLang.Expr.Parser
import PolicyLang.Program.Node

/-!
# Charts

A node is charted over the tokens that it stands for: its span goes from the first of them to the
last one, and its children are charted over parts of them, one behind the other. Parentheses around
a condition leave no node, so they are not among the tokens of the condition.
-/

namespace PolicyLang

/-! ## Spans of tokens -/

/-- No token is empty, and none begins before the one in front of it has ended. -/
structure Ordered (us : List Token) : Prop where
  apart : us.Pairwise fun a b => a.span.stop ≤ b.span.start
  filled : ∀ t ∈ us, t.span.start < t.span.stop

/-- From the beginning of `a` to the end of `b`. -/
def Span.across (a b : Token) : Span := ⟨a.span.line, a.span.column, a.span.start, b.span.stop⟩

/-- Where the tokens are in order, `s` goes from the first of them to the last one. -/
def Spans (us : List Token) (s : Span) : Prop :=
  ∃ a b, us.head? = some a ∧ us.getLast? = some b ∧ (Ordered us → s = .across a b)

theorem Ordered.part {us vs : List Token} (h : Ordered vs) (hu : us <:+: vs) : Ordered us :=
  ⟨h.apart.sublist hu.sublist, fun t ht => h.filled t (hu.subset ht)⟩

theorem spans_singleton (t : Token) : Spans [t] t.span := ⟨t, t, rfl, rfl, fun _ => rfl⟩

/-- Of the two ends, `Span.to` takes the larger one; in tokens that are in order this is the last. -/
theorem Spans.to {us vs : List Token} {s t : Span} (hs : Spans us s) (ws : List Token)
    (ht : Spans vs t) : Spans (us ++ (ws ++ vs)) (s.to t) := by
  obtain ⟨a, b, ha, hb, hab⟩ := hs
  obtain ⟨c, d, hc, hd, hcd⟩ := ht
  have hlast : (us ++ (ws ++ vs)).getLast? = some d := by simp [hd]
  refine ⟨a, d, by simp [ha], hlast, fun ho => ?_⟩
  rw [hab (ho.part (List.prefix_append ..).isInfix),
    hcd (ho.part ((List.suffix_append ..).trans (List.suffix_append ..)).isInfix)]
  have hbd : b.span.stop ≤ d.span.start :=
    (List.pairwise_append.mp ho.apart).2.2 b (List.mem_of_getLast? hb) d
      (List.mem_append_right _ (List.mem_of_getLast? hd))
  have hd := ho.filled d (List.mem_of_getLast? hlast)
  simp only [Span.to, Span.across, Span.mk.injEq, true_and]
  omega

/-! ## Charted nodes -/

mutual

/-- The node stands for just these tokens. If it is a condition, `P` holds of it and them. -/
inductive Charted (P : List Token → Expr → Prop) : List Token → Node → Prop
  | mk {us n} : Spans us n.span → (∀ e, n = .expr e → P us e) → Laid P us n.children →
      Charted P us n

/-- The nodes stand for parts of these tokens, in order. -/
inductive Laid (P : List Token → Expr → Prop) : List Token → List Node → Prop
  | nil {us} : Laid P us []
  | cons {ws us vs n ns} : Charted P us n → Laid P vs ns → Laid P (ws ++ (us ++ vs)) (n :: ns)

end

section
variable {P Q : List Token → Expr → Prop} {us vs ws : List Token} {e f : Expr} {ns : List Node}

mutual

theorem Charted.imp (hPQ : ∀ us e, P us e → Q us e) :
    ∀ {us n}, Charted P us n → Charted Q us n
  | _, _, .mk hs hp hc => .mk hs (fun e he => hPQ _ e (hp e he)) (hc.imp hPQ)

theorem Laid.imp (hPQ : ∀ us e, P us e → Q us e) : ∀ {us ns}, Laid P us ns → Laid Q us ns
  | _, _, .nil => .nil
  | _, _, .cons hn hns => .cons (hn.imp hPQ) (hns.imp hPQ)

end

theorem Laid.append_left (h : Laid P us ns) (ws : List Token) : Laid P (ws ++ us) ns := by
  cases h with
  | nil => exact .nil
  | cons hn hns =>
    rw [← List.append_assoc]
    exact .cons hn hns

theorem Charted.laid_cons {n : Node} (h : Charted P us n) (hns : Laid P vs ns) :
    Laid P (us ++ vs) (n :: ns) := by
  have : Laid P ([] ++ (us ++ vs)) (n :: ns) := .cons h hns
  exact this

theorem Charted.laid {n : Node} (h : Charted P us n) : Laid P us [n] := by
  have : Laid P (us ++ []) [n] := h.laid_cons .nil
  rwa [List.append_nil] at this

/-! ## Conditions -/

/-- The condition is charted over what is left without parentheses around it. -/
def Wrapped (P : List Token → Expr → Prop) (us : List Token) (e : Expr) : Prop :=
  ∃ os core cs, us = os ++ (core ++ cs) ∧ (∀ t ∈ os, t.kind = .lparen) ∧
    (∀ t ∈ cs, t.kind = .rparen) ∧ Charted P core (.expr e)

theorem Charted.wrapped (h : Charted P us (.expr e)) : Wrapped P us e :=
  ⟨[], us, [], by simp, by simp, by simp, h⟩

theorem Wrapped.imp (h : Wrapped P us e) (hPQ : ∀ us e, P us e → Q us e) : Wrapped Q us e := by
  obtain ⟨os, core, cs, hus, hos, hcs, hcore⟩ := h
  exact ⟨os, core, cs, hus, hos, hcs, hcore.imp hPQ⟩

theorem Wrapped.parens {l r : Token} (h : Wrapped P us e) (hl : l.kind = .lparen)
    (hr : r.kind = .rparen) : Wrapped P (l :: (us ++ [r])) e := by
  obtain ⟨os, core, cs, rfl, hos, hcs, hcore⟩ := h
  refine ⟨l :: os, core, cs ++ [r], by simp, ?_, ?_, hcore⟩
  · simpa [hl] using hos
  · intro t ht
    rcases List.mem_append.mp ht with ht | ht
    · exact hcs t ht
    · exact List.mem_singleton.mp ht ▸ hr

theorem Wrapped.laid_cons (h : Wrapped P us e) (hns : Laid P vs ns) :
    Laid P (us ++ vs) (.expr e :: ns) := by
  obtain ⟨os, core, cs, rfl, -, -, hcore⟩ := h
  have := (hcore.laid_cons (hns.append_left cs)).append_left os
  simpa using this

theorem charted_leaf {e : Expr} (hs : Spans us e.span) (hc : (Node.expr e).children = [])
    (hp : P us e) : Charted P us (.expr e) := by
  refine .mk hs (fun f hf => ?_) (hc ▸ .nil)
  cases hf
  exact hp

/-- An operator takes in its operands without the parentheses at both ends. -/
theorem Wrapped.join {op : BinaryOp} {t : Token} (he : Wrapped P us e) (hf : Wrapped P vs f)
    (hp : ∀ os us' vs' cs, us = os ++ us' → vs = vs' ++ cs → (∀ t ∈ os, t.kind = .lparen) →
      (∀ t ∈ cs, t.kind = .rparen) → P (us' ++ t :: vs') (.join op e f)) :
    Wrapped P (us ++ t :: vs) (.join op e f) := by
  obtain ⟨os, core, cs, rfl, hos, hcs, hcore⟩ := he
  obtain ⟨os', core', cs', rfl, hos', hcs', hcore'⟩ := hf
  refine ⟨os, core ++ cs ++ t :: (os' ++ core'), cs', by simp, hos, hcs', .mk ?_ ?_ ?_⟩
  · obtain ⟨hs, -, -⟩ := hcore
    obtain ⟨hs', -, -⟩ := hcore'
    have := hs.to (cs ++ t :: os') hs'
    simpa [Expr.join, Node.span, Expr.span] using this
  · intro g hg
    cases hg
    exact hp os (core ++ cs) (os' ++ core') cs' rfl (by simp) hos hcs'
  · have := hcore.laid_cons ((hcore'.laid.append_left (cs ++ t :: os')))
    simpa [Expr.join, Node.children] using this

theorem Wrapped.negate {t : Token} (he : Wrapped P us e)
    (hp : ∀ us' cs, us = us' ++ cs → (∀ t ∈ cs, t.kind = .rparen) →
      P (t :: us') (.negate e (t.span.to e.span))) :
    Wrapped P (t :: us) (.negate e (t.span.to e.span)) := by
  obtain ⟨os, core, cs, rfl, hos, hcs, hcore⟩ := he
  refine ⟨[], t :: (os ++ core), cs, by simp, by simp, hcs, .mk ?_ ?_ ?_⟩
  · obtain ⟨hs, -, -⟩ := hcore
    exact (spans_singleton t).to os hs
  · intro g hg
    cases hg
    exact hp (os ++ core) cs (by simp) hcs
  · exact hcore.laid.append_left (t :: os)

theorem Charted.attr {d n : Token} (he : Charted P us (.expr e))
    (hp : P (us ++ [d, n]) (.attr e n.text (e.span.to n.span))) :
    Charted P (us ++ [d, n]) (.expr (.attr e n.text (e.span.to n.span))) := by
  refine .mk ?_ ?_ (he.laid_cons .nil)
  · obtain ⟨hs, -, -⟩ := he
    exact hs.to [d] (spans_singleton n)
  · intro g hg
    cases hg
    exact hp

/-- The arguments of a call are laid over its tokens, and the last of these closes it. -/
def CallLaid (P : List Token → Expr → Prop) (us : List Token) : Option Arguments → Prop
  | none => us = []
  | some a => ∃ vs r, us = vs ++ [r] ∧ a.close = r.span ∧ Laid P us (a.args.map Node.expr)

theorem CallLaid.imp {c : Option Arguments} (h : CallLaid P us c) (hPQ : ∀ us e, P us e → Q us e) :
    CallLaid Q us c := by
  cases c with
  | none => exact h
  | some a =>
    obtain ⟨vs, r, hus, hr, ha⟩ := h
    exact ⟨vs, r, hus, hr, ha.imp hPQ⟩

theorem Charted.called {c : Option Arguments} (he : Charted P us (.expr e)) (hc : CallLaid P vs c)
    (hp : P (us ++ vs) (e.called c)) : Charted P (us ++ vs) (.expr (e.called c)) := by
  cases c with
  | none =>
    obtain rfl : vs = [] := hc
    rwa [List.append_nil]
  | some a =>
    obtain ⟨ws, r, rfl, hr, ha⟩ := hc
    refine .mk ?_ ?_ (he.laid_cons ha)
    · obtain ⟨hs, -, -⟩ := he
      have := hs.to ws (spans_singleton r)
      rwa [← hr] at this
    · intro g hg
      cases hg
      exact hp

end

/-! ## Traversal -/

theorem Node.preorder_eq (k : Nat) (n : Node) :
    n.preorder k = (k, n) :: n.children.flatMap (Node.preorder (k + 1)) := by
  rw [Node.preorder]
  simp

theorem Node.self_mem_preorder (k : Nat) (n : Node) : (k, n) ∈ n.preorder k := by
  rw [Node.preorder_eq]
  exact List.mem_cons_self

theorem Node.mem_preorder_of_child {k : Nat} {n c : Node} {x : Nat × Node} (hc : c ∈ n.children)
    (hx : x ∈ c.preorder (k + 1)) : x ∈ n.preorder k := by
  rw [Node.preorder_eq]
  exact List.mem_cons_of_mem _ (List.mem_flatMap.mpr ⟨c, hc, hx⟩)

theorem Node.mem_preorder_of_condition {p : Program} {r : Rule} {g : Guard} {x : Nat × Node}
    (hr : .rule r ∈ p.statements) (hg : .guard g ∈ r.body)
    (hx : x ∈ (Node.expr g.condition).preorder 3) : x ∈ (Node.program p).preorder 0 := by
  have hguard : x ∈ (Node.guard g).preorder 2 := mem_preorder_of_child List.mem_cons_self hx
  have hrule : x ∈ (Node.rule r).preorder 1 :=
    mem_preorder_of_child (List.mem_map.mpr ⟨.guard g, hg, rfl⟩) hguard
  exact mem_preorder_of_child (List.mem_map.mpr ⟨.rule r, hr, rfl⟩) hrule

section
variable {P : List Token → Expr → Prop}

mutual

/-- Whatever stands below a charted node is charted over some of its tokens. -/
theorem Charted.exists_of_mem : ∀ {us n}, Charted P us n → ∀ k, ∀ x ∈ n.preorder k,
    ∃ vs, vs <:+: us ∧ Charted P vs x.2
  | us, n, .mk hs hp hc, k, x, hx => by
    rw [Node.preorder_eq] at hx
    rcases List.mem_cons.mp hx with rfl | hx
    · exact ⟨us, List.infix_rfl, .mk hs hp hc⟩
    · exact hc.exists_of_mem (k + 1) x hx

theorem Laid.exists_of_mem : ∀ {us ns}, Laid P us ns → ∀ k, ∀ x ∈ ns.flatMap (Node.preorder k),
    ∃ vs, vs <:+: us ∧ Charted P vs x.2
  | _, _, .nil, _, _, hx => by simp at hx
  | _, _, .cons (n := n) hn hns, k, x, hx => by
    rw [List.flatMap_cons] at hx
    rcases List.mem_append.mp hx with hx | hx
    · obtain ⟨xs, hxs, h⟩ := hn.exists_of_mem k x hx
      exact ⟨xs, hxs.trans ⟨_, _, List.append_assoc ..⟩, h⟩
    · obtain ⟨xs, hxs, h⟩ := hns.exists_of_mem k x hx
      exact ⟨xs, hxs.trans ((List.suffix_append ..).trans (List.suffix_append ..)).isInfix, h⟩

end

end

end PolicyLang
