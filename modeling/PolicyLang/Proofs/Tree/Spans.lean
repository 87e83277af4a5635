import PolicyLang.Expr.Parser
import PolicyLang.Program.Basic

/-!
# Trees without their places

`mapSpans f` changes every span of a tree by `f` and nothing else. Trees are equal apart from their
spans if they are equal once `erase` has put the same span everywhere.
-/

namespace PolicyLang

def Token.mapSpan (f : Span → Span) (t : Token) : Token := { t with span := f t.span }

def Token.bare (kind : TokenKind) (text : String) : Token := ⟨kind, text, {}⟩

@[simp] theorem Token.bare_kind (k : TokenKind) (text : String) : (bare k text).kind = k := rfl

@[simp] theorem Token.bare_text (k : TokenKind) (text : String) : (bare k text).text = text := rfl

@[simp] theorem Token.bare_span (k : TokenKind) (text : String) : (bare k text).span = {} := rfl

/-- What a token says, without its place. -/
def Token.word (t : Token) : TokenKind × String := (t.kind, t.text)

@[simp] theorem Token.word_bare (k : TokenKind) (text : String) : (bare k text).word = (k, text) := rfl

/-! ## Conditions -/

namespace Expr

mutual

def mapSpans (f : Span → Span) : Expr → Expr
  | literal v s => literal v (f s)
  | ident name s => ident name (f s)
  | attr object name s => attr (object.mapSpans f) name (f s)
  | call callee args s => call (callee.mapSpans f) (mapSpansAll f args) (f s)
  | negate operand s => negate (operand.mapSpans f) (f s)
  | binary op left right s => binary op (left.mapSpans f) (right.mapSpans f) (f s)

def mapSpansAll (f : Span → Span) : List Expr → List Expr
  | [] => []
  | e :: es => e.mapSpans f :: mapSpansAll f es

end

@[simp] theorem mapSpans_span (f : Span → Span) (e : Expr) : (e.mapSpans f).span = f e.span := by
  cases e <;> simp [mapSpans, span]

mutual

theorem mapSpans_mapSpans (f g : Span → Span) :
    ∀ e : Expr, (e.mapSpans f).mapSpans g = e.mapSpans (g ∘ f)
  | literal v s => by simp [mapSpans]
  | ident n s => by simp [mapSpans]
  | attr e n s => by simp [mapSpans, mapSpans_mapSpans f g e]
  | call e as s => by simp [mapSpans, mapSpans_mapSpans f g e, mapSpansAll_mapSpansAll f g as]
  | negate e s => by simp [mapSpans, mapSpans_mapSpans f g e]
  | binary o e₁ e₂ s => by simp [mapSpans, mapSpans_mapSpans f g e₁, mapSpans_mapSpans f g e₂]

theorem mapSpansAll_mapSpansAll (f g : Span → Span) :
    ∀ es : List Expr, mapSpansAll g (mapSpansAll f es) = mapSpansAll (g ∘ f) es
  | [] => rfl
  | e :: es => by simp [mapSpansAll, mapSpans_mapSpans f g e, mapSpansAll_mapSpansAll f g es]

end

mutual

theorem mapSpans_id : ∀ e : Expr, e.mapSpans id = e
  | literal v s => by simp [mapSpans]
  | ident n s => by simp [mapSpans]
  | attr e n s => by simp [mapSpans, mapSpans_id e]
  | call e as s => by simp [mapSpans, mapSpans_id e, mapSpansAll_id as]
  | negate e s => by simp [mapSpans, mapSpans_id e]
  | binary o e₁ e₂ s => by simp [mapSpans, mapSpans_id e₁, mapSpans_id e₂]

theorem mapSpansAll_id : ∀ es : List Expr, mapSpansAll id es = es
  | [] => rfl
  | e :: es => by simp [mapSpansAll, mapSpans_id e, mapSpansAll_id es]

end

end Expr

/-! ## Clauses -/

def Target.mapSpans (f : Span → Span) (t : Target) : Target := { t with span := f t.span }

def Verdict.mapSpans (f : Span → Span) : Verdict → Verdict
  | deny => deny
  | allow => allow
  | escalate => escalate
  | route t => route (t.mapSpans f)

def Action.mapSpans (f : Span → Span) (a : Action) : Action := ⟨a.verdict.mapSpans f, f a.span⟩

def Guard.mapSpans (f : Span → Span) (g : Guard) : Guard :=
  ⟨g.condition.mapSpans f, g.action.mapSpans f, f g.span⟩

def Priority.mapSpans (f : Span → Span) (p : Priority) : Priority := { p with span := f p.span }

def Clause.mapSpans (f : Span → Span) : Clause → Clause
  | priority p => priority (p.mapSpans f)
  | guard g => guard (g.mapSpans f)
  | action a => action (a.mapSpans f)

/-! ## Declarations -/

def Rule.mapSpans (f : Span → Span) (r : Rule) : Rule :=
  ⟨r.name, r.category, r.body.map (Clause.mapSpans f), f r.span⟩

def RuleRef.mapSpans (f : Span → Span) (r : RuleRef) : RuleRef := { r with span := f r.span }

def PolicyItem.mapSpans (f : Span → Span) : PolicyItem → PolicyItem
  | ref r => ref (r.mapSpans f)
  | rule r => rule (r.mapSpans f)
  | clause c => clause (c.mapSpans f)

def Policy.mapSpans (f : Span → Span) (p : Policy) : Policy :=
  ⟨p.name, p.category, p.body.map (PolicyItem.mapSpans f), f p.span⟩

def Import.mapSpans (f : Span → Span) (i : Import) : Import := { i with span := f i.span }

def Statement.mapSpans (f : Span → Span) : Statement → Statement
  | policy p => policy (p.mapSpans f)
  | rule r => rule (r.mapSpans f)
  | imports i => imports (i.mapSpans f)

def Program.mapSpans (f : Span → Span) (p : Program) : Program :=
  ⟨p.statements.map (Statement.mapSpans f), f p.span⟩

section
variable (f g : Span → Span)

theorem Verdict.mapSpans_mapSpans (v : Verdict) : (v.mapSpans f).mapSpans g = v.mapSpans (g ∘ f) := by
  cases v <;> rfl

theorem Action.mapSpans_mapSpans (a : Action) : (a.mapSpans f).mapSpans g = a.mapSpans (g ∘ f) := by
  simp only [mapSpans, Verdict.mapSpans_mapSpans, Function.comp_apply]

theorem Clause.mapSpans_mapSpans (c : Clause) : (c.mapSpans f).mapSpans g = c.mapSpans (g ∘ f) := by
  cases c with
  | priority p => rfl
  | guard d => simp only [mapSpans, Guard.mapSpans, Expr.mapSpans_mapSpans, Action.mapSpans_mapSpans,
      Function.comp_apply]
  | action a => simp only [mapSpans, Action.mapSpans_mapSpans]

theorem Rule.mapSpans_mapSpans (r : Rule) : (r.mapSpans f).mapSpans g = r.mapSpans (g ∘ f) := by
  simp only [mapSpans, List.map_map, Function.comp_def, Clause.mapSpans_mapSpans]

theorem PolicyItem.mapSpans_mapSpans (i : PolicyItem) :
    (i.mapSpans f).mapSpans g = i.mapSpans (g ∘ f) := by
  cases i with
  | ref r => rfl
  | rule r => simp only [mapSpans, Rule.mapSpans_mapSpans]
  | clause c => simp only [mapSpans, Clause.mapSpans_mapSpans]

theorem Statement.mapSpans_mapSpans (s : Statement) :
    (s.mapSpans f).mapSpans g = s.mapSpans (g ∘ f) := by
  cases s with
  | policy p => simp only [mapSpans, Policy.mapSpans, List.map_map, Function.comp_def,
      PolicyItem.mapSpans_mapSpans]
  | rule r => simp only [mapSpans, Rule.mapSpans_mapSpans]
  | imports i => rfl

end

theorem Verdict.mapSpans_id (v : Verdict) : v.mapSpans id = v := by
  cases v <;> rfl

theorem Action.mapSpans_id (a : Action) : a.mapSpans id = a := by
  rw [mapSpans, Verdict.mapSpans_id]
  rfl

theorem Clause.mapSpans_id (c : Clause) : c.mapSpans id = c := by
  cases c with
  | priority p => rfl
  | guard g =>
    rw [mapSpans, Guard.mapSpans, Expr.mapSpans_id, Action.mapSpans_id]
    rfl
  | action a => rw [mapSpans, Action.mapSpans_id]

theorem Rule.mapSpans_id (r : Rule) : r.mapSpans id = r := by
  rw [mapSpans, List.map_congr_left fun c _ => Clause.mapSpans_id c, List.map_id']
  rfl

theorem PolicyItem.mapSpans_id (i : PolicyItem) : i.mapSpans id = i := by
  cases i with
  | ref r => rfl
  | rule r => rw [mapSpans, Rule.mapSpans_id]
  | clause c => rw [mapSpans, Clause.mapSpans_id]

theorem Policy.mapSpans_id (p : Policy) : p.mapSpans id = p := by
  rw [mapSpans, List.map_congr_left fun i _ => PolicyItem.mapSpans_id i, List.map_id']
  rfl

theorem Statement.mapSpans_id (s : Statement) : s.mapSpans id = s := by
  cases s with
  | policy p => rw [mapSpans, Policy.mapSpans_id]
  | rule r => rw [mapSpans, Rule.mapSpans_id]
  | imports i => rfl

/-- The program with its places forgotten. -/
def Program.erase (p : Program) : Program := p.mapSpans fun _ => {}

end PolicyLang
