import PolicyLang.Program.Basic

/-!
# Nodes

All that has a span in a program, as one type, with the children of a node in source order.
-/

namespace PolicyLang

inductive Node where
  | program (p : Program)
  | policy (p : Policy)
  | rule (r : Rule)
  | imports (i : Import)
  | ref (r : RuleRef)
  | priority (p : Priority)
  | guard (g : Guard)
  | action (a : Action)
  | target (t : Target)
  | expr (e : Expr)

namespace Node

def ofClause : Clause → Node
  | .priority p => priority p
  | .guard g => guard g
  | .action a => action a

def ofItem : PolicyItem → Node
  | .ref r => ref r
  | .rule r => rule r
  | .clause c => ofClause c

def ofStatement : Statement → Node
  | .policy p => policy p
  | .rule r => rule r
  | .imports i => imports i

def span : Node → Span
  | program p => p.span
  | policy p => p.span
  | rule r => r.span
  | imports i => i.span
  | ref r => r.span
  | priority p => p.span
  | guard g => g.span
  | action a => a.span
  | target t => t.span
  | expr e => e.span

def children : Node → List Node
  | program p => p.statements.map ofStatement
  | policy p => p.body.map ofItem
  | rule r => r.body.map ofClause
  | guard g => [expr g.condition, action g.action]
  | action ⟨.route t, _⟩ => [target t]
  | expr (.attr object _ _) => [expr object]
  | expr (.call callee args _) => expr callee :: args.map expr
  | expr (.negate operand _) => [expr operand]
  | expr (.binary _ left right _) => [expr left, expr right]
  | _ => []

/-! ## Traversal -/

theorem sizeOf_ofClause (c : Clause) : sizeOf (ofClause c) = sizeOf c := by
  cases c <;> simp [ofClause]

theorem sizeOf_ofItem_le (i : PolicyItem) : sizeOf (ofItem i) ≤ sizeOf i := by
  cases i with
  | clause c => simp only [ofItem, sizeOf_ofClause, PolicyItem.clause.sizeOf_spec]; omega
  | _ => simp [ofItem]

theorem sizeOf_ofStatement (s : Statement) : sizeOf (ofStatement s) = sizeOf s := by
  cases s <;> simp [ofStatement]

theorem sizeOf_lt_of_mem_children {n c : Node} (h : c ∈ n.children) : sizeOf c < sizeOf n := by
  unfold children at h
  split at h
  · obtain ⟨s, hs, rfl⟩ := List.mem_map.mp h
    rename_i p
    cases p
    have := List.sizeOf_lt_of_mem hs
    simp only [sizeOf_ofStatement, program.sizeOf_spec, Program.mk.sizeOf_spec] at *
    omega
  · obtain ⟨i, hi, rfl⟩ := List.mem_map.mp h
    rename_i p
    cases p
    have := List.sizeOf_lt_of_mem hi
    have := sizeOf_ofItem_le i
    simp only [policy.sizeOf_spec, Policy.mk.sizeOf_spec] at *
    omega
  · obtain ⟨c, hc, rfl⟩ := List.mem_map.mp h
    rename_i r
    cases r
    have := List.sizeOf_lt_of_mem hc
    simp only [sizeOf_ofClause, rule.sizeOf_spec, Rule.mk.sizeOf_spec] at *
    omega
  · rename_i g
    cases g
    simp only [List.mem_cons, List.not_mem_nil, or_false] at h
    rcases h with rfl | rfl <;> simp <;> omega
  · cases List.mem_singleton.mp h; simp; omega
  · cases List.mem_singleton.mp h; simp; omega
  · rcases List.mem_cons.mp h with rfl | h
    · simp; omega
    · obtain ⟨e, he, rfl⟩ := List.mem_map.mp h
      have := List.sizeOf_lt_of_mem he
      simp
      omega
  · cases List.mem_singleton.mp h; simp; omega
  · simp only [List.mem_cons, List.not_mem_nil, or_false] at h
    rcases h with rfl | rfl <;> simp <;> omega
  · cases h

/-- A node and all below it, each with its depth, parents before children and siblings in order. -/
def preorder (depth : Nat) (n : Node) : List (Nat × Node) :=
  (depth, n) :: n.children.attach.flatMap fun c => preorder (depth + 1) c.1
termination_by sizeOf n
decreasing_by exact sizeOf_lt_of_mem_children c.2

end Node

end PolicyLang
