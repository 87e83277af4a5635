import PolicyLang.Expr.Parser
import PolicyLang.Program.Basic

/-!
# How deep conditions nest

`nest` counts the layers of `not` and of call arguments in a condition. Parentheses leave no node, so
it is at most what reading the condition takes of the budget.
-/

namespace PolicyLang

/-! ## Conditions -/

namespace Expr

mutual

def nest : Expr → Nat
  | literal .. | ident .. => 0
  | attr object _ _ => object.nest
  | call callee args _ => max callee.nest (argsNest args)
  | negate operand _ => 1 + operand.nest
  | binary _ left right _ => max left.nest right.nest

/-- The layers of the arguments, their own one included; none where there is no argument. -/
def argsNest : List Expr → Nat
  | [] => 0
  | e :: es => max (1 + e.nest) (argsNest es)

end

theorem argsNest_le {es : List Expr} {n : Nat} (h : ∀ e ∈ es, e.nest < n) : argsNest es ≤ n := by
  induction es with
  | nil => exact Nat.zero_le n
  | cons e es ih =>
    obtain ⟨he, hes⟩ := List.forall_mem_cons.mp h
    have := ih hes
    rw [argsNest]
    omega

/-- A call whose arguments leave room for their own layer. -/
def CallNests (n : Nat) (c : Option Arguments) : Prop := ∀ a ∈ c, ∀ e ∈ a.args, e.nest < n

theorem nest_called {e : Expr} {c : Option Arguments} {n : Nat} (he : e.nest ≤ n)
    (hc : CallNests n c) : (e.called c).nest ≤ n := by
  cases c with
  | none => exact he
  | some a => exact Nat.max_le.mpr ⟨he, argsNest_le (hc a rfl)⟩

theorem nest_foldl_linked {ls : List Link} {e : Expr} {n : Nat} (he : e.nest ≤ n)
    (hls : ∀ l ∈ ls, CallNests n l.call) : (ls.foldl linked e).nest ≤ n := by
  induction ls generalizing e with
  | nil => exact he
  | cons l ls ih =>
    obtain ⟨hl, hls⟩ := List.forall_mem_cons.mp hls
    have hlink : (e.linked l).nest ≤ n :=
      nest_called (e := attr e l.name.text (e.span.to l.name.span)) he hl
    exact ih hlink hls

theorem nest_foldl_join {op : BinaryOp} {fs : List Expr} {e : Expr} {n : Nat} (he : e.nest < n)
    (hfs : ∀ f ∈ fs, f.nest < n) : (fs.foldl (join op) e).nest < n := by
  induction fs generalizing e with
  | nil => exact he
  | cons f fs ih =>
    obtain ⟨hf, hfs⟩ := List.forall_mem_cons.mp hfs
    exact ih (Nat.max_lt.mpr ⟨he, hf⟩) hfs

end Expr

/-! ## The conditions of a program -/

def Clause.conditions : Clause → List Expr
  | guard g => [g.condition]
  | _ => []

def Rule.conditions (r : Rule) : List Expr := r.body.flatMap Clause.conditions

def PolicyItem.conditions : PolicyItem → List Expr
  | ref _ => []
  | rule r => r.conditions
  | clause c => c.conditions

def Policy.conditions (p : Policy) : List Expr := p.body.flatMap PolicyItem.conditions

def Statement.conditions : Statement → List Expr
  | policy p => p.conditions
  | rule r => r.conditions
  | imports _ => []

/-- All conditions, those in the rules of policies included. -/
def Program.conditions (p : Program) : List Expr := p.statements.flatMap Statement.conditions

/-- No condition nests as deep as `n`. -/
def Shallow (n : Nat) (es : List Expr) : Prop := ∀ e ∈ es, e.nest < n

theorem shallow_nil (n : Nat) : Shallow n [] := List.forall_mem_nil _

theorem shallow_flatMap {α : Type} {n : Nat} {f : α → List Expr} {as : List α}
    (h : ∀ a ∈ as, Shallow n (f a)) : Shallow n (as.flatMap f) := by
  intro e he
  obtain ⟨a, ha, he⟩ := List.mem_flatMap.mp he
  exact h a ha e he

end PolicyLang
