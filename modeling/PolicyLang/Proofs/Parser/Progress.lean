import PolicyLang.Expr.Parser
import PolicyLang.Proofs.Parser.Success

/-!
# Progress

Parsers that take at least one token when they succeed, parsers in sequence, and repetitions that add
each item to what was read before.
-/

namespace PolicyLang.Parser

variable {α β γ : Type}

/-! ## Parsers that take a token -/

def Consumes (p : Parser α) : Prop :=
  ∀ ⦃ts a rest⦄, p.run ts = .ok (a, rest) → rest.length < ts.length

theorem consumes_fail (c : Cause) : Consumes (fail c : Parser α) := fun _ _ _ h => by cases h

theorem consumes_next (c : Cause) (read : Token → Except Cause (Parser α)) : Consumes (next c read) := by
  intro ts a rest h
  obtain ⟨t, us, p, rfl, -, hp⟩ := run_next_eq_ok.mp h
  exact Nat.lt_succ_of_le (p.suffix_of_ok hp).length_le

theorem Consumes.bind {p : Parser α} (h : Consumes p) (f : α → Parser β) : Consumes (p >>= f) := by
  intro ts b rest hb
  obtain ⟨a, mid, hp, hf⟩ := run_bind_eq_ok.mp hb
  exact Nat.lt_of_le_of_lt ((f a).suffix_of_ok hf).length_le (h hp)

theorem Consumes.branch {other : Parser α} (h : Consumes other) (read : Token → Option (Parser α)) :
    Consumes (branch other read) := by
  intro ts a rest ha
  cases ts with
  | nil => exact h ha
  | cons t ts =>
    rw [run_branch_cons] at ha
    cases hr : read t with
    | none => exact h (by rwa [hr] at ha)
    | some p =>
      rw [hr] at ha
      exact Nat.lt_succ_of_le (p.suffix_of_ok ha).length_le

/-! ## Conditions -/

theorem consumes_value (expr : Parser Expr) : Consumes (value expr) := consumes_next _ _

theorem consumes_comparison (expr : Parser Expr) : Consumes (comparison expr) :=
  (consumes_value expr).bind _

theorem consumes_unary (operand expr : Parser Expr) : Consumes (unary operand expr) :=
  (consumes_comparison expr).branch _

theorem consumes_negation (n : Nat) : Consumes (negation n) := by
  cases n <;> exact consumes_unary _ _

theorem Consumes.leftAssoc {operand : Parser Expr} (h : Consumes operand) (op : BinaryOp)
    (kind : TokenKind) : Consumes (leftAssoc op kind operand) := h.bind _

theorem consumes_expression (n : Nat) : Consumes (expression n) := by
  cases n with
  | zero => exact consumes_fail _
  | succ n => exact ((consumes_negation n).leftAssoc _ _).leftAssoc _ _

/-! ## Sequences -/

theorem run_bind_congr {p p' : Parser α} {ts : List Token} (h : p.run ts = p'.run ts)
    (q : α → Parser β) : (p >>= q).run ts = (p' >>= q).run ts := by
  rw [run_bind, h, run_bind]

theorem run_map_of_ok {p : Parser α} {ts rest : List Token} {a : α} (h : p.run ts = .ok (a, rest))
    (f : α → β) : (f <$> p).run ts = .ok (f a, rest) := run_map_eq_ok.mpr ⟨a, h, rfl⟩

instance : LawfulMonad Parser := LawfulMonad.mk' Parser
  (fun p => by
    ext ts
    show (p >>= pure).run ts = _
    rw [run_bind]
    cases p.run ts <;> rfl)
  (fun _ _ => rfl)
  (fun p q r => by
    ext ts
    simp only [run_bind]
    cases p.run ts <;> rfl)

/-! ## Repetitions -/

/-- Reads items until one stops the repetition, and adds each to what was read before. -/
def gather (push : β → α → β) (read : Token → Step α) (before : β) : Parser β := do
  let items ← many read
  pure (items.foldl push before)

section
variable {push : β → α → β} {read : Token → Step α} {before : β}

@[simp] theorem run_gather_nil : (gather push read before).run [] = .ok (before, []) := by
  rw [gather, run_bind, run_many_nil]
  rfl

theorem run_gather_cons (t : Token) (ts : List Token) :
    (gather push read before).run (t :: ts) = match read t with
      | .stop => .ok (before, t :: ts)
      | .reject c => .error ⟨c, t :: ts⟩
      | .item p => (do
          let a ← p
          gather push read (push before a)).run ts := by
  simp only [gather, run_bind, run_many_cons]
  cases read t with
  | stop => rfl
  | reject c => rfl
  | item p =>
    dsimp only
    cases p.run ts with
    | error f => rfl
    | ok x =>
      obtain ⟨a, rest⟩ := x
      dsimp only
      cases (many read).run rest <;> rfl

end

theorem foldl_snoc (items before : List α) :
    items.foldl (fun as a => as ++ [a]) before = before ++ items := by
  rw [List.foldl_append_eq_append, ← List.flatMap_def, List.flatMap_singleton']

theorem many_eq_gather (read : Token → Step α) :
    many read = gather (fun items a => items ++ [a]) read [] := by
  ext ts
  simp only [gather, foldl_snoc, run_bind]
  cases (many read).run ts <;> rfl

end PolicyLang.Parser
