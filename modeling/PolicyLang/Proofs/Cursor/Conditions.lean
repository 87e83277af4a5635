import PolicyLang.Proofs.Cursor.Scene
import PolicyLang.Proofs.Grammar.Steps

/-!
# Conditions behind a cursor

The productions of conditions follow the parsers of conditions, with as many units as the counter has
levels left.
-/

namespace PolicyLang

open Script Production PolicyLang.Parser

/-- The arguments behind those that were read before. -/
def Parser.argumentsFrom (expr : Parser Expr) (items : List Expr) : Parser (List Expr) := do
  let e ← expr
  gather (fun items e => items ++ [e]) (fun t => if t.kind = .comma then .item expr else .stop)
    (items ++ [e])

def Parser.linksFrom (expr : Parser Expr) (object : Expr) : Parser Expr :=
  gather Expr.linked (fun t => if t.kind = .dot then .item (link expr) else .stop) object

def Parser.operandsFrom (op : BinaryOp) (kind : TokenKind) (operand : Parser Expr) (left : Expr) :
    Parser Expr :=
  gather (Expr.join op) (fun t => if t.kind = kind then .item operand else .stop) left

theorem Parser.chain_eq (expr : Parser Expr) (name : Token) : chain expr name =
    (Expr.ident name.text name.span).called <$> arguments? expr >>= linksFrom expr := by
  rw [bind_map_left]
  rfl

theorem Parser.run_link_bind (expr : Parser Expr) (object : Expr) {t : Token} {ts : List Token}
    (ht : t.kind = .ident ∨ t.kind.isKeyword) :
    (link expr >>= fun l => linksFrom expr (object.linked l)).run (t :: ts) =
      ((object.attr t.text (object.span.to t.span)).called <$> arguments? expr >>= linksFrom expr).run ts := by
  rw [bind_map_left, run_bind, link, run_next_cons, if_pos ht]
  show ((do
    let call ← arguments? expr
    pure (Link.mk t call)) >>= fun l => linksFrom expr (object.linked l)).run ts = _
  rw [bind_assoc]
  rfl

theorem Parser.run_arguments_rparen (expr : Parser Expr) {t : Token} {ts : List Token}
    (ht : t.kind = .rparen) : (arguments expr).run (t :: ts) = .ok (⟨[], t.span⟩, ts) := by
  rw [arguments, run_branch_cons, if_pos ht]
  rfl

theorem Parser.run_arguments_other (expr : Parser Expr) {ts : List Token}
    (hts : ∀ t ∈ ts.head?, t.kind ≠ .rparen) : (arguments expr).run ts = (do
      let args ← argumentsFrom expr []
      let close ← expect .rparen .closeArguments
      pure ⟨args, close.span⟩ : Parser Arguments).run ts := by
  have hfirst : (arguments expr).run ts = (do
      let first ← expr
      let more ← many fun t => if t.kind = .comma then .item expr else .stop
      let close ← expect .rparen .closeArguments
      pure ⟨first :: more, close.span⟩ : Parser Arguments).run ts := by
    cases ts with
    | nil => rfl
    | cons t ts => rw [arguments, run_branch_cons, if_neg (hts t rfl)]
  rw [hfirst, argumentsFrom, bind_assoc]
  simp only [gather, bind_assoc, foldl_snoc]
  rfl

namespace Scene

variable {S : Scene} {us : List Token} {t : Token} {n : Nat} {α β γ : Type}

/-! ## Tails of operators -/

theorem Follows.gather {k : TokenKind} {p : Parser γ} {push : β → γ → β} {before : β}
    {f : Option Token → Script β} (hk : k ≠ .eof) (hus : us <:+ S.body) (hnone : f none = pure before)
    (hsome : ∀ t ts, us = t :: ts → S.Follows (f (some t)) ts n ((p >>= fun a =>
      gather push (fun t => if t.kind = k then .item p else .stop) (push before a)).run ts)) :
    S.Follows (accept? k >>= f) us n
      ((gather push (fun t => if t.kind = k then .item p else .stop) before).run us) := by
  cases us with
  | nil =>
    refine .accept_other hus (kind_mark_ne hk) ?_
    rw [hnone, run_gather_nil]
    exact follows_pure before
  | cons t ts =>
    rw [run_gather_cons]
    by_cases h : t.kind = k
    · rw [if_pos h]
      exact .accept_cons hus h (hsome t ts rfl)
    · rw [if_neg h]
      refine .accept_other hus h ?_
      rw [hnone]
      exact follows_pure before

/-- The tail of an operator, which takes operands as long as the operator comes next. -/
theorem tracks_tail {op : BinaryOp} {k : TokenKind} {tail : Expr → Production Expr}
    {operand : Production Expr} {p : Parser Expr} (hk : k ≠ .eof)
    (hloop : ∀ left, (tail left).consumes = false)
    (hbody : ∀ left, (tail left).body = accept? k >>= fun
      | none => pure left
      | some _ => production operand >>= fun right => production (tail (.join op left right)))
    (h : S.Tracks (production operand) n p) (left : Expr) :
    S.Tracks (production (tail left)) n (operandsFrom op k p left) := by
  refine tracks_loop hloop (fun us hus next left => ?_) left
  rw [hbody]
  refine .gather hk hus rfl fun t ts hts => ?_
  subst hts
  refine .bind (h ts ((List.suffix_cons t ts).trans hus)) fun right rest _ hrest => ?_
  exact next rest _ (hrest.trans ((List.suffix_cons t ts).trans hus)) (Nat.lt_succ_of_le hrest.length_le)

/-! ## Calls and attributes -/

section
variable (he : S.Tracks (production .expression) n (expression n))
include he

theorem tracks_arguments (items : List Expr) :
    S.Tracks (production (.arguments items)) n (argumentsFrom (expression n) items) := by
  refine tracks_loop (fun _ => rfl) (fun us hus next items => ?_) items
  refine .bind (he us hus) fun e rest hrun hrest => ?_
  refine .gather (by decide) (hrest.trans hus) rfl fun t ts hts => ?_
  subst hts
  have hts : ts <:+ us := (List.suffix_cons t ts).trans hrest
  exact next ts _ (hts.trans hus) (Nat.lt_of_lt_of_le (Nat.lt_succ_self _) hrest.length_le)

theorem follows_listed (callee : Expr) (hus : us <:+ S.body) :
    S.Follows (body.listed >>= fun args => do
        let close ← Script.expect .rparen Cause.closeArguments.message
        pure (Expr.call callee args (callee.span.to close.span))) us n
      (((fun a => callee.called (some a)) <$> arguments (expression n)).run us) := by
  refine .current (f := fun t => (if t.kind = .rparen then pure [] else production (.arguments [])) >>= _)
    hus ?_
  by_cases ht : (S.next us).kind = .rparen
  · cases us with
    | nil => exact absurd ht (kind_mark_ne (by decide))
    | cons t ts =>
      rw [next_cons] at ht
      rw [next_cons, if_pos ht, run_map_of_ok (run_arguments_rparen (expression n) ht)]
      exact .expect_cons hus ht (follows_pure _)
  · have hother : ∀ t ∈ us.head?, t.kind ≠ .rparen := by
      intro t hu
      rwa [next, hu] at ht
    have hrun := run_bind_congr (run_arguments_other (expression n) hother) fun a =>
      pure (callee.called (some a))
    rw [bind_assoc] at hrun
    rw [if_neg ht]
    refine hrun ▸ .bind (tracks_arguments he [] us hus) fun args rest _ hrest => ?_
    rw [bind_assoc]
    exact .bind (follows_expect .closeArguments (by decide) (hrest.trans hus)) fun close _ _ _ =>
      follows_pure _

theorem tracks_callSuffix (callee : Expr) :
    S.Tracks (production (.callSuffix callee)) n (callee.called <$> arguments? (expression n)) := by
  refine tracks_production (fun us hus => ?_) nofun
  cases us with
  | nil => exact .accept_other hus (kind_mark_ne (by decide)) (follows_pure callee)
  | cons t us =>
    by_cases ht : t.kind = .lparen
    · have hrun : (callee.called <$> arguments? (expression n)).run (t :: us) =
          ((fun a => callee.called (some a)) <$> arguments (expression n)).run us := by
        show (arguments? (expression n) >>= fun a => pure (callee.called a)).run _ = _
        rw [run_bind, arguments?, run_branch_cons, if_pos ht]
        show ((some <$> arguments (expression n)) >>= fun a => pure (callee.called a)).run us = _
        rw [bind_map_left]
        rfl
      rw [hrun]
      exact .accept_cons hus ht (follows_listed he callee ((List.suffix_cons t us).trans hus))
    · have hrun : (callee.called <$> arguments? (expression n)).run (t :: us) = .ok (callee, t :: us) := by
        show ((arguments? (expression n)) >>= _).run _ = _
        rw [run_bind, arguments?, run_branch_cons, if_neg ht]
        rfl
      rw [hrun]
      exact .accept_other hus ht (follows_pure callee)

theorem tracks_links (object : Expr) :
    S.Tracks (production (.links object)) n (linksFrom (expression n) object) := by
  refine tracks_loop (fun _ => rfl) (fun us hus next object => ?_) object
  refine .gather (by decide) hus rfl fun t ts hts => ?_
  subst hts
  have hts : ts <:+ S.body := (List.suffix_cons t ts).trans hus
  refine .current hts ?_
  cases ts with
  | nil =>
    rw [next_nil, S.isEnd, if_neg (by decide)]
    exact follows_fail .attrName hts
  | cons u ts =>
    rw [next_cons]
    by_cases hu : u.kind = .ident ∨ u.kind.isKeyword
    · rw [if_pos hu]
      have hts' : ts <:+ S.body := (List.suffix_cons u ts).trans hts
      refine run_link_bind (expression n) object hu ▸ .advance hts
        (.bind (tracks_callSuffix he _ ts hts') fun e rest _ hrest => ?_)
      refine next rest e (hrest.trans hts') ?_
      have := hrest.length_le
      simp only [List.length_cons]
      omega
    · rw [if_neg hu, link, run_bind, run_next_cons, if_neg hu]
      exact follows_fail .attrName hts

theorem follows_chain (hus : t :: us <:+ S.body) (ht : t.kind = .ident) :
    S.Follows (production .chain) (t :: us) n ((Parser.chain (expression n) t).run us) := by
  refine follows_headed rfl hus ht fun hus' => ?_
  rw [chain_eq]
  exact .bind (tracks_callSuffix he _ us hus') fun e rest _ hrest =>
    tracks_links he e rest (hrest.trans hus')

/-! ## Values and comparisons -/

theorem tracks_value : S.Tracks (production .value) n (Parser.value (expression n)) := by
  refine tracks_production (fun us hus => ?_) fun _ => consumes_value _
  refine .current hus ?_
  cases us with
  | nil =>
    rw [next_nil, S.isEnd]
    exact follows_fail .operand hus
  | cons t us =>
    rw [next_cons, Parser.value, run_next_cons]
    cases ht : t.kind with
    | number =>
      refine .advance hus ?_
      cases Literal.ofNumber t.text with
      | error c => exact follows_failAt ⟨c, t :: us⟩
      | ok l => exact follows_pure _
    | string => exact .advance hus (follows_pure _)
    | boolean b => exact .advance hus (follows_pure _)
    | lparen =>
      have hus' : us <:+ S.body := (List.suffix_cons t us).trans hus
      refine .advance hus (.bind (he us hus') fun e rest _ hrest => ?_)
      exact .bind (follows_expect .closeParen (by decide) (hrest.trans hus')) fun _ _ _ _ => follows_pure e
    | ident => exact follows_chain he hus ht
    | _ => exact follows_fail .operand hus

theorem tracks_comparison : S.Tracks (production .comparison) n (Parser.comparison (expression n)) := by
  refine tracks_production (fun us hus => ?_) fun _ => consumes_comparison _
  refine .bind (tracks_value he us hus) fun left rest _ hrest => ?_
  have hrest' : rest <:+ S.body := hrest.trans hus
  refine .current hrest' ?_
  cases rest with
  | nil =>
    rw [next_nil, S.isEnd]
    exact follows_pure left
  | cons t ts =>
    rw [next_cons, run_branch_cons]
    cases ht : t.kind with
    | compare c =>
      have hts : ts <:+ S.body := (List.suffix_cons t ts).trans hrest'
      refine .advance hrest' (.bind (tracks_value he ts hts) fun right rest' _ hrest' => ?_)
      refine .current (hrest'.trans hts) ?_
      cases rest' with
      | nil =>
        rw [next_nil, S.isEnd]
        exact follows_pure _
      | cons u us =>
        rw [next_cons, run_bind, run_refuse_cons]
        by_cases hu : u.kind.isComparison
        · rw [if_pos hu, if_pos hu]
          exact follows_fail .chainedComparison (hrest'.trans hts)
        · rw [if_neg hu, if_neg hu]
          exact follows_pure _
    | _ => exact follows_pure left

end

/-! ## Levels of binding -/

theorem tracks_negation (he : S.Tracks (production .expression) n (expression n))
    (ho : S.Tracks (nested .negation) n (Grammar.operand n)) :
    S.Tracks Production.negation.body n (negation n) := by
  rw [Grammar.negation_eq]
  intro us hus
  cases us with
  | nil => exact .accept_other hus (kind_mark_ne (by decide)) (tracks_comparison he [] hus)
  | cons t us =>
    rw [unary, run_branch_cons]
    by_cases ht : t.kind = .kwNot
    · rw [if_pos ht]
      refine .accept_cons hus ht ?_
      exact .bind (ho us ((List.suffix_cons t us).trans hus)) fun _ _ _ _ => follows_pure _
    · rw [if_neg ht]
      exact .accept_other hus ht (tracks_comparison he (t :: us) hus)

theorem tracks_leftAssoc {op : BinaryOp} {k : TokenKind} {operand : Production Expr}
    {tail : Expr → Production Expr} {p : Parser Expr} (hoperand : S.Tracks (production operand) n p)
    (htail : ∀ left, S.Tracks (production (tail left)) n (operandsFrom op k p left)) :
    S.Tracks (production operand >>= fun left => production (tail left)) n (leftAssoc op k p) :=
  fun us hus => .bind (hoperand us hus) fun left rest _ hrest => htail left rest (hrest.trans hus)

theorem tracks_disjunction (h : S.Tracks Production.negation.body n (negation n)) :
    S.Tracks Production.disjunction.body n (expression (n + 1)) := by
  have hneg := tracks_production h fun _ => consumes_negation n
  have hand : S.Tracks (production .conjunction) n (leftAssoc .and .kwAnd (negation n)) :=
    tracks_production (tracks_leftAssoc hneg
      (tracks_tail (by decide) (fun _ => rfl) (fun _ => rfl) hneg))
      fun _ => (consumes_negation n).leftAssoc .and .kwAnd
  exact tracks_leftAssoc hand (tracks_tail (by decide) (fun _ => rfl) (fun _ => rfl) hand)

/-- With `n` units left of the budget a condition is read as with a counter that has `n` levels left. -/
theorem tracks_expression (hn : n ≤ S.limit) : S.Tracks (production .expression) n (expression n) ∧
    S.Tracks Production.negation.body n (negation n) := by
  induction n with
  | zero =>
    have he : S.Tracks (production .expression) 0 (expression 0) :=
      tracks_production (fun us hus => follows_nested_zero hus) fun _ => consumes_fail _
    exact ⟨he, tracks_negation he fun us hus => follows_nested_zero hus⟩
  | succ n ih =>
    obtain ⟨-, hneg⟩ := ih (Nat.le_of_succ_le hn)
    have he : S.Tracks (production .expression) (n + 1) (expression (n + 1)) :=
      tracks_production (fun us hus => follows_nested_succ hus hn (tracks_disjunction hneg us hus)
        fun _ _ _ h => consumes_expression (n + 1) h) fun _ => consumes_expression (n + 1)
    exact ⟨he, tracks_negation he fun us hus => follows_nested_succ hus hn (hneg us hus)
      fun _ _ _ h => consumes_negation n h⟩

end Scene

end PolicyLang
