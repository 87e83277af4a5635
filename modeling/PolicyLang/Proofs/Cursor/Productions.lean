import PolicyLang.Proofs.Program.EndMark

/-!
# Reading with a cursor

The reader of programs as a machine: one vector of tokens with a position in it, and a counter for how
deep conditions nest. It has five operations on them, which are undefined where an index is beyond the
tokens or the counter would go below zero. Each production is a script of operations, with calls of other
productions in it, and a loop is a production that calls itself.
-/

namespace PolicyLang

structure Cursor where
  tokens : List Token
  position : Nat
  depth : Nat
  limit : Nat
deriving DecidableEq, Repr

/-- The cursor in front of a token list, which is completed by an end mark. -/
def Cursor.start (limit : Nat) (ts : List Token) : Cursor := ⟨completed ts, 0, 0, limit⟩

/-- What is told of an error: the message, and kind, text and place of the token to blame. -/
structure Report where
  message : String
  found : TokenKind
  text : String
  line : Nat
  column : Nat
deriving DecidableEq, Repr

def Report.at (message : String) (t : Token) : Report :=
  ⟨message, t.kind, t.text, t.span.line, t.span.column⟩

def SyntaxError.report (e : SyntaxError) : Report :=
  ⟨e.cause.message, e.found, e.text, e.line, e.column⟩

/-! ## Operations -/

inductive Operation : Type → Type where
  /-- The token some places ahead, or the last one. -/
  | peek (offset : Nat) : Operation Token
  | atEnd : Operation Bool
  /-- Takes the next token. The end mark is never passed. -/
  | advance : Operation Token
  /-- Counts one level more, unless the limit is reached. -/
  | descend : Operation Bool
  | ascend : Operation Unit

/-- The result and the cursor behind an operation, none where it is undefined. -/
def Operation.exec (c : Cursor) : {β : Type} → Operation β → Option (β × Cursor)
  | _, peek offset =>
    (c.tokens[min (c.position + offset) (c.tokens.length - 1)]?).map fun t => (t, c)
  | _, atEnd => (c.tokens[c.position]?).map fun t => (t.kind == .eof, c)
  | _, advance =>
    (c.tokens[c.position]?).map fun t =>
      (t, if t.kind = .eof then c else { c with position := c.position + 1 })
  | _, descend =>
    if c.limit ≤ c.depth then some (false, c) else some (true, { c with depth := c.depth + 1 })
  | _, ascend => if c.depth = 0 then none else some ((), { c with depth := c.depth - 1 })

/-! ## Scripts -/

/-- The productions and what they give. Those with a value of what was read before go on from there:
they are loops, or what stands behind a name. -/
inductive Production : Type → Type where
  | program : Production Program
  | statements (items : List Statement) : Production (List Statement)
  | policy : Production Policy
  | policyItems (items : List PolicyItem) : Production (List PolicyItem)
  | rule : Production Rule
  | ruleItems (items : List Clause) : Production (List Clause)
  | ruleRef : Production RuleRef
  | category : Production Category
  | guard : Production Guard
  | action : Production Action
  | route : Production Action
  | priority : Production Priority
  | imports : Production Import
  | expression : Production Expr
  | disjunction : Production Expr
  | disjuncts (left : Expr) : Production Expr
  | conjunction : Production Expr
  | conjuncts (left : Expr) : Production Expr
  | negation : Production Expr
  | comparison : Production Expr
  | value : Production Expr
  | chain : Production Expr
  | links (object : Expr) : Production Expr
  | callSuffix (callee : Expr) : Production Expr
  | arguments (items : List Expr) : Production (List Expr)

inductive Script (α : Type) : Type 1 where
  | done (result : Except Report α)
  | perform {β : Type} (o : Operation β) (next : β → Script α)
  | call {β : Type} (p : Production β) (next : Except Report β → Script α)

namespace Script

variable {α β : Type}

/-- An error ends the script. -/
protected def bind : Script α → (α → Script β) → Script β
  | done (.ok a), f => f a
  | done (.error e), _ => done (.error e)
  | perform o next, f => perform o fun b => (next b).bind f
  | call p next, f => call p fun r => (next r).bind f

instance : Monad Script where
  pure a := done (.ok a)
  bind := Script.bind

def operation (o : Operation α) : Script α := perform o pure

def production (p : Production α) : Script α := call p done

def current : Script Token := operation (.peek 0)

def advance : Script Token := operation .advance

def failAt (message : String) (t : Token) : Script α := done (.error (.at message t))

def fail (message : String) : Script α := do
  let t ← current
  failAt message t

def expect (kind : TokenKind) (message : String) : Script Token := do
  let t ← current
  if t.kind = kind then advance else fail message

def accept? (kind : TokenKind) : Script (Option Token) := do
  let t ← current
  if t.kind = kind then some <$> advance else pure none

/-- One level deeper; the level is left again also when the production fails. -/
def nested (p : Production α) : Script α := do
  let fits ← operation .descend
  if fits then call p fun r => perform .ascend fun _ => done r
  else fail Cause.tooDeep.message

/-- Whether a name and a colon stand behind the next token. -/
def declares : Script Bool := do
  let name ← operation (.peek 1)
  if name.kind = .ident then do
    let colon ← operation (.peek 2)
    pure (colon.kind == .colon)
  else pure false

end Script

/-! ## Productions -/

namespace Production

open Script

/-- A production that reads at least one token whenever it succeeds. A program may be empty, and so
may a loop and what can stand behind a name. -/
def consumes : {α : Type} → Production α → Bool
  | _, program | _, statements _ | _, policyItems _ | _, ruleItems _ => false
  | _, disjuncts _ | _, conjuncts _ | _, links _ | _, callSuffix _ | _, arguments _ => false
  | _, _ => true

def body : {α : Type} → Production α → Script α
  | _, program => do
    let statements ← production (statements [])
    let stop ← current
    pure ⟨statements, ⟨1, 1, 0, stop.span.stop⟩⟩
  | _, statements items => do
    let isEnd ← operation .atEnd
    if isEnd then pure items
    else do
      let t ← current
      match t.kind with
      | .kwPolicy => do
        let p ← production policy
        production (statements (items ++ [.policy p]))
      | .kwRule => do
        let r ← production rule
        production (statements (items ++ [.rule r]))
      | .kwImport => do
        let i ← production imports
        production (statements (items ++ [.imports i]))
      | _ => fail Cause.statement.message
  | _, policy =>
    block .kwPolicy "expected 'policy'" .policyName .policyColon .policyOpen (policyItems []) .policyClose
      Policy.mk
  | _, policyItems items => do
    let t ← current
    match t.kind with
    | .rbrace | .eof => pure items
    | .kwRule => do
      let declaration ← declares
      if declaration then do
        let r ← production rule
        production (policyItems (items ++ [.rule r]))
      else do
        let r ← production ruleRef
        production (policyItems (items ++ [.ref r]))
    | .kwWhen => do
      let g ← production guard
      production (policyItems (items ++ [.clause (.guard g)]))
    | .kwPriority => do
      let p ← production priority
      production (policyItems (items ++ [.clause (.priority p)]))
    | .verb _ => do
      let a ← production action
      production (policyItems (items ++ [.clause (.action a)]))
    | _ => fail Cause.policyItem.message
  | _, rule =>
    block .kwRule "expected 'rule'" .ruleName .ruleColon .ruleOpen (ruleItems []) .ruleClose Rule.mk
  | _, ruleItems items => do
    let t ← current
    match t.kind with
    | .rbrace | .eof => pure items
    | .kwWhen => do
      let g ← production guard
      production (ruleItems (items ++ [.guard g]))
    | .kwPriority => do
      let p ← production priority
      production (ruleItems (items ++ [.priority p]))
    | .verb _ => do
      let a ← production action
      production (ruleItems (items ++ [.action a]))
    | _ => fail Cause.ruleItem.message
  | _, ruleRef => do
    let start ← expect .kwRule "expected 'rule'"
    let name ← expect .ident Cause.ruleName.message
    pure ⟨name.text, start.span.to name.span⟩
  | _, category => do
    let t ← current
    match t.kind with
    | .category c => do
      let _ ← advance
      pure c
    | _ => fail Cause.category.message
  | _, guard => do
    let start ← expect .kwWhen "expected 'when'"
    let condition ← production expression
    let _ ← expect .kwThen Cause.thenWord.message
    let action ← production action
    pure ⟨condition, action, start.span.to action.span⟩
  | _, action => do
    let t ← current
    match t.kind with
    | .verb .deny => plain .deny
    | .verb .allow => plain .allow
    | .verb .escalate => plain .escalate
    | .verb .route => production route
    | _ => fail Cause.verb.message
  | _, route => do
    let start ← expect (.verb .route) "expected 'route'"
    let _ ← expect .kwTo Cause.routeTo.message
    let target ← expect .ident Cause.routeTarget.message
    pure ⟨.route ⟨target.text, target.span⟩, start.span.to target.span⟩
  | _, priority => do
    let start ← expect .kwPriority "expected 'priority'"
    let number ← expect .number Cause.priorityNumber.message
    match Priority.ofNumber number.text with
    | .error c => failAt c.message number
    | .ok n => pure ⟨n, start.span.to number.span⟩
  | _, imports => do
    let start ← expect .kwImport "expected 'import'"
    let path ← expect .string Cause.importPath.message
    pure ⟨path.text, start.span.to path.span⟩
  | _, expression => nested disjunction
  | _, disjunction => do
    let left ← production conjunction
    production (disjuncts left)
  | _, disjuncts left => do
    match ← accept? .kwOr with
    | none => pure left
    | some _ => do
      let right ← production conjunction
      production (disjuncts (.join .or left right))
  | _, conjunction => do
    let left ← production negation
    production (conjuncts left)
  | _, conjuncts left => do
    match ← accept? .kwAnd with
    | none => pure left
    | some _ => do
      let right ← production negation
      production (conjuncts (.join .and left right))
  | _, negation => do
    match ← accept? .kwNot with
    | none => production comparison
    | some t => do
      let operand ← nested negation
      pure (.negate operand (t.span.to operand.span))
  | _, comparison => do
    let left ← production value
    let t ← current
    match t.kind with
    | .compare c => do
      let _ ← advance
      let right ← production value
      let t ← current
      if t.kind.isComparison then fail Cause.chainedComparison.message
      else pure (.join (.compare c) left right)
    | _ => pure left
  | _, value => do
    let t ← current
    match t.kind with
    | .number => do
      let _ ← advance
      match Literal.ofNumber t.text with
      | .error c => failAt c.message t
      | .ok l => pure (.literal l t.span)
    | .string => do
      let _ ← advance
      pure (.literal (.str t.text) t.span)
    | .boolean b => do
      let _ ← advance
      pure (.literal (.bool b) t.span)
    | .lparen => do
      let _ ← advance
      let e ← production expression
      let _ ← expect .rparen Cause.closeParen.message
      pure e
    | .ident => production chain
    | _ => fail Cause.operand.message
  | _, chain => do
    let name ← expect .ident "expected identifier"
    let e ← production (callSuffix (.ident name.text name.span))
    production (links e)
  | _, links object => do
    match ← accept? .dot with
    | none => pure object
    | some _ => do
      let name ← current
      if name.kind = .ident ∨ name.kind.isKeyword then do
        let _ ← advance
        let e ← production (callSuffix (.attr object name.text (object.span.to name.span)))
        production (links e)
      else fail Cause.attrName.message
  | _, callSuffix callee => do
    match ← accept? .lparen with
    | none => pure callee
    | some _ => do
      let args ← listed
      let close ← expect .rparen Cause.closeArguments.message
      pure (.call callee args (callee.span.to close.span))
  | _, arguments items => do
    let e ← production expression
    match ← accept? .comma with
    | none => pure (items ++ [e])
    | some _ => production (arguments (items ++ [e]))
where
  /-- A keyword, a name, a category and items in braces. -/
  block {ι δ : Type} (keyword : TokenKind) (missing : String) (noName noColon noOpen : Cause)
      (items : Production (List ι)) (noClose : String → Cause)
      (make : String → Category → List ι → Span → δ) : Script δ := do
    let start ← expect keyword missing
    let name ← expect .ident noName.message
    let _ ← expect .colon noColon.message
    let category ← production category
    let _ ← expect .lbrace noOpen.message
    let body ← production items
    let close ← expect .rbrace (noClose name.text).message
    pure (make name.text category body (start.span.to close.span))
  /-- An action without a target. -/
  plain (verdict : Verdict) : Script Action := do
    let start ← advance
    let t ← current
    if t.kind = .kwTo then fail Cause.strayTarget.message
    else pure ⟨verdict, start.span⟩
  /-- The arguments up to the closing parenthesis. -/
  listed : Script (List Expr) := do
    let t ← current
    if t.kind = .rparen then pure [] else production (arguments [])

end Production

end PolicyLang
