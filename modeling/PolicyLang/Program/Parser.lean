import PolicyLang.Expr.Parser
import PolicyLang.Program.Basic

/-!
# Reading programs

Each construct is told by its first token. The parsers here read what stands behind that token,
which they are given for its span. `Program.parse` ties them to a whole token list and its end mark.
-/

namespace PolicyLang

/-! ## Clauses -/

def Priority.ofNumber (text : String) : Except Cause Int :=
  if '.' ∈ text.toList then .error .priorityFraction
  else
    match readInt? text with
    | none => .error .priorityRange
    | some n => .ok n

namespace Parser

def plainAction (verb : Token) (verdict : Verdict) : Parser Action := do
  refuse (· == .kwTo) .strayTarget
  pure ⟨verdict, verb.span⟩

/-- An action behind its verb. Only a route has a target. -/
def actionAfter (verb : Token) : Verb → Parser Action
  | .deny => plainAction verb .deny
  | .allow => plainAction verb .allow
  | .escalate => plainAction verb .escalate
  | .route => do
    let _ ← expect .kwTo .routeTo
    let target ← expect .ident .routeTarget
    pure ⟨.route ⟨target.text, target.span⟩, verb.span.to target.span⟩

def action : Parser Action :=
  next .verb fun t =>
    match t.kind with
    | .verb v => .ok (actionAfter t v)
    | _ => .error .verb

def guardAfter (limit : Nat) (start : Token) : Parser Guard := do
  let condition ← expression limit
  let _ ← expect .kwThen .thenWord
  let action ← action
  pure ⟨condition, action, start.span.to action.span⟩

def priorityAfter (start : Token) : Parser Priority :=
  next .priorityNumber fun t =>
    if t.kind = .number then
      (Priority.ofNumber t.text).map fun n => pure ⟨n, start.span.to t.span⟩
    else .error .priorityNumber

def clauseAfter? (limit : Nat) (t : Token) : Option (Parser Clause) :=
  match t.kind with
  | .kwWhen => some (.guard <$> guardAfter limit t)
  | .kwPriority => some (.priority <$> priorityAfter t)
  | .verb v => some (.action <$> actionAfter t v)
  | _ => none

/-! ## Declarations -/

def category : Parser Category :=
  next .category fun t =>
    match t.kind with
    | .category c => .ok (pure c)
    | _ => .error .category

def ruleStep (limit : Nat) (t : Token) : Step Clause :=
  if t.kind = .rbrace then .stop
  else
    match clauseAfter? limit t with
    | some p => .item p
    | none => .reject .ruleItem

def ruleAfterName (limit : Nat) (start name : Token) : Parser Rule := do
  let category ← category
  let _ ← expect .lbrace .ruleOpen
  let body ← many (ruleStep limit)
  let close ← expect .rbrace (.ruleClose name.text)
  pure ⟨name.text, category, body, start.span.to close.span⟩

def ruleAfter (limit : Nat) (start : Token) : Parser Rule := do
  let name ← expect .ident .ruleName
  let _ ← expect .colon .ruleColon
  ruleAfterName limit start name

/-- In a policy a name and a colon declare a rule, and a name alone refers to one. -/
def ruleItemAfter (limit : Nat) (start : Token) : Parser PolicyItem := do
  let name ← expect .ident .ruleName
  branch (pure (.ref ⟨name.text, start.span.to name.span⟩)) fun t =>
    if t.kind = .colon then some (.rule <$> ruleAfterName limit start name) else none

def policyStep (limit : Nat) (t : Token) : Step PolicyItem :=
  match t.kind with
  | .rbrace => .stop
  | .kwRule => .item (ruleItemAfter limit t)
  | _ =>
    match clauseAfter? limit t with
    | some p => .item (.clause <$> p)
    | none => .reject .policyItem

def policyAfter (limit : Nat) (start : Token) : Parser Policy := do
  let name ← expect .ident .policyName
  let _ ← expect .colon .policyColon
  let category ← category
  let _ ← expect .lbrace .policyOpen
  let body ← many (policyStep limit)
  let close ← expect .rbrace (.policyClose name.text)
  pure ⟨name.text, category, body, start.span.to close.span⟩

def importAfter (start : Token) : Parser Import := do
  let path ← expect .string .importPath
  pure ⟨path.text, start.span.to path.span⟩

/-! ## Programs -/

def statementStep (limit : Nat) (t : Token) : Step Statement :=
  match t.kind with
  | .kwPolicy => .item (.policy <$> policyAfter limit t)
  | .kwRule => .item (.rule <$> ruleAfter limit t)
  | .kwImport => .item (.imports <$> importAfter t)
  | _ => .reject .statement

def document (limit : Nat) : Parser (List Statement) := many (statementStep limit)

end Parser

/-- The end mark of a list that lacks one: behind its last token, on the same line and column. -/
def Token.eofAfter (tokens : List Token) : Token :=
  match tokens.getLast? with
  | some t => .eof t.span.tail
  | none => .eof {}

namespace Program

/-- Reads the tokens before the end mark `eof`, which takes the blame where they are too few. -/
def parseBody (limit : Nat) (tokens : List Token) (eof : Token) : Except SyntaxError Program :=
  match (Parser.document limit).run tokens with
  | .ok (statements, _) => .ok ⟨statements, ⟨1, 1, 0, eof.span.stop⟩⟩
  | .error f => .error (f.cause.at (f.rest.head?.getD eof))

/-- Reads a token list. It may lack its end mark, but nothing may stand behind it; `limit` is the
budget for the nesting of each condition. -/
def parse (limit : Nat) (tokens : List Token) : Except SyntaxError Program :=
  let body := tokens.takeWhile (·.kind != .eof)
  match tokens.dropWhile (·.kind != .eof) with
  | [] => parseBody limit body (.eofAfter body)
  | [eof] => parseBody limit body eof
  | _ :: extra :: _ => .error (Cause.afterEnd.at extra)

def defaultLimit : Nat := 128

end Program

end PolicyLang
