import PolicyLang.Span
import PolicyLang.Text.Align
import PolicyLang.Vocabulary

/-!
# Tokens

A token is a kind, a text and a span. The kinds of words that have one spelling each, verbs and
categories carry what they mean; names, numbers and strings are told apart by their text.
-/

namespace PolicyLang

inductive TokenKind where
  | kwPolicy | kwRule | kwImport | kwPriority | kwWhen | kwThen | kwTo
  | verb (v : Verb)
  | category (c : Category)
  | kwAnd | kwOr | kwNot
  | boolean (b : Bool)
  | ident | number | string
  | colon | comma | dot | lbrace | rbrace | lparen | rparen
  | compare (c : Comparison)
  | eof
deriving DecidableEq, Repr

namespace TokenKind

/-- Every word with a meaning of its own is a keyword, verbs and categories included. -/
def isKeyword : TokenKind → Bool
  | kwPolicy | kwRule | kwImport | kwPriority | kwWhen | kwThen | kwTo => true
  | verb _ | category _ | kwAnd | kwOr | kwNot | boolean _ => true
  | _ => false

def isComparison : TokenKind → Bool
  | compare _ => true
  | _ => false

def isVerb : TokenKind → Bool
  | verb _ => true
  | _ => false

/-- How a kind is named in a message: its spelling, or what it is when it has no fixed one. -/
def describe : TokenKind → String
  | kwPolicy => "policy"
  | kwRule => "rule"
  | kwImport => "import"
  | kwPriority => "priority"
  | kwWhen => "when"
  | kwThen => "then"
  | kwTo => "to"
  | verb v => v.name
  | category c => c.name
  | kwAnd => "and"
  | kwOr => "or"
  | kwNot => "not"
  | boolean true => "true"
  | boolean false => "false"
  | ident => "identifier"
  | number => "number"
  | string => "string"
  | colon => ":"
  | comma => ","
  | dot => "."
  | lbrace => "\x7b"
  | rbrace => "\x7d"
  | lparen => "("
  | rparen => ")"
  | compare c => c.symbol
  | eof => "end of file"

/-- The name of a kind in a column of this width. -/
def display (k : TokenKind) (alignment : Text.Alignment) (width : Nat) : String :=
  Text.align alignment width k.describe

end TokenKind

/-- The text of a string token is its contents, of any other token what was written. -/
structure Token where
  kind : TokenKind
  text : String
  span : Span
deriving DecidableEq, Repr

def Token.eof (s : Span) : Token := ⟨.eof, "", s⟩

end PolicyLang
