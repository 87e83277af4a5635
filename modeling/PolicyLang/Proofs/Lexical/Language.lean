import PolicyLang.Token.Lexer

/-!
# The lexical language

What gaps and lexemes are, and what it means that a text is made of them. A lexeme is described
together with what stands behind it: it may not be followed by more of itself.
-/

namespace PolicyLang.Lexical

/-! ## Characters -/

def Letter (c : Char) : Prop := 'a' ≤ c ∧ c ≤ 'z' ∨ 'A' ≤ c ∧ c ≤ 'Z' ∨ c = '_'

def Digit (c : Char) : Prop := '0' ≤ c ∧ c ≤ '9'

def WordChar (c : Char) : Prop := Letter c ∨ Digit c

/-- The text does not go on with a character of the class. -/
def NotBefore (rest : List Char) (P : Char → Prop) : Prop := ∀ c ∈ rest.head?, ¬ P c

def bytes : List Char → Nat
  | [] => 0
  | c :: cs => c.utf8Size + bytes cs

/-! ## Gaps -/

/-- `GapPiece g rest`: the text `g` before `rest` is a blank or a comment up to the end of its line. -/
inductive GapPiece : List Char → List Char → Prop
  | blank {c rest} : c = ' ' ∨ c = '\t' ∨ c = '\r' ∨ c = '\n' → GapPiece [c] rest
  | comment {cs rest} : '\n' ∉ cs → NotBefore rest (· ≠ '\n') → GapPiece ('#' :: cs) rest

inductive Gap : List Char → List Char → Prop
  | nil {rest} : Gap [] rest
  | cons {g gs rest} : GapPiece g (gs ++ rest) → Gap gs rest → Gap (g ++ gs) rest

/-! ## Lexemes -/

/-- Keywords are spelled in lower case, categories in any case. -/
def Spells (word : List Char) (k : TokenKind) : Prop :=
  k.isKeyword = true ∧ (word = k.describe.toList ∨
    ∃ c, k = .category c ∧ word.map Char.toLower = k.describe.toList)

inductive WordKind (word : List Char) : TokenKind → Prop
  | keyword {k} : Spells word k → WordKind word k
  | name : (∀ k, ¬ Spells word k) → WordKind word .ident

/-- The characters that may stand behind a backslash, with what they mean there. -/
def escapes : List (Char × Char) :=
  [('\\', '\\'), ('"', '"'), ('\x27', '\x27'), ('n', '\n'), ('t', '\t'), ('r', '\r'), ('0', '\x00')]

/-- What stands between two quotes `q`, and the text that it means. -/
inductive Quotation (q : Char) : List Char → List Char → Prop
  | nil : Quotation q [] []
  | char {c cs vs} : c ≠ '\n' → c ≠ q → c ≠ '\\' → Quotation q cs vs → Quotation q (c :: cs) (c :: vs)
  | escape {e v cs vs} : (e, v) ∈ escapes → Quotation q cs vs → Quotation q ('\\' :: e :: cs) (v :: vs)

def symbols : List (String × TokenKind) :=
  [("==", .compare .eq), ("!=", .compare .ne), ("<=", .compare .le), (">=", .compare .ge),
   ("<", .compare .lt), (">", .compare .gt), (":", .colon), (",", .comma), (".", .dot),
   ("\x7b", .lbrace), ("\x7d", .rbrace), ("(", .lparen), (")", .rparen)]

/-- `Lexeme source rest kind text`: the text `source` before `rest` is a lexeme, the longest one
that starts there, and becomes a token of that kind and text. -/
inductive Lexeme : List Char → List Char → TokenKind → String → Prop
  | word {c cs rest k} : Letter c → (∀ d ∈ cs, WordChar d) → NotBefore rest WordChar →
      WordKind (c :: cs) k → Lexeme (c :: cs) rest k (.ofList (c :: cs))
  | whole {ds rest} : ds ≠ [] → (∀ d ∈ ds, Digit d) → NotBefore rest Digit →
      (∀ cs, rest = '.' :: cs → NotBefore cs Digit) → Lexeme ds rest .number (.ofList ds)
  | fraction {ds fs rest} : ds ≠ [] → (∀ d ∈ ds, Digit d) → fs ≠ [] → (∀ d ∈ fs, Digit d) →
      NotBefore rest Digit → Lexeme (ds ++ '.' :: fs) rest .number (.ofList (ds ++ '.' :: fs))
  | string {q cs vs rest} : q = '"' ∨ q = '\x27' → Quotation q cs vs →
      Lexeme (q :: (cs ++ [q])) rest .string (.ofList vs)
  | symbol {s k rest} : (s, k) ∈ symbols → (s = "<" ∨ s = ">" → NotBefore rest (· = '=')) →
      Lexeme s.toList rest k s

/-! ## Texts -/

/-- `Segmented off cs ts`: the text `cs`, which starts at the byte `off`, is made of gaps and of the
lexemes of `ts` in their places, with one end mark behind all of it. -/
inductive Segmented : Nat → List Char → List Token → Prop
  | done {off g t} : Gap g [] → t.kind = .eof → t.text = "" → t.span.start = off + bytes g →
      t.span.stop = t.span.start → Segmented off g [t]
  | lexeme {off g cs rest t ts} : Gap g (cs ++ rest) → Lexeme cs rest t.kind t.text →
      t.span.start = off + bytes g → t.span.stop = t.span.start + bytes cs →
      Segmented t.span.stop rest ts → Segmented off (g ++ (cs ++ rest)) (t :: ts)

end PolicyLang.Lexical
