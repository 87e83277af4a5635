import PolicyLang.Token.Keyword
import PolicyLang.Text.CharClass
import PolicyLang.Text.Quoted

/-!
# From text to tokens

`cut` takes one piece off a text, a gap or the longest lexeme that starts there, and knows nothing
of positions; `scan` cuts until the text is used up and adds them. Every piece is a nonempty run
of the text (`append_of_cut_eq_ok`), so scanning ends.
-/

namespace PolicyLang

/-! ## Pieces -/

/-- One piece off the front of a text: what it is, its characters, what is left. -/
structure Piece where
  /-- Kind and text of the token, nothing for a gap. -/
  token : Option (TokenKind × String)
  source : List Char
  rest : List Char
deriving Repr

inductive LexFault where
  | unclosedString
  | badEscape (c : Char)
  | strayChar (c : Char)
deriving DecidableEq, Repr

/-- Why no piece can be cut, and what stands before the place to blame. -/
structure CutError where
  fault : LexFault
  before : List Char
deriving Repr

def Piece.plain (kind : TokenKind) (source rest : List Char) : Piece :=
  ⟨some (kind, String.ofList source), source, rest⟩

/-- Splits a number off a text that starts with a digit. A dot belongs to it only before a digit. -/
def splitNumber (cs : List Char) : List Char × List Char :=
  let whole := cs.takeWhile Char.isDigit
  match cs.dropWhile Char.isDigit with
  | '.' :: d :: ds =>
    if d.isDigit then
      (whole ++ '.' :: (d :: ds).takeWhile Char.isDigit, (d :: ds).dropWhile Char.isDigit)
    else (whole, '.' :: d :: ds)
  | rest => (whole, rest)

/-- Cuts an operator or a punctuation mark, the longer one where two fit. -/
def cutSymbol : List Char → Option Piece
  | '=' :: '=' :: cs => some (.plain (.compare .eq) ['=', '='] cs)
  | '!' :: '=' :: cs => some (.plain (.compare .ne) ['!', '='] cs)
  | '<' :: '=' :: cs => some (.plain (.compare .le) ['<', '='] cs)
  | '>' :: '=' :: cs => some (.plain (.compare .ge) ['>', '='] cs)
  | '<' :: cs => some (.plain (.compare .lt) ['<'] cs)
  | '>' :: cs => some (.plain (.compare .gt) ['>'] cs)
  | ':' :: cs => some (.plain .colon [':'] cs)
  | ',' :: cs => some (.plain .comma [','] cs)
  | '.' :: cs => some (.plain .dot ['.'] cs)
  | '{' :: cs => some (.plain .lbrace ['{'] cs)
  | '}' :: cs => some (.plain .rbrace ['}'] cs)
  | '(' :: cs => some (.plain .lparen ['('] cs)
  | ')' :: cs => some (.plain .rparen [')'] cs)
  | _ => none

def cut (c : Char) (cs : List Char) : Except CutError Piece :=
  if isBlank c then .ok ⟨none, [c], cs⟩
  else if c = '#' then
    .ok ⟨none, c :: cs.takeWhile (· != '\n'), cs.dropWhile (· != '\n')⟩
  else if isLetter c then
    let word := c :: cs.takeWhile isWordChar
    .ok (.plain (.ofWord (String.ofList word)) word (cs.dropWhile isWordChar))
  else if c.isDigit then
    let (number, rest) := splitNumber (c :: cs)
    .ok (.plain .number number rest)
  else if c = '"' ∨ c = '\x27' then
    match Quoted.read c cs with
    | .closed value source rest => .ok ⟨some (.string, String.ofList value), c :: source, rest⟩
    | .unclosed => .error ⟨.unclosedString, []⟩
    | .badEscape e before => .error ⟨.badEscape e, c :: before⟩
  else
    match cutSymbol (c :: cs) with
    | some piece => .ok piece
    | none => .error ⟨.strayChar c, []⟩

/-! ## Nothing is lost -/

theorem splitNumber_append (cs : List Char) : (splitNumber cs).1 ++ (splitNumber cs).2 = cs := by
  have h := List.takeWhile_append_dropWhile (p := Char.isDigit) (l := cs)
  unfold splitNumber
  split
  · rename_i d ds hd
    rw [hd] at h
    split
    · simp only [List.append_assoc, List.cons_append, List.takeWhile_append_dropWhile, h]
    · exact h
  · exact h

theorem splitNumber_ne_nil {c : Char} (cs : List Char) (hc : c.isDigit = true) :
    (splitNumber (c :: cs)).1 ≠ [] := by
  unfold splitNumber
  split
  · split <;> simp [hc]
  · simp [hc]

theorem append_of_cutSymbol_eq_some {cs : List Char} {piece : Piece}
    (h : cutSymbol cs = some piece) : piece.source ++ piece.rest = cs ∧ piece.source ≠ [] := by
  unfold cutSymbol at h
  split at h <;> cases h <;> simp [Piece.plain]

theorem append_of_cut_eq_ok {c : Char} {cs : List Char} {piece : Piece}
    (h : cut c cs = .ok piece) : piece.source ++ piece.rest = c :: cs ∧ piece.source ≠ [] := by
  unfold cut at h
  split at h
  · cases h; simp
  split at h
  · cases h; simp
  split at h
  · cases h; simp [Piece.plain]
  split at h
  · rename_i hd
    cases h
    exact ⟨splitNumber_append _, splitNumber_ne_nil cs hd⟩
  split at h
  · split at h
    · rename_i hr
      cases h
      simp [Quoted.append_of_read_eq_closed hr]
    · cases h
    · cases h
  · split at h
    · rename_i hs
      cases h
      exact append_of_cutSymbol_eq_some hs
    · cases h

theorem length_rest_lt_of_cut_eq_ok {c : Char} {cs : List Char} {piece : Piece}
    (h : cut c cs = .ok piece) : piece.rest.length < (c :: cs).length := by
  obtain ⟨ha, hn⟩ := append_of_cut_eq_ok h
  rw [← ha, List.length_append]
  have := List.length_pos_iff.mpr hn
  omega

/-! ## Scanning -/

structure LexError where
  fault : LexFault
  line : Nat
  column : Nat
deriving DecidableEq, Repr

def LexError.message (e : LexError) : String :=
  let place := " at line " ++ e.line.repr ++ ", column " ++ e.column.repr
  match e.fault with
  | .unclosedString => "unterminated string literal" ++ place
  | .badEscape c => "invalid escape sequence '\\" ++ c.toString ++ "'" ++ place
  | .strayChar c => "unexpected character '" ++ c.toString ++ "'" ++ place

/-- The error at the place behind the characters that were read before it. -/
def CutError.at (e : CutError) (p : Pos) : LexError :=
  let q := p.after e.before
  ⟨e.fault, q.line, q.column⟩

def Piece.tokens (piece : Piece) (p : Pos) : List Token :=
  match piece.token with
  | none => []
  | some (kind, text) => [⟨kind, text, .between p (p.after piece.source)⟩]

/-- The tokens of a text that starts at `p`, with an end mark behind them. -/
def scan (p : Pos) : List Char → Except LexError (List Token)
  | [] => .ok [.eof (.between p p)]
  | c :: cs =>
    match _h : cut c cs with
    | .error e => .error (e.at p)
    | .ok piece => (scan (p.after piece.source) piece.rest).map (piece.tokens p ++ ·)
termination_by cs => cs.length
decreasing_by exact length_rest_lt_of_cut_eq_ok ‹_›

@[simp] theorem scan_nil (p : Pos) : scan p [] = .ok [.eof (.between p p)] := by
  rw [scan]

theorem scan_cons (p : Pos) (c : Char) (cs : List Char) :
    scan p (c :: cs) = match cut c cs with
      | .error e => .error (e.at p)
      | .ok piece => (scan (p.after piece.source) piece.rest).map (piece.tokens p ++ ·) := by
  rw [scan]
  split <;> rename_i h <;> rw [h]

/-- Cuts a source text into tokens. The last one, and only the last one, is the end mark. -/
def tokenize (source : String) : Except LexError (List Token) := scan {} source.toList

end PolicyLang
