import PolicyLang.Text.Hidden

/-!
# Quoted text

A string literal stands between two equal quotes on one line. A backslash and the character behind
it stand for one character. `Quoted.write` always uses double quotes and escapes what could end the
literal or its line; `Quoted.read` takes either quote.
-/

namespace PolicyLang.Quoted

def unescape : Char → Option Char
  | 'n' => some '\n'
  | 't' => some '\t'
  | 'r' => some '\r'
  | '0' => some '\x00'
  | '\\' => some '\\'
  | '"' => some '"'
  | '\x27' => some '\x27'
  | _ => none

/-- How a character is written inside double quotes. -/
def escape : Char → List Char
  | '"' => ['\\', '"']
  | '\\' => ['\\', '\\']
  | '\n' => ['\\', 'n']
  | '\t' => ['\\', 't']
  | '\r' => ['\\', 'r']
  | '\x00' => ['\\', '0']
  | c => [c]

def write (cs : List Char) : List Char := '"' :: cs.flatMap escape ++ ['"']

/-- How a character is shown in a listing: one that is hidden and has no short escape is given by its
number. -/
def escapeHidden (c : Char) : List Char :=
  if escape c = [c] ∧ isHidden c then
    '\\' :: 'u' :: '{' :: Nat.toDigits 16 c.toNat ++ ['}']
  else escape c

/-- The form of a text in a listing. Unlike canonical text it is not meant to be read back. -/
def listing (cs : List Char) : List Char := '"' :: cs.flatMap escapeHidden ++ ['"']

/-- What follows an opening quote. -/
inductive Reading where
  /-- The contents, the characters up to and with the closing quote, and what is left behind it. -/
  | closed (value source rest : List Char)
  /-- The line or the text ends first. -/
  | unclosed
  /-- A backslash in front of `c` stands for nothing; `before` is what was read before it. -/
  | badEscape (c : Char) (before : List Char)
deriving DecidableEq, Repr

def Reading.cons (c : Char) (source : List Char) : Reading → Reading
  | closed value src rest => closed (c :: value) (source ++ src) rest
  | unclosed => unclosed
  | badEscape e before => badEscape e (source ++ before)

/-- Reads up to the first unescaped `quote`. -/
def read (quote : Char) : List Char → Reading
  | [] => .unclosed
  | c :: cs =>
    if c = '\n' then .unclosed
    else if c = quote then .closed [] [c] cs
    else if c = '\\' then
      match cs with
      | [] => .unclosed
      | e :: rest =>
        if e = '\n' then .unclosed
        else match unescape e with
          | none => .badEscape e []
          | some v => (read quote rest).cons v [c, e]
    else (read quote cs).cons c [c]

theorem Reading.cons_eq_closed {c : Char} {front value source rest : List Char} {r : Reading}
    (h : r.cons c front = .closed value source rest) :
    ∃ v s, r = .closed v s rest ∧ value = c :: v ∧ source = front ++ s := by
  cases r with
  | closed v s t => cases h; exact ⟨v, s, rfl, rfl, rfl⟩
  | unclosed => cases h
  | badEscape e before => cases h

/-- A literal that is closed is made of its own characters, and the rest is untouched. -/
theorem append_of_read_eq_closed {quote : Char} {cs value source rest : List Char}
    (h : read quote cs = .closed value source rest) : source ++ rest = cs := by
  fun_induction read quote cs generalizing value source rest with
  | case1 => cases h
  | case2 => cases h
  | case3 => cases h; rfl
  | case4 => cases h
  | case5 => cases h
  | case6 => cases h
  | case7 e tail _ _ _ _ _ ih =>
    obtain ⟨v, s, hr, -, rfl⟩ := Reading.cons_eq_closed h
    simp [ih hr]
  | case8 c cs _ _ _ ih =>
    obtain ⟨v, s, hr, -, rfl⟩ := Reading.cons_eq_closed h
    simp [ih hr]

end PolicyLang.Quoted
