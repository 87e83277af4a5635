import PolicyLang.Token.Lexer
import PolicyLang.Program.Parser

/-!
# From text to programs
-/

namespace PolicyLang

/-- What is wrong with a source text: its words, or their order. -/
inductive CompileError where
  | lexical (e : LexError)
  | grammatical (e : SyntaxError)
deriving DecidableEq, Repr

namespace CompileError

def message : CompileError → String
  | lexical e => e.message
  | grammatical e => e.message

def line : CompileError → Nat
  | lexical e => e.line
  | grammatical e => e.line

def column : CompileError → Nat
  | lexical e => e.column
  | grammatical e => e.column

end CompileError

/-- Reads a program whose conditions may nest up to `limit`. -/
def compileWithin (limit : Nat) (source : String) : Except CompileError Program := do
  let tokens ← (tokenize source).mapError .lexical
  (Program.parse limit tokens).mapError .grammatical

def compile (source : String) : Except CompileError Program :=
  compileWithin Program.defaultLimit source

section
variable {limit : Nat} {source : String}

theorem compileWithin_of_lexError {e : LexError} (h : tokenize source = .error e) :
    compileWithin limit source = .error (.lexical e) := by
  rw [compileWithin, h]
  rfl

theorem compileWithin_of_tokenize {ts : List Token} (h : tokenize source = .ok ts) :
    compileWithin limit source = (Program.parse limit ts).mapError .grammatical := by
  rw [compileWithin, h]
  rfl

theorem compileWithin_eq_ok_iff {p : Program} : compileWithin limit source = .ok p ↔
    ∃ ts, tokenize source = .ok ts ∧ Program.parse limit ts = .ok p := by
  cases ht : tokenize source with
  | error e => simp [compileWithin_of_lexError ht]
  | ok ts =>
    rw [compileWithin_of_tokenize ht]
    constructor
    · intro hp
      refine ⟨ts, rfl, ?_⟩
      cases h : Program.parse limit ts with
      | error e => rw [h] at hp; cases hp
      | ok q => rw [h] at hp; cases hp; rfl
    · rintro ⟨ts', hts, hp⟩
      cases hts
      rw [hp]
      rfl

end

end PolicyLang
