import PolicyLang.Compile
import PolicyLang.Program.Dump
import PolicyLang.Program.Render
import PolicyLang.Text.Align

/-!
# Commands

The jobs of the command line, as functions from the contents of files to what is printed: list the
tokens of a file, show its program, check many files. A file that cannot be read ends a job where
it stands; a faulty one does not keep `check` from the files behind it.
-/

namespace PolicyLang

/-! ## Files -/

inductive ReadError where
  | missing
  /-- The bytes are no UTF-8. -/
  | notText
deriving DecidableEq, Repr

def ReadError.report : ReadError → String
  | missing =>
    "Error: Os \x7b code: 2, kind: NotFound, message: \"No such file or directory\" \x7d\n"
  | notText =>
    "Error: Error \x7b kind: InvalidData, message: \"stream did not contain valid UTF-8\" \x7d\n"

abbrev Store := String → Option ByteArray

def Store.readText (store : Store) (name : String) : Except ReadError String :=
  match store name with
  | none => .error .missing
  | some bytes =>
    match String.fromUTF8? bytes with
    | none => .error .notText
    | some text => .ok text

/-! ## Outcomes -/

/-- What a job prints on each stream, and its exit code. -/
structure Outcome where
  stdout : String := ""
  stderr : String := ""
  exitCode : UInt32 := 0
deriving DecidableEq, Repr

namespace Outcome

def failure (report : String) : Outcome := { stderr := report, exitCode := 1 }

def afterLine (line : String) (o : Outcome) : Outcome := { o with stdout := line ++ o.stdout }

def afterReport (line : String) (o : Outcome) : Outcome := { o with stderr := line ++ o.stderr }

end Outcome

def errorLine (file : String) (line column : Nat) (message : String) : String :=
  file ++ ":" ++ line.repr ++ ":" ++ column.repr ++ ": " ++ message ++ "\n"

def LexError.report (e : LexError) (file : String) : String :=
  errorLine file e.line e.column e.message

def CompileError.report (e : CompileError) (file : String) : String :=
  errorLine file e.line e.column e.message

/-! ## Jobs -/

def Token.listingLine (t : Token) : String :=
  Text.alignRight 4 t.span.line.repr ++ ":" ++ Text.alignLeft 4 t.span.column.repr ++ " " ++
    t.kind.display .left 12 ++ " " ++ quotedListing t.text ++ "\n"

inductive Command where
  | tokens (file : String)
  | parse (file : String) (canonical : Bool)
  | check (files : List String)
deriving DecidableEq, Repr

namespace Command

def runTokens (store : Store) (file : String) : Outcome :=
  match store.readText file with
  | .error e => .failure e.report
  | .ok source =>
    match tokenize source with
    | .error e => .failure (e.report file)
    | .ok ts => { stdout := String.join (ts.map Token.listingLine) }

def runParse (store : Store) (file : String) (canonical : Bool) : Outcome :=
  match store.readText file with
  | .error e => .failure e.report
  | .ok source =>
    match compile source with
    | .error e => .failure (e.report file)
    | .ok p => { stdout := if canonical then p.render else p.dump.render 0 ++ "\n" }

def okLine (file : String) (p : Program) : String :=
  file ++ ": ok (" ++ p.statements.length.repr ++ " statements)\n"

def summary (failed total : Nat) : String :=
  failed.repr ++ " of " ++ total.repr ++ " files failed\n"

/-- Checks the files that are left, where `failed` of the `total` files have failed so far. -/
def checkRest (store : Store) (total failed : Nat) : List String → Outcome
  | [] => if failed = 0 then {} else .failure (summary failed total)
  | file :: files =>
    match store.readText file with
    | .error e => .failure e.report
    | .ok source =>
      match compile source with
      | .ok p => (checkRest store total failed files).afterLine (okLine file p)
      | .error e => (checkRest store total (failed + 1) files).afterReport (e.report file)

def run (store : Store) : Command → Outcome
  | tokens file => runTokens store file
  | parse file canonical => runParse store file canonical
  | check files => checkRest store files.length 0 files

def files : Command → List String
  | tokens file => [file]
  | parse file _ => [file]
  | check files => files

def ofArgs? : List String → Option Command
  | ["tokens", file] => some (tokens file)
  | ["parse", file] => some (parse file false)
  | ["parse", "--canonical", file] => some (parse file true)
  | ["parse", file, "--canonical"] => some (parse file true)
  | "check" :: file :: files => some (check (file :: files))
  | _ => none

end Command

end PolicyLang
