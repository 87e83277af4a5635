import PolicyLang.Command

/-!
# The command line

Reads the files that a command names, runs it on their contents and prints what it says.
-/

namespace PolicyLang

def usage : String :=
  "usage: plangc tokens FILE | parse FILE [--canonical] | check FILE...\n"

def readBytes (file : String) : IO (Option ByteArray) :=
  try some <$> IO.FS.readBinFile file catch _ => pure none

def runArgs (args : List String) : IO UInt32 := do
  match Command.ofArgs? args with
  | none =>
    IO.eprint usage
    pure 2
  | some command =>
    let contents ← command.files.mapM fun file => do pure (file, ← readBytes file)
    let outcome := command.run fun name => (contents.lookup name).join
    IO.print outcome.stdout
    IO.eprint outcome.stderr
    pure outcome.exitCode

end PolicyLang

def main (args : List String) : IO UInt32 := PolicyLang.runArgs args
