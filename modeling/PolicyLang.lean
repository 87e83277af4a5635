import PolicyLang.Main
import PolicyLang.Program.Node
import PolicyLang.Proofs.Command.Agreement
import PolicyLang.Proofs.Cursor.Conditions
import PolicyLang.Proofs.Cursor.Productions
import PolicyLang.Proofs.Cursor.Programs
import PolicyLang.Proofs.Cursor.Runs
import PolicyLang.Proofs.Cursor.Scene
import PolicyLang.Proofs.Grammar.Acceptance
import PolicyLang.Proofs.Grammar.Brackets
import PolicyLang.Proofs.Grammar.Charting
import PolicyLang.Proofs.Grammar.Charts
import PolicyLang.Proofs.Grammar.Completeness
import PolicyLang.Proofs.Grammar.Phrase
import PolicyLang.Proofs.Grammar.Soundness
import PolicyLang.Proofs.Grammar.Steps
import PolicyLang.Proofs.Grammar.Viability
import PolicyLang.Proofs.Grammar.WellFormed
import PolicyLang.Proofs.Lexical.Cutting
import PolicyLang.Proofs.Lexical.Faults
import PolicyLang.Proofs.Lexical.Joining
import PolicyLang.Proofs.Lexical.Language
import PolicyLang.Proofs.Lexical.Layout
import PolicyLang.Proofs.Lexical.LineEnds
import PolicyLang.Proofs.Lexical.Positions
import PolicyLang.Proofs.Lexical.Runs
import PolicyLang.Proofs.Lexical.Segmentation
import PolicyLang.Proofs.Lexical.Slices
import PolicyLang.Proofs.Lexical.Spelling
import PolicyLang.Proofs.Number.Nearest
import PolicyLang.Proofs.Number.Numeral
import PolicyLang.Proofs.Number.Order
import PolicyLang.Proofs.Number.Shortest
import PolicyLang.Proofs.Number.Signed
import PolicyLang.Proofs.Number.Whole
import PolicyLang.Proofs.Parser.Agreement
import PolicyLang.Proofs.Parser.Budget
import PolicyLang.Proofs.Parser.Lockstep
import PolicyLang.Proofs.Parser.Mending
import PolicyLang.Proofs.Parser.Progress
import PolicyLang.Proofs.Parser.Success
import PolicyLang.Proofs.Parser.Within
import PolicyLang.Proofs.Program.Composition
import PolicyLang.Proofs.Program.EndMark
import PolicyLang.Proofs.Program.FirstError
import PolicyLang.Proofs.Program.Layout
import PolicyLang.Proofs.Program.LineEnds
import PolicyLang.Proofs.Program.Nesting
import PolicyLang.Proofs.Program.Places
import PolicyLang.Proofs.Program.Slices
import PolicyLang.Proofs.Program.Spans
import PolicyLang.Proofs.Program.Threshold
import PolicyLang.Proofs.Program.Words
import PolicyLang.Proofs.Render.ConditionText
import PolicyLang.Proofs.Render.ConditionTokens
import PolicyLang.Proofs.Render.Doubles
import PolicyLang.Proofs.Render.Image
import PolicyLang.Proofs.Render.Indentation
import PolicyLang.Proofs.Render.Integers
import PolicyLang.Proofs.Render.ProgramText
import PolicyLang.Proofs.Render.ProgramTokens
import PolicyLang.Proofs.Render.RoundTrip
import PolicyLang.Proofs.Render.Strings
import PolicyLang.Proofs.Tree.Nesting
import PolicyLang.Proofs.Tree.Spans
import PolicyLang.Proofs.Tree.WellFormed
