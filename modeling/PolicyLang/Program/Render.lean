import PolicyLang.Expr.Render
import PolicyLang.Program.Basic
import PolicyLang.Text.Lines

/-!
# Programs as canonical text

One clause a line, indented by four spaces for each body around it. Only the text of a whole
program ends with a line feed.
-/

namespace PolicyLang

def Action.render (a : Action) : String :=
  match a.verdict with
  | .route target => "route to " ++ target.name
  | v => v.verb.name

def Guard.render (g : Guard) : String :=
  "when " ++ g.condition.render ++ " then " ++ g.action.render

def Priority.render (p : Priority) : String := "priority " ++ p.value.repr

def Clause.render : Clause → String
  | priority p => p.render
  | guard g => g.render
  | action a => a.render

def renderHeader (word name : String) (category : Category) : String :=
  word ++ " " ++ name ++ " : " ++ category.name ++ " \x7b\n"

def Rule.render (r : Rule) : String :=
  renderHeader "rule" r.name r.category ++
    String.join (r.body.map fun c => Text.indented c.render) ++ "\x7d"

/-- The lines of an item in the body of its policy. -/
def PolicyItem.renderLines : PolicyItem → String
  | ref r => Text.indented ("rule " ++ r.name)
  | rule r => Text.indent r.render
  | clause c => Text.indented c.render

def Policy.render (p : Policy) : String :=
  renderHeader "policy" p.name p.category ++
    String.join (p.body.map PolicyItem.renderLines) ++ "\x7d"

def Import.render (i : Import) : String := "import " ++ String.ofList (Quoted.write i.path.toList)

def Statement.render : Statement → String
  | policy p => p.render
  | rule r => r.render
  | imports i => i.render

def Program.render (p : Program) : String :=
  String.join (p.statements.map fun s => s.render ++ "\n")

end PolicyLang
