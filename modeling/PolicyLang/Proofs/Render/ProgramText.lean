import PolicyLang.Program.Render
import PolicyLang.Proofs.Render.ConditionText
import PolicyLang.Proofs.Render.ProgramTokens

/-!
# The text of programs

The canonical text of a well-formed program is cut into the tokens of the program. The rules of a policy
are moved in line by line, which does not change their words.
-/

namespace PolicyLang

open PolicyLang.Lexical

/-! ## Clauses -/

theorem Verb.spelled (v : Verb) : Spelled v.name.toList [(.verb v, v.name)] :=
  spelled_keyword (.verb v) rfl rfl

theorem Action.spelled {a : Action} (h : a.WellFormed) :
    Spelled a.render.toList (a.verdict.tokens.map Token.word) := by
  obtain ⟨v, s⟩ := a
  cases v with
  | deny => exact Verb.spelled .deny
  | allow => exact Verb.spelled .allow
  | escalate => exact Verb.spelled .escalate
  | route t =>
    have hto := (spelled_keyword .kwTo rfl (Eq.refl "to")).spaced (spelled_name h)
    simpa [Action.render, Verdict.tokens, Verb.name] using (Verb.spelled .route).spaced hto

theorem Clause.spelled {c : Clause} (h : c.WellFormed) :
    Spelled c.render.toList (c.tokens.map Token.word) := by
  cases c with
  | priority p =>
    have := (spelled_keyword .kwPriority rfl (Eq.refl "priority")).spaced (spelled_integer h)
    simpa [Clause.render, Priority.render, Clause.tokens] using this
  | guard g =>
    obtain ⟨he, ha⟩ := h
    have hthen := (spelled_keyword .kwThen rfl (Eq.refl "then")).spaced (Action.spelled ha)
    have := (spelled_keyword .kwWhen rfl (Eq.refl "when")).spaced ((spelled_render he).spaced hthen)
    simpa [Clause.render, Guard.render, Clause.tokens] using this
  | action a => exact Action.spelled h

theorem Verb.oneLine (v : Verb) : OneLine v.name.toList := by
  cases v <;> decide

theorem Action.oneLine {a : Action} (h : a.WellFormed) : OneLine a.render.toList := by
  obtain ⟨v, s⟩ := a
  cases v with
  | deny => exact Verb.oneLine .deny
  | allow => exact Verb.oneLine .allow
  | escalate => exact Verb.oneLine .escalate
  | route t => simpa [Action.render] using oneLine_word (s := t.name) h.1

theorem Clause.oneLine {c : Clause} (h : c.WellFormed) : OneLine c.render.toList := by
  cases c with
  | priority p => simpa [Clause.render, Priority.render] using oneLine_integer h
  | guard g => simpa [Clause.render, Guard.render] using ⟨Expr.oneLine_render h.1, Action.oneLine h.2⟩
  | action a => exact Action.oneLine h

/-! ## Lines -/

namespace Text

theorem lines_cons {c : Char} {cs : List Char} (hn : c ≠ '\n') (hr : c ≠ '\r') :
    lines (c :: cs) = match lines cs with
      | [] => [[c]]
      | l :: ls => (c :: l) :: ls :=
  lines.eq_4 c cs hn fun _ h _ => hr h

theorem lines_of_oneLine {cs : List Char} (h : OneLine cs) (hne : cs ≠ []) : lines cs = [cs] := by
  induction cs with
  | nil => exact absurd rfl hne
  | cons c cs ih =>
    rw [oneLine_cons] at h
    rw [lines_cons h.1.1 h.1.2]
    cases cs with
    | nil => rfl
    | cons d ds => rw [ih h.2 (by simp)]

theorem lines_append {cs : List Char} (h : OneLine cs) (ds : List Char) :
    lines (cs ++ '\n' :: ds) = cs :: lines ds := by
  induction cs with
  | nil => rw [List.nil_append, lines]
  | cons c cs ih =>
    rw [oneLine_cons] at h
    rw [List.cons_append, lines_cons h.1.1 h.1.2, ih h.2]

theorem lines_flatMap {α : Type} {text : α → List Char} {as : List α} (h : ∀ a ∈ as, OneLine (text a))
    (ds : List Char) : lines (as.flatMap (fun a => text a ++ ['\n']) ++ ds) = as.map text ++ lines ds := by
  induction as with
  | nil => rfl
  | cons a as ih =>
    rw [List.forall_mem_cons] at h
    rw [List.flatMap_cons, List.append_assoc, List.append_assoc, List.singleton_append,
      lines_append h.1, ih h.2]
    rfl

def margin : List Char := "    ".toList

theorem toList_indented (s : String) : (indented s).toList = margin ++ s.toList ++ ['\n'] := by
  rw [indented, String.toList_append, String.toList_append]
  rfl

theorem toList_indent (s : String) :
    (indent s).toList = (lines s.toList).flatMap fun l => margin ++ l ++ ['\n'] := by
  simp only [indent, String.toList_join, List.flatMap_map, toList_indented, String.toList_ofList]

end Text

/-! ## Declarations -/

def headerLine (word name : String) (c : Category) : List Char :=
  word.toList ++ ' ' :: (name.toList ++ ' ' :: ':' :: ' ' :: (c.name.toList ++ [' ', '\x7b']))

theorem toList_renderHeader (word name : String) (c : Category) :
    (renderHeader word name c).toList = headerLine word name c ++ ['\n'] := by
  simp [renderHeader, headerLine]

namespace Lexical

theorem spelled_headerLine (k : TokenKind) {word name : String} (c : Category)
    (hk : k.isKeyword = true) (hw : k.describe = word) (hn : IsName name) :
    Spelled (headerLine word name c) [(k, word), (.ident, name), (.colon, ":"),
      (.category c, c.name), (.lbrace, "\x7b")] := by
  have hbrace : Spelled ['\x7b'] [(.lbrace, "\x7b")] :=
    spelled_mark rfl (by simp [symbols]) (by decide) spelled_nil
  have hcategory := (spelled_keyword (.category c) rfl (Eq.refl c.name)).spaced hbrace
  have hcolon := spelled_mark (s := ":") (k := .colon) rfl (by simp [symbols]) (by decide)
    (spelled_blank (c := ' ') rfl hcategory)
  exact (spelled_keyword k hk hw).spaced ((spelled_name hn).spaced hcolon)

/-- A declaration whose lines are moved in by `ds`. -/
theorem closed_block (k : TokenKind) {word name : String} {ds body : List Char} {ts : List Token}
    (c : Category) (hk : k.isKeyword = true) (hw : k.describe = word) (hn : IsName name)
    (hds : ∀ d ∈ ds, isBlank d = true) (h : Closed body (ts.map Token.word)) :
    Closed (ds ++ (headerLine word name c ++ ['\n']) ++ (body ++ (ds ++ ['\x7d', '\n'])))
      ((blockTokens (.bare k word) (.bare .ident name) c ts).map Token.word) := by
  have hbrace : Spelled ['\x7d'] [(.rbrace, "\x7d")] :=
    spelled_mark rfl (by simp [symbols]) (by decide) spelled_nil
  have hheader := closed_blanks hds (spelled_headerLine k c hk hw hn).closed
  have := hheader.append (h.append (closed_blanks hds hbrace.closed))
  simpa [blockTokens] using this

theorem blank_margin : ∀ d ∈ Text.margin, isBlank d = true := List.all_eq_true.mp rfl

theorem closed_clauses {cs : List Clause} {ds : List Char} (hds : ∀ d ∈ ds, isBlank d = true)
    (h : ∀ c ∈ cs, c.WellFormed) :
    Closed (cs.flatMap fun c => ds ++ (c.render.toList ++ ['\n']))
      ((cs.flatMap Clause.tokens).map Token.word) := by
  rw [List.map_flatMap]
  exact closed_flatMap fun c hc => closed_blanks hds (Clause.spelled (h c hc)).closed

end Lexical

namespace Rule

theorem toList_render (r : Rule) : r.render.toList = headerLine "rule" r.name r.category ++ ['\n'] ++
    (r.body.flatMap (fun c => Text.margin ++ c.render.toList ++ ['\n']) ++ ['\x7d']) := by
  simp [render, toList_renderHeader, String.toList_join, List.flatMap_map, Text.toList_indented]

theorem oneLine_headerLine {r : Rule} (h : r.WellFormed) :
    OneLine (headerLine "rule" r.name r.category) := by
  have hname := oneLine_word h.1.1
  have hcategory : OneLine r.category.name.toList := by cases r.category <;> decide
  simp [headerLine, hname, hcategory]

theorem lines_render {r : Rule} (h : r.WellFormed) : Text.lines r.render.toList =
    headerLine "rule" r.name r.category ::
      (r.body.map (fun c => Text.margin ++ c.render.toList) ++ [['\x7d']]) := by
  have hbody : ∀ c ∈ r.body, OneLine (Text.margin ++ c.render.toList) := fun c hc =>
    oneLine_append.mpr ⟨by decide, Clause.oneLine (h.2 c hc)⟩
  rw [toList_render, List.append_assoc, List.singleton_append, Text.lines_append (oneLine_headerLine h),
    Text.lines_flatMap hbody, Text.lines_of_oneLine (by decide) (by simp)]

theorem closed {r : Rule} (h : r.WellFormed) :
    Closed (r.render.toList ++ ['\n']) (r.tokens.map Token.word) := by
  have hbody := closed_clauses blank_margin h.2
  have := closed_block .kwRule r.category rfl (Eq.refl "rule") h.1 (List.forall_mem_nil _) hbody
  rw [toList_render]
  simpa [Rule.tokens] using this

theorem closed_indent {r : Rule} (h : r.WellFormed) :
    Closed (Text.indent r.render).toList (r.tokens.map Token.word) := by
  have hmargins : ∀ d ∈ Text.margin ++ Text.margin, isBlank d = true := List.all_eq_true.mp rfl
  have hbody := closed_clauses hmargins h.2
  have := closed_block .kwRule r.category rfl (Eq.refl "rule") h.1 blank_margin hbody
  rw [Text.toList_indent, lines_render h]
  simpa [Rule.tokens, List.flatMap_map] using this

end Rule

theorem PolicyItem.closed {i : PolicyItem} (h : i.WellFormed) :
    Closed i.renderLines.toList (i.tokens.map Token.word) := by
  cases i with
  | ref r =>
    have := (spelled_keyword .kwRule rfl (Eq.refl "rule")).spaced (spelled_name h)
    have := closed_blanks blank_margin this.closed
    simpa [renderLines, Text.toList_indented, PolicyItem.tokens] using this
  | rule r => exact Rule.closed_indent h
  | clause c =>
    have := closed_blanks blank_margin (Clause.spelled h).closed
    simpa [renderLines, Text.toList_indented, PolicyItem.tokens] using this

theorem Policy.toList_render (p : Policy) : p.render.toList =
    headerLine "policy" p.name p.category ++ ['\n'] ++
      (p.body.flatMap (fun i => i.renderLines.toList) ++ ['\x7d']) := by
  simp [render, toList_renderHeader, String.toList_join, List.flatMap_map]

theorem Statement.closed {s : Statement} (h : s.WellFormed) :
    Closed (s.render ++ "\n").toList (s.tokens.map Token.word) := by
  cases s with
  | policy p =>
    have hbody : Closed (p.body.flatMap fun i => i.renderLines.toList)
        ((p.body.flatMap PolicyItem.tokens).map Token.word) := by
      rw [List.map_flatMap]
      exact closed_flatMap fun i hi => PolicyItem.closed (h.2 i hi)
    have := closed_block .kwPolicy p.category rfl (Eq.refl "policy") h.1 (List.forall_mem_nil _)
      hbody
    simpa [Statement.render, Policy.toList_render, Statement.tokens] using this
  | rule r => simpa [Statement.render, Statement.tokens] using Rule.closed (r := r) h
  | imports i =>
    have := (spelled_keyword .kwImport rfl (Eq.refl "import")).spaced (spelled_quoted i.path)
    simpa [Statement.render, Import.render, Statement.tokens] using this.closed

/-- The canonical text of a well-formed program is cut into the words of its tokens. -/
theorem Program.closed {p : Program} (h : p.WellFormed) :
    Closed p.render.toList (p.tokens.map Token.word) := by
  rw [render, String.toList_join, List.flatMap_map, tokens, List.map_flatMap]
  exact closed_flatMap fun s hs => Statement.closed (h s hs)

theorem Program.exists_tokenize_render {p : Program} (h : p.WellFormed) : ∃ us e,
    tokenize p.render = .ok (us ++ [e]) ∧ us.map Token.word = p.tokens.map Token.word ∧
      (∀ t ∈ us, t.kind ≠ .eof) ∧ e.kind = .eof := by
  have hc := closed h []
  rw [List.append_nil] at hc
  exact exists_tokenize_of_cuts hc

end PolicyLang
