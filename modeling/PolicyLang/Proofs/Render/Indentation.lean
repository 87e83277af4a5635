import PolicyLang.Proofs.Render.RoundTrip

/-!
# Rules inside policies

A rule in the body of a policy is its own text, moved in by four spaces. Moving it out again gives this
text back, unless there is a line end of two characters in it, and there is none in a compiled program.
-/

namespace PolicyLang

namespace Text

/-! ## Moving in -/

/-- One line feed for each carriage return with a line feed behind it. -/
def unified : List Char → List Char
  | '\r' :: '\n' :: cs => '\n' :: unified cs
  | c :: cs => c :: unified cs
  | [] => []

/-- Four spaces behind each line feed. -/
def shifted (cs : List Char) : List Char := cs.flatMap fun c => if c = '\n' then '\n' :: margin else [c]

/-- A text that is moved in, with a line feed behind it. -/
def nested (cs : List Char) : List Char := margin ++ shifted (unified cs) ++ ['\n']

/-- The text without its last character, and each line of it without its first four. -/
def outdented (cs : List Char) : List Char :=
  ['\n'].intercalate ((cs.dropLast.splitOn '\n').map (List.drop 4))

theorem shifted_lineFeed (cs : List Char) : shifted ('\n' :: cs) = '\n' :: (margin ++ shifted cs) := rfl

theorem shifted_cons {c : Char} (hc : c ≠ '\n') (cs : List Char) :
    shifted (c :: cs) = c :: shifted cs := by
  simp [shifted, hc]

theorem splitOn_lineFeed (cs : List Char) : ('\n' :: cs).splitOn '\n' = [] :: cs.splitOn '\n' := by
  simp [List.splitOn_cons_eq_if_modifyHead]

theorem splitOn_cons {c : Char} (hc : c ≠ '\n') (cs : List Char) :
    (c :: cs).splitOn '\n' = (cs.splitOn '\n').modifyHead (c :: ·) := by
  simp [List.splitOn_cons_eq_if_modifyHead, hc]

theorem splitOn_append {cs : List Char} (h : '\n' ∉ cs) (ds : List Char) :
    (cs ++ ds).splitOn '\n' = (ds.splitOn '\n').modifyHead (cs ++ ·) := by
  induction cs with
  | nil =>
    rw [List.nil_append]
    cases ds.splitOn '\n' <;> rfl
  | cons c cs ih =>
    rw [List.mem_cons, not_or] at h
    rw [List.cons_append, splitOn_cons (Ne.symm h.1), ih h.2, List.modifyHead_modifyHead]
    rfl

/-- A text that ends within a line has the lines that its line feeds separate. -/
theorem lines_eq_splitOn {c : Char} (hc : c ≠ '\n') (cs : List Char) :
    lines (cs ++ [c]) = (unified (cs ++ [c])).splitOn '\n' := by
  -- `unified` takes two characters where `lines` does
  fun_induction unified cs with
  | case1 cs ih =>
    simp only [List.cons_append, lines, unified, ih, splitOn_lineFeed]
  | case2 d cs hno ih =>
    have hno' : ∀ ds, d = '\r' → cs ++ [c] = '\n' :: ds → False := by
      intro ds hd hds
      cases cs with
      | nil => exact hc (List.cons.inj hds).1
      | cons e cs => exact hno cs hd (by rw [(List.cons.inj hds).1])
    rw [List.cons_append, unified.eq_2 _ _ hno']
    by_cases hd : d = '\n'
    · subst hd
      rw [lines, ih, splitOn_lineFeed]
    · rw [lines.eq_4 _ _ hd hno', ih, splitOn_cons hd]
      cases h : (unified (cs ++ [c])).splitOn '\n' with
      | nil => exact absurd h (List.splitOn_ne_nil _ _)
      | cons l ls => rfl
  | case3 =>
    have hno : ∀ ds, c = '\r' → [] = '\n' :: ds → False :=
      fun ds _ h => List.cons_ne_nil _ ds h.symm
    rw [List.nil_append, lines.eq_4 _ _ hc hno, unified.eq_2 _ _ hno, splitOn_cons hc]
    rfl

/-- The lines of a text that is moved in are those of the text, each moved in. -/
theorem splitOn_shifted (cs : List Char) :
    (margin ++ shifted cs).splitOn '\n' = (cs.splitOn '\n').map (margin ++ ·) := by
  have hmargin : '\n' ∉ margin := by decide
  induction cs with
  | nil => rfl
  | cons c cs ih =>
    by_cases hc : c = '\n'
    · subst hc
      rw [shifted_lineFeed, List.splitOn_append_cons_self_of_not_mem hmargin, ih, splitOn_lineFeed]
      rfl
    · rw [splitOn_append hmargin] at ih ⊢
      rw [shifted_cons hc, splitOn_cons hc, splitOn_cons hc]
      cases h : (shifted cs).splitOn '\n' with
      | nil => exact absurd h (List.splitOn_ne_nil _ _)
      | cons l ls =>
        cases h' : cs.splitOn '\n' with
        | nil => exact absurd h' (List.splitOn_ne_nil _ _)
        | cons m ms =>
          rw [h, h'] at ih
          obtain ⟨hl, rfl⟩ := List.cons.inj ih
          rw [List.append_cancel_left hl]
          rfl

theorem intercalate_lineFeed {ls : List (List Char)} (h : ls ≠ []) :
    ['\n'].intercalate ls ++ ['\n'] = ls.flatMap (· ++ ['\n']) := by
  induction ls with
  | nil => exact absurd rfl h
  | cons l ls ih =>
    cases ls with
    | nil => simp
    | cons m ms =>
      rw [List.flatMap_cons, ← ih (List.cons_ne_nil m ms)]
      simp

theorem toList_indent_eq {s : String} (h : lines s.toList = (unified s.toList).splitOn '\n') :
    (indent s).toList = nested s.toList := by
  have hne : (unified s.toList).splitOn '\n' ≠ [] := List.splitOn_ne_nil _ _
  calc (indent s).toList
      = (((unified s.toList).splitOn '\n').map (margin ++ ·)).flatMap (· ++ ['\n']) := by
        rw [toList_indent, h, List.flatMap_map]
    _ = ['\n'].intercalate (((unified s.toList).splitOn '\n').map (margin ++ ·)) ++ ['\n'] :=
        (intercalate_lineFeed (mt List.map_eq_nil_iff.mp hne)).symm
    _ = nested s.toList := by
        rw [nested, ← splitOn_shifted, List.intercalate_splitOn]

/-! ## Moving out -/

theorem outdented_nested (cs : List Char) : outdented (nested cs) = unified cs := by
  have hdrop : List.drop 4 ∘ (margin ++ ·) = id := funext fun l => rfl
  rw [outdented, nested, List.dropLast_concat, splitOn_shifted, List.map_map, hdrop, List.map_id,
    List.intercalate_splitOn]

theorem unified_eq_self_iff (cs : List Char) : unified cs = cs ↔ ¬ ['\r', '\n'] <:+: cs := by
  fun_induction unified cs with
  | case1 cs ih =>
    have hcrlf : ['\r', '\n'] <:+: '\r' :: '\n' :: cs := ⟨[], cs, rfl⟩
    simp [hcrlf]
  | case2 c cs hno ih =>
    have hhead : ¬ ['\r', '\n'] <+: c :: cs := by
      rintro ⟨ds, hds⟩
      obtain ⟨hc, hcs⟩ := List.cons.inj hds
      exact hno ds hc.symm hcs.symm
    rw [List.infix_cons_iff, or_iff_right hhead, ← ih, List.cons.injEq, and_iff_right rfl]
  | case3 => simp

end Text

/-! ## Rules -/

/-- The rule is a statement of the program, or an item of one of its policies. -/
def Program.HasRule (p : Program) (r : Rule) : Prop :=
  .rule r ∈ p.statements ∨ ∃ q, .policy q ∈ p.statements ∧ .rule r ∈ q.body

namespace Rule

theorem wellFormed_of_hasRule {p : Program} (hp : p.WellFormed) {r : Rule} (hr : p.HasRule r) :
    r.WellFormed := by
  rcases hr with hr | ⟨q, hq, hr⟩
  · exact hp _ hr
  · exact (hp _ hq).2 _ hr

/-- The text of a rule ends with a brace. -/
theorem lines_eq_splitOn (r : Rule) :
    Text.lines r.render.toList = (Text.unified r.render.toList).splitOn '\n' := by
  rw [toList_render, ← List.append_assoc]
  exact Text.lines_eq_splitOn (by decide) _

theorem not_mem_render {r : Rule} (h : r.WellFormed) : '\r' ∉ r.render.toList := by
  have hheader := (oneLine_headerLine h).2
  have hbody : ∀ c ∈ r.body, '\r' ∉ c.render.toList := fun c hc => (Clause.oneLine (h.2 c hc)).2
  have hmargin : '\r' ∉ Text.margin := by decide
  rw [toList_render]
  simp only [List.mem_append, List.mem_flatMap, List.mem_singleton]
  rintro ((h | h) | ⟨c, hc, (h | h) | h⟩ | h)
  · exact hheader h
  · exact absurd h (by decide)
  · exact hmargin h
  · exact hbody c hc h
  · exact absurd h (by decide)
  · exact absurd h (by decide)

theorem unified_render {r : Rule} (h : r.WellFormed) :
    Text.unified r.render.toList = r.render.toList := by
  rw [Text.unified_eq_self_iff]
  exact fun hcrlf => not_mem_render h (hcrlf.mem List.mem_cons_self)

theorem splitOn_render {r : Rule} (h : r.WellFormed) : r.render.toList.splitOn '\n' =
    headerLine "rule" r.name r.category ::
      (r.body.map (fun c => Text.margin ++ c.render.toList) ++ [['\x7d']]) := by
  rw [← lines_render h, lines_eq_splitOn, unified_render h]

end Rule

/-! ## Policies -/

/-- The lines of an item in a policy. -/
def PolicyItem.block : PolicyItem → List Char
  | ref r => Text.margin ++ ("rule " ++ r.name).toList ++ ['\n']
  | rule r => Text.nested r.render.toList
  | clause c => Text.margin ++ c.render.toList ++ ['\n']

theorem PolicyItem.toList_renderLines (i : PolicyItem) : i.renderLines.toList = i.block := by
  cases i with
  | ref r => exact Text.toList_indented _
  | rule r => exact Text.toList_indent_eq r.lines_eq_splitOn
  | clause c => exact Text.toList_indented _

/-- The lines of a rule without carriage returns are those of its text, each moved in. -/
theorem Rule.nested_render {r : Rule} (h : r.WellFormed) : Text.nested r.render.toList =
    (r.render.toList.splitOn '\n').flatMap fun l => Text.margin ++ l ++ ['\n'] := by
  rw [← Text.toList_indent_eq r.lines_eq_splitOn, Text.toList_indent, r.lines_eq_splitOn, unified_render h]

namespace Policy

/-- The text of a policy up to the end of these items. -/
def front (name : String) (category : Category) (items : List PolicyItem) : List Char :=
  ("policy " ++ name ++ " : " ++ category.name ++ " \x7b\n").toList ++ items.flatMap PolicyItem.block

/-- The text of a policy from these items on. -/
def back (items : List PolicyItem) : List Char := items.flatMap PolicyItem.block ++ ['\x7d']

theorem toList_render_rule {q : Policy} {pre post : List PolicyItem} {r : Rule}
    (h : q.body = pre ++ .rule r :: post) : q.render.toList =
      front q.name q.category pre ++ Text.nested r.render.toList ++ back post := by
  have hblock : (PolicyItem.rule r).block = Text.nested r.render.toList := rfl
  simp [toList_render, PolicyItem.toList_renderLines, hblock, h, front, back, headerLine]

end Policy

/-- **Indentation.** The text of a policy has for each rule in its body the text of the rule by itself with
its line ends made line feeds, four spaces in front of each line and a line feed at the end. The text of
the rule comes back from that if and only if there is no carriage return in front of a line feed in it. A
rule of a compiled program has no carriage return in its text: this is one line for the header, one for
each clause and one for the brace, and in a policy each of these lines, moved in. -/
theorem rule_indent_lossless :
    (∀ name category pre r post span,
      (Policy.mk name category (pre ++ .rule r :: post) span).render.toList =
        Policy.front name category pre ++ Text.nested r.render.toList ++ Policy.back post ∧
      (Text.outdented (Text.nested r.render.toList) = r.render.toList ↔
        ¬ ['\r', '\n'] <:+: r.render.toList)) ∧
    ∀ source p, compile source = .ok p →
      (∀ r, p.HasRule r →
        '\r' ∉ r.render.toList ∧
        r.render.toList.splitOn '\n' = headerLine "rule" r.name r.category ::
          (r.body.map (fun c => Text.margin ++ c.render.toList) ++ [['\x7d']]) ∧
        (r.render.toList.splitOn '\n').length = r.body.length + 2) ∧
      ∀ q pre r post, .policy q ∈ p.statements → q.body = pre ++ .rule r :: post →
        q.render.toList = Policy.front q.name q.category pre ++
          ((r.render.toList.splitOn '\n').flatMap fun l => Text.margin ++ l ++ ['\n']) ++
          Policy.back post := by
  refine ⟨fun name category pre r post span => ⟨Policy.toList_render_rule rfl, ?_⟩,
    fun source p hcompile => ?_⟩
  · rw [Text.outdented_nested, Text.unified_eq_self_iff]
  have hp := wellFormed_of_compile hcompile
  refine ⟨fun r hr => ?_, fun q pre r post hq hbody => ?_⟩
  · have h := Rule.wellFormed_of_hasRule hp hr
    refine ⟨Rule.not_mem_render h, Rule.splitOn_render h, ?_⟩
    rw [Rule.splitOn_render h]
    simp
  · have hr : p.HasRule r := .inr ⟨q, hq, by simp [hbody]⟩
    rw [Policy.toList_render_rule hbody, Rule.nested_render (Rule.wellFormed_of_hasRule hp hr)]

/-- A line end of two characters in a name is lost; a rule of a compiled policy keeps its three lines. -/
theorem rule_indent_lossless_nested :
    (∃ r : Rule,
      (Policy.mk "p" .safety [.ref ⟨"s", {}⟩, .rule r] {}).render =
        "policy p : safety \x7b\n    rule s\n    rule a\n    b : custom \x7b\n    \x7d\n\x7d" ∧
      Text.outdented (Text.nested r.render.toList) ≠ r.render.toList) ∧
    ∃ p q r, compile "policy p: safety \x7b rule r: custom \x7b deny \x7d \x7d" = .ok p ∧
      p.HasRule r ∧ '\r' ∉ r.render.toList ∧ (r.render.toList.splitOn '\n').length = 3 ∧
      p.statements = [.policy q] ∧ q.body = [.rule r] ∧
      q.render =
        "policy p : safety \x7b\n    rule r : custom \x7b\n        deny\n    \x7d\n\x7d" := by
  constructor
  · let r : Rule := ⟨"a\r\nb", .custom, [], {}⟩
    have hcrlf : ['\r', '\n'] <:+: r.render.toList := by decide
    obtain ⟨htext, hback⟩ := rule_indent_lossless.1 "p" .safety [.ref ⟨"s", {}⟩] r [] {}
    refine ⟨r, String.toList_injective (htext.trans (by decide)), fun h => hback.mp h hcrlf⟩
  · let r : Rule := ⟨"r", .custom, [.action ⟨.deny, ⟨1, 37, 36, 40⟩⟩], ⟨1, 20, 19, 42⟩⟩
    let q : Policy := ⟨"p", .safety, [.rule r], ⟨1, 1, 0, 44⟩⟩
    let p : Program := ⟨[.policy q], ⟨1, 1, 0, 44⟩⟩
    have h : compile "policy p: safety \x7b rule r: custom \x7b deny \x7d \x7d" = .ok p := by
      decide +kernel
    have hr : p.HasRule r := .inr ⟨_, List.mem_singleton.mpr rfl, List.mem_singleton.mpr rfl⟩
    obtain ⟨hrules, hpolicies⟩ := rule_indent_lossless.2 _ p h
    obtain ⟨hreturn, -, hlines⟩ := hrules r hr
    have htext := hpolicies q [] r [] (List.mem_singleton.mpr rfl) rfl
    exact ⟨p, q, r, h, hr, hreturn, hlines, rfl, rfl,
      String.toList_injective (htext.trans (by decide))⟩

end PolicyLang
