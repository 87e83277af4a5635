import PolicyLang.Expr.Render
import PolicyLang.Proofs.Lexical.Spelling
import PolicyLang.Proofs.Render.ConditionTokens

/-!
# The text of conditions

The canonical text of a well-formed condition is cut into the tokens of the condition, and it stands on
one line.
-/

namespace PolicyLang

open PolicyLang.Lexical

/-! ## Lines -/

/-- No line ends in the text. -/
def OneLine (cs : List Char) : Prop := '\n' ∉ cs ∧ '\r' ∉ cs

instance : DecidablePred OneLine := fun _ => inferInstanceAs (Decidable (_ ∧ _))

@[simp] theorem oneLine_nil : OneLine [] := by simp [OneLine]

@[simp] theorem oneLine_cons {c : Char} {cs : List Char} :
    OneLine (c :: cs) ↔ (c ≠ '\n' ∧ c ≠ '\r') ∧ OneLine cs := by
  simp only [OneLine, List.mem_cons, not_or]
  tauto

@[simp] theorem oneLine_append {cs ds : List Char} : OneLine (cs ++ ds) ↔ OneLine cs ∧ OneLine ds := by
  simp only [OneLine, List.mem_append, not_or]
  tauto

theorem oneLine_of_wordChars {cs : List Char} (h : ∀ c ∈ cs, WordChar c) : OneLine cs :=
  ⟨fun hm => absurd (h _ hm) (by decide), fun hm => absurd (h _ hm) (by decide)⟩

theorem oneLine_digits {cs : List Char} (h : Digits cs) : OneLine cs :=
  oneLine_of_wordChars fun c hc => .inr (h.2 c hc)

theorem oneLine_word {s : String} (h : IsWord s) : OneLine s.toList := by
  obtain ⟨c, cs, hs, hc, hcs⟩ := h
  rw [hs]
  exact oneLine_of_wordChars (List.forall_mem_cons.mpr ⟨.inl hc, hcs⟩)

theorem oneLine_integer {n : Int} (h : Unsigned n) : OneLine n.repr.toList := by
  obtain ⟨cs, hcs, hd, -⟩ := exists_repr_of_unsigned h
  rw [hcs, String.toList_ofList]
  exact oneLine_digits hd

theorem oneLine_double {x : Binary64} (h : x.Unsigned) : OneLine (Literal.float x).render.toList := by
  obtain ⟨whole, fraction, hp, hw, hf, -⟩ := Literal.exists_render_float h
  rw [hp, String.toList_ofList]
  simp [oneLine_digits hw, oneLine_digits hf]

theorem not_mem_escape {c : Char} (hc : c = '\n' ∨ c = '\r' ∨ c = '\t' ∨ c = '\x00') (d : Char) :
    c ∉ Quoted.escape d := by
  rcases hc with rfl | rfl | rfl | rfl <;> unfold Quoted.escape <;> split <;> simp_all [eq_comm]

/-- Quoted text has no raw line ends, tabs or null characters in it. -/
theorem not_mem_write {c : Char} (hc : c = '\n' ∨ c = '\r' ∨ c = '\t' ∨ c = '\x00') (cs : List Char) :
    c ∉ Quoted.write cs := by
  have hquote : c ≠ '"' := by rcases hc with rfl | rfl | rfl | rfl <;> decide
  simp [Quoted.write, hquote, not_mem_escape hc]

theorem oneLine_quoted (cs : List Char) : OneLine (Quoted.write cs) :=
  ⟨not_mem_write (.inl rfl) cs, not_mem_write (.inr (.inl rfl)) cs⟩

/-! ## The text of a tree -/

theorem BinaryOp.oneLine (op : BinaryOp) : OneLine op.symbol.toList := by
  rcases op with _ | _ | c
  · decide
  · decide
  · cases c <;> decide

namespace Expr

def commaText : List Expr → List Char
  | [] => []
  | e :: es => ',' :: ' ' :: (e.render.toList ++ commaText es)

theorem intercalate_renderAll (es : List Expr) :
    (", ".intercalate (renderAll es)).toList = (commaText es).drop 2 := by
  cases es with
  | nil => rfl
  | cons e es =>
    induction es generalizing e with
    | nil => simp [renderAll, commaText]
    | cons f es ih =>
      rw [renderAll, renderAll, String.intercalate_cons_cons, ← renderAll, String.toList_append,
        String.toList_append, ih, List.append_assoc]
      rfl

theorem toList_attr (e : Expr) (name : String) (s : Span) :
    (attr e name s).render.toList = e.render.toList ++ '.' :: name.toList := by
  simp [render]

theorem toList_negate (e : Expr) (s : Span) : (negate e s).render.toList =
    '(' :: ("not".toList ++ ' ' :: e.render.toList ++ [')']) := by
  simp [render]

theorem toList_binary (op : BinaryOp) (e f : Expr) (s : Span) : (binary op e f s).render.toList =
    '(' :: (e.render.toList ++ ' ' :: (op.symbol.toList ++ ' ' :: f.render.toList) ++ [')']) := by
  simp [render]

theorem toList_call (e : Expr) (args : List Expr) (s : Span) : (call e args s).render.toList =
    e.render.toList ++ '(' :: ((commaText args).drop 2 ++ [')']) := by
  rw [render, String.toList_append, String.toList_append, String.toList_append, intercalate_renderAll]
  simp

end Expr

/-! ## Cutting -/

namespace Lexical

theorem spelled_operator (op : BinaryOp) {cs : List Char} {ws : List (TokenKind × String)}
    (h : Spelled cs ws) : Spelled (op.symbol.toList ++ ' ' :: cs) (op.token.word :: ws) := by
  rcases op with _ | _ | c
  · exact (spelled_keyword .kwAnd rfl rfl).spaced h
  · exact (spelled_keyword .kwOr rfl rfl).spaced h
  · refine spelled_symbol ?_ (fun _ _ _ => by simp [NotBefore]) (spelled_blank rfl h)
    cases c <;> simp [symbols, BinaryOp.token, BinaryOp.kind, BinaryOp.symbol, Comparison.symbol]

theorem spelled_literal {v : Literal} (h : v.WellFormed) : Spelled v.render.toList [v.token.word] := by
  cases v with
  | int n => exact spelled_integer h
  | float x => exact spelled_double h
  | str s =>
    rw [Literal.render, String.toList_ofList]
    exact spelled_quoted s
  | bool b => cases b <;> exact spelled_keyword (.boolean _) rfl rfl

theorem stops_attr {s : String} (h : IsWord s) (rest : List Char) : Stops ('.' :: s.toList ++ rest) := by
  obtain ⟨c, cs, hs, hc, -⟩ := h
  rw [hs]
  apply stops_dot
  intro d hd hdigit
  obtain rfl : c = d := by simpa using hd
  exact absurd ((isLetter_iff c).mpr hc) (by simp [hdigit.not_letter])

theorem stops_commaText (es : List Expr) {rest : List Char} (h : Stops rest) :
    Stops (Expr.commaText es ++ rest) := by
  cases es with
  | nil => exact h
  | cons e es => exact stops_cons _ (by decide) (by decide)

mutual

/-- The canonical text of a well-formed condition is cut into the words of its tokens. -/
theorem spelled_render : ∀ {e : Expr}, e.WellFormed →
    Spelled e.render.toList (e.tokens.map Token.word)
  | .literal v _, h => spelled_literal h
  | .ident _ _, h => spelled_name h
  | .attr o name s, ⟨h, _, hn⟩ => by
    rw [Expr.toList_attr, Expr.tokens, List.map_append]
    exact (spelled_render h).append (fun rest _ => stops_attr hn rest)
      (spelled_mark rfl (by simp [symbols]) (by decide) (spelled_word hn))
  | .call callee args s, ⟨h, _, ha⟩ => by
    rw [Expr.toList_call, Expr.tokens, List.map_append]
    refine (spelled_render h).append_cons (by decide) (by decide) ?_
    have := spelled_parens (spelled_arguments ha)
    simpa using this
  | .negate e s, h => by
    have := spelled_parens ((spelled_keyword .kwNot rfl (Eq.refl "not")).spaced (spelled_render (e := e) h))
    rw [Expr.toList_negate]
    simpa [Expr.tokens] using this
  | .binary op e f s, ⟨he, hf⟩ => by
    have := spelled_parens ((spelled_render he).spaced (spelled_operator op (spelled_render hf)))
    rw [Expr.toList_binary]
    simpa [Expr.tokens] using this

theorem spelled_arguments : ∀ {args : List Expr}, Expr.AllWellFormed args →
    Spelled ((Expr.commaText args).drop 2) ((Expr.commaTokens args).tail.map Token.word)
  | [], _ => spelled_nil
  | _ :: es, ⟨he, hes⟩ => by
    have := (spelled_render he).append (fun _ => stops_commaText es) (spelled_commaText hes)
    simpa [Expr.commaText, Expr.commaTokens] using this

theorem spelled_commaText : ∀ {es : List Expr}, Expr.AllWellFormed es →
    Spelled (Expr.commaText es) ((Expr.commaTokens es).map Token.word)
  | [], _ => spelled_nil
  | _ :: es, ⟨he, hes⟩ => by
    have := (spelled_render he).append (fun _ => stops_commaText es) (spelled_commaText hes)
    rw [← List.map_append] at this
    exact spelled_mark rfl (by simp [symbols]) (by decide) (spelled_blank rfl this)

end

end Lexical

/-! ## One line -/

theorem Literal.oneLine {v : Literal} (h : v.WellFormed) : OneLine v.render.toList := by
  cases v with
  | int n => exact oneLine_integer h
  | float x => exact oneLine_double h
  | str s =>
    rw [Literal.render, String.toList_ofList]
    exact oneLine_quoted s.toList
  | bool b => cases b <;> decide

namespace Expr

mutual

theorem oneLine_render : ∀ {e : Expr}, e.WellFormed → OneLine e.render.toList
  | .literal _ _, h => Literal.oneLine h
  | .ident _ _, h => oneLine_word h.1
  | .attr _ _ _, ⟨h, _, hn⟩ => by
    rw [toList_attr]
    simp [oneLine_render h, oneLine_word hn]
  | .call _ args _, ⟨h, _, ha⟩ => by
    have hargs : OneLine ((commaText args).drop 2) :=
      ⟨fun hm => (oneLine_commaText ha).1 (List.mem_of_mem_drop hm),
        fun hm => (oneLine_commaText ha).2 (List.mem_of_mem_drop hm)⟩
    rw [toList_call]
    simp [oneLine_render h, hargs]
  | .negate e _, h => by
    rw [toList_negate]
    simp [oneLine_render (e := e) h]
  | .binary op _ _ _, ⟨he, hf⟩ => by
    rw [toList_binary]
    simp [oneLine_render he, oneLine_render hf, op.oneLine]

theorem oneLine_commaText : ∀ {es : List Expr}, AllWellFormed es → OneLine (commaText es)
  | [], _ => oneLine_nil
  | _ :: _, ⟨he, hes⟩ => by simp [commaText, oneLine_render he, oneLine_commaText hes]

end

end Expr

end PolicyLang
