import PolicyLang.Compile
import PolicyLang.Proofs.Lexical.Joining
import PolicyLang.Proofs.Program.Places

/-!
# Programs behind one another

A statement ends where its last token does, whatever follows, so a program is read the same with
further statements behind it. With `scan_append_lineFeed` this joins whole sources.
-/

namespace PolicyLang

open Grammar Lexical

/-! ## Statements behind one another -/

namespace Parser

section
variable {α : Type} {step : Nat → Token → Step α} {us : List Token} {a : α} {d n : Nat}

theorem ReadsItem.run_many_append (h : ReadsItem step (fun _ => True) us a d) (hn : d ≤ n)
    (ws : List Token) : (many (step n)).run (us ++ ws) =
      ((many (step n)).run ws).map fun x => (a :: x.1, x.2) := by
  obtain ⟨t, vs, p, rfl, -, hp, hr⟩ := h
  rw [List.cons_append, run_many_cons, hp]
  dsimp only
  rw [run_bind, hr.ok hn fun _ _ => trivial]
  dsimp only
  rw [run_bind]
  cases (many (step n)).run ws <;> rfl

theorem ReadsItem.le_of_run_many (h : ReadsItem step (fun _ => True) us a d) {ws : List Token}
    {x : List α × List Token} (hx : (many (step n)).run (us ++ ws) = .ok x) : d ≤ n := by
  obtain ⟨t, vs, p, rfl, -, hp, hr⟩ := h
  rw [List.cons_append, run_many_cons, hp] at hx
  obtain ⟨b, mid, hb, -⟩ := run_bind_eq_ok.mp hx
  exact hr.le_of_run_eq_ok hb

/-- Where items are read with nothing behind them, they are read the same in front of more. -/
theorem run_many_append {D : List Token → α → Prop} {as : List α}
    (h : ∀ vs a, D vs a → ∃ d, ReadsItem step (fun _ => True) vs a d) (hus : Many D us as)
    (hrun : (many (step n)).run us = .ok (as, [])) (ws : List Token) :
    (many (step n)).run (us ++ ws) = ((many (step n)).run ws).map fun x => (as ++ x.1, x.2) := by
  induction hus with
  | nil =>
    rw [List.nil_append]
    cases (many (step n)).run ws <;> rfl
  | @cons us a vs as ha _ ih =>
    obtain ⟨d, hd⟩ := h us a ha
    -- the run needed this much for its first item already
    have hn := hd.le_of_run_many hrun
    rw [hd.run_many_append hn] at hrun
    have hvs : (many (step n)).run vs = .ok (as, []) := by
      cases hv : (many (step n)).run vs with
      | error f => rw [hv] at hrun; cases hrun
      | ok x =>
        obtain ⟨bs, rest⟩ := x
        rw [hv] at hrun
        cases hrun
        rfl
    rw [List.append_assoc, hd.run_many_append hn, ih hvs]
    cases (many (step n)).run ws <;> rfl

end

theorem run_document_append {n : Nat} {us : List Token} {ss : List Statement}
    (h : (document n).run us = .ok (ss, [])) (ws : List Token) :
    (document n).run (us ++ ws) = ((document n).run ws).map fun x => (ss ++ x.1, x.2) := by
  obtain ⟨vs, hvs, hd⟩ := sound_document n h
  obtain rfl : us = vs := by simpa using hvs
  refine run_many_append (fun vs s hs => ?_) hd h ws
  obtain ⟨d, -, hs⟩ := hs.reads
  exact ⟨d, hs⟩

end Parser

theorem Program.parseBody_append {n : Nat} {us : List Token} {ss : List Statement}
    (h : (Parser.document n).run us = .ok (ss, [])) (ws : List Token) (e : Token) :
    parseBody n (us ++ ws) e = (parseBody n ws e).map fun p => ⟨ss ++ p.statements, p.span⟩ := by
  unfold parseBody
  rw [Parser.run_document_append h]
  cases (Parser.document n).run ws <;> rfl

/-! ## Moving down -/

section
variable (lines bytes : Nat)

def SyntaxError.below (e : SyntaxError) : SyntaxError := { e with line := e.line + lines }

def CompileError.below : CompileError → CompileError
  | lexical e => lexical (e.below lines)
  | grammatical e => grammatical (e.below lines)

theorem Program.parseBody_below (n : Nat) (ts : List Token) (e : Token) :
    parseBody n (ts.map (Token.mapSpan (Span.below lines bytes)))
      (e.mapSpan (Span.below lines bytes)) =
    match parseBody n ts e with
    | .ok p => .ok ⟨p.statements.map (Statement.mapSpans (Span.below lines bytes)),
        ⟨1, 1, 0, e.span.stop + bytes⟩⟩
    | .error f => .error (f.below lines) := by
  unfold parseBody
  rw [Parser.run_document_mapSpan (Span.to_below lines bytes)]
  cases (Parser.document n).run ts with
  | ok x => rfl
  | error f =>
    refine congrArg Except.error ?_
    rw [List.head?_map, Option.getD_map]
    rfl

theorem Program.parse_append_below {n : Nat} {us vs : List Token} {e e' : Token} {p : Program}
    (h : parse n (us ++ [e]) = .ok p) (hus : NoEnd us) (he : e.kind = .eof) (hvs : NoEnd vs)
    (he' : e'.kind = .eof) :
    parse n (us ++ (vs ++ [e']).map (Token.mapSpan (Span.below lines bytes))) =
      match parse n (vs ++ [e']) with
      | .ok q => .ok ⟨p.statements ++ q.statements.map (Statement.mapSpans (Span.below lines bytes)),
          ⟨1, 1, 0, e'.span.stop + bytes⟩⟩
      | .error f => .error (f.below lines) := by
  have hall : NoEnd (us ++ vs.map (Token.mapSpan (Span.below lines bytes))) := by
    refine noEnd_append.mpr ⟨hus, fun t ht => ?_⟩
    obtain ⟨v, hv, rfl⟩ := List.mem_map.mp ht
    exact hvs v hv
  rw [parse_append_eof n hus he] at h
  rw [List.map_append, List.map_singleton, ← List.append_assoc,
    parse_append_eof n (e := e'.mapSpan _) hall he', parse_append_eof n hvs he',
    parseBody_append (parseBody_eq_ok_iff.mp h).1, parseBody_below]
  cases parseBody n vs e' <;> rfl

end

/-! ## Sources behind one another -/

theorem tokenize_append_lineFeed {s₁ : String} {us : List Token} {e : Token}
    (h : tokenize s₁ = .ok (us ++ [e])) (s₂ : String) : tokenize (s₁ ++ "\n" ++ s₂) =
      match tokenize s₂ with
      | .ok ts => .ok (us ++ ts.map (Token.mapSpan
          (Span.below (1 + s₁.toList.count '\n') (1 + s₁.utf8ByteSize))))
      | .error f => .error (f.below (1 + s₁.toList.count '\n')) := by
  have hjoin : (s₁ ++ "\n" ++ s₂).toList = s₁.toList ++ '\n' :: s₂.toList := by
    simp only [String.toList_append]
    exact List.append_assoc ..
  unfold tokenize at *
  rw [hjoin, scan_append_lineFeed h, Pos.after_lineFeed, scan_below, bytes_toList]
  cases scan {} s₂.toList <;> rfl

theorem compileWithin_append_lineFeed {limit : Nat} {s₁ : String} {p₁ : Program}
    (h : compileWithin limit s₁ = .ok p₁) (s₂ : String) :
    compileWithin limit (s₁ ++ "\n" ++ s₂) =
      match compileWithin limit s₂ with
      | .ok p₂ => .ok ⟨p₁.statements ++ p₂.statements.map (Statement.mapSpans
          (Span.below (1 + s₁.toList.count '\n') (1 + s₁.utf8ByteSize))),
          ⟨1, 1, 0, (s₁ ++ "\n" ++ s₂).utf8ByteSize⟩⟩
      | .error e => .error (e.below (1 + s₁.toList.count '\n')) := by
  obtain ⟨ts₁, ht₁, hp₁⟩ := compileWithin_eq_ok_iff.mp h
  obtain ⟨us, e, rfl, hus, he, -⟩ := exists_eof_of_tokenize ht₁
  have hjoin := tokenize_append_lineFeed ht₁ s₂
  cases ht₂ : tokenize s₂ with
  | error f =>
    rw [ht₂] at hjoin
    rw [compileWithin_of_lexError hjoin, compileWithin_of_lexError ht₂]
    rfl
  | ok ts =>
    obtain ⟨vs, e', rfl, hvs, he', -, -, hstop⟩ := exists_eof_of_tokenize ht₂
    have hsize : (s₁ ++ "\n" ++ s₂).utf8ByteSize = e'.span.stop + (1 + s₁.utf8ByteSize) := by
      rw [hstop, String.utf8ByteSize_append, String.utf8ByteSize_append]
      have hfeed : "\n".utf8ByteSize = 1 := rfl
      omega
    rw [ht₂] at hjoin
    rw [compileWithin_of_tokenize hjoin, compileWithin_of_tokenize ht₂, hsize,
      Program.parse_append_below _ _ hp₁ hus he hvs he']
    cases Program.parse limit (vs ++ [e']) <;> rfl

/-- **Composition.** Behind a source that compiles and a line feed, another source compiles to its own
statements, with all their spans moved down by the lines and bytes in front of them. Where it does not
compile, nothing but the line of its error changes. -/
theorem compile_append {s₁ s₂ : String} {p₁ : Program} (h : compile s₁ = .ok p₁) :
    (∀ p₂, compile s₂ = .ok p₂ → compile (s₁ ++ "\n" ++ s₂) =
      .ok ⟨p₁.statements ++ p₂.statements.map (Statement.mapSpans
        (Span.below (1 + s₁.toList.count '\n') (1 + s₁.utf8ByteSize))),
        ⟨1, 1, 0, (s₁ ++ "\n" ++ s₂).utf8ByteSize⟩⟩) ∧
    ∀ e, compile s₂ = .error e →
      compile (s₁ ++ "\n" ++ s₂) = .error (e.below (1 + s₁.toList.count '\n')) := by
  have hjoin := compileWithin_append_lineFeed h s₂
  refine ⟨fun p₂ h₂ => ?_, fun e h₂ => ?_⟩
  · rw [show compileWithin Program.defaultLimit s₂ = .ok p₂ from h₂] at hjoin
    exact hjoin
  · rw [show compileWithin Program.defaultLimit s₂ = .error e from h₂] at hjoin
    exact hjoin

/-- Behind a comment, a letter of two bytes and two line feeds: a rule, and one that ends too early. -/
theorem compile_append_rule :
    compile "import 'é' # a\n" = .ok ⟨[.imports ⟨"é", ⟨1, 1, 0, 11⟩⟩], ⟨1, 1, 0, 16⟩⟩ ∧
    compile ("import 'é' # a\n" ++ "\n" ++ "rule r: custom\n\x7b deny \x7d") =
      .ok ⟨[.imports ⟨"é", ⟨1, 1, 0, 11⟩⟩,
        .rule ⟨"r", .custom, [.action ⟨.deny, ⟨4, 3, 34, 38⟩⟩], ⟨3, 1, 17, 40⟩⟩], ⟨1, 1, 0, 40⟩⟩ ∧
    compile ("import 'é' # a\n" ++ "\n" ++ "rule r: ") =
      .error (.grammatical ⟨.category, .eof, "", 3, 9⟩) := by
  have h : compile "import 'é' # a\n" = .ok ⟨[.imports ⟨"é", ⟨1, 1, 0, 11⟩⟩], ⟨1, 1, 0, 16⟩⟩ := by
    decide +kernel
  have hrule : compile "rule r: custom\n\x7b deny \x7d" =
      .ok ⟨[.rule ⟨"r", .custom, [.action ⟨.deny, ⟨2, 3, 17, 21⟩⟩], ⟨1, 1, 0, 23⟩⟩],
        ⟨1, 1, 0, 23⟩⟩ := by
    decide +kernel
  have hend : compile "rule r: " = .error (.grammatical ⟨.category, .eof, "", 1, 9⟩) := by
    decide +kernel
  exact ⟨h, (compile_append h).1 _ hrule, (compile_append h).2 _ hend⟩

end PolicyLang
