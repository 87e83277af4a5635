import PolicyLang.Compile
import PolicyLang.Proofs.Lexical.LineEnds
import PolicyLang.Proofs.Program.EndMark
import PolicyLang.Proofs.Program.Places

/-!
# Programs with other line ends

With a carriage return in front of each line feed a source has the same tokens at the same lines and
columns, so it is read as the same program, or refused with the same error.
-/

namespace PolicyLang

open Lexical

namespace Program

/-- Reading does not ask for byte ranges, and errors do not show them. -/
theorem parseBody_spot (n : Nat) (ts : List Token) (e : Token) :
    parseBody n (ts.map (Token.mapSpan Span.spot)) (e.mapSpan Span.spot) =
      (parseBody n ts e).map (Program.mapSpans Span.spot) := by
  unfold parseBody
  rw [Parser.run_document_mapSpan fun _ _ => rfl]
  cases (Parser.document n).run ts with
  | ok x => rfl
  | error f =>
    refine congrArg Except.error ?_
    rw [List.head?_map, Option.getD_map]
    rfl

theorem parse_spot {n : Nat} {us vs : List Token} {e f : Token} (hus : NoEnd us) (hvs : NoEnd vs)
    (he : e.kind = .eof) (hf : f.kind = .eof)
    (h : (vs ++ [f]).map (Token.mapSpan Span.spot) = (us ++ [e]).map (Token.mapSpan Span.spot)) :
    (parse n (vs ++ [f])).map (Program.mapSpans Span.spot) =
      (parse n (us ++ [e])).map (Program.mapSpans Span.spot) := by
  rw [List.map_append, List.map_append] at h
  obtain ⟨hbody, hend⟩ := List.append_inj' h rfl
  rw [parse_append_eof n hus he, parse_append_eof n hvs hf, ← parseBody_spot, ← parseBody_spot, hbody,
    List.singleton_inj.mp hend]

end Program

theorem compile_withReturns_of_tokenize {source : String} {ts us : List Token}
    (h : tokenize source = .ok ts) (h' : tokenize (withReturns source) = .ok us)
    (hspot : us.map (Token.mapSpan Span.spot) = ts.map (Token.mapSpan Span.spot)) :
    (∃ p p', compile source = .ok p ∧ compile (withReturns source) = .ok p' ∧
      p.mapSpans Span.spot = p'.mapSpans Span.spot) ∨
    ∃ e, compile source = .error (.grammatical e) ∧
      compile (withReturns source) = .error (.grammatical e) := by
  obtain ⟨us', e, rfl, hus, he, -⟩ := exists_eof_of_tokenize h
  obtain ⟨vs', f, rfl, hvs, hf, -⟩ := exists_eof_of_tokenize h'
  have hparse := Program.parse_spot (n := Program.defaultLimit) hus hvs he hf hspot
  unfold compile
  rw [compileWithin_of_tokenize h, compileWithin_of_tokenize h']
  cases hp : Program.parse Program.defaultLimit (us' ++ [e]) with
  | ok p =>
    cases hp' : Program.parse Program.defaultLimit (vs' ++ [f]) with
    | ok p' =>
      rw [hp, hp'] at hparse
      exact .inl ⟨p, p', rfl, rfl, (Except.ok.inj hparse).symm⟩
    | error err' => rw [hp, hp'] at hparse; cases hparse
  | error err =>
    cases hp' : Program.parse Program.defaultLimit (vs' ++ [f]) with
    | ok p' => rw [hp, hp'] at hparse; cases hparse
    | error err' =>
      rw [hp, hp'] at hparse
      obtain rfl := Except.error.inj hparse
      exact .inr ⟨err', rfl, rfl⟩

/-- **Line ends.** A source is tokenized with carriage returns in front of its line feeds if and only
if it is without, and then its tokens have the same kinds and texts at the same lines and columns. So
both sources are compiled, to programs that differ in byte ranges only, or have the same syntax error.
They have the same lexical error too, apart from a string that breaks off behind a backslash: in place
of the quote, the backslash is blamed then, and the carriage return behind it. -/
theorem compile_withReturns (source : String) :
    ((∃ us, tokenize (withReturns source) = .ok us) ↔ ∃ ts, tokenize source = .ok ts) ∧
    (∀ ts us, tokenize source = .ok ts → tokenize (withReturns source) = .ok us →
      us.map (Token.mapSpan Span.spot) = ts.map (Token.mapSpan Span.spot) ∧
      ((∃ p p', compile source = .ok p ∧ compile (withReturns source) = .ok p' ∧
          p.mapSpans Span.spot = p'.mapSpans Span.spot) ∨
        ∃ e, compile source = .error (.grammatical e) ∧
          compile (withReturns source) = .error (.grammatical e))) ∧
    (∀ e, tokenize source = .error e → (¬ ∃ u cs, BreaksOff source u cs) →
      tokenize (withReturns source) = .error e) ∧
    ∀ u cs, BreaksOff source u cs →
      tokenize source =
        .error ⟨.unclosedString, (({} : Pos).after u).line, (({} : Pos).after u).column⟩ ∧
      tokenize (withReturns source) = .error ⟨.badEscape '\r', (({} : Pos).after (u ++ cs)).line,
        (({} : Pos).after (u ++ cs)).column⟩ := by
  have hbreaks : ∀ u cs, BreaksOff source u cs → tokenize source =
        .error ⟨.unclosedString, (({} : Pos).after u).line, (({} : Pos).after u).column⟩ ∧
      tokenize (withReturns source) = .error ⟨.badEscape '\r', (({} : Pos).after (u ++ cs)).line,
        (({} : Pos).after (u ++ cs)).column⟩ := fun u cs h => by
    rw [Pos.after_append]
    exact tokenize_of_breaksOff h
  refine ⟨?_, ?_, ?_, hbreaks⟩
  · rcases tokenize_withReturns source with ⟨ts, us, h, h', -⟩ | ⟨e, h, h'⟩ | ⟨u, cs, hb⟩
    · exact ⟨fun _ => ⟨ts, h⟩, fun _ => ⟨us, h'⟩⟩
    · simp [h, h']
    · simp [hbreaks u cs hb]
  · intro ts us h h'
    rcases tokenize_withReturns source with ⟨ts', us', ht, hu, hspot⟩ | ⟨e, he, -⟩ | ⟨u, cs, hb⟩
    · obtain rfl := Except.ok.inj (ht.symm.trans h)
      obtain rfl := Except.ok.inj (hu.symm.trans h')
      exact ⟨hspot, compile_withReturns_of_tokenize h h' hspot⟩
    · cases h.symm.trans he
    · cases h.symm.trans (hbreaks u cs hb).1
  · intro e he hno
    rcases tokenize_withReturns source with ⟨ts, us, h, -⟩ | ⟨e', h, h'⟩ | hb
    · cases he.symm.trans h
    · obtain rfl := Except.error.inj (he.symm.trans h)
      exact h'
    · exact absurd hb hno

/-- A backslash at the end of a line, which the string does not get past. -/
theorem compile_withReturns_backslash :
    tokenize "'a\\\nb" = .error ⟨.unclosedString, 1, 1⟩ ∧
      tokenize (withReturns "'a\\\nb") = .error ⟨.badEscape '\r', 1, 3⟩ := by
  have hletter : Quotation '\x27' ['a'] ['a'] := .char (by decide) (by decide) (by decide) .nil
  exact (compile_withReturns "'a\\\nb").2.2.2 [] ['\x27', 'a']
    ⟨'\x27', ['a'], ['a'], ['b'], [], rfl, .inr rfl, hletter, rfl, .nil⟩

end PolicyLang
