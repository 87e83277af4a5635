import PolicyLang.Expr.Render
import PolicyLang.Proofs.Lexical.Positions
import PolicyLang.Proofs.Lexical.Spelling
import PolicyLang.Proofs.Number.Whole
import PolicyLang.Proofs.Render.ConditionTokens

/-!
# Doubles in canonical text

The canonical text of a double is one number with a point in it, which is read as the same double, bit
for bit.
-/

namespace PolicyLang

open Lexical

namespace Lexical

/-- A lexeme alone is one token, with the end mark right behind it. -/
theorem Lexeme.tokenize_eq {cs : List Char} {k : TokenKind} {text : String} (h : Lexeme cs [] k text) :
    tokenize (.ofList cs) =
      .ok [⟨k, text, .between {} (.behind cs)⟩, .eof (.between (.behind cs) (.behind cs))] := by
  have hscan := scan_lexeme h {}
  rw [List.append_nil, scan_nil, Pos.after_start] at hscan
  rw [tokenize, String.toList_ofList, hscan]
  rfl

end Lexical

theorem Parser.run_value_number {text : String} {l : Literal} (h : Literal.ofNumber text = .ok l)
    (expr : Parser Expr) (span : Span) (rest : List Token) :
    (value expr).run (⟨.number, text, span⟩ :: rest) = .ok (.literal l span, rest) := by
  unfold value
  rw [run_next_cons]
  simp only [h, Except.map]
  rfl

/-- **Doubles survive rendering.** The canonical text of a finite double without a sign is digits, a
point and digits, with nothing but a zero behind the point of a whole number. It writes a decimal that
reads back as the double: none with fewer digits does, and none with as many is nearer to the double. The
text is cut into one number and the end mark, and this number is read as a literal with the bits of the
double, never as an integer and never as out of range. -/
theorem Literal.render_float_reads {x : Binary64} (h : x.Unsigned) : ∃ whole fraction,
    (float x).render = .ofList (whole ++ '.' :: fraction) ∧ Digits whole ∧ Digits fraction ∧
      (fraction = ['0'] ↔ x.IsWhole) ∧
      (∃ d : Decimal, (float x).render = .ofList d.pointed ∧ d.code = x.code ∧
        ∀ e : Decimal, e.code = x.code → d.length ≤ e.length ∧
          (e.length = d.length →
            |d.value - Binary64.size x.code| ≤ |e.value - Binary64.size x.code|)) ∧
      (∃ p, tokenize (float x).render =
        .ok [⟨.number, (float x).render, .between {} p⟩, .eof (.between p p)]) ∧
      ∀ expr rest span, (Parser.value expr).run (⟨.number, (float x).render, span⟩ :: rest) =
        .ok (.literal (.float x) span, rest) := by
  have hk : x.code < Binary64.infinity := of_decide_eq_true h.1
  obtain ⟨whole, fraction, hp, hw, hf, hwhole, -⟩ := exists_render_float h
  have hlex : Lexeme (whole ++ '.' :: fraction) [] .number (.ofList (whole ++ '.' :: fraction)) :=
    .fraction hw.1 hw.2 hf.1 hf.2 (by simp [NotBefore])
  refine ⟨whole, fraction, hp, hw, hf, hwhole, ?_, ⟨.behind (whole ++ '.' :: fraction), ?_⟩, ?_⟩
  · exact ⟨Binary64.shortest x.code, render_float h, Binary64.code_shortest hk,
      fun e he => Binary64.shortest_le hk he⟩
  · rw [hp]
    exact hlex.tokenize_eq
  · intro expr rest span
    exact Parser.run_value_number (ofNumber_render h) expr span rest

/-- The first whole number behind `2 ^ 53` that is a double. -/
theorem Literal.render_float_reads_whole :
    (Binary64.mk 0x4340000000000001).Unsigned ∧
      (float ⟨0x4340000000000001⟩).render = "9007199254740994.0" ∧
      ∀ expr rest span, (Parser.value expr).run (⟨.number, "9007199254740994.0", span⟩ :: rest) =
        .ok (.literal (.float ⟨0x4340000000000001⟩) span, rest) := by
  have h : (Binary64.mk 0x4340000000000001).Unsigned := ⟨by decide, by decide⟩
  have htext : (float ⟨0x4340000000000001⟩).render = "9007199254740994.0" := by decide +kernel
  obtain ⟨_, _, -, -, -, -, -, -, hread⟩ := Literal.render_float_reads h
  rw [htext] at hread
  exact ⟨h, htext, hread⟩

end PolicyLang
