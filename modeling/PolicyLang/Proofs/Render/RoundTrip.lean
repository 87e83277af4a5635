import PolicyLang.Proofs.Grammar.WellFormed
import PolicyLang.Proofs.Program.Places
import PolicyLang.Proofs.Render.ProgramText

/-!
# Canonical text is read back

The canonical text of a compiled program is read as the same program, apart from the places, by every
limit that is large enough for its conditions, and by no smaller one.
-/

namespace PolicyLang

open PolicyLang.Parser

/-! ## Places are not written -/

namespace Expr

mutual

theorem render_mapSpans (f : Span → Span) : ∀ e : Expr, (e.mapSpans f).render = e.render
  | literal v s => rfl
  | ident n s => rfl
  | attr e n s => by simp [mapSpans, render, render_mapSpans f e]
  | call e as s => by simp [mapSpans, render, render_mapSpans f e, renderAll_mapSpansAll f as]
  | negate e s => by simp [mapSpans, render, render_mapSpans f e]
  | binary o e₁ e₂ s => by simp [mapSpans, render, render_mapSpans f e₁, render_mapSpans f e₂]

theorem renderAll_mapSpansAll (f : Span → Span) :
    ∀ es : List Expr, renderAll (mapSpansAll f es) = renderAll es
  | [] => rfl
  | e :: es => by simp [mapSpansAll, renderAll, render_mapSpans f e, renderAll_mapSpansAll f es]

end

end Expr

section
variable (f : Span → Span)

theorem Action.render_mapSpans (a : Action) : (a.mapSpans f).render = a.render := by
  obtain ⟨v, s⟩ := a
  cases v <;> rfl

theorem Clause.render_mapSpans (c : Clause) : (c.mapSpans f).render = c.render := by
  cases c with
  | priority p => rfl
  | guard g =>
    simp only [mapSpans, render, Guard.mapSpans, Guard.render, Expr.render_mapSpans,
      Action.render_mapSpans]
  | action a => exact Action.render_mapSpans f a

theorem Rule.render_mapSpans (r : Rule) : (r.mapSpans f).render = r.render := by
  simp only [mapSpans, render, List.map_map, Function.comp_def, Clause.render_mapSpans]

theorem PolicyItem.renderLines_mapSpans (i : PolicyItem) :
    (i.mapSpans f).renderLines = i.renderLines := by
  cases i with
  | ref r => rfl
  | rule r => simp only [mapSpans, renderLines, Rule.render_mapSpans]
  | clause c => simp only [mapSpans, renderLines, Clause.render_mapSpans]

theorem Policy.render_mapSpans (p : Policy) : (p.mapSpans f).render = p.render := by
  simp only [mapSpans, render, List.map_map, Function.comp_def, PolicyItem.renderLines_mapSpans]

theorem Statement.render_mapSpans (s : Statement) : (s.mapSpans f).render = s.render := by
  cases s with
  | policy p => exact Policy.render_mapSpans f p
  | rule r => exact Rule.render_mapSpans f r
  | imports i => rfl

theorem Program.render_mapSpans (p : Program) : (p.mapSpans f).render = p.render := by
  simp only [mapSpans, render, List.map_map, Function.comp_def, Statement.render_mapSpans]

end

theorem Program.render_eq_of_erase_eq {p q : Program} (h : q.erase = p.erase) : q.render = p.render := by
  rw [← render_mapSpans (fun _ => {}) q, ← render_mapSpans (fun _ => {}) p]
  exact congrArg render h

/-! ## The round trip -/

namespace Program

theorem erase_mk_erase (p : Program) (s : Span) :
    (⟨p.erase.statements, s⟩ : Program).erase = p.erase := by
  simp only [erase, mapSpans, List.map_map, Function.comp_def, Statement.mapSpans_mapSpans]

section
variable {p : Program} {us : List Token} {e : Token} {limit : Nat} (hp : p.WellFormed)
  (hw : us.map Token.word = p.tokens.map Token.word) (hus : NoEnd us) (he : e.kind = .eof)
include hp hw hus he

theorem parse_eq_ok_of_words (hl : p.need ≤ limit) :
    ∃ q, parse limit (us ++ [e]) = .ok q ∧ q.erase = p.erase := by
  have hok := (Grammar.reads_program hp).ok hl (heads_nil _)
  rw [List.append_nil] at hok
  have hbody : parseBody limit p.tokens e = .ok ⟨p.erase.statements, ⟨1, 1, 0, e.span.stop⟩⟩ :=
    parseBody_eq_ok_iff.mpr ⟨hok, rfl⟩
  rw [parse_append_eof limit hus he]
  rcases parseBody_words limit hw (Eq.refl e.word) with ⟨q, q', hq, hq', hsame⟩ | ⟨_, _, _, -, h, -⟩
  · obtain rfl := Except.ok.inj (hbody.symm.trans hq')
    exact ⟨q, hq, hsame.trans (erase_mk_erase p _)⟩
  · rw [hbody] at h
    cases h

theorem parse_eq_error_of_words (hl : limit < p.need) :
    ∃ err, parse limit (us ++ [e]) = .error err ∧ err.cause = .tooDeep := by
  obtain ⟨r, hdeep⟩ := (Grammar.reads_program hp).tooDeep [] hl
  rw [List.append_nil] at hdeep
  have hbody : parseBody limit p.tokens e = .error (Cause.tooDeep.at (r.head?.getD e)) := by
    simp only [parseBody, hdeep]
  rw [parse_append_eof limit hus he]
  rcases parseBody_words limit hw (Eq.refl e.word) with ⟨_, _, -, h, -⟩ | ⟨c, t, t', ht, ht', -⟩
  · rw [hbody] at h
    cases h
  · obtain rfl : Cause.tooDeep = c :=
      congrArg SyntaxError.cause (Except.error.inj (hbody.symm.trans ht'))
    exact ⟨_, ht, rfl⟩

end

end Program

/-- **Round trip.** The canonical text of a compiled program is tokenized. From the limit that the
program needs on it is read as the same program apart from the places, and has the same text again;
by any smaller limit it is refused as nested too deeply. The compiler gives the program back if and
only if it needs no more than the limit of the compiler. -/
theorem compile_render {source : String} {p : Program} (h : compile source = .ok p) :
    (∃ ts, tokenize p.render = .ok ts ∧ ∀ limit,
      (p.need ≤ limit → ∃ q, Program.parse limit ts = .ok q ∧ q.erase = p.erase ∧
        q.render = p.render) ∧
      (limit < p.need → ∃ err, Program.parse limit ts = .error err ∧
        err.cause.message = "expression is nested too deeply")) ∧
    ((∃ q, compile p.render = .ok q ∧ q.erase = p.erase) ↔ p.need ≤ 128) := by
  have hp := wellFormed_of_compile h
  obtain ⟨us, e, ht, hw, hus, he⟩ := Program.exists_tokenize_render hp
  refine ⟨⟨us ++ [e], ht, fun limit => ⟨fun hl => ?_, fun hl => ?_⟩⟩, ?_, ?_⟩
  · obtain ⟨q, hq, hs⟩ := Program.parse_eq_ok_of_words hp hw hus he hl
    exact ⟨q, hq, hs, Program.render_eq_of_erase_eq hs⟩
  · obtain ⟨err, herr, hc⟩ := Program.parse_eq_error_of_words hp hw hus he hl
    exact ⟨err, herr, by rw [hc]; rfl⟩
  · rintro ⟨q, hq, -⟩
    apply Nat.le_of_not_lt
    intro hl
    obtain ⟨err, herr, -⟩ := Program.parse_eq_error_of_words hp hw hus he hl
    obtain ⟨ts, ht', hparse⟩ := compileWithin_eq_ok_iff.mp hq
    rw [ht] at ht'
    cases ht'
    exact absurd (herr.symm.trans hparse) (by simp)
  · intro hl
    obtain ⟨q, hq, hs⟩ := Program.parse_eq_ok_of_words hp hw hus he hl
    exact ⟨q, compileWithin_eq_ok_iff.mpr ⟨_, ht, hq⟩, hs⟩

/-- A category in capitals, an attribute that is a keyword and a number with too many digits. -/
theorem compile_render_rule : ∃ p,
    compile "rule r: CUSTOM \x7b when a.to >= 1.50 then deny \x7d" = .ok p ∧
      p.render = "rule r : custom \x7b\n    when (a.to >= 1.5) then deny\n\x7d\n" ∧
      ∃ q, compile p.render = .ok q ∧ q.erase = p.erase := by
  let condition : Expr := .binary (.compare .ge)
    (.attr (.ident "a" ⟨1, 23, 22, 23⟩) "to" ⟨1, 23, 22, 26⟩)
    (.literal (.float ⟨0x3ff8000000000000⟩) ⟨1, 31, 30, 34⟩) ⟨1, 23, 22, 34⟩
  let guard : Guard := ⟨condition, ⟨.deny, ⟨1, 41, 40, 44⟩⟩, ⟨1, 18, 17, 44⟩⟩
  let p : Program :=
    ⟨[.rule ⟨"r", .custom, [.guard guard], ⟨1, 1, 0, 46⟩⟩], ⟨1, 1, 0, 46⟩⟩
  have h : compile "rule r: CUSTOM \x7b when a.to >= 1.50 then deny \x7d" = .ok p := by
    decide +kernel
  exact ⟨p, h, by decide +kernel, (compile_render h).2.mpr (by decide)⟩

end PolicyLang
