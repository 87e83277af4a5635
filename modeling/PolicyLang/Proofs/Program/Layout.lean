import PolicyLang.Compile
import PolicyLang.Proofs.Lexical.Layout
import PolicyLang.Proofs.Program.Places

/-!
# Layout and meaning

Reading a program looks at the kinds and texts of its tokens only, so the layout of a source decides
about the places in what is read or refused, and about nothing else.
-/

namespace PolicyLang

theorem Program.parse_words (n : Nat) {us vs : List Token} {e f : Token} (hus : NoEnd us)
    (hvs : NoEnd vs) (he : e.kind = .eof) (hf : f.kind = .eof)
    (h : (us ++ [e]).map Token.word = (vs ++ [f]).map Token.word) :
    (∃ p q, parse n (us ++ [e]) = .ok p ∧ parse n (vs ++ [f]) = .ok q ∧ p.erase = q.erase) ∨
      ∃ (c : Cause) (t t' : Token), parse n (us ++ [e]) = .error (c.at t) ∧
        parse n (vs ++ [f]) = .error (c.at t') ∧ t.word = t'.word := by
  rw [List.map_append, List.map_append] at h
  obtain ⟨hbody, hend⟩ := List.append_inj' h rfl
  rw [parse_append_eof n hus he, parse_append_eof n hvs hf]
  exact parseBody_words n hbody (List.singleton_inj.mp hend)

/-- **Layout.** A source with another layout has tokens of the same kinds and texts. Either both sources
are compiled, to the same program apart from the places, or both are refused for the same reason, with
the same kind and text of the token to blame. -/
theorem compile_relaid {source source' : String} {ts : List Token} (h : tokenize source = .ok ts)
    (hr : Relaid source ts source') :
    (∃ ts', tokenize source' = .ok ts' ∧ ts'.map Token.word = ts.map Token.word) ∧
    ((∃ p p', compile source = .ok p ∧ compile source' = .ok p' ∧ p.erase = p'.erase) ∨
      ∃ e e', compile source = .error (.grammatical e) ∧
        compile source' = .error (.grammatical e') ∧
        e.cause = e'.cause ∧ e.found = e'.found ∧ e.text = e'.text) := by
  obtain ⟨ts', h', hw⟩ := tokenize_of_relaid h hr
  refine ⟨⟨ts', h', hw⟩, ?_⟩
  obtain ⟨us, e, rfl, hus, he, -⟩ := exists_eof_of_tokenize h
  obtain ⟨vs, f, rfl, hvs, hf, -⟩ := exists_eof_of_tokenize h'
  unfold compile
  rw [compileWithin_of_tokenize h, compileWithin_of_tokenize h']
  rcases Program.parse_words Program.defaultLimit hus hvs he hf hw.symm with
    ⟨p, p', hp, hp', herase⟩ | ⟨c, t, t', ht, ht', hword⟩
  · exact .inl ⟨p, p', by rw [hp]; rfl, by rw [hp']; rfl, herase⟩
  · obtain ⟨hkind, htext⟩ := Prod.ext_iff.mp hword
    exact .inr ⟨c.at t, c.at t', by rw [ht]; rfl, by rw [ht']; rfl, rfl, hkind, htext⟩

/-- Between `import` and its path there need not be anything, and there may be a comment. -/
theorem compile_relaid_import : ∃ ts, tokenize "import'é'" = .ok ts ∧
    Relaid "import'é'" ts "\timport # \x22\n 'é'\r" ∧
    ∃ p p', compile "import'é'" = .ok p ∧ compile "\timport # \x22\n 'é'\r" = .ok p' ∧
      p.erase = p'.erase := by
  let ts : List Token :=
    [⟨.kwImport, "import", ⟨1, 1, 0, 6⟩⟩, ⟨.string, "é", ⟨1, 7, 6, 10⟩⟩, .eof ⟨1, 10, 10, 10⟩]
  have h : tokenize "import'é'" = .ok ts := by decide +kernel
  have hgap : Lexical.Layout " # \x22\n ".toList :=
    .blank (.inl rfl) (.comment (by decide : '\n' ∉ [' ', '\x22']) (.blank (.inl rfl) .nil))
  have hr : Relaid "import'é'" ts "\timport # \x22\n 'é'\r" := by
    refine ⟨['\t'], "import".toList ++ (" # \x22\n ".toList ++ ("'é'".toList ++ ['\r'])),
      .blank (by simp) .nil, ?_, by decide⟩
    have hlexemes : (ts.filter (·.kind ≠ .eof)).map (Token.lexeme "import'é'") =
        ["import".toList, "'é'".toList] := by decide +kernel
    rw [hlexemes]
    exact .cons hgap (by decide) (.cons (g := ['\r']) (.blank (by simp) .nil) (by simp) .nil)
  refine ⟨ts, h, hr, ?_⟩
  refine (compile_relaid h hr).2.resolve_right ?_
  rintro ⟨e, -, he, -⟩
  have hok : (compile "import'é'").isOk = true := by decide +kernel
  rw [he] at hok
  cases hok

end PolicyLang
