import PolicyLang.Proofs.Program.EndMark
import PolicyLang.Proofs.Program.Places

/-!
# Only words matter

What is read or refused depends on the kinds and texts of the tokens before the end mark. Their spans
decide about the spans in the result only, and an end mark about how an error at the end is shown.
-/

namespace PolicyLang

/-- The tokens of a list apart from its end mark. -/
def body (ts : List Token) : List Token := ts.filter (·.kind ≠ .eof)

theorem NoEnd.body_eq {ts : List Token} (h : NoEnd ts) : body ts = ts :=
  List.filter_eq_self.mpr fun t ht => by simpa using h t ht

theorem Sealed.completed_eq_body {ts : List Token} (h : Sealed ts) :
    ∃ e, completed ts = body ts ++ [e] ∧ e.kind = .eof := by
  rcases h.cases with hn | ⟨us, e, rfl, hus, he⟩
  · rw [completed_of_noEnd hn, hn.body_eq]
    refine ⟨_, rfl, ?_⟩
    unfold Token.eofAfter
    split <;> rfl
  · have hbody : body (us ++ [e]) = us := by
      rw [body, List.filter_append, ← body, hus.body_eq]
      simp [he]
    exact ⟨e, by rw [completed_append_eof he, hbody], he⟩

theorem eq_of_words_of_spans {us vs : List Token} (hw : us.map Token.word = vs.map Token.word)
    (hs : us.map Token.span = vs.map Token.span) : us = vs := by
  induction us generalizing vs with
  | nil => exact (List.map_eq_nil_iff.mp hw.symm).symm
  | cons u us ih =>
    obtain ⟨v, vs, rfl, hv, hvs⟩ := List.map_eq_cons_iff.mp hw.symm
    obtain ⟨hspan, hspans⟩ := List.cons.inj hs
    have huv : u = v := by
      obtain ⟨hkind, htext⟩ := Prod.ext_iff.mp hv
      cases u
      cases v
      cases hkind
      cases htext
      cases hspan
      rfl
    rw [huv, ih hvs.symm hspans]

namespace Program

/-- What stands at the end of the tokens is asked for the end of the program and by errors there. -/
theorem parseBody_end (n : Nat) (us : List Token) (e e' : Token) :
    (∃ p p', parseBody n us e = .ok p ∧ parseBody n us e' = .ok p' ∧ p.statements = p'.statements) ∨
      ∃ (c : Cause) (rest : List Token), parseBody n us e = .error (c.at (rest.head?.getD e)) ∧
        parseBody n us e' = .error (c.at (rest.head?.getD e')) := by
  unfold parseBody
  cases (Parser.document n).run us with
  | ok x => exact .inl ⟨_, _, rfl, rfl, rfl⟩
  | error f => exact .inr ⟨f.cause, f.rest, rfl, rfl⟩

/-- **Only words matter.** Take two token lists with the same words before their end marks, of which
either may be missing. Both are read, to the same program apart from the places, or both are refused
for the same reason, and the tokens to blame have the same kind and, if they are not end marks, the
same text. Where the tokens before the end marks have the same spans too, the statements are equal,
and errors stand in the same place if they are not at the end. -/
theorem parse_same_words (n : Nat) {ts ts' : List Token} (hts : Sealed ts) (hts' : Sealed ts')
    (hw : (body ts).map Token.word = (body ts').map Token.word) :
    ((∃ p p', parse n ts = .ok p ∧ parse n ts' = .ok p' ∧ p.erase = p'.erase) ∨
      ∃ err err', parse n ts = .error err ∧ parse n ts' = .error err' ∧ err.cause = err'.cause ∧
        err.found = err'.found ∧ (err.found ≠ .eof → err.text = err'.text)) ∧
    ((body ts).map Token.span = (body ts').map Token.span →
      (∀ p p', parse n ts = .ok p → parse n ts' = .ok p' → p.statements = p'.statements) ∧
      ∀ err err', parse n ts = .error err → parse n ts' = .error err' → err.found ≠ .eof →
        err.line = err'.line ∧ err.column = err'.column) := by
  obtain ⟨e, hc, he⟩ := hts.completed_eq_body
  obtain ⟨e', hc', he'⟩ := hts'.completed_eq_body
  rw [parse_eq_parseBody n hts hc, parse_eq_parseBody n hts' hc']
  constructor
  · refine (parseBody_of_words n hw e e').imp_right ?_
    rintro ⟨c, t, t', ht, ht', hword | ⟨rfl, rfl⟩⟩
    · obtain ⟨hkind, htext⟩ := Prod.ext_iff.mp hword
      exact ⟨_, _, ht, ht', rfl, hkind, fun _ => htext⟩
    · exact ⟨_, _, ht, ht', rfl, he.trans he'.symm, fun hne => absurd he hne⟩
  · intro hs
    rw [← eq_of_words_of_spans hw hs]
    rcases parseBody_end n (body ts) e e' with ⟨q, q', hq, hq', hss⟩ | ⟨c, rest, hr, hr'⟩
    · rw [hq, hq']
      refine ⟨fun p p' hp hp' => ?_, fun err err' herr => nomatch herr⟩
      cases hp
      cases hp'
      exact hss
    · rw [hr, hr']
      refine ⟨fun _ _ hp => (nomatch hp), fun err err' herr herr' hne => ?_⟩
      cases herr
      cases herr'
      -- the blamed token is one of the body, since the end mark is excluded
      cases rest with
      | nil => exact absurd he hne
      | cons t ts => exact ⟨rfl, rfl⟩

/-- A path that is missing: behind a span that runs backwards and with no end mark, and on its own
line with an end mark that says something. -/
theorem parse_same_words_import :
    Sealed [⟨.kwImport, "import", ⟨7, 3, 9, 2⟩⟩] ∧
    Sealed [⟨.kwImport, "import", {}⟩, ⟨.eof, "end", ⟨5, 1, 8, 4⟩⟩] ∧
    parse 0 [⟨.kwImport, "import", ⟨7, 3, 9, 2⟩⟩] = .error ⟨.importPath, .eof, "", 7, 3⟩ ∧
    parse 0 [⟨.kwImport, "import", {}⟩, ⟨.eof, "end", ⟨5, 1, 8, 4⟩⟩] =
      .error ⟨.importPath, .eof, "end", 5, 1⟩ ∧
    ∃ err err', parse 0 [⟨.kwImport, "import", ⟨7, 3, 9, 2⟩⟩] = .error err ∧
      parse 0 [⟨.kwImport, "import", {}⟩, ⟨.eof, "end", ⟨5, 1, 8, 4⟩⟩] = .error err' ∧
      err.cause = err'.cause ∧ err.found = err'.found := by
  have hts : Sealed [⟨.kwImport, "import", ⟨7, 3, 9, 2⟩⟩] := NoEnd.sealed (by simp)
  have hbody : NoEnd [⟨.kwImport, "import", {}⟩] := by simp
  have hts' : Sealed [⟨.kwImport, "import", {}⟩, ⟨.eof, "end", ⟨5, 1, 8, 4⟩⟩] := hbody.sealed_append _
  have herr : parse 0 [⟨.kwImport, "import", ⟨7, 3, 9, 2⟩⟩] = .error ⟨.importPath, .eof, "", 7, 3⟩ := by
    decide +kernel
  have herr' : parse 0 [⟨.kwImport, "import", {}⟩, ⟨.eof, "end", ⟨5, 1, 8, 4⟩⟩] =
      .error ⟨.importPath, .eof, "end", 5, 1⟩ := by
    decide +kernel
  refine ⟨hts, hts', herr, herr', ?_⟩
  rcases (parse_same_words 0 hts hts' (by decide)).1 with ⟨p, _, hp, -⟩ | ⟨err, err', h, h', hc, hf, -⟩
  · rw [herr] at hp
    cases hp
  · exact ⟨err, err', h, h', hc, hf⟩

end Program

end PolicyLang
