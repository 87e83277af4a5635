import PolicyLang.Proofs.Grammar.Completeness
import PolicyLang.Proofs.Grammar.Soundness
import PolicyLang.Proofs.Program.EndMark

/-!
# The grammar is what is accepted

A token list is accepted if and only if it is a document of the grammar, and the program is the tree
of its derivation, spans included. So a token list has at most one tree.
-/

namespace PolicyLang

open Grammar

namespace Parser

theorem stop_of_run_many_eq_ok {α : Type} {read : Token → Step α} {ts rest : List Token}
    {as : List α} (h : (many read).run ts = .ok (as, rest)) :
    ∀ t ∈ rest.head?, read t = .stop := by
  induction ts using items_induction read generalizing as with
  | nil => rw [run_many_nil] at h; cases h; simp
  | cons t ts ih =>
    rw [run_many_cons] at h
    cases hs : read t with
    | stop => rw [hs] at h; cases h; simpa using hs
    | reject c => rw [hs] at h; cases h
    | item p =>
      rw [hs] at h
      obtain ⟨a, mid, hp, h⟩ := run_bind_eq_ok.mp h
      obtain ⟨as', rest', hm, h⟩ := run_bind_eq_ok.mp h
      cases h
      exact ih p a mid hs hp hm

theorem statementStep_ne_stop (limit : Nat) (t : Token) : statementStep limit t ≠ .stop := by
  unfold statementStep
  split <;> simp

theorem rest_of_run_document_eq_ok {limit : Nat} {ts rest : List Token} {ss : List Statement}
    (h : (document limit).run ts = .ok (ss, rest)) : rest = [] := by
  cases rest with
  | nil => rfl
  | cons t rest =>
    exact absurd (stop_of_run_many_eq_ok h t (by simp)) (statementStep_ne_stop limit t)

theorem run_document_eq_ok_iff {limit : Nat} {ts rest : List Token} {ss : List Statement}
    (hl : ts.length ≤ limit) :
    (document limit).run ts = .ok (ss, rest) ↔ Document ts ss ∧ rest = [] := by
  constructor
  · intro h
    obtain rfl := rest_of_run_document_eq_ok h
    obtain ⟨us, rfl, hd⟩ := sound_document limit h
    exact ⟨by simpa using hd, rfl⟩
  · rintro ⟨hd, rfl⟩
    obtain ⟨d, hdl, hr⟩ := hd.reads
    simpa using hr.ok (Nat.le_trans hdl hl) (heads_nil _)

end Parser

namespace Program

theorem parseBody_eq_ok_iff {limit : Nat} {ts : List Token} {e : Token} {p : Program} :
    parseBody limit ts e = .ok p ↔
      (Parser.document limit).run ts = .ok (p.statements, []) ∧ p.span = ⟨1, 1, 0, e.span.stop⟩ := by
  unfold parseBody
  split
  · rename_i ss rest h
    obtain rfl := Parser.rest_of_run_document_eq_ok h
    cases p
    simp [h, eq_comm]
  · rename_i f h
    simp [h]

theorem run_document_of_parse_eq_ok {n : Nat} {ts : List Token} {p : Program}
    (h : parse n ts = .ok p) :
    (Parser.document n).run (ts.takeWhile (·.kind != .eof)) = .ok (p.statements, []) := by
  unfold parse at h
  split at h
  · exact (parseBody_eq_ok_iff.mp h).1
  · exact (parseBody_eq_ok_iff.mp h).1
  · cases h

/-- **Acceptance.** With a limit that is no smaller than the number of tokens, a list of tokens and
an end mark is read as `p` if and only if the grammar derives the tokens with the tree `p`. -/
theorem parse_eq_ok_iff_document {limit : Nat} {ts : List Token} {e : Token} (hts : NoEnd ts)
    (he : e.kind = .eof) (hl : ts.length ≤ limit) (p : Program) :
    parse limit (ts ++ [e]) = .ok p ↔
      Document ts p.statements ∧ p.span = ⟨1, 1, 0, e.span.stop⟩ := by
  rw [parse_append_eof limit hts he, parseBody_eq_ok_iff, Parser.run_document_eq_ok_iff hl]
  simp

/-- A limit that is as large as the number of tokens is enough for `rule r:custom` with the body
`when a.f(b)<1 or not c then deny`. -/
theorem parse_guarded_rule :
    parse 20 ([⟨.kwRule, "rule", ⟨1, 1, 0, 4⟩⟩, ⟨.ident, "r", ⟨1, 6, 5, 6⟩⟩,
      ⟨.colon, ":", ⟨1, 7, 6, 7⟩⟩, ⟨.category .custom, "custom", ⟨1, 8, 7, 13⟩⟩,
      ⟨.lbrace, "\x7b", ⟨1, 14, 13, 14⟩⟩, ⟨.kwWhen, "when", ⟨1, 15, 14, 18⟩⟩,
      ⟨.ident, "a", ⟨1, 20, 19, 20⟩⟩, ⟨.dot, ".", ⟨1, 21, 20, 21⟩⟩, ⟨.ident, "f", ⟨1, 22, 21, 22⟩⟩,
      ⟨.lparen, "(", ⟨1, 23, 22, 23⟩⟩, ⟨.ident, "b", ⟨1, 24, 23, 24⟩⟩, ⟨.rparen, ")", ⟨1, 25, 24, 25⟩⟩,
      ⟨.compare .lt, "<", ⟨1, 26, 25, 26⟩⟩, ⟨.number, "1", ⟨1, 27, 26, 27⟩⟩,
      ⟨.kwOr, "or", ⟨1, 29, 28, 30⟩⟩, ⟨.kwNot, "not", ⟨1, 32, 31, 34⟩⟩, ⟨.ident, "c", ⟨1, 36, 35, 36⟩⟩,
      ⟨.kwThen, "then", ⟨1, 38, 37, 41⟩⟩, ⟨.verb .deny, "deny", ⟨1, 43, 42, 46⟩⟩,
      ⟨.rbrace, "\x7d", ⟨1, 47, 46, 47⟩⟩] ++
      [⟨.eof, "", ⟨1, 48, 47, 47⟩⟩]) =
    .ok ⟨[.rule ⟨"r", .custom, [.guard ⟨.binary .or
      (.binary (.compare .lt)
        (.call (.attr (.ident "a" ⟨1, 20, 19, 20⟩) "f" ⟨1, 20, 19, 22⟩) [.ident "b" ⟨1, 24, 23, 24⟩]
          ⟨1, 20, 19, 25⟩)
        (.literal (.int 1) ⟨1, 27, 26, 27⟩) ⟨1, 20, 19, 27⟩)
      (.negate (.ident "c" ⟨1, 36, 35, 36⟩) ⟨1, 32, 31, 36⟩) ⟨1, 20, 19, 36⟩,
      ⟨.deny, ⟨1, 43, 42, 46⟩⟩, ⟨1, 15, 14, 46⟩⟩], ⟨1, 1, 0, 47⟩⟩], ⟨1, 1, 0, 47⟩⟩ := by
  have hname (s : String) (p : Span) : OrPhrase [⟨.ident, s, p⟩] (.ident s p) :=
    .mk (.mk (.plain (.value (.chain rfl .none .nil))) .nil) .nil
  have hcall : ValuePhrase
      [⟨.ident, "a", ⟨1, 20, 19, 20⟩⟩, ⟨.dot, ".", ⟨1, 21, 20, 21⟩⟩, ⟨.ident, "f", ⟨1, 22, 21, 22⟩⟩,
      ⟨.lparen, "(", ⟨1, 23, 22, 23⟩⟩, ⟨.ident, "b", ⟨1, 24, 23, 24⟩⟩, ⟨.rparen, ")", ⟨1, 25, 24, 25⟩⟩]
      (.call (.attr (.ident "a" ⟨1, 20, 19, 20⟩) "f" ⟨1, 20, 19, 22⟩) [.ident "b" ⟨1, 24, 23, 24⟩]
        ⟨1, 20, 19, 25⟩) :=
    .chain rfl .none (.cons rfl (.inl rfl) (.args rfl (hname ..) .nil rfl) .nil)
  have hone : ValuePhrase [⟨.number, "1", ⟨1, 27, 26, 27⟩⟩] (.literal (.int 1) ⟨1, 27, 26, 27⟩) :=
    .number rfl (.int (by decide) (by decide))
  have hnot : AndPhrase [⟨.kwNot, "not", ⟨1, 32, 31, 34⟩⟩, ⟨.ident, "c", ⟨1, 36, 35, 36⟩⟩]
      (.negate (.ident "c" ⟨1, 36, 35, 36⟩) ⟨1, 32, 31, 36⟩) :=
    .mk (.not rfl (.plain (.value (.chain rfl .none .nil)))) .nil
  have hcond := OrPhrase.mk (.mk (.plain (.compare hcall (t := ⟨.compare .lt, "<", ⟨1, 26, 25, 26⟩⟩)
    rfl hone)) .nil) (.cons (t := ⟨.kwOr, "or", ⟨1, 29, 28, 30⟩⟩) rfl hnot .nil)
  have hbody := Many.cons (ClausePhrase.guard (.mk (w := ⟨.kwWhen, "when", ⟨1, 15, 14, 18⟩⟩)
    (t := ⟨.kwThen, "then", ⟨1, 38, 37, 41⟩⟩) rfl hcond rfl (.deny (t := ⟨.verb .deny, "deny", ⟨1, 43, 42, 46⟩⟩)
    rfl))) .nil
  have hrule := StatementPhrase.rule (RulePhrase.mk (r := ⟨.kwRule, "rule", ⟨1, 1, 0, 4⟩⟩)
    (n := ⟨.ident, "r", ⟨1, 6, 5, 6⟩⟩) (o := ⟨.colon, ":", ⟨1, 7, 6, 7⟩⟩)
    (k := ⟨.category .custom, "custom", ⟨1, 8, 7, 13⟩⟩) (b := ⟨.lbrace, "\x7b", ⟨1, 14, 13, 14⟩⟩)
    (e := ⟨.rbrace, "\x7d", ⟨1, 47, 46, 47⟩⟩) rfl rfl rfl rfl rfl hbody rfl)
  exact (parse_eq_ok_iff_document (by simp) rfl (by decide) _).mpr ⟨Many.cons hrule .nil, rfl⟩

end Program

/-- The grammar is not ambiguous. -/
theorem Grammar.Document.unique {ts : List Token} {ss ss' : List Statement} (h : Document ts ss)
    (h' : Document ts ss') : ss = ss' := by
  have hr := (Parser.run_document_eq_ok_iff (Nat.le_refl ts.length)).mpr ⟨h, rfl⟩
  have hr' := (Parser.run_document_eq_ok_iff (Nat.le_refl ts.length)).mpr ⟨h', rfl⟩
  rw [hr] at hr'
  injection hr' with hr'
  exact congrArg Prod.fst hr'

end PolicyLang
