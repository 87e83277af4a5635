import PolicyLang.Proofs.Lexical.Faults

/-!
# Slices of a source

What stands in a source from one token to another is cut into the same tokens again, in front of all
that its last lexeme ends before.
-/

namespace PolicyLang

open Lexical

namespace Lexical

/-! ## Gaps -/

theorem Gap.before {g rest rest' : List Char} (h : Gap g rest)
    (hline : NotBefore rest (· ≠ '\n') → NotBefore rest' (· ≠ '\n')) : Gap g rest' := by
  induction h with
  | nil => exact .nil
  | cons hg _ ih =>
    cases hg with
    | blank hc => exact .cons (.blank hc) (ih hline)
    | comment hcs hrest => exact .cons (.comment hcs (NotBefore.append_congr hline _ hrest)) (ih hline)

theorem Gap.cuts {g cs rest : List Char} {ws : List (TokenKind × String)} (h : Gap g cs)
    (hcs : Cuts cs ws rest) : Cuts (g ++ cs) ws rest := by
  induction h with
  | nil => exact hcs
  | cons hg _ ih =>
    rw [List.append_assoc]
    exact .gap hg (ih hcs)

theorem NotBefore.of_append {P : Char → Prop} {cs rest rest' : List Char} (hne : cs ≠ [])
    (h : NotBefore (cs ++ rest) P) : NotBefore (cs ++ rest') P := by
  obtain ⟨c, cs, rfl⟩ := List.exists_cons_of_ne_nil hne
  exact h

theorem Lexeme.ne_nil {cs rest : List Char} {k : TokenKind} {text : String}
    (h : Lexeme cs rest k text) : cs ≠ [] := by
  cases h with
  | whole hne => exact hne
  | symbol hs => exact (by decide : ∀ x ∈ symbols, x.1.toList ≠ []) _ hs
  | _ => simp

/-! ## Tokens in a row -/

theorem Segmented.behind {off : Nat} {cs : List Char} {us ts : List Token}
    (h : Segmented off cs (us ++ ts)) (hts : ts ≠ []) :
    ∃ pre rest, cs = pre ++ rest ∧ Segmented (off + bytes pre) rest ts := by
  induction us generalizing off cs with
  | nil => exact ⟨[], cs, rfl, h⟩
  | cons u us ih =>
    rw [List.cons_append] at h
    generalize hall : u :: (us ++ ts) = all at h
    cases h with
    | done =>
      obtain ⟨-, hnil⟩ := List.cons.inj hall
      exact absurd (List.append_eq_nil_iff.mp hnil).2 hts
    | @lexeme _ g l rest t _ _ _ hstart hstop h =>
      obtain ⟨rfl, rfl⟩ := List.cons.inj hall
      obtain ⟨pre, rest, rfl, h⟩ := ih h
      refine ⟨g ++ (l ++ pre), rest, by simp, ?_⟩
      have hoff : off + bytes (g ++ (l ++ pre)) = u.span.stop + bytes pre := by
        simp only [hstop, hstart, bytes_append, Nat.add_assoc]
      rwa [hoff]

/-- The text from the first of some tokens to the last one, and its pieces in front of other texts. -/
theorem Segmented.slice {off : Nat} {cs : List Char} {t : Token} {us ts : List Token}
    (h : Segmented off cs (t :: us ++ ts)) (hts : ts ≠ []) :
    ∃ g mid rest b, cs = g ++ (mid ++ rest) ∧ (t :: us).getLast? = some b ∧
      t.span.start = off + bytes g ∧ b.span.stop = off + bytes g + bytes mid ∧ mid ≠ [] ∧
      Gap g (mid ++ rest) ∧
      ∀ rest', EndsBefore rest rest' → Cuts (mid ++ rest') ((t :: us).map Token.word) rest' := by
  induction us generalizing off cs t with
  | nil =>
    rw [List.singleton_append] at h
    cases h with
    | done => exact absurd rfl hts
    | @lexeme _ g l rest _ _ hg hl hstart hstop _ =>
      refine ⟨g, l, rest, t, rfl, rfl, hstart, by rw [hstop, hstart], hl.ne_nil, hg, ?_⟩
      exact fun rest' hr => .lexeme (hl.before hr) .nil
  | cons u us ih =>
    rw [List.cons_append, List.cons_append] at h
    cases h with
    | @lexeme _ g l rest _ _ hg hl hstart hstop h =>
      obtain ⟨g', mid, rest, b, rfl, hb, -, hbstop, hmid, hg', hcuts⟩ := ih h
      refine ⟨g, l ++ (g' ++ mid), rest, b, by simp, by simpa using hb, hstart, ?_, by simp [hmid],
        by simpa using hg, fun rest' hr => ?_⟩
      · simp only [hbstop, hstop, hstart, bytes_append, Nat.add_assoc]
      · have hgap := (hg'.before (NotBefore.of_append hmid)).cuts (hcuts rest' hr)
        have := Cuts.lexeme (hl.before ((hr.append mid).append g')) hgap
        simpa [Token.word] using this

end Lexical

theorem exists_slice {source : String} {xs us ys : List Token} {a b : Token} {s : Span}
    (h : tokenize source = .ok (xs ++ (us ++ ys))) (hys : ys ≠ []) (ha : us.head? = some a)
    (hb : us.getLast? = some b) (hstart : s.start = a.span.start) (hstop : s.stop = b.span.stop) :
    ∃ mid rest, s.slice source = .ofList mid ∧
      ∀ rest', EndsBefore rest rest' → Cuts (mid ++ rest') (us.map Token.word) rest' := by
  obtain ⟨us, rfl⟩ := List.head?_eq_some_iff.mp ha
  obtain ⟨pre, cs, hcs, hseg⟩ := (segmented_of_scan h).behind (by simp)
  obtain ⟨g, mid, rest, b', rfl, hb', hstart', hstop', -, -, hcuts⟩ := hseg.slice hys
  obtain rfl := Option.some.inj (hb.symm.trans hb')
  have hsource : source.toList = (pre ++ g) ++ (mid ++ rest) := by rw [hcs, List.append_assoc]
  refine ⟨mid, rest, slice_eq hsource ?_ ?_, hcuts⟩
  · rw [hstart, hstart', bytes_append]
    simp
  · rw [hstop, hstop', bytes_append]
    simp

end PolicyLang
