import PolicyLang.Proofs.Grammar.Viability
import PolicyLang.Proofs.Program.Places

/-!
# Errors stand at the first wrong token

The token that a syntax error blames is the first one with which the input cannot be read: what
stands before it can be continued, and with it nothing can, whatever the budget.
-/

namespace PolicyLang

open PolicyLang.Parser

theorem noEnd_of_words {us vs : List Token} (h : us.map Token.word = vs.map Token.word)
    (hv : NoEnd vs) : NoEnd us := by
  intro t ht
  obtain ⟨v, hv', hw⟩ := List.mem_map.mp (h ▸ List.mem_map_of_mem (f := Token.word) ht)
  have hk : v.kind = t.kind := congrArg Prod.fst hw
  exact hk ▸ hv v hv'

namespace Pairing

/-- Two lists that begin with the same words and go on with `xs` and `ys`. -/
def words (xs ys : List Token) : Pairing where
  left _ := {}
  right _ := {}
  join _ _ := rfl
  slack := True
  leftRest := xs
  rightRest := ys

theorem forall₂_same_words {xs ys us vs : List Token} (h : us.map Token.word = vs.map Token.word) :
    List.Forall₂ (words xs ys).Same us vs := by
  have hbare := Parser.map_mapSpan_eq_of_words h
  rw [← List.forall₂_eq_eq_eq, List.forall₂_map_left_iff, List.forall₂_map_right_iff] at hbare
  exact hbare

end Pairing

namespace Parser

theorem run_document_eq_error_of_le {n m : Nat} {ts : List Token} {f : Failure} (hnm : n ≤ m)
    (h : (document n).run ts = .error f) (hf : f.cause ≠ .tooDeep) :
    (document m).run ts = .error f := by
  rcases run_document_of_le hnm ts with ⟨r, hr⟩ | hrun
  · obtain rfl : f = ⟨.tooDeep, r⟩ := Except.error.inj (h.symm.trans hr)
    exact absurd rfl hf
  · rw [hrun, h]

/-- Where one list is refused, no other list is accepted that has the same words up to there. -/
theorem run_document_ne_ok {n m : Nat} {us vs xs ys : List Token} {f : Failure}
    (h : (document n).run (us ++ xs) = .error f) (hf : f.cause ≠ .tooDeep)
    (hw : vs.map Token.word = us.map Token.word) (hr : xs = [] ∧ ys = [] ∨ ¬ f.rest <:+ xs)
    (x : List Statement × List Token) : (document m).run (vs ++ ys) ≠ .ok x := by
  intro hx
  have h := run_document_eq_error_of_le (Nat.le_max_left n m) h hf
  have hall := Pairing.lockstep_document (P := .words ys xs) (.inr ⟨trivial, Nat.le_max_right n m⟩)
    (Pairing.forall₂_same_words hw)
  simp only [Pairing.words] at hall
  rw [hx, h] at hall
  obtain ⟨ho, hs⟩ := hall.not_ok_of_error
  rcases hr with ⟨rfl, rfl⟩ | hr
  · rcases ho with ho | ho <;> exact absurd rfl ho
  · exact hr hs

end Parser

namespace Program

theorem takeWhile_of_noEnd {us vs : List Token} (h : NoEnd us) :
    (us ++ vs).takeWhile (·.kind != .eof) = us ++ vs.takeWhile (·.kind != .eof) :=
  List.takeWhile_append_of_pos fun t ht => by simpa using h t ht

theorem parse_ne_ok_of_word {n m : Nat} {us xs fs gs : List Token} {t : Token} {c : Cause}
    (h : (document n).run (us ++ t :: xs) = .error ⟨c, t :: xs⟩) (hc : c ≠ .tooDeep)
    (hend : NoEnd (us ++ [t])) (hw : fs.map Token.word = (us ++ [t]).map Token.word)
    (p : Program) : parse m (fs ++ gs) ≠ .ok p := by
  intro hp
  have hd := run_document_of_parse_eq_ok hp
  rw [takeWhile_of_noEnd (noEnd_of_words hw hend)] at hd
  have hs : ¬ t :: xs <:+ xs := fun hs => by
    have := hs.length_le
    rw [List.length_cons] at this
    omega
  rw [List.append_cons] at h
  exact run_document_ne_ok h hc hw (.inr hs) _ hd

theorem parse_ne_ok_of_end {n m : Nat} {us fs gs : List Token} {e : Token} {c : Cause}
    (h : (document n).run us = .error ⟨c, []⟩) (hc : c ≠ .tooDeep) (hend : NoEnd us)
    (he : e.kind = .eof) (hw : fs.map Token.word = (us ++ [e]).map Token.word) (p : Program) :
    parse m (fs ++ gs) ≠ .ok p := by
  intro hp
  rw [List.map_append] at hw
  obtain ⟨fs, es, rfl, hwf, hwe⟩ := List.map_eq_append_iff.mp hw
  obtain ⟨e', rfl, he'⟩ := List.map_eq_singleton_iff.mp hwe
  have hd := run_document_of_parse_eq_ok hp
  have he' : e'.kind = .eof := (congrArg Prod.fst he').trans he
  rw [List.append_assoc, takeWhile_of_noEnd (noEnd_of_words hwf hend)] at hd
  rw [← List.append_nil us] at h
  exact run_document_ne_ok h hc hwf (.inl ⟨rfl, by simp [he']⟩) _ hd

/-- The tokens before the place of an error can be continued within the same limit. -/
theorem exists_parse_of_error {limit : Nat} {vs rest : List Token} {c : Cause}
    (h : (document limit).run (vs ++ rest) = .error ⟨c, rest⟩) (hc : c ≠ .tooDeep)
    (hvs : NoEnd vs) : ∃ w p, NoEnd w ∧ parse limit (vs ++ w) = .ok p := by
  obtain ⟨w, ss, d, hw, hd, hr⟩ := Grammar.mendable_document limit h hc
  have hok := hr.ok hd (heads_nil fun _ => False)
  rw [List.append_nil] at hok
  refine ⟨w, ⟨ss, ⟨1, 1, 0, (Token.eofAfter (vs ++ w)).span.stop⟩⟩, hw, ?_⟩
  rw [parse_of_noEnd limit (noEnd_append.mpr ⟨hvs, hw⟩), parseBody_eq_ok_iff]
  exact ⟨hok, rfl⟩

/-- **First error.** An error that is not about nesting blames a token of the completed list. The
tokens before it can be continued to a program within the same limit, and no list that has the same
words up to it, the word of this token included, is accepted by any limit. -/
theorem parse_error_at_first {limit : Nat} {ts : List Token} {err : SyntaxError} (hts : Sealed ts)
    (h : parse limit ts = .error err)
    (hm : err.cause.message ≠ "expression is nested too deeply") :
    ∃ i t, (completed ts)[i]? = some t ∧ err.found = t.kind ∧ err.text = t.text ∧
      err.line = t.span.line ∧ err.column = t.span.column ∧
      (∃ w p, NoEnd w ∧ parse limit ((completed ts).take i ++ w) = .ok p) ∧
      ∀ us n p, (us.take (i + 1)).map Token.word = ((completed ts).take (i + 1)).map Token.word →
        parse n us ≠ .ok p := by
  obtain ⟨us, e, hcomp, hus, he⟩ := hts.completed_eq
  rw [parse_eq_parseBody limit hts hcomp] at h
  unfold parseBody at h
  split at h
  · cases h
  rename_i f hrun
  obtain ⟨c, rest⟩ := f
  obtain ⟨vs, rfl⟩ : ∃ vs, vs ++ rest = us := (document limit).suffix_of_error hrun
  cases h
  have hc : c ≠ .tooDeep := by
    intro heq
    subst heq
    exact hm rfl
  obtain ⟨hvs, hrest⟩ := noEnd_append.mp hus
  have hviable : ∃ w p, NoEnd w ∧ parse limit ((completed ts).take vs.length ++ w) = .ok p := by
    rw [hcomp, List.append_assoc, List.take_left]
    exact exists_parse_of_error hrun hc hvs
  -- the error blames the end mark if all tokens were read, and the next token otherwise
  cases rest with
  | nil =>
    rw [List.append_nil] at hcomp hrun hus
    refine ⟨vs.length, e, by simp [hcomp], rfl, rfl, rfl, rfl, hviable, fun us' n p hw => ?_⟩
    have hall : (completed ts).take (vs.length + 1) = vs ++ [e] := by
      rw [hcomp]
      exact List.take_of_length_le (by simp)
    rw [hall] at hw
    rw [← List.take_append_drop (vs.length + 1) us']
    exact parse_ne_ok_of_end hrun hc hus he hw p
  | cons t xs =>
    refine ⟨vs.length, t, by simp [hcomp], rfl, rfl, rfl, rfl, hviable, fun us' n p hw => ?_⟩
    have hfront : (completed ts).take (vs.length + 1) = vs ++ [t] := by
      rw [hcomp, List.append_cons vs, List.append_assoc]
      exact List.take_left' (by simp)
    rw [hfront] at hw
    have hend : NoEnd (vs ++ [t]) := noEnd_append.mpr ⟨hvs, by simpa using (noEnd_cons.mp hrest).1⟩
    rw [← List.take_append_drop (vs.length + 1) us']
    exact parse_ne_ok_of_word hrun hc hend hw p

/-- A policy without a name: `policy` alone can be continued, `policy :` cannot. -/
theorem parse_error_at_colon :
    Sealed [⟨.kwPolicy, "policy", {}⟩, ⟨.colon, ":", {}⟩] ∧
      parse 0 [⟨.kwPolicy, "policy", {}⟩, ⟨.colon, ":", {}⟩] =
        .error (Cause.policyName.at ⟨.colon, ":", {}⟩) ∧
      Cause.policyName.message ≠ "expression is nested too deeply" ∧
      ∃ i t, (completed [⟨.kwPolicy, "policy", {}⟩, ⟨.colon, ":", {}⟩])[i]? = some t ∧
        t.kind = .colon ∧
        ∃ w p, parse 0 ((completed [⟨.kwPolicy, "policy", {}⟩, ⟨.colon, ":", {}⟩]).take i ++ w) =
          .ok p := by
  have hts : Sealed [⟨.kwPolicy, "policy", {}⟩, ⟨.colon, ":", {}⟩] := NoEnd.sealed (by simp)
  have herr : parse 0 [⟨.kwPolicy, "policy", {}⟩, ⟨.colon, ":", {}⟩] =
      .error (Cause.policyName.at ⟨.colon, ":", {}⟩) := by decide +kernel
  have hm : Cause.policyName.message ≠ "expression is nested too deeply" := by decide
  obtain ⟨i, t, hi, hk, _, _, _, ⟨w, p, _, hp⟩, _⟩ := parse_error_at_first hts herr hm
  exact ⟨hts, herr, hm, i, t, hi, hk.symm, w, p, hp⟩

end Program

end PolicyLang
