import PolicyLang.Proofs.Grammar.Acceptance
import PolicyLang.Proofs.Parser.Agreement

/-!
# What reading does not depend on

A document is read the same by every limit that is large enough to read it at all. Where its tokens
stand changes nothing but the places in the result: moving them moves the spans of the tree and the
place of an error, and forgetting them forgets these.
-/

namespace PolicyLang

namespace Pairing

/-- A list, and the same list with its spans changed by `f`. -/
def moved (f : Span → Span) (hf : ∀ s t, f (s.to t) = (f s).to (f t)) (slack : Prop) : Pairing where
  left := f
  right := id
  join {s t s' t'} h h' := by
    rw [hf, h, h']
    rfl
  slack := slack
  leftRest := []
  rightRest := []

variable {f : Span → Span} {hf : ∀ s t, f (s.to t) = (f s).to (f t)} {slack : Prop}

theorem not_open_moved : ¬ (moved f hf slack).Open := by
  rintro (h | h) <;> exact h rfl

theorem forall₂_same_moved {us vs : List Token} :
    List.Forall₂ (moved f hf slack).Same us vs ↔ us.map (Token.mapSpan f) = vs := by
  rw [← List.forall₂_eq_eq_eq, List.forall₂_map_left_iff]
  rfl

theorem SameTree.map_moved {ss ss' : List Statement}
    (h : List.Forall₂ ((moved f hf slack).SameTree Statement.mapSpans) ss ss') :
    ss.map (Statement.mapSpans f) = ss' := by
  have hid : ss'.map (Statement.mapSpans id) = ss' := by
    rw [List.map_congr_left fun s _ => Statement.mapSpans_id s, List.map_id']
  exact (SameTree.map h).trans hid

end Pairing

namespace Parser

/-! ## Places -/

/-- What came of reading a document, with all spans changed by `f`. -/
def mapSpansRun (f : Span → Span) :
    Except Failure (List Statement × List Token) → Except Failure (List Statement × List Token)
  | .ok (ss, rest) => .ok (ss.map (Statement.mapSpans f), rest.map (Token.mapSpan f))
  | .error e => .error ⟨e.cause, e.rest.map (Token.mapSpan f)⟩

theorem mapSpansRun_id (o : Except Failure (List Statement × List Token)) : mapSpansRun id o = o := by
  have hrest (rest : List Token) : rest.map (Token.mapSpan id) = rest := List.map_id' rest
  cases o with
  | ok x =>
    obtain ⟨ss, rest⟩ := x
    rw [mapSpansRun, hrest, List.map_congr_left fun s _ => Statement.mapSpans_id s, List.map_id']
  | error e => rw [mapSpansRun, hrest]

section
variable {f : Span → Span} (hf : ∀ s t, f (s.to t) = (f s).to (f t)) {n m : Nat}
include hf

/-- Both readings go the same way, until the smaller limit is used up. -/
theorem run_document_moved {slack : Prop} (h : n = m ∨ slack ∧ n ≤ m) (ts : List Token) :
    (slack ∧ ∃ r, (document n).run ts = .error ⟨.tooDeep, r⟩) ∨
      (document m).run (ts.map (Token.mapSpan f)) = mapSpansRun f ((document n).run ts) := by
  have hall := Pairing.lockstep_document (P := .moved f hf slack) h
    (Pairing.forall₂_same_moved.mpr (Eq.refl (ts.map (Token.mapSpan f))))
  simp only [show (Pairing.moved f hf slack).leftRest = [] from rfl,
    show (Pairing.moved f hf slack).rightRest = [] from rfl, List.append_nil] at hall
  generalize (document n).run ts = o at *
  generalize (document m).run (ts.map (Token.mapSpan f)) = o' at *
  cases hall with
  | deep hs => exact .inl ⟨hs, _, rfl⟩
  | ok hss hr =>
    obtain rfl := Pairing.SameTree.map_moved hss
    obtain rfl := Pairing.forall₂_same_moved.mp hr
    exact .inr (by simp [mapSpansRun, Pairing.moved])
  | error hr =>
    obtain rfl := Pairing.forall₂_same_moved.mp hr
    exact .inr (by simp [mapSpansRun, Pairing.moved])
  | past ho => exact absurd ho Pairing.not_open_moved

theorem run_document_mapSpan (n : Nat) (ts : List Token) :
    (document n).run (ts.map (Token.mapSpan f)) = mapSpansRun f ((document n).run ts) := by
  have h : False ∧ _ ∨ _ := run_document_moved hf (.inl (Eq.refl n)) ts
  exact h.resolve_left fun h => h.1

end

/-! ## Limits -/

/-- A larger limit changes nothing, unless the smaller one is used up. -/
theorem run_document_of_le {n m : Nat} (hnm : n ≤ m) (ts : List Token) :
    (∃ r, (document n).run ts = .error ⟨.tooDeep, r⟩) ∨
      (document m).run ts = (document n).run ts := by
  have h := run_document_moved (f := id) (fun _ _ => rfl) (.inr ⟨trivial, hnm⟩) ts
  rw [mapSpansRun_id, show ts.map (Token.mapSpan id) = ts from List.map_id' ts] at h
  exact h.imp_left fun h => h.2

/-! ## Words -/

theorem map_mapSpan_eq_of_words {us vs : List Token} (h : us.map Token.word = vs.map Token.word) :
    us.map (Token.mapSpan fun _ => {}) = vs.map (Token.mapSpan fun _ => {}) := by
  have hbare (ts : List Token) : ts.map (Token.mapSpan fun _ => {}) =
      (ts.map Token.word).map fun w => Token.bare w.1 w.2 := by
    rw [List.map_map]
    rfl
  rw [hbare, hbare, h]

theorem run_document_words (n : Nat) {us vs : List Token}
    (h : us.map Token.word = vs.map Token.word) :
    mapSpansRun (fun _ => {}) ((document n).run us) =
      mapSpansRun (fun _ => {}) ((document n).run vs) := by
  rw [← run_document_mapSpan (fun _ _ => rfl), ← run_document_mapSpan (fun _ _ => rfl),
    map_mapSpan_eq_of_words h]

end Parser

/-- With the same words, the same one of them comes next, or the end of both lists. -/
theorem head?_getD_of_words {us vs : List Token}
    (h : us.map (Token.mapSpan fun _ => {}) = vs.map (Token.mapSpan fun _ => {})) (e e' : Token) :
    (us.head?.getD e).word = (vs.head?.getD e').word ∨ us.head?.getD e = e ∧ vs.head?.getD e' = e' := by
  cases us with
  | nil =>
    obtain rfl := List.map_eq_nil_iff.mp h.symm
    exact .inr ⟨rfl, rfl⟩
  | cons u us =>
    obtain ⟨v, vs, rfl, hv, -⟩ := List.map_eq_cons_iff.mp h.symm
    exact .inl (congrArg Token.word hv).symm

namespace Program

/-- With the same words, the same program apart from the places, or the same complaint about the
same word or about the end marks. -/
theorem parseBody_of_words (n : Nat) {us vs : List Token} (h : us.map Token.word = vs.map Token.word)
    (e e' : Token) :
    (∃ p q, parseBody n us e = .ok p ∧ parseBody n vs e' = .ok q ∧ p.erase = q.erase) ∨
      ∃ (c : Cause) (t t' : Token), parseBody n us e = .error (c.at t) ∧
        parseBody n vs e' = .error (c.at t') ∧ (t.word = t'.word ∨ t = e ∧ t' = e') := by
  have hrun := Parser.run_document_words n h
  unfold parseBody
  cases hu : (Parser.document n).run us with
  | ok x =>
    rw [hu] at hrun
    cases hv : (Parser.document n).run vs with
    | ok y =>
      rw [hv] at hrun
      injection hrun with hrun
      injection hrun with hss
      exact .inl ⟨_, _, rfl, rfl, by simp only [erase, mapSpans, hss]⟩
    | error f => rw [hv] at hrun; cases hrun
  | error f =>
    rw [hu] at hrun
    cases hv : (Parser.document n).run vs with
    | ok y => rw [hv] at hrun; cases hrun
    | error g =>
      rw [hv] at hrun
      injection hrun with hrun
      injection hrun with hc hrest
      refine .inr ⟨f.cause, _, _, rfl, ?_, head?_getD_of_words hrest e e'⟩
      rw [hc]

theorem parseBody_words (n : Nat) {us vs : List Token} {e e' : Token}
    (h : us.map Token.word = vs.map Token.word) (he : e.word = e'.word) :
    (∃ p q, parseBody n us e = .ok p ∧ parseBody n vs e' = .ok q ∧ p.erase = q.erase) ∨
      ∃ (c : Cause) (t t' : Token), parseBody n us e = .error (c.at t) ∧
        parseBody n vs e' = .error (c.at t') ∧ t.word = t'.word := by
  refine (parseBody_of_words n h e e').imp_right ?_
  rintro ⟨c, t, t', ht, ht', hw | ⟨rfl, rfl⟩⟩
  · exact ⟨c, t, t', ht, ht', hw⟩
  · exact ⟨c, t, t', ht, ht', he⟩

end Program

end PolicyLang
