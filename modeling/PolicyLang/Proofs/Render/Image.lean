import PolicyLang.Proofs.Render.RoundTrip

/-!
# The image of the reader

Which trees are read from some source, places apart: the well-formed ones. Each of them has its
canonical text, and nothing else is ever read.
-/

namespace PolicyLang

/-! ## Places do not matter -/

section
variable (f : Span → Span)

namespace Expr

theorem isCallee_mapSpans (e : Expr) : (e.mapSpans f).IsCallee ↔ e.IsCallee := by
  cases e <;> rfl

theorem isObject_mapSpans (e : Expr) : (e.mapSpans f).IsObject ↔ e.IsObject := by
  cases e <;> rfl

mutual

theorem wellFormed_mapSpans : ∀ e : Expr, (e.mapSpans f).WellFormed ↔ e.WellFormed
  | literal v s => .rfl
  | ident n s => .rfl
  | attr e n s => by
    simp only [mapSpans, WellFormed, wellFormed_mapSpans e, isObject_mapSpans]
  | call e as s => by
    simp only [mapSpans, WellFormed, wellFormed_mapSpans e, isCallee_mapSpans,
      allWellFormed_mapSpansAll as]
  | negate e s => wellFormed_mapSpans e
  | binary o e₁ e₂ s => and_congr (wellFormed_mapSpans e₁) (wellFormed_mapSpans e₂)

theorem allWellFormed_mapSpansAll :
    ∀ es : List Expr, AllWellFormed (mapSpansAll f es) ↔ AllWellFormed es
  | [] => .rfl
  | e :: es => and_congr (wellFormed_mapSpans e) (allWellFormed_mapSpansAll es)

end

end Expr

theorem Action.wellFormed_mapSpans (a : Action) : (a.mapSpans f).WellFormed ↔ a.WellFormed := by
  obtain ⟨v, s⟩ := a
  cases v <;> rfl

theorem Clause.wellFormed_mapSpans (c : Clause) : (c.mapSpans f).WellFormed ↔ c.WellFormed := by
  cases c with
  | priority p => rfl
  | guard g => exact and_congr (g.condition.wellFormed_mapSpans f) (g.action.wellFormed_mapSpans f)
  | action a => exact a.wellFormed_mapSpans f

theorem Rule.wellFormed_mapSpans (r : Rule) : (r.mapSpans f).WellFormed ↔ r.WellFormed := by
  simp only [mapSpans, WellFormed, List.forall_mem_map, Clause.wellFormed_mapSpans]

theorem PolicyItem.wellFormed_mapSpans (i : PolicyItem) :
    (i.mapSpans f).WellFormed ↔ i.WellFormed := by
  cases i with
  | ref r => rfl
  | rule r => exact r.wellFormed_mapSpans f
  | clause c => exact c.wellFormed_mapSpans f

theorem Statement.wellFormed_mapSpans (s : Statement) : (s.mapSpans f).WellFormed ↔ s.WellFormed := by
  cases s with
  | policy p =>
    simp only [mapSpans, WellFormed, Policy.mapSpans, Policy.WellFormed, List.forall_mem_map,
      PolicyItem.wellFormed_mapSpans]
  | rule r => exact r.wellFormed_mapSpans f
  | imports i => rfl

theorem Program.wellFormed_mapSpans (p : Program) : (p.mapSpans f).WellFormed ↔ p.WellFormed := by
  simp only [mapSpans, WellFormed, List.forall_mem_map, Statement.wellFormed_mapSpans]

end

theorem Program.wellFormed_iff_of_erase_eq {p q : Program} (h : p.erase = q.erase) :
    p.WellFormed ↔ q.WellFormed := by
  rw [← p.wellFormed_mapSpans fun _ => {}, ← q.wellFormed_mapSpans fun _ => {}]
  exact iff_of_eq (congrArg WellFormed h)

/-! ## Trees with a source -/

/-- **Image.** A tree is what some source is read as by some limit, apart from the places, if and only
if it is well-formed. -/
theorem exists_parse_iff_wellFormed (t : Program) :
    (∃ source limit ts p, tokenize source = .ok ts ∧ Program.parse limit ts = .ok p ∧
      p.erase = t.erase) ↔ t.WellFormed := by
  constructor
  · rintro ⟨source, limit, ts, p, hts, hp, heq⟩
    exact (Program.wellFormed_iff_of_erase_eq heq).mp (Program.wellFormed_of_parse hts hp)
  · intro ht
    obtain ⟨us, e, hts, hw, hus, he⟩ := Program.exists_tokenize_render ht
    obtain ⟨p, hp, heq⟩ := Program.parse_eq_ok_of_words ht hw hus he (Nat.le_refl t.need)
    exact ⟨t.render, t.need, us ++ [e], p, hts, hp, heq⟩

end PolicyLang
