import PolicyLang.Proofs.Cursor.Productions

/-!
# Runs

A run of a script is a finite tree: it has one operation or one call after another, and each call has a
run of its own. Scripts that go on for ever, and scripts that come to an operation where it is undefined,
have no run.
-/

namespace PolicyLang

open Script

/-- What happens in a run, a cursor that an operation led to or a call that came back. -/
inductive Event : Type 1 where
  | reached (c : Cursor)
  | returned {β : Type} (p : Production β) (before : Cursor) (success : Bool) (after : Cursor)

/-- `Runs s c es r d`: from the cursor `c` the script `s` comes to the result `r` at the cursor `d`, and
`es` is what happens on the way. -/
inductive Runs : {α : Type} → Script α → Cursor → List Event → Except Report α → Cursor → Prop
  | done {α r c} : Runs (done r : Script α) c [] r c
  | perform {α β o next b c c' es r d} : Operation.exec c o = some (b, c') →
      Runs (next b : Script α) c' es r d →
      Runs (perform (β := β) o next) c (.reached c' :: es) r d
  | call {α β p next c c' es r' fs r d} : Runs (Production.body p) c es r' c' →
      Runs (next r' : Script α) c' fs r d →
      Runs (call (β := β) p next) c (es ++ .returned p c r'.isOk c' :: fs) r d

namespace Runs

variable {α β : Type} {s : Script α} {c c' d d' : Cursor} {es es' fs : List Event} {r r' : Except Report α}

/-- A script has at most one run from a cursor. -/
theorem unique (h : Runs s c es r d) (h' : Runs s c es' r' d') : es' = es ∧ r' = r ∧ d' = d := by
  induction h generalizing es' d' with
  | done =>
    cases h'
    exact ⟨rfl, rfl, rfl⟩
  | perform he _ ih =>
    cases h' with
    | perform he' h' =>
      obtain ⟨rfl, rfl⟩ := Prod.mk.inj (Option.some.inj (he.symm.trans he'))
      obtain ⟨rfl, rfl, rfl⟩ := ih h'
      exact ⟨rfl, rfl, rfl⟩
  | call _ _ ih₁ ih₂ =>
    cases h' with
    | call h₁ h₂ =>
      obtain ⟨rfl, rfl, rfl⟩ := ih₁ h₁
      obtain ⟨rfl, rfl, rfl⟩ := ih₂ h₂
      exact ⟨rfl, rfl, rfl⟩

theorem bind {f : α → Script β} {a : α} {r : Except Report β} (h : Runs s c es (.ok a) c')
    (hf : Runs (f a) c' fs r d) : Runs (s >>= f) c (es ++ fs) r d := by
  generalize hr : (Except.ok a : Except Report α) = r' at h
  induction h with
  | done =>
    subst hr
    exact hf
  | perform he _ ih => exact .perform he (ih hf hr)
  | call hp _ _ ih =>
    rw [List.append_assoc, List.cons_append]
    exact .call hp (ih hf hr)

theorem bind_error {f : α → Script β} {e : Report} (h : Runs s c es (.error e) d) :
    Runs (s >>= f) c es (.error e) d := by
  generalize hr : (Except.error e : Except Report α) = r' at h
  induction h with
  | done =>
    subst hr
    exact .done
  | perform he _ ih => exact .perform he (ih hr)
  | call hp _ _ ih => exact .call hp (ih hr)

end Runs

end PolicyLang
