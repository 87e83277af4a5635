import Mathlib.Data.List.TakeWhile
import PolicyLang.Program.Parser

/-!
# Token lists and their end marks

A token list is read up to its end mark. A list that lacks one is completed behind its last token.
-/

namespace PolicyLang

/-- Nothing stands behind an end mark. -/
def Sealed (ts : List Token) : Prop :=
  ∀ us e vs, ts = us ++ e :: vs → e.kind = .eof → vs = []

def NoEnd (ts : List Token) : Prop := ∀ t ∈ ts, t.kind ≠ .eof

@[simp] theorem noEnd_nil : NoEnd [] := by simp [NoEnd]

@[simp] theorem noEnd_cons {t : Token} {ts : List Token} :
    NoEnd (t :: ts) ↔ t.kind ≠ .eof ∧ NoEnd ts := by simp [NoEnd]

@[simp] theorem noEnd_append {us vs : List Token} : NoEnd (us ++ vs) ↔ NoEnd us ∧ NoEnd vs := by
  simp only [NoEnd, List.mem_append, or_imp, forall_and]

theorem NoEnd.sealed {ts : List Token} (h : NoEnd ts) : Sealed ts := by
  rintro us e vs rfl he
  exact absurd he (h e (by simp))

theorem NoEnd.sealed_append {us : List Token} (h : NoEnd us) (e : Token) : Sealed (us ++ [e]) := by
  intro ws f vs heq hf
  rcases List.eq_nil_or_concat vs with rfl | ⟨vs, v, rfl⟩
  · rfl
  · -- the last token is `v`, so `f` is one of `us`
    rw [List.concat_eq_append, ← List.cons_append, ← List.append_assoc] at heq
    obtain ⟨rfl, -⟩ := List.append_inj' heq rfl
    exact absurd hf (h f (by simp))

def completed (ts : List Token) : List Token :=
  if ∃ t ∈ ts.getLast?, t.kind = .eof then ts else ts ++ [.eofAfter ts]

theorem Sealed.cases {ts : List Token} (h : Sealed ts) :
    NoEnd ts ∨ ∃ us e, ts = us ++ [e] ∧ NoEnd us ∧ e.kind = .eof := by
  by_cases hn : NoEnd ts
  · exact .inl hn
  · have hd : ts.dropWhile (·.kind != .eof) ≠ [] := by
      intro hd
      rw [List.dropWhile_eq_nil_iff] at hd
      exact hn fun t ht => by simpa using hd t ht
    obtain ⟨e, vs, he⟩ := List.exists_cons_of_ne_nil hd
    have hek : e.kind = .eof := by
      have := List.head_dropWhile_not (fun t : Token => t.kind != .eof) hd
      simpa [he] using this
    have hts : ts = ts.takeWhile (·.kind != .eof) ++ e :: vs := by
      rw [← he, List.takeWhile_append_dropWhile]
    obtain rfl := h _ e vs hts hek
    refine .inr ⟨_, e, hts, fun t ht => ?_, hek⟩
    simpa using List.mem_takeWhile_imp ht

theorem completed_of_noEnd {ts : List Token} (h : NoEnd ts) :
    completed ts = ts ++ [.eofAfter ts] := by
  refine if_neg ?_
  rintro ⟨t, ht, hk⟩
  exact h t (List.mem_of_getLast? ht) hk

theorem completed_append_eof {us : List Token} {e : Token} (he : e.kind = .eof) :
    completed (us ++ [e]) = us ++ [e] :=
  if_pos ⟨e, by simp, he⟩

/-- A sealed list is completed to a body without end marks and one end mark. -/
theorem Sealed.completed_eq {ts : List Token} (h : Sealed ts) :
    ∃ us e, completed ts = us ++ [e] ∧ NoEnd us ∧ e.kind = .eof := by
  rcases h.cases with hn | ⟨us, e, rfl, hu, he⟩
  · exact ⟨ts, _, completed_of_noEnd hn, hn, by unfold Token.eofAfter; split <;> rfl⟩
  · exact ⟨us, e, completed_append_eof he, hu, he⟩

namespace Program

theorem parse_append_eof (n : Nat) {us : List Token} {e : Token} (hu : NoEnd us)
    (he : e.kind = .eof) : parse n (us ++ [e]) = parseBody n us e := by
  have hp : ∀ t ∈ us, (t.kind != .eof) = true := fun t ht => by simpa using hu t ht
  simp [parse, List.takeWhile_append_of_pos hp, List.dropWhile_append_of_pos hp, he]

theorem parse_of_noEnd (n : Nat) {us : List Token} (hu : NoEnd us) :
    parse n us = parseBody n us (.eofAfter us) := by
  have hp : ∀ t ∈ us, (t.kind != .eof) = true := fun t ht => by simpa using hu t ht
  have ht : us.takeWhile (·.kind != .eof) = us := List.takeWhile_eq_self_iff.mpr hp
  have hd : us.dropWhile (·.kind != .eof) = [] := List.dropWhile_eq_nil_iff.mpr hp
  simp only [parse, ht, hd]

theorem parse_eq_parseBody (n : Nat) {ts us : List Token} {e : Token} (h : Sealed ts)
    (hc : completed ts = us ++ [e]) : parse n ts = parseBody n us e := by
  rcases h.cases with hn | ⟨us', e', rfl, hu, he⟩
  · rw [completed_of_noEnd hn] at hc
    obtain ⟨rfl, he⟩ := List.append_inj' hc rfl
    obtain rfl := List.singleton_inj.mp he
    exact parse_of_noEnd n hn
  · rw [completed_append_eof he] at hc
    obtain ⟨rfl, he'⟩ := List.append_inj' hc rfl
    obtain rfl := List.singleton_inj.mp he'
    exact parse_append_eof n hu he

end Program

end PolicyLang
