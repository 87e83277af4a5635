import PolicyLang.Parser.Basic

/-!
# Reading within a budget

`Reads p follow us a d` describes a parser that is given a budget: `d` is exactly what it needs to
read `us` as `a`. From `d` on it succeeds, before any rest that it cannot take for more of the same;
below `d` it runs out of budget inside of `us`, whatever the rest.
-/

namespace PolicyLang

/-- The first token behind a phrase, if there is one, is of a kind that `follow` allows. -/
def Heads (follow : TokenKind → Prop) (ts : List Token) : Prop := ∀ t ∈ ts.head?, follow t.kind

@[simp] theorem heads_nil (follow : TokenKind → Prop) : Heads follow [] := by simp [Heads]

@[simp] theorem heads_cons (follow : TokenKind → Prop) (t : Token) (ts : List Token) :
    Heads follow (t :: ts) ↔ follow t.kind := by simp [Heads]

theorem Heads.mono {F G : TokenKind → Prop} {ts : List Token} (h : Heads F ts)
    (hFG : ∀ k, F k → G k) : Heads G ts := fun t ht => hFG _ (h t ht)

/-- Behind tokens that are not empty only the first of them matters. -/
theorem heads_append_of_ne_nil {F : TokenKind → Prop} {vs ts us : List Token} (hv : vs ≠ [])
    (h : Heads F (vs ++ ts)) : Heads F (vs ++ us) := by
  cases vs with
  | nil => exact absurd rfl hv
  | cons v vs => simpa using h

namespace Parser

variable {α β : Type}

structure Reads (p : Nat → Parser α) (follow : TokenKind → Prop) (us : List Token) (a : α)
    (d : Nat) : Prop where
  ok : ∀ {n rest}, d ≤ n → Heads follow rest → (p n).run (us ++ rest) = .ok (a, rest)
  tooDeep : ∀ {n} rest, n < d → ∃ r, (p n).run (us ++ rest) = .error ⟨.tooDeep, r⟩

variable {F G : TokenKind → Prop} {us vs : List Token} {a : α} {b : β} {d e : Nat}

theorem Reads.mono {p : Nat → Parser α} (h : Reads p F us a d) (hGF : ∀ k, G k → F k) :
    Reads p G us a d :=
  ⟨fun hn hr => h.ok hn (hr.mono hGF), h.tooDeep⟩

theorem Reads.le_of_run_eq_ok {p : Nat → Parser α} (h : Reads p F us a d) {n : Nat}
    {rest : List Token} {x : α × List Token} (hr : (p n).run (us ++ rest) = .ok x) : d ≤ n := by
  apply Nat.le_of_not_lt
  intro hn
  obtain ⟨r, he⟩ := h.tooDeep rest hn
  rw [he] at hr
  cases hr

theorem Reads.congr {p q : Nat → Parser α} (h : Reads p F us a d)
    (hpq : ∀ n rest, (q n).run (us ++ rest) = (p n).run (us ++ rest)) : Reads q F us a d := by
  refine ⟨fun hn hr => ?_, fun rest hn => ?_⟩
  · rw [hpq]; exact h.ok hn hr
  · rw [hpq]; exact h.tooDeep rest hn

theorem reads_pure (a : α) (F : TokenKind → Prop) : Reads (fun _ => pure a) F [] a 0 :=
  ⟨fun _ _ => rfl, fun _ hn => absurd hn (Nat.not_lt_zero _)⟩

/-- What may stand behind something that `F` may follow: it does not look like more of that, and
where it is empty it costs nothing. -/
structure ReadsAfter (F : TokenKind → Prop) (p : Nat → Parser α) (G : TokenKind → Prop)
    (us : List Token) (a : α) (d : Nat) : Prop extends Reads p G us a d where
  head : ∀ {rest}, Heads G rest → Heads F (us ++ rest)
  free : us = [] → d = 0

theorem Reads.after {p : Nat → Parser α} {t : Token} (h : Reads p G (t :: us) a d)
    (ht : F t.kind) : ReadsAfter F p G (t :: us) a d :=
  ⟨h, fun _ => by simpa using ht, fun h => by cases h⟩

theorem Reads.bind {p : Nat → Parser α} {f : Nat → α → Parser β} (hp : Reads p F us a d)
    (hf : ReadsAfter F (fun n => f n a) G vs b e) :
    Reads (fun n => p n >>= f n) G (us ++ vs) b (max d e) := by
  refine ⟨fun {n rest} hn hr => ?_, fun {n} rest hn => ?_⟩
  · have h₁ := hp.ok (n := n) (by omega) (hf.head hr)
    rw [run_bind, List.append_assoc, h₁]
    exact hf.ok (by omega) hr
  · rw [run_bind, List.append_assoc]
    by_cases hd : n < d
    · obtain ⟨r, he⟩ := hp.tooDeep (vs ++ rest) hd
      rw [he]
      exact ⟨r, rfl⟩
    · have hv : vs ≠ [] := fun hv => by have := hf.free hv; omega
      have hF : Heads F (vs ++ rest) := heads_append_of_ne_nil hv (hf.head (heads_nil G))
      rw [hp.ok (n := n) (by omega) hF]
      exact hf.tooDeep rest (by omega)

theorem ReadsAfter.bind {E : TokenKind → Prop} {p : Nat → Parser α} {f : Nat → α → Parser β}
    (hp : ReadsAfter E p F us a d) (hf : ReadsAfter F (fun n => f n a) G vs b e) :
    ReadsAfter E (fun n => p n >>= f n) G (us ++ vs) b (max d e) := by
  refine ⟨hp.toReads.bind hf, fun hr => ?_, fun h => ?_⟩
  · rw [List.append_assoc]
    exact hp.head (hf.head hr)
  · obtain ⟨hu, hv⟩ := List.append_eq_nil_iff.mp h
    rw [hp.free hu, hf.free hv]
    rfl

theorem Reads.bind_pure {p : Nat → Parser α} {f : Nat → α → Parser β} (hp : Reads p F us a d)
    (hf : ∀ n, f n a = pure b) : Reads (fun n => p n >>= f n) F us b d := by
  have h : Reads (fun n => f n a) F [] b 0 := by
    simp only [hf]
    exact reads_pure b F
  have h' : ReadsAfter F (fun n => f n a) F [] b 0 := ⟨h, fun hr => hr, fun _ => rfl⟩
  simpa using hp.bind h'

theorem ReadsAfter.bind_pure {p : Nat → Parser α} {f : Nat → α → Parser β}
    (hp : ReadsAfter G p F us a d) (hf : ∀ n, f n a = pure b) :
    ReadsAfter G (fun n => p n >>= f n) F us b d :=
  ⟨hp.toReads.bind_pure hf, hp.head, hp.free⟩

theorem Reads.map {p : Nat → Parser α} (hp : Reads p F us a d) (f : α → β) :
    Reads (fun n => f <$> p n) F us (f a) d :=
  hp.bind_pure fun _ => rfl

/-! ## One token, then the rest -/

theorem Reads.next {p : Nat → Parser α} {c : Cause} {read : Nat → Token → Except Cause (Parser α)}
    {t : Token} (hp : Reads p F us a d) (h : ∀ n, read n t = .ok (p n)) :
    Reads (fun n => next c (read n)) F (t :: us) a d := by
  refine ⟨fun {n rest} hn hr => ?_, fun {n} rest hn => ?_⟩
  · rw [List.cons_append, run_next_cons, h]
    exact hp.ok hn hr
  · rw [List.cons_append, run_next_cons, h]
    exact hp.tooDeep rest hn

theorem Reads.expect_bind {k : TokenKind} {c : Cause} {f : Nat → Token → Parser β} {t : Token}
    (hf : Reads (fun n => f n t) F us b d) (ht : t.kind = k) :
    Reads (fun n => expect k c >>= f n) F (t :: us) b d := by
  refine ⟨fun {n rest} hn hr => ?_, fun {n} rest hn => ?_⟩
  · rw [run_bind, List.cons_append, run_expect_cons, if_pos ht]
    exact hf.ok hn hr
  · rw [run_bind, List.cons_append, run_expect_cons, if_pos ht]
    exact hf.tooDeep rest hn

theorem reads_expect_pure {k : TokenKind} {t : Token} (ht : t.kind = k) (c : Cause)
    (g : Token → β) (F : TokenKind → Prop) :
    Reads (fun _ => expect k c >>= fun t => pure (g t)) F [t] (g t) 0 :=
  Reads.expect_bind (f := fun _ t => pure (g t)) (reads_pure (g t) F) ht

theorem Reads.branch_some {p other : Nat → Parser α} {read : Nat → Token → Option (Parser α)}
    {t : Token} (hp : Reads p F us a d) (h : ∀ n, read n t = some (p n)) :
    Reads (fun n => branch (other n) (read n)) F (t :: us) a d := by
  refine ⟨fun {n rest} hn hr => ?_, fun {n} rest hn => ?_⟩
  · rw [List.cons_append, run_branch_cons, h]
    exact hp.ok hn hr
  · rw [List.cons_append, run_branch_cons, h]
    exact hp.tooDeep rest hn

theorem Reads.branch_none {other : Nat → Parser α} {read : Nat → Token → Option (Parser α)}
    {t : Token} (ho : Reads other F (t :: us) a d) (h : ∀ n, read n t = none) :
    Reads (fun n => branch (other n) (read n)) F (t :: us) a d :=
  ho.congr fun n rest => by rw [List.cons_append, run_branch_cons, h]

theorem reads_branch_pure {read : Nat → Token → Option (Parser α)} (a : α)
    (h : ∀ n t, F t.kind → read n t = none) :
    Reads (fun n => branch (pure a) (read n)) F [] a 0 := by
  refine ⟨fun {n rest} _ hr => ?_, fun _ hn => absurd hn (Nat.not_lt_zero _)⟩
  cases rest with
  | nil => rfl
  | cons t ts =>
    rw [List.nil_append, run_branch_cons, h n t (by simpa using hr)]
    rfl

/-! ## Repetition -/

theorem reads_many_nil {read : Nat → Token → Step α} (h : ∀ n t, F t.kind → read n t = .stop) :
    Reads (fun n => many (read n)) F [] [] 0 := by
  refine ⟨fun {n rest} _ hr => ?_, fun _ hn => absurd hn (Nat.not_lt_zero _)⟩
  cases rest with
  | nil => exact run_many_nil _
  | cons t ts => rw [List.nil_append, run_many_cons, h n t (by simpa using hr)]

theorem reads_many_cons {p : Nat → Parser α} {read : Nat → Token → Step α} {t : Token}
    {as : List α} (h : ∀ n, read n t = .item (p n)) (hp : Reads p F us a d)
    (hm : ReadsAfter F (fun n => many (read n)) G vs as e) :
    Reads (fun n => many (read n)) G (t :: (us ++ vs)) (a :: as) (max d e) := by
  have hi := hp.bind (f := fun n a => many (read n) >>= fun as => pure (a :: as))
    (hm.bind_pure fun _ => rfl)
  refine ⟨fun {n rest} hn hr => ?_, fun {n} rest hn => ?_⟩
  · rw [List.cons_append, run_many_cons, h]
    exact hi.ok hn hr
  · rw [List.cons_append, run_many_cons, h]
    exact hi.tooDeep rest hn

/-- An item of a repetition, told by its first token, which may stand behind another item. -/
def ReadsItem (step : Nat → Token → Step α) (F : TokenKind → Prop) (us : List Token) (a : α)
    (d : Nat) : Prop :=
  ∃ t vs p, us = t :: vs ∧ F t.kind ∧ (∀ n, step n t = .item (p n)) ∧ Reads p F vs a d

theorem reads_items_nil {step : Nat → Token → Step α} (hGF : ∀ k, G k → F k)
    (h : ∀ n t, G t.kind → step n t = .stop) :
    ReadsAfter F (fun n => many (step n)) G [] [] 0 :=
  ⟨reads_many_nil h, fun hr => hr.mono hGF, fun _ => rfl⟩

theorem reads_items_cons {step : Nat → Token → Step α} {as : List α}
    (ha : ReadsItem step F us a d) (has : ReadsAfter F (fun n => many (step n)) G vs as e) :
    ReadsAfter F (fun n => many (step n)) G (us ++ vs) (a :: as) (max d e) := by
  obtain ⟨t, ws, p, rfl, ht, hp, hr⟩ := ha
  exact (reads_many_cons hp hr has).after ht

end Parser

end PolicyLang
