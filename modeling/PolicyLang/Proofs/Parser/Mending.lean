import PolicyLang.Proofs.Parser.Budget
import PolicyLang.Proofs.Parser.Success
import PolicyLang.Proofs.Program.EndMark

/-!
# Mending a failed run

A parser is mendable if the tokens before the place where it stopped, for another reason than its
budget, are viable: some tokens can be put behind them that let it succeed within the same budget.
In a sequence the first part must be steady, so that what it read is read again before other rests.
-/

namespace PolicyLang.Parser

variable {α β : Type} {E F G : TokenKind → Prop} {n : Nat} {us : List Token}

/-- Some continuation of `us` is read within the budget `n`. -/
def Viable (E : TokenKind → Prop) (p : Nat → Parser α) (F : TokenKind → Prop) (n : Nat)
    (us : List Token) : Prop :=
  ∃ w a d, NoEnd w ∧ d ≤ n ∧ ReadsAfter E p F (us ++ w) a d

def Mendable (E : TokenKind → Prop) (p : Nat → Parser α) (F : TokenKind → Prop) (n : Nat) : Prop :=
  ∀ ⦃us rest c⦄, (p n).run (us ++ rest) = .error ⟨c, rest⟩ → c ≠ .tooDeep → Viable E p F n us

/-- What was read once can be read again, before any rest that `F` allows. -/
def Steady (E : TokenKind → Prop) (p : Nat → Parser α) (F : TokenKind → Prop) (n : Nat) : Prop :=
  ∀ ⦃us rest a⦄, (p n).run (us ++ rest) = .ok (a, rest) → ∃ d ≤ n, ReadsAfter E p F us a d

abbrev Anything : TokenKind → Prop := fun _ => True

theorem Reads.anything {p : Nat → Parser α} {a : α} {d : Nat} (h : Reads p F us a d)
    (hd : us = [] → d = 0) : ReadsAfter Anything p F us a d :=
  ⟨h, fun _ _ _ => trivial, hd⟩

theorem steady_of_sound {p : Nat → Parser α} {D : List Token → α → Prop} (hs : Sound (p n) D)
    (hr : ∀ us a, D us a → ∃ d, ReadsAfter E p F us a d) : Steady E p F n := by
  intro us rest a h
  obtain ⟨vs, hvs, hD⟩ := hs h
  obtain rfl := List.append_cancel_right hvs
  obtain ⟨d, hd⟩ := hr us a hD
  exact ⟨d, hd.le_of_run_eq_ok h, hd⟩

theorem steady_of_reads {p : Nat → Parser α} {D : List Token → α → Prop} (hs : Sound (p n) D)
    (hr : ∀ us a, D us a → ∃ d ≤ us.length, Reads p F us a d) : Steady Anything p F n := by
  apply steady_of_sound hs
  intro us a hD
  obtain ⟨d, hd, h⟩ := hr us a hD
  exact ⟨d, h.anything fun hus => by simpa [hus] using hd⟩

theorem steady_of_readsAfter {p : Nat → Parser α} {D : List Token → α → Prop} (hs : Sound (p n) D)
    (hr : ∀ us a, D us a → ∃ d ≤ us.length, ReadsAfter E p F us a d) : Steady E p F n :=
  steady_of_sound hs fun us a hD => by
    obtain ⟨d, -, h⟩ := hr us a hD
    exact ⟨d, h⟩

theorem Viable.nil {p : Nat → Parser α} {a : α} (h : ReadsAfter E p F [] a 0) :
    Viable E p F n [] :=
  ⟨[], a, 0, noEnd_nil, Nat.zero_le _, h⟩

theorem Viable.of_reads {p : Nat → Parser α} {w : List Token} {a : α} (hw : NoEnd w)
    (h : Reads p F w a 0) : Viable Anything p F n [] :=
  ⟨w, a, 0, hw, Nat.zero_le _, h.anything fun _ => rfl⟩

theorem Viable.anything {p : Nat → Parser α} (h : Viable E p F n us) : Viable Anything p F n us := by
  obtain ⟨w, a, d, hw, hd, hr⟩ := h
  exact ⟨w, a, d, hw, hd, hr.toReads.anything hr.free⟩

theorem Mendable.anything {p : Nat → Parser α} (h : Mendable E p F n) : Mendable Anything p F n :=
  fun _ _ _ hr hc => (h hr hc).anything

/-! ## Where a run stops -/

/-- A failed run stopped behind the part that the first parser read, or inside of it. -/
theorem run_bind_eq_error {p : Parser α} {f : α → Parser β} {us rest : List Token} {c : Cause}
    (h : (p >>= f).run (us ++ rest) = .error ⟨c, rest⟩) :
    p.run (us ++ rest) = .error ⟨c, rest⟩ ∨ ∃ vs ws a, us = vs ++ ws ∧
      p.run (vs ++ (ws ++ rest)) = .ok (a, ws ++ rest) ∧
      (f a).run (ws ++ rest) = .error ⟨c, rest⟩ := by
  rw [run_bind] at h
  cases hp : p.run (us ++ rest) with
  | error e =>
    rw [hp] at h
    injection h with h
    exact .inl (congrArg Except.error h)
  | ok x =>
    obtain ⟨a, mid⟩ := x
    rw [hp] at h
    obtain ⟨ws, rfl⟩ := (f a).suffix_of_error h
    obtain ⟨vs, hvs⟩ := p.suffix_of_ok hp
    rw [← List.append_assoc] at hvs
    obtain rfl := List.append_cancel_right hvs
    exact .inr ⟨vs, ws, a, rfl, by rwa [← List.append_assoc], h⟩

theorem cons_append_ne {t : Token} {us rest : List Token} : t :: (us ++ rest) ≠ rest := by
  intro h
  have := congrArg List.length h
  simp at this
  omega

theorem Mendable.mono {p : Nat → Parser α} (h : Mendable E p F n) (hGF : ∀ k, G k → F k) :
    Mendable E p G n := by
  intro us rest c hr hc
  obtain ⟨w, a, d, hw, hd, hra⟩ := h hr hc
  exact ⟨w, a, d, hw, hd, hra.toReads.mono hGF, fun hg => hra.head (hg.mono hGF), hra.free⟩

/-! ## Sequence -/

theorem mendable_pure (a : α) : Mendable E (fun _ => pure a) F n := by
  intro us rest c h
  cases h

theorem mendable_tooDeep {p : Nat → Parser α} (h : p n = fail .tooDeep) : Mendable E p F n := by
  intro us rest c hr hc
  rw [h] at hr
  injection hr with hr
  injection hr with hr
  exact absurd hr.symm hc

theorem Mendable.bind {p : Nat → Parser α} {f : Nat → α → Parser β} (hp : Mendable E p F n)
    (hst : Steady E p F n) (hf : ∀ a, Mendable F (fun n => f n a) G n)
    (hs : ∀ a, Viable F (fun n => f n a) G n []) : Mendable E (fun n => p n >>= f n) G n := by
  intro us rest c h hc
  rcases run_bind_eq_error h with hr | ⟨vs, ws, a, rfl, hr, hr'⟩
  · obtain ⟨w, a, d, hw, hd, hra⟩ := hp hr hc
    obtain ⟨w', b, d', hw', hd', hrb⟩ := hs a
    refine ⟨w ++ w', b, max d d', noEnd_append.mpr ⟨hw, hw'⟩, Nat.max_le.mpr ⟨hd, hd'⟩, ?_⟩
    rw [← List.append_assoc]
    exact hra.bind hrb
  · obtain ⟨d, hd, hra⟩ := hst hr
    obtain ⟨w, b, d', hw, hd', hrb⟩ := hf a hr' hc
    refine ⟨w, b, max d d', hw, Nat.max_le.mpr ⟨hd, hd'⟩, ?_⟩
    rw [List.append_assoc]
    exact hra.bind hrb

theorem Mendable.bind_pure {p : Nat → Parser α} {f : Nat → α → Parser β} {g : α → β}
    (hp : Mendable E p F n) (hf : ∀ n a, f n a = pure (g a)) :
    Mendable E (fun n => p n >>= f n) F n := by
  intro us rest c h hc
  rcases run_bind_eq_error h with hr | ⟨vs, ws, a, rfl, hr, hr'⟩
  · obtain ⟨w, a, d, hw, hd, hra⟩ := hp hr hc
    exact ⟨w, g a, d, hw, hd, hra.bind_pure fun n => hf n a⟩
  · rw [hf] at hr'
    cases hr'

theorem Mendable.map {p : Nat → Parser α} (hp : Mendable E p F n) (f : α → β) :
    Mendable E (fun n => f <$> p n) F n :=
  hp.bind_pure fun _ _ => rfl

/-! ## Single tokens -/

/-- A parser that stops at nothing but its first token. -/
theorem mendable_of_stops {p : Nat → Parser α} (hs : Viable E p F n [])
    (h : ∀ us rest c, (p n).run (us ++ rest) = .error ⟨c, rest⟩ → us = []) : Mendable E p F n := by
  intro us rest c hr _
  obtain rfl := h us rest c hr
  exact hs

theorem eq_nil_of_run_refuse_bind {bad : TokenKind → Bool} {b : β} {us rest : List Token} {c d : Cause}
    (h : (refuse bad c >>= fun _ => pure b).run (us ++ rest) = .error ⟨d, rest⟩) : us = [] := by
  cases us with
  | nil => rfl
  | cons t us =>
    rw [run_bind, List.cons_append, run_refuse_cons] at h
    by_cases ht : bad t.kind = true
    · rw [if_pos ht] at h
      injection h with h
      injection h with _ h
      exact absurd h cons_append_ne
    · rw [if_neg ht] at h
      cases h

theorem Mendable.next {c : Cause} {read : Nat → Token → Except Cause (Parser α)}
    (hs : Viable E (fun n => next c (read n)) F n [])
    (h : ∀ t q, read n t = .ok q → ∃ p, (∀ m, read m t = .ok (p m)) ∧ E t.kind ∧
      Mendable Anything p F n) : Mendable E (fun n => next c (read n)) F n := by
  intro us rest d hr hd
  cases us with
  | nil => exact hs
  | cons t us =>
    rw [List.cons_append, run_next_cons] at hr
    cases hq : read n t with
    | error e =>
      rw [hq] at hr
      injection hr with hr
      injection hr with _ hr
      exact absurd hr cons_append_ne
    | ok q =>
      obtain ⟨p, hp, ht, hm⟩ := h t q hq
      rw [hp] at hr
      obtain ⟨w, a, e, hw, he, hra⟩ := hm hr hd
      exact ⟨w, a, e, hw, he, (hra.toReads.next hp).after ht⟩

theorem Viable.expect_bind {k : TokenKind} {c : Cause} {f : Nat → Token → Parser β}
    (hf : ∀ t, Viable Anything (fun n => f n t) G n []) (hk : k ≠ .eof) (hE : E k) :
    Viable E (fun n => expect k c >>= f n) G n [] := by
  obtain ⟨w, b, d, hw, hd, hr⟩ := hf ⟨k, "", {}⟩
  exact ⟨⟨k, "", {}⟩ :: w, b, d, by simp [hk, hw], hd, (hr.toReads.expect_bind rfl).after hE⟩

theorem viable_expect_pure {k : TokenKind} (c : Cause) (g : Token → β) (hk : k ≠ .eof)
    (hE : E k) : Viable E (fun _ => expect k c >>= fun t => pure (g t)) F n [] :=
  .expect_bind (f := fun _ t => pure (g t))
    (fun _ => .nil ((reads_pure _ F).anything fun _ => rfl)) hk hE

theorem Mendable.expect_bind {k : TokenKind} {c : Cause} {f : Nat → Token → Parser β}
    (hf : ∀ t, Mendable Anything (fun n => f n t) G n)
    (hs : ∀ t, Viable Anything (fun n => f n t) G n []) (hk : k ≠ .eof) (hE : E k) :
    Mendable E (fun n => expect k c >>= f n) G n := by
  intro us rest d hr hd
  cases us with
  | nil => exact .expect_bind hs hk hE
  | cons t us =>
    rw [run_bind, List.cons_append, run_expect_cons] at hr
    split at hr
    · rename_i e h
      split at h
      · cases h
      · cases h
        injection hr with hr
        injection hr with _ hr
        exact absurd hr cons_append_ne
    · rename_i h
      split at h
      · rename_i ht
        cases h
        obtain ⟨w, b, e, hw, he, hrb⟩ := hf t hr hd
        exact ⟨w, b, e, hw, he, (hrb.toReads.expect_bind ht).after (ht ▸ hE)⟩
      · cases h

theorem mendable_expect_pure {k : TokenKind} (c : Cause) (g : Token → β) (hk : k ≠ .eof)
    (hE : E k) : Mendable E (fun _ => expect k c >>= fun t => pure (g t)) F n :=
  .expect_bind (f := fun _ t => pure (g t)) (fun _ => mendable_pure _)
    (fun _ => .nil ((reads_pure _ F).anything fun _ => rfl)) hk hE

theorem Mendable.branch {other : Nat → Parser α} {read : Nat → Token → Option (Parser α)}
    (hs : Viable E (fun n => branch (other n) (read n)) F n [])
    (ho : Mendable E other F n)
    (h : ∀ t, (∀ m, read m t = none) ∨ ∃ p, (∀ m, read m t = some (p m)) ∧ E t.kind ∧
      Mendable Anything p F n) : Mendable E (fun n => branch (other n) (read n)) F n := by
  intro us rest c hr hc
  cases us with
  | nil => exact hs
  | cons t us =>
    rw [List.cons_append, run_branch_cons] at hr
    rcases h t with hn | ⟨p, hp, ht, hm⟩
    · rw [hn] at hr
      obtain ⟨w, a, d, hw, hd, hra⟩ := @ho (t :: us) rest c hr hc
      exact ⟨w, a, d, hw, hd, ⟨hra.toReads.branch_none hn, hra.head, fun h => by cases h⟩⟩
    · rw [hp] at hr
      obtain ⟨w, a, d, hw, hd, hra⟩ := hm hr hc
      exact ⟨w, a, d, hw, hd, (hra.toReads.branch_some hp).after ht⟩

/-! ## Repetition -/

/-- The readers of items are known by the first token, mendable and steady. -/
def MendableItems (step : Nat → Token → Step α) (F : TokenKind → Prop) (n : Nat) : Prop :=
  ∀ t q, step n t = .item q → ∃ p, (∀ m, step m t = .item (p m)) ∧ F t.kind ∧
    Mendable Anything p F n ∧ Steady Anything p F n

theorem mendable_many {step : Nat → Token → Step α} (hGF : ∀ k, G k → F k)
    (hG : ∀ n t, G t.kind → step n t = .stop) (h : MendableItems step F n) :
    Mendable F (fun n => many (step n)) G n := by
  have hnil : ReadsAfter F (fun n => many (step n)) G [] [] 0 := reads_items_nil hGF hG
  intro us
  induction hl : us.length using Nat.strongRecOn generalizing us with
  | _ l ih =>
  intro rest c hr hc
  cases us with
  | nil => exact ⟨[], [], 0, noEnd_nil, Nat.zero_le _, hnil⟩
  | cons t us =>
    rw [List.cons_append, run_many_cons] at hr
    cases hq : step n t with
    | stop => rw [hq] at hr; cases hr
    | reject d =>
      rw [hq] at hr
      injection hr with hr
      injection hr with _ hr
      exact absurd hr cons_append_ne
    | item q =>
      obtain ⟨p, hp, ht, hm, hst⟩ := h t q hq
      rw [hp] at hr
      -- the error is inside of the first item, or behind it
      rcases run_bind_eq_error hr with hr | ⟨vs, ws, a, rfl, hr, hr'⟩
      · obtain ⟨w, a, d, hw, hd, hra⟩ := hm hr hc
        have := reads_many_cons hp hra.toReads hnil
        rw [List.append_nil, Nat.max_zero] at this
        exact ⟨w, [a], d, hw, hd, this.after ht⟩
      · obtain ⟨d, hd, hra⟩ := hst hr
        rcases run_bind_eq_error hr' with hr | ⟨_, _, _, _, _, hr⟩
        · obtain ⟨w, as, d', hw, hd', hrs⟩ := ih ws.length (by simp at hl; omega) rfl hr hc
          refine ⟨w, a :: as, max d d', hw, Nat.max_le.mpr ⟨hd, hd'⟩, ?_⟩
          have := reads_many_cons hp hra.toReads hrs
          rw [List.cons_append, List.append_assoc]
          exact this.after ht
        · cases hr

end PolicyLang.Parser
