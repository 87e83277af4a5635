import PolicyLang.Parser.Basic

/-!
# Successful runs

When a parser made of others succeeds: one equivalence for each way of putting parsers together.
`Sound p D` says that `p` takes off only what the relation `D` allows for its result.
-/

namespace PolicyLang.Parser

variable {α β : Type}

theorem run_bind_eq_ok {p : Parser α} {f : α → Parser β} {ts : List Token} {b : β}
    {rest : List Token} : (p >>= f).run ts = .ok (b, rest) ↔
      ∃ a mid, p.run ts = .ok (a, mid) ∧ (f a).run mid = .ok (b, rest) := by
  rw [run_bind]
  rcases p.run ts with e | ⟨a, mid⟩
  · simp
  · simp [and_assoc]

theorem run_map_eq_ok {p : Parser α} {f : α → β} {ts : List Token} {b : β} {rest : List Token} :
    (f <$> p).run ts = .ok (b, rest) ↔ ∃ a, p.run ts = .ok (a, rest) ∧ f a = b := by
  show (p >>= fun a => pure (f a)).run ts = _ ↔ _
  rw [run_bind_eq_ok]
  constructor
  · rintro ⟨a, mid, hp, hf⟩
    cases hf
    exact ⟨a, hp, rfl⟩
  · rintro ⟨a, hp, rfl⟩
    exact ⟨a, rest, hp, rfl⟩

theorem run_pure_eq_ok {a b : α} {ts rest : List Token} :
    (pure a : Parser α).run ts = .ok (b, rest) ↔ a = b ∧ ts = rest := by
  simp

theorem run_next_eq_ok {c : Cause} {read : Token → Except Cause (Parser α)} {ts : List Token}
    {a : α} {rest : List Token} : (next c read).run ts = .ok (a, rest) ↔
      ∃ t us p, ts = t :: us ∧ read t = .ok p ∧ p.run us = .ok (a, rest) := by
  cases ts with
  | nil => simp
  | cons t ts =>
    rw [run_next_cons]
    constructor
    · intro h
      cases hp : read t with
      | error d => rw [hp] at h; cases h
      | ok p => rw [hp] at h; exact ⟨t, ts, p, rfl, hp, h⟩
    · rintro ⟨_, _, p, ⟨rfl, rfl⟩, hp, h⟩
      rw [hp]
      exact h

theorem run_expect_eq_ok {k : TokenKind} {c : Cause} {ts : List Token} {t : Token}
    {rest : List Token} : (expect k c).run ts = .ok (t, rest) ↔ ts = t :: rest ∧ t.kind = k := by
  cases ts with
  | nil => simp
  | cons u us =>
    rw [run_expect_cons]
    split
    · rename_i h
      constructor
      · intro h'; cases h'; exact ⟨rfl, h⟩
      · rintro ⟨h', -⟩; cases h'; rfl
    · rename_i h
      constructor
      · intro h'; cases h'
      · rintro ⟨h', h''⟩; cases h'; exact absurd h'' h

theorem run_branch_eq_ok {other : Parser α} {read : Token → Option (Parser α)} {ts : List Token}
    {a : α} {rest : List Token} : (branch other read).run ts = .ok (a, rest) ↔
      (∃ t us p, ts = t :: us ∧ read t = some p ∧ p.run us = .ok (a, rest)) ∨
      (∀ t ∈ ts.head?, read t = none) ∧ other.run ts = .ok (a, rest) := by
  cases ts with
  | nil => simp
  | cons t ts =>
    rw [run_branch_cons]
    constructor
    · intro h
      cases hp : read t with
      | none => rw [hp] at h; exact .inr ⟨by simpa using hp, h⟩
      | some p => rw [hp] at h; exact .inl ⟨t, ts, p, rfl, hp, h⟩
    · rintro (⟨_, _, p, ⟨rfl, rfl⟩, hp, h⟩ | ⟨hn, h⟩)
      · rw [hp]
        exact h
      · rw [hn t (by simp)]
        exact h

theorem run_refuse_eq_ok {bad : TokenKind → Bool} {c : Cause} {ts rest : List Token} {u : Unit} :
    (refuse bad c).run ts = .ok (u, rest) ↔ ts = rest ∧ ∀ t ∈ ts.head?, bad t.kind = false := by
  cases ts with
  | nil => simp
  | cons t ts =>
    rw [run_refuse_cons]
    cases h : bad t.kind with
    | true => simp [h]
    | false => simp [h]

/-! ## Soundness for a relation -/

/-- What `p` takes off the front and what it makes of it are related by `D`. -/
def Sound (p : Parser α) (D : List Token → α → Prop) : Prop :=
  ∀ ⦃ts a rest⦄, p.run ts = .ok (a, rest) → ∃ us, ts = us ++ rest ∧ D us a

theorem Sound.mono {p : Parser α} {D E : List Token → α → Prop} (h : Sound p D)
    (hDE : ∀ us a, D us a → E us a) : Sound p E := by
  intro ts a rest hr
  obtain ⟨us, hts, hD⟩ := h hr
  exact ⟨us, hts, hDE us a hD⟩

theorem sound_fail (c : Cause) (D : List Token → α → Prop) : Sound (fail c) D := by
  intro ts a rest h
  cases h

theorem sound_pure {D : List Token → α → Prop} {a : α} (h : D [] a) : Sound (pure a) D := by
  intro ts b rest hr
  obtain ⟨rfl, rfl⟩ := run_pure_eq_ok.mp hr
  exact ⟨[], rfl, h⟩

theorem sound_bind {p : Parser α} {f : α → Parser β} {D : List Token → α → Prop}
    {E : List Token → β → Prop} (hp : Sound p D)
    (hf : ∀ us a, D us a → Sound (f a) fun vs b => E (us ++ vs) b) : Sound (p >>= f) E := by
  intro ts b rest h
  obtain ⟨a, mid, hr, hr'⟩ := run_bind_eq_ok.mp h
  obtain ⟨us, rfl, hD⟩ := hp hr
  obtain ⟨vs, rfl, hE⟩ := hf us a hD hr'
  exact ⟨us ++ vs, (List.append_assoc ..).symm, hE⟩

theorem sound_map {p : Parser α} {f : α → β} {D : List Token → α → Prop}
    {E : List Token → β → Prop} (hp : Sound p D) (h : ∀ us a, D us a → E us (f a)) :
    Sound (f <$> p) E := by
  intro ts b rest hr
  obtain ⟨a, hp', rfl⟩ := run_map_eq_ok.mp hr
  obtain ⟨us, rfl, hD⟩ := hp hp'
  exact ⟨us, rfl, h us a hD⟩

theorem sound_next {c : Cause} {read : Token → Except Cause (Parser α)}
    {D : List Token → α → Prop}
    (h : ∀ t p, read t = .ok p → Sound p fun us a => D (t :: us) a) : Sound (next c read) D := by
  intro ts a rest hr
  obtain ⟨t, us, p, rfl, hp, hr⟩ := run_next_eq_ok.mp hr
  obtain ⟨vs, rfl, hD⟩ := h t p hp hr
  exact ⟨t :: vs, rfl, hD⟩

theorem sound_expect (k : TokenKind) (c : Cause) :
    Sound (expect k c) fun us t => us = [t] ∧ t.kind = k := by
  intro ts t rest h
  obtain ⟨rfl, hk⟩ := run_expect_eq_ok.mp h
  exact ⟨[t], rfl, rfl, hk⟩

theorem sound_branch {other : Parser α} {read : Token → Option (Parser α)}
    {D : List Token → α → Prop} (ho : Sound other D)
    (h : ∀ t p, read t = some p → Sound p fun us a => D (t :: us) a) :
    Sound (branch other read) D := by
  intro ts a rest hr
  rcases run_branch_eq_ok.mp hr with ⟨t, us, p, rfl, hp, hr⟩ | ⟨-, hr⟩
  · obtain ⟨vs, rfl, hD⟩ := h t p hp hr
    exact ⟨t :: vs, rfl, hD⟩
  · exact ho hr

theorem sound_refuse (bad : TokenKind → Bool) (c : Cause) :
    Sound (refuse bad c) fun us _ => us = [] := by
  intro ts u rest h
  obtain ⟨rfl, -⟩ := run_refuse_eq_ok.mp h
  exact ⟨[], rfl, rfl⟩

/-- What holds of a list if it holds of what any item at its front leaves over, holds of all lists. -/
theorem items_induction (read : Token → Step α) {motive : List Token → Prop} (nil : motive [])
    (cons : ∀ t ts, (∀ p a rest, read t = .item p → p.run ts = .ok (a, rest) → motive rest) →
      motive (t :: ts)) (ts : List Token) : motive ts := by
  induction hn : ts.length using Nat.strongRecOn generalizing ts with
  | _ n ih =>
  cases ts with
  | nil => exact nil
  | cons t ts =>
    refine cons t ts fun p a rest _ hp => ih rest.length ?_ rest rfl
    have := (p.suffix_of_ok hp).length_le
    rw [← hn, List.length_cons]
    omega

/-- A relation that holds of no items and grows by one item at the front holds of a repetition. -/
theorem sound_many {read : Token → Step α} {D : List Token → List α → Prop} (hnil : D [] [])
    (hcons : ∀ t p, read t = .item p →
      Sound p fun us a => ∀ vs as, D vs as → D (t :: (us ++ vs)) (a :: as)) :
    Sound (many read) D := by
  intro ts
  induction ts using items_induction read with
  | nil =>
    intro as rest h
    rw [run_many_nil] at h
    cases h
    exact ⟨[], rfl, hnil⟩
  | cons t ts ih =>
    intro as rest h
    rw [run_many_cons] at h
    cases hs : read t with
    | stop => rw [hs] at h; cases h; exact ⟨[], rfl, hnil⟩
    | reject c => rw [hs] at h; cases h
    | item p =>
      rw [hs] at h
      obtain ⟨a, mid, hp, h⟩ := run_bind_eq_ok.mp h
      obtain ⟨as', rest', hm, h⟩ := run_bind_eq_ok.mp h
      cases h
      obtain ⟨vs, hvs, hv⟩ := ih p a mid hs hp hm
      obtain ⟨us, rfl, ha⟩ := hcons t p hs hp
      subst hvs
      exact ⟨t :: (us ++ vs), by simp, ha vs as' hv⟩

end PolicyLang.Parser
