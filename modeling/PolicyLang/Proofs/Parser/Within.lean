import PolicyLang.Proofs.Parser.Success

/-!
# What a budget allows

`Within k Q p` bounds a parser from two sides. Its results satisfy `Q`, and where it runs out of
budget it has read at least `k` tokens. One lemma for each way of putting parsers together.
-/

namespace PolicyLang.Parser

variable {α β : Type} {k : Nat} {Q : α → Prop} {R : β → Prop}

/-- An outcome on `ts`: a result with `Q`, or an error that is not for lack of budget, or one for
lack of budget behind at least `k` tokens. -/
def Kept (k : Nat) (Q : α → Prop) (ts : List Token) : Except Failure (α × List Token) → Prop
  | .ok (a, _) => Q a
  | .error f => f.cause = .tooDeep → k + f.rest.length ≤ ts.length

def Within (k : Nat) (Q : α → Prop) (p : Parser α) : Prop := ∀ ts, Kept k Q ts (p.run ts)

theorem Kept.mono {j : Nat} {S : α → Prop} {ts us : List Token}
    {o : Except Failure (α × List Token)} (h : Kept k Q ts o) (hQ : ∀ a, Q a → S a)
    (hj : j + ts.length ≤ k + us.length) : Kept j S us o := by
  cases o with
  | ok x => exact hQ x.1 h
  | error f =>
    intro hf
    have := h hf
    omega

theorem Within.mono {S : α → Prop} {p : Parser α} (h : Within k Q p) (hQ : ∀ a, Q a → S a) :
    Within k S p := fun ts => (h ts).mono hQ (Nat.le_refl _)

theorem Within.of_le {j : Nat} {p : Parser α} (h : Within k Q p) (hj : j ≤ k) : Within j Q p :=
  fun ts => (h ts).mono (fun _ ha => ha) (Nat.add_le_add_right hj _)

/-! ## Sequence -/

theorem within_pure {a : α} (h : Q a) : Within k Q (pure a) := fun _ => h

theorem within_tooDeep (Q : α → Prop) : Within 0 Q (fail .tooDeep) :=
  fun _ _ => Nat.le_of_eq (Nat.zero_add _)

theorem kept_bind {p : Parser α} {f : α → Parser β} {ts : List Token} (h : Kept k Q ts (p.run ts))
    (hf : ∀ a rest, p.run ts = .ok (a, rest) → Q a → Kept k R rest ((f a).run rest)) :
    Kept k R ts ((p >>= f).run ts) := by
  rw [run_bind]
  cases hp : p.run ts with
  | error e =>
    rw [hp] at h
    exact h
  | ok x =>
    rw [hp] at h
    have hrest := (p.suffix_of_ok hp).length_le
    exact (hf x.1 x.2 hp h).mono (fun _ hb => hb) (by omega)

theorem Within.bind {p : Parser α} {f : α → Parser β} (hp : Within k Q p)
    (hf : ∀ a, Q a → Within k R (f a)) : Within k R (p >>= f) :=
  fun ts => kept_bind (hp ts) fun a rest _ ha => hf a ha rest

theorem Within.map {p : Parser α} {f : α → β} (hp : Within k Q p) (h : ∀ a, Q a → R (f a)) :
    Within k R (f <$> p) :=
  hp.bind fun a ha => within_pure (h a ha)

/-! ## Single tokens -/

theorem kept_error {c : Cause} (hc : c ≠ .tooDeep) (ts r : List Token) :
    Kept k Q ts (.error ⟨c, r⟩) := fun h => absurd h hc

theorem within_next {c : Cause} {read : Token → Except Cause (Parser α)} (hc : c ≠ .tooDeep)
    (hread : ∀ t d, read t = .error d → d ≠ .tooDeep)
    (h : ∀ t p, read t = .ok p → Within k Q p) : Within (k + 1) Q (next c read) := by
  intro ts
  cases ts with
  | nil => exact kept_error hc _ _
  | cons t ts =>
    rw [run_next_cons]
    cases hp : read t with
    | error d => exact kept_error (hread t d hp) _ _
    | ok p => exact (h t p hp ts).mono (fun _ ha => ha) (by simp; omega)

theorem within_expect (j : TokenKind) {c : Cause} (hc : c ≠ .tooDeep) :
    Within k (fun _ => True) (expect j c) := by
  intro ts
  cases ts with
  | nil => exact kept_error hc _ _
  | cons t ts =>
    rw [run_expect_cons]
    split
    · exact trivial
    · exact kept_error hc _ _

theorem within_branch {other : Parser α} {read : Token → Option (Parser α)} (ho : Within k Q other)
    (h : ∀ t p, read t = some p → Within (k - 1) Q p) : Within k Q (branch other read) := by
  intro ts
  cases ts with
  | nil => exact ho []
  | cons t ts =>
    rw [run_branch_cons]
    cases hp : read t with
    | none => exact ho (t :: ts)
    | some p => exact (h t p hp ts).mono (fun _ ha => ha) (by simp; omega)

theorem within_refuse (bad : TokenKind → Bool) {c : Cause} (hc : c ≠ .tooDeep) :
    Within k (fun _ => True) (refuse bad c) := by
  intro ts
  cases ts with
  | nil => exact trivial
  | cons t ts =>
    rw [run_refuse_cons]
    split
    · exact kept_error hc _ _
    · exact trivial

/-! ## Repetition -/

theorem within_many {read : Token → Step α} (hread : ∀ t c, read t = .reject c → c ≠ .tooDeep)
    (h : ∀ t p, read t = .item p → Within k Q p) :
    Within (k + 1) (fun as => ∀ a ∈ as, Q a) (many read) := by
  intro ts
  -- what an item leaves over is read `Within` the same bounds
  induction ts using items_induction read with
  | nil =>
    rw [run_many_nil]
    exact List.forall_mem_nil Q
  | cons t ts ih =>
    rw [run_many_cons]
    cases hs : read t with
    | stop => exact List.forall_mem_nil Q
    | reject c => exact kept_error (hread t c hs) _ _
    | item p =>
      have hitem : Kept k (fun as => ∀ a ∈ as, Q a) ts
          ((p >>= fun a => many read >>= fun as => pure (a :: as)).run ts) := by
        refine kept_bind (h t p hs ts) fun a rest hp ha => ?_
        have hmany : Kept k (fun as => ∀ a ∈ as, Q a) rest ((many read).run rest) :=
          (ih p a rest hs hp).mono (fun _ has => has) (by omega)
        exact kept_bind hmany fun as _ _ has => List.forall_mem_cons.mpr ⟨ha, has⟩
      exact hitem.mono (fun _ has => has) (by simp; omega)

end PolicyLang.Parser
