import Mathlib.Data.List.Forall2
import PolicyLang.Proofs.Tree.Spans

/-!
# Two runs in lockstep

Compares the runs of two parsers on two token lists. The lists agree at the front in kinds and
texts, and in what is left of the spans; behind that they may differ. `Lockstep R p q` says that the
runs then agree as well, results in the relation `R`, until one of them has gone past the common
front. If there is slack, the left run may also have run out of budget.
-/

namespace PolicyLang

/-- What is compared in two runs. -/
structure Pairing where
  left : Span → Span
  right : Span → Span
  join : ∀ {s t s' t'}, left s = right s' → left t = right t' → left (s.to t) = right (s'.to t')
  slack : Prop
  /-- What stands behind the common front. -/
  leftRest : List Token
  rightRest : List Token

namespace Parser

/-- The tokens that a run left over. -/
def restOf {α : Type} : Except Failure (α × List Token) → List Token
  | .ok (_, rest) => rest
  | .error f => f.rest

theorem restOf_run_suffix {α : Type} (p : Parser α) (ts : List Token) : restOf (p.run ts) <:+ ts := by
  cases h : p.run ts with
  | ok x => exact p.suffix_of_ok h
  | error f => exact p.suffix_of_error h

end Parser

namespace Pairing

open PolicyLang.Parser

variable {α β γ δ : Type} (P : Pairing) {R : α → β → Prop} {S : γ → δ → Prop}

def Same (t u : Token) : Prop := t.mapSpan P.left = u.mapSpan P.right

/-- The lists may differ behind the common front. -/
def Open : Prop := P.leftRest ≠ [] ∨ P.rightRest ≠ []

inductive Alike (R : α → β → Prop) :
    Except Failure (α × List Token) → Except Failure (β × List Token) → Prop
  | deep {r o} : P.slack → Alike R (.error ⟨.tooDeep, r⟩) o
  | ok {a b us vs} : R a b → List.Forall₂ P.Same us vs →
      Alike R (.ok (a, us ++ P.leftRest)) (.ok (b, vs ++ P.rightRest))
  | error {c us vs} : List.Forall₂ P.Same us vs →
      Alike R (.error ⟨c, us ++ P.leftRest⟩) (.error ⟨c, vs ++ P.rightRest⟩)
  | past {o o'} : P.Open → restOf o <:+ P.leftRest → restOf o' <:+ P.rightRest → Alike R o o'

def Lockstep (R : α → β → Prop) (p : Parser α) (q : Parser β) : Prop :=
  ∀ ⦃us vs⦄, List.Forall₂ P.Same us vs →
    P.Alike R (p.run (us ++ P.leftRest)) (q.run (vs ++ P.rightRest))

variable {P}

theorem Same.kind {t u : Token} (h : P.Same t u) : t.kind = u.kind := by
  have := congrArg Token.kind (id h : t.mapSpan P.left = u.mapSpan P.right)
  exact this

theorem Same.text {t u : Token} (h : P.Same t u) : t.text = u.text := by
  have := congrArg Token.text (id h : t.mapSpan P.left = u.mapSpan P.right)
  exact this

theorem Same.span {t u : Token} (h : P.Same t u) : P.left t.span = P.right u.span :=
  congrArg Token.span (id h : t.mapSpan P.left = u.mapSpan P.right)

theorem alike_of_open (h : P.Open) (p : Parser α) (q : Parser β) :
    P.Alike R (p.run P.leftRest) (q.run P.rightRest) :=
  .past h (restOf_run_suffix p _) (restOf_run_suffix q _)

theorem closed_or_open (P : Pairing) : P.leftRest = [] ∧ P.rightRest = [] ∨ P.Open := by
  unfold Open
  by_cases hl : P.leftRest = []
  · by_cases hr : P.rightRest = []
    · exact .inl ⟨hl, hr⟩
    · exact .inr (.inr hr)
  · exact .inr (.inl hl)

theorem lockstep_of_cons {p : Parser α} {q : Parser β}
    (hnil : P.leftRest = [] → P.rightRest = [] → P.Alike R (p.run []) (q.run []))
    (hcons : ∀ t u us vs, P.Same t u → List.Forall₂ P.Same us vs →
      P.Alike R (p.run (t :: (us ++ P.leftRest))) (q.run (u :: (vs ++ P.rightRest)))) :
    P.Lockstep R p q := by
  intro us vs h
  cases h with
  | nil =>
    rcases P.closed_or_open with ⟨hl, hr⟩ | ho
    · have := hnil hl hr
      simpa [hl, hr] using this
    · exact alike_of_open ho p q
  | cons ht hs => exact hcons _ _ _ _ ht hs

theorem Alike.not_ok_of_error {x : α × List Token} {f : Failure} (h : P.Alike R (.ok x) (.error f)) :
    P.Open ∧ f.rest <:+ P.rightRest := by
  cases h with
  | past ho _ hr => exact ⟨ho, hr⟩

/-! ## Sequence -/

theorem lockstep_pure {a : α} {b : β} (h : R a b) : P.Lockstep R (pure a) (pure b) :=
  fun _ _ hs => .ok h hs

theorem lockstep_fail (c : Cause) : P.Lockstep R (fail c) (fail c) :=
  fun _ _ hs => .error hs

theorem lockstep_tooDeep (h : P.slack) (q : Parser β) : P.Lockstep R (fail .tooDeep) q :=
  fun _ _ _ => .deep h

theorem restOf_run_bind (p : Parser α) (f : α → Parser γ) (ts : List Token) :
    restOf ((p >>= f).run ts) <:+ restOf (p.run ts) := by
  rw [run_bind]
  cases p.run ts with
  | error e => exact List.suffix_refl _
  | ok x => exact restOf_run_suffix (f x.1) x.2

theorem alike_bind {p : Parser α} {q : Parser β} {f : α → Parser γ} {g : β → Parser δ}
    {ts ts' : List Token} (h : P.Alike R (p.run ts) (q.run ts'))
    (hf : ∀ a b us vs, R a b → p.run ts = .ok (a, us ++ P.leftRest) → List.Forall₂ P.Same us vs →
      P.Alike S ((f a).run (us ++ P.leftRest)) ((g b).run (vs ++ P.rightRest))) :
    P.Alike S ((p >>= f).run ts) ((q >>= g).run ts') := by
  have hp := restOf_run_bind p f ts
  have hq := restOf_run_bind q g ts'
  rw [run_bind, run_bind] at *
  generalize p.run ts = o at *
  generalize q.run ts' = o' at *
  cases h with
  | deep hd => exact .deep hd
  | ok hab hr => exact hf _ _ _ _ hab rfl hr
  | error hr => exact .error hr
  | past ho hl hr => exact .past ho (hp.trans hl) (hq.trans hr)

theorem lockstep_bind {p : Parser α} {q : Parser β} {f : α → Parser γ} {g : β → Parser δ}
    (h : P.Lockstep R p q) (hf : ∀ a b, R a b → P.Lockstep S (f a) (g b)) :
    P.Lockstep S (p >>= f) (q >>= g) :=
  fun _ _ hs => alike_bind (h hs) fun a b _ _ hab _ hr => hf a b hab hr

theorem lockstep_map {p : Parser α} {q : Parser β} {f : α → γ} {g : β → δ} (h : P.Lockstep R p q)
    (hf : ∀ a b, R a b → S (f a) (g b)) : P.Lockstep S (f <$> p) (g <$> q) :=
  lockstep_bind h fun a b hab => lockstep_pure (hf a b hab)

/-! ## Single tokens -/

/-- Two readings of one token: the same complaint, or parsers that run in lockstep. -/
def SameReading (P : Pairing) (R : α → β → Prop) :
    Except Cause (Parser α) → Except Cause (Parser β) → Prop
  | .error c, .error d => c = d
  | .ok p, .ok q => P.Lockstep R p q
  | _, _ => False

theorem lockstep_next {c : Cause} {read : Token → Except Cause (Parser α)}
    {read' : Token → Except Cause (Parser β)}
    (h : ∀ t u, P.Same t u → SameReading P R (read t) (read' u)) :
    P.Lockstep R (next c read) (next c read') := by
  refine lockstep_of_cons (fun hl hr => ?_) fun t u us vs ht hs => ?_
  · have := Alike.error (P := P) (R := R) (c := c) List.Forall₂.nil
    simpa [hl, hr] using this
  · have hread := h t u ht
    have hs' : List.Forall₂ P.Same (t :: us) (u :: vs) := .cons ht hs
    rw [run_next_cons, run_next_cons]
    cases hp : read t with
    | error d =>
      cases hq : read' u with
      | error d' =>
        rw [hp, hq] at hread
        obtain rfl : d = d' := hread
        exact .error hs'
      | ok q => rw [hp, hq] at hread; exact hread.elim
    | ok p =>
      cases hq : read' u with
      | error d' => rw [hp, hq] at hread; exact hread.elim
      | ok q => rw [hp, hq] at hread; exact hread hs

theorem lockstep_expect (k : TokenKind) (c : Cause) :
    P.Lockstep P.Same (expect k c) (expect k c) := by
  apply lockstep_next
  intro t u ht
  by_cases hk : t.kind = k
  · rw [if_pos hk, if_pos (ht.kind ▸ hk)]
    exact lockstep_pure ht
  · rw [if_neg hk, if_neg (ht.kind ▸ hk)]
    exact rfl

def SameChoice (P : Pairing) (R : α → β → Prop) : Option (Parser α) → Option (Parser β) → Prop
  | none, none => True
  | some p, some q => P.Lockstep R p q
  | _, _ => False

theorem SameChoice.cases {o : Option (Parser α)} {o' : Option (Parser β)}
    (h : SameChoice P R o o') :
    o = none ∧ o' = none ∨ ∃ p q, o = some p ∧ o' = some q ∧ P.Lockstep R p q := by
  cases o with
  | none =>
    cases o' with
    | none => exact .inl ⟨rfl, rfl⟩
    | some q => exact h.elim
  | some p =>
    cases o' with
    | none => exact h.elim
    | some q => exact .inr ⟨p, q, rfl, rfl, h⟩

theorem lockstep_branch {other : Parser α} {other' : Parser β} {read : Token → Option (Parser α)}
    {read' : Token → Option (Parser β)} (ho : P.Lockstep R other other')
    (h : ∀ t u, P.Same t u → SameChoice P R (read t) (read' u)) :
    P.Lockstep R (branch other read) (branch other' read') := by
  refine lockstep_of_cons (fun hl hr => ?_) fun t u us vs ht hs => ?_
  · have := ho List.Forall₂.nil
    rw [List.nil_append, List.nil_append] at this
    rwa [hl, hr] at this
  · rw [run_branch_cons, run_branch_cons]
    rcases (h t u ht).cases with ⟨hn, hn'⟩ | ⟨p, q, hp, hq, hpq⟩
    · rw [hn, hn']
      exact ho (.cons ht hs)
    · rw [hp, hq]
      exact hpq hs

theorem lockstep_refuse (bad : TokenKind → Bool) (c : Cause) :
    P.Lockstep (fun _ _ => True) (refuse bad c) (refuse bad c) := by
  refine lockstep_of_cons (fun hl hr => ?_) fun t u us vs ht hs => ?_
  · have := Alike.ok (P := P) (R := fun _ _ => True) (a := ()) (b := ()) trivial List.Forall₂.nil
    simpa [hl, hr] using this
  · have hs' : List.Forall₂ P.Same (t :: us) (u :: vs) := .cons ht hs
    rw [run_refuse_cons, run_refuse_cons, ← ht.kind]
    split
    · exact .error hs'
    · exact .ok trivial hs'

/-! ## Repetition -/

def SameStep (P : Pairing) (R : α → β → Prop) : Step α → Step β → Prop
  | .stop, .stop => True
  | .reject c, .reject d => c = d
  | .item p, .item q => P.Lockstep R p q
  | _, _ => False

theorem SameStep.cases {o : Step α} {o' : Step β} (h : SameStep P R o o') :
    o = .stop ∧ o' = .stop ∨ (∃ c, o = .reject c ∧ o' = .reject c) ∨
      ∃ p q, o = .item p ∧ o' = .item q ∧ P.Lockstep R p q := by
  cases o with
  | stop =>
    cases o' with
    | stop => exact .inl ⟨rfl, rfl⟩
    | _ => exact h.elim
  | reject c =>
    cases o' with
    | reject d =>
      obtain rfl : c = d := h
      exact .inr (.inl ⟨c, rfl, rfl⟩)
    | _ => exact h.elim
  | item p =>
    cases o' with
    | item q => exact .inr (.inr ⟨p, q, rfl, rfl, h⟩)
    | _ => exact h.elim

theorem lockstep_many {read : Token → Step α} {read' : Token → Step β}
    (h : ∀ t u, P.Same t u → SameStep P R (read t) (read' u)) :
    P.Lockstep (List.Forall₂ R) (many read) (many read') := by
  intro us vs hs
  -- each item takes at least one token off the common front
  induction hn : us.length using Nat.strongRecOn generalizing us vs with
  | _ n ih =>
  cases hs with
  | nil =>
    rcases P.closed_or_open with ⟨hl, hr⟩ | ho
    · have := Alike.ok (P := P) (R := List.Forall₂ R) List.Forall₂.nil List.Forall₂.nil
      simpa [hl, hr] using this
    · exact alike_of_open ho _ _
  | @cons t u us vs ht hs =>
    have hs' : List.Forall₂ P.Same (t :: us) (u :: vs) := .cons ht hs
    rw [List.cons_append, List.cons_append, run_many_cons, run_many_cons]
    rcases (h t u ht).cases with ⟨hp, hq⟩ | ⟨c, hp, hq⟩ | ⟨p, q, hp, hq, hpq⟩
    · rw [hp, hq]
      exact .ok .nil hs'
    · rw [hp, hq]
      exact .error hs'
    · rw [hp, hq]
      apply alike_bind (hpq hs)
      intro a b us' vs' hab hrun hr
      have hlen := (p.suffix_of_ok hrun).length_le
      simp only [List.length_append] at hlen
      have hmany := ih us'.length (by rw [List.length_cons] at hn; omega) hr rfl
      exact alike_bind hmany fun as bs _ _ hm _ hr => .ok (.cons hab hm) hr

end Pairing

end PolicyLang
