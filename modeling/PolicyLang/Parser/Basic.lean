import PolicyLang.Parser.Error

/-!
# Parsers

A parser reads tokens from the front of a list and gives a value and the tokens it left, or fails
with the tokens it stopped at. Either way these are the end of the list it was given; that is part
of the type, so a loop that reads at least one token in each round comes to an end.
-/

namespace PolicyLang

/-- Why and where a parser stopped. The token to blame is the first of `rest`. -/
structure Failure where
  cause : Cause
  rest : List Token
deriving DecidableEq, Repr

structure Parser (α : Type) where
  run : List Token → Except Failure (α × List Token)
  suffix_of_ok : ∀ {ts a rest}, run ts = .ok (a, rest) → rest <:+ ts
  suffix_of_error : ∀ {ts f}, run ts = .error f → f.rest <:+ ts

namespace Parser

variable {α β : Type}

@[ext] theorem ext {p q : Parser α} (h : ∀ ts, p.run ts = q.run ts) : p = q := by
  cases p; cases q
  congr
  exact funext h

/-! ## Sequence -/

protected def pure (a : α) : Parser α where
  run ts := .ok (a, ts)
  suffix_of_ok h := by cases h; exact List.suffix_refl _
  suffix_of_error h := by cases h

/-- Stops before the next token. -/
def fail (c : Cause) : Parser α where
  run ts := .error ⟨c, ts⟩
  suffix_of_ok h := by cases h
  suffix_of_error h := by cases h; exact List.suffix_refl _

protected def bind (p : Parser α) (f : α → Parser β) : Parser β where
  run ts :=
    match p.run ts with
    | .error e => .error e
    | .ok (a, rest) => (f a).run rest
  suffix_of_ok h := by
    split at h
    · cases h
    · rename_i hp
      exact ((f _).suffix_of_ok h).trans (p.suffix_of_ok hp)
  suffix_of_error h := by
    split at h
    · rename_i hp
      cases h
      exact p.suffix_of_error hp
    · rename_i hp
      exact ((f _).suffix_of_error h).trans (p.suffix_of_ok hp)

instance : Monad Parser where
  pure := Parser.pure
  bind := Parser.bind

@[simp] theorem run_pure (a : α) (ts : List Token) :
    (pure a : Parser α).run ts = .ok (a, ts) := rfl

@[simp] theorem run_fail (c : Cause) (ts : List Token) :
    (fail c : Parser α).run ts = .error ⟨c, ts⟩ := rfl

theorem run_bind (p : Parser α) (f : α → Parser β) (ts : List Token) :
    (p >>= f).run ts = match p.run ts with
      | .error e => .error e
      | .ok (a, rest) => (f a).run rest := rfl

/-- A parser that is built only when it runs. -/
def defer (p : Unit → Parser α) : Parser α where
  run ts := (p ()).run ts
  suffix_of_ok h := (p ()).suffix_of_ok h
  suffix_of_error h := (p ()).suffix_of_error h

@[simp] theorem defer_eq (p : Unit → Parser α) : defer p = p () := rfl

/-! ## Single tokens -/

/-- Takes the next token and goes on as `read` says, or stops before it. -/
def next (missing : Cause) (read : Token → Except Cause (Parser α)) : Parser α where
  run
    | [] => .error ⟨missing, []⟩
    | t :: ts =>
      match read t with
      | .error c => .error ⟨c, t :: ts⟩
      | .ok p => p.run ts
  suffix_of_ok {ts a rest} h := by
    cases ts with
    | nil => cases h
    | cons t ts =>
      simp only at h
      split at h
      · cases h
      · rename_i p _
        exact (p.suffix_of_ok h).trans (List.suffix_cons t ts)
  suffix_of_error {ts f} h := by
    cases ts with
    | nil => cases h; exact List.suffix_refl _
    | cons t ts =>
      simp only at h
      split at h
      · cases h; exact List.suffix_refl _
      · rename_i p _
        exact (p.suffix_of_error h).trans (List.suffix_cons t ts)

@[simp] theorem run_next_nil (c : Cause) (read : Token → Except Cause (Parser α)) :
    (next c read).run [] = .error ⟨c, []⟩ := rfl

theorem run_next_cons (c : Cause) (read : Token → Except Cause (Parser α)) (t : Token)
    (ts : List Token) :
    (next c read).run (t :: ts) = match read t with
      | .error d => .error ⟨d, t :: ts⟩
      | .ok p => p.run ts := rfl

def expect (kind : TokenKind) (c : Cause) : Parser Token :=
  next c fun t => if t.kind = kind then .ok (pure t) else .error c

@[simp] theorem run_expect_nil (k : TokenKind) (c : Cause) :
    (expect k c).run [] = .error ⟨c, []⟩ := rfl

theorem run_expect_cons (k : TokenKind) (c : Cause) (t : Token) (ts : List Token) :
    (expect k c).run (t :: ts) = if t.kind = k then .ok (t, ts) else .error ⟨c, t :: ts⟩ := by
  by_cases h : t.kind = k <;> simp [expect, run_next_cons, h]

/-- Goes on as `read` says behind the next token, or with `other` if that says nothing. -/
def branch (other : Parser α) (read : Token → Option (Parser α)) : Parser α where
  run
    | [] => other.run []
    | t :: ts =>
      match read t with
      | none => other.run (t :: ts)
      | some p => p.run ts
  suffix_of_ok {ts a rest} h := by
    cases ts with
    | nil => exact other.suffix_of_ok h
    | cons t ts =>
      simp only at h
      split at h
      · exact other.suffix_of_ok h
      · rename_i p _
        exact (p.suffix_of_ok h).trans (List.suffix_cons t ts)
  suffix_of_error {ts f} h := by
    cases ts with
    | nil => exact other.suffix_of_error h
    | cons t ts =>
      simp only at h
      split at h
      · exact other.suffix_of_error h
      · rename_i p _
        exact (p.suffix_of_error h).trans (List.suffix_cons t ts)

@[simp] theorem run_branch_nil (other : Parser α) (read : Token → Option (Parser α)) :
    (branch other read).run [] = other.run [] := rfl

theorem run_branch_cons (other : Parser α) (read : Token → Option (Parser α)) (t : Token)
    (ts : List Token) :
    (branch other read).run (t :: ts) = match read t with
      | none => other.run (t :: ts)
      | some p => p.run ts := rfl

/-- Reads nothing, and stops before a token that may not come next. -/
def refuse (bad : TokenKind → Bool) (c : Cause) : Parser Unit where
  run
    | [] => .ok ((), [])
    | t :: ts => if bad t.kind then .error ⟨c, t :: ts⟩ else .ok ((), t :: ts)
  suffix_of_ok {ts a rest} h := by
    cases ts with
    | nil => cases h; exact List.suffix_refl _
    | cons t ts =>
      simp only at h
      split at h <;> cases h
      exact List.suffix_refl _
  suffix_of_error {ts f} h := by
    cases ts with
    | nil => cases h
    | cons t ts =>
      simp only at h
      split at h <;> cases h
      exact List.suffix_refl _

@[simp] theorem run_refuse_nil (bad : TokenKind → Bool) (c : Cause) :
    (refuse bad c).run [] = .ok ((), []) := rfl

theorem run_refuse_cons (bad : TokenKind → Bool) (c : Cause) (t : Token) (ts : List Token) :
    (refuse bad c).run (t :: ts) =
      if bad t.kind then .error ⟨c, t :: ts⟩ else .ok ((), t :: ts) := rfl

/-! ## Repetition -/

/-- What the next token means to a repetition. -/
inductive Step (α : Type) where
  /-- It belongs to what comes after. -/
  | stop
  /-- It fits nowhere. -/
  | reject (c : Cause)
  /-- It starts an item, and `p` reads the rest of that. -/
  | item (p : Parser α)

/-- The run of `many`. An item takes its first token off the list, so the list gets shorter. -/
def runMany (read : Token → Step α) : List Token → Except Failure (List α × List Token)
  | [] => .ok ([], [])
  | t :: ts =>
    match read t with
    | .stop => .ok ([], t :: ts)
    | .reject c => .error ⟨c, t :: ts⟩
    | .item p =>
      match _h : p.run ts with
      | .error f => .error f
      | .ok (a, rest) =>
        match runMany read rest with
        | .error f => .error f
        | .ok (items, rest) => .ok (a :: items, rest)
termination_by ts => ts.length
decreasing_by exact Nat.lt_succ_of_le (p.suffix_of_ok ‹_›).length_le

theorem suffix_of_runMany_eq_ok {read : Token → Step α} {ts : List Token} {items : List α}
    {rest : List Token} (h : runMany read ts = .ok (items, rest)) : rest <:+ ts := by
  fun_induction runMany read ts generalizing items rest with
  | case1 => cases h; exact List.suffix_refl _
  | case2 => cases h; exact List.suffix_refl _
  | case3 => cases h
  | case4 => cases h
  | case5 => cases h
  | case6 t ts p _ a mid hp more rest' hm ih =>
    cases h
    exact ((ih hm).trans (p.suffix_of_ok hp)).trans (List.suffix_cons t ts)

theorem suffix_of_runMany_eq_error {read : Token → Step α} {ts : List Token} {f : Failure}
    (h : runMany read ts = .error f) : f.rest <:+ ts := by
  fun_induction runMany read ts generalizing f with
  | case1 => cases h
  | case2 => cases h
  | case3 => cases h; exact List.suffix_refl _
  | case4 t ts p _ f' hp =>
    cases h
    exact (p.suffix_of_error hp).trans (List.suffix_cons t ts)
  | case5 t ts p _ a mid hp f' hm ih =>
    cases h
    exact ((ih hm).trans (p.suffix_of_ok hp)).trans (List.suffix_cons t ts)
  | case6 => cases h

/-- Reads items until the tokens end or one of them stops the repetition. -/
def many (read : Token → Step α) : Parser (List α) where
  run := runMany read
  suffix_of_ok := suffix_of_runMany_eq_ok
  suffix_of_error := suffix_of_runMany_eq_error

@[simp] theorem run_many_nil (read : Token → Step α) : (many read).run [] = .ok ([], []) := by
  simp [many, runMany]

/-- A repetition is one item and a repetition behind it, unless the first token ends it. -/
theorem run_many_cons (read : Token → Step α) (t : Token) (ts : List Token) :
    (many read).run (t :: ts) = match read t with
      | .stop => .ok ([], t :: ts)
      | .reject c => .error ⟨c, t :: ts⟩
      | .item p => (do
          let a ← p
          let items ← many read
          pure (a :: items)).run ts := by
  show runMany read (t :: ts) = _
  rw [runMany]
  cases read t with
  | stop => rfl
  | reject c => rfl
  | item p =>
    simp only [run_bind]
    split
    · rename_i hp; rw [hp]
    · rename_i rest hp
      rw [hp]
      simp only [many]
      cases runMany read rest <;> rfl

end Parser

end PolicyLang
