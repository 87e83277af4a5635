import PolicyLang.Proofs.Cursor.Runs
import PolicyLang.Proofs.Parser.Progress

/-!
# Scripts that follow a parser

A cursor has as many tokens behind it as a parser of lists has taken off, and its counter is at what is
missing from the budget. From there a script follows a parser if it comes to the same result, with all
cursors in bounds on the way, and with calls that come back at the level they started from.
-/

namespace PolicyLang

open Script

/-! ## Scenes -/

/-- The tokens of a list up to its end mark, the end mark, and the limit for the nesting. -/
structure Scene where
  body : List Token
  mark : Token
  limit : Nat
  noEnd : NoEnd body
  isEnd : mark.kind = .eof

namespace Scene

variable (S : Scene)

def tokens : List Token := S.body ++ [S.mark]

/-- The token that comes next where `us` is left of the body. -/
def next (us : List Token) : Token := us.head?.getD S.mark

/-- The cursor where `us` is left of the body, and `n` units are left of the budget. -/
def cursor (us : List Token) (n : Nat) : Cursor :=
  ⟨S.tokens, S.body.length - us.length, S.limit - n, S.limit⟩

@[simp] theorem next_nil : S.next [] = S.mark := rfl

@[simp] theorem next_cons (t : Token) (us : List Token) : S.next (t :: us) = t := rfl

variable {S} {us vs : List Token} {t : Token} {n : Nat}

theorem kind_ne_eof (h : t :: us <:+ S.body) : t.kind ≠ .eof :=
  S.noEnd t (h.subset (List.mem_cons_self ..))

theorem kind_mark_ne {k : TokenKind} (hk : k ≠ .eof) : (S.next []).kind ≠ k := S.isEnd ▸ hk.symm

/-- Ahead of the cursor are the tokens that are left, and behind them the end mark. -/
theorem getElem?_ahead (h : us <:+ S.body) (k : Nat) :
    S.tokens[min (S.body.length - us.length + k) (S.tokens.length - 1)]? = some (us[k]?.getD S.mark) := by
  obtain ⟨pre, hpre⟩ := h
  unfold tokens
  rw [← hpre, List.length_append, Nat.add_sub_cancel_right, List.length_append, List.length_append,
    List.length_singleton, Nat.add_sub_cancel, List.append_assoc]
  rcases Nat.lt_or_ge k us.length with hk | hk
  · rw [Nat.min_eq_left (by omega), List.getElem?_append_right (by omega), Nat.add_sub_cancel_left,
      List.getElem?_append_left hk, List.getElem?_eq_getElem hk]
    rfl
  · rw [Nat.min_eq_right (by omega), List.getElem?_append_right (by omega), Nat.add_sub_cancel_left,
      List.getElem?_append_right (Nat.le_refl _), Nat.sub_self, List.getElem?_eq_none hk]
    rfl

theorem getElem?_position (h : us <:+ S.body) :
    S.tokens[S.body.length - us.length]? = some (S.next us) := by
  have hlast : S.body.length - us.length ≤ S.tokens.length - 1 := by
    unfold tokens
    rw [List.length_append, List.length_singleton]
    omega
  have := getElem?_ahead h 0
  rwa [Nat.add_zero, Nat.min_eq_left hlast, ← List.head?_eq_getElem?] at this

theorem exec_peek (h : us <:+ S.body) (k : Nat) :
    Operation.exec (S.cursor us n) (.peek k) = some (us[k]?.getD S.mark, S.cursor us n) := by
  simp only [Operation.exec, cursor, getElem?_ahead h, Option.map_some]

theorem exec_atEnd (h : us <:+ S.body) :
    Operation.exec (S.cursor us n) .atEnd = some (us.isEmpty, S.cursor us n) := by
  simp only [Operation.exec, cursor, getElem?_position h, Option.map_some]
  cases us with
  | nil => simp [S.isEnd]
  | cons t us => simp [kind_ne_eof h]

theorem exec_advance (h : t :: us <:+ S.body) :
    Operation.exec (S.cursor (t :: us) n) .advance = some (t, S.cursor us n) := by
  have hnext : S.body.length - (t :: us).length + 1 = S.body.length - us.length := by
    have := h.length_le
    rw [List.length_cons] at this ⊢
    omega
  simp only [Operation.exec, cursor, getElem?_position h, Option.map_some, next_cons,
    if_neg (kind_ne_eof h), hnext]

theorem exec_descend_zero : Operation.exec (S.cursor us 0) .descend = some (false, S.cursor us 0) :=
  if_pos (Nat.le_refl _)

theorem exec_descend_succ (hn : n + 1 ≤ S.limit) :
    Operation.exec (S.cursor us (n + 1)) .descend = some (true, S.cursor us n) := by
  have hroom : ¬ S.limit ≤ S.limit - (n + 1) := by omega
  have hlevel : S.limit - (n + 1) + 1 = S.limit - n := by omega
  simp only [Operation.exec, cursor, if_neg hroom, hlevel]

theorem exec_ascend (hn : n + 1 ≤ S.limit) :
    Operation.exec (S.cursor us n) .ascend = some ((), S.cursor us (n + 1)) := by
  have hroom : ¬ S.limit - n = 0 := by omega
  have hlevel : S.limit - n - 1 = S.limit - (n + 1) := by omega
  simp only [Operation.exec, cursor, if_neg hroom, hlevel]

end Scene

/-! ## Events in order -/

/-- A cursor has the same tokens as ever, and is in bounds. A call comes back at the level it started
from, not in front of the place it started from, and behind it if something is to be read there. -/
def Event.Sound (tokens : List Token) (limit : Nat) : Event → Prop
  | reached c => c.tokens = tokens ∧ c.position < tokens.length ∧ c.depth ≤ limit
  | returned p before success after => after.depth = before.depth ∧ before.position ≤ after.position ∧
      (success = true → p.consumes = true → before.position < after.position)

namespace Scene

variable {S : Scene} {us vs : List Token} {t : Token} {n : Nat} {α β : Type}

theorem sound_reached : (Event.reached (S.cursor us n)).Sound S.tokens S.limit := by
  refine ⟨rfl, ?_, Nat.sub_le ..⟩
  rw [tokens, List.length_append]
  exact Nat.lt_succ_of_le (Nat.sub_le ..)

/-! ## Following a parser -/

variable (S)

/-- What is told of a failure of a parser. -/
def report (f : Failure) : Report := (f.cause.at (S.next f.rest)).report

/-- What a parser gives from the tokens `us` is what a script gives, and where it leaves the cursor. -/
inductive Answers (us : List Token) (n : Nat) :
    Except Failure (α × List Token) → Except Report α → Cursor → Prop
  | ok {a rest} : rest <:+ us → Answers us n (.ok (a, rest)) (.ok a) (S.cursor rest n)
  | error {f vs} : vs <:+ us → Answers us n (.error f) (.error (S.report f)) (S.cursor vs n)

def Follows (s : Script α) (us : List Token) (n : Nat) (out : Except Failure (α × List Token)) : Prop :=
  ∃ es r d, Runs s (S.cursor us n) es r d ∧ (∀ e ∈ es, e.Sound S.tokens S.limit) ∧ S.Answers us n out r d

variable {S} {s : Script α} {out : Except Failure (α × List Token)}

theorem Answers.trans {r : Except Report α} {d : Cursor} (h : S.Answers vs n out r d) (hvs : vs <:+ us) :
    S.Answers us n out r d := by
  cases h with
  | ok hrest => exact .ok (hrest.trans hvs)
  | error hrest => exact .error (hrest.trans hvs)

theorem follows_pure (a : α) : S.Follows (pure a) us n (.ok (a, us)) :=
  ⟨[], _, _, .done, by simp, .ok (List.suffix_refl us)⟩

theorem follows_failAt (f : Failure) :
    S.Follows (failAt f.cause.message (S.next f.rest) : Script α) us n (.error f) :=
  ⟨[], _, _, .done, by simp, .error (List.suffix_refl us)⟩

/-- The parser may have been given the first tokens already. -/
theorem Follows.bind {p : Parser α} {q : α → Parser β} {f : α → Script β}
    (h : S.Follows s us n (p.run vs))
    (hf : ∀ a rest, p.run vs = .ok (a, rest) → rest <:+ us → S.Follows (f a) rest n ((q a).run rest)) :
    S.Follows (s >>= f) us n ((p >>= q).run vs) := by
  obtain ⟨es, r, d, hrun, hes, hans⟩ := h
  rw [Parser.run_bind]
  generalize p.run vs = out at hf hans
  cases hans with
  | error hvs => exact ⟨es, _, _, hrun.bind_error, hes, .error hvs⟩
  | ok hrest =>
    obtain ⟨fs, r, d, hrun', hfs, hans'⟩ := hf _ _ rfl hrest
    refine ⟨es ++ fs, r, d, hrun.bind hrun', ?_, hans'.trans hrest⟩
    rw [List.forall_mem_append]
    exact ⟨hes, hfs⟩

theorem Follows.operation {o : Operation β} {b : β} {f : β → Script α}
    (he : o.exec (S.cursor us n) = some (b, S.cursor vs n)) (hvs : vs <:+ us)
    (h : S.Follows (f b) vs n out) : S.Follows (operation o >>= f) us n out := by
  obtain ⟨es, r, d, hrun, hes, hans⟩ := h
  refine ⟨_, r, d, .perform he hrun, ?_, hans.trans hvs⟩
  rw [List.forall_mem_cons]
  exact ⟨sound_reached, hes⟩

/-! ## Single tokens -/

theorem Follows.current {f : Token → Script α} (hus : us <:+ S.body)
    (h : S.Follows (f (S.next us)) us n out) : S.Follows (current >>= f) us n out := by
  have he := exec_peek (n := n) hus 0
  rw [← List.head?_eq_getElem?] at he
  exact .operation he (List.suffix_refl us) h

theorem Follows.advance {f : Token → Script α} (hus : t :: us <:+ S.body)
    (h : S.Follows (f t) us n out) : S.Follows (advance >>= f) (t :: us) n out :=
  .operation (exec_advance hus) (List.suffix_cons t us) h

theorem follows_fail (c : Cause) (hus : us <:+ S.body) :
    S.Follows (fail c.message : Script α) us n (.error ⟨c, us⟩) :=
  .current hus (follows_failAt ⟨c, us⟩)

/-- An expected token that is there, whatever would be said if it was not. -/
theorem Follows.expect_cons {k : TokenKind} {m : String} {f : Token → Script α} (hus : t :: us <:+ S.body)
    (hk : t.kind = k) (h : S.Follows (f t) us n out) : S.Follows (expect k m >>= f) (t :: us) n out := by
  show S.Follows (Script.current >>= fun u => (if u.kind = k then Script.advance else fail m) >>= f) _ _ _
  refine .current hus ?_
  rw [next_cons, if_pos hk]
  exact .advance hus h

theorem Follows.expect_other {k : TokenKind} {c : Cause} {f : Token → Script α} (hus : us <:+ S.body)
    (hk : (S.next us).kind ≠ k) : S.Follows (expect k c.message >>= f) us n (.error ⟨c, us⟩) := by
  show S.Follows (Script.current >>= fun u =>
    (if u.kind = k then Script.advance else fail c.message) >>= f) _ _ _
  refine .current hus ?_
  rw [if_neg hk]
  exact follows_fail c hus

theorem follows_expect {k : TokenKind} (c : Cause) (hk : k ≠ .eof) (hus : us <:+ S.body) :
    S.Follows (expect k c.message) us n ((Parser.expect k c).run us) := by
  refine .current hus ?_
  cases us with
  | nil =>
    rw [next_nil, if_neg (S.isEnd ▸ hk.symm)]
    exact follows_fail c hus
  | cons t us =>
    rw [next_cons, Parser.run_expect_cons]
    by_cases h : t.kind = k
    · rw [if_pos h, if_pos h]
      exact .operation (exec_advance hus) (List.suffix_cons t us) (follows_pure t)
    · rw [if_neg h, if_neg h]
      exact follows_fail c hus

theorem Follows.accept_cons {k : TokenKind} {f : Option Token → Script α} (hus : t :: us <:+ S.body)
    (hk : t.kind = k) (h : S.Follows (f (some t)) us n out) :
    S.Follows (accept? k >>= f) (t :: us) n out := by
  refine .current (f := fun u => (if u.kind = k then some <$> Script.advance else pure none) >>= f) hus ?_
  rw [next_cons, if_pos hk]
  exact .advance hus h

theorem Follows.accept_other {k : TokenKind} {f : Option Token → Script α} (hus : us <:+ S.body)
    (hk : (S.next us).kind ≠ k) (h : S.Follows (f none) us n out) :
    S.Follows (accept? k >>= f) us n out := by
  refine .current (f := fun u => (if u.kind = k then some <$> Script.advance else pure none) >>= f) hus ?_
  rw [if_neg hk]
  exact h

/-! ## Calls -/

/-- A production that has to take a token takes one when it succeeds. -/
def Progress (p : Production α) (us : List Token) (out : Except Failure (α × List Token)) : Prop :=
  p.consumes = true → ∀ a rest, out = .ok (a, rest) → rest.length < us.length

theorem sound_returned {p : Production α} {r : Except Report α} {d : Cursor} (hus : us <:+ S.body)
    (h : S.Answers us n out r d) (hp : Progress p us out) :
    (Event.returned p (S.cursor us n) r.isOk d).Sound S.tokens S.limit := by
  have hlen := hus.length_le
  cases h with
  | error hvs =>
    have := hvs.length_le
    exact ⟨rfl, Nat.sub_le_sub_left this _, nofun⟩
  | ok hrest =>
    have := hrest.length_le
    refine ⟨rfl, Nat.sub_le_sub_left this _, fun _ hc => ?_⟩
    have := hp hc _ _ rfl
    simp only [cursor]
    omega

theorem follows_production {p : Production α} (hus : us <:+ S.body) (h : S.Follows p.body us n out)
    (hp : Progress p us out) : S.Follows (production p) us n out := by
  obtain ⟨es, r, d, hrun, hes, hans⟩ := h
  refine ⟨_, r, d, .call hrun .done, ?_, hans⟩
  rw [List.forall_mem_append, List.forall_mem_singleton]
  exact ⟨hes, sound_returned hus hans hp⟩

theorem progress_behind (p : Production α) (q : Parser α) : Progress p (t :: us) (q.run us) :=
  fun _ _ _ h => Nat.lt_succ_of_le (q.suffix_of_ok h).length_le

theorem follows_headed {p : Production α} {q : Parser α} {k : TokenKind} {m : String}
    {f : Token → Script α} (hbody : p.body = expect k m >>= f) (hus : t :: us <:+ S.body)
    (ht : t.kind = k) (h : us <:+ S.body → S.Follows (f t) us n (q.run us)) :
    S.Follows (production p) (t :: us) n (q.run us) := by
  refine follows_production hus ?_ (progress_behind p q)
  rw [hbody]
  exact .expect_cons hus ht (h ((List.suffix_cons t us).trans hus))

theorem follows_nested_zero {p : Production α} (hus : us <:+ S.body) :
    S.Follows (nested p) us 0 (.error ⟨.tooDeep, us⟩) :=
  .operation exec_descend_zero (List.suffix_refl us) (follows_fail .tooDeep hus)

theorem follows_nested_succ {p : Production α} (hus : us <:+ S.body) (hn : n + 1 ≤ S.limit)
    (h : S.Follows p.body us n out) (hp : Progress p us out) : S.Follows (nested p) us (n + 1) out := by
  obtain ⟨es, r, d, hrun, hes, hans⟩ := h
  have hcall := sound_returned hus hans hp
  obtain ⟨vs, rfl, hans'⟩ : ∃ vs, d = S.cursor vs n ∧ S.Answers us (n + 1) out r (S.cursor vs (n + 1)) := by
    cases hans with
    | ok hrest => exact ⟨_, rfl, .ok hrest⟩
    | error hvs => exact ⟨_, rfl, .error hvs⟩
  refine ⟨_, r, _, .perform (exec_descend_succ hn) (.call hrun (.perform (exec_ascend hn) .done)), ?_, hans'⟩
  simp only [List.forall_mem_cons, List.forall_mem_append]
  exact ⟨sound_reached, hes, hcall, sound_reached, by simp⟩

variable (S)

/-- The script follows the parser wherever the cursor is. -/
def Tracks (s : Script α) (n : Nat) (p : Parser α) : Prop :=
  ∀ us, us <:+ S.body → S.Follows s us n (p.run us)

variable {S}

theorem tracks_production {p : Production α} {q : Parser α} (h : S.Tracks p.body n q)
    (hq : p.consumes = true → q.Consumes) : S.Tracks (production p) n q :=
  fun us hus => follows_production hus (h us hus) fun hc _ _ ho => hq hc ho

/-- A loop, by induction on what is left: each round may go on with fewer tokens. -/
theorem tracks_loop {loop : β → Production α} {p : β → Parser α} (hloop : ∀ b, (loop b).consumes = false)
    (round : ∀ us, us <:+ S.body →
      (∀ vs b, vs <:+ S.body → vs.length < us.length →
        S.Follows (production (loop b)) vs n ((p b).run vs)) →
      ∀ b, S.Follows (loop b).body us n ((p b).run us)) (b : β) :
    S.Tracks (production (loop b)) n (p b) := by
  intro us hus
  induction hlen : us.length using Nat.strong_induction_on generalizing us b with
  | _ len ih =>
    subst hlen
    refine follows_production hus (round us hus (fun vs b hvs hlt => ih _ hlt b vs hvs rfl) b) ?_
    rw [Progress, hloop]
    exact nofun

end Scene

end PolicyLang
