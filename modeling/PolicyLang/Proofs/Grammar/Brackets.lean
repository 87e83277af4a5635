import Mathlib.Tactic.ByContra
import PolicyLang.Proofs.Grammar.Phrase

/-!
# Balanced parentheses

Every phrase closes the parentheses that it opens. A part of a phrase need not, and what follows says
when a part that begins or ends inside of them does.
-/

namespace PolicyLang

/-- The tokens close `n` open parentheses, those that they open themselves, and no other. -/
def closes : Nat → List Token → Bool
  | n, [] => n == 0
  | n, t :: ts =>
    if t.kind = .lparen then closes (n + 1) ts
    else if t.kind = .rparen then 0 < n && closes (n - 1) ts
    else closes n ts

def Balanced (us : List Token) : Prop := closes 0 us = true

instance : DecidablePred Balanced := fun us => inferInstanceAs (Decidable (closes 0 us = true))

/-- A token of this kind neither opens nor closes a parenthesis. -/
def Neutral (k : TokenKind) : Prop := k ≠ .lparen ∧ k ≠ .rparen

section
variable {n m : Nat} {us vs : List Token} {t : Token}

theorem closes_lparen (ht : t.kind = .lparen) : closes n (t :: us) = closes (n + 1) us := if_pos ht

theorem closes_rparen (ht : t.kind = .rparen) : closes (n + 1) (t :: us) = closes n us := by
  simp [closes, ht]

theorem closes_zero_rparen (ht : t.kind = .rparen) : closes 0 (t :: us) = false := by
  simp [closes, ht]

theorem closes_neutral (ht : Neutral t.kind) : closes n (t :: us) = closes n us := by
  simp [closes, ht.1, ht.2]

/-- Tokens that close `m` parentheses leave any further ones to what stands behind them. -/
theorem closes_append (h : closes m us = true) (n : Nat) (vs : List Token) :
    closes (n + m) (us ++ vs) = closes n vs := by
  induction us generalizing m n with
  | nil =>
    obtain rfl : m = 0 := by simpa [closes] using h
    rfl
  | cons t us ih =>
    by_cases hl : t.kind = .lparen
    · rw [closes_lparen hl] at h
      rw [List.cons_append, closes_lparen hl, Nat.add_assoc, ih h]
    by_cases hr : t.kind = .rparen
    · cases m with
      | zero =>
        rw [closes_zero_rparen hr] at h
        cases h
      | succ m =>
        rw [closes_rparen hr] at h
        rw [List.cons_append, ← Nat.add_assoc, closes_rparen hr, ih h]
    · rw [closes_neutral ⟨hl, hr⟩] at h
      rw [List.cons_append, closes_neutral ⟨hl, hr⟩, ih h]

/-- Tokens that close `m` parentheses need as many to be open. -/
theorem closes_append_of_lt (h : closes m us = true) (hn : n < m) : closes n (us ++ vs) = false := by
  induction us generalizing m n with
  | nil =>
    obtain rfl : m = 0 := by simpa [closes] using h
    cases hn
  | cons t us ih =>
    by_cases hl : t.kind = .lparen
    · rw [closes_lparen hl] at h
      rw [List.cons_append, closes_lparen hl, ih h (Nat.succ_lt_succ hn)]
    by_cases hr : t.kind = .rparen
    · cases n with
      | zero => rw [List.cons_append, closes_zero_rparen hr]
      | succ n =>
        obtain ⟨m, rfl⟩ : ∃ k, m = k + 1 := ⟨m - 1, by omega⟩
        rw [closes_rparen hr] at h
        rw [List.cons_append, closes_rparen hr, ih h (Nat.lt_of_succ_lt_succ hn)]
    · rw [closes_neutral ⟨hl, hr⟩] at h
      rw [List.cons_append, closes_neutral ⟨hl, hr⟩, ih h hn]

theorem closes_lparens {os : List Token} (hos : ∀ t ∈ os, t.kind = .lparen) :
    closes n (os ++ us) = closes (n + os.length) us := by
  induction os generalizing n with
  | nil => rfl
  | cons o os ih =>
    obtain ⟨ho, hos⟩ := List.forall_mem_cons.mp hos
    rw [List.cons_append, closes_lparen ho, ih hos, List.length_cons, Nat.add_assoc,
      Nat.add_comm 1]

theorem closes_append_neutral (hvs : ∀ t ∈ vs, Neutral t.kind) :
    closes n (us ++ vs) = closes n us := by
  induction us generalizing n with
  | nil =>
    induction vs with
    | nil => rfl
    | cons t vs ih =>
      obtain ⟨ht, hvs⟩ := List.forall_mem_cons.mp hvs
      rw [List.nil_append, closes_neutral ht]
      exact ih hvs
  | cons t us ih => simp only [List.cons_append, closes, ih]

theorem closes_congr (h : us.map Token.kind = vs.map Token.kind) : closes n us = closes n vs := by
  induction us generalizing n vs with
  | nil =>
    obtain rfl := List.map_eq_nil_iff.mp h.symm
    rfl
  | cons t us ih =>
    obtain ⟨u, vs, rfl, hu, hus⟩ := List.map_eq_cons_iff.mp h.symm
    simp only [closes, hu, ih hus.symm]

namespace Balanced

theorem nil : Balanced [] := rfl

theorem append_iff (hu : Balanced us) : Balanced (us ++ vs) ↔ Balanced vs := by
  have := closes_append hu 0 vs
  rw [Balanced, Balanced, ← this]

theorem append (hu : Balanced us) (hv : Balanced vs) : Balanced (us ++ vs) :=
  hu.append_iff.mpr hv

theorem cons_iff (ht : Neutral t.kind) : Balanced (t :: us) ↔ Balanced us := by
  rw [Balanced, closes_neutral ht, Balanced]

theorem cons (ht : Neutral t.kind) (hu : Balanced us) : Balanced (t :: us) := (cons_iff ht).mpr hu

theorem append_neutral_iff (hvs : ∀ t ∈ vs, Neutral t.kind) : Balanced (us ++ vs) ↔ Balanced us := by
  rw [Balanced, closes_append_neutral hvs, Balanced]

theorem congr (h : us.map Token.kind = vs.map Token.kind) : Balanced us ↔ Balanced vs := by
  rw [Balanced, closes_congr h, Balanced]

theorem parens {l r : Token} (hl : l.kind = .lparen) (hu : Balanced us) (hr : r.kind = .rparen) :
    Balanced (l :: (us ++ [r])) := by
  have := closes_append hu 1 [r]
  rw [Balanced, closes_lparen hl, this, closes_rparen hr]
  rfl

theorem eq_nil_of_lparens {os : List Token} (h : Balanced (os ++ us))
    (hos : ∀ t ∈ os, t.kind = .lparen) (hu : Balanced (us ++ vs)) : os = [] := by
  by_contra hne
  have hlen : 0 < 0 + os.length := by simpa using List.length_pos_iff.mpr hne
  rw [Balanced, closes_lparens hos] at h
  rw [Balanced, closes_append_of_lt h hlen] at hu
  cases hu

theorem eq_nil_of_rparens {cs : List Token} (h : Balanced (us ++ cs))
    (hcs : ∀ t ∈ cs, t.kind = .rparen) (hu : Balanced us) : cs = [] := by
  rw [hu.append_iff] at h
  cases cs with
  | nil => rfl
  | cons c cs =>
    rw [Balanced, closes_zero_rparen (hcs c (by simp))] at h
    cases h

/-- Two balanced parts lose their balance if the first one loses parentheses in front, or the second
one behind. -/
theorem eq_nil_of_ends {os cs : List Token} (hu : Balanced (os ++ us)) (hv : Balanced (vs ++ cs))
    (ht : Neutral t.kind) (hos : ∀ t ∈ os, t.kind = .lparen) (hcs : ∀ t ∈ cs, t.kind = .rparen)
    (h : Balanced (us ++ t :: vs)) : os = [] ∧ cs = [] := by
  obtain rfl := hu.eq_nil_of_lparens hos h
  rw [List.nil_append] at hu
  rw [hu.append_iff, cons_iff ht] at h
  exact ⟨rfl, hv.eq_nil_of_rparens hcs h⟩

end Balanced

end

namespace Grammar

/-! ## Conditions -/

theorem neutral_of_name {k : TokenKind} (h : k = .ident ∨ k.isKeyword = true) : Neutral k := by
  constructor <;>
  · intro hk
    subst hk
    simp [TokenKind.isKeyword] at h

mutual

theorem OrPhrase.balanced : ∀ {us e}, OrPhrase us e → Balanced us
  | _, _, .mk he hfs => he.balanced.append hfs.balanced

theorem OrTail.balanced : ∀ {e us f}, OrTail e us f → Balanced us
  | _, _, _, .nil => .nil
  | _, _, _, .cons ht hf hfs => .cons (by simp [ht, Neutral]) (hf.balanced.append hfs.balanced)

theorem AndPhrase.balanced : ∀ {us e}, AndPhrase us e → Balanced us
  | _, _, .mk he hfs => he.balanced.append hfs.balanced

theorem AndTail.balanced : ∀ {e us f}, AndTail e us f → Balanced us
  | _, _, _, .nil => .nil
  | _, _, _, .cons ht hf hfs => .cons (by simp [ht, Neutral]) (hf.balanced.append hfs.balanced)

theorem NotPhrase.balanced : ∀ {us e}, NotPhrase us e → Balanced us
  | _, _, .not ht he => .cons (by simp [ht, Neutral]) he.balanced
  | _, _, .plain he => he.balanced

theorem ComparisonPhrase.balanced : ∀ {us e}, ComparisonPhrase us e → Balanced us
  | _, _, .value he => he.balanced
  | _, _, .compare he ht hf => he.balanced.append (.cons (by simp [ht, Neutral]) hf.balanced)

theorem ValuePhrase.balanced : ∀ {us e}, ValuePhrase us e → Balanced us
  | _, _, .number ht _ => .cons (by simp [ht, Neutral]) .nil
  | _, _, .string ht => .cons (by simp [ht, Neutral]) .nil
  | _, _, .boolean ht => .cons (by simp [ht, Neutral]) .nil
  | _, _, .parens hl he hr => he.balanced.parens hl hr
  | _, _, .chain ht hc hls => .cons (by simp [ht, Neutral]) (hc.balanced.append hls.balanced)

theorem CallPhrase.balanced : ∀ {e us f}, CallPhrase e us f → Balanced us
  | _, _, _, .none => .nil
  | _, _, _, .empty hl hr => Balanced.nil.parens hl hr
  | _, _, _, .args hl he hfs hr => by
    have := (he.balanced.append hfs.balanced).parens hl hr
    rwa [List.append_assoc] at this

theorem ArgTail.balanced : ∀ {us fs}, ArgTail us fs → Balanced us
  | _, _, .nil => .nil
  | _, _, .cons ht hf hfs => .cons (by simp [ht, Neutral]) (hf.balanced.append hfs.balanced)

theorem LinkTail.balanced : ∀ {e us f}, LinkTail e us f → Balanced us
  | _, _, _, .nil => .nil
  | _, _, _, .cons hd hn hc hls =>
    .cons (by simp [hd, Neutral]) (.cons (neutral_of_name hn) (hc.balanced.append hls.balanced))

end

/-! ## Documents -/

theorem ActionPhrase.balanced {us : List Token} {a : Action} : ActionPhrase us a → Balanced us
  | .deny ht => .cons (by simp [ht, Neutral]) .nil
  | .allow ht => .cons (by simp [ht, Neutral]) .nil
  | .escalate ht => .cons (by simp [ht, Neutral]) .nil
  | .route ht ho hn => .cons (by simp [ht, Neutral]) (.cons (by simp [ho, Neutral])
      (.cons (by simp [hn, Neutral]) .nil))

theorem ClausePhrase.balanced : ∀ {us c}, ClausePhrase us c → Balanced us
  | _, _, .priority (.mk hp hn _ _) =>
    .cons (by simp [hp, Neutral]) (.cons (by simp [hn, Neutral]) .nil)
  | _, _, .guard (.mk hw he ht ha) =>
    .cons (by simp [hw, Neutral]) (he.balanced.append (.cons (by simp [ht, Neutral]) ha.balanced))
  | _, _, .action ha => ha.balanced

theorem Many.balanced {α : Type} {D : List Token → α → Prop} {us : List Token} {as : List α}
    (h : Many D us as) (hD : ∀ us a, D us a → Balanced us) : Balanced us := by
  induction h with
  | nil => exact .nil
  | cons ha _ ih => exact (hD _ _ ha).append ih

/-- The words around the body of a declaration. -/
theorem balanced_block {w n o k b e : Token} {c : Category} {us : List Token}
    (hw : Neutral w.kind) (hn : n.kind = .ident) (ho : o.kind = .colon)
    (hk : k.kind = .category c) (hb : b.kind = .lbrace) (hus : Balanced us) (he : e.kind = .rbrace) :
    Balanced (w :: n :: o :: k :: b :: (us ++ [e])) :=
  .cons hw (.cons (by simp [hn, Neutral]) (.cons (by simp [ho, Neutral])
    (.cons (by simp [hk, Neutral]) (.cons (by simp [hb, Neutral])
      (hus.append (.cons (by simp [he, Neutral]) .nil))))))

theorem RulePhrase.balanced {us : List Token} {r : Rule} : RulePhrase us r → Balanced us
  | .mk hw hn ho hk hb hus he => balanced_block (by simp [hw, Neutral]) hn ho hk hb
      (hus.balanced fun _ _ => ClausePhrase.balanced) he

theorem ItemPhrase.balanced {us : List Token} {i : PolicyItem} : ItemPhrase us i → Balanced us
  | .ref hw hn => .cons (by simp [hw, Neutral]) (.cons (by simp [hn, Neutral]) .nil)
  | .rule hr => hr.balanced
  | .clause hc => hc.balanced

theorem StatementPhrase.balanced : ∀ {us s}, StatementPhrase us s → Balanced us
  | _, _, .policy (.mk hw hn ho hk hb hus he) => balanced_block (by simp [hw, Neutral]) hn ho hk hb
      (hus.balanced fun _ _ => ItemPhrase.balanced) he
  | _, _, .rule hr => hr.balanced
  | _, _, .imports (.mk hi hs) => .cons (by simp [hi, Neutral]) (.cons (by simp [hs, Neutral]) .nil)

theorem Document.balanced {us : List Token} {ss : List Statement} (h : Document us ss) :
    Balanced us :=
  Many.balanced h fun _ _ => StatementPhrase.balanced

end Grammar

end PolicyLang
