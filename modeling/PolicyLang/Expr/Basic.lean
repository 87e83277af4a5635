import PolicyLang.Span
import PolicyLang.Vocabulary
import PolicyLang.Number.Binary64

/-!
# Conditions

The expression tree of a condition. Every node has a span; parentheses leave no node.
-/

namespace PolicyLang

inductive Literal where
  | int (n : Int)
  | float (x : Binary64)
  | str (s : String)
  | bool (b : Bool)
deriving DecidableEq, Repr

inductive Expr where
  | literal (value : Literal) (span : Span)
  | ident (name : String) (span : Span)
  | attr (object : Expr) (name : String) (span : Span)
  | call (callee : Expr) (args : List Expr) (span : Span)
  | negate (operand : Expr) (span : Span)
  | binary (op : BinaryOp) (left right : Expr) (span : Span)
deriving Repr

namespace Expr

def span : Expr → Span
  | literal _ s | ident _ s | attr _ _ s | call _ _ s | negate _ s | binary _ _ _ s => s

/-- Two operands under an operator, with the span from the first to the second. -/
def join (op : BinaryOp) (left right : Expr) : Expr :=
  binary op left right (left.span.to right.span)

/-! ## Equality, spans included -/

mutual

def same : Expr → Expr → Bool
  | literal v s, literal w t => v == w && s == t
  | ident n s, ident m t => n == m && s == t
  | attr e n s, attr f m t => same e f && n == m && s == t
  | call e as s, call f bs t => same e f && sameAll as bs && s == t
  | negate e s, negate f t => same e f && s == t
  | binary o e₁ e₂ s, binary p f₁ f₂ t => o == p && same e₁ f₁ && same e₂ f₂ && s == t
  | _, _ => false

def sameAll : List Expr → List Expr → Bool
  | [], [] => true
  | e :: es, f :: fs => same e f && sameAll es fs
  | _, _ => false

end

mutual

theorem same_self : ∀ e : Expr, same e e = true
  | literal v s => by simp [same]
  | ident n s => by simp [same]
  | attr e n s => by simp [same, same_self e]
  | call e as s => by simp [same, same_self e, sameAll_self as]
  | negate e s => by simp [same, same_self e]
  | binary o e f s => by simp [same, same_self e, same_self f]

theorem sameAll_self : ∀ es : List Expr, sameAll es es = true
  | [] => by simp [sameAll]
  | e :: es => by simp [sameAll, same_self e, sameAll_self es]

end

mutual

theorem eq_of_same : ∀ e f : Expr, same e f = true → e = f
  | literal v s, f, h => by cases f <;> simp_all [same]
  | ident n s, f, h => by cases f <;> simp_all [same]
  | attr e n s, f, h => by
    cases f <;> simp [same] at h
    rw [eq_of_same _ _ h.1.1, h.1.2, h.2]
  | call e as s, f, h => by
    cases f <;> simp [same] at h
    rw [eq_of_same _ _ h.1.1, eq_of_sameAll _ _ h.1.2, h.2]
  | negate e s, f, h => by
    cases f <;> simp [same] at h
    rw [eq_of_same _ _ h.1, h.2]
  | binary o e₁ e₂ s, f, h => by
    cases f <;> simp [same] at h
    rw [h.1.1.1, eq_of_same _ _ h.1.1.2, eq_of_same _ _ h.1.2, h.2]

theorem eq_of_sameAll : ∀ es fs : List Expr, sameAll es fs = true → es = fs
  | [], fs, h => by cases fs <;> simp_all [sameAll]
  | e :: es, fs, h => by
    cases fs <;> simp [sameAll] at h
    rw [eq_of_same _ _ h.1, eq_of_sameAll _ _ h.2]

end

theorem same_iff {e f : Expr} : same e f = true ↔ e = f :=
  ⟨eq_of_same e f, fun h => h ▸ same_self e⟩

instance : DecidableEq Expr := fun _ _ => decidable_of_iff _ same_iff

end Expr

end PolicyLang
