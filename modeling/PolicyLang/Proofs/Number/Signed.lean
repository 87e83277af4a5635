import Mathlib.Data.Nat.Digits.Defs
import PolicyLang.Proofs.Number.Numeral

/-!
# Signed numerals

An integer is read from an optional sign and at least one digit, where its value is in range, and from
nothing else. Zeros in front of the digits do not count.
-/

namespace PolicyLang

open Lexical

/-- The number that digits stand for; the last one counts the units. -/
def decimal (ds : List Char) : Nat := Nat.ofDigits 10 (ds.reverse.map fun d => d.toNat - '0'.toNat)

/-- `Numeral cs n`: the text `cs` is one sign at most and then digits, and its value is `n`. -/
inductive Numeral : List Char → Int → Prop
  | plain {ds} : Digits ds → Numeral ds (decimal ds)
  | plus {ds} : Digits ds → Numeral ('+' :: ds) (decimal ds)
  | minus {ds} : Digits ds → Numeral ('-' :: ds) (-(decimal ds))

theorem ofDigitChars_eq_decimal (ds : List Char) : Nat.ofDigitChars 10 ds 0 = decimal ds := by
  induction ds using List.reverseRecOn with
  | nil => rfl
  | append_singleton ds d ih =>
    rw [Nat.ofDigitChars_append, ih, Nat.ofDigitChars_cons, Nat.ofDigitChars_nil, decimal, decimal,
      List.reverse_append, List.reverse_singleton, List.singleton_append, List.map_cons,
      Nat.ofDigits_cons, Nat.add_comm]

theorem decimal_zeros (k : Nat) (ds : List Char) : decimal (List.replicate k '0' ++ ds) = decimal ds := by
  rw [← ofDigitChars_eq_decimal, Decimal.ofDigitChars_zeros, ofDigitChars_eq_decimal]

theorem digits_iff {cs : List Char} : Digits cs ↔ cs ≠ [] ∧ cs.all Char.isDigit = true := by
  simp only [Digits, List.all_eq_true, isDigit_iff]

theorem natOfDigits?_eq_some_iff {cs : List Char} {n : Nat} :
    natOfDigits? cs = some n ↔ Digits cs ∧ decimal cs = n := by
  unfold natOfDigits?
  by_cases h : Digits cs
  · rw [if_pos (digits_iff.mp h), ofDigitChars_eq_decimal, Option.some_inj]
    exact (and_iff_right h).symm
  · rw [if_neg (mt digits_iff.mpr h)]
    simp [h]

theorem intOfDigits?_eq (cs : List Char) : intOfDigits? cs =
    (natOfDigits? (splitSign cs).2).map fun n : Nat => if (splitSign cs).1 then -(n : Int) else n := by
  unfold intOfDigits?
  obtain ⟨negative, digits⟩ := splitSign cs
  dsimp only
  cases natOfDigits? digits <;> rfl

theorem intOfDigits?_eq_some_iff {cs : List Char} {n : Int} :
    intOfDigits? cs = some n ↔ Numeral cs n := by
  rw [intOfDigits?_eq]
  constructor
  · intro h
    obtain ⟨m, hm, rfl⟩ := Option.map_eq_some_iff.mp h
    obtain ⟨hds, rfl⟩ := natOfDigits?_eq_some_iff.mp hm
    revert hds
    unfold splitSign
    split
    · exact .plus
    · exact .minus
    · exact .plain
  · intro h
    cases h with
    | plain h =>
      rw [splitSign_of_digits fun c hc => h.2 c (List.mem_of_mem_head? hc)]
      simp [natOfDigits?_eq_some_iff.mpr ⟨h, rfl⟩]
    | plus h => simp [splitSign, natOfDigits?_eq_some_iff.mpr ⟨h, rfl⟩]
    | minus h => simp [splitSign, natOfDigits?_eq_some_iff.mpr ⟨h, rfl⟩]

theorem Numeral.unique {cs : List Char} {m n : Int} (hm : Numeral cs m) (hn : Numeral cs n) : m = n := by
  rw [← intOfDigits?_eq_some_iff] at hm hn
  exact Option.some_inj.mp (hm.symm.trans hn)

theorem readInt?_eq_some_iff {text : String} {n : Int} :
    readInt? text = some n ↔ Numeral text.toList n ∧ InRange n := by
  rw [readInt?, Option.filter_eq_some_iff, intOfDigits?_eq_some_iff, decide_eq_true_iff]

end PolicyLang
