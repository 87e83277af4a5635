import PolicyLang.Proofs.Lexical.Runs
import PolicyLang.Proofs.Number.Shortest

/-!
# Numerals

The text of a number is digits, with a point between them for a double, and reads back as that
number.
-/

namespace PolicyLang

open Lexical

/-! ## Digits -/

def Digits (cs : List Char) : Prop := cs ≠ [] ∧ ∀ c ∈ cs, Digit c

theorem digits_toDigits (n : Nat) : Digits (Nat.toDigits 10 n) :=
  ⟨Nat.toDigits_ne_nil, fun c hc => (isDigit_iff c).mp
    (Nat.isDigit_of_mem_toDigits (by decide) (by decide) hc)⟩

theorem Digits.append {cs ds : List Char} (hc : Digits cs) (hd : ∀ d ∈ ds, Digit d) :
    Digits (cs ++ ds) := by
  refine ⟨by simp [hc.1], fun c h => ?_⟩
  rcases List.mem_append.mp h with h | h
  · exact hc.2 c h
  · exact hd c h

theorem digit_zero : Digit '0' := by decide

theorem splitSign_of_digits {cs : List Char} (h : ∀ c ∈ cs.head?, Digit c) :
    splitSign cs = (false, cs) := by
  unfold splitSign
  split
  · exact absurd (h '+' rfl) (by decide)
  · exact absurd (h '-' rfl) (by decide)
  · rfl

/-! ## Integers -/

theorem natOfDigits?_of_digits {cs : List Char} (h : Digits cs) :
    natOfDigits? cs = some (Nat.ofDigitChars 10 cs 0) :=
  if_pos ⟨h.1, List.all_eq_true.mpr fun c hc => (isDigit_iff c).mpr (h.2 c hc)⟩

theorem intOfDigits?_of_digits {cs : List Char} (h : Digits cs) :
    intOfDigits? cs = some (Nat.ofDigitChars 10 cs 0 : Int) := by
  unfold intOfDigits?
  rw [splitSign_of_digits fun c hc => h.2 c (List.mem_of_mem_head? hc)]
  simp only [natOfDigits?_of_digits h]
  rfl

/-- The integers that are written without a sign. -/
def Unsigned (n : Int) : Prop := 0 ≤ n ∧ n < 0x8000000000000000

theorem readInt?_of_digits {cs : List Char} {n : Int} (hcs : Digits cs)
    (h : readInt? (.ofList cs) = some n) : Unsigned n := by
  unfold readInt? at h
  rw [String.toList_ofList, intOfDigits?_of_digits hcs] at h
  obtain ⟨h, hr⟩ := Option.filter_eq_some_iff.mp h
  cases h
  exact ⟨Int.natCast_nonneg _, (of_decide_eq_true hr).2⟩

theorem Digits.not_dot_mem {cs : List Char} (h : Digits cs) : '.' ∉ cs :=
  fun hm => absurd (h.2 '.' hm) (by decide)

theorem exists_repr_of_unsigned {n : Int} (h : Unsigned n) :
    ∃ cs, n.repr = .ofList cs ∧ Digits cs ∧ readInt? n.repr = some n := by
  obtain ⟨m, rfl⟩ := Int.eq_ofNat_of_zero_le h.1
  have hrepr : (m : Int).repr = .ofList (Nat.toDigits 10 m) := Nat.repr_eq_ofList_toDigits
  refine ⟨_, hrepr, digits_toDigits m, ?_⟩
  unfold readInt?
  rw [hrepr, String.toList_ofList, intOfDigits?_of_digits (digits_toDigits m),
    Nat.ofDigitChars_ten_toDigits]
  refine Option.filter_eq_some_iff.mpr ⟨rfl, decide_eq_true ⟨?_, h.2⟩⟩
  exact Int.le_trans (by decide) h.1

theorem not_dot_mem_repr {n : Int} (h : Unsigned n) : '.' ∉ n.repr.toList := by
  obtain ⟨cs, hcs, hd, -⟩ := exists_repr_of_unsigned h
  rw [hcs, String.toList_ofList]
  exact hd.not_dot_mem

/-! ## Decimals -/

namespace Decimal

def ofPoint (whole fraction : List Char) : Decimal :=
  ⟨Nat.ofDigitChars 10 (whole ++ fraction) 0, -(fraction.length : Int)⟩

theorem read?_of_digits {whole fraction : List Char} (hw : Digits whole) (hf : Digits fraction) :
    read? (whole ++ '.' :: fraction) = some (ofPoint whole fraction) := by
  have hdot : NotBefore ('.' :: fraction) Digit := by rintro _ ⟨⟩; decide
  have hend : NotBefore [] Digit := by rintro _ ⟨⟩
  obtain ⟨ht, hd⟩ := takeWhile_append isDigit_iff hw.2 hdot
  obtain ⟨ht', hd'⟩ := takeWhile_append isDigit_iff hf.2 hend
  rw [List.append_nil] at ht' hd'
  have hne : whole ++ fraction ≠ [] := by simp [hw.1]
  unfold read?
  rw [ht, hd]
  simp only [ht', hd', if_neg hne, readExponent?, Option.map_some, Int.zero_sub]
  rfl

theorem ofDigitChars_zeros (n : Nat) (cs : List Char) :
    Nat.ofDigitChars 10 (List.replicate n '0' ++ cs) 0 = Nat.ofDigitChars 10 cs 0 := by
  rw [Nat.ofDigitChars_append, Nat.ofDigitChars_replicate_zero, Nat.mul_zero]

theorem value_ofPoint_zero (whole : List Char) :
    (ofPoint whole ['0']).value = Nat.ofDigitChars 10 whole 0 := by
  simp only [ofPoint, value, Nat.ofDigitChars_append, Nat.ofDigitChars_cons, Nat.ofDigitChars_nil,
    List.length_singleton]
  push_cast
  field_simp
  norm_num

/-- A point in front of the last `places` digits divides by a power of ten. -/
theorem value_ofPoint_take {cs : List Char} {places : Nat} (hcs : Digits cs) (hpos : 0 < places)
    (hlen : places < cs.length) :
    Digits (cs.take (cs.length - places)) ∧ Digits (cs.drop (cs.length - places)) ∧
      (ofPoint (cs.take (cs.length - places)) (cs.drop (cs.length - places))).value =
        Nat.ofDigitChars 10 cs 0 * 10 ^ (-(places : Int)) := by
  have htake : (cs.take (cs.length - places)).length = cs.length - places := by
    rw [List.length_take]
    omega
  have hdrop : (cs.drop (cs.length - places)).length = places := by
    rw [List.length_drop]
    omega
  refine ⟨⟨?_, fun c hc => hcs.2 c (List.mem_of_mem_take hc)⟩,
    ⟨?_, fun c hc => hcs.2 c (List.mem_of_mem_drop hc)⟩, ?_⟩
  · exact List.ne_nil_of_length_pos (by omega)
  · exact List.ne_nil_of_length_pos (by omega)
  · rw [ofPoint, value, List.take_append_drop, hdrop]

/-- Digits on both sides of a point, of the same value. Behind the point of a whole number there is a
zero. -/
theorem exists_pointed (d : Decimal) : ∃ whole fraction, d.pointed = whole ++ '.' :: fraction ∧
    Digits whole ∧ Digits fraction ∧ (ofPoint whole fraction).value = d.value ∧
      (0 ≤ d.exponent → fraction = ['0']) := by
  have hdigits := digits_toDigits d.digits
  have hzeros : ∀ n, ∀ c ∈ List.replicate n '0', Digit c := fun n c hc =>
    (List.mem_replicate.mp hc).2 ▸ digit_zero
  unfold pointed positional
  by_cases he : 0 ≤ d.exponent
  · refine ⟨Nat.toDigits 10 d.digits ++ List.replicate d.exponent.toNat '0', ['0'], ?_,
      hdigits.append (hzeros _), ⟨by simp, by simpa using digit_zero⟩, ?_, fun _ => rfl⟩
    · rw [if_pos he, if_pos he]
    · obtain ⟨n, hn⟩ := Int.eq_ofNat_of_zero_le he
      rw [value_ofPoint_zero, Nat.ofDigitChars_append, Nat.ofDigitChars_replicate_zero,
        Nat.ofDigitChars_ten_toDigits, value, hn, Int.toNat_natCast, zpow_natCast]
      push_cast
      ring
  · -- zeros are put in front so that there is a digit before the point
    obtain ⟨places, hplaces⟩ : ∃ n : Nat, d.exponent = -n := ⟨(-d.exponent).toNat, by omega⟩
    have hpos : 0 < places := by omega
    rw [if_neg he, if_neg he]
    simp only [hplaces, Int.neg_neg, Int.toNat_natCast]
    generalize hcs : List.replicate (places + 1 - (Nat.toDigits 10 d.digits).length) '0' ++
      Nat.toDigits 10 d.digits = cs
    have hlen : places < cs.length := by
      subst hcs
      simp only [List.length_append, List.length_replicate]
      omega
    have hall : Digits cs := by
      refine ⟨List.ne_nil_of_length_pos (by omega), ?_⟩
      subst hcs
      intro c hc
      rcases List.mem_append.mp hc with hc | hc
      · exact hzeros _ c hc
      · exact hdigits.2 c hc
    have hval : Nat.ofDigitChars 10 cs 0 = d.digits := by
      rw [← hcs, ofDigitChars_zeros, Nat.ofDigitChars_ten_toDigits]
    obtain ⟨hw, hf, hv⟩ := value_ofPoint_take hall hpos hlen
    exact ⟨_, _, rfl, hw, hf, by rw [hv, hval, value, hplaces], fun h => by omega⟩

end Decimal

/-! ## Doubles -/

namespace Binary64

/-- The doubles that are written without a sign. -/
def Unsigned (x : Binary64) : Prop := x.isFinite = true ∧ x.isNegative = false

theorem ofCode_code {x : Binary64} (h : x.isNegative = false) : ofCode false x.code = x := by
  have hlt : x.bits.toNat < signBit := Nat.lt_of_not_le (of_decide_eq_false h)
  unfold ofCode code
  rw [Nat.mod_eq_of_lt hlt]
  simp

theorem read?_of_digits {whole fraction : List Char} (hw : Digits whole) (hf : Digits fraction) :
    read? (.ofList (whole ++ '.' :: fraction)) =
      some (ofCode false (Decimal.ofPoint whole fraction).code) := by
  have hsign : splitSign (whole ++ '.' :: fraction) = (false, whole ++ '.' :: fraction) := by
    apply splitSign_of_digits
    intro c hc
    obtain ⟨d, ds, rfl⟩ := List.exists_cons_of_ne_nil hw.1
    obtain rfl : d = c := by simpa using hc
    exact hw.2 d (by simp)
  unfold read?
  rw [String.toList_ofList, hsign]
  simp only [Decimal.read?_of_digits hw hf, Option.map_some]

theorem nearest_le (num den : Nat) : nearest num den ≤ infinity := Nat.min_le_left _ _

theorem unsigned_of_read? {whole fraction : List Char} {x : Binary64} (hw : Digits whole)
    (hf : Digits fraction) (h : read? (.ofList (whole ++ '.' :: fraction)) = some x)
    (hx : x.isFinite = true) : Unsigned x := by
  refine ⟨hx, ?_⟩
  rw [read?_of_digits hw hf] at h
  cases h
  have hle : (Decimal.ofPoint whole fraction).code ≤ infinity := by
    rw [Decimal.code_eq_nearest]
    exact nearest_le _ _
  refine decide_eq_false (Nat.not_le_of_lt ?_)
  have hinf : infinity < signBit := by decide
  have hsize : signBit < 2 ^ 64 := by decide
  simp only [ofCode, Bool.false_eq_true, if_false, UInt64.toNat_ofNat']
  rw [Nat.mod_eq_of_lt (by omega)]
  omega

theorem plain_eq {x : Binary64} (h : Unsigned x) : x.plain = .ofList (shortest x.code).positional := by
  obtain ⟨hfin, hneg⟩ := h
  have hnan : x.isNaN = false := decide_eq_false (Nat.not_lt_of_lt (of_decide_eq_true hfin))
  simp only [plain, write, hnan, hfin, signed, hneg, Bool.false_eq_true, if_false, if_true]

end Binary64

end PolicyLang
