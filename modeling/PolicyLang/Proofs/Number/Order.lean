import PolicyLang.Proofs.Number.Nearest

/-!
# Rounding and order

The larger of two decimals has no smaller code. So what lies between a double and a decimal that reads back
as this double reads back as it too.
-/

namespace PolicyLang

namespace Binary64

/-! ## Rounding -/

theorem log2_block {n : Nat} (hn : n ≠ 0) :
    n < 2 ^ 53 * 2 ^ (n.log2 - 52) ∧ (n.log2 - 52 ≠ 0 → 2 ^ 52 * 2 ^ (n.log2 - 52) ≤ n) := by
  rw [← pow_add, ← pow_add]
  constructor
  · exact Nat.lt_of_lt_of_le Nat.lt_log2_self (Nat.pow_le_pow_right (by decide) (by omega))
  · intro h
    exact Nat.le_trans (Nat.pow_le_pow_right (by decide) (by omega)) (Nat.log2_self_le hn)

theorem le_roundDiv (num den : Nat) : num / den ≤ roundDiv num den ∧ roundDiv num den ≤ num / den + 1 := by
  unfold roundDiv
  dsimp only
  split <;> omega

theorem roundDiv_mono {m n : Nat} (h : m ≤ n) (den : Nat) : roundDiv m den ≤ roundDiv n den := by
  rcases Nat.lt_or_eq_of_le (Nat.div_le_div_right (c := den) h) with hlt | heq
  · exact Nat.le_trans (le_roundDiv m den).2 (Nat.le_trans hlt (le_roundDiv n den).1)
  · have hm := Nat.div_add_mod m den
    have hn := Nat.div_add_mod n den
    rw [heq] at hm
    have hr : m % den ≤ n % den := by omega
    unfold roundDiv
    dsimp only
    rw [heq]
    split <;> split <;> omega

/-- The block of a quotient has room for all that is rounded in it, up to the first code of the next. -/
theorem roundDiv_block (num den : Nat) :
    roundDiv num (den <<< ((num / den).log2 - 52)) ≤ 2 * hiddenBit ∧
      ((num / den).log2 - 52 ≠ 0 → hiddenBit ≤ roundDiv num (den <<< ((num / den).log2 - 52))) := by
  obtain ⟨hlow, hhigh⟩ := le_roundDiv num (den <<< ((num / den).log2 - 52))
  rw [Nat.shiftLeft_eq, ← Nat.div_div_eq_div_mul] at hlow hhigh
  rw [Nat.shiftLeft_eq]
  have hh : hiddenBit = 2 ^ 52 := by decide
  generalize num / den = m at *
  by_cases hm : m = 0
  · subst hm
    rw [Nat.zero_div] at hhigh
    exact ⟨by omega, fun h => absurd rfl h⟩
  obtain ⟨hlt, hge⟩ := log2_block hm
  have hpos : 0 < 2 ^ (m.log2 - 52) := by positivity
  constructor
  · have := (Nat.div_lt_iff_lt_mul hpos).mpr hlt
    omega
  · intro hb
    have := (Nat.le_div_iff_mul_le hpos).mpr (hge hb)
    omega

theorem log2_mono {m n : Nat} (h : m ≤ n) : m.log2 ≤ n.log2 := by
  by_cases hm : m = 0
  · subst hm
    exact Nat.zero_le _
  · exact (Nat.le_log2 (by omega)).mpr (Nat.le_trans (Nat.log2_self_le hm) h)

theorem nearest_mono_num {m n : Nat} (h : m ≤ n) (den : Nat) : nearest m den ≤ nearest n den := by
  have hblock : (m / den).log2 - 52 ≤ (n / den).log2 - 52 :=
    Nat.sub_le_sub_right (log2_mono (Nat.div_le_div_right h)) 52
  have hm := (roundDiv_block m den).1
  have hn := (roundDiv_block n den).2
  unfold nearest
  dsimp only
  refine min_le_min_left infinity ?_
  rcases Nat.lt_or_eq_of_le hblock with hlt | heq
  · have := Nat.mul_le_mul_right hiddenBit hlt
    rw [Nat.succ_mul] at this
    have := hn (by omega)
    omega
  · rw [heq]
    exact Nat.add_le_add_left (roundDiv_mono h _) _

theorem nearest_mono {num den num' den' : Nat} (hd : 0 < den) (hd' : 0 < den')
    (h : num * den' ≤ num' * den) : nearest num den ≤ nearest num' den' := by
  rw [← nearest_mul num den hd', ← nearest_mul num' den' hd, Nat.mul_comm den' den]
  exact nearest_mono_num h _

end Binary64

namespace Decimal

theorem code_mono {d e : Decimal} (h : d.value ≤ e.value) : d.code ≤ e.code := by
  rw [code_eq_nearest, code_eq_nearest]
  refine Binary64.nearest_mono (by positivity) (by positivity) ?_
  have hmul := mul_le_mul_of_nonneg_right h (Nat.cast_nonneg Binary64.scale)
  rw [value_eq_div, value_eq_div, div_le_div_iff₀ (by positivity) (by positivity)] at hmul
  exact_mod_cast hmul

end Decimal

namespace Binary64

/-- What lies between a double and a decimal that reads back as it reads back as it too. -/
theorem code_of_between {k : Nat} (hk : k < infinity) {d e : Decimal} (hd : d.code = k)
    (h : d.value ≤ e.value ∧ e.value ≤ size k ∨ size k ≤ e.value ∧ e.value ≤ d.value) : e.code = k := by
  have hexact := code_exact hk
  rw [← value_exact] at h
  rcases h with ⟨hde, hek⟩ | ⟨hke, hed⟩
  · exact Nat.le_antisymm (Nat.le_trans (Decimal.code_mono hek) hexact.le)
      (Nat.le_trans hd.ge (Decimal.code_mono hde))
  · exact Nat.le_antisymm (Nat.le_trans (Decimal.code_mono hed) hd.le)
      (Nat.le_trans hexact.ge (Decimal.code_mono hke))

end Binary64

end PolicyLang
