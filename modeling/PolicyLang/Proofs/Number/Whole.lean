import PolicyLang.Expr.Render
import PolicyLang.Proofs.Number.Numeral

/-!
# Whole doubles

A double whose value is a whole number is written as one: it is found on a grid of whole numbers before
any finer grid is tried. A double that is written as a whole number is one, since rounding does not
take a whole number off the whole numbers.
-/

namespace PolicyLang

/-! ## Stripped decimals -/

namespace Decimal

/-- Without zeros at its end a decimal below the point is no whole number. -/
theorem whole_of_value {d : Decimal} {n : Nat} (hd : d.digits % 10 ≠ 0) (h : d.value = n) :
    0 ≤ d.exponent := by
  by_contra he
  obtain ⟨m, hm⟩ : ∃ m : Nat, d.exponent = -(m + 1 : Nat) := ⟨(-d.exponent).toNat - 1, by omega⟩
  have hten : (10 : ℚ) ^ (m + 1) ≠ 0 := by positivity
  rw [value, hm, zpow_neg, zpow_natCast, mul_inv_eq_iff_eq_mul₀ hten] at h
  have hdigits : d.digits = n * 10 ^ (m + 1) := by exact_mod_cast h
  rw [hdigits, pow_succ, ← Nat.mul_assoc, Nat.mul_mod_left] at hd
  exact hd rfl

end Decimal

namespace Binary64

/-! ## Rounding a whole number of steps -/

/-- The code of a block and a number of its steps, with or without the bit in front. -/
theorem steps_block {b r : Nat} (hr : r ≤ 2 * hiddenBit) (hb : b ≠ 0 → hiddenBit ≤ r) :
    steps (b * hiddenBit + r) = r * 2 ^ b := by
  have hpos : 0 < hiddenBit := by decide
  unfold steps
  rw [Nat.shiftLeft_eq]
  by_cases hlow : r < hiddenBit
  · obtain rfl : b = 0 := by
      by_contra h
      exact absurd (hb h) (Nat.not_le_of_lt hlow)
    simp [hlow]
  · obtain ⟨s, rfl⟩ := Nat.exists_eq_add_of_le (Nat.le_of_not_lt hlow)
    have hcode : b * hiddenBit + (hiddenBit + s) = s + (b + 1) * hiddenBit := by ring
    rw [hcode, Nat.add_mul_mod_self_right, Nat.add_mul_div_right _ _ hpos,
      if_neg (by rw [Nat.succ_mul]; omega)]
    rcases Nat.lt_or_ge s hiddenBit with hs | hs
    · rw [Nat.mod_eq_of_lt hs, Nat.div_eq_of_lt hs]
      simp
    · -- rounding went up to the first code of the next block
      obtain rfl : s = hiddenBit := by omega
      rw [Nat.mod_self, Nat.div_self hpos, show 1 + (b + 1) - 1 = b + 1 by omega]
      ring

theorem steps_nearest {n : Nat} (h : nearest n 1 < infinity) :
    steps (nearest n 1) = roundDiv n (2 ^ (n.log2 - 52)) * 2 ^ (n.log2 - 52) := by
  obtain ⟨hr, hb⟩ := roundDiv_block n 1
  unfold nearest at h ⊢
  simp only [Nat.div_one, Nat.shiftLeft_eq, Nat.one_mul] at hr hb h ⊢
  rw [Nat.min_eq_right (by omega), steps_block hr hb]

/-- A whole number in steps of `2 ^ -m` is rounded to a whole number. -/
theorem dvd_steps_nearest {m n : Nat} (h : nearest (n * 2 ^ m) 1 < infinity) :
    2 ^ m ∣ steps (nearest (n * 2 ^ m) 1) := by
  rw [steps_nearest h]
  rcases Nat.le_total m ((n * 2 ^ m).log2 - 52) with hle | hle
  · exact Nat.dvd_mul_left_of_dvd (Nat.pow_dvd_pow 2 hle) _
  · obtain ⟨c, hc⟩ : 2 ^ ((n * 2 ^ m).log2 - 52) ∣ n * 2 ^ m :=
      Nat.dvd_mul_left_of_dvd (Nat.pow_dvd_pow 2 hle) _
    have hpos : 0 < 2 ^ ((n * 2 ^ m).log2 - 52) := by positivity
    generalize 2 ^ ((n * 2 ^ m).log2 - 52) = b at hc hpos ⊢
    rw [hc, Nat.mul_comm b c, roundDiv_exact c hpos, ← Nat.mul_comm b c, ← hc]
    exact Nat.dvd_mul_left _ _

/-! ## Whole values -/

/-- The value of the double is a whole number. -/
def IsWhole (x : Binary64) : Prop := ∃ n : Nat, steps x.code = n <<< 1074

theorem exponent_shortest {k n : Nat} (hk : k < infinity) (h : steps k = n <<< 1074) :
    0 ≤ (shortest k).exponent := by
  by_cases h0 : k = 0
  · subst h0
    decide
  have hsize : size k = n := by
    rw [size, h, shiftLeft_scale, Nat.cast_mul, mul_div_cancel_right₀]
    exact_mod_cast scale_pos.ne'
  have hn : n ≠ 0 := by
    rintro rfl
    rw [Nat.zero_shiftLeft] at h
    exact steps_ne_zero h0 hk h
  have hcode : (⟨n, 0⟩ : Decimal).code = k := by
    rw [← code_exact hk]
    refine Decimal.code_congr ?_
    rw [value_exact, hsize, Decimal.value, zpow_zero, mul_one]
  have hone : (10 : ℚ) ^ (0 : Int) ≤ size k := by
    rw [hsize, zpow_zero]
    exact_mod_cast Nat.pos_of_ne_zero hn
  obtain ⟨g, hg, -, hfirst⟩ := exists_first_grid h0 hk
  have hle := hfirst 0 (mem_grids.mpr ⟨by omega, by omega⟩) (onGrid?_ne_none hk hone hcode)
  exact Int.le_trans hle (digits_onGrid? hg).1

theorem exists_steps_code {d : Decimal} (h : d.code < infinity) (he : 0 ≤ d.exponent) :
    ∃ n : Nat, steps d.code = n <<< 1074 := by
  simp only [shiftLeft_scale, ← dvd_def, Nat.mul_comm _ scale]
  rw [Decimal.code_eq_nearest] at h ⊢
  rw [show (-d.exponent).toNat = 0 by omega, Nat.pow_zero] at h ⊢
  exact dvd_steps_nearest h

theorem isWhole_iff {x : Binary64} (h : x.isFinite = true) :
    x.IsWhole ↔ 0 ≤ (shortest x.code).exponent := by
  have hk : x.code < infinity := of_decide_eq_true h
  constructor
  · intro hx
    obtain ⟨n, hn⟩ := hx
    exact exponent_shortest hk hn
  · intro he
    have hcode := code_shortest hk
    have := exists_steps_code (hcode.symm ▸ hk) he
    rwa [hcode] at this

theorem isWhole_eq_true_iff {x : Binary64} (h : x.isFinite = true) : x.isWhole = true ↔ x.IsWhole := by
  unfold isWhole IsWhole
  simp only [h, Bool.true_and, beq_iff_eq, shiftLeft_scale, Nat.one_mul, ← Nat.dvd_iff_mod_eq_zero]
  simp only [dvd_def, Nat.mul_comm scale]

end Binary64

/-! ## Canonical text -/

namespace Literal

open Binary64

theorem render_float {x : Binary64} (h : x.Unsigned) :
    (float x).render = .ofList (shortest x.code).pointed := by
  have hwhole := (isWhole_eq_true_iff h.1).trans (isWhole_iff h.1)
  rw [render, plain_eq h, Decimal.pointed]
  by_cases he : 0 ≤ (shortest x.code).exponent
  · rw [if_pos (hwhole.mpr he), if_pos he, String.ofList_append]
  · rw [if_neg (mt hwhole.mp he), if_neg he]

/-- The canonical text of a double is digits around a point, with nothing but a zero behind it if and only if
the double is whole, and stands for this double. -/
theorem exists_render_float {x : Binary64} (h : x.Unsigned) : ∃ whole fraction,
    (float x).render = .ofList (whole ++ '.' :: fraction) ∧ Digits whole ∧ Digits fraction ∧
      (fraction = ['0'] ↔ x.IsWhole) ∧ read? (float x).render = some x := by
  have hk : x.code < infinity := of_decide_eq_true h.1
  obtain ⟨whole, fraction, hp, hw, hf, hv, hzero⟩ := (shortest x.code).exists_pointed
  have htext : (float x).render = .ofList (whole ++ '.' :: fraction) := by rw [render_float h, hp]
  refine ⟨whole, fraction, htext, hw, hf, ?_, ?_⟩
  · rw [isWhole_iff h.1]
    refine ⟨fun hfrac => ?_, hzero⟩
    rw [hfrac, Decimal.value_ofPoint_zero] at hv
    by_cases h0 : x.code = 0
    · rw [h0]
      decide
    · exact Decimal.whole_of_value (digits_shortest h0 hk) hv.symm
  · rw [htext, read?_of_digits hw hf, Decimal.code_congr hv, code_shortest hk, ofCode_code h.2]

end Literal

end PolicyLang
