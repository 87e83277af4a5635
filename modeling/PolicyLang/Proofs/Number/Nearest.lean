import Mathlib.Algebra.Field.Rat
import Mathlib.Tactic.FieldSimp
import Mathlib.Tactic.Ring
import Mathlib.Tactic.Positivity
import PolicyLang.Number.Shortest

/-!
# Decimals and the doubles nearest to them

The code of a decimal depends on nothing but its value, and a decimal that has exactly the value of a
double has the code of that double. So the shortest decimal of a double has its code.
-/

namespace PolicyLang

namespace Binary64

/-! ## Rounding -/

theorem roundDiv_mul (num den : Nat) {c : Nat} (hc : 0 < c) :
    roundDiv (num * c) (den * c) = roundDiv num den := by
  unfold roundDiv
  rw [Nat.mul_div_mul_right _ _ hc, Nat.mul_mod_mul_right]
  have hlt : 2 * (num % den * c) < den * c ↔ 2 * (num % den) < den := by
    rw [← Nat.mul_assoc, Nat.mul_lt_mul_right hc]
  have heq : 2 * (num % den * c) = den * c ↔ 2 * (num % den) = den := by
    rw [← Nat.mul_assoc, Nat.mul_left_inj (Nat.ne_of_gt hc)]
  simp only [hlt, heq]

theorem nearest_mul (num den : Nat) {c : Nat} (hc : 0 < c) :
    nearest (num * c) (den * c) = nearest num den := by
  unfold nearest
  rw [Nat.mul_div_mul_right _ _ hc]
  simp only [Nat.shiftLeft_eq, Nat.mul_right_comm den c, roundDiv_mul _ _ hc]

theorem nearest_congr {num den num' den' : Nat} (hd : 0 < den) (hd' : 0 < den')
    (h : num * den' = num' * den) : nearest num den = nearest num' den' := by
  rw [← nearest_mul num den hd', h, Nat.mul_comm den, nearest_mul num' den' hd]

theorem roundDiv_exact (m : Nat) {den : Nat} (hd : 0 < den) : roundDiv (m * den) den = m := by
  unfold roundDiv
  rw [Nat.mul_div_cancel m hd, Nat.mul_mod_left]
  exact if_pos (.inl (by omega))

theorem log2_hidden {m : Nat} (hm : m < hiddenBit) (b : Nat) :
    ((hiddenBit + m) <<< b).log2 = 52 + b := by
  have hpos : 0 < hiddenBit := by decide
  have hh : hiddenBit = 2 ^ 52 := by decide
  rw [Nat.shiftLeft_eq, Nat.log2_eq_iff (by positivity)]
  constructor
  · rw [Nat.pow_add, ← hh]
    exact Nat.mul_le_mul_right _ (Nat.le_add_right _ _)
  · rw [show 52 + b + 1 = 53 + b by omega, Nat.pow_add]
    refine Nat.mul_lt_mul_of_pos_right ?_ (by positivity)
    rw [hh] at hm ⊢
    omega

/-- The double nearest to the size of a double is that double. -/
theorem nearest_steps {k : Nat} (hk : k < infinity) : nearest (steps k) 1 = k := by
  unfold nearest steps
  rw [Nat.div_one]
  by_cases hs : k < hiddenBit
  · have hlog : k.log2 - 52 = 0 := by
      by_cases h0 : k = 0
      · subst h0; rfl
      · have := (Nat.log2_lt h0).mpr (show k < 2 ^ 53 by unfold hiddenBit at hs; omega)
        omega
    rw [if_pos hs, hlog]
    have := roundDiv_exact k Nat.one_pos
    rw [Nat.mul_one] at this
    simp only [Nat.zero_mul, Nat.zero_add, Nat.shiftLeft_zero, this]
    exact Nat.min_eq_right hk.le
  · have hmod : k % hiddenBit < hiddenBit := Nat.mod_lt _ (by decide)
    have hdiv : 1 ≤ k / hiddenBit := (Nat.one_le_div_iff (by decide)).mpr (Nat.le_of_not_lt hs)
    rw [if_neg hs, log2_hidden hmod, Nat.add_sub_cancel_left]
    simp only [Nat.shiftLeft_eq, Nat.one_mul]
    rw [roundDiv_exact _ (by positivity), ← Nat.add_assoc, ← Nat.succ_mul, Nat.succ_eq_add_one,
      Nat.sub_add_cancel hdiv, Nat.mul_comm, Nat.div_add_mod]
    exact Nat.min_eq_right hk.le

theorem nearest_zero {den : Nat} (hd : 0 < den) : nearest 0 den = 0 := by
  have := roundDiv_exact 0 hd
  rw [Nat.zero_mul] at this
  simp [nearest, this]

theorem nearest_small {num den : Nat} (h : 2 * num < den) : nearest num den = 0 := by
  have hlt : num < den := by omega
  unfold nearest roundDiv
  rw [Nat.div_eq_of_lt hlt]
  simp only [Nat.log2_zero, Nat.zero_sub, Nat.zero_mul, Nat.zero_add, Nat.shiftLeft_zero,
    Nat.div_eq_of_lt hlt, Nat.mod_eq_of_lt hlt, if_pos (Or.inl h), Nat.min_zero]

theorem nearest_large {n b : Nat} (hb : 2100 ≤ b) (h : 2 ^ b ≤ n) : nearest n 1 = infinity := by
  have hlog : b ≤ n.log2 := (Nat.le_log2 (by have := Nat.two_pow_pos b; omega)).mpr h
  unfold nearest
  rw [Nat.div_one]
  refine Nat.min_eq_left (Nat.le_trans ?_ (Nat.le_add_right _ _))
  exact Nat.mul_le_mul_right _ (by omega)

/-- The steps of `2 ^ -1074` in one. As a name, so that no tactic works the power out. -/
def scale : Nat := 2 ^ 1074

theorem scale_eq {n : Nat} (h : n = 1074) : scale = 2 ^ n := by rw [scale, h]

theorem scale_le_two_pow {n : Nat} (h : 1074 ≤ n) : scale ≤ 2 ^ n := by
  obtain ⟨m, hm⟩ : ∃ m, m = 1074 := ⟨_, rfl⟩
  rw [scale_eq hm]
  exact Nat.pow_le_pow_right Nat.two_pos (hm ▸ h)

theorem scale_pos : 0 < scale := by
  obtain ⟨m, hm⟩ : ∃ m, m = 1074 := ⟨_, rfl⟩
  rw [scale_eq hm]
  exact Nat.two_pow_pos m

theorem shiftLeft_scale (n : Nat) : n <<< 1074 = n * scale := by
  obtain ⟨m, hm⟩ : ∃ m, m = 1074 := ⟨_, rfl⟩
  rw [scale_eq hm, ← hm, Nat.shiftLeft_eq]

end Binary64

namespace Decimal

open Binary64 (scale scale_pos)

def value (d : Decimal) : ℚ := d.digits * 10 ^ d.exponent

theorem two_pow_le_ten_pow (e : Nat) : 2 ^ (3 * e) ≤ 10 ^ e := by
  rw [Nat.pow_mul]
  exact Nat.pow_le_pow_left (by decide) e

theorem nearest_of_large_exponent {n : Nat} {e : Int} (hn : n ≠ 0) (he : 400 < e) :
    Binary64.nearest (n * 10 ^ e.toNat * scale) (10 ^ (-e).toNat) = Binary64.infinity := by
  have hneg : (-e).toNat = 0 := by omega
  have hten : 2 ^ (3 * e.toNat) ≤ n * 10 ^ e.toNat :=
    Nat.le_trans (two_pow_le_ten_pow _) (Nat.le_mul_of_pos_left _ (Nat.pos_of_ne_zero hn))
  rw [hneg, Nat.pow_zero]
  refine Binary64.nearest_large (b := 3 * e.toNat + 1074) (by omega) ?_
  rw [pow_add]
  exact Nat.mul_le_mul_right _ hten

theorem nearest_of_small_exponent {n : Nat} {e : Int} (he : e + n.log2 + 1 < -400) :
    Binary64.nearest (n * 10 ^ e.toNat * scale) (10 ^ (-e).toNat) = 0 := by
  have hzero : e.toNat = 0 := by omega
  have hlog : n.log2 + 402 ≤ (-e).toNat := by omega
  rw [hzero, Nat.pow_zero, Nat.mul_one]
  refine Binary64.nearest_small ?_
  calc 2 * (n * 2 ^ 1074)
      = n * 2 ^ 1075 := by rw [Nat.mul_left_comm, ← pow_succ']
    _ < 2 ^ (n.log2 + 1) * 2 ^ 1075 :=
        Nat.mul_lt_mul_of_pos_right Nat.lt_log2_self (pow_pos Nat.two_pos _)
    _ = 2 ^ (n.log2 + 1 + 1075) := (pow_add ..).symm
    _ ≤ 2 ^ (3 * (-e).toNat) := Nat.pow_le_pow_right (by decide) (by omega)
    _ ≤ 10 ^ (-e).toNat := two_pow_le_ten_pow _

/-- The cases that are decided without the powers of ten are decided as the powers would. -/
theorem code_eq_nearest (d : Decimal) : d.code =
    Binary64.nearest (d.digits * 10 ^ d.exponent.toNat * scale) (10 ^ (-d.exponent).toNat) := by
  unfold code
  simp only [Binary64.shiftLeft_scale, Nat.pow_eq]
  by_cases h0 : d.digits = 0
  · rw [if_pos h0, h0, Nat.zero_mul, Nat.zero_mul,
      Binary64.nearest_zero (Nat.pow_pos (by decide))]
  rw [if_neg h0]
  by_cases hlarge : 400 < d.exponent
  · rw [if_pos hlarge, nearest_of_large_exponent h0 hlarge]
  rw [if_neg hlarge]
  by_cases hsmall : d.exponent + d.digits.log2 + 1 < -400
  · rw [if_pos hsmall, nearest_of_small_exponent hsmall]
  · rw [if_neg hsmall]

theorem ten_zpow (e : Int) : (10 : ℚ) ^ e = 10 ^ e.toNat / 10 ^ (-e).toNat := by
  have he : e = (e.toNat : Int) - ((-e).toNat : Int) := by omega
  conv_lhs => rw [he]
  rw [zpow_sub₀ (by decide : (10 : ℚ) ≠ 0), zpow_natCast, zpow_natCast]

theorem value_eq_div (d : Decimal) : d.value * scale =
    ((d.digits * 10 ^ d.exponent.toNat * scale : Nat) : ℚ) / ((10 ^ (-d.exponent).toNat : Nat) : ℚ) := by
  rw [value, ten_zpow]
  push_cast
  ring

/-- A decimal that is `n / m` steps has the code of the double nearest to that. -/
theorem code_eq_of_value {d : Decimal} {n m : Nat} (hm : 0 < m)
    (h : d.value * scale = (n : ℚ) / (m : ℚ)) : d.code = Binary64.nearest n m := by
  rw [code_eq_nearest]
  refine Binary64.nearest_congr (by positivity) hm ?_
  rw [value_eq_div, div_eq_div_iff (by positivity) (by positivity)] at h
  exact_mod_cast h

theorem code_congr {d d' : Decimal} (h : d.value = d'.value) : d.code = d'.code := by
  rw [code_eq_nearest d']
  exact code_eq_of_value (by positivity) (by rw [h, value_eq_div])

theorem strip_value (n : Nat) (e : Int) : (strip n e).value = n * 10 ^ e := by
  fun_induction strip n e with
  | case1 n e h ih =>
    obtain ⟨m, rfl⟩ : 10 ∣ n := Nat.dvd_of_mod_eq_zero h.2
    rw [ih, Nat.mul_div_cancel_left _ (by decide), zpow_add_one₀ (by decide)]
    push_cast
    ring
  | case2 => rfl

end Decimal

namespace Binary64

theorem value_strip_five_pow (m n : Nat) {e : Int} (he : e = -n) :
    (Decimal.strip (m * Nat.pow 5 n) e).value * 2 ^ n = m := by
  subst he
  have h10 : (10 : ℚ) ^ (-n : Int) = (2 ^ n * 5 ^ n)⁻¹ := by
    rw [← mul_pow, zpow_neg, zpow_natCast]
    norm_num
  rw [Decimal.strip_value, Nat.pow_eq, h10]
  push_cast
  field_simp

/-- The value of the double with code `k`. -/
def size (k : Nat) : ℚ := steps k / scale

theorem size_mul_scale (k : Nat) : size k * scale = steps k :=
  div_mul_cancel₀ _ (by exact_mod_cast scale_pos.ne')

theorem value_exact (k : Nat) : (exact k).value = size k := by
  have hall (n : Nat) (hn : n = 1074) : (exact k).value * 2 ^ n = steps k := by
    unfold exact
    rw [← hn]
    exact value_strip_five_pow (steps k) n (by rw [hn]; rfl)
  rw [size, eq_div_iff (by exact_mod_cast scale_pos.ne'), scale, Nat.cast_pow]
  exact hall 1074 rfl

/-- All digits of a double are enough to read it back. -/
theorem code_exact {k : Nat} (hk : k < infinity) : (exact k).code = k := by
  have hv : (exact k).value * scale = ((steps k : Nat) : ℚ) / ((1 : Nat) : ℚ) := by
    rw [value_exact, size_mul_scale, Nat.cast_one, div_one]
  rw [Decimal.code_eq_of_value Nat.one_pos hv, nearest_steps hk]

end Binary64

end PolicyLang
