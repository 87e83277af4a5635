import Mathlib.Algebra.Order.Archimedean.Basic
import Mathlib.Algebra.Order.Field.Power
import PolicyLang.Proofs.Number.Order

/-!
# Shortest decimals

The decimal that is found for a double has no more digits than any other that reads back as the double, and
is no farther from it than another with as many digits. What decides is the power of ten below the double: a
decimal on the other side of a power of ten could be replaced by this power, which has one digit.
-/

namespace PolicyLang

/-! ## Stripped decimals -/

namespace Decimal

def length (d : Decimal) : Nat := (Nat.toDigits 10 d.digits).length

theorem length_pos (d : Decimal) : 0 < d.length := Nat.length_toDigits_pos

theorem length_le_iff {d : Decimal} {n : Nat} (hn : 0 < n) : d.length ≤ n ↔ d.digits < 10 ^ n :=
  Nat.length_toDigits_le_iff (by decide) hn

theorem le_exponent_strip (n : Nat) (e : Int) : e ≤ (strip n e).exponent := by
  fun_induction strip n e with
  | case1 n e _ ih => omega
  | case2 => exact Int.le_refl _

theorem digits_strip {n : Nat} (hn : n ≠ 0) (e : Int) : (strip n e).digits % 10 ≠ 0 := by
  fun_induction strip n e with
  | case1 n e h ih => exact ih (by omega)
  | case2 n e h => exact fun h0 => h ⟨hn, h0⟩

theorem digits_strip_le (n : Nat) (e : Int) : (strip n e).digits ≤ n := by
  fun_induction strip n e with
  | case1 n e _ ih => omega
  | case2 => exact Nat.le_refl _

/-- The power of ten itself has more digits, but not when it is stripped. -/
theorem length_strip_le {n m : Nat} (hn : n ≠ 0) (hm : 0 < m) (h : n ≤ 10 ^ m) (e : Int) :
    (strip n e).length ≤ m := by
  rw [length_le_iff hm]
  refine Nat.lt_of_le_of_ne (Nat.le_trans (digits_strip_le n e) h) fun heq => ?_
  apply digits_strip hn e
  rw [heq]
  exact Nat.mod_eq_zero_of_dvd (dvd_pow_self 10 hm.ne')

theorem ten_pow_mul_zpow (n : Nat) (e : Int) : ((10 ^ n : Nat) : ℚ) * 10 ^ e = 10 ^ (e + n) := by
  rw [Nat.cast_pow, ← zpow_natCast, Nat.cast_ofNat, ← zpow_add₀ (by norm_num), add_comm]

theorem leading_eq_length (d : Decimal) : d.leading = d.exponent + d.length - 1 := rfl

theorem pow_leading_le {d : Decimal} (h0 : d.digits ≠ 0) :
    (10 : ℚ) ^ d.leading ≤ d.value ∧ d.value < 10 ^ (d.leading + 1) := by
  have hten : (0 : ℚ) < 10 ^ d.exponent := by positivity
  have hn := d.length_pos
  have hlow : 10 ^ (d.length - 1) ≤ d.digits := by
    rcases Nat.lt_or_ge 1 d.length with h1 | h1
    · by_contra hlt
      have := (length_le_iff (Nat.sub_pos_of_lt h1)).mpr (Nat.lt_of_not_le hlt)
      omega
    · rw [Nat.sub_eq_zero_of_le h1]
      exact Nat.pos_of_ne_zero h0
  have hhigh : d.digits < 10 ^ d.length := (length_le_iff hn).mp (Nat.le_refl _)
  have hleading : d.leading = d.exponent + (d.length - 1 : Nat) := by
    rw [leading_eq_length]
    omega
  constructor
  · rw [hleading, ← ten_pow_mul_zpow]
    exact mul_le_mul_of_nonneg_right (by exact_mod_cast hlow) hten.le
  · rw [leading_eq_length, sub_add_cancel, ← ten_pow_mul_zpow]
    exact mul_lt_mul_of_pos_right (by exact_mod_cast hhigh) hten

theorem leading_eq {d : Decimal} (h0 : d.digits ≠ 0) {l : Int} (hl : (10 : ℚ) ^ l ≤ d.value)
    (hl' : d.value < 10 ^ (l + 1)) : d.leading = l := by
  obtain ⟨hlow, hhigh⟩ := pow_leading_le h0
  have h1 := (zpow_lt_zpow_iff_right₀ (by norm_num : (1 : ℚ) < 10)).mp (lt_of_le_of_lt hlow hl')
  have h2 := (zpow_lt_zpow_iff_right₀ (by norm_num : (1 : ℚ) < 10)).mp (lt_of_le_of_lt hl hhigh)
  omega

end Decimal

namespace Binary64

/-! ## Grids -/

theorem mem_grids {g : Int} : g ∈ grids ↔ -1074 ≤ g ∧ g ≤ 308 := by
  simp only [grids, List.mem_map, List.mem_range]
  constructor
  · rintro ⟨i, hi, rfl⟩
    omega
  · intro h
    exact ⟨(308 - g).toNat, by omega, by omega⟩

/-- The double in steps of the grid is `gridNum k g / gridDen g`. -/
def gridNum (k : Nat) (g : Int) : Nat := steps k * Nat.pow 10 (-g).toNat

def gridDen (g : Int) : Nat := Nat.pow 10 g.toNat <<< 1074

def gridFloor (k : Nat) (g : Int) : Nat := gridNum k g / gridDen g

theorem gridDen_eq (g : Int) : gridDen g = 10 ^ g.toNat * scale := shiftLeft_scale _

theorem gridDen_pos (g : Int) : 0 < gridDen g := by
  rw [gridDen_eq]
  exact Nat.mul_pos (Nat.pow_pos (by decide)) scale_pos

/-- What is left of the double behind the grid. -/
theorem size_sub (k : Nat) (g : Int) : size k - gridFloor k g * (10 : ℚ) ^ g =
    ((gridNum k g % gridDen g : Nat) : ℚ) / gridDen g * 10 ^ g := by
  have hden : (gridDen g : ℚ) ≠ 0 := by exact_mod_cast (gridDen_pos g).ne'
  have hdiv : (gridNum k g : ℚ) = gridDen g * gridFloor k g + (gridNum k g % gridDen g : Nat) := by
    exact_mod_cast (Nat.div_add_mod (gridNum k g) (gridDen g)).symm
  have hsize : size k = gridNum k g / gridDen g * (10 : ℚ) ^ g := by
    have hscale : (scale : ℚ) ≠ 0 := by exact_mod_cast scale_pos.ne'
    rw [size, gridNum, gridDen_eq, Decimal.ten_zpow, Nat.pow_eq]
    push_cast
    field_simp
  rw [hsize, hdiv]
  field_simp
  ring

theorem gridFloor_le (k : Nat) (g : Int) : gridFloor k g * (10 : ℚ) ^ g ≤ size k := by
  have hrest := size_sub k g
  have hpos : (0 : ℚ) ≤ ((gridNum k g % gridDen g : Nat) : ℚ) / gridDen g * 10 ^ g := by positivity
  linarith

theorem lt_gridFloor (k : Nat) (g : Int) : size k < (gridFloor k g + 1) * (10 : ℚ) ^ g := by
  have hden : (0 : ℚ) < gridDen g := by exact_mod_cast gridDen_pos g
  have hmod : ((gridNum k g % gridDen g : Nat) : ℚ) / gridDen g < 1 := by
    rw [div_lt_one hden]
    exact_mod_cast Nat.mod_lt _ (gridDen_pos g)
  have hrest := size_sub k g
  have := mul_lt_mul_of_pos_right hmod (by positivity : (0 : ℚ) < 10 ^ g)
  linarith

/-- The double is nearer to the grid below it. -/
theorem two_mul_mod_lt_iff (k : Nat) (g : Int) : 2 * (gridNum k g % gridDen g) < gridDen g ↔
    2 * (size k - gridFloor k g * (10 : ℚ) ^ g) < 10 ^ g := by
  have hden : (0 : ℚ) < gridDen g := by exact_mod_cast gridDen_pos g
  have hten : (0 : ℚ) < 10 ^ g := by positivity
  rw [size_sub, ← mul_assoc, ← mul_div_assoc, mul_lt_iff_lt_one_left hten, div_lt_one hden]
  exact_mod_cast Iff.rfl

theorem onGrid?_eq (k : Nat) (g : Int) : onGrid? k g =
    if gridNum k g < gridDen g then none
    else match (Decimal.strip (gridFloor k g) g).code == k,
        (Decimal.strip (gridFloor k g + 1) g).code == k with
      | true, true => if 2 * (gridNum k g % gridDen g) < gridDen g then some (.strip (gridFloor k g) g)
        else some (.strip (gridFloor k g + 1) g)
      | true, false => some (.strip (gridFloor k g) g)
      | false, true => some (.strip (gridFloor k g + 1) g)
      | false, false => none := rfl

/-- One of the two neighbours is found, and if both read back it is the nearer one. -/
theorem of_onGrid? {k : Nat} {g : Int} {d : Decimal} (h : onGrid? k g = some d) :
    gridFloor k g ≠ 0 ∧ d.code = k ∧
      (d = .strip (gridFloor k g) g ∧ ((Decimal.strip (gridFloor k g + 1) g).code = k →
        2 * (size k - gridFloor k g * (10 : ℚ) ^ g) < 10 ^ g) ∨
      d = .strip (gridFloor k g + 1) g ∧ ((Decimal.strip (gridFloor k g) g).code = k →
        10 ^ g ≤ 2 * (size k - gridFloor k g * (10 : ℚ) ^ g))) := by
  rw [← not_lt, ← two_mul_mod_lt_iff]
  rw [onGrid?_eq] at h
  split at h
  · cases h
  rename_i hle
  refine ⟨(Nat.div_pos (Nat.le_of_not_lt hle) (gridDen_pos g)).ne', ?_⟩
  split at h
  · rename_i hl hu
    split at h
    · rename_i hlt
      cases h
      exact ⟨beq_iff_eq.mp hl, .inl ⟨rfl, fun _ => hlt⟩⟩
    · rename_i hge
      cases h
      exact ⟨beq_iff_eq.mp hu, .inr ⟨rfl, fun _ => hge⟩⟩
  · rename_i hl hu
    cases h
    exact ⟨beq_iff_eq.mp hl, .inl ⟨rfl, fun hc => absurd hc (beq_eq_false_iff_ne.mp hu)⟩⟩
  · rename_i hl hu
    cases h
    exact ⟨beq_iff_eq.mp hu, .inr ⟨rfl, fun hc => absurd hc (beq_eq_false_iff_ne.mp hl)⟩⟩
  · cases h

theorem code_of_onGrid? {k : Nat} {g : Int} {d : Decimal} (h : onGrid? k g = some d) : d.code = k :=
  (of_onGrid? h).2.1

theorem digits_onGrid? {k : Nat} {g : Int} {d : Decimal} (h : onGrid? k g = some d) :
    g ≤ d.exponent ∧ d.digits % 10 ≠ 0 := by
  obtain ⟨hfloor, -, ⟨rfl, -⟩ | ⟨rfl, -⟩⟩ := of_onGrid? h
  · exact ⟨Decimal.le_exponent_strip _ g, Decimal.digits_strip hfloor g⟩
  · exact ⟨Decimal.le_exponent_strip _ g, Decimal.digits_strip (Nat.succ_ne_zero _) g⟩

theorem onGrid?_ne_none_of_strip {k : Nat} {g : Int} (hg : (10 : ℚ) ^ g ≤ size k)
    (h : (Decimal.strip (gridFloor k g) g).code = k ∨ (Decimal.strip (gridFloor k g + 1) g).code = k) :
    onGrid? k g ≠ none := by
  have hfloor : gridFloor k g ≠ 0 := by
    intro h0
    have := lt_gridFloor k g
    rw [h0, Nat.cast_zero, zero_add, one_mul] at this
    exact absurd hg (not_le_of_gt this)
  have hle : ¬ gridNum k g < gridDen g := fun hlt => hfloor (Nat.div_eq_of_lt hlt)
  intro hnone
  rw [onGrid?_eq, if_neg hle] at hnone
  split at hnone
  · split at hnone <;> cases hnone
  · cases hnone
  · cases hnone
  · rename_i hl hu
    exact h.elim (beq_eq_false_iff_ne.mp hl) (beq_eq_false_iff_ne.mp hu)

/-- The neighbour on the side of a multiple of `10 ^ g` reads back if this multiple does. -/
theorem code_neighbour {k : Nat} (hk : k < infinity) {g : Int} {m : Nat}
    (hm : (⟨m, g⟩ : Decimal).code = k) :
    (m * (10 : ℚ) ^ g ≤ gridFloor k g * 10 ^ g ∧ (Decimal.strip (gridFloor k g) g).code = k) ∨
      ((gridFloor k g + 1) * (10 : ℚ) ^ g ≤ m * 10 ^ g ∧
        (Decimal.strip (gridFloor k g + 1) g).code = k) := by
  have hten : (0 : ℚ) ≤ 10 ^ g := by positivity
  rcases Nat.lt_or_ge (gridFloor k g) m with hlt | hge
  · have hle : (gridFloor k g + 1) * (10 : ℚ) ^ g ≤ m * 10 ^ g :=
      mul_le_mul_of_nonneg_right (by exact_mod_cast hlt) hten
    refine .inr ⟨hle, code_of_between hk hm (.inr ?_)⟩
    rw [Decimal.strip_value, Nat.cast_succ]
    exact ⟨(lt_gridFloor k g).le, hle⟩
  · have hle : m * (10 : ℚ) ^ g ≤ gridFloor k g * 10 ^ g :=
      mul_le_mul_of_nonneg_right (by exact_mod_cast hge) hten
    refine .inl ⟨hle, code_of_between hk hm (.inl ?_)⟩
    rw [Decimal.strip_value]
    exact ⟨hle, gridFloor_le k g⟩

theorem onGrid?_ne_none {k : Nat} (hk : k < infinity) {g : Int} (hg : (10 : ℚ) ^ g ≤ size k) {m : Nat}
    (hm : (⟨m, g⟩ : Decimal).code = k) : onGrid? k g ≠ none :=
  onGrid?_ne_none_of_strip hg ((code_neighbour hk hm).imp And.right And.right)

/-- What is found on a grid is no farther from the double than any multiple that reads back. -/
theorem grid_nearest {k : Nat} (hk : k < infinity) {g : Int} {d : Decimal} (h : onGrid? k g = some d)
    {m : Nat} (hm : (⟨m, g⟩ : Decimal).code = k) :
    |d.value - size k| ≤ |m * (10 : ℚ) ^ g - size k| := by
  have hlow := gridFloor_le k g
  have hhigh := lt_gridFloor k g
  obtain ⟨-, -, ⟨rfl, hnear⟩ | ⟨rfl, hnear⟩⟩ := of_onGrid? h
  · rw [Decimal.strip_value, abs_sub_comm, abs_of_nonneg (sub_nonneg.mpr hlow)]
    rcases code_neighbour hk hm with ⟨hle, -⟩ | ⟨hle, hcode⟩
    · exact le_abs.mpr (.inr (by linarith))
    · have := hnear hcode
      exact le_abs.mpr (.inl (by linarith))
  · rw [Decimal.strip_value, Nat.cast_succ, abs_of_nonneg (sub_nonneg.mpr hhigh.le)]
    rcases code_neighbour hk hm with ⟨hle, hcode⟩ | ⟨hle, -⟩
    · have := hnear hcode
      exact le_abs.mpr (.inr (by linarith))
    · exact le_abs.mpr (.inl (by linarith))

/-- A double below `10 ^ (l + 1)` is found on a grid below this power, with no more digits than there are
powers of ten from one to the other. -/
theorem length_onGrid? {k : Nat} {g l : Int} {d : Decimal} (hl : size k < 10 ^ (l + 1))
    (h : onGrid? k g = some d) : g ≤ l ∧ d.length ≤ (l + 1 - g).toNat := by
  have hten : (0 : ℚ) < 10 ^ g := by positivity
  have hlt := lt_of_le_of_lt (gridFloor_le k g) hl
  obtain ⟨hfloor, -, hd⟩ := of_onGrid? h
  have hone : (1 : ℚ) ≤ gridFloor k g := by exact_mod_cast Nat.pos_of_ne_zero hfloor
  have hg : g < l + 1 := by
    refine (zpow_lt_zpow_iff_right₀ (by norm_num : (1 : ℚ) < 10)).mp (lt_of_le_of_lt ?_ hlt)
    exact le_mul_of_one_le_left hten.le hone
  rw [show l + 1 = g + (l + 1 - g).toNat by omega, ← Decimal.ten_pow_mul_zpow] at hlt
  have hfloor_lt : gridFloor k g < 10 ^ (l + 1 - g).toNat := by
    exact_mod_cast lt_of_mul_lt_mul_right hlt hten.le
  refine ⟨by omega, ?_⟩
  rcases hd with ⟨rfl, -⟩ | ⟨rfl, -⟩
  · exact Decimal.length_strip_le hfloor (by omega) hfloor_lt.le g
  · exact Decimal.length_strip_le (Nat.succ_ne_zero _) (by omega) hfloor_lt g

/-! ## The power of ten below the double -/

theorem steps_ne_zero {k : Nat} (h0 : k ≠ 0) (hk : k < infinity) : steps k ≠ 0 := by
  intro hs
  have := nearest_steps hk
  rw [hs, nearest_zero Nat.one_pos] at this
  exact h0 this.symm

theorem size_pos {k : Nat} (h0 : k ≠ 0) (hk : k < infinity) : 0 < size k :=
  div_pos (by exact_mod_cast Nat.pos_of_ne_zero (steps_ne_zero h0 hk)) (by exact_mod_cast scale_pos)

/-- No double but zero is below `2 ^ -1074`. -/
theorem le_of_size_lt {k : Nat} (h0 : k ≠ 0) (hk : k < infinity) {l : Int} (h : size k < 10 ^ (l + 1)) :
    -1074 ≤ l := by
  by_contra hsmall
  obtain ⟨t, ht⟩ : ∃ t : Nat, l + 1 = -t := ⟨(-(l + 1)).toNat, by omega⟩
  have hscale_le : scale ≤ 10 ^ t :=
    Nat.le_trans (scale_le_two_pow (by omega)) (Nat.pow_le_pow_left (by decide) t)
  have hle : (scale : ℚ) ≤ 10 ^ t := by exact_mod_cast hscale_le
  have hone : (1 : ℚ) ≤ size k * scale := by
    rw [size_mul_scale]
    exact_mod_cast Nat.pos_of_ne_zero (steps_ne_zero h0 hk)
  have hpos := size_pos h0 hk
  rw [ht, zpow_neg, zpow_natCast, lt_inv_comm₀ hpos (by positivity)] at h
  have := mul_lt_mul_of_pos_left (lt_of_le_of_lt hle h) hpos
  rw [mul_inv_cancel₀ hpos.ne'] at this
  exact absurd hone (not_le_of_gt this)

theorem code_ten_pow : (⟨1, 309⟩ : Decimal).code = infinity := by decide +kernel

theorem le_of_le_size {k : Nat} (hk : k < infinity) {l : Int} (h : (10 : ℚ) ^ l ≤ size k) : l ≤ 308 := by
  by_contra hlarge
  have hle : (⟨1, 309⟩ : Decimal).value ≤ (exact k).value := by
    rw [value_exact, Decimal.value, Nat.cast_one, one_mul]
    exact le_trans (zpow_le_zpow_right₀ (by norm_num) (show (309 : Int) ≤ l by omega)) h
  have := Decimal.code_mono hle
  rw [code_ten_pow, code_exact hk] at this
  omega

/-- The power of ten of a double's first digit. -/
theorem exists_leading {k : Nat} (h0 : k ≠ 0) (hk : k < infinity) :
    ∃ l : Int, (10 : ℚ) ^ l ≤ size k ∧ size k < 10 ^ (l + 1) ∧ -1074 ≤ l ∧ l ≤ 308 := by
  obtain ⟨l, hl, hl'⟩ := exists_mem_Ico_zpow (size_pos h0 hk) (by norm_num : (1 : ℚ) < 10)
  exact ⟨l, hl, hl', le_of_size_lt h0 hk hl', le_of_le_size hk hl⟩

/-- A decimal that reads back can be replaced by one on the grid where a decimal with the first digit of the
double would have its length. -/
theorem exists_on_grid {k : Nat} (hk : k < infinity) {l : Int} (hl : (10 : ℚ) ^ l ≤ size k)
    (hl' : size k < 10 ^ (l + 1)) {d : Decimal} (h0 : d.digits ≠ 0) (hd : d.code = k) :
    ∃ m : Nat, (⟨m, l + 1 - d.length⟩ : Decimal).code = k ∧
      |m * (10 : ℚ) ^ (l + 1 - d.length : Int) - size k| ≤ |d.value - size k| := by
  have hn := d.length_pos
  generalize hlen : d.length = n at hn ⊢
  rcases lt_or_ge d.value (10 ^ l) with hlow | hlow
  · have hm := Decimal.ten_pow_mul_zpow (n - 1) (l + 1 - n)
    rw [show (l + 1 - n + (n - 1 : Nat) : Int) = l by omega] at hm
    have hv : (⟨10 ^ (n - 1), l + 1 - n⟩ : Decimal).value = 10 ^ l := hm
    refine ⟨10 ^ (n - 1), code_of_between hk hd (.inl ?_), ?_⟩
    · rw [hv]
      exact ⟨hlow.le, hl⟩
    · rw [hm, abs_sub_comm, abs_of_nonneg (sub_nonneg.mpr hl)]
      exact le_abs.mpr (.inr (by linarith))
  rcases lt_or_ge d.value (10 ^ (l + 1)) with hhigh | hhigh
  · refine ⟨d.digits, ?_⟩
    have hfirst : d.leading = l := Decimal.leading_eq h0 hlow hhigh
    have he : d.exponent = l + 1 - n := by
      rw [Decimal.leading_eq_length, hlen] at hfirst
      omega
    rw [← he]
    exact ⟨hd, le_refl _⟩
  · have hm := Decimal.ten_pow_mul_zpow n (l + 1 - n)
    rw [sub_add_cancel] at hm
    have hv : (⟨10 ^ n, l + 1 - n⟩ : Decimal).value = 10 ^ (l + 1) := hm
    refine ⟨10 ^ n, code_of_between hk hd (.inr ?_), ?_⟩
    · rw [hv]
      exact ⟨hl'.le, hhigh⟩
    · rw [hm, abs_of_nonneg (sub_nonneg.mpr hl'.le)]
      exact le_abs.mpr (.inl (by linarith))

/-! ## The first grid -/

/-- The grids come in descending order, so that what is found first is on the coarsest. -/
theorem of_findSome?_grids {f : Int → Option Decimal} {d : Decimal} (h : grids.findSome? f = some d) :
    ∃ g, f g = some d ∧ ∀ g' ∈ grids, f g' ≠ none → g' ≤ g := by
  obtain ⟨before, g, after, hsplit, hg, hnone⟩ := List.findSome?_eq_some_iff.mp h
  have hdesc : grids.Pairwise (· > ·) := by
    refine List.pairwise_map.mpr (List.pairwise_lt_range.imp fun h => ?_)
    omega
  refine ⟨g, hg, fun g' hmem hg' => ?_⟩
  rw [hsplit] at hmem hdesc
  rcases List.mem_append.mp hmem with hmem | hmem
  · exact absurd (hnone g' hmem) hg'
  rcases List.mem_cons.mp hmem with rfl | hmem
  · exact Int.le_refl _
  · rw [List.pairwise_append, List.pairwise_cons] at hdesc
    exact Int.le_of_lt (hdesc.2.1.1 g' hmem)

/-- On the last grid all digits of a double stand. -/
theorem onGrid?_last {k : Nat} (h0 : k ≠ 0) (hk : k < infinity) : onGrid? k (-1074) ≠ none := by
  obtain ⟨l, hl, -, hmin, -⟩ := exists_leading h0 hk
  refine onGrid?_ne_none hk (le_trans (zpow_le_zpow_right₀ (by norm_num) hmin) hl)
    (m := steps k * Nat.pow 5 1074) ?_
  exact (Decimal.code_congr (Decimal.strip_value _ _).symm).trans (code_exact hk)

/-- A finite double is found on one of the grids, and on none that is coarser. -/
theorem exists_first_grid {k : Nat} (h0 : k ≠ 0) (hk : k < infinity) :
    ∃ g, onGrid? k g = some (shortest k) ∧ -1074 ≤ g ∧ ∀ g' ∈ grids, onGrid? k g' ≠ none → g' ≤ g := by
  have hlast : (-1074 : Int) ∈ grids := mem_grids.mpr ⟨by omega, by omega⟩
  unfold shortest
  rw [if_neg h0]
  cases hfind : grids.findSome? (onGrid? k) with
  | none => exact absurd (List.findSome?_eq_none_iff.mp hfind _ hlast) (onGrid?_last h0 hk)
  | some d =>
    obtain ⟨g, hg, hfirst⟩ := of_findSome?_grids hfind
    exact ⟨g, hg, hfirst _ hlast (onGrid?_last h0 hk), hfirst⟩

/-- The shortest decimal of a finite double reads back as that double. -/
theorem code_shortest {k : Nat} (hk : k < infinity) : (shortest k).code = k := by
  by_cases h0 : k = 0
  · subst h0
    decide
  · obtain ⟨g, hg, -, -⟩ := exists_first_grid h0 hk
    exact code_of_onGrid? hg

theorem digits_shortest {k : Nat} (h0 : k ≠ 0) (hk : k < infinity) : (shortest k).digits % 10 ≠ 0 := by
  obtain ⟨g, hg, -, -⟩ := exists_first_grid h0 hk
  exact (digits_onGrid? hg).2

/-- **Shortest decimals.** No decimal that reads back as a finite double has fewer digits than the one that
is written, and none with as many is nearer to the double. -/
theorem shortest_le {k : Nat} (hk : k < infinity) {d : Decimal} (hd : d.code = k) :
    (shortest k).length ≤ d.length ∧
      (d.length = (shortest k).length → |(shortest k).value - size k| ≤ |d.value - size k|) := by
  by_cases h0 : k = 0
  · subst h0
    have hvalue : (shortest 0).value = 0 := zero_mul _
    have hsize : size 0 = 0 := zero_div _
    refine ⟨d.length_pos, fun _ => ?_⟩
    rw [hvalue, hsize, sub_zero, abs_zero]
    exact abs_nonneg _
  have hdigits : d.digits ≠ 0 := by
    intro hz
    rw [Decimal.code, if_pos hz] at hd
    exact h0 hd.symm
  have hn := d.length_pos
  obtain ⟨l, hl, hl', hmin, hmax⟩ := exists_leading h0 hk
  obtain ⟨m, hm, hnear⟩ := exists_on_grid hk hl hl' hdigits hd
  obtain ⟨g, hg, hlast, hfirst⟩ := exists_first_grid h0 hk
  obtain ⟨-, hlength⟩ := length_onGrid? hl' hg
  have hone : (10 : ℚ) ^ (l + 1 - d.length : Int) ≤ size k :=
    le_trans (zpow_le_zpow_right₀ (by norm_num) (by omega)) hl
  -- behind the last grid `d` has more digits than any double is written with
  rcases lt_or_ge (l + 1 - d.length : Int) (-1074) with hbehind | hbefore
  · exact ⟨by omega, by omega⟩
  have hle : (l + 1 - d.length : Int) ≤ g :=
    hfirst _ (mem_grids.mpr ⟨hbefore, by omega⟩) (onGrid?_ne_none hk hone hm)
  refine ⟨by omega, fun heq => ?_⟩
  obtain rfl : g = l + 1 - d.length := by omega
  exact le_trans (grid_nearest hk hg hm) hnear

end Binary64

end PolicyLang
