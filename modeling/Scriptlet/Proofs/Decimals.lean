import Scriptlet.Number.Decimal
import Scriptlet.Proofs.Doubles

/-!
The shortest decimal of a double is read as that double.

The comparisons of `Decimal.onGrid?` are those of `RoundsTo`, times a factor (`exists_scale`), so a
decimal that is found on a grid is in the interval (`onGrid?_roundsTo`). On the grid of seventeen
digits one is found: a step of that grid is smaller than the unit of the last place, and smaller
than half of it where the interval is narrower below (`exists_inside`). So the search ends with a
decimal of the interval (`ofBinary_roundsTo`), and such a decimal is read as the double
(`toFloat_eq`).
-/
namespace Scriptlet.Number.Decimal

/-- The number that a decimal stands for. -/
def value (d : Decimal) : ℚ :=
  d.coefficient * 10 ^ d.exponent

theorem value_trim (d : Decimal) : d.trim.value = d.value := by
  have hgo : ∀ fuel (d : Decimal), (trim.go fuel d).value = d.value := by
    intro fuel
    induction fuel with
    | zero => exact fun _ => rfl
    | succ fuel ih =>
      intro d
      rw [trim.go]
      split
      · rename_i hzero
        have hdiv : ((d.coefficient / 10 : Nat) : ℚ) * 10 = d.coefficient := by
          exact_mod_cast Nat.div_mul_cancel (Nat.dvd_of_mod_eq_zero hzero)
        rw [ih, value, value, zpow_add_one₀ (by norm_num), ← hdiv]
        ring
      · rfl
  exact hgo _ d

/-! ### Comparisons on a grid -/

theorem zpow_eq_div {a : ℚ} (ha : a ≠ 0) (q : Int) :
    a ^ q = a ^ q.toNat / a ^ (-q).toNat := by
  rw [← zpow_natCast, ← zpow_natCast, ← zpow_sub₀ ha, Int.toNat_sub_toNat_neg]

/-- Up to a factor, the two sides of a grid ratio are the powers themselves. -/
theorem exists_scale (q k : Int) : ∃ s : ℚ, 0 < s ∧
    ((gridRatio q k).1 : ℚ) * s = 2 ^ q ∧ ((gridRatio q k).2 : ℚ) * s = 10 ^ k := by
  have hten : ∀ n, pow10 n = 10 ^ n := fun _ => rfl
  have hratio : gridRatio q k =
      (2 ^ q.toNat * 10 ^ (-k).toNat, 10 ^ k.toNat * 2 ^ (-q).toNat) := by
    rw [gridRatio, pow2_eq, pow2_eq, hten, hten]
  refine ⟨(10 ^ (-k).toNat)⁻¹ * (2 ^ (-q).toNat)⁻¹, by positivity, ?_, ?_⟩
  · rw [hratio, zpow_eq_div two_ne_zero]
    push_cast
    field_simp
  · rw [hratio, zpow_eq_div (by norm_num)]
    push_cast
    field_simp

theorem grid_le_iff (q k : Int) (a c : Nat) :
    a * (gridRatio q k).1 ≤ c * (gridRatio q k).2 ↔ (a : ℚ) * 2 ^ q ≤ c * 10 ^ k := by
  obtain ⟨s, hs, hnum, hden⟩ := exists_scale q k
  rw [← hnum, ← hden, ← mul_assoc, ← mul_assoc, mul_le_mul_iff_left₀ hs]
  exact_mod_cast Iff.rfl

theorem le_grid_iff (q k : Int) (a c : Nat) :
    c * (gridRatio q k).2 ≤ a * (gridRatio q k).1 ↔ (c : ℚ) * 10 ^ k ≤ a * 2 ^ q := by
  obtain ⟨s, hs, hnum, hden⟩ := exists_scale q k
  rw [← hnum, ← hden, ← mul_assoc, ← mul_assoc, mul_le_mul_iff_left₀ hs]
  exact_mod_cast Iff.rfl

section

variable {m : Nat} {e : Int}

/-- The largest number on the grid that is not above the double. -/
def gridFloor (m : Nat) (e k : Int) : Nat :=
  4 * m * (gridRatio (e - 2) k).1 / (gridRatio (e - 2) k).2

/-- The test that a number on the grid is in the interval of a double. -/
def inside (m : Nat) (e k : Int) (c : Nat) : Bool :=
  let below := if m = pow2 52 ∧ minExponent < e then 1 else 2
  let low := (4 * m - below) * (gridRatio (e - 2) k).1
  let high := (4 * m + 2) * (gridRatio (e - 2) k).1
  if m % 2 = 0 then low ≤ c * (gridRatio (e - 2) k).2 && c * (gridRatio (e - 2) k).2 ≤ high
  else low < c * (gridRatio (e - 2) k).2 && c * (gridRatio (e - 2) k).2 < high

/-- Of the two neighbours on a grid, one that passes the test is taken. -/
theorem onGrid?_eq (ties : Ties) (m : Nat) (e point : Int) (n : Nat) : ∃ lower : Bool,
    onGrid? ties m e point n =
      let k := point - n
      if inside m e k (gridFloor m e k) && (lower || !inside m e k (gridFloor m e k + 1)) then
        some ⟨gridFloor m e k, k⟩
      else if inside m e k (gridFloor m e k + 1) then some ⟨gridFloor m e k + 1, k⟩
      else none :=
  ⟨_, rfl⟩

theorem two_zpow_eq_four_mul (e : Int) : (2 : ℚ) ^ e = 4 * 2 ^ (e - 2) := by
  rw [zpow_sub₀ two_ne_zero]
  norm_num
  ring

/-- The ends of the interval, in quarters of the unit of the last place. -/
theorem quarters (hm : 0 < m) (e : Int) :
    ((4 * m - if m = pow2 52 ∧ minExponent < e then 1 else 2 : Nat) : ℚ) * 2 ^ (e - 2) =
        (m - reachBelow m e) * 2 ^ e ∧
      ((4 * m + 2 : Nat) : ℚ) * 2 ^ (e - 2) = (m + 1 / 2) * 2 ^ e := by
  rw [two_zpow_eq_four_mul e, reachBelow, pow2_eq, minExponent]
  constructor
  · split
    · rw [Nat.cast_sub (by omega)]
      push_cast
      ring
    · rw [Nat.cast_sub (by omega)]
      push_cast
      ring
  · push_cast
    ring

theorem inside_iff (hm : 0 < m) (k : Int) (c : Nat) :
    inside m e k c = true ↔ RoundsTo (c * 10 ^ k) m e := by
  obtain ⟨hlow, hhigh⟩ := quarters hm e
  rw [inside]
  by_cases heven : m % 2 = 0
  · rw [if_pos heven, Bool.and_eq_true, decide_eq_true_iff, decide_eq_true_iff, grid_le_iff,
      le_grid_iff, hlow, hhigh]
    constructor
    · rintro ⟨hl, hh⟩
      exact ⟨hl, hh, fun hodd => by omega⟩
    · intro h
      exact ⟨h.low, h.high⟩
  · rw [if_neg heven, Bool.and_eq_true, decide_eq_true_iff, decide_eq_true_iff, ← Nat.not_le,
      ← Nat.not_le, grid_le_iff, le_grid_iff, hlow, hhigh, not_le, not_le]
    constructor
    · rintro ⟨hl, hh⟩
      exact ⟨hl.le, hh.le, fun _ => ⟨hl, hh⟩⟩
    · intro h
      exact h.odd (by omega)

/-- A decimal found on a grid is in the interval. -/
theorem onGrid?_roundsTo (hm : 0 < m) {ties : Ties} {point : Int} {n : Nat} {d : Decimal}
    (h : onGrid? ties m e point n = some d) : RoundsTo d.value m e := by
  obtain ⟨lower, heq⟩ := onGrid?_eq ties m e point n
  rw [heq] at h
  dsimp only at h
  split at h
  · rename_i hinside
    cases h
    exact (inside_iff hm _ _).mp (Bool.and_eq_true_iff.mp hinside).1
  · split at h
    · rename_i hinside
      cases h
      exact (inside_iff hm _ _).mp hinside
    · cases h

/-- If one of the neighbours is in the interval, a decimal is found. -/
theorem isSome_onGrid? (hm : 0 < m) {ties : Ties} {point : Int} {n : Nat}
    (h : RoundsTo (gridFloor m e (point - n) * 10 ^ (point - n)) m e ∨
      RoundsTo ((gridFloor m e (point - n) + 1 : Nat) * 10 ^ (point - n)) m e) :
    (onGrid? ties m e point n).isSome = true := by
  obtain ⟨lower, heq⟩ := onGrid?_eq ties m e point n
  rw [← inside_iff hm, ← inside_iff hm] at h
  rw [heq]
  dsimp only
  by_cases hupper : inside m e (point - n) (gridFloor m e (point - n) + 1) = true
  · rw [if_pos hupper]
    split <;> rfl
  · have hlower := h.resolve_right hupper
    rw [Bool.not_eq_true] at hupper
    rw [if_pos (by rw [hlower, hupper, Bool.not_false, Bool.or_true, Bool.and_self])]
    rfl

/-- The double is between its neighbours. -/
theorem gridFloor_spec (m : Nat) (e k : Int) :
    (gridFloor m e k : ℚ) * 10 ^ k ≤ m * 2 ^ e ∧
      m * 2 ^ e < ((gridFloor m e k + 1 : Nat) : ℚ) * 10 ^ k := by
  have hvalue : (m : ℚ) * 2 ^ e = (4 * m : Nat) * 2 ^ (e - 2) := by
    rw [two_zpow_eq_four_mul e]
    push_cast
    ring
  have hden : 0 < (gridRatio (e - 2) k).2 := by
    obtain ⟨s, hs, -, hden⟩ := exists_scale (e - 2) k
    have hpos : (0 : ℚ) < 10 ^ k := by positivity
    rw [← hden] at hpos
    exact_mod_cast pos_of_mul_pos_left hpos hs.le
  rw [hvalue, ← not_le, ← le_grid_iff, ← le_grid_iff, Nat.not_le, gridFloor]
  exact ⟨Nat.div_mul_le_self _ _, Nat.lt_mul_of_div_lt (Nat.lt_succ_self _) hden⟩

/-! ### Seventeen digits suffice -/

/-- A grid with sixteen steps of ten below the double has a number in the interval. -/
theorem exists_inside (hd : IsDouble m e) {k : Int} (hk : (10 : ℚ) ^ k * 10 ^ 16 ≤ m * 2 ^ e) :
    RoundsTo (gridFloor m e k * 10 ^ k) m e ∨
      RoundsTo ((gridFloor m e k + 1 : Nat) * 10 ^ k) m e := by
  obtain ⟨hlower, hupper⟩ := gridFloor_spec m e k
  have hunit := two_zpow_pos e
  have hreach : 0 < reachBelow m e * 2 ^ e := mul_pos (reachBelow_pos m e) hunit
  have hnext : ((gridFloor m e k + 1 : Nat) : ℚ) * 10 ^ k = gridFloor m e k * 10 ^ k + 10 ^ k := by
    push_cast
    ring
  by_cases hnarrow : m = 2 ^ 52 ∧ -1074 < e
  · -- the step is less than half a unit, so the upper neighbour is in the interval
    have hstep : (10 : ℚ) ^ k < 1 / 2 * 2 ^ e := by
      rw [hnarrow.1] at hk
      push_cast at hk
      linarith
    refine .inr (.of_lt ?_ ?_)
    · linarith
    · linarith
  · -- the step is less than a unit, so one neighbour is nearer than half a unit
    have hstep : (10 : ℚ) ^ k < 2 ^ e := by
      have hlt : (m : ℚ) < 2 ^ 53 := by exact_mod_cast hd.lt
      have := mul_lt_mul_of_pos_right hlt hunit
      linarith
    have hhalf : reachBelow m e = 1 / 2 := if_neg hnarrow
    by_cases hnear : ((m : ℚ) - reachBelow m e) * 2 ^ e < gridFloor m e k * 10 ^ k
    · exact .inl (.of_lt hnear (by linarith))
    · rw [hhalf] at hnear
      exact .inr (.of_lt (by linarith) (by linarith))

/-- The estimate of the decimal logarithm, for the binary logarithms of doubles. -/
theorem ten_pow_estimate_le : ∀ n < 1024, 10 ^ (n * 30103 / 100000) ≤ 2 ^ n := by
  decide +kernel

theorem two_pow_le_ten_pow_estimate : ∀ n < 1075, 2 ^ n ≤ 10 ^ ((n * 30103 + 99999) / 100000) := by
  decide +kernel

theorem ten_zpow_estimate_le {l : Int} (hmin : -1074 ≤ l) (hmax : l ≤ 1023) :
    (10 : ℚ) ^ (l * 30103 / 100000) ≤ 2 ^ l := by
  by_cases hl : 0 ≤ l
  · obtain ⟨n, rfl⟩ := Int.eq_ofNat_of_zero_le hl
    have hestimate : (n : Int) * 30103 / 100000 = (n * 30103 / 100000 : Nat) := by omega
    rw [hestimate, zpow_natCast, zpow_natCast]
    exact_mod_cast ten_pow_estimate_le n (by omega)
  · obtain ⟨n, rfl⟩ : ∃ n : Nat, l = -n := ⟨(-l).toNat, by omega⟩
    have hestimate : -(n : Int) * 30103 / 100000 = -((n * 30103 + 99999) / 100000 : Nat) := by omega
    rw [hestimate, zpow_neg, zpow_neg, zpow_natCast, zpow_natCast]
    refine inv_anti₀ (by positivity) ?_
    exact_mod_cast two_pow_le_ten_pow_estimate n (by omega)

/-- The first digit of the number is not looked for too far up. -/
theorem ten_zpow_decimalPoint_le (hd : IsDouble m e) (hm : 0 < m) :
    (10 : ℚ) ^ (decimalPoint m e - 1) ≤ m * 2 ^ e := by
  obtain ⟨p, hp⟩ : ∃ p : Int, p = (m.log2 + e) * 30103 / 100000 + 1 := ⟨_, rfl⟩
  have hpoint : decimalPoint m e =
      if m * (gridRatio e p).1 < (gridRatio e p).2 then p else p + 1 := by
    subst hp
    rfl
  rw [hpoint]
  split
  · -- the estimate is taken as it is
    have hlog : m.log2 < 53 := (Nat.log2_lt hm.ne').mpr hd.lt
    have hmin := hd.minExponent_le
    have hmax := hd.le_maxExponent
    have hle : (2 : ℚ) ^ m.log2 ≤ m := by exact_mod_cast Nat.log2_self_le hm.ne'
    calc (10 : ℚ) ^ (p - 1) = 10 ^ ((m.log2 + e) * 30103 / 100000) := by
          rw [hp, add_sub_cancel_right]
      _ ≤ 2 ^ (m.log2 + e) := ten_zpow_estimate_le (by omega) (by omega)
      _ = 2 ^ m.log2 * 2 ^ e := by rw [zpow_add₀ two_ne_zero, zpow_natCast]
      _ ≤ m * 2 ^ e := mul_le_mul_of_nonneg_right hle (two_zpow_pos e).le
  · rename_i hge
    have := (le_grid_iff e p m 1).mp (by omega)
    rwa [Nat.cast_one, one_mul, ← add_sub_cancel_right p 1] at this

/-- **The shortest decimal of a double is in its interval.** -/
theorem ofBinary_roundsTo (ties : Ties) (hd : IsDouble m e) (hm : 0 < m) :
    RoundsTo (ofBinary ties m e).value m e := by
  -- the search succeeds at the latest with seventeen digits
  have hlast : (onGrid? ties m e (decimalPoint m e) (16 + 1)).isSome = true := by
    refine isSome_onGrid? hm (exists_inside hd ?_)
    have hpoint := ten_zpow_decimalPoint_le hd hm
    have hsplit : decimalPoint m e - 1 = decimalPoint m e - (16 + 1 : Nat) + 16 := by omega
    rw [hsplit, zpow_add₀ (by norm_num)] at hpoint
    exact hpoint
  have hfound : ((List.range 17).findSome? fun n =>
      onGrid? ties m e (decimalPoint m e) (n + 1)).isSome = true := by
    rw [List.findSome?_isSome_iff]
    exact ⟨16, by decide, hlast⟩
  obtain ⟨d, hsome⟩ := Option.isSome_iff_exists.mp hfound
  obtain ⟨n, -, hgrid⟩ := List.exists_of_findSome?_eq_some hsome
  have hbinary : ofBinary ties m e = d.trim := by
    rw [ofBinary, if_neg hm.ne']
    dsimp only
    rw [hsome, Option.getD_some]
  rw [hbinary, value_trim]
  exact onGrid?_roundsTo hm hgrid

/-! ### Reading -/

/-- The size of a decimal is known from the place of its point. -/
theorem value_bounds {d : Decimal} (hd : 0 < d.coefficient) :
    (10 : ℚ) ^ (d.point - 1) ≤ d.value ∧ d.value < 10 ^ d.point := by
  obtain ⟨n, hn⟩ : ∃ n, d.digits.length = n + 1 :=
    Nat.exists_eq_succ_of_ne_zero Nat.length_toDigits_pos.ne'
  have hlow : 10 ^ n ≤ d.coefficient := by
    rcases Nat.eq_zero_or_pos n with rfl | hpos
    · exact hd
    · have hlength : ¬d.digits.length ≤ n := by omega
      rwa [digits, Nat.length_toDigits_le_iff (by norm_num) hpos, Nat.not_lt] at hlength
  have hhigh : d.coefficient < 10 ^ (n + 1) :=
    (Nat.length_toDigits_le_iff (by norm_num) (Nat.succ_pos n)).mp hn.le
  have hpoint : d.point = ((n + 1 : Nat) : Int) + d.exponent := by rw [point, hn]
  have hpoint' : d.point - 1 = n + d.exponent := by omega
  have hpos : (0 : ℚ) < 10 ^ d.exponent := by positivity
  rw [hpoint', hpoint, value, zpow_add₀ (by norm_num), zpow_add₀ (by norm_num), zpow_natCast,
    zpow_natCast]
  constructor
  · exact mul_le_mul_of_nonneg_right (by exact_mod_cast hlow) hpos.le
  · exact mul_lt_mul_of_pos_right (by exact_mod_cast hhigh) hpos

/-- No double is beyond the places of the point that are looked at, upwards. -/
theorem two_pow_1024_le : 2 ^ 1024 ≤ 10 ^ 310 := by
  decide +kernel

/-- No double is beyond the places of the point that are looked at, downwards. -/
theorem two_pow_1075_le : 2 ^ 1075 ≤ 10 ^ 331 := by
  decide +kernel

/-- **A decimal in the interval of a double is read as that double.** -/
theorem toFloat_eq {d : Decimal} (hd : IsDouble m e) (hm : 0 < m) (hround : RoundsTo d.value m e) :
    d.toFloat = double false m e := by
  have hc := (RoundsTo.exponent_bounds hd hm hround).1
  obtain ⟨hlow, hhigh⟩ := value_bounds hc
  have hmin := hd.minExponent_le
  have hmax := hd.le_maxExponent
  have hone : (1 : ℚ) < 10 := by norm_num
  have htop : d.point - 1 < 310 := by
    refine (zpow_lt_zpow_iff_right₀ hone).mp ?_
    calc (10 : ℚ) ^ (d.point - 1) ≤ d.value := hlow
      _ < 2 ^ (e + 53) := hround.lt_two_zpow hd
      _ ≤ 2 ^ (1024 : Int) := zpow_le_zpow_right₀ (by norm_num) (by omega)
      _ ≤ 10 ^ (310 : Int) := by exact_mod_cast two_pow_1024_le
  have hbottom : -331 < d.point := by
    refine (zpow_lt_zpow_iff_right₀ hone).mp ?_
    calc (10 : ℚ) ^ (-331 : Int) ≤ 2 ^ (-1075 : Int) := by
          rw [zpow_neg, zpow_neg]
          exact inv_anti₀ (by positivity) (by exact_mod_cast two_pow_1075_le)
      _ ≤ 2 ^ (e - 1) := zpow_le_zpow_right₀ (by norm_num) (by omega)
      _ ≤ d.value := hround.pos hm
      _ < 10 ^ d.point := hhigh
  rw [toFloat, if_neg hc.ne', if_neg (by omega), if_neg (by omega)]
  exact ofScientific_eq hd hm hround

end

end Scriptlet.Number.Decimal
