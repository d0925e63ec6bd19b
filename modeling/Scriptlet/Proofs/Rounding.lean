import Mathlib.Algebra.Order.Field.Power
import Mathlib.Algebra.Order.Ring.Rat
import Mathlib.Tactic.FieldSimp
import Mathlib.Tactic.Linarith
import Mathlib.Tactic.Positivity
import Mathlib.Tactic.Ring
import Scriptlet.Number.Binary

/-!
Rounding to the doubles.

The doubles above zero are the numbers `m · 2 ^ e` with `IsDouble m e`. Around each is an interval
of rationals that are nearer to it than to any other double (`RoundsTo`); its ends belong to it if
the mantissa is even. Arithmetic first finds the whole part of a rational and what its fraction is,
compared with a half (`Represents`), then shifts and rounds. `roundWithAccuracy_eq` says that a
rational of an interval is rounded to the double of that interval, if it has bits enough, and
`mul_eq` and `div_eq` say it of products and quotients.
-/
namespace Scriptlet.Number

open Float.Model Float.Model.UnpackedFloat

/-! ### Doubles and their intervals -/

/-- The number `m · 2 ^ e` is a double, written with as large a mantissa as there can be. -/
structure IsDouble (m : Nat) (e : Int) : Prop where
  lt : m < 2 ^ 53
  minExponent_le : -1074 ≤ e
  le_maxExponent : e ≤ 971
  normal : 2 ^ 52 ≤ m ∨ e = -1074

/-- How far the interval of a double reaches down, in units of the last place: half a unit, or a
quarter where the doubles below are twice as dense. -/
def reachBelow (m : Nat) (e : Int) : ℚ :=
  if m = 2 ^ 52 ∧ -1074 < e then 1 / 4 else 1 / 2

/-- The rational is in the interval of the double `m · 2 ^ e`. -/
structure RoundsTo (v : ℚ) (m : Nat) (e : Int) : Prop where
  low : (m - reachBelow m e) * 2 ^ e ≤ v
  high : v ≤ (m + 1 / 2) * 2 ^ e
  odd : m % 2 = 1 → (m - reachBelow m e) * 2 ^ e < v ∧ v < (m + 1 / 2) * 2 ^ e

theorem reachBelow_pos (m : Nat) (e : Int) : 0 < reachBelow m e := by
  rw [reachBelow]
  split <;> norm_num

theorem reachBelow_le (m : Nat) (e : Int) : reachBelow m e ≤ 1 / 2 := by
  rw [reachBelow]
  split <;> norm_num

theorem two_zpow_pos (e : Int) : (0 : ℚ) < 2 ^ e :=
  zpow_pos (by norm_num) e

theorem RoundsTo.of_lt {v : ℚ} {m : Nat} {e : Int} (hlow : (m - reachBelow m e) * 2 ^ e < v)
    (hhigh : v < (m + 1 / 2) * 2 ^ e) : RoundsTo v m e :=
  ⟨hlow.le, hhigh.le, fun _ => ⟨hlow, hhigh⟩⟩

/-- A double is in its own interval. -/
theorem RoundsTo.self (m : Nat) (e : Int) : RoundsTo (m * 2 ^ e) m e :=
  .of_lt (mul_lt_mul_of_pos_right (sub_lt_self _ (reachBelow_pos m e)) (two_zpow_pos e))
    (mul_lt_mul_of_pos_right (by linarith) (two_zpow_pos e))

section

variable {v : ℚ} {m : Nat} {e : Int}

/-- The interval in units of the last place. -/
theorem RoundsTo.div (h : RoundsTo v m e) :
    (m : ℚ) - 1 / 2 ≤ v / 2 ^ e ∧ v / 2 ^ e ≤ m + 1 / 2 ∧
      (m % 2 = 1 → (m : ℚ) - 1 / 2 < v / 2 ^ e ∧ v / 2 ^ e < m + 1 / 2) := by
  have hreach := reachBelow_le m e
  have hpos := two_zpow_pos e
  refine ⟨?_, (div_le_iff₀ hpos).mpr h.high, fun hm => ⟨?_, (div_lt_iff₀ hpos).mpr (h.odd hm).2⟩⟩
  · have := (le_div_iff₀ hpos).mpr h.low
    linarith
  · have := (lt_div_iff₀ hpos).mpr (h.odd hm).1
    linarith

/-- The numbers of an interval are below the next power of two. -/
theorem RoundsTo.lt_two_zpow (hd : IsDouble m e) (h : RoundsTo v m e) : v < 2 ^ (e + 53) := by
  have hlt : (m : ℚ) + 1 ≤ 2 ^ 53 := by exact_mod_cast hd.lt
  calc v ≤ (m + 1 / 2) * 2 ^ e := h.high
    _ < 2 ^ 53 * 2 ^ e := mul_lt_mul_of_pos_right (by linarith) (two_zpow_pos e)
    _ = 2 ^ (e + 53) := by
      rw [zpow_add₀ (by norm_num : (2 : ℚ) ≠ 0), mul_comm]
      norm_num

/-- The numbers of an interval are not much below the double. -/
theorem RoundsTo.two_zpow_lt (h : RoundsTo v m e) (hm : 2 ^ 52 ≤ m) : 2 ^ (e + 51) < v := by
  have hle : (2 : ℚ) ^ 52 ≤ m := by exact_mod_cast hm
  have hreach := reachBelow_le m e
  calc (2 : ℚ) ^ (e + 51) = 2 ^ 51 * 2 ^ e := by
        rw [zpow_add₀ (by norm_num : (2 : ℚ) ≠ 0), mul_comm]
        norm_num
    _ < (m - reachBelow m e) * 2 ^ e := by
      refine mul_lt_mul_of_pos_right ?_ (two_zpow_pos e)
      linarith
    _ ≤ v := h.low

end

/-! ### The whole part and the fraction -/

/-- The mantissa is the whole part of the rational, the round bit says whether the fraction is a
half or more, and the sticky bit whether it is neither zero nor a half. -/
def Represents (em : ExtendedMantissa) (v : ℚ) : Prop :=
  match em.roundBit, em.stickyBit with
  | false, false => v = em.mantissa
  | false, true => em.mantissa < v ∧ v < em.mantissa + 1 / 2
  | true, false => v = em.mantissa + 1 / 2
  | true, true => em.mantissa + 1 / 2 < v ∧ v < em.mantissa + 1

theorem represents_exact (m : Nat) : Represents (.ofMantissaAndAccuracy m .exact) m :=
  rfl

/-- What division with remainder finds out of a quotient. -/
theorem represents_div (a : Nat) {b : Nat} (hb : 0 < b) :
    Represents (.ofMantissaAndAccuracy (a / b) (accuracyOfFraction (a % b) b)) (a / b) := by
  have hpos : (0 : ℚ) < b := by exact_mod_cast hb
  have heq : ((a / b : Nat) : ℚ) + (a % b : Nat) / b = a / b := by
    have hmod : (b : ℚ) * (a / b : Nat) + (a % b : Nat) = a := by exact_mod_cast Nat.div_add_mod a b
    field_simp
    linarith
  have hlt : ((a % b : Nat) : ℚ) / b < 1 := by
    rw [div_lt_one hpos]
    exact_mod_cast Nat.mod_lt a hb
  rw [← heq, accuracyOfFraction]
  by_cases hzero : a % b = 0
  · rw [if_pos hzero, hzero]
    simp [Represents, ExtendedMantissa.ofMantissaAndAccuracy]
  · rw [if_neg hzero]
    have hrem : (0 : ℚ) < (a % b : Nat) / b :=
      div_pos (by exact_mod_cast Nat.pos_of_ne_zero hzero) hpos
    cases hcmp : compare (2 * (a % b)) b with
    | lt =>
      have hhalf : ((a % b : Nat) : ℚ) / b < 1 / 2 := by
        rw [div_lt_div_iff₀ hpos two_pos]
        exact_mod_cast (by linarith [compare_lt_iff_lt.mp hcmp] : a % b * 2 < 1 * b)
      exact ⟨lt_add_of_pos_right _ hrem, add_lt_add_right hhalf _⟩
    | eq =>
      have hhalf : ((a % b : Nat) : ℚ) / b = 1 / 2 := by
        rw [div_eq_div_iff hpos.ne' two_ne_zero]
        exact_mod_cast (by linarith [compare_eq_iff_eq.mp hcmp] : a % b * 2 = 1 * b)
      exact congrArg _ hhalf
    | gt =>
      have hhalf : 1 / 2 < ((a % b : Nat) : ℚ) / b := by
        rw [div_lt_div_iff₀ two_pos hpos]
        exact_mod_cast (by linarith [compare_gt_iff_gt.mp hcmp] : 1 * b < a % b * 2)
      exact ⟨add_lt_add_right hhalf _, add_lt_add_right hlt _⟩

section

variable {em : ExtendedMantissa} {v : ℚ}

theorem Represents.mantissa_le (h : Represents em v) :
    (em.mantissa : ℚ) ≤ v ∧ v < em.mantissa + 1 := by
  obtain ⟨m, r, s⟩ := em
  cases r <;> cases s <;> simp only [Represents] at h <;> constructor <;> linarith

theorem Represents.shiftRightOne (h : Represents em v) : Represents em.shiftRightOne (v / 2) := by
  obtain ⟨m, r, s⟩ := em
  have hm : ((m % 2 : Nat) : ℚ) + 2 * (m / 2 : Nat) = m := by exact_mod_cast Nat.mod_add_div m 2
  cases r <;> cases s <;> rcases Nat.mod_two_eq_zero_or_one m with hbit | hbit <;>
    rw [hbit] at hm <;> simp [Represents, ExtendedMantissa.shiftRightOne, hbit] at h hm ⊢
  -- a whole number is halved exactly; else the half is between two bounds
  · linarith
  · linarith
  all_goals constructor <;> linarith

theorem Represents.shiftRight (h : Represents em v) (n : Nat) :
    Represents (em >>> n) (v / 2 ^ n) := by
  induction n with
  | zero =>
    rw [pow_zero, div_one]
    exact h
  | succ n ih =>
    rw [pow_succ, ← div_div]
    exact ih.shiftRightOne

/-- The nearest natural is found, and the even one of two that are equally near. -/
theorem Represents.roundedMantissa_eq (h : Represents em v) {c : Nat} (hlow : (c : ℚ) - 1 / 2 ≤ v)
    (hhigh : v ≤ c + 1 / 2) (hodd : c % 2 = 1 → (c : ℚ) - 1 / 2 < v ∧ v < c + 1 / 2) :
    em.roundedMantissa = c := by
  obtain ⟨m, r, s⟩ := em
  -- a natural that is less than one away is the same
  have hclose : ∀ n k : Nat, (n : ℚ) < k + 1 → n ≤ k := by
    intro n k hnk
    exact Nat.lt_succ_iff.mp (by exact_mod_cast hnk)
  cases r <;> cases s <;> simp only [Represents] at h
  · exact Nat.le_antisymm (hclose m c (by linarith)) (hclose c m (by linarith))
  · exact Nat.le_antisymm (hclose m c (by linarith)) (hclose c m (by linarith))
  · have hle : m ≤ c := hclose m c (by linarith)
    have hge : c ≤ m + 1 := hclose c (m + 1) (by push_cast; linarith)
    have heven : c % 2 ≠ 1 := by
      intro hc
      obtain ⟨hl, hh⟩ := hodd hc
      have hlt : m < c := by
        have : (m : ℚ) < c := by linarith
        exact_mod_cast this
      have : c ≤ m := hclose c m (by linarith)
      omega
    change m + m % 2 = c
    omega
  · have hle := hclose c (m + 1) (by push_cast; linarith)
    have hge := hclose (m + 1) c (by push_cast; linarith)
    exact Nat.le_antisymm hge hle

end

/-! ### Rounding -/

/-- The exponent of the last place of a double in which a number of this size is rounded. -/
def targetExponent (m : Nat) (e : Int) : Int :=
  max (m.log2 + 1 + e - 53) (-1074)

theorem shiftToTargetExponent_eq (m : Nat) (e : Int) (acc : Accuracy) :
    shiftToTargetExponent .binary64 m e acc =
      (ExtendedMantissa.ofMantissaAndAccuracy m acc >>> (targetExponent m e - e).toNat,
        e + (targetExponent m e - e).toNat) :=
  rfl

theorem mantissa_ofMantissaAndAccuracy (m : Nat) (acc : Accuracy) :
    (ExtendedMantissa.ofMantissaAndAccuracy m acc).mantissa = m := by
  rcases acc with _ | _ | _ | _ <;> rfl

/-- The two steps of rounding: the first shift is rounded, and the second makes room for a carry. -/
theorem roundWithAccuracy_of_shifts {s : Sign} {n m : Nat} {d e f : Int} {acc : Accuracy}
    {em em' : ExtendedMantissa} (hm : 0 < m)
    (hfirst : shiftToTargetExponent .binary64 n d acc = (em, f))
    (hsecond : shiftToTargetExponent .binary64 em.roundedMantissa f .exact = (em', e))
    (hmantissa : em'.mantissa = m) :
    roundWithAccuracy .binary64 s n d acc = .finite s m e hm := by
  subst hmantissa
  rw [roundWithAccuracy, hfirst]
  dsimp only
  rw [hsecond]
  exact dif_neg hm.ne'

section

variable {n m : Nat} {d e : Int} {acc : Accuracy} {v : ℚ}

/-- The size of a number is known from its whole part. -/
theorem Represents.mem_binade (hv : Represents (.ofMantissaAndAccuracy n acc) v) :
    (n ≠ 0 → 2 ^ (n.log2 + d) ≤ v * 2 ^ d) ∧ v * 2 ^ d < 2 ^ (n.log2 + 1 + d) := by
  obtain ⟨hle, hlt⟩ := hv.mantissa_le
  rw [mantissa_ofMantissaAndAccuracy] at hle hlt
  have hpos := two_zpow_pos d
  constructor
  · intro hn
    have hlog : ((2 ^ n.log2 : Nat) : ℚ) ≤ n := by exact_mod_cast Nat.log2_self_le hn
    rw [zpow_add₀ two_ne_zero, zpow_natCast]
    push_cast at hlog
    exact mul_le_mul_of_nonneg_right (hlog.trans hle) hpos.le
  · have hlog : ((n + 1 : Nat) : ℚ) ≤ (2 ^ (n.log2 + 1) : Nat) := by exact_mod_cast Nat.lt_log2_self
    have hcast : ((n.log2 : Int) + 1) = (n.log2 + 1 : Nat) := rfl
    rw [zpow_add₀ two_ne_zero, hcast, zpow_natCast]
    push_cast at hlog
    exact mul_lt_mul_of_pos_right (hlt.trans_le hlog) hpos

/-- A number in the interval of a double is rounded in the last place of that double, or in the
place below it, if the double is a power of two and the number is less. -/
theorem targetExponent_cases (hd : IsDouble m e) (hv : Represents (.ofMantissaAndAccuracy n acc) v)
    (hbits : 2 ^ 52 ≤ n ∨ d ≤ -1074) (hround : RoundsTo (v * 2 ^ d) m e) :
    targetExponent n d = e ∨
      m = 2 ^ 52 ∧ -1074 < e ∧ targetExponent n d = e - 1 ∧ v * 2 ^ d < 2 ^ (e + 52) := by
  have hone : (1 : ℚ) < 2 := by norm_num
  obtain ⟨hsize, hsize'⟩ := hv.mem_binade (d := d)
  -- the number is below `2 ^ (e + 53)`, so it is not rounded in a place above that of the double
  have hupper : n.log2 + 1 + d ≤ e + 53 ∨ n = 0 := by
    by_cases hn : n = 0
    · exact .inr hn
    · have hlt := (hsize hn).trans_lt (hround.lt_two_zpow hd)
      have := (zpow_lt_zpow_iff_right₀ hone).mp hlt
      omega
  have hzero : n = 0 → d ≤ -1074 ∧ n.log2 = 0 := by
    rintro rfl
    exact ⟨hbits.resolve_left (by norm_num), rfl⟩
  have hmin := hd.minExponent_le
  rw [targetExponent]
  by_cases he : e = -1074
  · omega
  · have hnormal : 2 ^ 52 ≤ m := hd.normal.resolve_right he
    have hlower : e + 51 < n.log2 + 1 + d :=
      (zpow_lt_zpow_iff_right₀ hone).mp ((hround.two_zpow_lt hnormal).trans hsize')
    by_cases heq : n.log2 + 1 + d = e + 52
    · refine .inr ⟨?_, by omega, by omega, heq ▸ hsize'⟩
      -- less than `2 ^ 52` in units of the last place, and in the interval of `m`
      have hlt : (m : ℚ) - 1 / 2 < 2 ^ 52 := by
        refine hround.div.1.trans_lt ?_
        rw [div_lt_iff₀ (two_zpow_pos e)]
        calc v * 2 ^ d < 2 ^ (e + 52) := heq ▸ hsize'
          _ = 2 ^ 52 * 2 ^ e := by
            rw [zpow_add₀ two_ne_zero, mul_comm]
            norm_num
      have hlt' : (m : ℚ) < (2 ^ 52 + 1 : Nat) := by
        push_cast
        linarith
      have : m < 2 ^ 52 + 1 := by exact_mod_cast hlt'
      omega
    · omega

/-- The first shift divides by the unit of the last place. -/
theorem Represents.exists_shift (hv : Represents (.ofMantissaAndAccuracy n acc) v) {t : Int}
    (ht : targetExponent n d = t) (hle : d ≤ t) :
    ∃ em, shiftToTargetExponent .binary64 n d acc = (em, t) ∧
      Represents em (v * 2 ^ d / 2 ^ t) := by
  obtain ⟨k, rfl⟩ := Int.le.dest hle
  have hk : (targetExponent n d - d).toNat = k := by omega
  refine ⟨_, by rw [shiftToTargetExponent_eq, hk], ?_⟩
  have hshift := hv.shiftRight k
  have heq : v * 2 ^ d / 2 ^ (d + k : Int) = v / 2 ^ k := by
    rw [zpow_add₀ two_ne_zero, zpow_natCast, mul_comm v, mul_div_mul_left _ _ (two_zpow_pos d).ne']
  rwa [heq]

/-- A double is not shifted. -/
theorem IsDouble.shiftToTargetExponent_eq (hd : IsDouble m e) (hm : 0 < m) :
    shiftToTargetExponent .binary64 m e .exact = (⟨m, false, false⟩, e) := by
  have hlog : m.log2 < 53 := (Nat.log2_lt hm.ne').mpr hd.lt
  have htarget : targetExponent m e = e := by
    have hmin := hd.minExponent_le
    rw [targetExponent]
    rcases hd.normal with hnormal | rfl
    · have : 52 ≤ m.log2 := (Nat.le_log2 hm.ne').mpr hnormal
      omega
    · omega
  rw [Number.shiftToTargetExponent_eq, htarget, sub_self]
  exact congrArg _ (add_zero e)

/-- **A number in the interval of a double is rounded to that double.** -/
theorem roundWithAccuracy_eq {s : Sign} (hd : IsDouble m e) (hm : 0 < m)
    (hv : Represents (.ofMantissaAndAccuracy n acc) v) (hbits : 2 ^ 52 ≤ n ∨ d ≤ -1074)
    (hround : RoundsTo (v * 2 ^ d) m e) :
    roundWithAccuracy .binary64 s n d acc = .finite s m e hm := by
  have hle : d ≤ targetExponent n d := by
    rw [targetExponent]
    rcases hbits with hbits | hbits
    · have : 52 ≤ n.log2 := (Nat.le_log2 (by omega)).mpr hbits
      omega
    · omega
  rcases targetExponent_cases hd hv hbits hround with ht | ⟨rfl, hmin, ht, hlt⟩
  · obtain ⟨em, hfirst, hem⟩ := hv.exists_shift ht (ht ▸ hle)
    obtain ⟨hlow, hhigh, hodd⟩ := hround.div
    have hrounded := hem.roundedMantissa_eq hlow hhigh hodd
    have hsecond := hd.shiftToTargetExponent_eq hm
    rw [← hrounded] at hsecond
    exact roundWithAccuracy_of_shifts hm hfirst hsecond hrounded
  · -- the number is rounded up to a power of two, and the carry is shifted out again
    obtain ⟨em, hfirst, hem⟩ := hv.exists_shift ht (ht ▸ hle)
    have hunit : (2 : ℚ) ^ (e - 1) * 2 = 2 ^ e := by
      rw [zpow_sub_one₀ two_ne_zero, mul_assoc, inv_mul_cancel₀ two_ne_zero, mul_one]
    have hpos := two_zpow_pos (e - 1)
    have hlow : ((2 ^ 53 : Nat) : ℚ) - 1 / 2 ≤ v * 2 ^ d / 2 ^ (e - 1) := by
      rw [le_div_iff₀ hpos]
      have := hround.low
      rw [reachBelow, if_pos ⟨rfl, hmin⟩, ← hunit] at this
      push_cast at this ⊢
      linarith
    have hhigh : v * 2 ^ d / 2 ^ (e - 1) ≤ ((2 ^ 53 : Nat) : ℚ) + 1 / 2 := by
      rw [div_le_iff₀ hpos]
      have : v * 2 ^ d < 2 ^ 52 * 2 ^ e := by
        rw [zpow_add₀ two_ne_zero] at hlt
        norm_num at hlt ⊢
        linarith
      rw [← hunit] at this
      push_cast
      linarith
    have hrounded := hem.roundedMantissa_eq hlow hhigh (fun hodd => absurd hodd (by norm_num))
    have htarget : targetExponent (2 ^ 53) (e - 1) = e := by
      rw [targetExponent, Nat.log2_two_pow]
      omega
    have hone : (e - (e - 1)).toNat = 1 := by omega
    have hsecond : shiftToTargetExponent .binary64 em.roundedMantissa (e - 1) .exact =
        (⟨2 ^ 52, false, false⟩, e) := by
      rw [hrounded, Number.shiftToTargetExponent_eq, htarget, hone]
      exact congrArg _ (Int.sub_add_cancel e 1)
    exact roundWithAccuracy_of_shifts hm hfirst hsecond rfl

end

/-! ### Products and quotients -/

section

variable {s s' : Sign} {m m' n : Nat} {e e' f : Int} {hm : 0 < m} {hm' : 0 < m'}

/-- A product in the interval of a double is that double. -/
theorem mul_eq (hd : IsDouble n f) (hn : 0 < n) (hbits : 2 ^ 52 ≤ m * m')
    (hround : RoundsTo (m * 2 ^ e * (m' * 2 ^ e')) n f) :
    UnpackedFloat.mul .binary64 (.finite s m e hm) (.finite s' m' e' hm') =
      .finite (s * s') n f hn := by
  refine roundWithAccuracy_eq hd hn (represents_exact (m * m')) (.inl hbits) ?_
  have heq : ((m * m' : Nat) : ℚ) * 2 ^ (e + e') = m * 2 ^ e * (m' * 2 ^ e') := by
    rw [zpow_add₀ two_ne_zero]
    push_cast
    ring
  rwa [heq]

/-- A quotient in the interval of a double is that double. The dividend is shifted until the
quotient has bits enough. -/
theorem div_eq (hd : IsDouble n f) (hn : 0 < n)
    (hround : RoundsTo (m * 2 ^ e / (m' * 2 ^ e')) n f) :
    UnpackedFloat.div .binary64 (.finite s m e hm) (.finite s' m' e' hm') =
      .finite (s / s') n f hn := by
  obtain ⟨t, ht⟩ : ∃ t, t = min (e - e') (max (m.log2 + 1 + e - (m'.log2 + 1 + e') - 53) (-1074)) :=
    ⟨_, rfl⟩
  obtain ⟨k, hk⟩ : ∃ k : Nat, k = (e - e' - t).toNat := ⟨_, rfl⟩
  have hdiv : UnpackedFloat.div .binary64 (.finite s m e hm) (.finite s' m' e' hm') =
      roundWithAccuracy .binary64 (s / s') (m <<< k / m') t
        (accuracyOfFraction (m <<< k % m') m') := by
    subst hk ht
    rfl
  rw [hdiv]
  have hkt : (k : Int) = e - e' - t := by omega
  refine roundWithAccuracy_eq hd hn (represents_div (m <<< k) hm') ?_ ?_
  · by_cases hmin : t ≤ -1074
    · exact .inr hmin
    · left
      rw [Nat.le_div_iff_mul_le hm', Nat.shiftLeft_eq]
      have hexp : 52 + (m'.log2 + 1) ≤ m.log2 + k := by omega
      calc 2 ^ 52 * m' ≤ 2 ^ 52 * 2 ^ (m'.log2 + 1) :=
            Nat.mul_le_mul_left _ Nat.lt_log2_self.le
        _ = 2 ^ (52 + (m'.log2 + 1)) := (pow_add 2 52 _).symm
        _ ≤ 2 ^ (m.log2 + k) := Nat.pow_le_pow_right two_pos hexp
        _ = 2 ^ m.log2 * 2 ^ k := pow_add 2 _ _
        _ ≤ m * 2 ^ k := Nat.mul_le_mul_right _ (Nat.log2_self_le hm.ne')
  · have heq : ((m <<< k : Nat) : ℚ) / m' * 2 ^ t = m * 2 ^ e / (m' * 2 ^ e') := by
      have hexp : (2 : ℚ) ^ k * 2 ^ t * 2 ^ e' = 2 ^ e := by
        rw [← zpow_natCast, hkt, ← zpow_add₀ two_ne_zero, ← zpow_add₀ two_ne_zero]
        congr 1
        ring
      have hpos : (m' : ℚ) ≠ 0 := by exact_mod_cast hm'.ne'
      have hpos' := (two_zpow_pos e').ne'
      rw [Nat.shiftLeft_eq, ← hexp]
      push_cast
      field_simp
    rwa [heq]

end

end Scriptlet.Number
