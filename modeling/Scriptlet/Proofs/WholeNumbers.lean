import Mathlib
import Scriptlet.Proofs.Doubles

/-!
Whole numbers among the doubles.

What is unpacked from a finite double denotes a rational (`Denotes`). As doubles are written with
the largest mantissa that there can be, to compare them is to compare what they denote
(`Denotes.compare_eq`), and a sum that is a double again is found without rounding (`Denotes.add`).
So whole numbers are compared exactly (`lt_iff_of_toInt?`, `le_iff_of_toInt?`), and as those up to
`2 ^ 53` are doubles, sums are exact as far as that (`toInt?_add`). A position or a length may be
larger and is then rounded, but it does not lose its sign (`ofIndex_pos_iff`).
-/
namespace Scriptlet.Number

open Float.Model Float.Model.UnpackedFloat

/-! ### What a double denotes -/

/-- The number `± m · 2 ^ e`. -/
def rational (s : Sign) (m : Nat) (e : Int) : ℚ :=
  s.apply m * 2 ^ e

/-- What is unpacked from a double stands for this number. -/
def Denotes (u : UnpackedFloat) (v : ℚ) : Prop :=
  ∃ s m e, IsDouble m e ∧ u = unpacked s m e ∧ rational s m e = v

/-- The number that has been unpacked, if it is one. -/
def value? : UnpackedFloat → Option ℚ
  | .zero _ => some 0
  | .finite s m e _ => some (rational s m e)
  | _ => none

/-- What arithmetic unpacks from a double of these parts. -/
def Parts.unpack : Parts → UnpackedFloat
  | .nan => .notANumber
  | .infinite negative => .infinity (if negative then .negative else .positive)
  | .finite negative m e => unpacked (if negative then .negative else .positive) m e

theorem unpack_eq (x : Float) : x.toModel.unpack = (parts x).unpack := by
  obtain ⟨negative, exponent, fraction, -, -, hunpack, hparts⟩ := parts_eq x
  rw [hunpack, hparts, ofFields]
  split
  · split <;> rfl
  · split <;> rfl

theorem rational_positive (m : Nat) (e : Int) : rational .positive m e = m * 2 ^ e :=
  rfl

theorem rational_negative (m : Nat) (e : Int) : rational .negative m e = -(m * 2 ^ e) := by
  show ((-(m : Int) : Int) : ℚ) * 2 ^ e = _
  rw [Int.cast_neg, Int.cast_natCast, neg_mul]

theorem rational_zero (s : Sign) (e : Int) : rational s 0 e = 0 := by
  cases s with
  | positive => rw [rational_positive, Nat.cast_zero, zero_mul]
  | negative => rw [rational_negative, Nat.cast_zero, zero_mul, neg_zero]

section

variable {x y : Float} {u u' : UnpackedFloat} {v w : ℚ} {m n : Nat} {e f : Int}

theorem Denotes.value?_eq (h : Denotes u v) : value? u = some v := by
  obtain ⟨s, m, e, -, rfl, rfl⟩ := h
  by_cases hm : 0 < m
  · rw [unpacked_of_pos _ _ hm]
    rfl
  · obtain rfl : m = 0 := by omega
    rw [rational_zero]
    rfl

theorem denotes_finite (hd : IsDouble m e) (hm : 0 < m) (s : Sign) :
    Denotes (.finite s m e hm) (rational s m e) :=
  ⟨s, m, e, hd, (unpacked_of_pos s e hm).symm, rfl⟩

theorem denotes_zero (s : Sign) : Denotes (.zero s) 0 :=
  ⟨s, 0, -1074, ⟨by norm_num, le_rfl, by norm_num, .inr rfl⟩, rfl, rational_zero s _⟩

/-- Packing loses nothing. -/
theorem Denotes.unpack_pack (h : Denotes u v) : Denotes (Float.Model.pack u).unpack v := by
  obtain ⟨s, m, e, hd, rfl, rfl⟩ := h
  by_cases hm : 0 < m
  · rw [unpacked_of_pos _ _ hm, hd.unpack_pack]
    exact denotes_finite hd hm s
  · obtain rfl : m = 0 := by omega
    have hzero : (Float.Model.pack (unpacked s 0 e)).unpack = .zero s := by
      show (Float.Model.pack (.zero s)).unpack = .zero s
      cases s <;> rfl
    rw [hzero, rational_zero]
    exact denotes_zero s

/-- The whole number `m · 2 ^ e`, if it is one. -/
theorem magnitude_eq_some_iff :
    (if 0 ≤ e then some (m * pow2 e.toNat)
      else if m % pow2 (-e).toNat = 0 then some (m / pow2 (-e).toNat) else none) = some n ↔
      (m : ℚ) * 2 ^ e = n := by
  by_cases he : 0 ≤ e
  · obtain ⟨k, rfl⟩ := Int.eq_ofNat_of_zero_le he
    rw [if_pos he, Int.toNat_natCast, pow2_eq, Option.some.injEq, zpow_natCast]
    norm_cast
  · obtain ⟨k, rfl⟩ : ∃ k : Nat, e = -k := ⟨(-e).toNat, by omega⟩
    have hpos : (0 : ℚ) < 2 ^ k := by positivity
    rw [if_neg he, neg_neg, Int.toNat_natCast, pow2_eq, zpow_neg, zpow_natCast, ← div_eq_mul_inv,
      div_eq_iff hpos.ne']
    have hcast : (m : ℚ) = n * 2 ^ k ↔ m = n * 2 ^ k := by norm_cast
    rw [hcast]
    split
    · rename_i hmod
      have hdvd := Nat.dvd_of_mod_eq_zero hmod
      rw [Option.some.injEq, Nat.div_eq_iff_eq_mul_left (by positivity) hdvd]
    · rename_i hmod
      constructor
      · exact nofun
      · rintro rfl
        exact absurd (Nat.mul_mod_left n (2 ^ k)) hmod

theorem toInt?_eq_map {negative : Bool} (h : parts x = .finite negative m e) :
    toInt? x = (if 0 ≤ e then some (m * pow2 e.toNat)
      else if m % pow2 (-e).toNat = 0 then some (m / pow2 (-e).toNat) else none).map
        fun n : Nat => if negative then -(n : Int) else n := by
  rw [toInt?, h]
  dsimp only
  generalize (if 0 ≤ e then some (m * pow2 e.toNat) else _) = magnitude?
  cases magnitude? <;> rfl

/-- A number that is an integer is a natural with a sign. -/
theorem rational_eq_intCast_iff {s : Sign} {a : Int} :
    rational s m e = a ↔ ∃ n : Nat, (m : ℚ) * 2 ^ e = n ∧ s.apply n = a := by
  constructor
  · intro h
    have hnonneg : (0 : ℚ) ≤ m * 2 ^ e := by positivity
    cases s with
    | positive =>
      rw [rational_positive] at h
      rw [h] at hnonneg
      obtain ⟨n, rfl⟩ := Int.eq_ofNat_of_zero_le (Int.cast_nonneg_iff.mp hnonneg)
      exact ⟨n, h, rfl⟩
    | negative =>
      have hneg : (m : ℚ) * 2 ^ e = (-a : Int) := by
        rw [Int.cast_neg, ← h, rational_negative, neg_neg]
      rw [hneg] at hnonneg
      obtain ⟨n, hn⟩ := Int.eq_ofNat_of_zero_le (Int.cast_nonneg_iff.mp hnonneg)
      refine ⟨n, by rw [hneg, hn, Int.cast_natCast], ?_⟩
      show -(n : Int) = a
      omega
  · rintro ⟨n, hn, rfl⟩
    cases s with
    | positive => exact hn
    | negative => rw [rational_negative, hn, Sign.apply, Int.cast_neg, Int.cast_natCast]

/-- The integer that a double stands for is the one that it denotes. -/
theorem toInt?_eq_some_iff {a : Int} : toInt? x = some a ↔ Denotes x.toModel.unpack a := by
  rw [unpack_eq]
  cases hparts : parts x with
  | nan =>
    rw [toInt?, hparts]
    exact ⟨nofun, fun h => nomatch h.value?_eq⟩
  | infinite negative =>
    rw [toInt?, hparts]
    exact ⟨nofun, fun h => nomatch h.value?_eq⟩
  | finite negative m e =>
    obtain ⟨hd, -⟩ := eq_double_of_parts hparts
    have hdenotes : Denotes (Parts.finite negative m e).unpack _ := ⟨_, m, e, hd, rfl, rfl⟩
    have hvalue : Denotes (Parts.finite negative m e).unpack a ↔
        rational (if negative then .negative else .positive) m e = a := by
      constructor
      · intro h
        exact Option.some.inj (hdenotes.value?_eq.symm.trans h.value?_eq)
      · intro h
        exact h ▸ hdenotes
    rw [hvalue, rational_eq_intCast_iff, toInt?_eq_map hparts, Option.map_eq_some_iff]
    simp only [magnitude_eq_some_iff]
    cases negative <;> rfl

/-! ### Comparison -/

theorem mul_zpow_lt (hd : IsDouble m e) (hd' : IsDouble n f) (h : e < f) :
    (m : ℚ) * 2 ^ e < n * 2 ^ f := by
  -- the greater exponent is not the least, so its mantissa has the full length
  have hmin := hd.minExponent_le
  have hn : 2 ^ 52 ≤ n := hd'.normal.resolve_right (by omega)
  have hm : (m : ℚ) < 2 ^ 53 := by exact_mod_cast hd.lt
  have hn' : (2 : ℚ) ^ 52 ≤ n := by exact_mod_cast hn
  calc (m : ℚ) * 2 ^ e < 2 ^ 53 * 2 ^ e := mul_lt_mul_of_pos_right hm (two_zpow_pos e)
    _ = 2 ^ 52 * 2 ^ (e + 1) := by
      rw [zpow_add_one₀ two_ne_zero]
      ring
    _ ≤ 2 ^ 52 * 2 ^ f := by
      gcongr
      · norm_num
      · omega
    _ ≤ n * 2 ^ f := by gcongr

/-- Doubles above zero are in the order of their exponents, and then of their mantissas. -/
theorem compare_then (hd : IsDouble m e) (hd' : IsDouble n f) :
    (compare e f).then (compare m n) = compare ((m : ℚ) * 2 ^ e) (n * 2 ^ f) := by
  rcases lt_trichotomy e f with hlt | rfl | hgt
  · rw [compare_lt_iff_lt.mpr hlt, compare_lt_iff_lt.mpr (mul_zpow_lt hd hd' hlt)]
    rfl
  · have hmono : StrictMono fun k : Nat => (k : ℚ) * 2 ^ e := by
      intro a b hab
      exact mul_lt_mul_of_pos_right (by exact_mod_cast hab) (two_zpow_pos e)
    rw [compare_eq_iff_eq.mpr rfl, Ordering.eq_then, ← cmp_eq_compare, ← cmp_eq_compare]
    exact (hmono.cmp_map_eq m n).symm
  · rw [compare_gt_iff_gt.mpr hgt, compare_gt_iff_gt.mpr (mul_zpow_lt hd' hd hgt)]
    rfl

theorem compare_neg_neg (v w : ℚ) : compare (-v) (-w) = (compare v w).swap := by
  rcases lt_trichotomy v w with hlt | rfl | hgt
  · rw [compare_lt_iff_lt.mpr hlt, compare_gt_iff_gt.mpr (neg_lt_neg hlt)]
    rfl
  · rw [compare_eq_iff_eq.mpr rfl, compare_eq_iff_eq.mpr rfl]
    rfl
  · rw [compare_gt_iff_gt.mpr hgt, compare_lt_iff_lt.mpr (neg_lt_neg hgt)]
    rfl

theorem compare_unpacked (hd : IsDouble m e) (hd' : IsDouble n f) (s t : Sign) :
    (unpacked s m e).compare (unpacked t n f) =
      some (compare (rational s m e) (rational t n f)) := by
  have hpos : ∀ {k : Nat} (g : Int), 0 < k → (0 : ℚ) < k * 2 ^ g :=
    fun g hk => mul_pos (by exact_mod_cast hk) (two_zpow_pos g)
  by_cases hm : 0 < m
  · rw [unpacked_of_pos s e hm]
    by_cases hn : 0 < n
    · rw [unpacked_of_pos t f hn]
      -- different signs decide at once
      cases s <;> cases t
      · rw [rational_negative, rational_negative, compare_neg_neg, ← compare_then hd hd']
        rfl
      · rw [rational_negative, rational_positive, compare_lt_iff_lt.mpr]
        · rfl
        · exact (neg_lt_zero.mpr (hpos e hm)).trans (hpos f hn)
      · rw [rational_negative, rational_positive, compare_gt_iff_gt.mpr]
        · rfl
        · exact (neg_lt_zero.mpr (hpos f hn)).trans (hpos e hm)
      · rw [rational_positive, rational_positive, ← compare_then hd hd']
        rfl
    · obtain rfl : n = 0 := by omega
      rw [rational_zero]
      cases s
      · rw [rational_negative, compare_lt_iff_lt.mpr (neg_lt_zero.mpr (hpos e hm))]
        rfl
      · rw [rational_positive, compare_gt_iff_gt.mpr (hpos e hm)]
        rfl
  · obtain rfl : m = 0 := by omega
    rw [rational_zero]
    by_cases hn : 0 < n
    · rw [unpacked_of_pos t f hn]
      cases t
      · rw [rational_negative, compare_gt_iff_gt.mpr (neg_lt_zero.mpr (hpos f hn))]
        rfl
      · rw [rational_positive, compare_lt_iff_lt.mpr (hpos f hn)]
        rfl
    · obtain rfl : n = 0 := by omega
      rw [rational_zero, compare_eq_iff_eq.mpr rfl]
      rfl

theorem Denotes.compare_eq (hu : Denotes u v) (hu' : Denotes u' w) :
    u.compare u' = some (compare v w) := by
  obtain ⟨s, m, e, hd, rfl, rfl⟩ := hu
  obtain ⟨t, n, f, hd', rfl, rfl⟩ := hu'
  exact compare_unpacked hd hd' s t

/-- Whole numbers are compared as integers are. -/
theorem lt_iff_of_toInt? {a b : Int} (hx : toInt? x = some a) (hy : toInt? y = some b) :
    x < y ↔ a < b := by
  rw [toInt?_eq_some_iff] at hx hy
  show decide (x.toModel.unpack.lt y.toModel.unpack = true) = true ↔ a < b
  rw [decide_eq_true_iff, UnpackedFloat.lt, hx.compare_eq hy, beq_iff_eq, Option.some.injEq,
    compare_lt_iff_lt, Int.cast_lt]

theorem le_iff_of_toInt? {a b : Int} (hx : toInt? x = some a) (hy : toInt? y = some b) :
    x ≤ y ↔ a ≤ b := by
  rw [toInt?_eq_some_iff] at hx hy
  show decide (x.toModel.unpack.le y.toModel.unpack = true) = true ↔ a ≤ b
  rw [decide_eq_true_iff, UnpackedFloat.le, hx.compare_eq hy, Option.any_some,
    Ordering.isLE_iff_ne_gt, ← Ne, compare_le_iff_le, Int.cast_le]

/-! ### Sums -/

theorem shiftLeft_mul_zpow_sub (m k : Nat) (e : Int) :
    ((m <<< k : Nat) : ℚ) * 2 ^ (e - k) = m * 2 ^ e := by
  rw [sub_eq_add_neg, add_comm, zpow_add₀ two_ne_zero, ← mul_assoc, shiftLeft_mul_zpow]

/-- A number that is a double is not changed by rounding. -/
theorem round_eq {s : Sign} (hd : IsDouble n f) (hn : 0 < n) (heq : (m : ℚ) * 2 ^ e = n * 2 ^ f) :
    UnpackedFloat.round .binary64 s m e = .finite s n f hn := by
  have hm : m ≠ 0 := by
    rintro rfl
    have hpos : (0 : ℚ) < n * 2 ^ f := mul_pos (by exact_mod_cast hn) (two_zpow_pos f)
    rw [← heq, Nat.cast_zero, zero_mul] at hpos
    exact lt_irrefl 0 hpos
  obtain ⟨k, hk⟩ : ∃ k, k = (e - targetExponent m e).toNat := ⟨_, rfl⟩
  have hround : UnpackedFloat.round .binary64 s m e =
      roundWithAccuracy .binary64 s (m <<< k) (e - k) .exact := by
    subst hk
    rfl
  rw [hround]
  refine roundWithAccuracy_eq hd hn (represents_exact _) ?_ ?_
  · -- the shift reaches the last place of doubles of this size
    by_cases hmin : e - k ≤ -1074
    · exact .inr hmin
    · left
      rw [targetExponent] at hk
      have hlog : 52 ≤ m.log2 + k := by omega
      calc 2 ^ 52 ≤ 2 ^ (m.log2 + k) := Nat.pow_le_pow_right two_pos hlog
        _ = 2 ^ m.log2 * 2 ^ k := pow_add 2 _ _
        _ ≤ m * 2 ^ k := Nat.mul_le_mul_right _ (Nat.log2_self_le hm)
        _ = m <<< k := (Nat.shiftLeft_eq m k).symm
  · rw [shiftLeft_mul_zpow_sub, heq]
    exact .self n f

/-- The integer of a positive number is positive, whatever the unit. -/
theorem pos_of_mul_zpow_eq {a : Int} (hn : 0 < n) (heq : (a : ℚ) * 2 ^ e = n * 2 ^ f) : 0 < a := by
  have hpos : (0 : ℚ) < n * 2 ^ f := mul_pos (by exact_mod_cast hn) (two_zpow_pos f)
  rw [← heq] at hpos
  exact_mod_cast pos_of_mul_pos_left hpos (two_zpow_pos e).le

/-- The double that a sum of mantissas is normalized to. -/
theorem denotes_normalize {a : Int} {s : Sign} (hd : IsDouble n f)
    (heq : (a : ℚ) * 2 ^ e = rational s n f) :
    Denotes (UnpackedFloat.normalize .binary64 a e .positive) (rational s n f) := by
  rw [UnpackedFloat.normalize]
  by_cases hn : 0 < n
  · cases s with
    | positive =>
      have ha := pos_of_mul_zpow_eq hn heq
      obtain ⟨m, rfl⟩ := Int.eq_ofNat_of_zero_le ha.le
      rw [compare_gt_iff_gt.mpr ha]
      exact ⟨_, n, f, hd, (round_eq hd hn heq).trans (unpacked_of_pos _ f hn).symm, rfl⟩
    | negative =>
      have hneg : ((-a : Int) : ℚ) * 2 ^ e = n * 2 ^ f := by
        rw [Int.cast_neg, neg_mul, heq, rational_negative, neg_neg]
      have ha := pos_of_mul_zpow_eq hn hneg
      obtain ⟨m, hm⟩ := Int.eq_ofNat_of_zero_le ha.le
      rw [compare_lt_iff_lt.mpr (Int.neg_pos.mp ha), hm]
      rw [hm] at hneg
      exact ⟨_, n, f, hd, (round_eq hd hn hneg).trans (unpacked_of_pos _ f hn).symm, rfl⟩
  · obtain rfl : n = 0 := by omega
    rw [rational_zero] at heq ⊢
    have ha : a = 0 := by
      exact_mod_cast (mul_eq_zero.mp heq).resolve_right (two_zpow_pos e).ne'
    rw [compare_eq_iff_eq.mpr ha]
    exact denotes_zero .positive

/-- The same number with a lower exponent. -/
theorem apply_shiftLeft_mul (s : Sign) (m : Nat) {e d : Int} (h : d ≤ e) :
    (s.apply (m <<< (e - d).toNat : Nat) : ℚ) * 2 ^ d = rational s m e := by
  have hshift := shiftLeft_mul_zpow_sub m (e - d).toNat e
  have hd : e - (e - d).toNat = d := by omega
  rw [hd] at hshift
  cases s with
  | positive => exact hshift
  | negative =>
    rw [rational_negative, ← hshift, ← neg_mul, Sign.apply, Int.cast_neg, Int.cast_natCast]

/-- A sum that is a double is found. -/
theorem Denotes.add {s : Sign} (hu : Denotes u v) (hu' : Denotes u' w) (hd : IsDouble n f)
    (heq : v + w = rational s n f) : Denotes (u.add .binary64 u') (v + w) := by
  obtain ⟨s₁, m₁, e₁, hd₁, rfl, rfl⟩ := hu
  obtain ⟨s₂, m₂, e₂, hd₂, rfl, rfl⟩ := hu'
  by_cases h₁ : 0 < m₁
  · rw [unpacked_of_pos s₁ e₁ h₁]
    by_cases h₂ : 0 < m₂
    · -- both are shifted to the lower exponent, and the mantissas are added
      rw [unpacked_of_pos s₂ e₂ h₂, heq]
      refine denotes_normalize hd ?_
      rw [Int.cast_add, add_mul, apply_shiftLeft_mul s₁ m₁ (min_le_left e₁ e₂),
        apply_shiftLeft_mul s₂ m₂ (min_le_right e₁ e₂), heq]
    · obtain rfl : m₂ = 0 := by omega
      rw [rational_zero, add_zero]
      exact denotes_finite hd₁ h₁ s₁
  · obtain rfl : m₁ = 0 := by omega
    rw [rational_zero, zero_add]
    by_cases h₂ : 0 < m₂
    · rw [unpacked_of_pos s₂ e₂ h₂]
      exact denotes_finite hd₂ h₂ s₂
    · obtain rfl : m₂ = 0 := by omega
      rw [rational_zero]
      cases s₁ <;> cases s₂ <;> exact denotes_zero _

end

/-! ### Whole numbers -/

/-- A whole number that is not too large is a double. -/
theorem exists_isDouble {c : Nat} (hc : c ≤ 2 ^ 53) :
    ∃ m e, IsDouble m e ∧ (m : ℚ) * 2 ^ e = c := by
  rcases Nat.eq_zero_or_pos c with rfl | hpos
  · exact ⟨0, -1074, ⟨by norm_num, by norm_num, by norm_num, .inr rfl⟩, by simp⟩
  rcases hc.lt_or_eq with hlt | rfl
  · have hlog : c.log2 < 53 := (Nat.log2_lt hpos.ne').mpr hlt
    obtain ⟨k, hk⟩ : ∃ k, c.log2 + k = 52 := ⟨52 - c.log2, by omega⟩
    refine ⟨c <<< k, 0 - k, (isDouble_shiftLeft hpos hk).2, ?_⟩
    rw [shiftLeft_mul_zpow_sub, zpow_zero, mul_one]
  · exact ⟨2 ^ 52, 1, ⟨by norm_num, by norm_num, by norm_num, .inl le_rfl⟩, by norm_num⟩

/-- **Sums of whole numbers are exact up to `2 ^ 53`.** -/
theorem toInt?_add {x y : Float} {a b : Int} (hx : toInt? x = some a) (hy : toInt? y = some b)
    (hsum : (a + b).natAbs ≤ 2 ^ 53) : toInt? (x + y) = some (a + b) := by
  rw [toInt?_eq_some_iff] at hx hy ⊢
  obtain ⟨m, e, hd, heq⟩ := exists_isDouble hsum
  have hexact : ∃ s : Sign, (a : ℚ) + b = rational s m e := by
    rcases le_total 0 (a + b) with hle | hle
    · refine ⟨.positive, ?_⟩
      rw [rational_positive, heq, ← Int.cast_add, Nat.cast_natAbs, abs_of_nonneg hle]
    · refine ⟨.negative, ?_⟩
      rw [rational_negative, heq, ← Int.cast_add, Nat.cast_natAbs, abs_of_nonpos hle, Int.cast_neg,
        neg_neg]
  obtain ⟨s, hs⟩ := hexact
  have hadd := (hx.add hy hd hs).unpack_pack
  push_cast
  exact hadd

/-! ### Numbers of positions and lengths -/

/-- What is unpacked from a number above zero, which may be infinite. -/
def IsPositive (u : UnpackedFloat) : Prop :=
  u = .infinity .positive ∨ ∃ m e hm, u = .finite .positive m e hm

/-- A natural that has bits enough is cut down to the length of a mantissa. -/
theorem shift_normal {c : Nat} {f : Int} (hc : 2 ^ 52 ≤ c) (hf : -1074 ≤ f) :
    2 ^ 52 ≤ (shiftToTargetExponent .binary64 c f .exact).1.mantissa ∧
      (shiftToTargetExponent .binary64 c f .exact).1.mantissa < 2 ^ 53 ∧
      f ≤ (shiftToTargetExponent .binary64 c f .exact).2 := by
  have hne : c ≠ 0 := by omega
  have hlog : 52 ≤ c.log2 := (Nat.le_log2 hne).mpr hc
  obtain ⟨k, hk⟩ : ∃ k, c.log2 = 52 + k := ⟨c.log2 - 52, by omega⟩
  have hshift : (targetExponent c f - f).toNat = k := by
    rw [targetExponent]
    omega
  rw [shiftToTargetExponent_eq, hshift]
  dsimp only
  obtain ⟨hle, hlt⟩ := ((represents_exact c).shiftRight k).mantissa_le
  generalize (ExtendedMantissa.ofMantissaAndAccuracy c .exact >>> k).mantissa = q at hle hlt ⊢
  have hpos : (0 : ℚ) < 2 ^ k := by positivity
  rw [le_div_iff₀ hpos] at hle
  rw [div_lt_iff₀ hpos] at hlt
  have hle : q * 2 ^ k ≤ c := by exact_mod_cast hle
  have hlt : c < (q + 1) * 2 ^ k := by exact_mod_cast hlt
  -- the leading bit of `c` is the one of weight `52 + k`
  have hlow : 2 ^ 52 * 2 ^ k ≤ c := by
    rw [← pow_add, ← hk]
    exact Nat.log2_self_le hne
  have hhigh : c < 2 ^ 53 * 2 ^ k := by
    have hlt := Nat.lt_log2_self (n := c)
    rwa [hk, Nat.add_right_comm, pow_add] at hlt
  refine ⟨?_, ?_, by omega⟩
  · exact Nat.lt_succ_iff.mp (Nat.lt_of_mul_lt_mul_right (hlow.trans_lt hlt))
  · exact Nat.lt_of_mul_lt_mul_right (hle.trans_lt hhigh)

theorem le_roundedMantissa (em : ExtendedMantissa) : em.mantissa ≤ em.roundedMantissa := by
  obtain ⟨m, r, s⟩ := em
  cases r <;> cases s
  · exact le_rfl
  · exact le_rfl
  · exact Nat.le_add_right m (m % 2)
  · exact Nat.le_succ m

/-- A natural that has bits enough is rounded to a normal double, or to more than any double. -/
theorem exists_round {c : Nat} {f : Int} (hc : 2 ^ 52 ≤ c) (hf : -1074 ≤ f) :
    ∃ (m : Nat) (e : Int) (hm : 0 < m), 2 ^ 52 ≤ m ∧ m < 2 ^ 53 ∧ -1074 ≤ e ∧
      roundWithAccuracy .binary64 .positive c f .exact = .finite .positive m e hm := by
  obtain ⟨hfirst, -, hexp⟩ := shift_normal hc hf
  obtain ⟨hlow, hhigh, hexp'⟩ :=
    shift_normal (hfirst.trans (le_roundedMantissa _)) (hf.trans hexp)
  exact ⟨_, _, by omega, hlow, hhigh, (hf.trans hexp).trans hexp',
    roundWithAccuracy_of_shifts _ rfl rfl rfl⟩

/-- Packing keeps a normal number above zero, if only as infinity. -/
theorem isPositive_unpack_pack {m : Nat} {e : Int} (hm : 0 < m) (hlow : 2 ^ 52 ≤ m)
    (hhigh : m < 2 ^ 53) (he : -1074 ≤ e) :
    IsPositive (Float.Model.pack (.finite .positive m e hm)).unpack := by
  by_cases hmax : e ≤ 971
  · rw [(IsDouble.mk hhigh he hmax (.inl hlow)).unpack_pack]
    exact .inr ⟨m, e, hm, rfl⟩
  · have hover : 2 ^ 11 ≤ (e + 1023 + 52).toNat + 1 := by omega
    have hpack : (Float.Model.pack (.finite .positive m e hm)).unpack =
        UnpackedFloat.unpack .binary64 (packedInfinity .binary64 .positive) :=
      congrArg (UnpackedFloat.unpack .binary64) (if_pos hover)
    exact .inl hpack

theorem isPositive_ofIndex {n : Nat} (hn : 0 < n) : IsPositive (ofIndex n).toModel.unpack := by
  by_cases hlt : n < 2 ^ 53
  · -- the number is a double
    obtain ⟨m, e, hd, heq⟩ := exists_isDouble hlt.le
    have hm : 0 < m := by
      refine Nat.pos_of_ne_zero fun hzero => ?_
      rw [hzero, Nat.cast_zero, zero_mul] at heq
      exact hn.ne (by exact_mod_cast heq)
    have hround : RoundsTo (n * 10 ^ (0 : Int)) m e := by
      rw [zpow_zero, mul_one, ← heq]
      exact .self m e
    have hdouble : ofIndex n = double false m e := ofScientific_eq hd hm hround
    rw [hdouble, double_of_pos _ hm]
    show IsPositive (Float.Model.pack (.finite .positive m e hm)).unpack
    rw [hd.unpack_pack]
    exact .inr ⟨m, e, hm, rfl⟩
  · -- it is rounded, perhaps to infinity
    have hbits : 2 ^ 52 ≤ n <<< 53 * 10 ^ 0 := by
      rw [Nat.shiftLeft_eq]
      omega
    obtain ⟨m, e, hm, hlow, hhigh, he, hround⟩ := exists_round (f := -53 + 0) hbits (by norm_num)
    have hindex : ofIndex n = ⟨Float.Model.pack
        (roundWithAccuracy .binary64 .positive (n <<< 53 * 10 ^ 0) (-53 + 0) .exact)⟩ := by
      show Float.ofScientific n false 0 = _
      rw [Float.ofScientific, dif_neg fun h => hlt h.1]
      have hmin : ¬ (0 : Int) < -(2 ^ 11 + n.log2) := by omega
      have hscientific : UnpackedFloat.ofScientific .binary64 n 0 =
          roundWithAccuracy .binary64 .positive (n <<< 53 * 10 ^ 0) (-53 + 0) .exact := by
        rw [UnpackedFloat.ofScientific, dif_neg hn.ne', if_neg (by norm_num),
          if_neg hmin, if_pos le_rfl]
        rfl
      rw [← hscientific]
      rfl
    rw [hindex, hround]
    exact isPositive_unpack_pack hm hlow hhigh he

/-- The number of a position is above zero where the position is. -/
theorem ofIndex_pos_iff {n : Nat} : 0 < ofIndex n ↔ 0 < n := by
  constructor
  · intro hpos
    refine Nat.pos_of_ne_zero ?_
    rintro rfl
    exact absurd hpos (by decide)
  · intro hn
    have hpos := isPositive_ofIndex hn
    show decide ((0 : Float).toModel.unpack.lt (ofIndex n).toModel.unpack = true) = true
    generalize (ofIndex n).toModel.unpack = u at hpos
    rcases hpos with rfl | ⟨m, e, hm, rfl⟩
    · rfl
    · rfl

theorem ofIndex_ne_neg_one (n : Nat) : ofIndex n ≠ -1 := by
  rcases Nat.eq_zero_or_pos n with rfl | hn
  · decide
  · intro heq
    rcases isPositive_ofIndex hn with hinf | ⟨m, e, hm, hfinite⟩
    · rw [heq] at hinf
      cases hinf
    · rw [heq] at hfinite
      cases hfinite

/-! ### Infinities -/

theorem parts_of_compare_infinity {p : Parts} {negative : Bool}
    (h : p.unpack.compare (Parts.infinite negative).unpack = some .eq) :
    p = .infinite negative := by
  cases p with
  | nan => cases h
  | infinite sign =>
    cases sign <;> cases negative <;> first | rfl | cases h
  | finite sign m e =>
    by_cases hm : 0 < m
    · have hunpack : (Parts.finite sign m e).unpack = .finite _ m e hm := unpacked_of_pos _ e hm
      rw [hunpack] at h
      cases negative <;> cases sign <;> cases h
    · obtain rfl : m = 0 := by omega
      cases negative <;> cases h

theorem parts_of_beq_infinity {x : Float} (h : (x == infinity) = true) :
    parts x = .infinite false := by
  refine parts_of_compare_infinity (beq_iff_eq.mp ?_)
  rw [← unpack_eq]
  exact h

theorem parts_of_beq_negativeInfinity {x : Float} (h : (x == negativeInfinity) = true) :
    parts x = .infinite true := by
  refine parts_of_compare_infinity (beq_iff_eq.mp ?_)
  rw [← unpack_eq]
  exact h

end Scriptlet.Number
