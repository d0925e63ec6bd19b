import Mathlib
import Scriptlet.Proofs.Rounding

/-!
Doubles, their bits and the decimals near them.

`Number.parts` takes a finite double apart into a sign and the `m` and `e` of `IsDouble m e`
(`eq_double_of_parts`), and a decimal in the interval of a double is read as that double
(`ofScientific_eq`).
-/
namespace Scriptlet.Number

open Float.Model Float.Model.UnpackedFloat

/-! ### Bits -/

/-- The number `± m · 2 ^ e`, as arithmetic takes it. -/
def unpacked (sign : Sign) (m : Nat) (e : Int) : UnpackedFloat :=
  if hm : 0 < m then .finite sign m e hm else .zero sign

/-- The double `± m · 2 ^ e`. -/
def double (negative : Bool) (m : Nat) (e : Int) : Float :=
  ⟨Float.Model.pack (unpacked (if negative then .negative else .positive) m e)⟩

theorem unpacked_of_pos (sign : Sign) {m : Nat} (e : Int) (hm : 0 < m) :
    unpacked sign m e = .finite sign m e hm :=
  dif_pos hm

theorem append_one_toNat (b : BitVec 52) : (1#1 ++ b).toNat = b.toNat + 2 ^ 52 := by
  rw [BitVec.toNat_append, ← Nat.shiftLeft_add_eq_or_of_lt b.isLt, Nat.add_comm]
  rfl

/-- What is unpacked from bits whose exponent and fraction fields are these. -/
def ofFields (sign : Sign) (exponent fraction : Nat) : UnpackedFloat :=
  if exponent = 2047 then
    if fraction = 0 then .infinity sign else .notANumber
  else if exponent = 0 then unpacked sign fraction (-1074)
  else unpacked sign (fraction + 2 ^ 52) (exponent - 1075)

theorem unpack_eq_ofFields (b : BitVec Format.binary64.numBits) :
    UnpackedFloat.unpack .binary64 b =
      ofFields (.ofBitVec (unpackSign b)) (unpackExponent b).toNat (unpackMantissa b).toNat := by
  have htop : unpackExponent b = -1#11 ↔ (unpackExponent b).toNat = 2047 := BitVec.toNat_inj.symm
  have hlow : unpackExponent b = 0#11 ↔ (unpackExponent b).toNat = 0 := BitVec.toNat_inj.symm
  have hfraction : unpackMantissa b = 0#52 ↔ (unpackMantissa b).toNat = 0 := BitVec.toNat_inj.symm
  rw [UnpackedFloat.unpack, ofFields]
  by_cases he : unpackExponent b = -1#11
  · rw [if_pos he, if_pos (htop.mp he)]
    exact if_congr hfraction rfl rfl
  · rw [if_neg he, if_neg (mt htop.mpr he)]
    by_cases hzero : unpackExponent b = 0#11
    · rw [if_pos hzero, if_pos (hlow.mp hzero), unpacked]
      by_cases hf : unpackMantissa b = 0#52
      · rw [dif_pos hf, dif_neg (Nat.not_lt.mpr (hfraction.mp hf).le)]
      · rw [dif_neg hf, dif_pos (Nat.pos_of_ne_zero (mt hfraction.mpr hf)), hlow.mp hzero]
        rfl
    · rw [if_neg hzero, if_neg (mt hlow.mpr hzero), unpacked_of_pos _ _ (by positivity)]
      congr 1
      exact append_one_toNat _

section

variable {m : Nat} {e : Int}

/-- Packing a double loses nothing. -/
theorem IsDouble.unpack_pack (hd : IsDouble m e) (hm : 0 < m) (s : Sign) :
    (Float.Model.pack (.finite s m e hm)).unpack = .finite s m e hm := by
  have hmin := hd.minExponent_le
  have hmax := hd.le_maxExponent
  have hlt := hd.lt
  obtain ⟨b, hb⟩ : ∃ b, b = (e + 1023 + 52).toNat := ⟨_, rfl⟩
  have hpack : (Float.Model.pack (.finite s m e hm)).unpack =
      UnpackedFloat.unpack .binary64 (if 2 ^ 11 ≤ b + 1 then packedInfinity .binary64 s
        else if m.log2 + 1 = 53 then packComponents .binary64 s (.ofNat 11 b) (.ofNat 52 m)
        else packComponents .binary64 s 0#11 (.ofNat 52 m)) := by
    subst hb
    rfl
  rw [hpack, if_neg (by omega)]
  by_cases hlog : m.log2 + 1 = 53
  · have hle : 2 ^ 52 ≤ m := (Nat.le_log2 hm.ne').mp (by omega)
    have hexponent : (BitVec.ofNat 11 b).toNat = b := by
      rw [BitVec.toNat_ofNat]
      omega
    have hfraction : (BitVec.ofNat 52 m).toNat = m - 2 ^ 52 := by
      rw [BitVec.toNat_ofNat]
      omega
    rw [if_pos hlog, unpack_eq_ofFields, unpackSign_packComponents, unpackExponent_packComponents,
      unpackMantissa_packComponents, Sign.ofBitVec_toBitVec, hexponent, hfraction, ofFields,
      if_neg (by omega), if_neg (by omega), Nat.sub_add_cancel hle, ← unpacked_of_pos]
    congr 1
    omega
  · have hlt' : m < 2 ^ 52 := by
      have : m.log2 < 53 := (Nat.log2_lt hm.ne').mpr hlt
      exact (Nat.log2_lt hm.ne').mp (by omega)
    have he : e = -1074 := hd.normal.resolve_left (by omega)
    have hfraction : (BitVec.ofNat 52 m).toNat = m := by
      rw [BitVec.toNat_ofNat]
      omega
    rw [if_neg hlog, unpack_eq_ofFields, unpackSign_packComponents, unpackExponent_packComponents,
      unpackMantissa_packComponents, Sign.ofBitVec_toBitVec, hfraction, ofFields, he,
      ← unpacked_of_pos]
    rfl

theorem neg_double (hd : IsDouble m e) : -double false m e = double true m e := by
  have hneg : -double false m e =
      ⟨Float.Model.pack (Float.Model.pack (unpacked .positive m e)).unpack.neg⟩ := rfl
  rw [hneg]
  by_cases hm : 0 < m
  · rw [unpacked_of_pos _ _ hm, hd.unpack_pack, double, unpacked_of_pos _ _ hm]
    rfl
  · have hzero : ∀ s, unpacked s m e = .zero s := fun s => dif_neg hm
    rw [hzero, double, hzero]
    decide

theorem pow2_eq (n : Nat) : pow2 n = 2 ^ n := by
  rw [pow2, Nat.shiftLeft_eq, one_mul]

theorem pack_unpack_toModel (x : Float) : (⟨Float.Model.pack x.toModel.unpack⟩ : Float) = x :=
  Float.toBits_inj.mp (congrArg UInt64.ofBitVec (pack_unpack_of_valid x.toModel.valid))

/-- The parts of a double are the fields that arithmetic unpacks. -/
theorem parts_eq (x : Float) :
    ∃ negative exponent fraction, exponent < 2 ^ 11 ∧ fraction < 2 ^ 52 ∧
      x.toModel.unpack = ofFields (if negative then .negative else .positive) exponent fraction ∧
      parts x = if exponent = 2047 then if fraction = 0 then .infinite negative else .nan
        else if exponent = 0 then .finite negative fraction (-1074)
        else .finite negative (fraction + 2 ^ 52) (exponent - 1075) := by
  obtain ⟨b, hb⟩ : ∃ b : BitVec Format.binary64.numBits, b = x.toBits.toBitVec := ⟨_, rfl⟩
  have hsign : Sign.ofBitVec (unpackSign b) =
      if b.toNat / 2 ^ 63 == 1 then .negative else .positive := by
    have hbit : (unpackSign b).toNat = b.toNat / 2 ^ 63 := by
      have hlt : b.toNat < 2 ^ 64 := b.isLt
      have hdiv : b.toNat / 2 ^ 63 < 2 ^ 1 := by omega
      rw [unpackSign_def, BitVec.extractLsb'_toNat, Nat.shiftRight_eq_div_pow]
      exact Nat.mod_eq_of_lt hdiv
    rw [← hbit]
    rcases BitVec.eq_zero_or_eq_one (unpackSign b) with hzero | hone
    · rw [hzero]
      rfl
    · rw [hone]
      rfl
  refine ⟨b.toNat / 2 ^ 63 == 1, (unpackExponent b).toNat, (unpackMantissa b).toNat,
    BitVec.isLt _, BitVec.isLt _, ?_, ?_⟩
  · rw [← hsign, ← unpack_eq_ofFields, hb]
    rfl
  · have hbits : x.toBits.toNat = b.toNat := by rw [hb]; rfl
    rw [unpackExponent_def, unpackMantissa_def, BitVec.extractLsb'_toNat, BitVec.extractLsb'_toNat,
      Nat.shiftRight_eq_div_pow, Nat.shiftRight_zero, parts, hbits, pow2_eq, pow2_eq, pow2_eq]
    rfl

/-- A finite number is the double of its parts. -/
theorem eq_double_of_parts {x : Float} {negative : Bool} (h : parts x = .finite negative m e) :
    IsDouble m e ∧ x = double negative m e := by
  obtain ⟨negative', exponent, fraction, hexponent, hfraction, hunpack, hparts⟩ := parts_eq x
  rw [h] at hparts
  by_cases htop : exponent = 2047
  · rw [if_pos htop] at hparts
    split at hparts <;> cases hparts
  · rw [if_neg htop] at hparts
    rw [ofFields, if_neg htop] at hunpack
    by_cases hzero : exponent = 0
    · rw [if_pos hzero] at hparts hunpack
      cases hparts
      refine ⟨⟨by omega, by omega, by omega, .inr rfl⟩, ?_⟩
      rw [double, ← hunpack, pack_unpack_toModel]
    · rw [if_neg hzero] at hparts hunpack
      cases hparts
      refine ⟨⟨by omega, by omega, by omega, .inl (by omega)⟩, ?_⟩
      rw [double, ← hunpack, pack_unpack_toModel]

end

/-! ### Decimals -/

/-- A double above zero, with its value, whose mantissa is as long as that of any. -/
def StandsFor (x : Float) (v : ℚ) : Prop :=
  ∃ m e hm, x.toModel.unpack = .finite .positive m e hm ∧ 2 ^ 52 ≤ m ∧ (m : ℚ) * 2 ^ e = v

theorem double_of_pos {m : Nat} (e : Int) (hm : 0 < m) :
    double false m e = ⟨Float.Model.pack (.finite .positive m e hm)⟩ := by
  rw [double, unpacked_of_pos _ _ hm]
  rfl

section

variable {x y : Float} {v w : ℚ} {m : Nat} {e : Int}

theorem StandsFor.mul_eq (hx : StandsFor x v) (hy : StandsFor y w) (hd : IsDouble m e) (hm : 0 < m)
    (hround : RoundsTo (v * w) m e) : x * y = double false m e := by
  obtain ⟨m₁, e₁, hm₁, hx, hbits, rfl⟩ := hx
  obtain ⟨m₂, e₂, hm₂, hy, -, rfl⟩ := hy
  have hbits' : 2 ^ 52 ≤ m₁ * m₂ := hbits.trans (Nat.le_mul_of_pos_right _ hm₂)
  have hmul : x * y = ⟨Float.Model.pack (.mul .binary64 x.toModel.unpack y.toModel.unpack)⟩ := rfl
  rw [hmul, hx, hy, Number.mul_eq hd hm hbits' hround, double_of_pos]
  rfl

theorem StandsFor.div_eq (hx : StandsFor x v) (hy : StandsFor y w) (hd : IsDouble m e) (hm : 0 < m)
    (hround : RoundsTo (v / w) m e) : x / y = double false m e := by
  obtain ⟨m₁, e₁, hm₁, hx, -, rfl⟩ := hx
  obtain ⟨m₂, e₂, hm₂, hy, -, rfl⟩ := hy
  have hdiv : x / y = ⟨Float.Model.pack (.div .binary64 x.toModel.unpack y.toModel.unpack)⟩ := rfl
  rw [hdiv, hx, hy, Number.div_eq hd hm hround, double_of_pos]
  rfl

theorem shiftLeft_mul_zpow (c k : Nat) : ((c <<< k : Nat) : ℚ) * 2 ^ (-k : Int) = c := by
  rw [Nat.shiftLeft_eq, zpow_neg, zpow_natCast, Nat.cast_mul, Nat.cast_pow]
  exact mul_inv_cancel_right₀ (by positivity) _

/-- A natural is shifted up to the full length of a mantissa before it is rounded. -/
theorem ofNat_eq {c k : Nat} (hc : 0 < c) (hk : (0 - targetExponent c 0).toNat = k) :
    UnpackedFloat.ofNat .binary64 c =
      roundWithAccuracy .binary64 .positive (c <<< k) (0 - k) .exact := by
  have hgt : compare (c : Int) 0 = .gt := compare_gt_iff_gt.mpr (by omega)
  subst hk
  rw [UnpackedFloat.ofNat, UnpackedFloat.ofInt, UnpackedFloat.normalize, hgt]
  dsimp only
  rw [Int.toNat_natCast, UnpackedFloat.round]
  rfl

/-- A natural that is shifted up to the full length of a mantissa. -/
theorem isDouble_shiftLeft {c k : Nat} (hc : 0 < c) (hk : c.log2 + k = 52) :
    2 ^ 52 ≤ c <<< k ∧ IsDouble (c <<< k) (0 - k) := by
  have hle : 2 ^ 52 ≤ c <<< k := by
    rw [Nat.shiftLeft_eq]
    calc 2 ^ 52 = 2 ^ c.log2 * 2 ^ k := by rw [← pow_add, hk]
      _ ≤ c * 2 ^ k := Nat.mul_le_mul_right _ (Nat.log2_self_le hc.ne')
  have hlt : c <<< k < 2 ^ 53 := by
    rw [Nat.shiftLeft_eq]
    calc c * 2 ^ k < 2 ^ (c.log2 + 1) * 2 ^ k :=
          Nat.mul_lt_mul_of_pos_right Nat.lt_log2_self (by positivity)
      _ = 2 ^ 53 := by rw [← pow_add]; congr 1; omega
  exact ⟨hle, hlt, by omega, by omega, .inl hle⟩

/-- A natural that is not too large is a double. -/
theorem standsFor_toFloat {c : Nat} (hc : 0 < c) (hlt : c < 2 ^ 53) :
    StandsFor c.toUInt64.toFloat c := by
  have hlog : c.log2 < 53 := (Nat.log2_lt hc.ne').mpr hlt
  obtain ⟨k, hk⟩ : ∃ k, c.log2 + k = 52 := ⟨52 - c.log2, by omega⟩
  obtain ⟨hmantissa, hd⟩ := isDouble_shiftLeft hc hk
  have hpos : 0 < c <<< k := by omega
  have hround := roundWithAccuracy_eq (s := .positive) hd hpos (represents_exact _)
    (.inl hmantissa) (.self _ _)
  refine ⟨c <<< k, 0 - k, hpos, ?_, hmantissa, ?_⟩
  · have hnat : c.toUInt64.toNat = c := UInt64.toNat_ofNat_of_lt' (hlt.trans (by decide))
    have hshift : (0 - targetExponent c 0).toNat = k := by
      rw [targetExponent]
      omega
    have hunpack : c.toUInt64.toFloat.toModel.unpack =
      (Float.Model.pack (.ofNat .binary64 c.toUInt64.toNat)).unpack := rfl
    rw [hunpack, hnat, ofNat_eq hc hshift, hround, hd.unpack_pack]
  · rw [zero_sub, shiftLeft_mul_zpow]

/-- The entries of the table of powers of ten. -/
theorem powersOfTen_eq : ∀ k : Fin Float.exactlyRepresentablePowersOfTen.size,
    ∃ (m : Fin (2 ^ 53)) (e : Fin 74), 2 ^ 52 ≤ m.val ∧
      Float.exactlyRepresentablePowersOfTen[k] = double false m (e - 52) ∧
      m.val * 2 ^ e.val = 10 ^ k.val * 2 ^ 52 := by
  intro k
  refine ⟨⟨10 ^ k.val <<< 52 >>> (10 ^ k.val).log2, ?_⟩, ⟨(10 ^ k.val).log2, ?_⟩, ?_⟩ <;>
    revert k <;> decide +kernel

/-- The powers of ten in the table are exact. -/
theorem standsFor_powerOfTen {k : Nat} (hk : k < Float.exactlyRepresentablePowersOfTen.size) :
    StandsFor Float.exactlyRepresentablePowersOfTen[k] (10 ^ k) := by
  obtain ⟨m, e, hbits, heq, hvalue⟩ := powersOfTen_eq ⟨k, hk⟩
  have hd : IsDouble m (e - 52) := ⟨m.isLt, by omega, by omega, .inl hbits⟩
  have hm : 0 < m.val := by omega
  have hentry : Float.exactlyRepresentablePowersOfTen[k] = double false m (e - 52) := heq
  refine ⟨m, e - 52, hm, ?_, hbits, ?_⟩
  · rw [hentry, double_of_pos _ hm]
    exact hd.unpack_pack hm _
  · have hcast : (m.val : ℚ) * 2 ^ e.val = 10 ^ k * 2 ^ 52 := by exact_mod_cast hvalue
    rw [zpow_sub₀ two_ne_zero, ← mul_div_assoc, zpow_natCast, hcast]
    norm_num

theorem RoundsTo.pos (h : RoundsTo v m e) (hm : 0 < m) : 2 ^ (e - 1) ≤ v := by
  have hle : (1 : ℚ) ≤ m := by exact_mod_cast hm
  have hreach := reachBelow_le m e
  calc (2 : ℚ) ^ (e - 1) = 1 / 2 * 2 ^ e := by
        rw [zpow_sub_one₀ two_ne_zero]
        ring
    _ ≤ (m - reachBelow m e) * 2 ^ e :=
      mul_le_mul_of_nonneg_right (by linarith) (two_zpow_pos e).le
    _ ≤ v := h.low

theorem ten_zpow_neg_le (n : Nat) : (10 : ℚ) ^ (-n : Int) ≤ 2 ^ (-n : Int) := by
  rw [zpow_neg, zpow_neg, zpow_natCast, zpow_natCast]
  exact inv_anti₀ (by positivity) (pow_le_pow_left₀ (by norm_num) (by norm_num) n)

/-- A decimal in the interval of a double is within the bounds that are checked first. -/
theorem RoundsTo.exponent_bounds {c : Nat} {k : Int} (hd : IsDouble m e) (hm : 0 < m)
    (hround : RoundsTo (c * 10 ^ k) m e) : 0 < c ∧ k ≤ 2 ^ 11 ∧ -(2 ^ 11 + c.log2) ≤ k := by
  have hlow := hround.pos hm
  have hhigh := hround.lt_two_zpow hd
  have hone : (1 : ℚ) < 2 := by norm_num
  have hmin := hd.minExponent_le
  have hmax := hd.le_maxExponent
  have hc : 0 < c := by
    refine Nat.pos_of_ne_zero fun hzero => ?_
    rw [hzero, Nat.cast_zero, zero_mul] at hlow
    exact (two_zpow_pos _).not_ge hlow
  refine ⟨hc, ?_, ?_⟩
  · by_contra hk
    have hle : (2 : ℚ) ^ k ≤ c * 10 ^ k := by
      have hcast : (1 : ℚ) ≤ c := by exact_mod_cast hc
      have hten : (2 : ℚ) ^ k ≤ 10 ^ k := zpow_le_zpow_left₀ (by omega) (by norm_num) (by norm_num)
      exact hten.trans (le_mul_of_one_le_left (by positivity) hcast)
    have := (zpow_lt_zpow_iff_right₀ hone).mp (hle.trans_lt hhigh)
    omega
  · by_contra hk
    obtain ⟨n, rfl⟩ : ∃ n : Nat, k = -n := ⟨(-k).toNat, by omega⟩
    have hlt : (c : ℚ) * 10 ^ (-n : Int) < 2 ^ (c.log2 + 1 + -n : Int) := by
      have hcast : (c : ℚ) < 2 ^ (c.log2 + 1) := by exact_mod_cast Nat.lt_log2_self
      rw [zpow_add₀ two_ne_zero]
      exact mul_lt_mul hcast (ten_zpow_neg_le n) (by positivity) (by positivity)
    have := (zpow_lt_zpow_iff_right₀ hone).mp (hlow.trans_lt hlt)
    omega

/-- The double that the general way of reading a decimal finds. -/
theorem unpacked_ofScientific_eq {c : Nat} {k : Int} (hd : IsDouble m e) (hm : 0 < m)
    (hround : RoundsTo (c * 10 ^ k) m e) :
    UnpackedFloat.ofScientific .binary64 c k = .finite .positive m e hm := by
  obtain ⟨hc, hmax, hmin⟩ := hround.exponent_bounds hd hm
  rw [UnpackedFloat.ofScientific, dif_neg hc.ne', if_neg (Int.not_lt.mpr hmax),
    if_neg (Int.not_lt.mpr hmin)]
  by_cases hk : 0 ≤ k
  · rw [if_pos hk]
    obtain ⟨n, rfl⟩ := Int.eq_ofNat_of_zero_le hk
    refine mul_eq hd hm ?_ ?_
    · rw [Nat.shiftLeft_eq]
      calc 2 ^ 52 ≤ 1 * 2 ^ 53 * 1 := by norm_num
        _ ≤ c * 2 ^ 53 * 10 ^ (n : Int).toNat :=
          Nat.mul_le_mul (Nat.mul_le_mul_right _ hc) (Nat.one_le_pow _ _ (by norm_num))
    · rw [shiftLeft_mul_zpow, Int.toNat_natCast, zpow_zero, mul_one, Nat.cast_pow]
      rwa [zpow_natCast] at hround
  · rw [if_neg hk]
    obtain ⟨n, rfl⟩ : ∃ n : Nat, k = -n := ⟨(-k).toNat, by omega⟩
    refine div_eq hd hm ?_
    rw [neg_neg, Int.toNat_natCast, zpow_zero, mul_one, mul_one, Nat.cast_pow, div_eq_mul_inv]
    rwa [zpow_neg, zpow_natCast] at hround

/-- **A decimal in the interval of a double is read as that double.** -/
theorem ofScientific_eq {c : Nat} {k : Int} (hd : IsDouble m e) (hm : 0 < m)
    (hround : RoundsTo (c * 10 ^ k) m e) :
    Float.ofScientific c (k < 0) k.natAbs = double false m e := by
  have hc := (hround.exponent_bounds hd hm).1
  rw [Float.ofScientific]
  by_cases hfast : c < 2 ^ 53 ∧ k.natAbs ≤ 22
  · -- both numbers are doubles, and there is one rounding
    rw [dif_pos hfast]
    have hx := standsFor_toFloat hc hfast.1
    have hy := standsFor_powerOfTen (k := k.natAbs) (Nat.lt_succ_of_le hfast.2)
    by_cases hk : k < 0
    · rw [if_pos (decide_eq_true hk)]
      obtain ⟨n, rfl⟩ : ∃ n : Nat, k = -n := ⟨(-k).toNat, by omega⟩
      refine hx.div_eq hy hd hm ?_
      rw [Int.natAbs_neg, Int.natAbs_natCast, div_eq_mul_inv]
      rwa [zpow_neg, zpow_natCast] at hround
    · rw [if_neg (mt of_decide_eq_true hk)]
      obtain ⟨n, rfl⟩ := Int.eq_ofNat_of_zero_le (Int.not_lt.mp hk)
      refine hx.mul_eq hy hd hm ?_
      rwa [zpow_natCast] at hround
  · rw [dif_neg hfast]
    have hexponent : (if decide (k < 0) = true then Int.negOfNat k.natAbs else Int.ofNat k.natAbs) =
        k := by
      by_cases hk : k < 0
      · rw [if_pos (decide_eq_true hk), Int.negOfNat_eq, Int.ofNat_eq_natCast]
        omega
      · rw [if_neg (mt of_decide_eq_true hk), Int.ofNat_eq_natCast]
        omega
    rw [hexponent, double_of_pos _ hm, ← unpacked_ofScientific_eq hd hm hround]
    rfl

end

end Scriptlet.Number
