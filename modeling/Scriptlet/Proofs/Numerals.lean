import Scriptlet.Number.Layout
import Scriptlet.Proofs.Decimals
import Scriptlet.Token.Lexer

/-!
The text of a number is a numeral for it.

In the plain layout the digits stand in their places, so a number that is not below zero is written
as a numeral, and one below zero as a minus sign and a numeral. Read as a token, the numeral stands
for the decimal that was written (`readDigits?_writePositional`), and that decimal is in the interval
of the number, so the token is the number (`text_reads`).
-/
namespace Scriptlet.Number

/-- Digits, with an optional fraction. -/
def IsNumeral (cs : List Char) : Prop :=
  ∃ whole fraction : List Char, whole ≠ [] ∧ (∀ c ∈ whole, c.isDigit = true) ∧
    (∀ c ∈ fraction, c.isDigit = true) ∧
    (cs = whole ∨ fraction ≠ [] ∧ cs = whole ++ '.' :: fraction)

/-! ### Digits -/

theorem digitsValue_eq (cs : List Char) : digitsValue cs = Nat.ofDigitChars 10 cs 0 :=
  Nat.ofDigitChars_eq_foldl.symm

theorem digitsValue_toDigits (n : Nat) : digitsValue (Nat.toDigits 10 n) = n := by
  rw [digitsValue_eq, Nat.ofDigitChars_ten_toDigits]

theorem digitsValue_append_zeros (n k : Nat) :
    digitsValue (Nat.toDigits 10 n ++ zeros k) = n * 10 ^ k := by
  rw [digitsValue_eq, Nat.ofDigitChars_append, Nat.ofDigitChars_ten_toDigits, zeros,
    Nat.ofDigitChars_replicate_zero, Nat.mul_comm]

theorem digitsValue_zeros_append (n k : Nat) :
    digitsValue (zeros k ++ Nat.toDigits 10 n) = n := by
  rw [digitsValue_eq, Nat.ofDigitChars_append, zeros, Nat.ofDigitChars_replicate_zero, Nat.mul_zero,
    Nat.ofDigitChars_ten_toDigits]

theorem isDigit_of_mem_digits {n : Nat} : ∀ c ∈ Nat.toDigits 10 n, c.isDigit = true :=
  fun _ hc => Nat.isDigit_of_mem_toDigits (by norm_num) le_rfl hc

theorem isDigit_of_mem_zeros {k : Nat} : ∀ c ∈ zeros k, c.isDigit = true := by
  intro c hc
  rw [List.eq_of_mem_replicate hc]
  rfl

theorem takeDigits_append {ds : List Char} (hds : ∀ c ∈ ds, c.isDigit = true) (rest : List Char) :
    takeDigits (ds ++ rest) = (ds ++ (takeDigits rest).1, (takeDigits rest).2) := by
  rw [takeDigits, List.takeWhile_append_of_pos hds, List.dropWhile_append_of_pos hds]
  rfl

section

variable {whole fraction : List Char}

theorem takeDigits_whole (hwhole : ∀ c ∈ whole, c.isDigit = true) :
    takeDigits whole = (whole, []) := by
  have hnil : takeDigits [] = ([], []) := rfl
  have htake := takeDigits_append hwhole []
  rwa [hnil, List.append_nil] at htake

theorem takeDigits_point (hwhole : ∀ c ∈ whole, c.isDigit = true) (rest : List Char) :
    takeDigits (whole ++ '.' :: rest) = (whole, '.' :: rest) := by
  have hpoint : takeDigits ('.' :: rest) = ([], '.' :: rest) := rfl
  rw [takeDigits_append hwhole, hpoint, List.append_nil]

theorem readDigits?_whole (hne : whole ≠ []) (hwhole : ∀ c ∈ whole, c.isDigit = true) :
    readDigits? whole = some ⟨digitsValue whole, 0⟩ := by
  rw [readDigits?, takeDigits_whole hwhole]
  dsimp only
  rw [List.isEmpty_eq_false_iff.mpr hne, Bool.false_and, if_neg Bool.false_ne_true, readPower?,
    Option.map_some, decimalOf, List.append_nil]
  rfl

theorem readDigits?_fraction (hne : whole ≠ []) (hwhole : ∀ c ∈ whole, c.isDigit = true)
    (hfraction : ∀ c ∈ fraction, c.isDigit = true) :
    readDigits? (whole ++ '.' :: fraction) =
      some ⟨digitsValue (whole ++ fraction), -fraction.length⟩ := by
  have hread : readDigits? (whole ++ '.' :: fraction) =
      if whole.isEmpty && (takeDigits fraction).1.isEmpty then none
      else (readPower? (takeDigits fraction).2).map (decimalOf whole (takeDigits fraction).1) := by
    rw [readDigits?, takeDigits_point hwhole]
    rfl
  rw [hread, takeDigits_whole hfraction, List.isEmpty_eq_false_iff.mpr hne, Bool.false_and,
    if_neg Bool.false_ne_true, readPower?, Option.map_some, decimalOf, zero_sub]

/-- A numeral with a fraction stands for its digits, with the point moved. -/
theorem isNumeral_fraction (hne : whole ≠ []) (hne' : fraction ≠ [])
    (hwhole : ∀ c ∈ whole, c.isDigit = true) (hfraction : ∀ c ∈ fraction, c.isDigit = true)
    {n j : Nat} (hvalue : digitsValue (whole ++ fraction) = n) (hlength : fraction.length = j) :
    IsNumeral (whole ++ '.' :: fraction) ∧
      ∃ d, readDigits? (whole ++ '.' :: fraction) = some d ∧ d.value = n * 10 ^ (-j : Int) := by
  subst hvalue hlength
  exact ⟨⟨whole, fraction, hne, hwhole, hfraction, .inr ⟨hne', rfl⟩⟩, _,
    readDigits?_fraction hne hwhole hfraction, rfl⟩

end

/-- Digits in their places are a numeral, which stands for the number that is written. -/
theorem readDigits?_writePositional (n : Nat) (k : Int) :
    IsNumeral (writePositional false (Nat.toDigits 10 n) k) ∧
      ∃ d, readDigits? (writePositional false (Nat.toDigits 10 n) k) = some d ∧
        d.value = n * 10 ^ k := by
  have hdigits := isDigit_of_mem_digits (n := n)
  have hne : Nat.toDigits 10 n ≠ [] := Nat.toDigits_ne_nil
  rw [writePositional]
  by_cases hk : 0 ≤ k
  · -- a whole number
    obtain ⟨j, rfl⟩ := Int.eq_ofNat_of_zero_le hk
    have hwhole : ∀ c ∈ Nat.toDigits 10 n ++ zeros j, c.isDigit = true := by
      intro c hc
      exact (List.mem_append.mp hc).elim (hdigits c) (isDigit_of_mem_zeros c)
    have hne' : Nat.toDigits 10 n ++ zeros j ≠ [] := List.append_ne_nil_of_left_ne_nil hne _
    rw [if_pos hk, if_neg Bool.false_ne_true, List.append_nil, Int.toNat_natCast]
    refine ⟨⟨_, [], hne', hwhole, nofun, .inl rfl⟩, _, readDigits?_whole hne' hwhole, ?_⟩
    rw [Decimal.value, digitsValue_append_zeros, zpow_zero, mul_one, zpow_natCast, Nat.cast_mul,
      Nat.cast_pow]
    rfl
  · obtain ⟨j, rfl⟩ : ∃ j : Nat, k = -j := ⟨(-k).toNat, by omega⟩
    obtain ⟨ds, hds⟩ : ∃ ds, ds = Nat.toDigits 10 n := ⟨_, rfl⟩
    have hvalue : digitsValue ds = n := by rw [hds, digitsValue_toDigits]
    rw [if_neg hk, neg_neg, Int.toNat_natCast, ← hds]
    rw [← hds] at hdigits
    by_cases hj : j < ds.length
    · -- the point is between the digits
      rw [if_pos hj]
      refine isNumeral_fraction ?_ ?_ (fun c hc => hdigits c (List.mem_of_mem_take hc))
        (fun c hc => hdigits c (List.mem_of_mem_drop hc)) ?_ ?_
      · exact List.ne_nil_of_length_pos (by rw [List.length_take]; omega)
      · exact List.ne_nil_of_length_pos (by rw [List.length_drop]; omega)
      · rw [List.take_append_drop, hvalue]
      · rw [List.length_drop]
        omega
    · -- the point is before the digits, with zeros between
      have hfraction : ∀ c ∈ zeros (j - ds.length) ++ ds, c.isDigit = true := by
        intro c hc
        exact (List.mem_append.mp hc).elim (isDigit_of_mem_zeros c) (hdigits c)
      rw [if_neg hj]
      have hzero : ∀ c ∈ ['0'], c.isDigit = true := isDigit_of_mem_zeros (k := 1)
      refine isNumeral_fraction (List.cons_ne_nil '0' []) ?_ hzero hfraction ?_ ?_
      · rw [hds]
        exact List.append_ne_nil_of_right_ne_nil _ hne
      · have hzeros := digitsValue_zeros_append n (j - ds.length + 1)
        rwa [← hds] at hzeros
      · rw [List.length_append, zeros, List.length_replicate]
        omega

/-! ### Numbers -/

/-- The text of a double without its sign. -/
theorem numberOf_writeDecimal {m : Nat} {e : Int} (hd : IsDouble m e) :
    IsNumeral (writeDecimal .plain (.ofBinary .up m e)) ∧
      Token.numberOf (writeDecimal .plain (.ofBinary .up m e)) = double false m e := by
  have hwrite : ∀ d : Decimal,
      writeDecimal .plain d = writePositional false (Nat.toDigits 10 d.coefficient) d.exponent := by
    intro d
    have hplain : (decide (d.coefficient = 0) || Layout.plain.positional d.point) = true :=
      Bool.or_true _
    rw [writeDecimal, if_pos hplain]
    rfl
  obtain ⟨hnumeral, d, hread, hvalue⟩ := readDigits?_writePositional
    (Decimal.ofBinary .up m e).coefficient (Decimal.ofBinary .up m e).exponent
  rw [hwrite, Token.numberOf, hread]
  refine ⟨hnumeral, ?_⟩
  by_cases hm : 0 < m
  · have hround : RoundsTo d.value m e := hvalue ▸ Decimal.ofBinary_roundsTo .up hd hm
    exact Decimal.toFloat_eq hd hm hround
  · have hzero : Decimal.ofBinary .up m e = ⟨0, 0⟩ := if_pos (by omega)
    have hcoefficient : d.coefficient = 0 := by
      rw [hzero, Nat.cast_zero, zero_mul, Decimal.value] at hvalue
      have := (mul_eq_zero.mp hvalue).resolve_right (by positivity)
      exact_mod_cast this
    have hdouble : double false m e = 0 := by
      rw [double, unpacked, dif_neg hm]
      decide +kernel
    rw [hdouble, Option.map_some, Option.getD_some, Decimal.toFloat, if_pos hcoefficient]

/-- **The text of a finite number is a numeral for it**, or a minus sign and a numeral for its
opposite. -/
theorem text_reads {x : Float} (hx : isFinite x = true) :
    (IsNumeral (text x).toList ∧ Token.numberOf (text x).toList = x) ∨
      ∃ cs, (text x).toList = '-' :: cs ∧ IsNumeral cs ∧ -Token.numberOf cs = x := by
  obtain ⟨negative, m, e, hparts⟩ : ∃ negative m e, parts x = .finite negative m e := by
    rw [isFinite] at hx
    split at hx
    · exact ⟨_, _, _, ‹_›⟩
    · cases hx
  obtain ⟨hd, rfl⟩ := eq_double_of_parts hparts
  obtain ⟨hnumeral, hnumber⟩ := numberOf_writeDecimal hd
  rw [text, write, hparts]
  dsimp only
  rw [String.toList_ofList]
  cases negative with
  | false => exact .inl ⟨hnumeral, hnumber⟩
  | true => exact .inr ⟨_, rfl, hnumeral, by rw [← neg_double hd, ← hnumber]; rfl⟩

end Scriptlet.Number
