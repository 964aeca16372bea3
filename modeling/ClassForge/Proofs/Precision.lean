import ClassForge.Numeric.Precision
import Mathlib

namespace ClassForge

open Float.Model (Format UnpackedFloat)
open Float.Model.UnpackedFloat

variable {width : Nat} {bits : UInt32}
variable {format : Format} {sign : Sign} {mantissa : Nat} {exponent : Int}

section Patterns

theorem exponentBias_add (format : Format) : 2 ^ format.exponentBits = 2 * format.exponentBias + 2 := by
  have some := Nat.one_le_two_pow (n := format.exponentBits - 1)
  have twice : format.exponentBits = format.exponentBits - 1 + 1 := by
    have := format.he
    omega
  rw [twice, Nat.pow_succ, Format.exponentBias]
  omega

theorem minExponent_eq (format : Format) : format.minExponent =
    1 - (format.exponentBias : Int) - format.mantissaBitsWithoutImplicit := by
  have some := Nat.one_le_two_pow (n := format.exponentBits - 1)
  rw [Format.minExponent, Format.exponentBias, Format.mantissaBits, Nat.cast_sub some]
  push_cast
  ring

theorem zero_ne_neg_one (format : Format) : (BitVec.ofNat format.exponentBits 0) ≠ -1#_ := by
  intro same
  have values := congrArg BitVec.toNat same
  rw [BitVec.neg_one_eq_allOnes, BitVec.toNat_allOnes, BitVec.toNat_zero] at values
  have := exponentBias_add format
  omega

theorem toNat_implicit (bits : BitVec width) : (1#1 ++ bits).toNat = 2 ^ width + bits.toNat := by
  rw [BitVec.toNat_append, ← Nat.shiftLeft_add_eq_or_of_lt bits.isLt]
  simp [Nat.shiftLeft_eq]

theorem ofBitVec_toBitVec (sign : Sign) : Sign.ofBitVec sign.toBitVec = sign := by
  cases sign <;> rfl

theorem toBitVec_ofBitVec (bit : BitVec 1) : (Sign.ofBitVec bit).toBitVec = bit := by
  rcases BitVec.eq_zero_or_eq_one bit with rfl | rfl <;> rfl

theorem unpackSign_packComponents {exponent : BitVec format.exponentBits}
    {mantissa : BitVec format.mantissaBitsWithoutImplicit} :
    unpackSign (packComponents format sign exponent mantissa) = sign.toBitVec := by
  apply BitVec.eq_of_getLsbD_eq
  intro i inside
  have first : i = 0 := by omega
  subst first
  simp only [unpackSign, packComponents, BitVec.extractLsb]
  grind

theorem packComponents_unpack (bits : BitVec format.numBits) :
    packComponents format (Sign.ofBitVec (unpackSign bits)) (unpackExponent bits)
      (unpackMantissa bits) = bits := by
  simp only [packComponents, toBitVec_ofBitVec, unpackSign, unpackExponent, unpackMantissa,
    BitVec.extractLsb]
  ext i inside
  grind

theorem unpack_packedZero (format : Format) (sign : Sign) :
    unpack format (packedZero format sign) = .zero sign := by
  simp only [unpack, packedZero, unpackMantissa_packComponents, unpackExponent_packComponents,
    unpackSign_packComponents, ofBitVec_toBitVec, BitVec.ofNat_eq_ofNat, zero_ne_neg_one, if_false,
    if_true, dite_true]

end Patterns

/-- The mantissa and the exponent with which the format holds a number: all bits of the mantissa are
used, unless the exponent is the smallest one. -/
structure Canonical (format : Format) (mantissa : Nat) (exponent : Int) : Prop where
  positive : 0 < mantissa
  bounded : mantissa < 2 ^ (format.mantissaBitsWithoutImplicit + 1)
  full : 2 ^ format.mantissaBitsWithoutImplicit ≤ mantissa ∨ exponent = format.minExponent
  least : format.minExponent ≤ exponent
  largest : exponent ≤ format.exponentBias - format.mantissaBitsWithoutImplicit

theorem exponent_lt {bits : BitVec format.exponentBits} (some : bits ≠ -1#_) :
    bits.toNat ≤ 2 * format.exponentBias := by
  have inside := bits.isLt
  have last : bits.toNat ≠ 2 ^ format.exponentBits - 1 := by
    intro same
    apply some
    apply BitVec.eq_of_toNat_eq
    rw [same, BitVec.neg_one_eq_allOnes, BitVec.toNat_allOnes]
  have := exponentBias_add format
  omega

theorem mantissaBits_eq (format : Format) :
    format.mantissaBits = format.mantissaBitsWithoutImplicit + 1 := by
  rw [Format.mantissaBits]
  omega

theorem log2_eq_of_full (bounded : mantissa < 2 ^ (format.mantissaBitsWithoutImplicit + 1))
    (full : 2 ^ format.mantissaBitsWithoutImplicit ≤ mantissa) :
    mantissa.log2 = format.mantissaBitsWithoutImplicit := by
  have some : mantissa ≠ 0 := by
    have := Nat.two_pow_pos format.mantissaBitsWithoutImplicit
    omega
  exact (Nat.log2_eq_iff some).mpr ⟨full, bounded⟩

theorem canonical_unpack (wide : 1 ≤ format.exponentBias) {bits : BitVec format.numBits}
    {positive : 0 < mantissa} (found : unpack format bits = .finite sign mantissa exponent positive) :
    Canonical format mantissa exponent := by
  have least := minExponent_eq format
  have small := (unpackMantissa bits).isLt
  have twice := Nat.pow_succ (n := 2) (m := format.mantissaBitsWithoutImplicit)
  rw [unpack] at found
  split at found
  · split at found <;> cases found
  · next finite =>
    have range := exponent_lt finite
    split at found
    · next zero =>
      split at found
      · cases found
      · cases found
        have none : (unpackExponent bits).toNat = 0 := by rw [zero, BitVec.toNat_zero]
        exact ⟨positive, by omega, .inr (by omega), by omega, by omega⟩
    · next some =>
      have above : (unpackExponent bits).toNat ≠ 0 := fun none =>
        some (BitVec.eq_of_toNat_eq (by rw [none, BitVec.toNat_zero]))
      cases found
      have value := toNat_implicit (unpackMantissa bits)
      exact ⟨positive, by omega, .inl (by omega), by omega, by omega⟩

theorem ofNat_mod_of_toNat {bits : BitVec width} {n : Nat} (same : n % 2 ^ width = bits.toNat) :
    BitVec.ofNat width n = bits :=
  BitVec.eq_of_toNat_eq (by rw [BitVec.toNat_ofNat, same])

theorem pack_finite (canonical : Canonical format mantissa exponent) (positive : 0 < mantissa) :
    pack format (.finite sign mantissa exponent positive) = packComponents format sign
      (BitVec.ofNat _ (if 2 ^ format.mantissaBitsWithoutImplicit ≤ mantissa then
        (exponent + format.exponentBias + format.mantissaBitsWithoutImplicit).toNat else 0))
      (BitVec.ofNat _ mantissa) := by
  have largest := canonical.largest
  have capacity := exponentBias_add format
  have fits : ¬2 ^ format.exponentBits ≤
      (exponent + format.exponentBias + format.mantissaBitsWithoutImplicit).toNat + 1 := by
    omega
  simp only [pack]
  rw [if_neg fits]
  by_cases full : 2 ^ format.mantissaBitsWithoutImplicit ≤ mantissa
  · rw [if_pos full, if_pos]
    rw [log2_eq_of_full canonical.bounded full, mantissaBits_eq]
  · rw [if_neg full, if_neg]
    rw [mantissaBits_eq]
    intro same
    exact full ((Nat.le_log2 positive.ne').mp (by omega))

theorem pack_unpack (wide : 1 ≤ format.exponentBias) {bits : BitVec format.numBits}
    (finite : (unpack format bits).isFinite = true) : pack format (unpack format bits) = bits := by
  have whole := packComponents_unpack bits
  cases found : unpack format bits with
  | notANumber | infinity _ =>
    rw [found] at finite
    cases finite
  | zero sign =>
    rw [unpack] at found
    split at found
    · split at found <;> cases found
    · split at found
      · next zero =>
        split at found
        · next none =>
          cases found
          rw [zero, none] at whole
          exact whole
        · cases found
      · cases found
  | finite sign mantissa exponent positive =>
    have canonical := canonical_unpack wide found
    rw [pack_finite canonical]
    rw [unpack] at found
    have small := (unpackMantissa bits).isLt
    split at found
    · split at found <;> cases found
    · split at found
      · next zero =>
        split at found
        · cases found
        · cases found
          rw [if_neg (by omega), BitVec.ofNat_toNat, BitVec.setWidth_eq, ← zero]
          exact whole
      · cases found
        have value := toNat_implicit (unpackMantissa bits)
        rw [if_pos (by omega)]
        convert whole using 2
        · apply ofNat_mod_of_toNat
          have inside := (unpackExponent bits).isLt
          rw [Nat.mod_eq_of_lt (by omega)]
          omega
        · apply ofNat_mod_of_toNat
          rw [value, Nat.add_mod_left, Nat.mod_eq_of_lt small]

theorem unpack_pack (canonical : Canonical format mantissa exponent) (positive : 0 < mantissa) :
    unpack format (pack format (.finite sign mantissa exponent positive)) =
      .finite sign mantissa exponent positive := by
  rw [pack_finite canonical]
  obtain ⟨-, bounded, full, least, largest⟩ := canonical
  have capacity := exponentBias_add format
  have smallest := minExponent_eq format
  have twice := Nat.pow_succ (n := 2) (m := format.mantissaBitsWithoutImplicit)
  simp only [unpack, unpackMantissa_packComponents, unpackExponent_packComponents,
    unpackSign_packComponents, ofBitVec_toBitVec]
  by_cases all : 2 ^ format.mantissaBitsWithoutImplicit ≤ mantissa
  · rw [if_pos all]
    generalize held : (exponent + format.exponentBias + format.mantissaBitsWithoutImplicit).toNat = n
    have value : (BitVec.ofNat format.exponentBits n).toNat = n := by
      rw [BitVec.toNat_ofNat, Nat.mod_eq_of_lt (by omega)]
    have some : BitVec.ofNat format.exponentBits n ≠ 0#_ := by
      intro same
      rw [same, BitVec.toNat_zero] at value
      omega
    have finite : BitVec.ofNat format.exponentBits n ≠ -1#_ := by
      intro same
      rw [same, BitVec.neg_one_eq_allOnes, BitVec.toNat_allOnes] at value
      omega
    have digits : (1#1 ++ BitVec.ofNat format.mantissaBitsWithoutImplicit mantissa).toNat =
        mantissa := by
      rw [toNat_implicit, BitVec.toNat_ofNat, Nat.mod_eq_sub_mod all, Nat.mod_eq_of_lt (by omega)]
      omega
    rw [if_neg finite, if_neg some]
    simp only [digits, value]
    congr 1
    omega
  · have digits : (BitVec.ofNat format.mantissaBitsWithoutImplicit mantissa).toNat = mantissa := by
      rw [BitVec.toNat_ofNat, Nat.mod_eq_of_lt (by omega)]
    have some : BitVec.ofNat format.mantissaBitsWithoutImplicit mantissa ≠ 0#_ := by
      intro same
      rw [same, BitVec.toNat_zero] at digits
      omega
    rw [if_neg all, if_neg (zero_ne_neg_one format), if_pos rfl, dif_neg some]
    simp only [digits, BitVec.toNat_zero]
    congr 1
    omega

section Rounding

theorem log2_scaled (positive : 0 < mantissa) (k : Nat) :
    (mantissa * 2 ^ k).log2 = mantissa.log2 + k := by
  induction k with
  | zero => rw [Nat.pow_zero, Nat.mul_one, Nat.add_zero]
  | succ k ih =>
    have some : mantissa * 2 ^ k ≠ 0 := (Nat.mul_pos positive (Nat.two_pow_pos k)).ne'
    rw [Nat.pow_succ, ← Nat.mul_assoc, Nat.mul_comm _ 2, Nat.log2_two_mul some, ih, Nat.add_assoc]

theorem shiftRight_scaled (mantissa k : Nat) :
    (⟨mantissa * 2 ^ k, false, false⟩ : ExtendedMantissa) >>> k = ⟨mantissa, false, false⟩ := by
  change Nat.repeat ExtendedMantissa.shiftRightOne k _ = _
  induction k generalizing mantissa with
  | zero => simp [Nat.repeat]
  | succ k ih =>
    have regroup : mantissa * 2 ^ (k + 1) = mantissa * 2 * 2 ^ k := by
      rw [Nat.pow_succ]
      ring
    rw [regroup, Nat.repeat, ih]
    simp [ExtendedMantissa.shiftRightOne]

section

variable (canonical : Canonical format mantissa exponent)

include canonical

theorem Canonical.target (k : Nat) :
    format.targetExponent (Float.Model.totalExponent (mantissa * 2 ^ k) (exponent - k)) =
      exponent := by
  obtain ⟨positive, bounded, full, least, largest⟩ := canonical
  have upper : mantissa.log2 < format.mantissaBitsWithoutImplicit + 1 :=
    (Nat.log2_lt positive.ne').mpr bounded
  rw [Format.targetExponent, Float.Model.totalExponent, log2_scaled positive, mantissaBits_eq]
  rcases full with full | least
  · rw [log2_eq_of_full bounded full]
    push_cast
    omega
  · push_cast
    omega

theorem Canonical.roundWithAccuracy_eq (k : Nat) :
    roundWithAccuracy format sign (mantissa * 2 ^ k) (exponent - k) .exact =
      .finite sign mantissa exponent canonical.positive := by
  have again := canonical.target 0
  rw [Nat.pow_zero, Nat.mul_one, Nat.cast_zero, Int.sub_zero] at again
  have shift : (exponent - (exponent - (k : Int))).toNat = k := by omega
  have back : exponent - (k : Int) + (k : Int) = exponent := by omega
  have none := shiftRight_scaled mantissa 0
  rw [Nat.pow_zero, Nat.mul_one] at none
  simp only [roundWithAccuracy, shiftToTargetExponent, shiftToExponent, canonical.target k, shift,
    ExtendedMantissa.ofMantissaAndAccuracy, shiftRight_scaled, ExtendedMantissa.roundedMantissa,
    ExtendedMantissa.accuracy, Accuracy.roundToNearestEven, back, again, Int.sub_self,
    Int.toNat_zero, none, canonical.positive.ne', dite_false, Int.add_zero, Nat.cast_zero]

theorem Canonical.round_scaled (k : Nat) :
    UnpackedFloat.round format sign (mantissa * 2 ^ k) (exponent - k) =
      .finite sign mantissa exponent canonical.positive := by
  have none : (exponent - (k : Int) - exponent).toNat = 0 := by omega
  simp only [UnpackedFloat.round, decreaseExponent, canonical.target k, none, Nat.shiftLeft_zero,
    Nat.cast_zero, Int.sub_zero, canonical.roundWithAccuracy_eq k]

end

theorem Canonical.round_unscaled {k : Nat} (positive : 0 < mantissa)
    (canonical : Canonical format (mantissa * 2 ^ k) (exponent - k)) :
    UnpackedFloat.round format sign mantissa exponent =
      .finite sign (mantissa * 2 ^ k) (exponent - k) canonical.positive := by
  have target : format.targetExponent (Float.Model.totalExponent mantissa exponent) =
      exponent - k := by
    have same := canonical.target 0
    rw [Nat.pow_zero, Nat.mul_one, Nat.cast_zero, Int.sub_zero, Float.Model.totalExponent,
      log2_scaled positive] at same
    rw [← same, Float.Model.totalExponent]
    congr 1
    push_cast
    omega
  have shift : (exponent - (exponent - (k : Int))).toNat = k := by omega
  have exact : roundWithAccuracy format sign _ _ _ = _ := canonical.roundWithAccuracy_eq 0
  rw [Nat.pow_zero, Nat.mul_one, Nat.cast_zero, Int.sub_zero] at exact
  simp only [UnpackedFloat.round, decreaseExponent, target, shift, Nat.shiftLeft_eq, exact]

end Rounding

theorem Canonical.widen (canonical : Canonical .binary32 mantissa exponent) :
    Canonical .binary64 (mantissa * 2 ^ (52 - mantissa.log2))
      (exponent - (52 - mantissa.log2 : Nat)) := by
  obtain ⟨positive, bounded, full, least, largest⟩ := canonical
  have short : mantissa.log2 < 24 := (Nat.log2_lt positive.ne').mpr bounded
  have range := (Nat.log2_eq_iff positive.ne').mp rfl
  have lower : 2 ^ 52 ≤ mantissa * 2 ^ (52 - mantissa.log2) := by
    calc 2 ^ 52 = 2 ^ mantissa.log2 * 2 ^ (52 - mantissa.log2) := by
          rw [← Nat.pow_add]
          congr 1
          omega
      _ ≤ _ := Nat.mul_le_mul_right _ range.1
  have upper : mantissa * 2 ^ (52 - mantissa.log2) < 2 ^ 53 := by
    calc mantissa * 2 ^ (52 - mantissa.log2)
        < 2 ^ (mantissa.log2 + 1) * 2 ^ (52 - mantissa.log2) :=
          Nat.mul_lt_mul_of_pos_right range.2 (Nat.two_pow_pos _)
      _ = 2 ^ 53 := by
          rw [← Nat.pow_add]
          congr 1
          omega
  have small : Format.binary32.minExponent = -149 := rfl
  have small' : Format.binary64.minExponent = -1074 := rfl
  have large : (Format.binary32.exponentBias : Int) = 127 := rfl
  have large' : (Format.binary64.exponentBias : Int) = 1023 := rfl
  rw [small] at least
  rw [large] at largest
  refine ⟨by omega, upper, .inl lower, ?_, ?_⟩
  · rw [small']
    omega
  · rw [large']
    push_cast at *
    omega

section

variable (finite : (unpack .binary32 bits.toBitVec).isFinite = true)

include finite

theorem unpack_widen :
    unpack .binary64 (widen bits).toBitVec = nearest .binary64 (unpack .binary32 bits.toBitVec) :=
      by
  unfold widen
  cases found : unpack .binary32 bits.toBitVec with
  | notANumber | infinity _ =>
    rw [found] at finite
    cases finite
  | zero sign => exact unpack_packedZero .binary64 sign
  | finite sign mantissa exponent positive =>
    have double := (canonical_unpack (by decide) found).widen
    simp only [nearest]
    rw [double.round_unscaled positive, unpack_pack double]

theorem isFinite_widen : (unpack .binary64 (widen bits).toBitVec).isFinite = true := by
  rw [unpack_widen finite]
  cases found : unpack .binary32 bits.toBitVec with
  | notANumber | infinity _ =>
    rw [found] at finite
    cases finite
  | zero sign => rfl
  | finite sign mantissa exponent positive =>
    simp only [nearest]
    rw [(canonical_unpack (by decide) found).widen.round_unscaled positive, isFinite]

/-- Widening a single-precision number loses nothing: narrowing gives back its bits. -/
theorem narrow_widen : narrow (widen bits) = bits := by
  have whole := pack_unpack (by decide) finite
  rw [narrow, unpack_widen finite]
  cases found : unpack .binary32 bits.toBitVec with
  | notANumber | infinity _ =>
    rw [found] at finite
    cases finite
  | zero sign =>
    rw [found] at whole
    simp only [nearest]
    rw [whole]
  | finite sign mantissa exponent positive =>
    have single := canonical_unpack (by decide) found
    rw [found] at whole
    simp only [nearest]
    rw [single.widen.round_unscaled positive]
    simp only
    rw [single.round_scaled, whole]

end

theorem toBits_ofBits {bits : UInt64} (finite : (unpack .binary64 bits.toBitVec).isFinite = true) :
    (Float.ofBits bits).toBits = bits := by
  have whole := pack_unpack (by decide) finite
  simp only [Float.ofBits, Float.toBits, Float.Model.ofBits, Float.Model.pack]
  rw [whole]

end ClassForge
