/- Which operations on finite doubles give a finite double.

A finite double stands for an exact number. The sum, the difference, the product and the quotient of
two of them are finite exactly if the exact result is below the bound of rounding. -/
import NormalOrder.Decimal.Reading
import NormalOrder.Proofs.Number.Rounding

namespace NormalOrder.Number

open Float.Model Float.Model.UnpackedFloat

/-- The number that a double stands for; zero for those that are no numbers. -/
def unpackedValue : UnpackedFloat → ℚ
  | .finite s m e _ => s.apply m * 2 ^ e
  | _ => 0

def exact (x : Float) : ℚ :=
  unpackedValue x.toModel.unpack

/-- The shapes of a finite double. -/
inductive Canonical : UnpackedFloat → Prop
  | zero (s : Sign) : Canonical (.zero s)
  | finite (s : Sign) {m : Nat} {e : Int} (h : 0 < m) (hm : m < 2 ^ 53) (hleast : -1074 ≤ e)
    (hgreatest : e ≤ 971) (hnormal : 52 ≤ m.log2 ∨ e = -1074) : Canonical (.finite s m e h)

theorem canonical_unpack {b : BitVec Format.binary64.numBits}
    (h : (UnpackedFloat.unpack Format.binary64 b).isFinite) :
    Canonical (UnpackedFloat.unpack Format.binary64 b) := by
  have hexponent := (isFinite_unpack_iff b).mp h
  have hgreatest : (unpackExponent b).toNat < 2047 := by
    have hlt : (unpackExponent b).toNat < 2048 := (unpackExponent b).isLt
    have hne : (unpackExponent b).toNat ≠ 2047 := fun e => hexponent (BitVec.eq_of_toNat_eq e)
    omega
  have hmantissa : (unpackMantissa b).toNat < 2 ^ 52 := (unpackMantissa b).isLt
  have hbias : (Format.binary64.exponentBias + Format.binary64.mantissaBitsWithoutImplicit : Int) =
      1075 := rfl
  delta UnpackedFloat.unpack
  dsimp only
  rw [if_neg hexponent, hbias]
  by_cases hzero : unpackExponent b = 0#_
  · rw [if_pos hzero]
    by_cases hempty : unpackMantissa b = 0#_
    · rw [dif_pos hempty]
      exact .zero _
    · rw [dif_neg hempty]
      have hleast : ((unpackExponent b).toNat : Int) = 0 := by rw [hzero]; rfl
      rw [hleast]
      exact .finite _ _ (by omega) (by omega) (by omega) (.inr (by omega))
  · rw [if_neg hzero]
    have hleast : (unpackExponent b).toNat ≠ 0 := fun e => hzero (BitVec.eq_of_toNat_eq e)
    have himplicit : (1#1 ++ unpackMantissa b).toNat = 2 ^ 52 + (unpackMantissa b).toNat := by
      rw [BitVec.toNat_append, ← Nat.shiftLeft_add_eq_or_of_lt hmantissa]
      rfl
    have hlog : (1#1 ++ unpackMantissa b).toNat.log2 = 52 := by
      rw [himplicit]
      exact (Nat.log2_eq_iff (by omega)).mpr ⟨by omega, by omega⟩
    exact .finite _ _ (by omega) (by omega) (by omega) (.inl hlog.ge)

theorem canonical_of_isFinite {x : Float} (h : x.isFinite) : Canonical x.toModel.unpack :=
  canonical_unpack h

theorem bound_pos : 0 < bound := by
  rw [bound]
  exact mul_pos (by norm_num) (zpow_pos two_pos _)

theorem abs_apply (s : Sign) (m : Nat) : |((s.apply m : ℤ) : ℚ)| = m := by
  cases s <;> simp [Sign.apply]

theorem unpackedValue_finite (s : Sign) {m : Nat} (e : Int) (h : 0 < m) :
    unpackedValue (.finite s m e h) = s.apply m * 2 ^ e := rfl

theorem abs_unpackedValue (s : Sign) {m : Nat} (e : Int) (h : 0 < m) :
    |unpackedValue (.finite s m e h)| = m * 2 ^ e := by
  rw [unpackedValue_finite, abs_mul, abs_apply, abs_of_pos (zpow_pos two_pos e)]

theorem Canonical.isFinite_pack {u : UnpackedFloat} (h : Canonical u) :
    (Float.Model.pack u).isFinite := by
  cases h with
  | zero s => exact isFinite_pack_zero s
  | finite s h hm hleast hgreatest hnormal => exact (isFinite_pack_finite_iff s _ h).mpr hgreatest

theorem Canonical.abs_lt_bound {u : UnpackedFloat} (h : Canonical u) :
    |unpackedValue u| < bound := by
  cases h with
  | zero s => exact abs_zero.trans_lt bound_pos
  | @finite s m e h hm hleast hgreatest hnormal =>
      rw [abs_unpackedValue]
      refine (mul_zpow_lt_bound_iff (q := m) ⟨le_rfl, by linarith⟩ hm ?_).mpr ?_
      · intro hlow
        have hlog := hnormal.resolve_right (by omega)
        exact (Nat.pow_le_pow_right two_pos hlog).trans (Nat.log2_self_le h.ne')
      · have hcast : (m : ℚ) + 1 ≤ 2 ^ 53 := by exact_mod_cast hm
        rcases hgreatest.lt_or_eq with hlt | rfl
        · exact .inl (by omega)
        · exact .inr ⟨rfl, by linarith⟩

/-- A shift to the left changes mantissa and exponent, and the number stays. -/
theorem shiftLeft_mul_zpow (m n : Nat) (e : Int) :
    ((m <<< n : ℕ) : ℚ) * 2 ^ (e - n) = m * 2 ^ e := by
  rw [Nat.shiftLeft_eq, Nat.cast_mul, Nat.cast_pow, Nat.cast_ofNat, mul_assoc, ← zpow_natCast,
    ← zpow_add₀ two_ne_zero, add_sub_cancel]

theorem log2_shiftLeft {m : Nat} (h : m ≠ 0) (n : Nat) : (m <<< n).log2 = m.log2 + n := by
  rw [Nat.shiftLeft_eq, Nat.log2_eq_iff (Nat.mul_ne_zero h (by positivity))]
  have hlow := Nat.log2_self_le h
  have hhigh := Nat.lt_log2_self (n := m)
  refine ⟨?_, ?_⟩
  · rw [pow_add]
    exact Nat.mul_le_mul_right _ hlow
  · rw [Nat.add_right_comm, pow_add]
    exact Nat.mul_lt_mul_of_pos_right hhigh (by positivity)

theorem isFinite_round (s : Sign) {m : Nat} (h : m ≠ 0) (e : Int) :
    (Float.Model.pack (UnpackedFloat.round Format.binary64 s m e)).isFinite ↔
      (m : ℚ) * 2 ^ e < bound := by
  rw [UnpackedFloat.round, targetExponent_eq, decreaseExponent]
  dsimp only
  generalize hn : (e - max ((m.log2 : Int) + e - 52) (-1074)).toNat = n
  have hfine : Fine (m <<< n) (e - n) := by
    rw [Fine, log2_shiftLeft h]
    omega
  rw [isFinite_roundWithAccuracy s hfine (represents_exact _), shiftLeft_mul_zpow]

theorem isFinite_normalize (n e : Int) (s : Sign) :
    (Float.Model.pack (UnpackedFloat.normalize Format.binary64 n e s)).isFinite ↔
      |(n : ℚ) * 2 ^ e| < bound := by
  have habs : |(n : ℚ) * 2 ^ e| = |(n : ℚ)| * 2 ^ e := by
    rw [abs_mul, abs_of_pos (zpow_pos two_pos e : (0 : ℚ) < 2 ^ e)]
  have hcast : |(n : ℚ)| = n.natAbs := by rw [Nat.cast_natAbs, Int.cast_abs]
  rw [habs, hcast, UnpackedFloat.normalize]
  cases hcompare : compare n 0 with
  | lt =>
      have hn : n < 0 := compare_lt_iff_lt.mp hcompare
      have hnat : (-n).toNat = n.natAbs := by omega
      dsimp only
      rw [hnat]
      exact isFinite_round _ (by omega) e
  | eq =>
      obtain rfl : n = 0 := compare_eq_iff_eq.mp hcompare
      refine iff_of_true (isFinite_pack_zero s) ?_
      simpa using bound_pos
  | gt =>
      have hn : 0 < n := compare_gt_iff_gt.mp hcompare
      have hnat : n.toNat = n.natAbs := by omega
      dsimp only
      rw [hnat]
      exact isFinite_round _ (by omega) e

section Operations

variable {u v : UnpackedFloat}

/-- A mantissa with a sign, on a smaller exponent. -/
theorem apply_shiftLeft (s : Sign) (m : Nat) {e t : Int} (h : t ≤ e) :
    ((s.apply (m <<< (e - t).toNat : ℕ) : ℤ) : ℚ) * 2 ^ t = s.apply m * 2 ^ e := by
  have ht : t = e - (e - t).toNat := by omega
  have hshift := shiftLeft_mul_zpow m (e - t).toNat e
  rw [← ht] at hshift
  cases s with
  | positive => simpa only [Sign.apply, Int.cast_natCast] using hshift
  | negative =>
      simpa only [Sign.apply, Int.cast_neg, Int.cast_natCast, neg_mul] using congrArg Neg.neg hshift

theorem isFinite_pack_add (hu : Canonical u) (hv : Canonical v) :
    (Float.Model.pack (UnpackedFloat.add Format.binary64 u v)).isFinite ↔
      |unpackedValue u + unpackedValue v| < bound := by
  cases u with
  | infinity s => cases hu
  | notANumber => cases hu
  | zero s =>
      have hvalue : unpackedValue (.zero s) + unpackedValue v = unpackedValue v := zero_add _
      rw [hvalue]
      refine iff_of_true ?_ hv.abs_lt_bound
      cases hv with
      | zero s' => cases s <;> cases s' <;> decide
      | finite s' h' hm' hleast' hgreatest' hnormal' =>
          exact (isFinite_pack_finite_iff s' _ h').mpr hgreatest'
  | finite s m e h =>
      cases v with
      | infinity s => cases hv
      | notANumber => cases hv
      | zero s' =>
          have hvalue : unpackedValue (.finite s m e h) + unpackedValue (.zero s') =
            unpackedValue (.finite s m e h) := add_zero _
          rw [hvalue]
          exact iff_of_true hu.isFinite_pack hu.abs_lt_bound
      | finite s' m' e' h' =>
          delta UnpackedFloat.add
          dsimp only [decreaseExponent]
          rw [isFinite_normalize, Int.cast_add, add_mul, apply_shiftLeft s m (min_le_left e e'),
            apply_shiftLeft s' m' (min_le_right e e')]
          rfl

theorem isFinite_pack_sub (hu : Canonical u) (hv : Canonical v) :
    (Float.Model.pack (UnpackedFloat.sub Format.binary64 u v)).isFinite ↔
      |unpackedValue u - unpackedValue v| < bound := by
  cases u with
  | infinity s => cases hu
  | notANumber => cases hu
  | zero s =>
      have hvalue : unpackedValue (.zero s) - unpackedValue v = -unpackedValue v := zero_sub _
      rw [hvalue, abs_neg]
      refine iff_of_true ?_ hv.abs_lt_bound
      cases hv with
      | zero s' => cases s <;> cases s' <;> decide
      | finite s' h' hm' hleast' hgreatest' hnormal' =>
          exact (isFinite_pack_finite_iff (-s') _ h').mpr hgreatest'
  | finite s m e h =>
      cases v with
      | infinity s => cases hv
      | notANumber => cases hv
      | zero s' =>
          have hvalue : unpackedValue (.finite s m e h) - unpackedValue (.zero s') =
            unpackedValue (.finite s m e h) := sub_zero _
          rw [hvalue]
          exact iff_of_true hu.isFinite_pack hu.abs_lt_bound
      | finite s' m' e' h' =>
          delta UnpackedFloat.sub
          dsimp only [decreaseExponent]
          rw [isFinite_normalize, Int.cast_sub, sub_mul, apply_shiftLeft s m (min_le_left e e'),
            apply_shiftLeft s' m' (min_le_right e e')]
          rfl

theorem isFinite_pack_mul (hu : Canonical u) (hv : Canonical v) :
    (Float.Model.pack (UnpackedFloat.mul Format.binary64 u v)).isFinite ↔
      |unpackedValue u * unpackedValue v| < bound := by
  cases hu with
  | zero s =>
      have hvalue : unpackedValue (.zero s) * unpackedValue v = 0 := zero_mul _
      rw [hvalue, abs_zero]
      refine iff_of_true ?_ bound_pos
      cases hv <;> exact isFinite_pack_zero _
  | @finite s m e h hm hleast hgreatest hnormal =>
      cases hv with
      | zero s' =>
          have hvalue : unpackedValue (.finite s m e h) * unpackedValue (.zero s') = 0 := mul_zero _
          rw [hvalue, abs_zero]
          exact iff_of_true (isFinite_pack_zero _) bound_pos
      | @finite s' m' e' h' hm' hleast' hgreatest' hnormal' =>
          have hfine : Fine (m * m') (e + e') := by
            rw [Fine, Nat.le_log2 (Nat.mul_pos h h').ne']
            rcases hnormal with hlog | rfl
            · have hbits := (Nat.le_log2 h.ne').mp hlog
              exact .inl (hbits.trans (Nat.le_mul_of_pos_right m h'))
            · rcases hnormal' with hlog' | rfl
              · have hbits := (Nat.le_log2 h'.ne').mp hlog'
                exact .inl (hbits.trans (Nat.le_mul_of_pos_left m' h))
              · exact .inr (by omega)
          delta UnpackedFloat.mul
          dsimp only
          rw [isFinite_roundWithAccuracy (s * s') hfine (represents_exact _),
            abs_mul, abs_unpackedValue, abs_unpackedValue, Nat.cast_mul, zpow_add₀ two_ne_zero,
            mul_mul_mul_comm]

/-- A quotient and the accuracy of its remainder stand for the exact quotient. -/
theorem represents_fraction (m : Nat) {d : Nat} (hd : 0 < d) :
    Represents (.ofMantissaAndAccuracy (m / d) (accuracyOfFraction (m % d) d)) (m / d : ℚ) := by
  have hd' : (0 : ℚ) < d := by exact_mod_cast hd
  have hdiv : (m : ℚ) = d * (m / d : ℕ) + (m % d : ℕ) := by
    exact_mod_cast (Nat.div_add_mod m d).symm
  have hmod : ((m % d : ℕ) : ℚ) < d := by exact_mod_cast Nat.mod_lt m hd
  generalize m / d = q at hdiv ⊢
  generalize m % d = r at hdiv hmod ⊢
  have htwice : 2 * ((m : ℚ) / d) = 2 * q + 2 * r / d := by
    rw [hdiv]
    field_simp
  rw [Represents, htwice, accuracyOfFraction]
  by_cases hr : r = 0
  · simp [hr, ExtendedMantissa.ofMantissaAndAccuracy, halves]
  · rw [if_neg hr]
    have hpos : (0 : ℚ) < r := by exact_mod_cast Nat.pos_of_ne_zero hr
    have hquot : 2 * (r : ℚ) / d < 2 := by
      rw [div_lt_iff₀ hd']
      linarith
    cases hcompare : compare (2 * r) d with
    | lt =>
        have hlt : (2 * r : ℚ) < d := by exact_mod_cast compare_lt_iff_lt.mp hcompare
        have hlow : 2 * (r : ℚ) / d < 1 := (div_lt_one hd').mpr hlt
        have hpos : 0 < 2 * (r : ℚ) / d := by positivity
        simpa [ExtendedMantissa.ofMantissaAndAccuracy, halves] using ⟨hpos, hlow⟩
    | eq =>
        have heq : (2 * r : ℚ) = d := by exact_mod_cast compare_eq_iff_eq.mp hcompare
        simp [ExtendedMantissa.ofMantissaAndAccuracy, halves, heq, hd'.ne']
    | gt =>
        have hlt : (d : ℚ) < 2 * r := by exact_mod_cast compare_gt_iff_gt.mp hcompare
        have hhigh : 1 < 2 * (r : ℚ) / d := (one_lt_div hd').mpr hlt
        simp only [ExtendedMantissa.ofMantissaAndAccuracy, halves, Bool.toNat_true, if_true,
          Nat.cast_add, Nat.cast_mul, Nat.cast_ofNat, Nat.cast_one]
        constructor <;> linarith

/-- A quotient has enough bits if the divisor has 53 fewer, or is of the least exponent. -/
theorem fine_quotient {m m' n : Nat} {t : Int} (hm : m ≠ 0) (hm' : 0 < m')
    (h : t ≤ -1074 ∨ m'.log2 + 53 ≤ m.log2 + n) : Fine ((m <<< n) / m') t := by
  rcases h with hleast | hbits
  · exact .inr hleast
  · have hne : m <<< n ≠ 0 := by
      rw [Nat.shiftLeft_eq]
      positivity
    have hmul : m' * 2 ^ 52 ≤ m <<< n := by
      calc m' * 2 ^ 52 ≤ 2 ^ (m'.log2 + 1) * 2 ^ 52 := Nat.mul_le_mul_right _ Nat.lt_log2_self.le
        _ = 2 ^ (m'.log2 + 53) := (pow_add ..).symm
        _ ≤ 2 ^ (m <<< n).log2 := by
          rw [log2_shiftLeft hm]
          exact Nat.pow_le_pow_right two_pos hbits
        _ ≤ m <<< n := Nat.log2_self_le hne
    have hquot : 2 ^ 52 ≤ (m <<< n) / m' :=
      (Nat.le_div_iff_mul_le hm').mpr (by rwa [Nat.mul_comm])
    exact .inl ((Nat.le_log2 (by omega)).mpr hquot)

theorem isFinite_pack_div (hu : Canonical u) (hv : Canonical v) (hne : unpackedValue v ≠ 0) :
    (Float.Model.pack (UnpackedFloat.div Format.binary64 u v)).isFinite ↔
      |unpackedValue u / unpackedValue v| < bound := by
  cases hv with
  | zero s' => exact absurd rfl hne
  | @finite s' m' e' h' hm' hleast' hgreatest' hnormal' =>
      cases hu with
      | zero s =>
          have hvalue : unpackedValue (.zero s) / unpackedValue (.finite s' m' e' h') = 0 :=
            zero_div _
          rw [hvalue, abs_zero]
          exact iff_of_true (isFinite_pack_zero _) bound_pos
      | @finite s m e h hm hleast hgreatest hnormal =>
          delta UnpackedFloat.div
          dsimp only
          rw [divCore, targetExponent_eq_max, totalExponent, totalExponent, abs_div,
            abs_unpackedValue, abs_unpackedValue]
          dsimp only
          generalize ht : min (e - e') _ = t
          generalize hn : (e - e' - t).toNat = n
          have hfine : Fine ((m <<< n) / m') t := fine_quotient h.ne' h' (by omega)
          have hexp : t = e - e' - n := by omega
          have hvalue : ((m <<< n : ℕ) : ℚ) / m' * 2 ^ t = m * 2 ^ e / (m' * 2 ^ e') := by
            rw [hexp, div_mul_eq_mul_div, shiftLeft_mul_zpow, zpow_sub₀ two_ne_zero]
            field_simp
          rw [isFinite_roundWithAccuracy (s / s') hfine (represents_fraction _ h'), hvalue]

end Operations

variable {x y : Float}

theorem isFinite_add (hx : x.isFinite) (hy : y.isFinite) :
    (x + y).isFinite ↔ |exact x + exact y| < bound :=
  isFinite_pack_add (canonical_of_isFinite hx) (canonical_of_isFinite hy)

theorem isFinite_sub (hx : x.isFinite) (hy : y.isFinite) :
    (x - y).isFinite ↔ |exact x - exact y| < bound :=
  isFinite_pack_sub (canonical_of_isFinite hx) (canonical_of_isFinite hy)

theorem isFinite_mul (hx : x.isFinite) (hy : y.isFinite) :
    (x * y).isFinite ↔ |exact x * exact y| < bound :=
  isFinite_pack_mul (canonical_of_isFinite hx) (canonical_of_isFinite hy)

theorem isFinite_div (hx : x.isFinite) (hy : y.isFinite) (hne : (y == 0.0) = false) :
    (x / y).isFinite ↔ |exact x / exact y| < bound := by
  have hzero : (0.0 : Float).toModel.unpack = .zero .positive := rfl
  have hcanonical := canonical_of_isFinite hy
  refine isFinite_pack_div (canonical_of_isFinite hx) hcanonical ?_
  change y.toModel.unpack.beq (0.0 : Float).toModel.unpack = false at hne
  rw [hzero] at hne
  generalize y.toModel.unpack = v at hcanonical hne ⊢
  cases hcanonical with
  | zero s => cases hne
  | @finite s m e h hm hleast hgreatest hnormal =>
      have hpos : (0 : ℚ) < m * 2 ^ e := by positivity
      rw [← abs_pos, abs_unpackedValue]
      exact hpos

theorem exact_one : exact (Float.ofBits 0x3FF0000000000000) = 1 := by
  have hunpack : (Float.ofBits 0x3FF0000000000000).toModel.unpack =
      .finite .positive (2 ^ 52) (-52) (by decide) := rfl
  rw [exact, hunpack, unpackedValue_finite]
  norm_num [Sign.apply]

theorem natCast_lt_bound_iff {n : Nat} : (n : ℚ) < bound ↔ n < (2 ^ 54 - 1) * 2 ^ 970 := by
  have hbound : bound = ((2 ^ 54 - 1) * 2 ^ 970 : ℕ) := by
    have hpow : (2 : ℚ) ^ (971 : ℤ) = 2 * (2 ^ 970 : ℕ) := by
      rw [Nat.cast_pow, Nat.cast_ofNat, ← pow_succ', ← zpow_natCast]
      rfl
    rw [bound, hpow, Nat.cast_mul]
    generalize ((2 ^ 970 : ℕ) : ℚ) = p
    push_cast
    ring
  rw [hbound, Nat.cast_lt]

/-- A run of digits is read as a finite double exactly if the number that it writes is below the
bound. -/
theorem isFinite_ofDigits_iff (ds : List Char) :
    (Decimal.ofDigits ds).isFinite ↔ (Decimal.value ds : ℚ) < bound := by
  rw [Decimal.ofDigits, Float.ofScientific]
  generalize Decimal.value ds = n
  split
  next h =>
    -- Up to 53 bits the number is a double itself, and it is multiplied by one.
    have hlt := natCast_lt_bound_iff.mpr (h.1.trans (by decide +kernel))
    have hone : (Float.ofBits 0x3FF0000000000000).isFinite = true := by decide
    have hn : n.toUInt64.toNat = n := by
      rw [Nat.toUInt64_eq, UInt64.toNat_ofNat']
      exact Nat.mod_eq_of_lt (h.1.trans (by decide))
    have hfinite : n.toUInt64.toFloat.isFinite = true := by
      change (Float.Model.pack
        (UnpackedFloat.normalize Format.binary64 n.toUInt64.toNat 0 .positive)).isFinite = true
      rw [isFinite_normalize, hn, zpow_zero, mul_one, Int.cast_natCast, Nat.abs_cast]
      exact hlt
    refine iff_of_true ?_ hlt
    change (n.toUInt64.toFloat * Float.ofBits 0x3FF0000000000000).isFinite = true
    rw [isFinite_mul hfinite hone, exact_one, mul_one]
    exact (canonical_of_isFinite hfinite).abs_lt_bound
  next h =>
    have hn : n ≠ 0 := by
      rintro rfl
      exact h ⟨by decide, by decide⟩
    have hbits : 53 ≤ (n <<< 53 * 10 ^ 0).log2 := by
      rw [pow_zero, Nat.mul_one, log2_shiftLeft hn]
      exact Nat.le_add_left ..
    have hfine : Fine (n <<< 53 * 10 ^ 0) (-53 + 0) := .inl (by omega)
    have hvalue : ((n <<< 53 * 10 ^ 0 : ℕ) : ℚ) * 2 ^ (-53 + 0 : ℤ) = n := by
      have hshift := shiftLeft_mul_zpow n 53 0
      rw [zpow_zero, mul_one] at hshift
      rw [pow_zero, Nat.mul_one]
      exact hshift
    have hround := isFinite_roundWithAccuracy (.positive * .positive) hfine (represents_exact _)
    rw [hvalue] at hround
    rw [← hround]
    have hsize : ¬ (0 : Int) < -((2 ^ Format.binary64.exponentBits : Int) + n.log2) := by
      have hexponent : (2 ^ Format.binary64.exponentBits : Int) = 2048 := rfl
      omega
    change (Float.Model.pack (UnpackedFloat.ofScientific Format.binary64 n 0)).isFinite ↔ _
    rw [UnpackedFloat.ofScientific, dif_neg hn, if_neg (by decide), if_neg hsize, if_pos le_rfl]
    rfl

end NormalOrder.Number
