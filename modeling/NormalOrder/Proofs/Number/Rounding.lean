/- When a rounded number is finite.

A mantissa with its two residual bits tells where a number is between two whole ones, and shifting
keeps what it tells. So rounding to a double gives an infinite one exactly from half a unit behind
the largest double on. -/
import Mathlib.Algebra.Order.Field.Basic
import Mathlib.Algebra.Order.Field.Power
import Mathlib.Algebra.Order.Field.Rat
import Mathlib.Tactic.FieldSimp
import Mathlib.Tactic.Linarith
import Mathlib.Tactic.NormNum
import Mathlib.Tactic.Positivity
import Mathlib.Tactic.Ring

namespace NormalOrder.Number

open Float.Model Float.Model.UnpackedFloat

/-- Half a unit behind the largest double, `2 ^ 1024 - 2 ^ 970`. Numbers of this size and larger
ones round to no finite double. -/
def bound : ℚ := (2 ^ 53 - 1 / 2) * 2 ^ (971 : ℤ)

/-- The halves of a unit in a mantissa with its round bit. -/
def halves (em : ExtendedMantissa) : Nat :=
  2 * em.mantissa + em.roundBit.toNat

/-- A mantissa with its residual bits stands for a number: for its halves, or with a sticky bit for
more than them and less than another half. -/
def Represents (em : ExtendedMantissa) (x : ℚ) : Prop :=
  if em.stickyBit then halves em < 2 * x ∧ 2 * x < halves em + 1 else 2 * x = halves em

variable {em : ExtendedMantissa} {x : ℚ}

theorem Represents.mantissa_le (h : Represents em x) : em.mantissa ≤ x ∧ x < em.mantissa + 1 := by
  obtain ⟨m, r, s⟩ := em
  cases r <;> cases s <;> simp [Represents, halves] at h ⊢ <;> constructor <;> linarith

theorem halves_shiftRightOne (em : ExtendedMantissa) : halves em.shiftRightOne = em.mantissa := by
  have hmod := Nat.div_add_mod em.mantissa 2
  rw [halves, ExtendedMantissa.shiftRightOne]
  rcases Nat.mod_two_eq_zero_or_one em.mantissa with hr | hr <;> rw [hr] at hmod ⊢ <;> exact hmod

theorem Represents.shiftRightOne (h : Represents em x) : Represents em.shiftRightOne (x / 2) := by
  rw [Represents, halves_shiftRightOne, mul_div_cancel₀ x two_ne_zero]
  obtain ⟨m, r, s⟩ := em
  cases r <;> cases s <;> simp [Represents, halves, ExtendedMantissa.shiftRightOne] at h ⊢ <;>
    first | linarith | (constructor <;> linarith)

theorem Represents.shiftRight (h : Represents em x) (n : Nat) :
    Represents (em >>> n) (x / 2 ^ n) := by
  induction n with
  | zero => rwa [pow_zero, div_one]
  | succ n ih =>
      have hsucc : em >>> (n + 1) = (em >>> n).shiftRightOne := rfl
      rw [hsucc, pow_succ, ← div_div]
      exact ih.shiftRightOne

theorem mantissa_shiftRight (em : ExtendedMantissa) (n : Nat) :
    (em >>> n).mantissa = em.mantissa / 2 ^ n := by
  induction n with
  | zero => exact (Nat.div_one _).symm
  | succ n ih =>
      have hsucc : (em >>> (n + 1)).mantissa = (em >>> n).mantissa / 2 := rfl
      rw [hsucc, ih, Nat.div_div_eq_div_mul, pow_succ]

theorem roundedMantissa_bounds (em : ExtendedMantissa) :
    em.mantissa ≤ em.roundedMantissa ∧ em.roundedMantissa ≤ em.mantissa + 1 := by
  obtain ⟨m, r, s⟩ := em
  cases r <;> cases s <;>
    simp [ExtendedMantissa.roundedMantissa, ExtendedMantissa.accuracy, Accuracy.roundToNearestEven]
  omega

theorem Represents.lt_half_iff (h : Represents em x) :
    x < em.mantissa + 1 / 2 ↔ em.roundBit = false := by
  obtain ⟨m, r, s⟩ := em
  cases r <;> cases s <;> simp [Represents, halves] at h ⊢ <;> linarith

theorem roundedMantissa_of_odd (h : em.mantissa % 2 = 1) :
    em.roundedMantissa = em.mantissa + em.roundBit.toNat := by
  obtain ⟨m, r, s⟩ := em
  cases r <;> cases s <;> simp_all [ExtendedMantissa.roundedMantissa, ExtendedMantissa.accuracy,
    Accuracy.roundToNearestEven]

/-- A mantissa that is less than an even number stays less if it does not stand for a number within
half a unit of it. -/
theorem Represents.roundedMantissa_lt_iff (h : Represents em x) {n : Nat}
    (hn : em.mantissa < 2 * n) : em.roundedMantissa < 2 * n ↔ x < 2 * n - 1 / 2 := by
  rcases Nat.lt_or_ge (em.mantissa + 1) (2 * n) with hlt | hge
  · have hcast : (em.mantissa : ℚ) + 2 ≤ 2 * n := by exact_mod_cast hlt
    have hx := h.mantissa_le
    exact iff_of_true ((roundedMantissa_bounds em).2.trans_lt hlt) (by linarith)
  · -- The greatest mantissa is odd, so it goes up from a half on.
    have hgreatest : em.mantissa + 1 = 2 * n := by omega
    have hcast : (2 * n : ℚ) - 1 / 2 = em.mantissa + 1 / 2 := by
      have : (em.mantissa : ℚ) + 1 = 2 * n := by exact_mod_cast hgreatest
      linarith
    rw [hcast, h.lt_half_iff, roundedMantissa_of_odd (by omega)]
    cases em.roundBit <;> simp <;> omega

/-- The exponent of a double, by the place of its first bit. -/
theorem targetExponent_eq_max (n : Int) :
    Format.binary64.targetExponent n = max (n - 53) (-1074) :=
  rfl

/-- The exponent of a double that is rounded from a mantissa with this exponent. -/
theorem targetExponent_eq (m : Nat) (e : Int) :
    Format.binary64.targetExponent (totalExponent m e) = max (m.log2 + e - 52) (-1074) := by
  rw [targetExponent_eq_max, totalExponent]
  congr 1
  omega

theorem isFinite_unpack_iff (b : BitVec Format.binary64.numBits) :
    (UnpackedFloat.unpack Format.binary64 b).isFinite ↔ unpackExponent b ≠ -1#_ := by
  delta UnpackedFloat.unpack
  by_cases hinf : unpackExponent b = -1#_
  · rw [if_pos hinf]
    refine iff_of_false ?_ fun h => h hinf
    split <;> exact Bool.false_ne_true
  · rw [if_neg hinf]
    refine iff_of_true ?_ hinf
    by_cases hzero : unpackExponent b = 0#_
    · rw [if_pos hzero]
      by_cases hmantissa : unpackMantissa b = 0#_
      · rw [dif_pos hmantissa]
        rfl
      · rw [dif_neg hmantissa]
        rfl
    · rw [if_neg hzero]
      rfl

theorem isFinite_pack_zero (s : Sign) : (Float.Model.pack (.zero s)).isFinite = true := by
  cases s <;> decide

/-- A double holds exponents up to 971. -/
theorem isFinite_pack_finite_iff (s : Sign) {m : Nat} (e : Int) (h : 0 < m) :
    (Float.Model.pack (.finite s m e h)).isFinite ↔ e ≤ 971 := by
  change (UnpackedFloat.unpack Format.binary64
    (UnpackedFloat.pack Format.binary64 (.finite s m e h))).isFinite ↔ _
  have hbiased : (e + Format.binary64.exponentBias +
      Format.binary64.mantissaBitsWithoutImplicit).toNat = (e + 1075).toNat := by
    have hbias : (Format.binary64.exponentBias : Int) = 1023 := rfl
    rw [hbias]
    congr 1
    exact Int.add_assoc ..
  rw [isFinite_unpack_iff]
  delta UnpackedFloat.pack
  dsimp only
  rw [hbiased]
  split
  next hlarge =>
    rw [packedInfinity, unpackExponent_packComponents]
    simp only [ne_eq, not_true_eq_false, false_iff]
    omega
  next hsmall =>
    have hle : e ≤ 971 := by omega
    split
    · rw [unpackExponent_packComponents]
      refine iff_of_true (fun h => ?_) hle
      have h : (e + 1075).toNat % 2048 = 2047 := congrArg BitVec.toNat h
      have hsmall : ¬ 2048 ≤ (e + 1075).toNat + 1 := hsmall
      omega
    · rw [unpackExponent_packComponents]
      exact iff_of_true (by decide) hle

section Round

variable {m : Nat} {e t : Int} {acc : Accuracy}

/-- Enough bits, or an exponent below that of every double: a shift to the exponent of a double only
drops bits. -/
def Fine (m : Nat) (e : Int) : Prop :=
  52 ≤ m.log2 ∨ e ≤ -1074

theorem shiftToTargetExponent_eq (ht : t = max (m.log2 + e - 52) (-1074)) (h : e ≤ t) :
    shiftToTargetExponent Format.binary64 m e acc =
      (ExtendedMantissa.ofMantissaAndAccuracy m acc >>> (t - e).toNat, t) := by
  rw [shiftToTargetExponent, targetExponent_eq, ← ht, shiftToExponent]
  congr 1
  omega

theorem mantissa_ofMantissaAndAccuracy (m : Nat) (acc : Accuracy) :
    (ExtendedMantissa.ofMantissaAndAccuracy m acc).mantissa = m := by
  rcases acc with _ | (_ | _ | _) <;> rfl

/-- The mantissa of a double has 53 bits, and not fewer unless its exponent is the least. -/
theorem shifted_bounds (hfine : Fine m e) (ht : t = max (m.log2 + e - 52) (-1074)) :
    e ≤ t ∧ m / 2 ^ (t - e).toNat < 2 ^ 53 ∧ (-1074 < t → 2 ^ 52 ≤ m / 2 ^ (t - e).toNat) := by
  have hle : e ≤ t := by
    rcases hfine with h | h <;> omega
  refine ⟨hle, ?_, fun hlow => ?_⟩
  · refine Nat.div_lt_of_lt_mul ?_
    rw [← pow_add]
    exact Nat.lt_log2_self.trans_le (Nat.pow_le_pow_right two_pos (by omega))
  · have hne : m ≠ 0 := by
      rintro rfl
      rcases hfine with h | h <;> rw [Nat.log2_zero] at * <;> omega
    rw [Nat.le_div_iff_mul_le (by positivity), ← pow_add]
    exact (Nat.pow_le_pow_right two_pos (by omega)).trans (Nat.log2_self_le hne)

/-- What is rounded to 53 bits is a double, or the next power of two. -/
theorem shift_rounded {r : Nat} (hr : r ≤ 2 ^ 53) (ht : -1074 ≤ t) :
    shiftToTargetExponent Format.binary64 r t .exact =
      if r < 2 ^ 53 then (⟨r, false, false⟩, t) else (⟨2 ^ 52, false, false⟩, t + 1) := by
  split
  next hlt =>
    have hlog : r.log2 ≤ 52 := by
      rcases Nat.eq_zero_or_pos r with rfl | hpos
      · decide
      · exact Nat.le_of_lt_succ ((Nat.log2_lt hpos.ne').mpr hlt)
    have hstay : (max ((r.log2 : Int) + t - 52) (-1074) - t).toNat = 0 := by omega
    rw [shiftToTargetExponent, targetExponent_eq, shiftToExponent, hstay]
    exact congrArg _ (add_zero t)
  next hge =>
    obtain rfl : r = 2 ^ 53 := by omega
    have hlog : (2 ^ 53 : Nat).log2 = 53 := Nat.log2_two_pow
    rw [shiftToTargetExponent_eq rfl (by rw [hlog]; omega), hlog]
    have ht' : max ((53 : ℕ) + t - 52) (-1074) = t + 1 := by omega
    rw [ht', add_sub_cancel_left]
    rfl

/-- Rounding gives a finite double up to the exponent 970, and with the greatest exponent 971 if the
mantissa does not overflow. -/
theorem isFinite_roundWithAccuracy_iff (s : Sign) (hfine : Fine m e)
    (ht : t = max (m.log2 + e - 52) (-1074)) :
    (Float.Model.pack (roundWithAccuracy Format.binary64 s m e acc)).isFinite ↔
      t ≤ 970 ∨ t = 971 ∧
        (ExtendedMantissa.ofMantissaAndAccuracy m acc >>> (t - e).toNat).roundedMantissa <
          2 ^ 53 := by
  obtain ⟨hle, hlt, hlow⟩ := shifted_bounds hfine ht
  have hmin : -1074 ≤ t := by omega
  have hbounds := roundedMantissa_bounds
    (ExtendedMantissa.ofMantissaAndAccuracy m acc >>> (t - e).toNat)
  rw [mantissa_shiftRight, mantissa_ofMantissaAndAccuracy] at hbounds
  rw [roundWithAccuracy, shiftToTargetExponent_eq ht hle]
  dsimp only
  generalize
    (ExtendedMantissa.ofMantissaAndAccuracy m acc >>> (t - e).toNat).roundedMantissa = r at *
  rw [shift_rounded (by omega) hmin]
  by_cases hr : r < 2 ^ 53
  · rw [if_pos hr]
    dsimp only
    by_cases hzero : r = 0
    · rw [dif_pos hzero]
      refine iff_of_true (isFinite_pack_zero s) (.inl ?_)
      by_contra hlarge
      have := hlow (by omega)
      omega
    · rw [dif_neg hzero, isFinite_pack_finite_iff]
      omega
  · rw [if_neg hr]
    dsimp only
    rw [dif_neg (by decide), isFinite_pack_finite_iff]
    omega

theorem represents_exact (m : Nat) : Represents (.ofMantissaAndAccuracy m .exact) m := by
  simp [Represents, halves, ExtendedMantissa.ofMantissaAndAccuracy]

/-- A number with a mantissa of 53 bits is below the bound if its exponent is less than the greatest
of a double, or is the greatest and it is half a unit below the next power of two. -/
theorem mul_zpow_lt_bound_iff {y : ℚ} {q : Nat} (hq : (q : ℚ) ≤ y ∧ y < q + 1) (hlt : q < 2 ^ 53)
    (hlow : -1074 < t → 2 ^ 52 ≤ q) :
    y * 2 ^ t < bound ↔ t ≤ 970 ∨ t = 971 ∧ y < 2 ^ 53 - 1 / 2 := by
  have hy : y < 2 ^ 53 := hq.2.trans_le (by exact_mod_cast hlt)
  have hscale : y * 2 ^ t = y * 2 ^ (t - 971) * 2 ^ (971 : ℤ) := by
    rw [mul_assoc, ← zpow_add₀ two_ne_zero, sub_add_cancel]
  rw [hscale, bound, mul_lt_mul_iff_left₀ (zpow_pos two_pos _)]
  rcases lt_trichotomy t 971 with hsmall | rfl | hlarge
  · have hpow : (2 : ℚ) ^ (t - 971) ≤ 2 ^ (-1 : ℤ) := zpow_le_zpow_right₀ one_le_two (by omega)
    have hmul : y * 2 ^ (t - 971) ≤ 2 ^ 53 * 2 ^ (-1 : ℤ) := by gcongr
    refine iff_of_true (hmul.trans_lt ?_) (.inl (by omega))
    norm_num
  · simp
  · have hpow : (2 : ℚ) ^ (1 : ℤ) ≤ 2 ^ (t - 971) := zpow_le_zpow_right₀ one_le_two (by omega)
    have hmantissa : (2 ^ 52 : ℚ) ≤ y := le_trans (by exact_mod_cast hlow (by omega)) hq.1
    have hmul : (2 ^ 52 : ℚ) * 2 ^ (1 : ℤ) ≤ y * 2 ^ (t - 971) := by gcongr
    refine iff_of_false (not_lt.mpr (le_trans ?_ hmul)) (by omega)
    norm_num

/-- A number rounds to a finite double if and only if it is below the bound. -/
theorem isFinite_roundWithAccuracy (s : Sign) (hfine : Fine m e)
    (h : Represents (.ofMantissaAndAccuracy m acc) x) :
    (Float.Model.pack (roundWithAccuracy Format.binary64 s m e acc)).isFinite ↔
      x * 2 ^ e < bound := by
  obtain ⟨t, ht⟩ : ∃ t, t = max ((m.log2 : ℤ) + e - 52) (-1074) := ⟨_, rfl⟩
  obtain ⟨hle, hlt, hlow⟩ := shifted_bounds hfine ht
  have hshift := h.shiftRight (t - e).toNat
  have hq := hshift.mantissa_le
  rw [mantissa_shiftRight, mantissa_ofMantissaAndAccuracy] at hq
  have hexp : (2 : ℚ) ^ t = 2 ^ e * 2 ^ (t - e).toNat := by
    rw [← zpow_natCast, ← zpow_add₀ two_ne_zero]
    congr 1
    omega
  have hvalue : x * 2 ^ e = x / 2 ^ (t - e).toNat * 2 ^ t := by
    rw [hexp]
    field_simp
  have hround := hshift.roundedMantissa_lt_iff (n := 2 ^ 52)
    (by rw [mantissa_shiftRight, mantissa_ofMantissaAndAccuracy]; omega)
  rw [isFinite_roundWithAccuracy_iff s hfine ht, hvalue, mul_zpow_lt_bound_iff hq hlt hlow]
  refine or_congr_right (and_congr_right fun _ => hround.trans ?_)
  norm_num

end Round

end NormalOrder.Number
