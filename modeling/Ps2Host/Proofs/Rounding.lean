import Mathlib.Algebra.Order.Field.Power
import Mathlib.Data.Rat.Floor
import Mathlib.Tactic.Linarith
import Mathlib.Tactic.Positivity
import Mathlib.Tactic.Ring
import Ps2Host.Binary32

/-!
# Rounding to the format

The nearest number of the format is found by counting in steps of the distance between the numbers
around it. That this is the nearest of all of them is what makes rounding monotone and its error
small: any number of the format that is close by bounds how far the result can be.

## Main definitions

* `Binary32.Representable` — the numbers of the format, but with no largest one.

## Main results

* `Binary32.representable_of_value?` — a bit pattern stands for such a number.
* `Binary32.representable_nearest` — rounding gives one.
* `Binary32.abs_nearest_sub_le` — no such number is nearer.
* `Binary32.nearest_even` — of two that are equally near, it is the one with the even significand.
* `Binary32.nearest_mono` — rounding keeps the order.
* `Binary32.nearest_of_representable` — a number of the format stays as it is.
* `Binary32.value?_le_iff` — without a sign, patterns are ordered as the numbers they stand for.
-/
namespace Ps2Host.Binary32

variable {p q v : Rat} {e : Int}

/-! ## Rounding to an integer -/

/-- The rounding is off by less than one half, or by one half and then it is even. -/
theorem roundToInt_cases (q : Rat) :
    |(roundToInt q : Rat) - q| < 1 / 2 ∨
      |(roundToInt q : Rat) - q| = 1 / 2 ∧ roundToInt q % 2 = 0 := by
  have hlow : (q.floor : Rat) ≤ q := Int.floor_le q
  have hhigh : q < q.floor + 1 := Int.lt_floor_add_one q
  unfold roundToInt
  dsimp only
  split_ifs with hbelow habove
  · left
    rw [abs_lt]
    constructor <;> linarith
  · left
    push_cast
    rw [abs_lt]
    constructor <;> linarith
  · right
    have htie : q = q.floor + 1 / 2 := by linarith
    refine ⟨?_, by omega⟩
    rw [abs_eq (by norm_num)]
    obtain h | h := Int.emod_two_eq q.floor
    · right
      rw [h, add_zero]
      linarith
    · left
      rw [h]
      push_cast
      linarith

theorem abs_roundToInt_sub_le (q : Rat) : |(roundToInt q : Rat) - q| ≤ 1 / 2 := by
  obtain h | ⟨h, -⟩ := roundToInt_cases q
  · exact h.le
  · exact h.le

theorem half_le_abs_sub {k : Int} (hk : k ≠ roundToInt q) : 1 / 2 ≤ |(k : Rat) - q| := by
  have hstep : (1 : Rat) ≤ |(k : Rat) - roundToInt q| := by
    exact_mod_cast Int.one_le_abs (sub_ne_zero.2 hk)
  have htriangle := abs_sub_le (k : Rat) q (roundToInt q)
  rw [abs_sub_comm q] at htriangle
  linarith [abs_roundToInt_sub_le q]

theorem abs_roundToInt_sub_le_abs (q : Rat) (k : Int) :
    |(roundToInt q : Rat) - q| ≤ |(k : Rat) - q| := by
  obtain rfl | hk := eq_or_ne k (roundToInt q)
  · exact le_rfl
  · exact (abs_roundToInt_sub_le q).trans (half_le_abs_sub hk)

theorem roundToInt_even {k : Int} (hk : k ≠ roundToInt q)
    (htie : |(k : Rat) - q| = |(roundToInt q : Rat) - q|) : roundToInt q % 2 = 0 := by
  obtain h | ⟨-, h⟩ := roundToInt_cases q
  · exact absurd (half_le_abs_sub hk) (by rw [htie]; exact h.not_ge)
  · exact h

theorem abs_roundToInt_le {n : Int} (h : |q| ≤ n) : |roundToInt q| ≤ n := by
  have htriangle := abs_sub_le (roundToInt q : Rat) q 0
  rw [sub_zero, sub_zero] at htriangle
  have hlt : |(roundToInt q : Rat)| < n + 1 := by linarith [abs_roundToInt_sub_le q]
  exact Int.lt_add_one_iff.1 (by exact_mod_cast hlt)

/-! ## The numbers around a rational -/

theorem two_pow_add (e : Int) (n : Nat) : (2 : Rat) ^ (e + n) = 2 ^ n * 2 ^ e := by
  rw [zpow_add₀ two_ne_zero, zpow_natCast, mul_comm]

theorem two_pow_mul {n m : Nat} (h : e + n = m) : (2 : Rat) ^ e * 2 ^ n = 2 ^ m := by
  rw [mul_comm, ← two_pow_add, h, zpow_natCast]

/-- The numerator and the denominator each lie between two powers of two, and so does what they
stand for. -/
theorem two_pow_log2 (hq : 0 < q) :
    (2 : Rat) ^ (q.num.natAbs.log2 - q.den.log2 - 1 : Int) < q ∧
      q < 2 ^ (q.num.natAbs.log2 - q.den.log2 + 1 : Int) := by
  have hnum : q.num.natAbs ≠ 0 := Int.natAbs_ne_zero.2 (Rat.num_pos.2 hq).ne'
  have hden : (0 : Rat) < q.den := by exact_mod_cast q.den_pos
  have hnumLow : (2 : Rat) ^ q.num.natAbs.log2 ≤ q.num.natAbs := by
    exact_mod_cast Nat.log2_self_le hnum
  have hnumHigh : (q.num.natAbs : Rat) < 2 ^ (q.num.natAbs.log2 + 1) := by
    exact_mod_cast Nat.lt_log2_self
  have hdenLow : (2 : Rat) ^ q.den.log2 ≤ q.den := by
    exact_mod_cast Nat.log2_self_le q.den_ne_zero
  have hdenHigh : (q.den : Rat) < 2 ^ (q.den.log2 + 1) := by
    exact_mod_cast Nat.lt_log2_self
  have hmul : q * q.den = q.num.natAbs := by
    rw [Rat.mul_den_eq_num, ← Int.cast_natCast, Int.natAbs_of_nonneg (Rat.num_nonneg.2 hq.le)]
  constructor
  · refine lt_of_mul_lt_mul_right ?_ hden.le
    calc (2 : Rat) ^ (q.num.natAbs.log2 - q.den.log2 - 1 : Int) * q.den
      _ < 2 ^ (q.num.natAbs.log2 - q.den.log2 - 1 : Int) * 2 ^ (q.den.log2 + 1) :=
        mul_lt_mul_of_pos_left hdenHigh (by positivity)
      _ = 2 ^ q.num.natAbs.log2 := two_pow_mul (by omega)
      _ ≤ q * q.den := by rw [hmul]; exact hnumLow
  · refine lt_of_mul_lt_mul_right ?_ hden.le
    calc q * q.den
      _ < 2 ^ (q.num.natAbs.log2 + 1) := by rw [hmul]; exact hnumHigh
      _ = 2 ^ (q.num.natAbs.log2 - q.den.log2 + 1 : Int) * 2 ^ q.den.log2 :=
        (two_pow_mul (by omega)).symm
      _ ≤ 2 ^ (q.num.natAbs.log2 - q.den.log2 + 1 : Int) * q.den :=
        mul_le_mul_of_nonneg_left hdenLow (by positivity)

/-- The binade of a positive number is where it lies between two powers of two. -/
theorem two_pow_binade (hq : 0 < q) : (2 : Rat) ^ binade q ≤ q ∧ q < 2 ^ (binade q + 1) := by
  obtain ⟨hlow, hhigh⟩ := two_pow_log2 hq
  unfold binade
  dsimp only
  split_ifs with h
  · exact ⟨h, hhigh⟩
  · refine ⟨hlow.le, ?_⟩
    rw [sub_add_cancel]
    exact not_le.1 h

theorem spacing_eq (q : Rat) : spacing q = max (binade |q| - 23) (-149) := by
  unfold spacing
  split_ifs with h
  · rw [abs_of_neg h]
  · rw [abs_of_nonneg (not_lt.1 h)]

theorem abs_lt_two_pow_spacing (hq : q ≠ 0) : |q| < 2 ^ 24 * 2 ^ spacing q := by
  have hspacing : binade |q| - 23 ≤ spacing q := spacing_eq q ▸ le_max_left ..
  calc |q|
    _ < 2 ^ (binade |q| + 1) := (two_pow_binade (abs_pos.2 hq)).2
    _ ≤ 2 ^ (spacing q + (24 : Nat)) :=
      zpow_le_zpow_right₀ one_le_two (by push_cast; linarith)
    _ = 2 ^ 24 * 2 ^ spacing q := two_pow_add ..

/-- Unless the distance is the smallest there is, a number is at least half of the number at which
the distance doubles. -/
theorem two_pow_spacing_le_abs (hq : q ≠ 0) (h : -149 < spacing q) :
    2 ^ 23 * 2 ^ spacing q ≤ |q| := by
  have hspacing : binade |q| = spacing q + (23 : Nat) := by
    rw [spacing_eq] at h ⊢
    omega
  calc (2 : Rat) ^ 23 * 2 ^ spacing q
    _ = 2 ^ binade |q| := by rw [hspacing, two_pow_add]
    _ ≤ |q| := (two_pow_binade (abs_pos.2 hq)).1

/-! ## Rounding to the format -/

/-- A number of the format: a significand of twenty-four bits, or the first that has one more, times
a power of two. There is no largest exponent. -/
def Representable (v : Rat) : Prop :=
  ∃ m e : Int, |m| ≤ 2 ^ 24 ∧ -149 ≤ e ∧ v = m * 2 ^ e

/-- A multiple of a power of two, rounded, is a number of the format while it is small enough. -/
theorem representable_roundToInt (he : -149 ≤ e) (hq : |q| ≤ 2 ^ 24 * 2 ^ e) :
    Representable (roundToInt (q / 2 ^ e) * 2 ^ e) := by
  have hpow : (0 : Rat) < 2 ^ e := by positivity
  refine ⟨_, e, abs_roundToInt_le ?_, he, rfl⟩
  rw [abs_div, abs_of_pos hpow, div_le_iff₀ hpow]
  exact_mod_cast hq

theorem representable_zero : Representable 0 := ⟨0, 0, by norm_num, by norm_num, by norm_num⟩

theorem representable_nearest (q : Rat) : Representable (nearest q) := by
  unfold nearest
  split_ifs with hq
  · exact representable_zero
  · refine representable_roundToInt ?_ (abs_lt_two_pow_spacing hq).le
    rw [spacing_eq]
    exact le_max_right ..

theorem abs_mul_two_pow_sub (k : Int) (q : Rat) (e : Int) :
    |k * 2 ^ e - q| = |(k : Rat) - q / 2 ^ e| * 2 ^ e := by
  have hpow : (0 : Rat) < 2 ^ e := by positivity
  rw [← abs_of_pos hpow, ← abs_mul, abs_of_pos hpow, sub_mul, div_mul_cancel₀ _ hpow.ne']

/-- Between `-b` and `b` nothing is nearer to a rational outside than the end on its side. -/
theorem eq_or_abs_sub_lt {b : Rat} (hv : |v| ≤ b) (hq : b ≤ |q|) :
    ∃ sign : Int, v = sign * b ∨ |sign * b - q| < |v - q| := by
  obtain ⟨hlow, hhigh⟩ := abs_le.1 hv
  have hb : 0 ≤ b := (abs_nonneg v).trans hv
  obtain h | h := le_total 0 q
  · rw [abs_of_nonneg h] at hq
    refine ⟨1, or_iff_not_imp_left.2 fun hne => ?_⟩
    push_cast at hne ⊢
    rw [one_mul] at hne ⊢
    rw [abs_of_nonpos (by linarith), abs_of_nonpos (by linarith)]
    linarith [lt_of_le_of_ne hhigh hne]
  · rw [abs_of_nonpos h] at hq
    refine ⟨-1, or_iff_not_imp_left.2 fun hne => ?_⟩
    push_cast at hne ⊢
    rw [neg_one_mul] at hne ⊢
    rw [abs_of_nonneg (by linarith), abs_of_nonneg (by linarith)]
    linarith [lt_of_le_of_ne hlow (Ne.symm hne)]

/-- A number of the format is a multiple of the distance around `q`, or else such a multiple is
nearer to `q`. -/
theorem Representable.exists_multiple (hv : Representable v) (hq : q ≠ 0) :
    ∃ k : Int, v = k * 2 ^ spacing q ∨ |k * 2 ^ spacing q - q| < |v - q| := by
  obtain ⟨m, e, hm, he, rfl⟩ := hv
  obtain hspacing | hspacing := le_or_gt (spacing q) e
  · obtain ⟨n, rfl⟩ := Int.le.dest hspacing
    refine ⟨m * 2 ^ n, .inl ?_⟩
    rw [two_pow_add]
    push_cast
    ring
  -- The exponent is too small for the number to reach where the distance around `q` begins.
  have hbelow : |m * (2 : Rat) ^ e| ≤ 2 ^ 23 * 2 ^ spacing q := by
    have hpow : (0 : Rat) < 2 ^ e := by positivity
    rw [abs_mul, abs_of_pos hpow]
    calc |(m : Rat)| * 2 ^ e
      _ ≤ 2 ^ 24 * 2 ^ e := mul_le_mul_of_nonneg_right (by exact_mod_cast hm) hpow.le
      _ = 2 ^ 23 * 2 ^ (e + (1 : Nat)) := by rw [two_pow_add]; ring
      _ ≤ 2 ^ 23 * 2 ^ spacing q :=
        mul_le_mul_of_nonneg_left (zpow_le_zpow_right₀ one_le_two (by push_cast; omega))
          (by positivity)
  obtain ⟨sign, h⟩ := eq_or_abs_sub_lt hbelow (two_pow_spacing_le_abs hq (he.trans_lt hspacing))
  refine ⟨sign * 2 ^ 23, ?_⟩
  push_cast
  rwa [mul_assoc]

theorem abs_nearest_sub_le_multiple (hq : q ≠ 0) (k : Int) :
    |nearest q - q| ≤ |k * 2 ^ spacing q - q| := by
  rw [nearest, if_neg hq, abs_mul_two_pow_sub, abs_mul_two_pow_sub]
  exact mul_le_mul_of_nonneg_right (abs_roundToInt_sub_le_abs _ k) (by positivity)

/-- No number of the format is nearer than the one that rounding gives. -/
theorem abs_nearest_sub_le (hv : Representable v) (q : Rat) : |nearest q - q| ≤ |v - q| := by
  by_cases hq : q = 0
  · simp [hq, nearest]
  obtain ⟨k, rfl | hk⟩ := hv.exists_multiple hq
  · exact abs_nearest_sub_le_multiple hq k
  · exact (abs_nearest_sub_le_multiple hq k).trans hk.le

/-- If another number of the format is equally near, the result has an even significand. -/
theorem nearest_even (hv : Representable v) (hne : v ≠ nearest q)
    (htie : |v - q| = |nearest q - q|) :
    ∃ m : Int, nearest q = m * 2 ^ spacing q ∧ m % 2 = 0 := by
  by_cases hq : q = 0
  · exact ⟨0, by simp [hq, nearest], rfl⟩
  have hnearest : nearest q = roundToInt (q / 2 ^ spacing q) * 2 ^ spacing q := if_neg hq
  refine ⟨_, hnearest, ?_⟩
  have hpow : (0 : Rat) < 2 ^ spacing q := by positivity
  obtain ⟨k, rfl | hk⟩ := hv.exists_multiple hq
  · rw [hnearest, abs_mul_two_pow_sub, abs_mul_two_pow_sub] at htie
    refine roundToInt_even (k := k) ?_ (mul_right_cancel₀ hpow.ne' htie)
    rintro rfl
    exact hne hnearest.symm
  · exact absurd (abs_nearest_sub_le_multiple hq k) (by rw [← htie]; exact hk.not_ge)

/-- Were the order not kept, the middle between the two results would be no more than the smaller
rational, as that went to the larger result, and no less than the larger one. -/
theorem nearest_mono (h : p ≤ q) : nearest p ≤ nearest q := by
  by_contra hlt
  have hsmaller := abs_nearest_sub_le (representable_nearest q) p
  have hlarger := abs_nearest_sub_le (representable_nearest p) q
  have hlow : nearest p + nearest q ≤ 2 * p := by grind
  have hhigh : 2 * q ≤ nearest p + nearest q := by grind
  have hequal : p = q := by linarith
  exact hlt (hequal ▸ le_rfl)

theorem nearest_of_representable (hv : Representable v) : nearest v = v := by
  have h := abs_nearest_sub_le hv v
  rw [sub_self, abs_zero, abs_nonpos_iff] at h
  exact sub_eq_zero.1 h

/-- Rounding is off by at most one half of a power of two, if the significand can count in it. -/
theorem abs_nearest_sub_le_half (he : -149 ≤ e) (hq : |q| ≤ 2 ^ 24 * 2 ^ e) :
    |nearest q - q| ≤ 2 ^ e / 2 := by
  calc |nearest q - q|
    _ ≤ |roundToInt (q / 2 ^ e) * 2 ^ e - q| :=
      abs_nearest_sub_le (representable_roundToInt he hq) q
    _ = |(roundToInt (q / 2 ^ e) : Rat) - q / 2 ^ e| * 2 ^ e := abs_mul_two_pow_sub ..
    _ ≤ 1 / 2 * 2 ^ e := mul_le_mul_of_nonneg_right (abs_roundToInt_sub_le _) (by positivity)
    _ = 2 ^ e / 2 := by ring

/-! ## Bit patterns -/

variable {x y : Binary32}

/-- The significand of a pattern as an integer; the leading bit is not written, and there is none
with the smallest exponent field. -/
def significand (x : Binary32) : Nat :=
  if x.exponentField = 0 then x.fractionField else 0x800000 + x.fractionField

def exponent (x : Binary32) : Int := (max x.exponentField 1 : Nat) - 150

theorem magnitude?_eq_some_iff :
    x.magnitude? = some v ↔ x.exponentField ≠ 0xFF ∧ v = x.significand * 2 ^ x.exponent := by
  unfold magnitude?
  by_cases hmax : x.exponentField = 0xFF
  · simp [hmax]
  by_cases hzero : x.exponentField = 0
  · simp [significand, exponent, hzero, eq_comm]
  · have hexponent : x.exponent = x.exponentField - 150 := by
      unfold exponent
      omega
    simp [significand, hexponent, hmax, hzero, eq_comm]

theorem significand_lt (x : Binary32) : x.significand < 2 ^ 24 := by
  unfold significand fractionField
  split <;> omega

theorem representable_of_value? (h : x.value? = some v) : Representable v := by
  obtain ⟨magnitude, hmagnitude, rfl⟩ := Option.map_eq_some_iff.1 h
  obtain ⟨-, rfl⟩ := magnitude?_eq_some_iff.1 hmagnitude
  have hsignificand := x.significand_lt
  have hexponent : -149 ≤ x.exponent := by
    unfold exponent
    omega
  split_ifs
  · refine ⟨-x.significand, x.exponent, ?_, hexponent, by push_cast; ring⟩
    rw [abs_neg, Nat.abs_cast]
    omega
  · refine ⟨x.significand, x.exponent, ?_, hexponent, by push_cast; ring⟩
    rw [Nat.abs_cast]
    omega

theorem nonpos_of_negative (hx : x.value? = some v) (hsign : x.negative = true) : v ≤ 0 := by
  obtain ⟨magnitude, hmagnitude, rfl⟩ := Option.map_eq_some_iff.1 hx
  obtain ⟨-, rfl⟩ := magnitude?_eq_some_iff.1 hmagnitude
  rw [if_pos hsign, neg_nonpos]
  positivity

theorem value?_eq_some_iff (hsign : x.negative = false) :
    x.value? = some v ↔ x.exponentField ≠ 0xFF ∧ v = x.significand * 2 ^ x.exponent := by
  unfold value?
  simp [hsign, magnitude?_eq_some_iff]

/-- Counted in the distance around the smaller of two patterns, the larger one has the larger
significand. -/
theorem significand_lt_mul (hx : x.negative = false) (hy : y.negative = false)
    (h : x.bits < y.bits) :
    ∃ n : Nat, y.exponent = x.exponent + n ∧ x.significand < 2 ^ n * y.significand := by
  have hlt : x.bits.toNat < y.bits.toNat := h
  simp only [negative, decide_eq_false_iff_not, not_le] at hx hy
  have hmono : x.exponentField ≤ y.exponentField := by
    unfold exponentField
    omega
  obtain hexponent | hexponent :
      y.exponent = x.exponent ∨ x.exponent < y.exponent ∧ 0 < y.exponentField := by
    unfold exponent
    omega
  · -- The exponents are the same too if one of the fields is 0 and the other 1.
    refine ⟨0, by simpa using hexponent, ?_⟩
    simp only [exponent, significand, exponentField, fractionField] at hmono hexponent ⊢
    grind
  · obtain ⟨n, hn⟩ := Int.le.dest hexponent.1.le
    refine ⟨n, hn.symm, ?_⟩
    have hleading : 2 ^ 23 ≤ y.significand := by
      rw [significand, if_neg hexponent.2.ne']
      exact Nat.le_add_right ..
    calc x.significand
      _ < 2 ^ 1 * 2 ^ 23 := x.significand_lt
      _ ≤ 2 ^ n * y.significand :=
        Nat.mul_le_mul (Nat.pow_le_pow_right Nat.zero_lt_two (by omega)) hleading

theorem value?_lt (hx : x.value? = some p) (hy : y.value? = some q) (hsignx : x.negative = false)
    (hsigny : y.negative = false) (h : x.bits < y.bits) : p < q := by
  obtain ⟨-, rfl⟩ := (value?_eq_some_iff hsignx).1 hx
  obtain ⟨-, rfl⟩ := (value?_eq_some_iff hsigny).1 hy
  obtain ⟨n, hexponent, hsignificand⟩ := significand_lt_mul hsignx hsigny h
  have hcast : (x.significand : Rat) < 2 ^ n * y.significand := by exact_mod_cast hsignificand
  calc (x.significand : Rat) * 2 ^ x.exponent
    _ < 2 ^ n * y.significand * 2 ^ x.exponent := mul_lt_mul_of_pos_right hcast (by positivity)
    _ = y.significand * 2 ^ y.exponent := by
      rw [hexponent, two_pow_add]
      ring

/-- Without a sign, patterns are ordered as the numbers that they stand for. -/
theorem value?_le_iff (hx : x.value? = some p) (hy : y.value? = some q)
    (hsignx : x.negative = false) (hsigny : y.negative = false) : p ≤ q ↔ x.bits ≤ y.bits := by
  constructor
  · intro hle
    by_contra hlt
    exact (value?_lt hy hx hsigny hsignx (UInt32.not_le.1 hlt)).not_ge hle
  · intro hle
    obtain hlt | heq := UInt32.le_iff_lt_or_eq.1 hle
    · exact (value?_lt hx hy hsignx hsigny hlt).le
    · have hpattern : x = y := congrArg Binary32.mk heq
      rw [hpattern, hy] at hx
      exact (Option.some.inj hx).ge

end Ps2Host.Binary32
