import OpenQasm.Proofs.PiFolding

/-! Angles computed as multiples of pi are found with their denominator in lowest terms. -/
namespace OpenQasm

open Binary64

/-- A little more than the relative error of one rounding, to take up the products of errors. -/
def roundingUnit : ℚ := 1112 / 10 ^ 19

/-- The number `y` is off `t` by the relative errors of `k` roundings at most. -/
def WithinRoundings (k : Nat) (t y : ℚ) : Prop := |y - t| ≤ k * (roundingUnit * |t|)

namespace WithinRoundings

variable {k : Nat} {t y : ℚ}

theorem refl (t : ℚ) : WithinRoundings 0 t t := by
  simp [WithinRoundings]

theorem mul (h : WithinRoundings k t y) (c : ℚ) : WithinRoundings k (t * c) (y * c) := by
  unfold WithinRoundings at *
  calc |y * c - t * c| = |y - t| * |c| := by rw [← sub_mul, abs_mul]
    _ ≤ k * (roundingUnit * |t|) * |c| := mul_le_mul_of_nonneg_right h (abs_nonneg c)
    _ = k * (roundingUnit * |t * c|) := by
      rw [abs_mul]
      ring

theorem div (h : WithinRoundings k t y) (c : ℚ) : WithinRoundings k (t / c) (y / c) := by
  simpa only [div_eq_mul_inv] using h.mul c⁻¹

theorem le_four (h : WithinRoundings k t y) (hk : k ≤ 4) :
    |y - t| ≤ 4 * (roundingUnit * |t|) := by
  have hk' : (k : ℚ) ≤ 4 := by exact_mod_cast hk
  have hunit : 0 ≤ roundingUnit * |t| := mul_nonneg (by norm_num [roundingUnit]) (abs_nonneg t)
  exact h.trans (mul_le_mul_of_nonneg_right hk' hunit)

/-- One more rounding, in a range where none of the numbers is tiny or huge. -/
theorem round (h : WithinRoundings k t y) (hk : k ≤ 4) (hlow : 1 / 16 ≤ |t|)
    (hhigh : |t| ≤ 10 ^ 7) :
    (ofRat y).isFinite = true ∧ WithinRoundings (k + 1) t (ofRat y).toRat := by
  have hnear := h.le_four hk
  have hsize := abs_sub_abs_le_abs_sub y t
  have hfinite : (ofRat y).isFinite = true := by
    apply isFinite_ofRat
    have hrange : |y| < 2 ^ (30 : Int) := by
      unfold roundingUnit at hnear
      norm_num
      linarith
    exact hrange.trans_le (zpow_le_zpow_right₀ one_le_two (by decide))
  refine ⟨hfinite, ?_⟩
  have hrelative : relativeError * |y| ≤ 11103 / 10 ^ 20 * |y| :=
    mul_le_mul_of_nonneg_right (by norm_num [relativeError]) (abs_nonneg y)
  have habsolute : absoluteError ≤ 1 / 10 ^ 25 :=
    (zpow_le_zpow_right₀ one_le_two (by decide : (-1075 : Int) ≤ -100)).trans (by norm_num)
  have hround := abs_toRat_ofRat_sub_le hfinite
  have hsum := abs_sub_le (ofRat y).toRat y t
  unfold WithinRoundings at *
  unfold roundingUnit at *
  push_cast
  linarith

end WithinRoundings

namespace PiMultiple

/-- The number computed for the multiple: a rounded product and a rounded quotient. -/
def computed (m : PiMultiple) : Binary64 :=
  ((ofInt m.numerator).mul pi).div (ofInt m.denominator)

def fraction (m : PiMultiple) : ℚ := m.numerator / m.denominator

/-- The multiple in lowest terms. -/
def reduced (m : PiMultiple) : PiMultiple := ⟨m.fraction.num, m.fraction.den⟩

/-- A numerator of at most a hundred thousand over a denominator that the search tries. -/
structure Moderate (m : PiMultiple) : Prop where
  ne_zero : m.numerator ≠ 0
  small : |m.numerator| ≤ 100000
  pos : 1 ≤ m.denominator
  le : m.denominator ≤ 16

theorem abs_fraction (m : PiMultiple) : |m.fraction| = |(m.numerator : ℚ)| / m.denominator := by
  rw [fraction, abs_div, Nat.abs_cast]

theorem pi_le : pi.toRat ≤ 4 := by
  decide +kernel

theorem abs_mul_pi_range {a : ℚ} (hlow : 1 / 16 ≤ |a|) (hhigh : |a| ≤ 2000000) :
    1 / 16 ≤ |a * pi.toRat| ∧ |a * pi.toRat| ≤ 10 ^ 7 := by
  rw [abs_mul, abs_of_pos pi_pos]
  refine ⟨hlow.trans (le_mul_of_one_le_right (abs_nonneg a) one_le_pi), ?_⟩
  exact (mul_le_mul hhigh pi_le pi_pos.le (by norm_num)).trans (by norm_num)

theorem mul_pi_div_pi (a b : ℚ) : a * pi.toRat * b / pi.toRat = a * b := by
  rw [mul_right_comm, mul_div_assoc, div_self pi_pos.ne', mul_one]

theorem tolerance_ge : 999 / 10 ^ 13 ≤ tolerance.magnitude := by
  decide +kernel

theorem abs_cast_le {n : Int} {b : Nat} (h : n.natAbs ≤ b) : |(n : ℚ)| ≤ b := by
  rw [← Int.cast_abs, Int.abs_eq_natAbs, Int.cast_natCast]
  exact_mod_cast h

theorem toRat_ofInt_denominator {d : Nat} (h : d ≤ 16) : (ofInt d).toRat = d := by
  rw [toRat_ofInt (by rw [Int.natAbs_natCast]; omega)]
  rfl

/-- The test is passed when the quotient is half the tolerance away from the numerator. -/
theorem fits_of_near {x : Binary64} {m : PiMultiple}
    (hfinite : (x.mul (ofInt m.denominator)).isFinite = true)
    (hnear : |((x.mul (ofInt m.denominator)).div pi).toRat - m.numerator| ≤ 5 / 10 ^ 11)
    (hne : m.numerator ≠ 0) (hsmall : m.numerator.natAbs ≤ maxNumerator) : Fits x m := by
  refine ⟨hfinite, (roundAway_eq (hnear.trans_lt (by norm_num))).symm, hne, hsmall, ?_⟩
  have hnumerator : (ofInt m.numerator).toRat = m.numerator :=
    toRat_ofInt (hsmall.trans_lt (by decide))
  rw [Binary64.sub, ← abs_toRat, hnumerator]
  set difference := ((x.mul (ofInt m.denominator)).div pi).toRat - m.numerator
  have hrange : |difference| < 2 ^ (0 : Int) := hnear.trans_lt (by norm_num)
  have hfin := isFinite_ofRat (hrange.trans_le (zpow_le_zpow_right₀ one_le_two (by decide)))
  have hround := abs_toRat_ofRat_sub_le hfin
  have hsize := abs_sub_abs_le_abs_sub (ofRat difference).toRat difference
  have hrelative : relativeError * |difference| ≤ 1 / 10 ^ 15 * |difference| :=
    mul_le_mul_of_nonneg_right relativeError_le (abs_nonneg _)
  linarith [absoluteError_le, tolerance_ge]

namespace Moderate

variable {m : PiMultiple} (h : Moderate m)
include h

theorem one_le_abs : 1 ≤ |(m.numerator : ℚ)| := by
  exact_mod_cast Int.one_le_abs h.ne_zero

theorem abs_numerator_le : |(m.numerator : ℚ)| ≤ 100000 := by
  exact_mod_cast h.small

theorem one_le_denominator : (1 : ℚ) ≤ m.denominator := by
  exact_mod_cast h.pos

theorem denominator_le : (m.denominator : ℚ) ≤ 16 := by
  exact_mod_cast h.le

theorem natAbs_le : m.numerator.natAbs ≤ 100000 := by
  have hsmall := h.small
  rw [Int.abs_eq_natAbs] at hsmall
  exact_mod_cast hsmall

theorem le_abs_fraction : 1 / 16 ≤ |m.fraction| := by
  have hden := h.one_le_denominator
  rw [abs_fraction]
  exact div_le_div₀ (abs_nonneg _) h.one_le_abs (by linarith) h.denominator_le

theorem abs_fraction_le : |m.fraction| ≤ 100000 := by
  rw [abs_fraction]
  exact (div_le_self (abs_nonneg _) h.one_le_denominator).trans h.abs_numerator_le

/-- The number computed for a multiple is off by two roundings. -/
theorem computed_near :
    m.computed.isFinite = true ∧
      WithinRoundings 2 (m.fraction * pi.toRat) m.computed.toRat := by
  have hvalue : (m.numerator : ℚ) * pi.toRat / m.denominator = m.fraction * pi.toRat := by
    rw [fraction]
    ring
  obtain ⟨hnlow, hnhigh⟩ := abs_mul_pi_range (a := m.numerator)
    ((by norm_num : (1 / 16 : ℚ) ≤ 1).trans h.one_le_abs)
    (h.abs_numerator_le.trans (by norm_num))
  obtain ⟨hlow, hhigh⟩ := abs_mul_pi_range h.le_abs_fraction
    (h.abs_fraction_le.trans (by norm_num))
  obtain ⟨-, hmul⟩ := (WithinRoundings.refl ((m.numerator : ℚ) * pi.toRat)).round (by omega)
    hnlow hnhigh
  have hdiv := hmul.div m.denominator
  rw [hvalue] at hdiv
  have hround := hdiv.round (by omega) hlow hhigh
  rwa [computed, Binary64.div, Binary64.mul, toRat_ofInt (h.natAbs_le.trans_lt (by decide)),
    toRat_ofInt_denominator h.le]

theorem abs_fraction_mul_le {d : Nat} (hd : d ≤ 16) : |m.fraction * d| ≤ 1600000 := by
  have hd' : (d : ℚ) ≤ 16 := by exact_mod_cast hd
  rw [abs_mul, Nat.abs_cast]
  exact (mul_le_mul h.abs_fraction_le hd' d.cast_nonneg (by norm_num)).trans (by norm_num)

/-- The tested quotient is off by two more. -/
theorem ratio_near {d : Nat} (hd : 1 ≤ d) (hd' : d ≤ 16) :
    (m.computed.mul (ofInt d)).isFinite = true ∧
      WithinRoundings 4 (m.fraction * d) ((m.computed.mul (ofInt d)).div pi).toRat := by
  have hdlow : (1 : ℚ) ≤ d := by exact_mod_cast hd
  have hlow : 1 / 16 ≤ |m.fraction * d| := by
    rw [abs_mul, Nat.abs_cast]
    exact h.le_abs_fraction.trans (le_mul_of_one_le_right (abs_nonneg _) hdlow)
  have hhigh := h.abs_fraction_mul_le hd'
  obtain ⟨hplow, hphigh⟩ := abs_mul_pi_range hlow (hhigh.trans (by norm_num))
  rw [mul_right_comm] at hplow hphigh
  obtain ⟨hfinite, hmul⟩ := (h.computed_near.2.mul d).round (by omega) hplow hphigh
  have hdiv := hmul.div pi.toRat
  rw [mul_pi_div_pi] at hdiv
  have hround := hdiv.round (by omega) hlow (hhigh.trans (by norm_num))
  rw [Binary64.div, Binary64.mul, toRat_ofInt_denominator hd']
  exact ⟨hfinite, hround.2⟩

omit h in
theorem fraction_eq_divInt (m : PiMultiple) :
    m.fraction = Rat.divInt m.numerator m.denominator := by
  rw [← Rat.intCast_div_eq_divInt, Int.cast_natCast, fraction]

theorem reduced_denominator_le : m.reduced.denominator ≤ 16 := by
  have hdvd : ((m.fraction.den : Nat) : Int) ∣ m.denominator := by
    rw [fraction_eq_divInt]
    exact Rat.den_dvd m.numerator m.denominator
  exact (Nat.le_of_dvd h.pos (Int.natCast_dvd_natCast.mp hdvd)).trans h.le

theorem reduced_numerator_le : m.reduced.numerator.natAbs ≤ 100000 := by
  have hdvd : m.fraction.num ∣ m.numerator := by
    rw [fraction_eq_divInt]
    exact Rat.num_dvd m.numerator (Nat.cast_ne_zero.mpr (Nat.one_le_iff_ne_zero.mp h.pos))
  have hle := Nat.le_of_dvd (Int.natAbs_pos.mpr h.ne_zero) (Int.natAbs_dvd_natAbs.mpr hdvd)
  exact hle.trans h.natAbs_le

theorem reduced_numerator_ne_zero : m.reduced.numerator ≠ 0 := by
  have hlow := h.le_abs_fraction
  intro hzero
  rw [Rat.num_eq_zero.mp hzero, abs_zero] at hlow
  norm_num at hlow

/-- In lowest terms the multiple passes the test. -/
theorem fits_reduced : Fits m.computed m.reduced := by
  obtain ⟨hfinite, hratio⟩ := h.ratio_near m.fraction.den_pos h.reduced_denominator_le
  rw [Rat.mul_den_eq_num] at hratio
  have hsmall : |(m.fraction.num : ℚ)| ≤ (100000 : Nat) := abs_cast_le h.reduced_numerator_le
  refine fits_of_near hfinite ?_ h.reduced_numerator_ne_zero
    (h.reduced_numerator_le.trans (by decide))
  have hfour := hratio.le_four le_rfl
  unfold roundingUnit at hfour
  push_cast at hsmall
  exact hfour.trans (by linarith)

/-- A fraction that is near to a whole number of parts is one, so its least denominator is no
greater than their number. -/
theorem reduced_denominator_le_of_near {n : Int} {d : Nat} (hd : 1 ≤ d)
    (hnear : |m.fraction * d - n| < 1 / 16) : m.reduced.denominator ≤ d := by
  have hden := h.one_le_denominator
  have hpos : (0 : ℚ) < m.denominator := by linarith
  have hcross : |(m.numerator * d - n * m.denominator : Int)| < 1 := by
    have hcast : |(m.numerator : ℚ) * d - n * m.denominator| < 1 := by
      calc |(m.numerator : ℚ) * d - n * m.denominator|
        _ = |m.fraction * d - n| * m.denominator := by
          rw [← abs_of_pos hpos, ← abs_mul, abs_of_pos hpos, fraction]
          congr 1
          field_simp
        _ < 1 / 16 * m.denominator := mul_lt_mul_of_pos_right hnear hpos
        _ ≤ 1 := by linarith [h.denominator_le]
    exact_mod_cast hcast
  have hequal : m.numerator * d = n * m.denominator :=
    sub_eq_zero.mp (Int.abs_lt_one_iff.mp hcross)
  have hfraction : m.fraction = Rat.divInt n d := by
    rw [fraction_eq_divInt, Rat.divInt_eq_divInt_iff]
    · exact hequal
    · exact Nat.cast_ne_zero.mpr (Nat.one_le_iff_ne_zero.mp h.pos)
    · exact Nat.cast_ne_zero.mpr (Nat.one_le_iff_ne_zero.mp hd)
  have hdvd : ((m.fraction.den : Nat) : Int) ∣ d := by
    rw [hfraction]
    exact Rat.den_dvd n d
  exact Nat.le_of_dvd hd (Int.natCast_dvd_natCast.mp hdvd)

/-- A smaller denominator fails the test. -/
theorem not_fits {m' : PiMultiple} (hpos : 1 ≤ m'.denominator)
    (hlt : m'.denominator < m.reduced.denominator) : ¬ Fits m.computed m' := by
  intro hfits
  have hd : m'.denominator ≤ 16 := hlt.le.trans h.reduced_denominator_le
  have hquotient := hfits.abs_quotient_sub_le hd
  have hsmall : |(m'.numerator : ℚ)| ≤ maxNumerator := abs_cast_le hfits.small
  have hcomputed := (h.computed_near.2.mul m'.denominator).div pi.toRat
  rw [mul_pi_div_pi] at hcomputed
  have herror := hcomputed.le_four (by omega)
  have hsize := h.abs_fraction_mul_le hd
  have hnear : |m.fraction * m'.denominator - m'.numerator| < 1 / 16 := by
    refine (abs_sub_le _ (m.computed.toRat * m'.denominator / pi.toRat) _).trans_lt ?_
    rw [abs_sub_comm (m.fraction * m'.denominator)]
    unfold roundingUnit at herror
    unfold maxNumerator at hsmall
    push_cast at hsmall
    linarith
  exact Nat.not_lt.mpr (h.reduced_denominator_le_of_near hpos hnear) hlt

theorem computed_not_zero : m.computed.isZero = false := by
  rw [← Bool.not_eq_true, ← toRat_eq_zero_iff]
  intro hzero
  have hnear := h.computed_near.2.le_four (by omega)
  rw [hzero, zero_sub, abs_neg, abs_mul, abs_of_pos pi_pos] at hnear
  have hvalue : 0 < |m.fraction| * pi.toRat :=
    mul_pos (one_div_pos.mpr (by norm_num) |>.trans_le h.le_abs_fraction) pi_pos
  unfold roundingUnit at hnear
  linarith

theorem of?_computed : of? m.computed = some m.reduced :=
  of?_eq_some.mpr ⟨h.computed_near.1, h.computed_not_zero, m.fraction.den_pos,
    h.reduced_denominator_le, h.fits_reduced, fun _ => h.not_fits⟩

end Moderate
end PiMultiple

open PiMultiple

/-- The number computed for `n * pi / d` folds to the text of the fraction in lowest terms. -/
theorem computed_multiples_fold_to_lowest_terms (n : Int) (d : Nat) (hd : 1 ≤ d) (hd' : d ≤ 16)
    (hn : 0 < |n|) (hn' : |n| ≤ 100000) :
    ∃ t, (((ofInt n).mul pi).div (ofInt d)).piText? = some t ∧
      Spelled ⟨((n : ℚ) / d).num, ((n : ℚ) / d).den⟩ t := by
  have hmoderate : Moderate ⟨n, d⟩ := ⟨abs_pos.mp hn, hn', hd, hd'⟩
  have hfound : of? (((ofInt n).mul pi).div (ofInt d)) = some (reduced ⟨n, d⟩) :=
    hmoderate.of?_computed
  refine ⟨(reduced ⟨n, d⟩).text, ?_, spelled_iff.mpr rfl⟩
  rw [piText?, hfound, Option.map_some]

theorem fifteenths_fold_to_fifths :
    (1 ≤ 15 ∧ 15 ≤ 16 ∧ 0 < |(-99999 : Int)| ∧ |(-99999 : Int)| ≤ 100000) ∧
      (((ofInt (-99999)).mul pi).div (ofInt 15)).piText? = some "-33333*pi/5" := by
  refine ⟨by decide, ?_⟩
  obtain ⟨t, hfolded, hspelled⟩ := computed_multiples_fold_to_lowest_terms (-99999) 15
    (by decide) (by decide) (by decide) (by decide)
  have htext : t = "-33333*pi/5" := by
    rw [spelled_iff.mp hspelled]
    decide +kernel
  exact htext ▸ hfolded

end OpenQasm
