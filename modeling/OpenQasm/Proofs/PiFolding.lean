import OpenQasm.PiMultiple
import OpenQasm.Proofs.Rounding
import OpenQasm.Proofs.Separators

/-! The search for a multiple of pi, how near it is to the angle, and its text. -/
namespace OpenQasm

open Binary64

/-- A search through the numbers below a bound takes the first at which the function has a
value. -/
theorem findSome?_range_eq_some {α : Type} {f : Nat → Option α} {n : Nat} {a : α} :
    (List.range n).findSome? f = some a ↔ ∃ k < n, f k = some a ∧ ∀ j < k, f j = none := by
  induction n with
  | zero => simp
  | succ n ih =>
    rw [List.range_succ, List.findSome?_append, Option.or_eq_some_iff, ih]
    constructor
    · rintro (⟨k, hk, hfound, hnone⟩ | ⟨hnone, hlast⟩)
      · exact ⟨k, Nat.lt_succ_of_lt hk, hfound, hnone⟩
      · have hfound : f n = some a := by simpa using hlast
        have hbefore : ∀ j < n, f j = none := by simpa [List.findSome?_eq_none_iff] using hnone
        exact ⟨n, Nat.lt_succ_self n, hfound, hbefore⟩
    · rintro ⟨k, hk, hfound, hnone⟩
      rcases Nat.lt_succ_iff_lt_or_eq.mp hk with hk | rfl
      · exact .inl ⟨k, hk, hfound, hnone⟩
      · refine .inr ⟨?_, by simpa using hfound⟩
        simpa [List.findSome?_eq_none_iff] using hnone

namespace PiMultiple

/-- The test of one denominator: the product with it is finite, and the quotient of that product by
pi, rounded to a whole number, gives a numerator that is not zero, is not too large and differs from
the quotient by no more than the tolerance. -/
structure Fits (x : Binary64) (m : PiMultiple) : Prop where
  finite : (x.mul (ofInt m.denominator)).isFinite = true
  rounded : m.numerator = ((x.mul (ofInt m.denominator)).div pi).roundAway
  ne_zero : m.numerator ≠ 0
  small : m.numerator.natAbs ≤ maxNumerator
  near : (((x.mul (ofInt m.denominator)).div pi).sub (ofInt m.numerator)).magnitude ≤
    tolerance.magnitude

theorem numeratorAt_eq_some {x : Binary64} {d : Nat} {n : Int} :
    numeratorAt x d = some n ↔ Fits x ⟨n, d⟩ := by
  unfold numeratorAt
  dsimp only
  split
  · rename_i hinfinite
    simp only [reduceCtorEq, false_iff]
    intro hfits
    simp [hfits.finite] at hinfinite
  rename_i hfinite
  split
  · rename_i hbad
    simp only [reduceCtorEq, false_iff]
    intro hfits
    rw [← hfits.rounded] at hbad
    exact hbad.elim hfits.ne_zero (Nat.not_lt.mpr hfits.small)
  rename_i hgood
  obtain ⟨hne, hsmall⟩ := not_or.mp hgood
  split
  · rename_i hfar
    simp only [reduceCtorEq, false_iff]
    intro hfits
    rw [← hfits.rounded] at hfar
    exact not_lt.mpr hfits.near hfar
  · rename_i hnear
    rw [Option.some.injEq]
    constructor
    · rintro rfl
      exact ⟨by simpa using hfinite, rfl, hne, Nat.not_lt.mp hsmall, not_lt.mp hnear⟩
    · exact fun hfits => hfits.rounded.symm

/-- The search gives the first denominator that fits, with its numerator. -/
theorem of?_eq_some {x : Binary64} {m : PiMultiple} :
    of? x = some m ↔ x.isFinite = true ∧ x.isZero = false ∧ 1 ≤ m.denominator ∧
      m.denominator ≤ maxDenominator ∧ Fits x m ∧
      ∀ m', 1 ≤ m'.denominator → m'.denominator < m.denominator → ¬ Fits x m' := by
  unfold of?
  split
  · rename_i h
    simp only [reduceCtorEq, false_iff]
    rintro ⟨hfinite, hzero, -⟩
    simp [hfinite, hzero] at h
  · rename_i h
    obtain ⟨hfinite, hzero⟩ : x.isFinite = true ∧ x.isZero = false := by simpa using h
    rw [findSome?_range_eq_some]
    simp only [hfinite, hzero, true_and, Option.map_eq_some_iff, Option.map_eq_none_iff]
    constructor
    · rintro ⟨k, hk, ⟨n, hn, rfl⟩, hnone⟩
      refine ⟨Nat.succ_pos k, hk, numeratorAt_eq_some.mp hn, ?_⟩
      intro m' hpos hlt hfits
      have hd := hnone (m'.denominator - 1) (by change m'.denominator < k + 1 at hlt; omega)
      rw [Nat.sub_add_cancel hpos, numeratorAt_eq_some.mpr hfits] at hd
      exact Option.some_ne_none _ hd
    · rintro ⟨hpos, hle, hfits, hleast⟩
      refine ⟨m.denominator - 1, by omega, ?_, ?_⟩
      · rw [Nat.sub_add_cancel hpos]
        exact ⟨m.numerator, numeratorAt_eq_some.mpr hfits, rfl⟩
      · intro j hj
        rw [Option.eq_none_iff_forall_ne_some]
        intro n hn
        exact hleast ⟨n, j + 1⟩ (Nat.succ_pos j) (by change j + 1 < _; omega)
          (numeratorAt_eq_some.mp hn)

theorem relativeError_le : relativeError ≤ 1 / 10 ^ 15 := by
  norm_num [relativeError]

theorem absoluteError_le : absoluteError ≤ 1 / 10 ^ 15 :=
  (zpow_le_zpow_right₀ one_le_two (by decide)).trans relativeError_le

theorem tolerance_le : tolerance.magnitude ≤ 1001 / 10 ^ 13 := by
  decide +kernel

theorem one_le_pi : 1 ≤ pi.toRat := by
  decide +kernel

theorem pi_pos : 0 < pi.toRat := one_pos.trans_le one_le_pi

theorem pi_div_pos {d : Nat} (h : 1 ≤ d) : 0 < pi.toRat / d :=
  div_pos pi_pos (Nat.cast_pos.mpr h)

/-- Three roundings on the way from `a` to a difference within the tolerance leave `a` near to `n`.
The bound is relative to `n`, which takes up the part of the errors that grows with `a`. -/
theorem abs_sub_le_of_roundings {a b ratio n difference : ℚ} (hn : 1 ≤ |n|)
    (hb : |b - a| ≤ relativeError * |a| + absoluteError)
    (hratio : |ratio - b| ≤ relativeError * |b| + absoluteError)
    (hdifference : |difference - (ratio - n)| ≤ relativeError * |ratio - n| + absoluteError)
    (htolerance : |difference| ≤ tolerance.magnitude) : |a - n| ≤ 101 / 10 ^ 12 * |n| := by
  have hrelative (y : ℚ) : relativeError * |y| ≤ 1 / 10 ^ 15 * |y| :=
    mul_le_mul_of_nonneg_right relativeError_le (abs_nonneg y)
  have habsolute := absoluteError_le
  have hbound := tolerance_le
  have hrest := abs_sub_abs_le_abs_sub (ratio - n) difference
  have ha := abs_sub_abs_le_abs_sub a n
  have hb' := abs_sub_abs_le_abs_sub b a
  have hsum : |a - n| ≤ |a - b| + |b - ratio| + |ratio - n| :=
    (abs_sub_le a ratio n).trans (add_le_add_left (abs_sub_le a b ratio) _)
  rw [abs_sub_comm a b, abs_sub_comm b ratio] at hsum
  rw [abs_sub_comm (ratio - n)] at hrest
  linarith [hrelative a, hrelative b, hrelative (ratio - n)]

theorem isFinite_of_magnitude_le {y : Binary64} (h : y.magnitude ≤ maxNumerator + 1) :
    y.isFinite = true := by
  apply isFinite_of_magnitude_lt
  have hsmall : (maxNumerator + 1 : ℚ) < 2 ^ (20 : Int) := by norm_num [maxNumerator]
  exact (h.trans_lt hsmall).trans_le (zpow_le_zpow_right₀ one_le_two (by decide))

/-- The number that the multiple stands for, with the number nearest to pi in place of pi. -/
def toRat (m : PiMultiple) : ℚ := m.numerator * pi.toRat / m.denominator

theorem abs_toRat_eq (m : PiMultiple) :
    |m.toRat| = |(m.numerator : ℚ)| * pi.toRat / m.denominator := by
  rw [toRat, abs_div, abs_mul, abs_of_pos pi_pos, Nat.abs_cast]

namespace Fits

variable {x : Binary64} {m : PiMultiple}

theorem one_le_abs (h : Fits x m) : 1 ≤ |(m.numerator : ℚ)| := by
  exact_mod_cast Int.one_le_abs h.ne_zero

theorem isFinite_ratio (h : Fits x m) :
    ((x.mul (ofInt m.denominator)).div pi).isFinite = true := by
  have hround := abs_sub_roundAway_le ((x.mul (ofInt m.denominator)).div pi)
  have hrest := abs_sub_abs_le_abs_sub ((x.mul (ofInt m.denominator)).div pi).toRat m.numerator
  have hsmall : |(m.numerator : ℚ)| ≤ maxNumerator := by
    rw [← Int.cast_abs, Int.abs_eq_natAbs, Int.cast_natCast]
    exact_mod_cast h.small
  rw [← h.rounded] at hround
  rw [abs_toRat] at hrest
  exact isFinite_of_magnitude_le (by linarith)

theorem isFinite_difference (h : Fits x m) :
    (((x.mul (ofInt m.denominator)).div pi).sub (ofInt m.numerator)).isFinite = true := by
  have htolerance : tolerance.magnitude ≤ maxNumerator + 1 :=
    tolerance_le.trans (by norm_num [maxNumerator])
  exact isFinite_of_magnitude_le (h.near.trans htolerance)

/-- The exact quotient is near to the numerator: its distance is the tolerance and what the
product, the quotient and the difference lose in rounding. -/
theorem abs_quotient_sub_le (h : Fits x m) (hd : m.denominator ≤ maxDenominator) :
    |x.toRat * m.denominator / pi.toRat - m.numerator| ≤ 101 / 10 ^ 12 * |(m.numerator : ℚ)| := by
  have hdenominator : (ofInt m.denominator).toRat = m.denominator := by
    rw [toRat_ofInt (by simp only [Int.natAbs_natCast]; unfold maxDenominator at hd; omega)]
    rfl
  have hnumerator : (ofInt m.numerator).toRat = m.numerator :=
    toRat_ofInt (h.small.trans_lt (by decide))
  have hproduct : |(x.mul (ofInt m.denominator)).toRat - x.toRat * m.denominator| ≤
      relativeError * |x.toRat * m.denominator| + absoluteError := by
    rw [← hdenominator]
    exact abs_toRat_ofRat_sub_le h.finite
  have hdifference := abs_toRat_ofRat_sub_le h.isFinite_difference
  have hnear := h.near
  rw [Binary64.sub, ← abs_toRat] at hnear
  rw [hnumerator] at hdifference hnear
  refine abs_sub_le_of_roundings h.one_le_abs ?_ (abs_toRat_ofRat_sub_le h.isFinite_ratio)
    hdifference hnear
  calc |(x.mul (ofInt m.denominator)).toRat / pi.toRat - x.toRat * m.denominator / pi.toRat|
    _ = |(x.mul (ofInt m.denominator)).toRat - x.toRat * m.denominator| / pi.toRat := by
      rw [← sub_div, abs_div, abs_of_pos pi_pos]
    _ ≤ (relativeError * |x.toRat * m.denominator| + absoluteError) / pi.toRat :=
      div_le_div_of_nonneg_right hproduct pi_pos.le
    _ = relativeError * |x.toRat * m.denominator / pi.toRat| + absoluteError / pi.toRat := by
      rw [abs_div, abs_of_pos pi_pos]
      ring
    _ ≤ relativeError * |x.toRat * m.denominator / pi.toRat| + absoluteError :=
      add_le_add_right (div_le_self absoluteError_pos.le one_le_pi) _

theorem abs_sub_toRat_le (h : Fits x m) (hpos : 1 ≤ m.denominator)
    (hd : m.denominator ≤ maxDenominator) :
    |x.toRat - m.toRat| ≤ 101 / 10 ^ 12 * |m.toRat| := by
  have hunit := pi_div_pos hpos
  have hpi := pi_pos.ne'
  have hden : (m.denominator : ℚ) ≠ 0 := Nat.cast_ne_zero.mpr (Nat.one_le_iff_ne_zero.mp hpos)
  have hscale : x.toRat - m.toRat =
      (x.toRat * m.denominator / pi.toRat - m.numerator) * (pi.toRat / m.denominator) := by
    unfold toRat
    field_simp
  calc |x.toRat - m.toRat|
    _ = |x.toRat * m.denominator / pi.toRat - m.numerator| * (pi.toRat / m.denominator) := by
      rw [hscale, abs_mul, abs_of_pos hunit]
    _ ≤ 101 / 10 ^ 12 * |(m.numerator : ℚ)| * (pi.toRat / m.denominator) :=
      mul_le_mul_of_nonneg_right (h.abs_quotient_sub_le hd) hunit.le
    _ = 101 / 10 ^ 12 * |m.toRat| := by
      rw [abs_toRat_eq]
      ring

theorem numerator_neg_iff (h : Fits x m) (hpos : 1 ≤ m.denominator)
    (hd : m.denominator ≤ maxDenominator) : m.numerator < 0 ↔ x.isNegative = true := by
  have hnear := h.abs_sub_toRat_le hpos hd
  have hunit := pi_div_pos hpos
  have hvalue : m.toRat = m.numerator * (pi.toRat / m.denominator) := mul_div_assoc ..
  have hmagnitude : 0 ≤ x.magnitude := abs_toRat x ▸ abs_nonneg _
  obtain ⟨hlow, hhigh⟩ := abs_le.mp hnear
  -- The bound is less than the value itself, so the angle lies on the same side of zero.
  rcases lt_or_gt_of_ne h.ne_zero with hneg | hgt
  · refine iff_of_true hneg ?_
    have hside : m.toRat < 0 := by
      rw [hvalue]
      exact mul_neg_of_neg_of_pos (by exact_mod_cast hneg) hunit
    rw [abs_of_neg hside] at hhigh
    by_contra hsign
    rw [Binary64.toRat, if_neg hsign] at hhigh
    linarith
  · refine iff_of_false (not_lt.mpr hgt.le) ?_
    have hside : 0 < m.toRat := by
      rw [hvalue]
      exact mul_pos (by exact_mod_cast hgt) hunit
    rw [abs_of_pos hside] at hlow
    intro hsign
    rw [Binary64.toRat, if_pos hsign] at hlow
    linarith

end Fits

/-- The six forms in which a multiple of pi is written. -/
inductive Spelled : PiMultiple → String → Prop where
  | pi : Spelled ⟨1, 1⟩ "pi"
  | negated : Spelled ⟨-1, 1⟩ "-pi"
  | multiple {n : Int} (h : n ≠ 1) (h' : n ≠ -1) : Spelled ⟨n, 1⟩ (toString n ++ "*pi")
  | part {d : Nat} (h : d ≠ 1) : Spelled ⟨1, d⟩ ("pi/" ++ toString d)
  | negatedPart {d : Nat} (h : d ≠ 1) : Spelled ⟨-1, d⟩ ("-pi/" ++ toString d)
  | fraction {n : Int} {d : Nat} (h : n ≠ 1) (h' : n ≠ -1) (hd : d ≠ 1) :
    Spelled ⟨n, d⟩ (toString n ++ "*pi/" ++ toString d)

theorem spelled_iff {m : PiMultiple} {t : String} : Spelled m t ↔ t = m.text := by
  constructor
  · intro h
    cases h <;> simp_all [text, ← String.toList_inj]
  · rintro rfl
    obtain ⟨n, d⟩ := m
    unfold text
    dsimp only
    split_ifs with hd hn hn' hn hn'
    · subst hd hn
      exact .pi
    · subst hd hn'
      exact .negated
    · subst hd
      exact .multiple hn hn'
    · subst hn
      exact .part hd
    · subst hn'
      exact .negatedPart hd
    · have hslash : toString n ++ "*pi" ++ "/" = toString n ++ "*pi/" := String.append_assoc
      exact hslash ▸ .fraction hn hn' hd

/-- What the text has before `pi`. -/
def factorText (n : Int) : String :=
  if n = 1 then "" else if n = -1 then "-" else toString n ++ "*"

/-- What the text has after `pi`. -/
def divisorText (d : Nat) : String := if d = 1 then "" else "/" ++ toString d

theorem text_eq (m : PiMultiple) :
    m.text = factorText m.numerator ++ "pi" ++ divisorText m.denominator := by
  unfold text factorText divisorText
  split_ifs <;> simp [← String.toList_inj]

theorem avoids_toString_int (z : Int) : Avoids ['/'] (toString z) := by
  rw [Int.toString_eq_repr, Int.repr_eq_if]
  split
  · exact avoids_toString_nat (by simp) _
  · exact avoids_append.mpr ⟨by decide, avoids_toString_nat (by simp) _⟩

theorem ne_append_star {s t : String} (h : Avoids ['*'] s) : s ≠ t ++ "*" := by
  rintro rfl
  exact (avoids_append.mp h).2 '*' (by simp) (by simp)

theorem factorText_inj {n n' : Int} (h : factorText n = factorText n') : n = n' := by
  unfold factorText at h
  split_ifs at h with hone hone' hminus' hminus hone' hminus' hone' hminus'
  · rw [hone, hone']
  · exact absurd h (by decide)
  · exact absurd h (ne_append_star (by decide))
  · exact absurd h (by decide)
  · rw [hminus, hminus']
  · exact absurd h (ne_append_star (by decide))
  · exact absurd h.symm (ne_append_star (by decide))
  · exact absurd h.symm (ne_append_star (by decide))
  · exact Int.repr_injective ((String.append_left_inj "*").mp h)

theorem divisorText_inj {d d' : Nat} (h : divisorText d = divisorText d') : d = d' := by
  unfold divisorText at h
  split_ifs at h with hd hd' hd'
  · rw [hd, hd']
  · simp [← String.toList_inj] at h
  · simp [← String.toList_inj] at h
  · exact Nat.repr_injective ((String.append_right_inj "/").mp h)

theorem avoids_factorText (n : Int) : Avoids ['/'] (factorText n) := by
  unfold factorText
  split_ifs
  · decide
  · decide
  · exact avoids_append.mpr ⟨avoids_toString_int n, by decide⟩

theorem beginsIn_divisorText (d : Nat) : BeginsIn ['/'] (divisorText d) := by
  unfold divisorText
  split_ifs <;> simp [BeginsIn]

theorem text_inj {m m' : PiMultiple} (h : m.text = m'.text) : m = m' := by
  rw [text_eq, text_eq] at h
  have htop (n : Int) : Avoids ['/'] (factorText n ++ "pi") :=
    avoids_append.mpr ⟨avoids_factorText n, by decide⟩
  obtain ⟨hfactor, hdivisor⟩ := text_append_inj (htop _) (htop _) (beginsIn_divisorText _)
    (beginsIn_divisorText _) h
  have hnumerator := factorText_inj ((String.append_left_inj "pi").mp hfactor)
  have hdenominator := divisorText_inj hdivisor
  cases m
  cases m'
  rw [mk.injEq]
  exact ⟨hnumerator, hdenominator⟩

theorem not_avoids_text (m : PiMultiple) : ¬ Avoids ['p'] m.text := by
  intro h
  rw [text_eq, avoids_append, avoids_append] at h
  exact h.1.2 'p' (by simp) (by simp)

end PiMultiple

theorem Binary64.avoids_literal (x : Binary64) : Avoids ['p'] x.literal := by
  unfold literal signedText
  refine avoids_append.mpr ⟨x.avoids_signText (by simp), ?_⟩
  split_ifs
  · decide
  · decide
  · intro c hc
    rw [String.toList_ofList] at hc
    exact Decimal.forall_mem_text (fun _ => notMem_of_isDigit (by simp)) (by simp) _ c hc

open PiMultiple

/-- An angle has a symbolic text exactly when it is finite, not zero and some denominator up to 16
passes the test. The text is that of the multiple `n * pi / d` with the least such denominator,
which has the sign of the angle and differs from it by at most `1.01e-10` of its own size.
Different multiples have different texts, and no literal is among them. -/
theorem piText_accurate_and_least :
    (∀ (x : Binary64) (t : String), x.piText? = some t ↔
      x.isFinite = true ∧ x.isZero = false ∧ ∃ m : PiMultiple,
        1 ≤ m.denominator ∧ m.denominator ≤ 16 ∧ 0 < |m.numerator| ∧ |m.numerator| ≤ 10 ^ 6 ∧
        m.Spelled t ∧ (m.numerator < 0 ↔ x.isNegative = true) ∧
        |x.toRat - m.numerator * pi.toRat / m.denominator| ≤
          101 / 10 ^ 12 * (|(m.numerator : ℚ)| * pi.toRat / m.denominator) ∧
        m.Fits x ∧ ∀ m' : PiMultiple,
          1 ≤ m'.denominator → m'.denominator < m.denominator → ¬ m'.Fits x) ∧
    (∀ (m m' : PiMultiple) (t : String), m.Spelled t → m'.Spelled t → m = m') ∧
    ∀ (m : PiMultiple) (t : String), m.Spelled t → ∀ w : Binary64, t ≠ w.literal := by
  refine ⟨?_, ?_, ?_⟩
  · intro x t
    rw [piText?, Option.map_eq_some_iff]
    constructor
    · rintro ⟨m, hfound, rfl⟩
      obtain ⟨hfinite, hzero, hpos, hd, hfits, hleast⟩ := of?_eq_some.mp hfound
      have hsmall : |m.numerator| ≤ 10 ^ 6 := by
        rw [Int.abs_eq_natAbs]
        exact_mod_cast hfits.small
      have hnear := hfits.abs_sub_toRat_le hpos hd
      rw [abs_toRat_eq] at hnear
      exact ⟨hfinite, hzero, m, hpos, hd, abs_pos.mpr hfits.ne_zero, hsmall, spelled_iff.mpr rfl,
        hfits.numerator_neg_iff hpos hd, hnear, hfits, hleast⟩
    · rintro ⟨hfinite, hzero, m, hpos, hd, -, -, hspelled, -, -, hfits, hleast⟩
      exact ⟨m, of?_eq_some.mpr ⟨hfinite, hzero, hpos, hd, hfits, hleast⟩,
        (spelled_iff.mp hspelled).symm⟩
  · intro m m' t h h'
    exact text_inj ((spelled_iff.mp h).symm.trans (spelled_iff.mp h'))
  · rintro m t h w rfl
    exact m.not_avoids_text (spelled_iff.mp h ▸ w.avoids_literal)

/-- An angle a little off `-13 * pi / 16`. -/
def offAngle : Binary64 := ⟨0xC0046B9C34780F47⟩

theorem offAngle_folded :
    offAngle.piText? = some "-13*pi/16" ∧ Fits offAngle ⟨-13, 16⟩ ∧
      |offAngle.toRat - -13 * pi.toRat / 16| ≤ 101 / 10 ^ 12 * (13 * pi.toRat / 16) ∧
      ∀ w : Binary64, "-13*pi/16" ≠ w.literal := by
  obtain ⟨hfolds, hunique, hliteral⟩ := piText_accurate_and_least
  have htext : offAngle.piText? = some "-13*pi/16" := by decide +kernel
  have hspelled : Spelled ⟨-13, 16⟩ "-13*pi/16" := spelled_iff.mpr (by decide +kernel)
  obtain ⟨-, -, m, -, -, -, -, hm, -, hnear, hfits, -⟩ := (hfolds offAngle _).mp htext
  obtain rfl := hunique _ _ _ hm hspelled
  exact ⟨htext, hfits, by simpa using hnear, hliteral _ _ hspelled⟩

end OpenQasm
