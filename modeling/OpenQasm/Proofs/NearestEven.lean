import OpenQasm.Proofs.Rounding

/-! Rounding gives the nearest number, a tie going to the even significand. -/

namespace OpenQasm.Binary64

/-- The bits without the sign. -/
def rank (x : Binary64) : Nat := x.bits.toNat % 2 ^ 63

theorem rank_lt (x : Binary64) : x.rank < 2 ^ 63 := Nat.mod_lt _ (by decide)

theorem rank_bits {sign n : Nat} (hsign : sign = 0 ∨ sign = 2 ^ 63) (hn : n < 2 ^ 63) :
    (⟨UInt64.ofNat (sign + n)⟩ : Binary64).rank = n := by
  rw [rank, toNat_bits hsign hn]
  omega

theorem exponentField_eq (x : Binary64) : x.exponentField = x.rank / 2 ^ 52 := by
  unfold exponentField rank
  change x.bits.toNat / 2 ^ 52 % 2 ^ 11 = _
  omega

theorem fractionField_eq (x : Binary64) : x.fractionField = x.rank % 2 ^ 52 := by
  unfold fractionField rank
  change x.bits.toNat % 2 ^ 52 = _
  omega

theorem significand_eq (x : Binary64) :
    x.significand = if x.rank / 2 ^ 52 = 0 then x.rank % 2 ^ 52 else 2 ^ 52 + x.rank % 2 ^ 52 := by
  unfold significand
  rw [exponentField_eq, fractionField_eq]
  rfl

theorem scale_eq (x : Binary64) : x.scale = (max (x.rank / 2 ^ 52) 1 : Nat) - 1075 := by
  rw [scale, exponentField_eq]

theorem significand_lt (x : Binary64) : x.significand < 2 ^ 53 := by
  rw [significand_eq]
  split <;> omega

theorem significand_le (x : Binary64) : (x.significand : ℚ) ≤ 2 ^ 53 - 1 :=
  le_sub_iff_add_le.mpr (by exact_mod_cast x.significand_lt)

theorem scale_ge (x : Binary64) : -1074 ≤ x.scale := by
  rw [scale_eq]
  omega

theorem scale_least_or_normal (x : Binary64) : x.scale = -1074 ∨ 2 ^ 52 ≤ x.significand := by
  rw [significand_eq, scale_eq]
  split
  · left
    omega
  · right
    omega

theorem rank_eq (x : Binary64) :
    x.rank = (x.scale + 1074).toNat * 2 ^ 52 + x.significand := by
  rw [significand_eq, scale_eq]
  split <;> omega

theorem rank_mod_two (x : Binary64) : x.rank % 2 = x.significand % 2 := by
  rw [significand_mod_two, rank]
  omega

theorem isFinite_iff_rank (x : Binary64) : x.isFinite = true ↔ x.rank < 2047 * 2 ^ 52 := by
  rw [isFinite, bne_iff_ne, exponentField_eq]
  have := x.rank_lt
  omega

/-- A number on a finer grid is less than those with all their digits on a coarser one. -/
theorem magnitude_lt_two_pow {x : Binary64} {e : Int} (h : x.scale < e) :
    x.magnitude < 2 ^ (e + 52) := by
  have hlt : (x.significand : ℚ) < 2 ^ 53 := by exact_mod_cast x.significand_lt
  calc x.magnitude < 2 ^ 53 * 2 ^ x.scale := mul_lt_mul_of_pos_right hlt (zpow_pos two_pos _)
    _ = 2 ^ (53 + x.scale) := by rw [zpow_add₀ two_ne_zero]; rfl
    _ ≤ 2 ^ (e + 52) := zpow_le_zpow_right₀ one_le_two (by omega)

theorem two_pow_le_magnitude {x : Binary64} (h : 2 ^ 52 ≤ x.significand) :
    2 ^ (x.scale + 52) ≤ x.magnitude := by
  have hle : (2 ^ 52 : ℚ) ≤ x.significand := by exact_mod_cast h
  calc (2 : ℚ) ^ (x.scale + 52) = 2 ^ 52 * 2 ^ x.scale := by
        rw [add_comm, zpow_add₀ two_ne_zero]; rfl
    _ ≤ x.magnitude := mul_le_mul_of_nonneg_right hle (zpow_pos two_pos _).le

theorem magnitude_lt_of_rank_lt {x y : Binary64} (h : x.rank < y.rank) :
    x.magnitude < y.magnitude := by
  rw [rank_eq, rank_eq] at h
  have hx := x.scale_ge
  have hy := y.scale_ge
  rcases lt_trichotomy x.scale y.scale with hlt | heq | hgt
  · have hnormal : 2 ^ 52 ≤ y.significand := y.scale_least_or_normal.resolve_left (by omega)
    exact (magnitude_lt_two_pow hlt).trans_le (two_pow_le_magnitude hnormal)
  · have hless : (x.significand : ℚ) < y.significand := by
      rw [heq] at h
      exact_mod_cast Nat.lt_of_add_lt_add_left h
    rw [magnitude, magnitude, heq]
    exact mul_lt_mul_of_pos_right hless (zpow_pos two_pos _)
  · have hnormal : 2 ^ 52 ≤ x.significand := x.scale_least_or_normal.resolve_left (by omega)
    have htop := y.significand_lt
    omega

theorem magnitude_eq_of_rank_eq {x y : Binary64} (h : x.rank = y.rank) :
    x.magnitude = y.magnitude := by
  rw [magnitude, magnitude, significand_eq, significand_eq, scale_eq, scale_eq, h]

/-- The bits without the sign count the magnitudes upwards. -/
theorem rank_lt_iff {x y : Binary64} : x.rank < y.rank ↔ x.magnitude < y.magnitude := by
  refine ⟨magnitude_lt_of_rank_lt, fun h => ?_⟩
  rcases lt_trichotomy x.rank y.rank with hlt | heq | hgt
  · exact hlt
  · exact absurd (magnitude_eq_of_rank_eq heq) h.ne
  · exact absurd h (magnitude_lt_of_rank_lt hgt).not_gt

/-- A number is known by its sign and its magnitude. -/
theorem eq_of_magnitude {x y : Binary64} (hsign : x.isNegative = y.isNegative)
    (h : x.magnitude = y.magnitude) : x = y := by
  have hrank : x.rank = y.rank := by
    refine le_antisymm (not_lt.mp ?_) (not_lt.mp ?_)
    · rw [rank_lt_iff, h]
      exact lt_irrefl _
    · rw [rank_lt_iff, h]
      exact lt_irrefl _
  have hbits : x.bits.toNat = y.bits.toNat := by
    have hx := x.bits.toNat_lt
    have hy := y.bits.toNat_lt
    unfold isNegative at hsign
    have : Nat.pow 2 63 = 2 ^ 63 := rfl
    rw [decide_eq_decide, this] at hsign
    unfold rank at hrank
    omega
  cases x
  cases y
  exact congrArg mk (UInt64.toNat_inj.mp hbits)

theorem exists_rank (negative : Bool) {n : Nat} (h : n < 2 ^ 63) :
    ∃ z : Binary64, z.isNegative = negative ∧ z.rank = n := by
  cases negative with
  | false =>
    exact ⟨⟨UInt64.ofNat (0 + n)⟩, isNegative_bits (.inl rfl) h, rank_bits (.inl rfl) h⟩
  | true =>
    exact ⟨⟨UInt64.ofNat (2 ^ 63 + n)⟩, isNegative_bits (.inr rfl) h, rank_bits (.inr rfl) h⟩

/-- Numbers that differ in sign only. -/
structure Opposite (x y : Binary64) : Prop where
  rank_eq : x.rank = y.rank
  isNegative_eq : x.isNegative = !y.isNegative

namespace Opposite

variable {x y : Binary64}

theorem symm (h : Opposite x y) : Opposite y x :=
  ⟨h.rank_eq.symm, by rw [h.isNegative_eq, Bool.not_not]⟩

theorem isFinite_iff (h : Opposite x y) : x.isFinite = true ↔ y.isFinite = true := by
  rw [isFinite_iff_rank, isFinite_iff_rank, h.rank_eq]

theorem toRat_eq (h : Opposite x y) : y.toRat = -x.toRat := by
  unfold toRat
  rw [h.isNegative_eq, magnitude_eq_of_rank_eq h.rank_eq]
  cases y.isNegative <;> simp

end Opposite

theorem exists_opposite (x : Binary64) : ∃ y, Opposite x y := by
  obtain ⟨y, hsign, hrank⟩ := exists_rank (!x.isNegative) x.rank_lt
  exact ⟨y, hrank.symm, by rw [hsign, Bool.not_not]⟩

theorem on_grid_of_le {x : Binary64} {e : Int} (h : e ≤ x.scale) :
    ∃ j : Nat, x.magnitude = j * 2 ^ e := by
  obtain ⟨n, hn⟩ := Int.eq_ofNat_of_zero_le (sub_nonneg.mpr h)
  have hscale : x.scale = n + e := by omega
  refine ⟨x.significand * 2 ^ n, ?_⟩
  rw [magnitude, hscale, zpow_add₀ two_ne_zero, zpow_natCast]
  push_cast
  ring

/-- A number lies on a given grid, unless it is too small to have all its digits there. -/
theorem on_grid_or_lt (x : Binary64) (e : Int) :
    (∃ j : Nat, x.magnitude = j * 2 ^ e) ∨ (-1074 < e ∧ x.magnitude < 2 ^ (e + 52)) := by
  rcases le_or_gt e x.scale with hle | hlt
  · exact .inl (on_grid_of_le hle)
  · exact .inr ⟨x.scale_ge.trans_lt hlt, magnitude_lt_two_pow hlt⟩

/-- Two multiples of one step are a step apart at least. -/
theorem step_le_abs_sub {j q : Nat} (hne : j ≠ q) (e : Int) :
    (2 : ℚ) ^ e ≤ |(j : ℚ) * 2 ^ e - q * 2 ^ e| := by
  have hpos : (0 : ℚ) < 2 ^ e := zpow_pos two_pos e
  have hint : (1 : Int) ≤ |(j : Int) - q| := Int.one_le_abs (by omega)
  have hstep : (1 : ℚ) ≤ |(j : ℚ) - q| := by exact_mod_cast hint
  rw [← sub_mul, abs_mul, abs_of_pos hpos]
  exact le_mul_of_one_le_left hpos.le hstep

section
variable {r : ℚ} {e : Int} {q : Nat} (h : OnGrid r e q)
include h

/-- Every other multiple is half a step away at least. -/
theorem OnGrid.half_le_of_ne {j : Nat} (hne : j ≠ q) : (2 : ℚ) ^ e / 2 ≤ |j * 2 ^ e - r| := by
  have hapart := step_le_abs_sub hne e
  have hsum := abs_sub_le ((j : ℚ) * 2 ^ e) r (q * 2 ^ e)
  have hnear := h.near
  rw [abs_sub_comm] at hnear
  linarith

theorem OnGrid.le_multiple (j : Nat) : |(q : ℚ) * 2 ^ e - r| ≤ |j * 2 ^ e - r| := by
  by_cases hj : j = q
  · rw [hj]
  · exact h.near.trans (h.half_le_of_ne hj)

/-- A number below the grid is farther off than the least one with all its digits on it. -/
theorem OnGrid.lt_of_below {x : Binary64} (he : -1074 < e) (hx : x.magnitude < 2 ^ (e + 52)) :
    |(q : ℚ) * 2 ^ e - r| < |x.magnitude - r| := by
  obtain ⟨-, hlow⟩ := h.normal.resolve_left he.ne'
  have hleast := h.le_multiple (2 ^ 52)
  have hpower : ((2 ^ 52 : Nat) : ℚ) * 2 ^ e = 2 ^ (e + 52) := by
    rw [add_comm, zpow_add₀ two_ne_zero]
    norm_cast
  rw [hpower, abs_of_nonpos (sub_nonpos.mpr hlow)] at hleast
  rw [abs_of_neg (sub_neg.mpr (hx.trans_le hlow))]
  linarith

theorem OnGrid.nearest (x : Binary64) : |(q : ℚ) * 2 ^ e - r| ≤ |x.magnitude - r| := by
  rcases x.on_grid_or_lt e with ⟨j, hj⟩ | ⟨he, hx⟩
  · rw [hj]
    exact h.le_multiple j
  · exact (h.lt_of_below he hx).le

theorem OnGrid.even_of_tie {x : Binary64} (hne : x.magnitude ≠ q * 2 ^ e)
    (htie : |x.magnitude - r| = |(q : ℚ) * 2 ^ e - r|) : q % 2 = 0 := by
  rcases x.on_grid_or_lt e with ⟨j, hj⟩ | ⟨he, hx⟩
  · have hjq : j ≠ q := by
      rintro rfl
      exact hne hj
    rw [hj] at htie
    exact h.even (le_antisymm h.near (htie ▸ h.half_le_of_ne hjq))
  · exact absurd htie (h.lt_of_below he hx).ne'

end

/-- Half a step above the largest finite number. -/
def overflow : ℚ := (2 ^ 54 - 1) * 2 ^ (970 : Int)

/-- The finite number `x` is the one to which `r` rounds: no finite number is nearer, and where
another is as near the significand of `x` is even. From `overflow` on nothing rounds to a finite
number. -/
structure RoundsTo (r : ℚ) (x : Binary64) : Prop where
  finite : x.isFinite = true
  inRange : |r| < overflow
  nearest : ∀ y : Binary64, y.isFinite = true → |x.toRat - r| ≤ |y.toRat - r|
  even : ∀ y : Binary64, y.isFinite = true → y.toRat ≠ x.toRat →
    |y.toRat - r| = |x.toRat - r| → x.significand % 2 = 0

theorem overflow_pos : 0 < overflow := mul_pos (by norm_num) (zpow_pos two_pos _)

theorem two_zpow_971 : (2 : ℚ) ^ (971 : Int) = 2 * 2 ^ (970 : Int) := by
  rw [← zpow_one_add₀ two_ne_zero]
  rfl

/-- Half a step above the largest finite number is a tie, and that number is odd. -/
theorem OnGrid.lt_overflow {r : ℚ} {e : Int} {q : Nat} (h : OnGrid r e q)
    (hfinite : (e + 1074).toNat * 2 ^ 52 + q < 2047 * 2 ^ 52) : r < overflow := by
  have hnear := (abs_le.mp h.near).1
  have htop := h.top
  have he : e ≤ 971 := by
    rcases h.normal with hmin | ⟨hq, -⟩ <;> omega
  unfold overflow
  rcases he.lt_or_eq with hlt | rfl
  · have hq : (q : ℚ) ≤ 2 ^ 53 := by exact_mod_cast htop
    have hstep : (2 : ℚ) ^ e ≤ 2 ^ (970 : Int) := zpow_le_zpow_right₀ one_le_two (by omega)
    have hproduct : (q : ℚ) * 2 ^ e ≤ 2 ^ 53 * 2 ^ (970 : Int) :=
      mul_le_mul hq hstep (zpow_pos two_pos _).le (by norm_num)
    have hpos : (0 : ℚ) < 2 ^ (970 : Int) := zpow_pos two_pos _
    generalize (2 : ℚ) ^ (970 : Int) = half at *
    linarith
  · have heven := h.even
    rw [two_zpow_971] at hnear heven
    have hpos : (0 : ℚ) < 2 ^ (970 : Int) := zpow_pos two_pos _
    generalize (2 : ℚ) ^ (970 : Int) = half at *
    rcases (by omega : q + 2 ≤ 2 ^ 53 ∨ q + 1 = 2 ^ 53) with hq | hq
    · have hq' : (q : ℚ) + 2 ≤ 2 ^ 53 := by exact_mod_cast hq
      linarith [mul_le_mul_of_nonneg_right hq' hpos.le]
    · have hq' : (q : ℚ) = 2 ^ 53 - 1 := eq_sub_of_add_eq (by exact_mod_cast hq)
      rw [hq'] at hnear heven
      refine lt_of_le_of_ne (by linarith) ?_
      rintro rfl
      have htie : (2 ^ 53 - 1) * (2 * half) - (2 ^ 54 - 1) * half = -half := by ring
      have hparity : q % 2 = 0 := heven (by rw [htie, abs_neg, abs_of_pos hpos]; ring)
      omega

theorem OnGrid.finite_of_lt {r : ℚ} {e : Int} {q : Nat} (h : OnGrid r e q) (hr : r < overflow) :
    (e + 1074).toNat * 2 ^ 52 + q < 2047 * 2 ^ 52 := by
  have hpos : (0 : ℚ) < 2 ^ (970 : Int) := zpow_pos two_pos _
  have htop := h.top
  have he : e ≤ 971 := by
    rcases h.normal with rfl | ⟨-, hlow⟩
    · norm_num
    · have hlt : (2 : ℚ) ^ (e + 52) < 2 ^ (1024 : Int) := by
        refine (hlow.trans_lt hr).trans ?_
        have hsplit : (2 : ℚ) ^ (1024 : Int) = 2 ^ 54 * 2 ^ (970 : Int) := by
          rw [← zpow_natCast, ← zpow_add₀ two_ne_zero]
          rfl
        rw [hsplit, overflow]
        exact mul_lt_mul_of_pos_right (by norm_num) hpos
      have := (zpow_lt_zpow_iff_right₀ one_lt_two).mp hlt
      omega
  by_contra hbig
  obtain ⟨rfl, rfl⟩ : e = 971 ∧ q = 2 ^ 53 := by omega
  have hnear := (abs_le.mp h.near).2
  rw [two_zpow_971] at hnear
  unfold overflow at hr
  generalize (2 : ℚ) ^ (970 : Int) = half at *
  push_cast at hnear
  linarith

theorem isFinite_ofRat_iff (r : ℚ) : (ofRat r).isFinite = true ↔ |r| < overflow := by
  by_cases hr : r = 0
  · subst hr
    rw [abs_zero]
    exact iff_of_true rfl overflow_pos
  · obtain ⟨e, q, hgrid, hfinite, -⟩ := exists_ofRat hr
    rw [hfinite]
    exact ⟨hgrid.lt_overflow, hgrid.finite_of_lt⟩

theorem abs_magnitude_sub_le (x : Binary64) (r : ℚ) :
    |x.magnitude - (|r|)| ≤ |x.toRat - r| := by
  rw [← abs_toRat]
  exact abs_abs_sub_abs_le x.toRat r

/-- Between numbers of one sign the distance is that of the magnitudes. -/
theorem abs_toRat_sub_eq {x : Binary64} {r : ℚ} (h : x.isNegative = decide (r < 0)) :
    |x.toRat - r| = |x.magnitude - (|r|)| := by
  unfold toRat
  rw [h]
  by_cases hr : r < 0
  · rw [decide_eq_true hr, if_pos rfl, abs_of_neg hr, ← abs_neg]
    congr 1
    ring
  · rw [decide_eq_false hr, if_neg Bool.false_ne_true, abs_of_nonneg (not_lt.mp hr)]

/-- Rounding returns the nearest number, halfway between two the one with the even significand. -/
theorem roundsTo_ofRat {r : ℚ} (h : (ofRat r).isFinite = true) : RoundsTo r (ofRat r) := by
  have hrange := (isFinite_ofRat_iff r).mp h
  by_cases hr : r = 0
  · subst hr
    have hzero : (ofRat 0).toRat = 0 := toRat_zero
    refine ⟨h, hrange, fun y _ => ?_, fun y _ _ _ => rfl⟩
    rw [hzero, sub_zero, abs_zero]
    exact abs_nonneg _
  obtain ⟨e, q, hgrid, -, hvalue, hparity⟩ := exists_ofRat hr
  have hmagnitude : (ofRat r).magnitude = q * 2 ^ e := by
    have hnonneg : (0 : ℚ) ≤ q * 2 ^ e := by positivity
    rw [← abs_toRat, hvalue h]
    split
    · rw [abs_neg, abs_of_nonneg hnonneg]
    · exact abs_of_nonneg hnonneg
  have hdistance := abs_toRat_sub_eq (isNegative_ofRat r)
  rw [hmagnitude] at hdistance
  refine ⟨h, hrange, fun y _ => ?_, fun y _ hne htie => ?_⟩
  · rw [hdistance]
    exact (hgrid.nearest y).trans (abs_magnitude_sub_le y r)
  by_cases hsame : y.magnitude = q * 2 ^ e
  · -- A number of the other sign is as near only if both are zero.
    rw [← hmagnitude, ← abs_toRat, ← abs_toRat] at hsame
    have hopposite := (abs_eq_abs.mp hsame).resolve_left hne
    rw [hopposite] at htie hne
    rcases abs_eq_abs.mp htie with hleft | hright
    · exact absurd (by linarith) hne
    · exact absurd (by linarith) hr
  · rw [hparity h]
    refine hgrid.even_of_tie hsame (le_antisymm ?_ (hgrid.nearest y))
    rw [← hdistance, ← htie]
    exact abs_magnitude_sub_le y r

theorem magnitude_le_largest {x : Binary64} (h : x.isFinite = true) :
    x.magnitude ≤ (2 ^ 54 - 2) * 2 ^ (970 : Int) := by
  have hrank := x.isFinite_iff_rank.mp h
  have hscale : x.scale ≤ 971 := by
    rw [scale_eq]
    omega
  calc x.magnitude ≤ (2 ^ 53 - 1) * 2 ^ (971 : Int) :=
        mul_le_mul x.significand_le (zpow_le_zpow_right₀ one_le_two hscale) (zpow_pos two_pos _).le
          (by norm_num)
    _ = (2 ^ 54 - 2) * 2 ^ (970 : Int) := by
      rw [two_zpow_971]
      generalize (2 : ℚ) ^ (970 : Int) = half
      ring

theorem magnitude_lt_overflow {x : Binary64} (h : x.isFinite = true) : x.magnitude < overflow :=
  (magnitude_le_largest h).trans_lt
    (mul_lt_mul_of_pos_right (by norm_num) (zpow_pos two_pos _))

/-- What lies between two points is nearer to a point halfway between them. -/
theorem abs_sub_lt_of_between {a b c r : ℚ} (htie : |b - r| = |a - r|)
    (hc : a < c ∧ c < b ∨ b < c ∧ c < a) : |c - r| < |a - r| := by
  rcases abs_eq_abs.mp htie with hsame | hmiddle
  · rcases hc with ⟨_, _⟩ | ⟨_, _⟩ <;> linarith
  · rcases hc with ⟨hleft, hright⟩ | ⟨hleft, hright⟩
    · rw [abs_of_neg (by linarith : a - r < 0), abs_lt]
      constructor <;> linarith
    · rw [abs_of_pos (by linarith : 0 < a - r), abs_lt]
      constructor <;> linarith

namespace RoundsTo

variable {r s : ℚ} {x y : Binary64}

theorem self (h : x.isFinite = true) : RoundsTo x.toRat x := by
  refine ⟨h, abs_toRat x ▸ magnitude_lt_overflow h, fun y _ => ?_, fun y _ hne htie => ?_⟩
  · rw [sub_self, abs_zero]
    exact abs_nonneg _
  · rw [sub_self, abs_zero, abs_eq_zero, sub_eq_zero] at htie
    exact absurd htie hne

/-- What rounds to a number does so from every point on the way to it. -/
theorem of_between (h : RoundsTo r x) (hs : r ≤ s ∧ s ≤ x.toRat ∨ x.toRat ≤ s ∧ s ≤ r) :
    RoundsTo s x := by
  have hway : |x.toRat - r| = |x.toRat - s| + |s - r| := by
    rcases hs with ⟨hleft, hright⟩ | ⟨hleft, hright⟩
    · rw [abs_of_nonneg (by linarith), abs_of_nonneg (by linarith), abs_of_nonneg (by linarith)]
      ring
    · rw [abs_of_nonpos (by linarith), abs_of_nonpos (by linarith), abs_of_nonpos (by linarith)]
      ring
  have hrange : |s| < overflow := by
    have hx : |x.toRat| < overflow := abs_toRat x ▸ magnitude_lt_overflow h.finite
    have hr := abs_lt.mp h.inRange
    rw [abs_lt] at hx ⊢
    rcases hs with ⟨hleft, hright⟩ | ⟨hleft, hright⟩ <;> constructor <;> linarith
  refine ⟨h.finite, hrange, fun y hy => ?_, fun y hy hne htie => ?_⟩
  · have hnearest := h.nearest y hy
    have hdetour := abs_sub_le y.toRat s r
    linarith
  · have hnearest := h.nearest y hy
    have hdetour := abs_sub_le y.toRat s r
    exact h.even y hy hne (by linarith)

/-- Of two even numbers of one sign that are as near, neither is the smaller: another number would
lie between them. -/
theorem not_magnitude_lt (hx : RoundsTo r x) (hy : RoundsTo r y)
    (hsign : x.isNegative = y.isNegative) : ¬ x.magnitude < y.magnitude := by
  intro hlt
  have htie : |y.toRat - r| = |x.toRat - r| :=
    le_antisymm (hy.nearest x hx.finite) (hx.nearest y hy.finite)
  have hne : y.toRat ≠ x.toRat := by
    intro heq
    rw [← abs_toRat, ← abs_toRat, heq] at hlt
    exact lt_irrefl _ hlt
  have hxeven := hx.even y hy.finite hne htie
  have hyeven := hy.even x hx.finite hne.symm htie.symm
  have hrank := rank_lt_iff.mpr hlt
  have hylt := y.isFinite_iff_rank.mp hy.finite
  rw [← rank_mod_two] at hxeven hyeven
  -- Both ranks are even, so the next one after that of `x` is still less than that of `y`.
  obtain ⟨z, hzsign, hzrank⟩ := exists_rank x.isNegative (n := x.rank + 1) (by omega)
  have hxz : x.magnitude < z.magnitude := rank_lt_iff.mp (by omega)
  have hzy : z.magnitude < y.magnitude := rank_lt_iff.mp (by omega)
  have hbetween : x.toRat < z.toRat ∧ z.toRat < y.toRat ∨
      y.toRat < z.toRat ∧ z.toRat < x.toRat := by
    unfold toRat
    rw [hzsign, ← hsign]
    split
    · exact .inr ⟨neg_lt_neg hzy, neg_lt_neg hxz⟩
    · exact .inl ⟨hxz, hzy⟩
  have hzfinite : z.isFinite = true := z.isFinite_iff_rank.mpr (by omega)
  exact absurd (abs_sub_lt_of_between htie hbetween) (hx.nearest z hzfinite).not_gt

/-- At most one number of each sign is the nearest even one. -/
theorem unique (hx : RoundsTo r x) (hy : RoundsTo r y) (hsign : x.isNegative = y.isNegative) :
    x = y :=
  eq_of_magnitude hsign (le_antisymm (not_lt.mp (hy.not_magnitude_lt hx hsign.symm))
    (not_lt.mp (hx.not_magnitude_lt hy hsign)))

/-- Rounding is the same on both sides of zero. -/
theorem neg (h : RoundsTo r x) (hy : Opposite x y) : RoundsTo (-r) y := by
  have hflip (z z' : Binary64) (hz : Opposite z z') : |z'.toRat - -r| = |z.toRat - r| := by
    rw [hz.toRat_eq, ← abs_neg]
    congr 1
    ring
  refine ⟨hy.isFinite_iff.mp h.finite, (abs_neg r).symm ▸ h.inRange, fun z hz => ?_,
    fun z hz hne htie => ?_⟩
  · obtain ⟨z', hz'⟩ := exists_opposite z
    rw [hflip x y hy, hflip z' z hz'.symm]
    exact h.nearest z' (hz'.isFinite_iff.mp hz)
  · obtain ⟨z', hz'⟩ := exists_opposite z
    rw [hflip x y hy, hflip z' z hz'.symm] at htie
    rw [← rank_mod_two, ← hy.rank_eq, rank_mod_two]
    refine h.even z' (hz'.isFinite_iff.mp hz) (fun heq => hne ?_) htie
    rw [hy.toRat_eq, hz'.symm.toRat_eq, heq]

end RoundsTo

/-- The computation and the description of rounding agree. -/
theorem ofRat_eq_iff {r : ℚ} {x : Binary64} (hx : x.isFinite = true) :
    ofRat r = x ↔ RoundsTo r x ∧ x.isNegative = decide (r < 0) := by
  constructor
  · rintro rfl
    exact ⟨roundsTo_ofRat hx, isNegative_ofRat r⟩
  · rintro ⟨hround, hsign⟩
    have hfinite := (isFinite_ofRat_iff r).mpr hround.inRange
    exact (roundsTo_ofRat hfinite).unique hround ((isNegative_ofRat r).trans hsign.symm)

/-- The number below a power of two is the nearest in proportion. -/
theorem relativeError_mul_le_magnitude_sub {x y : Binary64} (hne : y.magnitude ≠ x.magnitude) :
    relativeError * x.magnitude ≤ |y.magnitude - x.magnitude| := by
  have hpos : (0 : ℚ) < 2 ^ x.scale := zpow_pos two_pos _
  rcases le_or_gt x.scale y.scale with hle | hlt
  · obtain ⟨j, hj⟩ := on_grid_of_le hle
    have hsmall : relativeError * x.significand ≤ 1 := by
      have htop : (x.significand : ℚ) ≤ 2 ^ 53 := by exact_mod_cast x.significand_lt.le
      norm_num [relativeError]
      linarith
    rw [hj] at hne ⊢
    calc relativeError * x.magnitude = relativeError * x.significand * 2 ^ x.scale := by
          rw [magnitude, mul_assoc]
      _ ≤ 2 ^ x.scale := mul_le_of_le_one_left hpos.le hsmall
      _ ≤ |(j : ℚ) * 2 ^ x.scale - x.significand * 2 ^ x.scale| :=
        step_le_abs_sub (fun h => hne (by rw [h, magnitude])) _
  · have hnormal : 2 ^ 52 ≤ x.significand :=
      x.scale_least_or_normal.resolve_left (y.scale_ge.trans_lt hlt).ne'
    have hx : x.magnitude = 2 * x.significand * 2 ^ (x.scale - 1) := by
      rw [magnitude, zpow_sub_one₀ two_ne_zero]
      ring
    have hy : y.magnitude ≤ (2 ^ 53 - 1) * 2 ^ (x.scale - 1) :=
      mul_le_mul (significand_le y) (zpow_le_zpow_right₀ one_le_two (by omega))
        (zpow_pos two_pos _).le (by norm_num)
    have hlarge : (2 ^ 52 : ℚ) ≤ x.significand := by exact_mod_cast hnormal
    have hexcess : 0 ≤ 2 * x.significand - relativeError * (2 * x.significand) - (2 ^ 53 - 1) := by
      norm_num [relativeError]
      linarith
    have hscaled := mul_nonneg hexcess (zpow_pos two_pos (x.scale - 1)).le
    rw [abs_sub_comm]
    refine le_trans ?_ (le_abs_self _)
    rw [hx]
    linarith

theorem relativeError_mul_le_toRat_sub {x y : Binary64} (hne : y.toRat ≠ x.toRat) :
    relativeError * x.magnitude ≤ |y.toRat - x.toRat| := by
  by_cases hsame : y.magnitude = x.magnitude
  · have hopposite := (abs_eq_abs.mp (by rwa [abs_toRat, abs_toRat])).resolve_left hne
    have hdouble : |-x.toRat - x.toRat| = 2 * x.magnitude := by
      rw [← abs_toRat, ← abs_neg, ← abs_two, ← abs_mul]
      congr 1
      ring
    have hnonneg : 0 ≤ x.magnitude := abs_toRat x ▸ abs_nonneg _
    rw [hopposite, hdouble]
    exact mul_le_mul_of_nonneg_right (by norm_num [relativeError]) hnonneg
  · exact (relativeError_mul_le_magnitude_sub hsame).trans
      (abs_toRat x ▸ abs_magnitude_sub_le y x.toRat)

/-- What agrees with a number to sixteen decimal digits rounds to it. -/
theorem roundsTo_of_close {x : Binary64} {r : ℚ} (hfinite : x.isFinite = true)
    (hx : 0 < x.magnitude) (hclose : |x.toRat - r| ≤ x.magnitude / (2 * 10 ^ 16)) :
    RoundsTo r x := by
  have hunit : 1 / 10 ^ 16 < relativeError := by norm_num [relativeError]
  have hstrict (y : Binary64) (hne : y.toRat ≠ x.toRat) : |x.toRat - r| < |y.toRat - r| := by
    have hgap := relativeError_mul_le_toRat_sub hne
    have hscaled := mul_lt_mul_of_pos_right hunit hx
    have hsum := abs_sub_le y.toRat r x.toRat
    rw [abs_sub_comm r] at hsum
    linarith
  have hrange : |r| < overflow := by
    have hlargest := magnitude_le_largest hfinite
    have hsum := abs_sub_abs_le_abs_sub r x.toRat
    rw [abs_toRat, abs_sub_comm] at hsum
    have hhalf : (0 : ℚ) < 2 ^ (970 : Int) := zpow_pos two_pos _
    unfold overflow
    generalize (2 : ℚ) ^ (970 : Int) = half at *
    linarith
  refine ⟨hfinite, hrange, fun y _ => ?_, fun y _ hne htie => ?_⟩
  · by_cases hne : y.toRat = x.toRat
    · rw [hne]
    · exact (hstrict y hne).le
  · exact absurd htie (hstrict y hne).ne'

end OpenQasm.Binary64
