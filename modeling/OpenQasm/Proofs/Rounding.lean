import Mathlib.Algebra.Order.Field.Power
import Mathlib.Data.Rat.Floor
import Mathlib.Tactic.FieldSimp
import Mathlib.Tactic.Linarith
import Mathlib.Tactic.Positivity
import Mathlib.Tactic.Ring
import OpenQasm.Binary64

/-! Rounding a rational to binary64: the grid, the bits of the result and the error. -/

namespace OpenQasm.Binary64

section
variable {b : Nat} (hb : 1 < b)
include hb

theorem base_ne_zero : (b : ℚ) ≠ 0 := Nat.cast_ne_zero.mpr (Nat.ne_zero_of_lt hb)

theorem pow_toNat (e : Int) : (b : ℚ) ^ e.toNat = b ^ e * b ^ (-e).toNat := by
  rw [← zpow_natCast, ← zpow_natCast, ← zpow_add₀ (base_ne_zero hb)]
  congr 1
  omega

theorem scaled_quotient (num den : Nat) (e : Int) :
    ((num * Nat.pow b (-e).toNat : Nat) : ℚ) / (den * Nat.pow b e.toNat : Nat) =
      num / den / b ^ e := by
  have hp : (b : ℚ) ^ (-e).toNat ≠ 0 := pow_ne_zero _ (base_ne_zero hb)
  have hcast : ((den * Nat.pow b e.toNat : Nat) : ℚ) = den * b ^ e * b ^ (-e).toNat := by
    rw [mul_assoc, ← pow_toNat hb]
    simp
  rw [hcast, Nat.cast_mul, div_div]
  simpa using mul_div_mul_right (num : ℚ) (den * b ^ e) hp

/-- The exponent of a quotient is found from those of its parts, up to one comparison. -/
theorem quotient_exponent {num den : Nat} (hden : 0 < den) {n d : Int}
    (hnlow : (b : ℚ) ^ n ≤ num) (hnhigh : (num : ℚ) < b ^ (n + 1))
    (hdlow : (b : ℚ) ^ d ≤ den) (hdhigh : (den : ℚ) < b ^ (d + 1)) {k k' : Int} (hk : k = n - d)
    (hk' : k' = if den * Nat.pow b k.toNat ≤ num * Nat.pow b (-k).toNat then k else k - 1) :
    (b : ℚ) ^ k' ≤ num / den ∧ (num / den : ℚ) < b ^ (k' + 1) := by
  have hbase := base_ne_zero hb
  have hpos (i : Int) : (0 : ℚ) < b ^ i := zpow_pos (by exact_mod_cast Nat.zero_lt_of_lt hb) i
  have hd : (0 : ℚ) < den := by exact_mod_cast hden
  have hlow : (b : ℚ) ^ (k - 1) ≤ num / den := by
    rw [le_div_iff₀ hd]
    calc (b : ℚ) ^ (k - 1) * den ≤ b ^ (k - 1) * b ^ (d + 1) :=
          mul_le_mul_of_nonneg_left hdhigh.le (hpos _).le
      _ = b ^ n := by rw [← zpow_add₀ hbase]; congr 1; omega
      _ ≤ num := hnlow
  have hhigh : (num / den : ℚ) < b ^ (k + 1) := by
    rw [div_lt_iff₀ hd]
    calc (num : ℚ) < b ^ (n + 1) := hnhigh
      _ = b ^ (k + 1) * b ^ d := by rw [← zpow_add₀ hbase]; congr 1; omega
      _ ≤ b ^ (k + 1) * den := mul_le_mul_of_nonneg_left hdlow (hpos _).le
  have htest : den * Nat.pow b k.toNat ≤ num * Nat.pow b (-k).toNat ↔
      (b : ℚ) ^ k ≤ num / den := by
    have hD : (0 : ℚ) < (den * Nat.pow b k.toNat : Nat) :=
      Nat.cast_pos.mpr (Nat.mul_pos hden (Nat.pow_pos (Nat.zero_lt_of_lt hb)))
    rw [← Nat.cast_le (α := ℚ), ← one_le_div hD, scaled_quotient hb, one_le_div (hpos k)]
  subst hk'
  split
  · rename_i hle
    exact ⟨htest.mp hle, hhigh⟩
  · rename_i hlt
    rw [htest, not_le] at hlt
    exact ⟨hlow, by simpa using hlt⟩

end

theorem scaled_den_pos {den : Nat} (h : 0 < den) (e : Int) : 0 < den * Nat.pow 2 e.toNat :=
  Nat.mul_pos h (Nat.pow_pos (by decide))

theorem abs_roundQuotient_sub_le (num : Nat) {den : Nat} (h : 0 < den) :
    |(roundQuotient num den : ℚ) - num / den| ≤ 1 / 2 := by
  obtain ⟨hlow, hhigh⟩ := roundQuotient_near num h
  have hd : (0 : ℚ) < den := by exact_mod_cast h
  have hlow' : 2 * (roundQuotient num den * den : ℚ) ≤ 2 * num + den := by exact_mod_cast hlow
  have hhigh' : 2 * (num : ℚ) ≤ 2 * (roundQuotient num den * den) + den := by
    exact_mod_cast hhigh
  have hq : (roundQuotient num den : ℚ) - num / den =
      (roundQuotient num den * den - num) / den := by
    field_simp
  rw [hq, abs_div, abs_of_pos hd, div_le_iff₀ hd, abs_le]
  constructor <;> linarith

/-- What lies halfway between two whole numbers goes to the even one. -/
theorem even_roundQuotient {num den : Nat} (h : 0 < den)
    (htie : |(roundQuotient num den : ℚ) - num / den| = 1 / 2) :
    roundQuotient num den % 2 = 0 := by
  have hd : (den : ℚ) ≠ 0 := Nat.cast_ne_zero.mpr h.ne'
  have hhalf : 2 * (roundQuotient num den * den) = 2 * num + den ∨
      2 * num = 2 * (roundQuotient num den * den) + den := by
    rcases (abs_eq (by norm_num)).mp htie with hup | hdown
    · left
      field_simp at hup
      have : (2 * (roundQuotient num den * den) : ℚ) = 2 * num + den := by linarith
      exact_mod_cast this
    · right
      field_simp at hdown
      have : (2 * num : ℚ) = 2 * (roundQuotient num den * den) + den := by linarith
      exact_mod_cast this
  have hm := Nat.div_add_mod' num den
  have hr := Nat.mod_lt num h
  have hs : (num / den + 1) * den = num / den * den + den := Nat.succ_mul _ _
  unfold roundQuotient at hhalf ⊢
  dsimp only at hhalf ⊢
  split
  · rename_i hbelow
    rw [if_pos hbelow] at hhalf
    omega
  · rename_i hbelow
    rw [if_neg hbelow] at hhalf
    split
    · rename_i habove
      rw [if_pos habove] at hhalf
      omega
    · omega

theorem two_pow_log2 {n : Nat} (h : 0 < n) :
    (2 : ℚ) ^ (n.log2 : Int) ≤ n ∧ (n : ℚ) < 2 ^ ((n.log2 : Int) + 1) := by
  constructor
  · rw [zpow_natCast]
    exact_mod_cast Nat.log2_self_le h.ne'
  · exact_mod_cast Nat.lt_log2_self (n := n)

theorem binaryExponent_spec {num den : Nat} (hnum : 0 < num) (hden : 0 < den) :
    (2 : ℚ) ^ binaryExponent num den ≤ num / den ∧
      (num / den : ℚ) < 2 ^ (binaryExponent num den + 1) := by
  obtain ⟨hnlow, hnhigh⟩ := two_pow_log2 hnum
  obtain ⟨hdlow, hdhigh⟩ := two_pow_log2 hden
  exact quotient_exponent (b := 2) (by decide) hden hnlow hnhigh hdlow hdhigh rfl rfl

/-- A positive rational is rounded to a multiple of a power of two, halfway between two of them to
the even one. The multiple has fifty-three binary digits, or the power is the least that there
is. -/
structure OnGrid (r : ℚ) (e : Int) (q : Nat) : Prop where
  least : -1074 ≤ e
  near : |(q : ℚ) * 2 ^ e - r| ≤ 2 ^ e / 2
  top : q ≤ 2 ^ 53
  normal : e = -1074 ∨ (2 ^ 52 ≤ q ∧ (2 : ℚ) ^ (e + 52) ≤ r)
  even : |(q : ℚ) * 2 ^ e - r| = 2 ^ e / 2 → q % 2 = 0

theorem exists_onGrid {num den : Nat} (hnum : 0 < num) (hden : 0 < den) :
    ∃ e q, OnGrid (num / den) e q ∧
      nearestBits num den = min ((e + 1074).toNat * 2 ^ 52 + q) (2047 * 2 ^ 52) := by
  obtain ⟨hlow, hhigh⟩ := binaryExponent_spec hnum hden
  set k := binaryExponent num den with hk
  set e : Int := max (k - 52) (-1074) with he
  set q := roundQuotient (num * Nat.pow 2 (-e).toNat) (den * Nat.pow 2 e.toNat) with hq
  have hquot := abs_roundQuotient_sub_le (num * Nat.pow 2 (-e).toNat) (scaled_den_pos hden e)
  rw [scaled_quotient (by decide), Nat.cast_ofNat, ← hq, abs_le] at hquot
  have hpos : (0 : ℚ) < 2 ^ e := by positivity
  have hbelow : (num / den / 2 ^ e : ℚ) < 2 ^ 53 := by
    rw [div_lt_iff₀ hpos, ← zpow_natCast, ← zpow_add₀ two_ne_zero]
    refine hhigh.trans_le (zpow_le_zpow_right₀ (by norm_num) ?_)
    omega
  have hfactor : (q : ℚ) * 2 ^ e - num / den = (q - num / den / 2 ^ e) * 2 ^ e := by
    field_simp
  refine ⟨e, q, ⟨le_max_right _ _, ?_, ?_, ?_, ?_⟩, rfl⟩
  · have hhalf : |(q : ℚ) - num / den / 2 ^ e| ≤ 1 / 2 := abs_le.mpr hquot
    rw [hfactor, abs_mul, abs_of_pos hpos]
    linarith [mul_le_mul_of_nonneg_right hhalf hpos.le]
  · have hlt : (q : ℚ) < 2 ^ 53 + 1 := by linarith [hquot.2]
    have : q < 2 ^ 53 + 1 := by exact_mod_cast hlt
    omega
  · by_cases hmin : e = -1074
    · exact .inl hmin
    · have hek : e + 52 = k := by omega
      have habove : (2 ^ 52 : ℚ) ≤ num / den / 2 ^ e := by
        rw [le_div_iff₀ hpos, ← zpow_natCast, ← zpow_add₀ two_ne_zero, add_comm]
        exact hek ▸ hlow
      have hgt : (2 ^ 52 : ℚ) < q + 1 := by linarith [hquot.1]
      have : 2 ^ 52 < q + 1 := by exact_mod_cast hgt
      exact .inr ⟨by omega, hek ▸ hlow⟩
  · intro htie
    apply even_roundQuotient (scaled_den_pos hden e)
    rw [scaled_quotient (by decide), Nat.cast_ofNat, ← hq]
    rw [hfactor, abs_mul, abs_of_pos hpos] at htie
    exact mul_right_cancel₀ hpos.ne' (by rw [htie]; ring)

section
variable {sign n : Nat} (hsign : sign = 0 ∨ sign = 2 ^ 63) (hn : n < 2 ^ 63)
include hsign hn

theorem toNat_bits : (UInt64.ofNat (sign + n)).toNat = sign + n := by
  apply UInt64.toNat_ofNat_of_lt'
  have : UInt64.size = 2 ^ 64 := rfl
  omega

theorem isNegative_bits :
    (⟨UInt64.ofNat (sign + n)⟩ : Binary64).isNegative = decide (sign ≠ 0) := by
  rw [isNegative, toNat_bits hsign hn]
  have : Nat.pow 2 63 = 2 ^ 63 := rfl
  simp only [this, decide_eq_decide]
  omega

theorem exponentField_bits :
    (⟨UInt64.ofNat (sign + n)⟩ : Binary64).exponentField = n / 2 ^ 52 := by
  rw [exponentField, toNat_bits hsign hn]
  change (sign + n) / 2 ^ 52 % 2 ^ 11 = n / 2 ^ 52
  omega

theorem fractionField_bits :
    (⟨UInt64.ofNat (sign + n)⟩ : Binary64).fractionField = n % 2 ^ 52 := by
  rw [fractionField, toNat_bits hsign hn]
  change (sign + n) % 2 ^ 52 = n % 2 ^ 52
  omega

end

theorem significand_mod_two (x : Binary64) : x.significand % 2 = x.bits.toNat % 2 := by
  have hpower : Nat.pow 2 52 = 2 ^ 52 := rfl
  unfold significand fractionField
  rw [hpower]
  split <;> omega

theorem magnitude_subnormal {x : Binary64} (h : x.exponentField = 0) :
    x.magnitude = x.fractionField * (2 : ℚ) ^ (-1074 : Int) := by
  simp [magnitude, significand, scale, h]

theorem magnitude_normal {x : Binary64} (h : x.exponentField ≠ 0) :
    x.magnitude = (2 ^ 52 + x.fractionField) * (2 : ℚ) ^ ((x.exponentField : Int) - 1075) := by
  have hmax : max x.exponentField 1 = x.exponentField := by omega
  have hlead : ((Nat.pow 2 52 : Nat) : ℚ) = 2 ^ 52 := by norm_num
  rw [magnitude, significand, scale, if_neg h, hmax, Nat.cast_add, hlead]

/-- A carry into the exponent field doubles the power and halves the significand. -/
theorem magnitude_bits {sign k q : Nat} (hsign : sign = 0 ∨ sign = 2 ^ 63) (htop : q ≤ 2 ^ 53)
    (hnormal : k = 0 ∨ 2 ^ 52 ≤ q) (hfinite : k * 2 ^ 52 + q < 2047 * 2 ^ 52) :
    (⟨UInt64.ofNat (sign + (k * 2 ^ 52 + q))⟩ : Binary64).magnitude =
      q * (2 : ℚ) ^ ((k : Int) - 1074) := by
  have hn : k * 2 ^ 52 + q < 2 ^ 63 := by omega
  have hexp := exponentField_bits hsign hn
  have hfrac := fractionField_bits hsign hn
  generalize (⟨UInt64.ofNat (sign + (k * 2 ^ 52 + q))⟩ : Binary64) = x at *
  rcases Nat.lt_or_ge q (2 ^ 52) with hsmall | hlarge
  · obtain rfl : k = 0 := by omega
    have hzero : x.exponentField = 0 := by omega
    have hq : x.fractionField = q := by omega
    rw [magnitude_subnormal hzero, hq]
    simp
  have hne : x.exponentField ≠ 0 := by omega
  rw [magnitude_normal hne]
  rcases Nat.lt_or_ge q (2 ^ 53) with hbelow | habove
  · have hk : x.exponentField = k + 1 := by omega
    have hq : 2 ^ 52 + x.fractionField = q := by omega
    have hcast : (2 ^ 52 + x.fractionField : ℚ) = q := by exact_mod_cast hq
    rw [hcast, hk]
    congr 2
    push_cast
    omega
  · have hk : x.exponentField = k + 2 := by omega
    have hq : x.fractionField = 0 := by omega
    obtain rfl : q = 2 ^ 53 := by omega
    have hscale : ((k + 2 : Nat) : Int) - 1075 = (k : Int) - 1074 + 1 := by omega
    rw [hk, hq, hscale, zpow_add_one₀ two_ne_zero]
    push_cast
    ring

theorem toRat_zero : (⟨0⟩ : Binary64).toRat = 0 := by
  decide +kernel

theorem abs_eq_quotient (r : ℚ) : |r| = (r.num.natAbs : ℚ) / r.den := by
  rw [Rat.abs_def, Rat.natCast_div_eq_divInt]

theorem nearestBits_lt (num den : Nat) : nearestBits num den < 2 ^ 63 :=
  (Nat.min_le_right _ _).trans_lt (by decide)

/-- The sign bit of a rational. -/
def signBit (r : ℚ) : Nat := if r < 0 then 2 ^ 63 else 0

theorem signBit_cases (r : ℚ) : signBit r = 0 ∨ signBit r = 2 ^ 63 := by
  unfold signBit
  split
  · exact .inr rfl
  · exact .inl rfl

theorem ofRat_of_ne_zero {r : ℚ} (hr : r ≠ 0) :
    ofRat r = ⟨UInt64.ofNat (signBit r + nearestBits r.num.natAbs r.den)⟩ := by
  unfold signBit
  simp only [← Rat.num_neg]
  exact if_neg (Rat.num_ne_zero.mpr hr)

/-- Also a number that rounds to zero keeps its sign. -/
theorem isNegative_ofRat (r : ℚ) : (ofRat r).isNegative = decide (r < 0) := by
  by_cases hr : r = 0
  · subst hr
    rfl
  · rw [ofRat_of_ne_zero hr, isNegative_bits (signBit_cases r) (nearestBits_lt _ _),
      decide_eq_decide, signBit]
    split <;> simp_all

/-- What rounding does with a rational other than zero. -/
theorem exists_ofRat {r : ℚ} (hr : r ≠ 0) :
    ∃ e q, OnGrid |r| e q ∧
      ((ofRat r).isFinite = true ↔ (e + 1074).toNat * 2 ^ 52 + q < 2047 * 2 ^ 52) ∧
      ((ofRat r).isFinite = true →
        (ofRat r).toRat = if r < 0 then -(q * (2 : ℚ) ^ e) else q * (2 : ℚ) ^ e) ∧
      ((ofRat r).isFinite = true → (ofRat r).significand % 2 = q % 2) := by
  obtain ⟨e, q, hgrid, hbits⟩ :=
    exists_onGrid (Int.natAbs_pos.mpr (Rat.num_ne_zero.mpr hr)) r.den_pos
  rw [← abs_eq_quotient] at hgrid
  refine ⟨e, q, hgrid, ?_⟩
  have hleast := hgrid.least
  have htop := hgrid.top
  have hsign := signBit_cases r
  have hof := ofRat_of_ne_zero hr
  have hlt := nearestBits_lt r.num.natAbs r.den
  have hfinite : (ofRat r).isFinite = true ↔ (e + 1074).toNat * 2 ^ 52 + q < 2047 * 2 ^ 52 := by
    rw [hof, isFinite, exponentField_bits hsign hlt, bne_iff_ne]
    omega
  refine ⟨hfinite, ?_, ?_⟩
  · intro hfin
    have hbelow := hfinite.mp hfin
    have hnormal : (e + 1074).toNat = 0 ∨ 2 ^ 52 ≤ q := by
      rcases hgrid.normal with hmin | ⟨hq, -⟩
      · exact .inl (by omega)
      · exact .inr hq
    have hmag : (ofRat r).magnitude = q * (2 : ℚ) ^ e := by
      have hpower : ((e + 1074).toNat : Int) - 1074 = e := by omega
      rw [hof, hbits, min_eq_left hbelow.le, magnitude_bits hsign htop hnormal hbelow, hpower]
    rw [toRat, hmag, isNegative_ofRat]
    simp
  · intro hfin
    have hbelow := hfinite.mp hfin
    rw [significand_mod_two, hof, toNat_bits hsign hlt]
    omega

/-- Half the distance between neighbours, relative to a number in the normal range. -/
def relativeError : ℚ := 2 ^ (-53 : Int)

/-- Half the distance between neighbours below the normal range. -/
def absoluteError : ℚ := 2 ^ (-1075 : Int)

theorem relativeError_pos : 0 < relativeError := by
  unfold relativeError
  positivity

theorem absoluteError_pos : 0 < absoluteError := zpow_pos two_pos _

theorem OnGrid.half_le {r : ℚ} {e : Int} {q : Nat} (h : OnGrid r e q) (hr : 0 ≤ r) :
    (2 : ℚ) ^ e / 2 ≤ relativeError * r + absoluteError := by
  rcases h.normal with he | ⟨-, hlow⟩
  · have hunit : (2 : ℚ) ^ e = absoluteError * 2 := by
      rw [absoluteError, ← zpow_add_one₀ two_ne_zero, he]
      congr 1
    have hnonneg := mul_nonneg relativeError_pos.le hr
    linarith
  · have hunit : (2 : ℚ) ^ e = relativeError * 2 ^ (e + 52) * 2 := by
      rw [relativeError, ← zpow_add₀ two_ne_zero, ← zpow_add_one₀ two_ne_zero]
      congr 1
      omega
    have hscaled := mul_le_mul_of_nonneg_left hlow relativeError_pos.le
    have htiny := absoluteError_pos
    linarith

/-- A rational with at most fifty-three digits on a grid that there is lies on its own grid. -/
theorem OnGrid.exact {r : ℚ} {e f : Int} {q m : Nat} (h : OnGrid r e q) (hr : r = m * 2 ^ f)
    (hm : m < 2 ^ 53) (hf : -1074 ≤ f) : (q : ℚ) * 2 ^ e = r := by
  have hef : e ≤ f := by
    rcases h.normal with rfl | ⟨-, hlow⟩
    · exact hf
    · have hlt : (2 : ℚ) ^ (e + 52) < 2 ^ (f + 53) := by
        refine hlow.trans_lt ?_
        rw [hr, add_comm f, zpow_add₀ two_ne_zero]
        have hm' : (m : ℚ) < 2 ^ (53 : Int) := by exact_mod_cast hm
        gcongr
      have := (zpow_lt_zpow_iff_right₀ one_lt_two).mp hlt
      omega
  obtain ⟨n, hn⟩ := Int.eq_ofNat_of_zero_le (sub_nonneg.mpr hef)
  have hgrid : r = (m * 2 ^ n : Nat) * 2 ^ e := by
    obtain rfl : f = n + e := by omega
    rw [hr, zpow_add₀ two_ne_zero, zpow_natCast]
    push_cast
    ring
  have hpos : (0 : ℚ) < 2 ^ e := by positivity
  have hnear := h.near
  rw [hgrid, ← sub_mul, abs_mul, abs_of_pos hpos] at hnear
  have hhalf : |(q : ℚ) - (m * 2 ^ n : Nat)| ≤ 1 / 2 :=
    le_of_mul_le_mul_right (by linarith) hpos
  have hint : |(q : Int) - (m * 2 ^ n : Nat)| < 1 := by
    have : |(q : ℚ) - (m * 2 ^ n : Nat)| < 1 := by linarith
    exact_mod_cast this
  have heq : q = m * 2 ^ n := by
    have := Int.abs_lt_one_iff.mp hint
    omega
  rw [hgrid, heq]

/-- Rounding moves a number by a relative error or, below the normal range, by an absolute one. -/
theorem abs_toRat_ofRat_sub_le {r : ℚ} (h : (ofRat r).isFinite = true) :
    |(ofRat r).toRat - r| ≤ relativeError * |r| + absoluteError := by
  by_cases hr : r = 0
  · subst hr
    have hzero : ofRat 0 = ⟨0⟩ := rfl
    rw [hzero, toRat_zero, sub_zero, abs_zero, mul_zero, zero_add]
    exact absoluteError_pos.le
  · obtain ⟨e, q, hgrid, -, hvalue, -⟩ := exists_ofRat hr
    have hbound := hgrid.near.trans (hgrid.half_le (abs_nonneg r))
    rw [hvalue h]
    split
    · rename_i hneg
      have hflip : -((q : ℚ) * 2 ^ e) - r = -(q * 2 ^ e - |r|) := by
        rw [abs_of_neg hneg]
        ring
      rwa [hflip, abs_neg]
    · rename_i hnonneg
      rwa [abs_of_nonneg (not_lt.mp hnonneg)] at hbound ⊢

theorem isFinite_ofRat {r : ℚ} (h : |r| < 2 ^ (1023 : Int)) : (ofRat r).isFinite = true := by
  by_cases hr : r = 0
  · subst hr
    rfl
  · obtain ⟨e, q, hgrid, hfinite, -⟩ := exists_ofRat hr
    rw [hfinite]
    have htop := hgrid.top
    have he : e ≤ 970 := by
      rcases hgrid.normal with rfl | ⟨-, hlow⟩
      · norm_num
      · have := (zpow_lt_zpow_iff_right₀ one_lt_two).mp (hlow.trans_lt h)
        omega
    omega

/-- Numbers with at most fifty-three digits are kept as they are. -/
theorem toRat_ofRat {r : ℚ} {m : Nat} {f : Int} (hr : |r| = m * 2 ^ f) (hm : m < 2 ^ 53)
    (hf : -1074 ≤ f) (h : (ofRat r).isFinite = true) : (ofRat r).toRat = r := by
  by_cases hzero : r = 0
  · subst hzero
    exact toRat_zero
  · obtain ⟨e, q, hgrid, -, hvalue, -⟩ := exists_ofRat hzero
    rw [hvalue h, hgrid.exact hr hm hf]
    split
    · rename_i hneg
      rw [abs_of_neg hneg, neg_neg]
    · rename_i hnonneg
      exact abs_of_nonneg (not_lt.mp hnonneg)

theorem toRat_ofInt {n : Int} (h : n.natAbs < 2 ^ 53) : (ofInt n).toRat = n := by
  have habs : |(n : ℚ)| = n.natAbs := by
    rw [Nat.cast_natAbs, Int.cast_abs]
  have hlt : |(n : ℚ)| < 2 ^ (1023 : Int) := by
    have hsmall : |(n : ℚ)| < 2 ^ (53 : Int) := by
      rw [habs]
      exact_mod_cast h
    exact hsmall.trans (zpow_lt_zpow_right₀ (by norm_num) (by norm_num))
  exact toRat_ofRat (m := n.natAbs) (f := 0) (by simp) h (by norm_num)
    (isFinite_ofRat hlt)

theorem isFinite_of_magnitude_lt {x : Binary64} (h : x.magnitude < 2 ^ (1024 : Int)) :
    x.isFinite = true := by
  rw [isFinite, bne_iff_ne]
  intro hexp
  rw [magnitude_normal (by omega), hexp] at h
  have hsplit : (2 : ℚ) ^ (1024 : Int) = 2 ^ 52 * 2 ^ ((2047 : Nat) - 1075 : Int) := by
    rw [← zpow_natCast, ← zpow_add₀ two_ne_zero]
    congr 1
  have hpos : (0 : ℚ) < 2 ^ ((2047 : Nat) - 1075 : Int) := zpow_pos two_pos _
  have hfrac : (0 : ℚ) ≤ x.fractionField := Nat.cast_nonneg _
  rw [hsplit] at h
  have := lt_of_mul_lt_mul_right h hpos.le
  linarith

theorem abs_toRat (x : Binary64) : |x.toRat| = x.magnitude := by
  have hnonneg : 0 ≤ x.magnitude := by
    unfold magnitude
    positivity
  unfold toRat
  split
  · rw [abs_neg, abs_of_nonneg hnonneg]
  · exact abs_of_nonneg hnonneg

theorem toRat_eq_zero_iff {x : Binary64} : x.toRat = 0 ↔ x.isZero = true := by
  rw [← abs_eq_zero, abs_toRat, magnitude, isZero, beq_iff_eq, mul_eq_zero, Nat.cast_eq_zero]
  exact or_iff_left (zpow_ne_zero _ two_ne_zero)

/-- The nearest whole number is at most a half away. -/
theorem abs_sub_roundAway_le (x : Binary64) : |x.toRat - x.roundAway| ≤ 1 / 2 := by
  have hlow := Rat.floor_le (x.magnitude + 1 / 2)
  have hhigh := Rat.lt_floor (x := x.magnitude + 1 / 2)
  unfold toRat roundAway
  dsimp only
  split
  · push_cast
    rw [abs_le]
    constructor <;> linarith
  · rw [abs_le]
    constructor <;> linarith

theorem roundAway_eq {x : Binary64} {n : Int} (h : |x.toRat - n| < 1 / 2) : x.roundAway = n := by
  have hhalf := abs_sub_roundAway_le x
  rw [abs_sub_comm] at hhalf
  have hcast : |(x.roundAway : ℚ) - n| < 1 :=
    (abs_sub_le _ x.toRat _).trans_lt (by linarith)
  have hlt : |x.roundAway - n| < 1 := by exact_mod_cast hcast
  exact sub_eq_zero.mp (Int.abs_lt_one_iff.mp hlt)

end OpenQasm.Binary64
