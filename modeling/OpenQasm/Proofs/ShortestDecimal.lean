import OpenQasm.Proofs.NearestEven
import OpenQasm.Proofs.PiFolding

/-! The search for a decimal finds one that reads back, with the fewest digits. -/
namespace OpenQasm

open Binary64

theorem Binary64.magnitude_pos_iff {x : Binary64} : 0 < x.magnitude ↔ x.isZero = false := by
  rw [← abs_toRat, abs_pos, ne_eq, toRat_eq_zero_iff, Bool.not_eq_true]

theorem Binary64.toRat_eq_magnitude {x : Binary64} (h : x.isNegative = false) :
    x.toRat = x.magnitude := by
  rw [toRat, h]
  rfl

theorem ten_pow_length {n : Nat} (h : 0 < n) :
    (10 : ℚ) ^ (((Nat.toDigits 10 n).length : Int) - 1) ≤ n ∧
      (n : ℚ) < 10 ^ (((Nat.toDigits 10 n).length : Int) - 1 + 1) := by
  have hpos : 0 < (Nat.toDigits 10 n).length := Nat.length_toDigits_pos
  obtain ⟨len, hlen⟩ := Nat.exists_eq_add_of_lt hpos
  rw [zero_add] at hlen
  rw [hlen, Nat.cast_succ, add_sub_cancel_right]
  constructor
  · have hle : 10 ^ len ≤ n := by
      rcases Nat.eq_zero_or_pos len with rfl | hlen'
      · exact h
      · rw [← not_lt, ← Nat.length_toDigits_le_iff (by decide) hlen']
        omega
    rw [zpow_natCast]
    exact_mod_cast hle
  · have hlt := (Nat.length_toDigits_le_iff (b := 10) (by decide) (Nat.succ_pos len)).mp hlen.le
    exact_mod_cast hlt

theorem decimalExponent_spec {num den : Nat} (hnum : 0 < num) (hden : 0 < den) :
    (10 : ℚ) ^ decimalExponent num den ≤ num / den ∧
      (num / den : ℚ) < 10 ^ (decimalExponent num den + 1) := by
  obtain ⟨hnlow, hnhigh⟩ := ten_pow_length hnum
  obtain ⟨hdlow, hdhigh⟩ := ten_pow_length hden
  exact quotient_exponent (b := 10) (by decide) hden hnlow hnhigh hdlow hdhigh (by omega) rfl

/-- The exponent of the first decimal digit of a positive number. -/
def Binary64.lead (x : Binary64) : Int :=
  decimalExponent x.magnitude.num.natAbs x.magnitude.den

theorem Binary64.lead_spec {x : Binary64} (h : 0 < x.magnitude) :
    (10 : ℚ) ^ x.lead ≤ x.magnitude ∧ x.magnitude < 10 ^ (x.lead + 1) := by
  have hnum : 0 < x.magnitude.num.natAbs := Int.natAbs_pos.mpr (Rat.num_ne_zero.mpr h.ne')
  have hspec := decimalExponent_spec hnum x.magnitude.den_pos
  rwa [← abs_eq_quotient, abs_of_pos h] at hspec

namespace Decimal

/-- The exponent of the last of `p` digits. -/
def lastExponent (x : Binary64) (p : Nat) : Int := x.lead - p + 1

/-- The multiple of the last digit's power of ten next below a number. -/
def below (x : Binary64) (p : Nat) : Nat :=
  (x.magnitude / (10 : ℚ) ^ lastExponent x p).floor.toNat

/-- The neighbour below with `p` digits. -/
def low (x : Binary64) (p : Nat) : Decimal := ⟨below x p, lastExponent x p⟩

/-- The neighbour above with `p` digits, or the next power of ten. -/
def high (x : Binary64) (p : Nat) : Decimal :=
  if below x p + 1 = Nat.pow 10 p then ⟨1, x.lead + 1⟩ else ⟨below x p + 1, lastExponent x p⟩

/-- Both neighbours are tried, the nearer one first. -/
theorem exists_withPrecision_eq (x : Binary64) (p : Nat) :
    ∃ first second : Decimal,
      (first = low x p ∧ second = high x p ∨ first = high x p ∧ second = low x p) ∧
      withPrecision x x.lead p =
        if first.readsAs x then some first
        else if second.readsAs x then some second
        else none := by
  unfold withPrecision
  extract_lets e scaled below' low' high' rest preferLow
  cases preferLow with
  | true => exact ⟨low x p, high x p, .inl ⟨rfl, rfl⟩, rfl⟩
  | false => exact ⟨high x p, low x p, .inr ⟨rfl, rfl⟩, rfl⟩

theorem withPrecision_eq_some {x : Binary64} {p : Nat} {d : Decimal}
    (h : withPrecision x x.lead p = some d) :
    d.readsAs x = true ∧ (d = low x p ∨ d = high x p) := by
  obtain ⟨first, second, hpair, heq⟩ := exists_withPrecision_eq x p
  rw [heq] at h
  split_ifs at h with hfirst hsecond
  · obtain rfl := Option.some.inj h
    exact ⟨hfirst, hpair.imp And.left And.left⟩
  · obtain rfl := Option.some.inj h
    exact ⟨hsecond, hpair.symm.imp And.right And.right⟩

theorem withPrecision_eq_none {x : Binary64} {p : Nat} (h : withPrecision x x.lead p = none) :
    ¬ (low x p).readsAs x = true ∧ ¬ (high x p).readsAs x = true := by
  obtain ⟨first, second, hpair, heq⟩ := exists_withPrecision_eq x p
  rw [heq] at h
  split_ifs at h with hfirst hsecond
  rcases hpair with ⟨rfl, rfl⟩ | ⟨rfl, rfl⟩
  · exact ⟨hfirst, hsecond⟩
  · exact ⟨hsecond, hfirst⟩

theorem ten_zpow_pos (e : Int) : (0 : ℚ) < 10 ^ e := zpow_pos (by norm_num) e

theorem ten_zpow_add (a b : Int) : (10 : ℚ) ^ (a + b) = 10 ^ a * 10 ^ b :=
  zpow_add₀ (by norm_num) a b

theorem toRat_nonneg (d : Decimal) : 0 ≤ d.toRat :=
  mul_nonneg d.digits.cast_nonneg (ten_zpow_pos _).le

theorem toRat_low (x : Binary64) (p : Nat) :
    (low x p).toRat = below x p * 10 ^ lastExponent x p := rfl

/-- Also where the digits carry into one more. -/
theorem toRat_high (x : Binary64) (p : Nat) :
    (high x p).toRat = (low x p).toRat + 10 ^ lastExponent x p := by
  rw [toRat_low, ← add_one_mul]
  unfold high
  split
  · rename_i hcarry
    have hcast : (below x p + 1 : ℚ) = 10 ^ (p : Int) := by exact_mod_cast hcarry
    rw [hcast, toRat, Nat.cast_one, one_mul, ← ten_zpow_add, lastExponent]
    congr 1
    ring
  · rw [toRat]
    push_cast
    rfl

/-- The number lies between its neighbours. -/
theorem low_le_and_lt_high (x : Binary64) (p : Nat) :
    (low x p).toRat ≤ x.magnitude ∧ x.magnitude < (high x p).toRat := by
  have hpos := ten_zpow_pos (lastExponent x p)
  have hnonneg : 0 ≤ x.magnitude / 10 ^ lastExponent x p :=
    div_nonneg (abs_toRat x ▸ abs_nonneg _) hpos.le
  have hcast : (below x p : ℚ) = (x.magnitude / 10 ^ lastExponent x p).floor := by
    have hfloor : 0 ≤ (x.magnitude / 10 ^ lastExponent x p).floor :=
      Rat.le_floor_iff.mpr (by simpa using hnonneg)
    rw [below, ← Int.cast_natCast, Int.toNat_of_nonneg hfloor]
  rw [toRat_high, toRat_low, ← add_one_mul, ← le_div_iff₀ hpos, ← div_lt_iff₀ hpos, hcast]
  exact ⟨Rat.floor_le _, by exact_mod_cast Rat.lt_floor_add_one _⟩

/-- A decimal lies on the grid of the neighbours, unless it is too small to have all its digits
there. -/
theorem on_grid_or_lt {d : Decimal} {p : Nat} (hd : d.digits < 10 ^ p) (x : Binary64) :
    (∃ j : Nat, d.toRat = j * 10 ^ lastExponent x p) ∨ d.toRat < 10 ^ x.lead := by
  rcases le_or_gt (lastExponent x p) d.exponent with hle | hlt
  · left
    obtain ⟨n, hn⟩ := Int.eq_ofNat_of_zero_le (sub_nonneg.mpr hle)
    have hexponent : d.exponent = n + lastExponent x p := by omega
    refine ⟨d.digits * 10 ^ n, ?_⟩
    rw [toRat, hexponent, ten_zpow_add, zpow_natCast]
    push_cast
    ring
  · right
    have hdigits : (d.digits : ℚ) < 10 ^ (p : Int) := by exact_mod_cast hd
    have hlead : p + d.exponent ≤ x.lead := by
      unfold lastExponent at hlt
      omega
    calc d.toRat < 10 ^ (p : Int) * 10 ^ d.exponent :=
          mul_lt_mul_of_pos_right hdigits (ten_zpow_pos _)
      _ = 10 ^ (p + d.exponent) := (ten_zpow_add _ _).symm
      _ ≤ 10 ^ x.lead := zpow_le_zpow_right₀ (by norm_num) hlead

section
variable {x : Binary64} {p j : Nat}

theorem multiple_le_low (h : j * 10 ^ lastExponent x p ≤ x.magnitude) :
    j * 10 ^ lastExponent x p ≤ (low x p).toRat := by
  have hpos := ten_zpow_pos (lastExponent x p)
  have hlt := h.trans_lt (low_le_and_lt_high x p).2
  rw [toRat_high, toRat_low, ← add_one_mul, mul_lt_mul_iff_of_pos_right hpos] at hlt
  have hj : j ≤ below x p := Nat.lt_succ_iff.mp (by exact_mod_cast hlt)
  rw [toRat_low]
  exact mul_le_mul_of_nonneg_right (by exact_mod_cast hj) hpos.le

theorem high_le_multiple (h : x.magnitude < j * 10 ^ lastExponent x p) :
    (high x p).toRat ≤ j * 10 ^ lastExponent x p := by
  have hpos := ten_zpow_pos (lastExponent x p)
  have hlt := (low_le_and_lt_high x p).1.trans_lt h
  rw [toRat_low, mul_lt_mul_iff_of_pos_right hpos] at hlt
  have hj : below x p + 1 ≤ j := by exact_mod_cast hlt
  rw [toRat_high, toRat_low, ← add_one_mul]
  exact mul_le_mul_of_nonneg_right (by exact_mod_cast hj) hpos.le

end

section
variable {x : Binary64} (hx : 0 < x.magnitude) {p : Nat} (hp : 1 ≤ p)
include hx

theorem digits_low_lt : (low x p).digits < 10 ^ p := by
  have hpos := ten_zpow_pos (lastExponent x p)
  have hlt : (below x p : ℚ) * 10 ^ lastExponent x p < 10 ^ (p : Int) * 10 ^ lastExponent x p := by
    refine (low_le_and_lt_high x p).1.trans_lt ((lead_spec hx).2.trans_eq ?_)
    rw [← ten_zpow_add, lastExponent]
    congr 1
    ring
  exact_mod_cast lt_of_mul_lt_mul_right hlt hpos.le

include hp

theorem digits_high_lt : (high x p).digits < 10 ^ p := by
  have hlow : below x p < 10 ^ p := digits_low_lt hx
  unfold high
  split
  · exact Nat.one_lt_pow (by omega) (by decide)
  · rename_i hcarry
    change below x p + 1 < 10 ^ p
    change ¬ below x p + 1 = 10 ^ p at hcarry
    omega

theorem ten_zpow_lead_le_low : (10 : ℚ) ^ x.lead ≤ (low x p).toRat := by
  have hgrid : (10 : ℚ) ^ x.lead = ((10 ^ (p - 1) : Nat) : ℚ) * 10 ^ lastExponent x p := by
    rw [Nat.cast_pow, Nat.cast_ofNat, ← zpow_natCast, ← ten_zpow_add, lastExponent]
    congr 1
    omega
  rw [hgrid]
  exact multiple_le_low (hgrid ▸ (lead_spec hx).1)

/-- No decimal with at most `p` digits lies between the neighbours. -/
theorem le_low {d : Decimal} (hd : d.digits < 10 ^ p) (h : d.toRat ≤ x.magnitude) :
    d.toRat ≤ (low x p).toRat := by
  rcases on_grid_or_lt hd x with ⟨j, hj⟩ | hlt
  · rw [hj] at h ⊢
    exact multiple_le_low h
  · exact hlt.le.trans (ten_zpow_lead_le_low hx hp)

omit hp in
theorem high_le {d : Decimal} (hd : d.digits < 10 ^ p) (h : x.magnitude < d.toRat) :
    (high x p).toRat ≤ d.toRat := by
  rcases on_grid_or_lt hd x with ⟨j, hj⟩ | hlt
  · rw [hj] at h ⊢
    exact high_le_multiple h
  · exact absurd (lead_spec hx).1 (h.trans hlt).not_ge

end

theorem digits_pos {d : Decimal} {x : Binary64} (hx : 0 < x.magnitude)
    (h : d.readsAs x = true) : 0 < d.digits := by
  rw [Nat.pos_iff_ne_zero]
  intro hzero
  have hvalue : d.toRat = 0 := by rw [toRat, hzero, Nat.cast_zero, zero_mul]
  rw [readsAs, hvalue, beq_iff_eq] at h
  subst h
  exact Bool.noConfusion (magnitude_pos_iff.mp hx)

theorem shortest_of_isZero {x : Binary64} (h : x.isZero = true) : shortest x = ⟨0, 0⟩ := if_pos h

theorem readsAs_iff {d : Decimal} {x : Binary64} (hfinite : x.isFinite = true)
    (hsign : x.isNegative = false) : d.readsAs x = true ↔ RoundsTo d.toRat x := by
  have hnonneg : decide (d.toRat < 0) = false := decide_eq_false d.toRat_nonneg.not_gt
  rw [readsAs, beq_iff_eq, ofRat_eq_iff hfinite, hnonneg]
  exact and_iff_left hsign

section
variable {x : Binary64} (hfinite : x.isFinite = true) (hsign : x.isNegative = false)
  (hx : 0 < x.magnitude)
include hfinite hsign hx

/-- If a decimal with at most `p` digits reads back, so does a neighbour. -/
theorem withPrecision_ne_none {d : Decimal} {p : Nat} (hp : 1 ≤ p) (hd : d.digits < 10 ^ p)
    (h : d.readsAs x = true) : withPrecision x x.lead p ≠ none := by
  intro hnone
  obtain ⟨hlow, hhigh⟩ := withPrecision_eq_none hnone
  rw [readsAs_iff hfinite hsign] at h hlow hhigh
  have hvalue := toRat_eq_magnitude hsign
  obtain ⟨hbelow, habove⟩ := low_le_and_lt_high x p
  rcases le_or_gt d.toRat x.magnitude with hle | hgt
  · exact hlow (h.of_between (.inl ⟨le_low hx hp hd hle, hvalue ▸ hbelow⟩))
  · exact hhigh (h.of_between (.inr ⟨hvalue ▸ habove.le, high_le hx hd hgt⟩))

/-- Of the two neighbours with seventeen digits the nearer one reads back. -/
theorem withPrecision_seventeen : withPrecision x x.lead 17 ≠ none := by
  intro hnone
  obtain ⟨hlow, hhigh⟩ := withPrecision_eq_none hnone
  rw [readsAs_iff hfinite hsign] at hlow hhigh
  have hvalue := toRat_eq_magnitude hsign
  obtain ⟨hbelow, habove⟩ := low_le_and_lt_high x 17
  have hstep : (10 : ℚ) ^ lastExponent x 17 ≤ x.magnitude / 10 ^ 16 := by
    have hsplit : (10 : ℚ) ^ x.lead = 10 ^ lastExponent x 17 * 10 ^ 16 := by
      rw [← zpow_natCast, ← ten_zpow_add, lastExponent]
      congr 1
      omega
    rw [le_div_iff₀ (by norm_num), ← hsplit]
    exact (lead_spec hx).1
  have hapart := toRat_high x 17
  rcases le_total (x.magnitude - (low x 17).toRat) ((high x 17).toRat - x.magnitude) with h | h
  · refine hlow (roundsTo_of_close hfinite hx ?_)
    rw [hvalue, abs_of_nonneg (sub_nonneg.mpr hbelow)]
    linarith
  · refine hhigh (roundsTo_of_close hfinite hx ?_)
    rw [hvalue, abs_of_neg (sub_neg.mpr habove)]
    linarith

/-- The search ends with the first number of digits with which a neighbour reads back. -/
theorem exists_withPrecision_eq_shortest :
    ∃ p, 1 ≤ p ∧ p ≤ 17 ∧ withPrecision x x.lead p = some (shortest x) ∧
      ∀ n, 1 ≤ n → n < p → withPrecision x x.lead n = none := by
  have hshortest : shortest x =
      ((List.range 17).findSome? fun k => withPrecision x x.lead (k + 1)).getD (exact x) := by
    unfold shortest
    rw [magnitude_pos_iff.mp hx]
    rfl
  cases hsearch : (List.range 17).findSome? fun k => withPrecision x x.lead (k + 1) with
  | none =>
    rw [List.findSome?_eq_none_iff] at hsearch
    exact absurd (hsearch 16 (by simp)) (withPrecision_seventeen hfinite hsign hx)
  | some d =>
    rw [hsearch, Option.getD_some] at hshortest
    obtain ⟨k, hk, hfound, hnone⟩ := findSome?_range_eq_some.mp hsearch
    refine ⟨k + 1, by omega, hk, hshortest ▸ hfound, fun n hn hlt => ?_⟩
    obtain ⟨j, rfl⟩ := Nat.exists_eq_add_of_le' hn
    exact hnone j (by omega)

end

/-- The shortest decimal reads back and has at most seventeen digits, and no decimal that reads back
has fewer. -/
theorem shortest_spec {x : Binary64} (hfinite : x.isFinite = true) (hsign : x.isNegative = false) :
    (shortest x).readsAs x = true ∧ ∃ p ≤ 17, (shortest x).digits < 10 ^ p ∧
      ∀ (d : Decimal) (n : Nat), d.digits < 10 ^ n → d.readsAs x = true → p ≤ n := by
  cases hzero : x.isZero with
  | true =>
    have hvalue : (⟨0, 0⟩ : Decimal).toRat = x.toRat := by
      rw [toRat_eq_zero_iff.mpr hzero, toRat, Nat.cast_zero, zero_mul]
    rw [shortest_of_isZero hzero, readsAs_iff hfinite hsign, hvalue]
    exact ⟨RoundsTo.self hfinite, 0, by decide, by decide, fun _ n _ _ => n.zero_le⟩
  | false =>
    have hx := magnitude_pos_iff.mpr hzero
    obtain ⟨p, hp, hle, hfound, hleast⟩ := exists_withPrecision_eq_shortest hfinite hsign hx
    obtain ⟨hreads, hneighbour⟩ := withPrecision_eq_some hfound
    have hdigits : (shortest x).digits < 10 ^ p := by
      rcases hneighbour with h | h
      · exact h ▸ digits_low_lt hx
      · exact h ▸ digits_high_lt hx hp
    refine ⟨hreads, p, hle, hdigits, fun d n hd h => ?_⟩
    by_contra hlt
    -- Without digits a decimal is zero, and the number is not.
    have hn : 1 ≤ n := by
      have hpos := digits_pos hx h
      by_contra hzero
      obtain rfl : n = 0 := by omega
      omega
    exact withPrecision_ne_none hfinite hsign hx hn hd h (hleast n hn (by omega))

end Decimal
end OpenQasm
