/-! Binary64 numbers as bits, with exact rational operations followed by one rounding. -/
namespace OpenQasm

structure Binary64 where
  bits : UInt64
deriving DecidableEq, Repr

namespace Binary64

def isNegative (x : Binary64) : Bool := decide (Nat.pow 2 63 ≤ x.bits.toNat)

def exponentField (x : Binary64) : Nat := x.bits.toNat / Nat.pow 2 52 % Nat.pow 2 11

def fractionField (x : Binary64) : Nat := x.bits.toNat % Nat.pow 2 52

def isFinite (x : Binary64) : Bool := x.exponentField != 2047

def isNaN (x : Binary64) : Bool := x.exponentField == 2047 && x.fractionField != 0

/-- The whole number that `scale` multiplies: the fraction, with its leading one unless the
number is subnormal. -/
def significand (x : Binary64) : Nat :=
  if x.exponentField = 0 then x.fractionField else Nat.pow 2 52 + x.fractionField

def scale (x : Binary64) : Int := (max x.exponentField 1 : Nat) - 1075

def isZero (x : Binary64) : Bool := x.significand == 0

/-- The absolute value of a finite number. -/
def magnitude (x : Binary64) : Rat := (x.significand : Rat) * (2 : Rat) ^ x.scale

/-- The value of a finite number; both zeros give 0. -/
def toRat (x : Binary64) : Rat := if x.isNegative then -x.magnitude else x.magnitude

/-- The whole number nearest to `num / den`, a half going to the even neighbour. -/
def roundQuotient (num den : Nat) : Nat :=
  let q := num / den
  let twice := 2 * (num % den)
  if twice < den then q
  else if den < twice then q + 1
  else q + q % 2

theorem roundQuotient_mul (q : Nat) {den : Nat} (h : 0 < den) :
    roundQuotient (q * den) den = q := by
  simp [roundQuotient, Nat.mul_div_cancel _ h, h]

/-- The rounded quotient is within half a unit of the exact one. -/
theorem roundQuotient_near (num : Nat) {den : Nat} (h : 0 < den) :
    2 * (roundQuotient num den * den) ≤ 2 * num + den ∧
      2 * num ≤ 2 * (roundQuotient num den * den) + den := by
  have hd := Nat.div_add_mod num den
  have hr := Nat.mod_lt num h
  have hm : den * (num / den) = num / den * den := Nat.mul_comm _ _
  have hs : (num / den + 1) * den = num / den * den + den := Nat.succ_mul _ _
  unfold roundQuotient
  dsimp only
  split
  · omega
  · split
    · omega
    · rcases Nat.mod_two_eq_zero_or_one (num / den) with hp | hp
      · rw [hp, Nat.add_zero]
        omega
      · rw [hp]
        omega

/-- The exponent `k` with `2 ^ k ≤ num / den < 2 ^ (k + 1)`, for a positive quotient. -/
def binaryExponent (num den : Nat) : Int :=
  let k : Int := (Nat.log2 num : Int) - (Nat.log2 den : Int)
  if den * Nat.pow 2 k.toNat ≤ num * Nat.pow 2 (-k).toNat then k else k - 1

/-- The bits, without sign, of the number nearest to `num / den`. Fifty-three binary digits
are kept, fewer below the normal range. A significand that rounds up to the next power of two
carries into the exponent field, and what lies beyond the largest number is infinite. -/
def nearestBits (num den : Nat) : Nat :=
  let e := max (binaryExponent num den - 52) (-1074)
  let q := roundQuotient (num * Nat.pow 2 (-e).toNat) (den * Nat.pow 2 e.toNat)
  min ((e + 1074).toNat * Nat.pow 2 52 + q) (2047 * Nat.pow 2 52)

/-- The number nearest to a rational, a tie going to the even significand. -/
def ofRat (r : Rat) : Binary64 :=
  if r.num = 0 then ⟨0⟩
  else
    let sign := if r.num < 0 then Nat.pow 2 63 else 0
    ⟨UInt64.ofNat (sign + nearestBits r.num.natAbs r.den)⟩

def ofInt (n : Int) : Binary64 := ofRat n

def mul (x y : Binary64) : Binary64 := ofRat (x.toRat * y.toRat)

def div (x y : Binary64) : Binary64 := ofRat (x.toRat / y.toRat)

def sub (x y : Binary64) : Binary64 := ofRat (x.toRat - y.toRat)

/-- The whole number nearest to a finite number, a half going away from zero. -/
def roundAway (x : Binary64) : Int :=
  let n := (x.magnitude + 1 / 2).floor
  if x.isNegative then -n else n

/-- The number nearest to the ratio of a circle's circumference to its diameter. -/
def pi : Binary64 := ⟨0x400921FB54442D18⟩

end Binary64
end OpenQasm
