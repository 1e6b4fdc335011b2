import OpenQasm.Decimal

/-! Rational multiples of pi with small denominators, found by a tolerance, and texts of angles. -/
namespace OpenQasm

/-- The angle `numerator * pi / denominator`. -/
structure PiMultiple where
  numerator : Int
  denominator : Nat
deriving DecidableEq, Repr

namespace PiMultiple

def maxDenominator : Nat := 16

def maxNumerator : Nat := 1000000

/-- The number nearest to `10 ^ -10`: how far `x * d / pi` may be from a whole number. -/
def tolerance : Binary64 := ⟨0x3DDB7CDFD9D7BDBB⟩

/-- The nonzero numerator that fits the denominator `d`, when `x * d / pi` is near enough to a
whole number that is not too large. -/
def numeratorAt (x : Binary64) (d : Nat) : Option Int :=
  let scaled := x.mul (.ofInt d)
  if !scaled.isFinite then none
  else
    let ratio := scaled.div .pi
    let n := ratio.roundAway
    if n = 0 ∨ maxNumerator < n.natAbs then none
    else if tolerance.magnitude < (ratio.sub (.ofInt n)).magnitude then none
    else some n

/-- The multiple of least denominator that a nonzero finite number stands for. -/
def of? (x : Binary64) : Option PiMultiple :=
  if !x.isFinite || x.isZero then none
  else (List.range maxDenominator).findSome? fun k =>
    (numeratorAt x (k + 1)).map fun n => ⟨n, k + 1⟩

/-- The text `n*pi/d`, without a numerator of 1, without a denominator of 1, and with the sign
alone for a numerator of -1. -/
def text (m : PiMultiple) : String :=
  let top :=
    if m.numerator = 1 then "pi"
    else if m.numerator = -1 then "-pi"
    else toString m.numerator ++ "*pi"
  if m.denominator = 1 then top else top ++ "/" ++ toString m.denominator

end PiMultiple

/-- The symbolic text of an angle, if it stands for a multiple of pi. -/
def Binary64.piText? (x : Binary64) : Option String := (PiMultiple.of? x).map PiMultiple.text

/-- The text of an angle; `fold` allows the symbolic form. -/
def Binary64.angleText (x : Binary64) (fold : Bool) : String :=
  if fold then x.piText?.getD x.literal else x.literal

end OpenQasm
