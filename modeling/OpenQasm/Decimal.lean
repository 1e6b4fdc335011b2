import OpenQasm.Binary64

/-! The shortest decimal that reads back as a number, and texts with a fixed number of places. -/
namespace OpenQasm

/-- The decimal `digits * 10 ^ exponent`. -/
structure Decimal where
  digits : Nat
  exponent : Int
deriving DecidableEq, Repr

/-- The exponent `k` with `10 ^ k ≤ num / den < 10 ^ (k + 1)`, for a positive quotient. -/
def decimalExponent (num den : Nat) : Int :=
  let k : Int := ((Nat.toDigits 10 num).length : Int) - ((Nat.toDigits 10 den).length : Int)
  if den * Nat.pow 10 k.toNat ≤ num * Nat.pow 10 (-k).toNat then k else k - 1

/-- Decimal digits, filled up with zeros on the left to a least width. -/
def paddedDigits (width n : Nat) : List Char :=
  let ds := Nat.toDigits 10 n
  List.replicate (width - ds.length) '0' ++ ds

theorem width_le_length_paddedDigits (width n : Nat) : width ≤ (paddedDigits width n).length := by
  simp only [paddedDigits, List.length_append, List.length_replicate]
  omega

namespace Decimal

def toRat (d : Decimal) : Rat := (d.digits : Rat) * (10 : Rat) ^ d.exponent

/-- Whether rounding the decimal gives the number `x`. -/
def readsAs (d : Decimal) (x : Binary64) : Bool := Binary64.ofRat d.toRat == x

/-- The decimal equal to a nonnegative number. -/
def exact (x : Binary64) : Decimal :=
  ⟨x.significand * Nat.pow 2 x.scale.toNat * Nat.pow 5 (-x.scale).toNat, min x.scale 0⟩

/-- A decimal of `precision` digits that reads back as the positive number `x`, whose first
digit has exponent `lead`. Of the two neighbours of `x` on that grid the nearer is taken, at
the same distance the one with an even last digit. -/
def withPrecision (x : Binary64) (lead : Int) (precision : Nat) : Option Decimal :=
  let e := lead - precision + 1
  let scaled := x.magnitude / (10 : Rat) ^ e
  let below := scaled.floor.toNat
  let low : Decimal := ⟨below, e⟩
  let high : Decimal :=
    if below + 1 = Nat.pow 10 precision then ⟨1, lead + 1⟩ else ⟨below + 1, e⟩
  let rest := scaled - (below : Rat)
  let preferLow := decide (rest < 1 / 2) || (rest == 1 / 2 && below % 2 == 0)
  let (first, second) := if preferLow then (low, high) else (high, low)
  if first.readsAs x then some first
  else if second.readsAs x then some second
  else none

/-- The shortest decimal that reads back as the nonnegative number `x`. Seventeen digits
always do; the exact decimal stands in for a search that finds none. -/
def shortest (x : Binary64) : Decimal :=
  if x.isZero then ⟨0, 0⟩
  else
    let lead := decimalExponent x.magnitude.num.natAbs x.magnitude.den
    ((List.range 17).findSome? fun k => withPrecision x lead (k + 1)).getD (exact x)

/-- Digits with a point after the one of exponent 0, and at least one digit on each side. -/
def positional (ds : List Char) (lead : Int) : List Char :=
  if lead < 0 then '0' :: '.' :: (List.replicate (-lead - 1).toNat '0' ++ ds)
  else
    let whole := (lead + 1).toNat
    let fraction := if ds.length ≤ whole then ['0'] else ds.drop whole
    ds.take whole ++ List.replicate (whole - ds.length) '0' ++ '.' :: fraction

/-- One digit, the others after a point, and a signed exponent of at least two digits. -/
def scientific (ds : List Char) (lead : Int) : List Char :=
  let fraction := if ds.length ≤ 1 then [] else '.' :: ds.drop 1
  let sign := if lead < 0 then '-' else '+'
  ds.take 1 ++ fraction ++ 'e' :: sign :: paddedDigits 2 lead.natAbs

/-- The exponent of the first digit decides the layout: positional from -4 to 15. -/
def text (d : Decimal) : List Char :=
  let ds := Nat.toDigits 10 d.digits
  let lead := d.exponent + ds.length - 1
  if -4 ≤ lead ∧ lead < 16 then positional ds lead else scientific ds lead

end Decimal

namespace Binary64

def abs (x : Binary64) : Binary64 := ⟨UInt64.ofNat (x.bits.toNat % Nat.pow 2 63)⟩

def signText (x : Binary64) : String := if x.isNegative then "-" else ""

/-- The sign, also of a zero or of what is not a number, and then the text of the number without
it. -/
def signedText (x : Binary64) (finite : Binary64 → List Char) : String :=
  x.signText ++
    (if x.isNaN then "nan"
    else if !x.isFinite then "inf"
    else String.ofList (finite x.abs))

/-- A literal with the fewest digits that read back. A finite one has a point or an exponent. -/
def literal (x : Binary64) : String := x.signedText fun y => (Decimal.shortest y).text

/-- The nonnegative rational `r` rounded to `places` decimal places. -/
def fixedPlaces (places : Nat) (r : Rat) : List Char :=
  let ds := paddedDigits (places + 1) (roundQuotient (r.num.natAbs * Nat.pow 10 places) r.den)
  let whole := ds.length - places
  ds.take whole ++ '.' :: ds.drop whole

/-- The text with six decimal places. -/
def sixPlaces (x : Binary64) : String := x.signedText fun y => fixedPlaces 6 y.magnitude

end Binary64
end OpenQasm
