/-!
# Double precision numbers

A double precision number as an exact value, the number nearest to a decimal
fraction, and the shortest decimal fraction that reads back as a given number.
All arithmetic is on natural numbers.
-/

namespace OpManifest.Decimal

/-- A number of the format binary64.  A finite number is
`mantissa * 2 ^ exponent` with its sign. -/
inductive Binary64 where
  | finite (negative : Bool) (mantissa : Nat) (exponent : Int)
  | infinite (negative : Bool)
  | notANumber
  deriving DecidableEq, Repr, Inhabited

/-- A decimal fraction: `digits * 10 ^ exponent` with its sign. -/
structure Fraction where
  negative : Bool
  digits : Nat
  exponent : Int
  deriving DecidableEq, Repr

namespace Binary64

/-- The quotient rounded to a natural number, a half to the even neighbour. -/
def divideToEven (num den : Nat) : Nat :=
  let quotient := num / den
  let twice := 2 * (num % den)
  if den < twice ∨ (twice = den ∧ quotient % 2 = 1) then quotient + 1 else quotient

/-- Multiplies the ratio by `base ^ power`. -/
def scale (base : Nat) (power : Int) (num den : Nat) : Nat × Nat :=
  if 0 ≤ power then (num * base.pow power.toNat, den) else (num, den * base.pow (-power).toNat)

/-- The number nearest to the ratio, of two the one with the even mantissa. -/
def ofRatio (negative : Bool) (num den : Nat) : Binary64 :=
  if num = 0 then .finite negative 0 (-1074)
  else
    let guess : Int := (num.log2 : Int) - (den.log2 : Int) - 52
    let (n, d) := scale 2 (-guess) num den
    let exponent := max (if n < d <<< 52 then guess - 1 else guess) (-1074)
    let (n, d) := scale 2 (-exponent) num den
    let mantissa := divideToEven n d
    let (mantissa, exponent) :=
      if mantissa = 1 <<< 53 then (1 <<< 52, exponent + 1) else (mantissa, exponent)
    if 971 < exponent then .infinite negative else .finite negative mantissa exponent

/-- How many decimal digits a positive number has. -/
def decimalLength (n : Nat) : Nat := (Nat.toDigits 10 n).length

/-- The number nearest to a decimal fraction.  Fractions far beyond the range
of the format are decided by the place of their first digit. -/
def ofFraction (f : Fraction) : Binary64 :=
  let firstPlace : Int := decimalLength f.digits + f.exponent
  if f.digits = 0 then .finite f.negative 0 (-1074)
  else if 400 < firstPlace then .infinite f.negative
  else if firstPlace < -400 then .finite f.negative 0 (-1074)
  else
    let (num, den) := scale 10 f.exponent f.digits 1
    ofRatio f.negative num den

/-- The ratio is below `10 ^ (place + 1)` and at least `10 ^ place`. -/
def leadingPlace (num den : Nat) : Int :=
  let guess : Int := (decimalLength num : Int) - (decimalLength den : Int)
  let (n, d) := scale 10 (-guess) num den
  if n < d then guess - 1 else guess

/-- The neighbours of the ratio on the grid `10 ^ exponent` that read back as
`target`, the nearer one first, of two equally near ones the even one. -/
def onGrid (target : Binary64) (negative : Bool) (num den : Nat) (exponent : Int) :
    Option Fraction :=
  let (n, d) := scale 10 (-exponent) num den
  let below := n / d
  let twice := 2 * (n % d)
  let nearest := if d < twice ∨ (twice = d ∧ below % 2 = 1) then [below + 1, below]
    else [below, below + 1]
  (nearest.map fun digits => ⟨negative, digits, exponent⟩).find? (ofFraction · = target)

/-- The exact decimal value of `mantissa * 2 ^ exponent`. -/
def exact (negative : Bool) (mantissa : Nat) (exponent : Int) : Fraction :=
  if 0 ≤ exponent then ⟨negative, mantissa <<< exponent.toNat, 0⟩
  else ⟨negative, mantissa * Nat.pow 5 (-exponent).toNat, exponent⟩

/-- A decimal fraction with as few digits as possible that reads back as the
number, and of those the nearest. -/
def shortest (negative : Bool) (mantissa : Nat) (exponent : Int) : Fraction :=
  let (num, den) := scale 2 exponent mantissa 1
  let place := leadingPlace num den
  let target := finite negative mantissa exponent
  if mantissa = 0 then ⟨negative, 0, 0⟩
  else
    let found := (List.range 17).findSome? fun (n : Nat) =>
      onGrid target negative num den (place - (n : Int))
    found.getD (exact negative mantissa exponent)

end Binary64

namespace Fraction

/-- The fraction in positional notation: no exponent, no point without digits
after it, at least one digit before it. -/
def positional (f : Fraction) : List Char :=
  let digits := Nat.toDigits 10 f.digits
  let sign := if f.negative then ['-'] else []
  if 0 ≤ f.exponent then
    sign ++ (if f.digits = 0 then ['0'] else digits ++ List.replicate f.exponent.toNat '0')
  else
    let places := (-f.exponent).toNat
    let padded := List.replicate (places + 1 - digits.length) '0' ++ digits
    let whole := padded.take (padded.length - places)
    let part := (padded.drop (padded.length - places)).reverse.dropWhile (· = '0') |>.reverse
    sign ++ whole ++ (if part.isEmpty then [] else '.' :: part)

end Fraction

namespace Binary64

/-- The number in positional notation with the fewest digits that read back. -/
def text : Binary64 → String
  | .finite negative mantissa exponent =>
    .ofList (shortest negative mantissa exponent).positional
  | .infinite negative => if negative then "-inf" else "inf"
  | .notANumber => "NaN"

end Binary64

end OpManifest.Decimal
