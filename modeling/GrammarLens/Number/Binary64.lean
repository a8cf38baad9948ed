import GrammarLens.Text

/-!
Contract: binary floating-point numbers of 53 significant bits, by exact arithmetic.

Owns:
- the values, as a sign, a significand and a power of two;
- reading a decimal: the nearest value, and of two nearest the one with an even
  significand;
- writing a value: the fewest decimal digits that read back as the value;
- comparing a value with natural numbers. The value that is no number compares with none.

Does not own: arithmetic beyond what window bounds need.
-/

namespace GrammarLens

/-- A value `± significand · 2 ^ exponent`, an infinity, or the value that is no number. The
significand is below `2 ^ 53`, and at least `2 ^ 52` unless the exponent is the least one. -/
inductive Binary64 where
  | finite (negative : Bool) (significand : Nat) (exponent : Int)
  | infinite (negative : Bool)
  | notANumber
deriving DecidableEq, Repr

namespace Binary64

def leastExponent : Int := -1074

def greatestExponent : Int := 971

/-- The bound of significands: 53 bits. -/
def significandBound : Nat := Nat.pow 2 53

/-- The quotient of two numbers, to the nearest whole number; a half goes to the even one. -/
def roundDiv (numerator denominator : Nat) : Nat :=
  let quotient := numerator / denominator
  let doubled := 2 * (numerator % denominator)
  if doubled < denominator || (doubled = denominator && quotient % 2 = 0) then quotient
  else quotient + 1

/-- A ratio divided by a power of `base`, as a ratio again. -/
def unscale (base numerator denominator : Nat) (exponent : Int) : Nat × Nat :=
  (numerator * Nat.pow base (-exponent).toNat, denominator * Nat.pow base exponent.toNat)

/-- The value nearest to a ratio of natural numbers. -/
def ofRatio (negative : Bool) (numerator denominator : Nat) : Binary64 :=
  if numerator = 0 then finite negative 0 leastExponent
  else
    let wanted : Int := numerator.log2 - denominator.log2 - 53
    let least := if wanted < leastExponent then leastExponent else wanted
    let trial := unscale 2 numerator denominator least
    let exponent := if trial.1 / trial.2 < significandBound then least else least + 1
    let scaled := unscale 2 numerator denominator exponent
    let rounded := roundDiv scaled.1 scaled.2
    let value :=
      if rounded = significandBound then (significandBound / 2, exponent + 1)
      else (rounded, exponent)
    if greatestExponent < value.2 then infinite negative else finite negative value.1 value.2

/-- The value nearest to `digits · 10 ^ exponent`. Decimals that are certainly too large or too
small are settled before their power of ten is formed. -/
def ofDecimal (negative : Bool) (digits : Nat) (exponent : Int) : Binary64 :=
  let magnitude := exponent + (Text.ofNat digits).length
  if digits = 0 || magnitude < -400 then finite negative 0 leastExponent
  else if 400 < magnitude then infinite negative
  else
    let ratio := unscale 10 digits 1 (-exponent)
    ofRatio negative ratio.1 ratio.2

/-- The size of a finite value, as a ratio. -/
def ratio (significand : Nat) (exponent : Int) : Nat × Nat := unscale 2 significand 1 (-exponent)

def isZero : Binary64 → Bool
  | finite _ significand _ => significand = 0
  | infinite _ | notANumber => false

/-- Whether a value is zero or less. -/
def isAtMostZero : Binary64 → Bool
  | finite negative significand _ => negative || significand = 0
  | infinite negative => negative
  | notANumber => false

/-- Whether a value is less than a natural number. -/
def isBelow (value : Binary64) (n : Nat) : Bool :=
  match value with
  | finite negative significand exponent =>
    let size := ratio significand exponent
    if negative then n != 0 || significand != 0 else size.1 < n * size.2
  | infinite negative => negative
  | notANumber => false

/-- A positive value and a natural number, added and rounded. -/
def addNat (value : Binary64) (n : Nat) : Binary64 :=
  match value with
  | finite negative significand exponent =>
    let size := ratio significand exponent
    ofRatio negative (size.1 + n * size.2) size.2
  | infinite negative => infinite negative
  | notANumber => notANumber

/-- The power of ten just above a positive ratio: `10 ^ (k - 1) ≤ ratio < 10 ^ k`. -/
def decimalPoint (numerator denominator : Nat) : Int :=
  let guess : Int := (Text.ofNat numerator).length - (Text.ofNat denominator).length
  let scaled := unscale 10 numerator denominator guess
  if scaled.1 < scaled.2 then guess else guess + 1

/-- A decimal of `count` digits that reads back as the value, nearest first: its digits and
its power of ten. -/
def decimalOf? (significand : Nat) (exponent : Int) (count : Nat) : Option (Nat × Int) :=
  let size := ratio significand exponent
  let power := decimalPoint size.1 size.2 - count
  let scaled := unscale 10 size.1 size.2 power
  let below := scaled.1 / scaled.2
  let nearest := roundDiv scaled.1 scaled.2
  let other := if nearest = below then below + 1 else below
  ([nearest, other].find? fun digits =>
    ofDecimal false digits power = finite false significand exponent).map (·, power)

/-- The shortest decimal that reads back as the value. Seventeen digits always do. -/
def shortest (significand : Nat) (exponent : Int) : Nat × Int :=
  (((List.range 17).map (· + 1)).findSome? (decimalOf? significand exponent)).getD
    (significand, exponent)

/-- Digits with a decimal point `point` places after their start. -/
def renderPositional (digits : Text) (point : Int) : Text :=
  if point ≤ 0 then '0' :: '.' :: List.replicate (-point).toNat '0' ++ digits
  else if digits.length ≤ point.toNat then
    digits ++ List.replicate (point.toNat - digits.length) '0' ++ ['.', '0']
  else digits.take point.toNat ++ '.' :: digits.drop point.toNat

/-- Digits with the point after the first one, and a signed power of ten of two places or
more. -/
def renderScientific (digits : Text) (power : Int) : Text :=
  let fraction := if digits.length ≤ 1 then [] else '.' :: digits.drop 1
  let sign := if power < 0 then '-' else '+'
  let size := Text.ofNat power.natAbs
  let padded := if size.length < 2 then '0' :: size else size
  digits.take 1 ++ fraction ++ 'e' :: sign :: padded

/-- The fewest digits that read back. Values from `10 ^ -4` up to `10 ^ 16` are written
positionally, with at least one digit on each side of the point. -/
def render : Binary64 → Text
  | infinite negative => if negative then "-inf".toList else "inf".toList
  | notANumber => "nan".toList
  | finite negative significand exponent =>
    let sign := if negative then ['-'] else []
    if significand = 0 then sign ++ "0.0".toList
    else
      let decimal := shortest significand exponent
      let written := Text.ofNat decimal.1
      let point := decimal.2 + written.length
      let digits := Text.dropTrailing (· == '0') written
      sign ++
        if -4 < point && point ≤ 16 then renderPositional digits point
        else renderScientific digits (point - 1)

end Binary64

end GrammarLens
