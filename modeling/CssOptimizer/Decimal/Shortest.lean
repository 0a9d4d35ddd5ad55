import CssOptimizer.Decimal.Binary64

/-!
# The shortest decimal of a double

`shortest x` is the decimal with the fewest digits that reads back as the double `x`, and among
those the nearest one.  `shortestText x` prints it: positional from `0.00001` up to below
`10^16`, always with a point, and outside with an exponent that carries its sign.

* `Interval`      the decimals that read back as a double, as fractions over one denominator;
* `candidate?`    the better of the two neighbours of the value with a given number of digits.
-/

namespace CssOptimizer.Decimal

/-- the number `digits · 10^exponent` -/
structure Scaled where
  digits : Nat
  exponent : Int
  deriving DecidableEq

/-- the number of decimal digits -/
def countDigits (n : Nat) : Nat := (Nat.toDigits 10 n).length

/-- four times the value and the ends of the interval of numbers that round to it, on the grid
`10^exponent`: all three over the same denominator -/
structure Interval where
  low : Nat
  value : Nat
  high : Nat
  denominator : Nat
  /-- whether the ends themselves round to the value -/
  closed : Bool

/-- the interval of a double on the grid `10^exponent` -/
def Interval.ofBinary64 (x : Binary64) (exponent : Int) : Interval :=
  let scale (n : Nat) : Nat := n * Nat.pow 2 x.exponent.toNat * Nat.pow 10 (-exponent).toNat
  { low := scale (4 * x.significand - if x.isLowest then 1 else 2)
    value := scale (4 * x.significand)
    high := scale (4 * x.significand + 2)
    denominator := 4 * Nat.pow 2 (-x.exponent).toNat * Nat.pow 10 exponent.toNat
    closed := x.significand % 2 == 0 }

/-- whether a point of the grid lies in the interval -/
def Interval.has (i : Interval) (n : Nat) : Bool :=
  let p := n * i.denominator
  if i.closed then i.low ≤ p && p ≤ i.high else i.low < p && p < i.high

/-- the better of the two neighbours of the value on the grid, if one lies in the interval -/
def Interval.nearest? (i : Interval) : Option Nat :=
  let below := i.value / i.denominator
  let above := below + 1
  let rest := 2 * (i.value % i.denominator)
  match i.has below, i.has above with
  | false, false => none
  | true, false => some below
  | false, true => some above
  | true, true =>
    if rest < i.denominator ∨ (rest = i.denominator ∧ below % 2 = 0) then some below
    else some above

/-- the exponent of the power of ten just above a positive number -/
def magnitude (x : Binary64) : Int :=
  countDigits (x.numerator 400 / x.denominator) - 400

def candidate? (x : Binary64) (count : Nat) : Option Scaled :=
  let exponent := magnitude x - count
  (Interval.ofBinary64 x exponent).nearest?.map fun n => ⟨n, exponent⟩

/-- without the zeros at the end of the digits; `fuel` bounds their number -/
def Scaled.strip : Nat → Scaled → Scaled
  | 0, d => d
  | fuel + 1, d =>
    if d.digits ≠ 0 ∧ d.digits % 10 = 0 then strip fuel ⟨d.digits / 10, d.exponent + 1⟩ else d

/-- the decimal with the fewest digits that reads back as `x`; seventeen always do -/
def shortest (x : Binary64) : Scaled :=
  if x.significand = 0 then ⟨0, 0⟩
  else
    let d := ((List.range' 1 17).findSome? (candidate? x)).getD ⟨0, 0⟩
    d.strip (countDigits d.digits)

/-! ## text -/

def zeros (n : Nat) : List Char := List.replicate n '0'

/-- an exponent always carries its sign -/
def signedText (n : Int) : List Char :=
  (if n < 0 then '-' else '+') :: Nat.toDigits 10 n.natAbs

/-- a decimal without sign: positional while the point stands behind at most sixteen digits or
before at most four zeros -/
def Scaled.text (d : Scaled) : List Char :=
  let digits := Nat.toDigits 10 d.digits
  let point := digits.length + d.exponent
  if 0 ≤ d.exponent ∧ point ≤ 16 then digits ++ zeros d.exponent.toNat ++ ['.', '0']
  else if 0 < point ∧ point ≤ 16 then
    digits.take point.toNat ++ '.' :: digits.drop point.toNat
  else if -5 < point ∧ point ≤ 0 then '0' :: '.' :: (zeros (-point).toNat ++ digits)
  else
    digits.take 1 ++ (if digits.length = 1 then [] else '.' :: digits.drop 1) ++
      'e' :: signedText (point - 1)

def shortestText (x : Float) : String :=
  let b := Binary64.ofFloat x
  (if b.negative then "-" else "") ++ String.ofList (shortest b).text

end CssOptimizer.Decimal
