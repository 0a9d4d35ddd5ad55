/-!
# Double-precision numbers as exact fractions

A finite double is `±m · 2^q` with a whole number `m`.  What has to be printed exactly is worked
out on `m` and `q`.

* `Binary64.ofBits`     the sign, `m` and `q` of the 64 bits of a finite double;
* `Binary64.numerator`, `Binary64.denominator`   the magnitude as a fraction;
* `roundHalfEven`       a quotient rounded to the nearest whole number, a half to the even one;
* `oneDecimal`          a double with one digit behind the point, a half going to the even digit.
-/

namespace CssOptimizer.Decimal

/-- a finite double, `±significand · 2^exponent` -/
structure Binary64 where
  negative : Bool
  significand : Nat
  exponent : Int
  /-- whether the next smaller double is only half as far away as the next larger one -/
  isLowest : Bool
  deriving DecidableEq

namespace Binary64

def ofBits (bits : Nat) : Binary64 :=
  let fraction : Nat := bits % Nat.pow 2 52
  let field : Nat := bits / Nat.pow 2 52 % Nat.pow 2 11
  { negative := bits / Nat.pow 2 63 % 2 == 1
    significand := if field = 0 then fraction else fraction + Nat.pow 2 52
    exponent := (if field = 0 then 1 else (field : Int)) - 1075
    isLowest := fraction == 0 && 1 < field }

def ofFloat (x : Float) : Binary64 := ofBits x.toBits.toNat

def numerator (x : Binary64) (places : Nat) : Nat :=
  x.significand * Nat.pow 2 x.exponent.toNat * Nat.pow 10 places
def denominator (x : Binary64) : Nat := Nat.pow 2 (-x.exponent).toNat

end Binary64

def roundHalfEven (num den : Nat) : Nat :=
  let q := num / den
  let r := num % den
  if 2 * r < den ∨ (2 * r = den ∧ q % 2 = 0) then q else q + 1

/-- a count of tenths with a point before the last digit -/
def tenths (n : Nat) : String := toString (n / 10) ++ "." ++ toString (n % 10)

def oneDecimal (x : Float) : String :=
  let b := Binary64.ofFloat x
  (if b.negative then "-" else "") ++ tenths (roundHalfEven (b.numerator 1) b.denominator)

end CssOptimizer.Decimal
