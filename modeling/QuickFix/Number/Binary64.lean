/-!
# Binary64 values and their shortest decimal text

A **binary64** value is a double-precision floating-point number, decoded: a sign with either
infinity, not-a-number, or `mantissa * 2 ^ exponent` where the mantissa has at most 53 bits and
the exponent is at least `-1074`. Everything here is exact `Nat` arithmetic; no runtime float
is involved.

* `Binary64.ofDecimal` is the value nearest to `digits * 10 ^ exp`, a tie going to the even
  mantissa, and infinity beyond the largest finite value.
* `Binary64.shortest` is the decimal with the fewest significant digits that lies within the
  rounding interval of the value (ends included when the mantissa is even), the nearer of two
  candidates, a tie going up.
* `Binary64.plain` writes it in positional notation, never with an exponent: `3.5`, `100`,
  `0.0001`, `-0`, `inf`, `NaN`.
-/

namespace QuickFix

/-- A decoded double-precision value. -/
inductive Binary64 where
  /-- `(-1) ^ negative * mantissa * 2 ^ exponent`, with `mantissa < 2 ^ 53` and
  `exponent ≥ -1074`. -/
  | finite (negative : Bool) (mantissa : Nat) (exponent : Int)
  | infinite (negative : Bool)
  | nan
  deriving DecidableEq, Repr, Inhabited

namespace Binary64

/-- The exponent of the smallest subnormal value. -/
def minExponent : Int := -1074

/-- The largest exponent of a finite value. -/
def maxExponent : Int := 971

/-- The number of decimal digits of a number; one for zero. -/
def decimalLength (n : Nat) : Nat := (Nat.toDigits 10 n).length

/-- The fraction `p / (q * 2 ^ e)`, as a numerator and a denominator. -/
def scaleBinary (p q : Nat) (e : Int) : Nat × Nat :=
  if 0 ≤ e then (p, q * Nat.pow 2 e.toNat) else (p * Nat.pow 2 (-e).toNat, q)

/-- The nearest whole number to a fraction, a tie going to the even one. -/
def roundHalfEven (num den : Nat) : Nat :=
  let m := num / den
  let r := num % den
  if 2 * r > den || (2 * r == den && m % 2 == 1) then m + 1 else m

/-- The binary64 value nearest to the positive fraction `p / q`. Its exponent `e` is the one
that puts `p / (q * 2 ^ e)` between `2 ^ 52` and `2 ^ 53`, or the least one. -/
def ofFraction (negative : Bool) (p q : Nat) : Binary64 :=
  let e0 : Int := (Nat.log2 p : Int) - (Nat.log2 q : Int) - 52
  let (n0, d0) := scaleBinary p q e0
  let e1 := if n0 / d0 < Nat.pow 2 52 then e0 - 1 else e0
  let e := max e1 minExponent
  let (n, d) := scaleBinary p q e
  let m := roundHalfEven n d
  let (m, e) := if m == Nat.pow 2 53 then (Nat.pow 2 52, e + 1) else (m, e)
  if e > maxExponent then .infinite negative else .finite negative m e

/-- The binary64 value nearest to `digits * 10 ^ exp`. A value of more than 310 decimal places
is infinite and one below `10 ^ -325` is zero without computing them. -/
def ofDecimal (negative : Bool) (digits : Nat) (exp : Int) : Binary64 :=
  let len : Int := decimalLength digits
  if digits == 0 || len + exp < -324 then .finite negative 0 minExponent
  else if len + exp > 310 then .infinite negative
  else if 0 ≤ exp then ofFraction negative (digits * Nat.pow 10 exp.toNat) 1
  else ofFraction negative digits (Nat.pow 10 (-exp).toNat)

/-- `a * 10 ^ k` compared with `x / r`: less, equal or greater. -/
def compareScaled (a : Nat) (k : Int) (x r : Nat) : Ordering :=
  if 0 ≤ k then compare (a * Nat.pow 10 k.toNat * r) x else compare (a * r) (x * Nat.pow 10 (-k).toNat)

/-- The shortest decimal within the rounding interval of `mantissa * 2 ^ exponent`, as its
significant digits and the exponent of their last digit. -/
def shortestDigits (mantissa : Nat) (exponent : Int) : Nat × Int :=
  -- the value is `p / q`; the interval ends are `(4p ± h) / 4q`, the lower one closer for the
  -- smallest mantissa of a binade
  let (p, q) := scaleBinary mantissa 1 (-exponent)
  let r := 4 * q
  let v := 4 * p
  let h := 2 * (if 0 ≤ exponent then Nat.pow 2 exponent.toNat else 1)
  let lo := if mantissa == Nat.pow 2 52 && exponent > minExponent then v - h / 2 else v - h
  let hi := v + h
  let inclusive := mantissa % 2 == 0
  let within := fun (c : Nat) (k : Int) =>
    let above := compareScaled c k lo r
    let below := compareScaled c k hi r
    if inclusive then above != .lt && below != .gt else above == .gt && below == .lt
  let top : Int := (decimalLength p : Int) - (decimalLength q : Int)
  let top := if compareScaled 1 top p q == .gt then top - 1 else top
  let candidate := fun (len : Nat) =>
    let k := top - (len : Int) + 1
    let down := if 0 ≤ k then p / (q * Nat.pow 10 k.toNat) else p * Nat.pow 10 (-k).toNat / q
    let up := down + 1
    match within down k, within up k with
    | true, true =>
      -- the nearer one, a tie going up
      let toDown := if 0 ≤ k then 4 * p - 4 * q * down * Nat.pow 10 k.toNat
        else 4 * p * Nat.pow 10 (-k).toNat - 4 * q * down
      let toUp := if 0 ≤ k then 4 * q * up * Nat.pow 10 k.toNat - 4 * p
        else 4 * q * up - 4 * p * Nat.pow 10 (-k).toNat
      some (if toDown < toUp then down else up, k)
    | true, false => some (down, k)
    | false, true => some (up, k)
    | false, false => none
  ((List.range 17).findSome? fun i => candidate (i + 1)).getD (p, 0)

/-- Removes the trailing zeros of a number of significant digits, moving its exponent. -/
def trimZeros : Nat → Nat → Int → Nat × Int
  | 0, d, k => (d, k)
  | fuel + 1, d, k => if d != 0 && d % 10 == 0 then trimZeros fuel (d / 10) (k + 1) else (d, k)

/-- The shortest digits of a finite value, without trailing zeros. -/
def shortest (mantissa : Nat) (exponent : Int) : Nat × Int :=
  if mantissa == 0 then (0, 0)
  else
    let (d, k) := shortestDigits mantissa exponent
    trimZeros (decimalLength d) d k

/-- Digits `d` times `10 ^ k` in positional notation. -/
def positional (d : Nat) (k : Int) : String :=
  let ds := Nat.toDigits 10 d
  let n : Int := ds.length
  let point := n + k
  if d == 0 then "0"
  else if point ≤ 0 then "0." ++ String.ofList (List.replicate (-point).toNat '0' ++ ds)
  else if point < n then
    String.ofList (ds.take point.toNat) ++ "." ++ String.ofList (ds.drop point.toNat)
  else String.ofList (ds ++ List.replicate k.toNat '0')

/-- The value in positional notation with its shortest digits. -/
def plain : Binary64 → String
  | .nan => "NaN"
  | .infinite neg => if neg then "-inf" else "inf"
  | .finite neg m e =>
    let (d, k) := shortest m e
    (if neg then "-" else "") ++ positional d k

/-- The value is positive infinity. -/
def isPositiveInfinity : Binary64 → Bool
  | .infinite false => true
  | _ => false

/-- The value with its sign flipped. -/
def negate : Binary64 → Binary64
  | .finite neg m e => .finite (!neg) m e
  | .infinite neg => .infinite (!neg)
  | .nan => .nan

end Binary64

end QuickFix
