import Reckon.Binary64.Basic

/-!
# Powers

`Binary64.power x y` is `x ^ y`, rounded once. The magnitude `exp (y · ln x)` is computed in fixed
point with `precision` fractional bits, far more than the result keeps, and then brought to the
nearest multiple of `2 ^ -guard` so that a power with few digits (`9 ^ 0.5`, `2 ^ -3`) comes out
exact before the rounding to the format.

* `Fixed.ln`, `Fixed.exp`: the two series.
* `Integrality`: whether an exponent is an even integer, an odd integer or no integer, which
  settles the sign of a power of a negative number.
* `power`: all cases. Every number, quiet NaN included, has the power `1` for the exponent zero,
  and the number `1` has the power `1` for every exponent.

Libraries of functions on floating-point numbers do not promise how exact their powers are, and this is
one choice among those they may make. The definition is irreducible: it is computed in examples, and what
is proved of expressions in general goes through with any other function of two numbers in its place.
-/

namespace Reckon.Binary64

open Float.Model.UnpackedFloat (Sign)

/-! ### Fixed-point series -/

namespace Fixed

/-- Fractional bits of a fixed-point number: the integer `v` stands for `v / 2 ^ precision`. -/
def precision : Nat := 320

/-- Terms summed of each series; the terms left out are below the last fractional bit. -/
def terms : Nat := 110

/-- The fixed-point number one. -/
def one : Int := 1 <<< precision

/-- The product of two fixed-point numbers, rounded down. -/
def mul (a b : Int) : Int :=
  (a * b) >>> precision

/-- `z ^ k / k + z ^ (k + 2) / (k + 2) + …`, with `n` terms, from `power = z ^ k` and
`square = z ^ 2`. -/
def oddSeries (square : Int) : (n : Nat) → (power : Int) → (k : Nat) → Int
  | 0, _, _ => 0
  | n + 1, power, k => power / k + oddSeries square n (mul power square) (k + 2)

/-- The logarithm of the fraction `a / b`, by `ln (a / b) = 2 · artanh ((a - b) / (a + b))`. It is
meant for fractions near one, where the series converges fast. -/
def lnRatio (a b : Int) : Int :=
  let z := (a - b) * one / (a + b)
  2 * oddSeries (mul z z) terms z 1

/-- The logarithm of two. -/
def ln2 : Int :=
  lnRatio 2 1

/-- The logarithm of `m · 2 ^ e` for `0 < m`. The mantissa is first brought between `3/4` and
`3/2` by a power of two. -/
def ln (m : Nat) (e : Int) : Int :=
  let bits : Int := m.log2
  let top : Nat := 1 <<< m.log2
  if 2 * m < 3 * top then lnRatio m top + (e + bits) * ln2
  else lnRatio m (2 * top) + (e + bits + 1) * ln2

/-- `t + t · r / (k + 1) + t · r ^ 2 / ((k + 1) · (k + 2)) + …`, with `n` terms, from the term
`t = r ^ k / k!`. -/
def expSeries (r : Int) : (n : Nat) → (term : Int) → (k : Nat) → Int
  | 0, _, _ => 0
  | n + 1, term, k => term + expSeries r n (mul term r / (k + 1)) (k + 1)

/-- The exponential of a fixed-point number near zero. -/
def exp (r : Int) : Int :=
  expSeries r terms one 0

end Fixed

/-! ### The magnitude of a power -/

/-- Fractional bits that a power keeps before it is rounded to the format. -/
def guard : Nat := 160

/-- The exponents of two at which a power has certainly left the range of the format. -/
def exponentBound : Int := 1200

/-- `± exp w`, rounded. With `n` the integer nearest to `w / ln 2`, this is
`exp (w - n · ln 2) · 2 ^ n`. -/
def roundedExp (sign : Sign) (w : Int) : Binary64 :=
  let n := (2 * w + Fixed.ln2) / (2 * Fixed.ln2)
  if n > exponentBound then infinity sign
  else if n < -exponentBound then zero sign
  else
    let dropped := Fixed.precision - guard
    let kept := (Fixed.exp (w - n * Fixed.ln2) + 1 <<< (dropped - 1)) >>> dropped
    rounded sign kept.toNat (n - guard)

/-- The fixed-point number `v` scaled by `m · 2 ^ e`. -/
def scale (v : Int) (m : Nat) (e : Int) : Int :=
  if 0 ≤ e then (v * m) <<< e.toNat else (v * m) >>> (-e).toNat

/-! ### The cases of a power -/

/-- What kind of integer, if any, an exponent is. -/
inductive Integrality where
  | even
  | odd
  | fractional
deriving DecidableEq, Repr

/-- The kind of the value `m · 2 ^ e`. -/
def Integrality.of (m : Nat) (e : Int) : Integrality :=
  if 0 < e then .even
  else
    let unit := 1 <<< (-e).toNat
    if m % unit ≠ 0 then .fractional
    else if (m / unit) % 2 = 0 then .even
    else .odd

/-- The sign of a power of a number with this sign, once the power is known to exist: only an odd
exponent keeps a minus. -/
def Integrality.sign (kind : Integrality) (base : Sign) : Sign :=
  if kind = .odd then base else .positive

/-- `x ^ y`, rounded to nearest.

* A signaling NaN gives NaN.
* The power is `1` if `y` is zero or `x` is `1`, whatever the other is; otherwise NaN gives NaN.
* An infinite exponent compares the magnitude of the base with one.
* The powers of zero and of an infinity are zero or infinite, by the sign of the exponent.
* A negative finite number has powers for integral exponents only. -/
@[irreducible]
def power (x y : Binary64) : Binary64 :=
  if x.isSignaling || y.isSignaling then nan
  else if x = one then one
  else
    match x.unpack, y.unpack with
    | _, .zero _ => one
    | .notANumber, _ | _, .notANumber => nan
    | _, .infinity direction =>
      let magnitude := x.toFloat.abs
      if magnitude == 1 then one
      else if (magnitude < 1) == (direction == .positive) then zero .positive
      else infinity .positive
    | .zero sign, .finite .positive n f _ => zero ((Integrality.of n f).sign sign)
    | .zero sign, .finite .negative n f _ => infinity ((Integrality.of n f).sign sign)
    | .infinity sign, .finite .positive n f _ => infinity ((Integrality.of n f).sign sign)
    | .infinity sign, .finite .negative n f _ => zero ((Integrality.of n f).sign sign)
    | .finite sign m e _, .finite direction n f _ =>
      let kind := Integrality.of n f
      if sign == .negative && kind = .fractional then nan
      else roundedExp (kind.sign sign) (direction.apply (scale (Fixed.ln m e) n f))

/-- The square root of nine, and a power of a negative number. -/
example : power (rounded .positive 9 0) (rounded .positive 1 (-1)) = rounded .positive 3 0 ∧
    power (rounded .negative 1 1) (rounded .negative 3 0) = rounded .negative 1 (-3) := by
  decide +kernel

/-- A quiet NaN has the power `1` for the exponent zero, a signaling one has not. -/
example : power nan (zero .negative) = one ∧
    power ⟨0x7ff0000000000001⟩ (zero .negative) = nan := by
  decide +kernel

end Reckon.Binary64
