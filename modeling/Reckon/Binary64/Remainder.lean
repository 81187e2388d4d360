import Reckon.Binary64.Basic

/-!
# Remainder of a truncated division

`Binary64.remainder x y` is `x - n · y` for the quotient `x / y` cut to an integer `n`. The
difference is exact: brought to the smaller of the two exponents, both magnitudes are integers, and
their integer remainder has no more bits than the operands. The sign is that of the dividend, also
on a remainder of zero.

There is no remainder of an infinity and none by a zero; an infinite divisor leaves a finite
dividend as it is.
-/

namespace Reckon.Binary64

/-- The remainder of `m · 2 ^ e` by `m' · 2 ^ e'`, in units of `2 ^ min e e'`. -/
def alignedRemainder (m : Nat) (e : Int) (m' : Nat) (e' : Int) : Nat :=
  (m <<< (e - min e e').toNat) % (m' <<< (e' - min e e').toNat)

/-- What is left of `x` after the largest whole multiple of `y` toward zero. -/
def remainder (x y : Binary64) : Binary64 :=
  match x.unpack, y.unpack with
  | .notANumber, _ | _, .notANumber | .infinity _, _ | _, .zero _ => nan
  | .zero _, _ | .finite .., .infinity _ => x
  | .finite sign m e _, .finite _ m' e' _ =>
    match alignedRemainder m e m' e' with
    | 0 => zero sign
    | r => rounded sign r (min e e')

/-- The remainder of `7.5` by `2` is `1.5`, and that of `-4` by `2` is the negative zero. -/
example : remainder (rounded .positive 15 (-1)) (rounded .positive 2 0) = rounded .positive 3 (-1) ∧
    remainder (rounded .negative 4 0) (rounded .positive 2 0) = zero .negative := by
  decide

example : remainder one (zero .negative) = nan ∧ remainder one (infinity .negative) = one := by
  decide

end Reckon.Binary64
