/-!
# Binary64 numbers

A number of the calculator is an IEEE 754 binary64 datum, kept as its bit pattern. The pattern says
more than the value: it tells the two zeros apart, and a quiet NaN from a signaling one.

* `Binary64`: the datum. Equality of data is equality of bit patterns.
* `Binary64.equal`: equality of numbers, which identifies the two zeros and holds of no NaN.
* `Binary64.unpack`, `Binary64.pack`: the datum seen as sign, mantissa and exponent, and back.
* `Binary64.rounded`: the number nearest to `± m · 2 ^ e`, a tie going to the even mantissa.
* Sum, difference, product and quotient are those of `Float`, rounded once.
-/

namespace Reckon

open Float.Model (UnpackedFloat Format)
open Float.Model.UnpackedFloat (Sign)

/-- A binary64 datum, by its bit pattern. -/
structure Binary64 where
  /-- Sign bit, eleven exponent bits and fifty-two fraction bits, from the highest down. -/
  bits : UInt64
deriving DecidableEq, Hashable, Repr

namespace Binary64

/-! ### Reading and writing -/

/-- The datum as a floating-point value, which forgets the payload of a NaN. -/
def toFloat (x : Binary64) : Float :=
  .ofBits x.bits

/-- The datum of a floating-point value; a NaN is written as the quiet one without payload. -/
def ofFloat (x : Float) : Binary64 :=
  ⟨x.toBits⟩

/-- The class of a datum and, if it is finite and not zero, its exact value. -/
def unpack (x : Binary64) : UnpackedFloat :=
  .unpack .binary64 x.bits.toBitVec

/-- The datum of a class and value that fit the format. -/
def pack (u : UnpackedFloat) : Binary64 :=
  ⟨.ofBitVec (UnpackedFloat.pack .binary64 u)⟩

/-- The number nearest to `± mantissa · 2 ^ exponent`. Ties go to the even mantissa, a magnitude
beyond the largest finite number becomes infinite, and one of at most half the least positive number
becomes zero; the sign is kept in all cases. -/
def rounded (sign : Sign) (mantissa : Nat) (exponent : Int) : Binary64 :=
  pack (.round .binary64 sign mantissa exponent)

/-- Zero with a sign. -/
def zero (sign : Sign) : Binary64 :=
  pack (.zero sign)

/-- Infinity with a sign. -/
def infinity (sign : Sign) : Binary64 :=
  pack (.infinity sign)

/-- The number one. -/
def one : Binary64 :=
  ⟨0x3ff0000000000000⟩

/-- The quiet NaN without payload. -/
def nan : Binary64 :=
  ⟨0x7ff8000000000000⟩

/-! ### Classes and comparison -/

/-- Not a number, of any sign and payload. -/
def isNaN (x : Binary64) : Bool :=
  x.toFloat.isNaN

/-- A NaN whose highest fraction bit is clear. Such a datum arises only as given: every operation
that yields NaN yields a quiet one. -/
def isSignaling (x : Binary64) : Bool :=
  x.isNaN && x.bits &&& 0x0008000000000000 == 0

/-- Equality of numbers: the two zeros are equal, and a NaN equals nothing. -/
def equal (x y : Binary64) : Bool :=
  x.toFloat == y.toFloat

/-- Zero of either sign. -/
def isZero (x : Binary64) : Bool :=
  x.toFloat == 0

/-! ### Rounded arithmetic -/

instance : Add Binary64 := ⟨fun x y => ofFloat (x.toFloat + y.toFloat)⟩
instance : Sub Binary64 := ⟨fun x y => ofFloat (x.toFloat - y.toFloat)⟩
instance : Mul Binary64 := ⟨fun x y => ofFloat (x.toFloat * y.toFloat)⟩
instance : Div Binary64 := ⟨fun x y => ofFloat (x.toFloat / y.toFloat)⟩

example : one + one = rounded .positive 1 1 ∧ one / (one + one) = rounded .positive 1 (-1) := by
  decide

example : (zero .positive).equal (zero .negative) = true ∧ nan.equal nan = false := by decide

example : isSignaling ⟨0x7ff0000000000001⟩ = true ∧ isSignaling nan = false := by decide

end Binary64

end Reckon
