/-!
# Single-precision numbers, exactly

Numbers in the binary32 format as exact rationals, and the rounding that follows each operation on
them: the exact result goes to the nearest number of the format, a tie to the one with the even
significand.

## Main definitions

* `Binary32.value?` — the rational that a bit pattern stands for, if it stands for one.
* `Binary32.nearest` — the nearest number of the format to a rational.
-/
namespace Ps2Host

/-- A number in the binary32 format, given by its bit pattern. -/
structure Binary32 where
  bits : UInt32
  deriving DecidableEq, Repr

namespace Binary32

def negative (x : Binary32) : Bool := x.bits.toNat ≥ 0x80000000

def exponentField (x : Binary32) : Nat := x.bits.toNat / 0x800000 % 0x100

def fractionField (x : Binary32) : Nat := x.bits.toNat % 0x800000

/-- The pattern stands for no number and for no infinity. -/
def isNaN (x : Binary32) : Bool := x.exponentField == 0xFF && x.fractionField != 0

/-- The value without its sign; none for infinities and for what is no number. -/
def magnitude? (x : Binary32) : Option Rat :=
  if x.exponentField = 0xFF then none
  else if x.exponentField = 0 then some (x.fractionField * 2 ^ (-149 : Int))
  else some ((0x800000 + x.fractionField : Nat) * 2 ^ (x.exponentField - 150 : Int))

def value? (x : Binary32) : Option Rat :=
  x.magnitude?.map fun magnitude => if x.negative then -magnitude else magnitude

/-- The nearest integer; of two equally near, the even one. -/
def roundToInt (q : Rat) : Int :=
  let low := q.floor
  if q - low < 1 / 2 then low
  else if 1 / 2 < q - low then low + 1
  else low + low % 2

/-- The exponent of the largest power of two that is not above `q`, for a positive `q`. -/
def binade (q : Rat) : Int :=
  let exponent : Int := q.num.natAbs.log2 - q.den.log2
  if 2 ^ exponent ≤ q then exponent else exponent - 1

/-- The exponent of the distance between neighbouring numbers of the format around `q`. -/
def spacing (q : Rat) : Int := max (binade (if q < 0 then -q else q) - 23) (-149)

/-- The nearest number of the format, for a `q` that is below the overflow threshold. -/
def nearest (q : Rat) : Rat :=
  if q = 0 then 0 else roundToInt (q / 2 ^ spacing q) * 2 ^ spacing q

end Binary32

end Ps2Host
