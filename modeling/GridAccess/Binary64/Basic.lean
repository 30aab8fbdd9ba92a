/-!
Binary64 numbers kept as their 64 bits: a sign, eleven bits of exponent and 52 of fraction.
Sums, products and powers are those of the machine. The order puts every NaN above
infinity and takes the two zeros as one number.
-/

namespace GridAccess

structure Binary64 where
  bits : UInt64
  deriving DecidableEq

namespace Binary64

def ofFloat (x : Float) : Binary64 := ⟨x.toBits⟩

def toFloat (x : Binary64) : Float := Float.ofBits x.bits

/-- The nearest number, of two equally near ones that with an even fraction. -/
def ofInt64 (n : Int64) : Binary64 := ofFloat (.ofModel (.ofInt64 n))

def add (x y : Binary64) : Binary64 := ofFloat (x.toFloat + y.toFloat)

def mul (x y : Binary64) : Binary64 := ofFloat (x.toFloat * y.toFloat)

def signBit : Nat := 0x8000000000000000

def isSigned (x : Binary64) : Bool := signBit ≤ x.bits.toNat

/-- The bits below the sign. -/
def magnitude (x : Binary64) : Nat := x.bits.toNat % signBit

/-- The magnitude of infinity: all exponent bits set and no fraction. -/
def infinity : Nat := 0x7ff0000000000000

def isNaN (x : Binary64) : Bool := infinity < x.magnitude

def isFinite (x : Binary64) : Bool := x.magnitude < infinity

/-- Flips the sign, also of a zero and of a NaN. -/
def neg (x : Binary64) : Binary64 := ⟨x.bits ^^^ 0x8000000000000000⟩

/-- The number's position in the order: both zeros at 0, every NaN just above infinity. -/
def rank (x : Binary64) : Int :=
  if x.isNaN then infinity + 1
  else if x.isSigned then -(x.magnitude : Int)
  else x.magnitude

instance : Ord Binary64 := ⟨compareOn rank⟩

/-- Equality of numbers: NaN is equal to NaN and the zeros are equal. -/
def same (x y : Binary64) : Bool :=
  if x.isNaN then y.isNaN
  else if x.magnitude = 0 then y.magnitude = 0
  else x.bits = y.bits

def isZero (x : Binary64) : Bool := x.magnitude = 0

def isOne (x : Binary64) : Bool := x.bits = 0x3ff0000000000000

/-- The number with the sign of `x` and the given bits below it. -/
def withMagnitude (x : Binary64) (m : UInt64) : Binary64 :=
  if x.isSigned then ⟨0x8000000000000000 + m⟩ else ⟨m⟩

/-- The magnitude of a power of zero. -/
def zeroPower (exponent : Binary64) : UInt64 :=
  if exponent.isNaN then 0x7ff8000000000000
  else if exponent.isSigned then 0x7ff0000000000000
  else 0

/-- The power of the machine. With the exponent 0 it is 1, and with the base 0 it is zero or not
finite, so that there the machine only has a say in the sign. -/
def pow (x y : Binary64) : Binary64 :=
  let power := ofFloat (Float.pow x.toFloat y.toFloat)
  if y.isZero then ⟨0x3ff0000000000000⟩
  else if x.isZero then power.withMagnitude y.zeroPower
  else power

def isNegative (x : Binary64) : Bool := x.isSigned && !x.isNaN && !x.isZero

/-- At most this many units in the last place separate numbers that are nearly equal. -/
def ulpMargin : Int := 4

/-- The distance from 1 to the next number, the absolute margin of `near`. -/
def epsilon : Binary64 := ⟨0x3cb0000000000000⟩

/-- The bits rearranged so that words are ordered as signed magnitudes are: the words of negative
numbers are complemented and stand below those of the others. -/
def orderedWord (x : Binary64) : UInt64 :=
  if x.isSigned then ~~~x.bits else x.bits ^^^ 0x8000000000000000

/-- How many words `x` is above `y`, around the circle of all words. -/
def ulps (x y : Binary64) : Int := (x.orderedWord - y.orderedWord).toInt64.toInt

/-- Equal, or apart by at most `epsilon`, or by at most `ulpMargin` as words. -/
def near (x y : Binary64) : Bool :=
  (!x.isNaN && x.same y)
    || (x.toFloat - y.toFloat).abs <= epsilon.toFloat
    || ((x.ulps y).natAbs : Int) ≤ ulpMargin

end Binary64

end GridAccess
