import GridAccess.Binary64.Text

/-!
Numeric constants. Integer arithmetic is exact while the result fits in 64 bits and goes
over to floating point when it does not.
-/

namespace GridAccess

inductive Literal where
  | int (n : Int64)
  | float (x : Binary64)
  deriving DecidableEq

namespace Literal

/-- The word for `n`, if there is one. -/
def wordOf? (n : Int) : Option Int64 :=
  if -0x8000000000000000 ≤ n ∧ n < 0x8000000000000000 then some (Int64.ofInt n) else none

def toBinary64 : Literal → Binary64
  | .int n => .ofInt64 n
  | .float x => x

def isZero : Literal → Bool
  | .int n => n = 0
  | .float x => x.isZero

def isOne : Literal → Bool
  | .int n => n = 1
  | .float x => x.isOne

def isNegative : Literal → Bool
  | .int n => n.toInt < 0
  | .float x => x.isNegative

/-- An operation that is exact on integers as long as the result fits. -/
def combine (exactly : Int → Int → Int) (rounded : Binary64 → Binary64 → Binary64)
    (a b : Literal) : Literal :=
  let fitting := match a, b with
    | .int m, .int n => wordOf? (exactly m.toInt n.toInt)
    | _, _ => none
  match fitting with
  | some n => .int n
  | none => .float (rounded a.toBinary64 b.toBinary64)

def add : Literal → Literal → Literal := combine (· + ·) Binary64.add

def mul : Literal → Literal → Literal := combine (· * ·) Binary64.mul

def neg : Literal → Literal
  | .int n =>
    match wordOf? (-n.toInt) with
    | some m => .int m
    | none => .float (Binary64.ofInt64 n).neg
  | .float x => .float x.neg

instance : Add Literal := ⟨add⟩

instance : Mul Literal := ⟨mul⟩

instance : Neg Literal := ⟨neg⟩

/-- The power as a chain of products, given up at the first one that does not fit. -/
def chain? (base : Int64) : Nat → Option Int64
  | 0 => some 1
  | n + 1 => (chain? base n).bind fun power => wordOf? (power.toInt * base.toInt)

/-- The power `base ^ n` if it fits. The powers of -1, 0 and 1 repeat, those of other bases have
left the range at the 64th. -/
def intPow? (base : Int64) (n : Nat) : Option Int64 :=
  if base.toInt.natAbs ≤ 1 then chain? base (if n = 0 then 0 else 2 - n % 2)
  else if n < 64 then chain? base n
  else none

/-- Integer exponents from here on are left to floating point. -/
def exponentLimit : Int := 0x100000000

/-- The power `base ^ exponent`, if it is a finite number. -/
def pow? (base exponent : Literal) : Option Literal :=
  let fitting := match base, exponent with
    | .int b, .int e =>
      if 0 ≤ e.toInt ∧ e.toInt < exponentLimit then intPow? b e.toInt.toNat else none
    | _, _ => none
  match fitting with
  | some n => some (.int n)
  | none =>
    let power := base.toBinary64.pow exponent.toBinary64
    if power.isFinite then some (.float power) else none

/-- Equality of integers, and nearness as soon as a float is involved. -/
def near : Literal → Literal → Bool
  | .int m, .int n => m = n
  | a, b => a.toBinary64.near b.toBinary64

/-- Equality of constants: an integer is never equal to a float. -/
def same : Literal → Literal → Bool
  | .int m, .int n => m = n
  | .float x, .float y => x.same y
  | _, _ => false

/-- All integers come before all floats. -/
def cmp : Literal → Literal → Ordering
  | .int m, .int n => compare m.toInt n.toInt
  | .int _, .float _ => .lt
  | .float _, .int _ => .gt
  | .float x, .float y => compare x y

instance : Ord Literal := ⟨cmp⟩

def text : Literal → String
  | .int n => toString n.toInt
  | .float x => x.text

end Literal

end GridAccess
