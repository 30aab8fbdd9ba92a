import GridAccess.Binary64.Basic

/-!
The fewest decimal digits that read back as a given finite nonzero number, found in exact
arithmetic. A number is the middle of an interval of reals that round to it. On the grid of
decimals with one digit, then two, and so on, the two neighbours of the number are tried
against that interval; the first grid with a hit wins, and of two hits the nearer one.
-/

namespace GridAccess.Binary64

/-- The number `digits * 10 ^ exponent`, with a nonzero last digit. -/
structure Decimal where
  digits : Nat
  exponent : Int
  deriving DecidableEq

/-- The reals `low / scale` to `high / scale` round to `middle / scale`, the ends themselves only
when `closed`. -/
structure Interval where
  low : Nat
  middle : Nat
  high : Nat
  scale : Nat
  closed : Bool

/-- The one in front of the 52 bits of the fraction. -/
def leadingOne : Nat := 0x10000000000000

/-- The fraction with its leading one, which a subnormal number lacks. -/
def significand (x : Binary64) : Nat :=
  if x.magnitude < leadingOne then x.magnitude else x.magnitude % leadingOne + leadingOne

/-- The power of two that the significand counts, plus 1075. -/
def biasedExponent (x : Binary64) : Nat := max 1 (x.magnitude / leadingOne)

/-- Half the gap to the next number on each side; below a power of two the gap is half as wide. -/
def interval (x : Binary64) : Interval :=
  let m := x.significand
  let below := if m = leadingOne ∧ 1 < x.biasedExponent then 1 else 2
  let up := Nat.pow 2 (x.biasedExponent - 1077)
  { low := (4 * m - below) * up
    middle := 4 * m * up
    high := (4 * m + 2) * up
    scale := Nat.pow 2 (1077 - x.biasedExponent)
    closed := m % 2 = 0 }

def Interval.holds (i : Interval) (numerator denominator : Nat) : Bool :=
  let a := numerator * i.scale
  let low := i.low * denominator
  let high := i.high * denominator
  if i.closed then low ≤ a && a ≤ high else low < a && a < high

/-- The exponent of the leading decimal digit of the positive fraction `n / d`. -/
def leadingExponent (n d : Nat) : Int :=
  if d ≤ n then (Nat.toDigits 10 (n / d)).length - 1
  else -(Nat.toDigits 10 ((d + n - 1) / n - 1)).length

/-- The neighbours `q` and `q + 1` of the number on the grid of multiples of `10 ^ exponent`: a
neighbour in the interval, the nearer one if both are, the upper one if they are equally near. -/
def Interval.onGrid? (i : Interval) (exponent : Int) : Option Nat :=
  let up := Nat.pow 10 exponent.toNat
  let down := Nat.pow 10 (-exponent).toNat
  let q := i.middle * down / (i.scale * up)
  let rest := i.middle * down % (i.scale * up)
  match i.holds (q * up) down, i.holds ((q + 1) * up) down with
  | true, true => some (if 2 * rest < i.scale * up then q else q + 1)
  | true, false => some q
  | false, true => some (q + 1)
  | false, false => none

/-- Tries the next grid, ten times finer, at most `fuel` times. -/
def Interval.search (i : Interval) : Nat → Int → Decimal
  | 0, exponent => ⟨0, exponent⟩
  | fuel + 1, exponent =>
    match i.onGrid? exponent with
    | some q => ⟨q, exponent⟩
    | none => i.search fuel (exponent - 1)

/-- Moves trailing zeros, of which there are at most `fuel`, into the exponent. -/
def Decimal.trim : Nat → Decimal → Decimal
  | 0, d => d
  | fuel + 1, d =>
    if d.digits % 10 = 0 then Decimal.trim fuel ⟨d.digits / 10, d.exponent + 1⟩ else d

/-- Seventeen digits always read back. -/
def shortest (x : Binary64) : Decimal :=
  let i := x.interval
  Decimal.trim 17 (i.search 17 (leadingExponent i.middle i.scale))

end GridAccess.Binary64
