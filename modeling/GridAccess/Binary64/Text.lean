import GridAccess.Binary64.Shortest

/-!
The text of a number: the shortest digits that read back, positional from 0.0001 up to
below 10^16 and always with a point there, and with an exponent elsewhere.
-/

namespace GridAccess.Binary64

/-- The exponents of the leading digit that are written positionally. -/
def isPositional (leading : Int) : Bool := -4 ≤ leading && leading < 16

def zeros (n : Nat) : List Char := List.replicate n '0'

/-- Digits with the point after the leading digit's place, `leading` places to the right. -/
def positional (digits : List Char) (leading : Int) : List Char :=
  if leading < 0 then '0' :: '.' :: zeros (-leading - 1).toNat ++ digits
  else
    let whole := leading.toNat + 1
    let fraction := digits.drop whole
    digits.take whole ++ zeros (whole - digits.length) ++ '.' ::
      (if fraction.isEmpty then ['0'] else fraction)

def scientific (digits : List Char) (leading : Int) : List Char :=
  let fraction := digits.drop 1
  digits.take 1 ++ (if fraction.isEmpty then [] else '.' :: fraction) ++ 'e' ::
    (toString leading).toList

def finiteText (x : Binary64) : List Char :=
  if x.isZero then ['0', '.', '0']
  else
    let decimal := x.shortest
    let digits := Nat.toDigits 10 decimal.digits
    let leading := decimal.exponent + digits.length - 1
    if isPositional leading then positional digits leading else scientific digits leading

def text (x : Binary64) : String :=
  if x.isNaN then "NaN"
  else
    let unsigned := if x.isFinite then x.finiteText else ['i', 'n', 'f']
    String.ofList (if x.isSigned then '-' :: unsigned else unsigned)

end GridAccess.Binary64
