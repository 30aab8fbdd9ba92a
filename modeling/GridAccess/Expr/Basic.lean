import GridAccess.Field
import GridAccess.Literal

/-!
Symbolic expressions: literals, symbols and dimensions, uses of fields, sums, products and
powers. The constructors keep what they are given; the canonical forms are built by
`Expr.sumOf`, `Expr.productOf` and `Expr.power`.
-/

namespace GridAccess

inductive Expr where
  | lit (n : Literal)
  | sym (s : Symbol)
  | dim (d : Dimension)
  /-- a field at logical coordinates, `f(x - 2*h_x, y)` -/
  | call (f : Field) (args : List Expr)
  /-- a field at positions in its storage, `f[x + 4, y]` -/
  | access (f : Field) (indices : List Expr)
  | sum (terms : List Expr)
  | prod (factors : List Expr)
  | pow (base exponent : Expr)

namespace Expr

def int (n : Int64) : Expr := .lit (.int n)

def literal? : Expr → Option Literal
  | .lit n => some n
  | _ => none

def isLiteral (e : Expr) : Bool := e.literal?.isSome

def children : Expr → List Expr
  | .lit _ | .sym _ | .dim _ => []
  | .call _ args => args
  | .access _ indices => indices
  | .sum terms => terms
  | .prod factors => factors
  | .pow base exponent => [base, exponent]

mutual

/-- How deep sums stand in each other through products; other nodes hide what they hold. -/
def sumDepth : Expr → Nat
  | .sum terms => sumDepthList terms + 1
  | .prod factors => sumDepthList factors
  | _ => 0

def sumDepthList : List Expr → Nat
  | [] => 0
  | e :: es => max e.sumDepth (sumDepthList es)

end

mutual

/-- How deep uses of fields stand in each other. -/
def useDepth : Expr → Nat
  | .lit _ | .sym _ | .dim _ => 0
  | .call _ args => useDepthList args + 1
  | .access _ indices => useDepthList indices + 1
  | .sum terms => useDepthList terms
  | .prod factors => useDepthList factors
  | .pow base exponent => max base.useDepth exponent.useDepth

def useDepthList : List Expr → Nat
  | [] => 0
  | e :: es => max e.useDepth (useDepthList es)

end

@[simp] theorem sumDepthList_nil : sumDepthList [] = 0 := by simp [sumDepthList]

@[simp] theorem sumDepthList_cons (e : Expr) (es : List Expr) :
    sumDepthList (e :: es) = max e.sumDepth (sumDepthList es) := by simp [sumDepthList]

@[simp] theorem useDepthList_nil : useDepthList [] = 0 := by simp [useDepthList]

@[simp] theorem useDepthList_cons (e : Expr) (es : List Expr) :
    useDepthList (e :: es) = max e.useDepth (useDepthList es) := by simp [useDepthList]

end Expr

/-- A field at positions in its storage. -/
structure Access where
  field : Field
  indices : List Expr

/-- A field at logical coordinates. -/
structure Call where
  field : Field
  args : List Expr

def Access.toExpr (a : Access) : Expr := .access a.field a.indices

def Call.toExpr (c : Call) : Expr := .call c.field c.args

end GridAccess
