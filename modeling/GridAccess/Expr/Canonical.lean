import GridAccess.Ascending
import GridAccess.Expr.Order

/-!
Canonical sums, products and powers. Nested sums and products are flattened, constants are
folded into one, like terms are collected, operands stand in ascending order, and a constant
factor is spread over a single sum.

Terms and factors are always taken from the last to the first; the order decides how floating
point constants round. Spreading a factor over a sum multiplies its terms again, so the two
constructors need each other, each time with one layer of sums less: `Folding` holds both for
expressions whose sums nest up to a given depth.
-/

namespace GridAccess

namespace Expr

mutual

/-- The factors of nested products. -/
def factors : Expr → List Expr
  | .prod fs => factorsList fs
  | e => [e]

def factorsList : List Expr → List Expr
  | [] => []
  | e :: es => e.factors ++ factorsList es

end

end Expr

/-- A constant times factors that are neither literals nor products. -/
structure Monomial where
  coefficient : Literal
  factors : List Expr

namespace Monomial

/-- Multiplies by one more factor. -/
def times (m : Monomial) (factor : Expr) : Monomial :=
  match factor with
  | .lit n => { m with coefficient := m.coefficient.mul n }
  | e => { m with factors := m.factors ++ [e] }

def ofFactors (fs : List Expr) : Monomial :=
  (Expr.factorsList fs).reverse.foldl times ⟨.int 1, []⟩

def toExpr (m : Monomial) : Expr :=
  if m.coefficient.isZero then .int 0
  else if m.coefficient.isOne then
    match m.factors with
    | [] => .lit m.coefficient
    | [e] => e
    | es => .prod (Ascending.sort es)
  else
    match m.factors with
    | [] => .lit m.coefficient
    | es => .prod (.lit m.coefficient :: Ascending.sort es)

/-- The terms of the sum that the coefficient is to be spread over, if it is. -/
def spread? (m : Monomial) : Option (List Expr) :=
  if m.coefficient.isZero || m.coefficient.isOne then none
  else
    match m.factors with
    | [.sum terms] => some terms
    | _ => none

end Monomial

namespace Expr

/-- The constant in front of a product and the rest; 1 and the whole expression if there is none. -/
def splitCoefficient (e : Expr) : Literal × Expr :=
  match e with
  | .prod (.lit c :: [factor]) => (c, factor)
  | .prod (.lit c :: rest) => (c, .prod rest)
  | e => (.int 1, e)

end Expr

/-- A sum under construction: a constant and the coefficients of the other terms, in ascending
order of what they multiply. -/
structure Collected where
  constant : Literal
  coefficients : List (Expr × Literal)

namespace Collected

def plus (c : Collected) (term : Expr) : Collected :=
  match term with
  | .lit n => { c with constant := c.constant.add n }
  | e =>
    let (coefficient, rest) := e.splitCoefficient
    { c with coefficients := Ascending.adjust rest (.int 0) (·.add coefficient) c.coefficients }

def ofTerms (terms : List Expr) : Collected := terms.foldl plus ⟨.int 0, []⟩

def scaled (rest : Expr) (coefficient : Literal) : Expr :=
  if coefficient.isOne then rest else (Monomial.ofFactors [.lit coefficient, rest]).toExpr

/-- The terms whose coefficients did not cancel, and then the constant unless it is zero. -/
def terms (c : Collected) : List Expr :=
  let remaining := c.coefficients.filter fun entry => !entry.2.isZero
  remaining.map (fun entry => scaled entry.1 entry.2) ++
    if c.constant.isZero then [] else [.lit c.constant]

def toExpr (c : Collected) : Expr :=
  match c.terms with
  | [] => .int 0
  | [e] => e
  | es => .sum (Ascending.sort es)

end Collected

/-- The product of factors, and the terms that a summand contributes, the last one first. -/
structure Folding where
  product : List Expr → Expr
  terms : Expr → List Expr

namespace Folding

/-- A product is multiplied out before it is added. -/
def summand (product : List Expr → Expr) : Expr → Expr
  | .prod fs => product fs
  | e => e

def sum (f : Folding) (terms : List Expr) : Expr :=
  (Collected.ofTerms (terms.reverse.flatMap f.terms)).toExpr

/-- For expressions without sums. -/
def flat : Folding :=
  let product fs := (Monomial.ofFactors fs).toExpr
  { product := product, terms := fun e => [summand product e] }

/-- For one more layer of sums. -/
def next (f : Folding) : Folding :=
  let product fs :=
    let m := Monomial.ofFactors fs
    match m.spread? with
    | some terms => f.sum (terms.map fun term => f.product [.lit m.coefficient, term])
    | none => m.toExpr
  { product := product
    terms := fun e =>
      match summand product e with
      | .sum terms => terms.reverse.flatMap f.terms
      | e => [e] }

def ofDepth : Nat → Folding
  | 0 => flat
  | n + 1 => (ofDepth n).next

end Folding

namespace Expr

def sumOf (terms : List Expr) : Expr := (Folding.ofDepth (sumDepthList terms)).sum terms

def productOf (factors : List Expr) : Expr :=
  (Folding.ofDepth (sumDepthList factors)).product factors

/-- Folds a power of literals with a finite value, and the exponents 0 and 1. -/
def power (base exponent : Expr) : Expr :=
  let folded := base.literal?.bind fun b => exponent.literal?.bind fun e => b.pow? e
  match folded, exponent with
  | some n, _ => .lit n
  | none, .lit e =>
    if e.isOne then base
    else if e.isZero then .int 1
    else .pow base exponent
  | none, _ => .pow base exponent

instance : Add Expr := ⟨fun a b => sumOf [a, b]⟩

instance : Mul Expr := ⟨fun a b => productOf [a, b]⟩

instance : Neg Expr := ⟨fun a => productOf [int (-1), a]⟩

instance : Sub Expr := ⟨fun a b => sumOf [a, -b]⟩

end Expr

end GridAccess
