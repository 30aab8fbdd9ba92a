import GridAccess.Ascending
import GridAccess.Expr.Order

/-!
Splitting of an expression `coefficient * generator + shift`. The generators are the symbols,
dimensions and uses of fields in an expression; uses of fields are not looked into.
-/

namespace GridAccess

/-- A linear combination of generators, in ascending order, and a constant. -/
structure LinearForm where
  terms : List (Expr × Literal)
  constant : Literal

namespace LinearForm

def const (n : Literal) : LinearForm := ⟨[], n⟩

def generator (e : Expr) : LinearForm := ⟨[(e, .int 1)], .int 0⟩

/-- All coefficients are zero. -/
def isConst (f : LinearForm) : Bool := f.terms.all fun term => term.2.isZero

def scale (f : LinearForm) (n : Literal) : LinearForm :=
  ⟨f.terms.map fun term => (term.1, term.2.mul n), f.constant.mul n⟩

def add (f g : LinearForm) : LinearForm :=
  ⟨g.terms.foldl (fun terms term => Ascending.adjust term.1 (.int 0) (·.add term.2) terms) f.terms,
    f.constant.add g.constant⟩

/-- One factor has to be constant. -/
def mul? (f g : LinearForm) : Option LinearForm :=
  if f.isConst then some (g.scale f.constant)
  else if g.isConst then some (f.scale g.constant)
  else none

/-- A power of a constant, or a first or zeroth power. -/
def pow? (f g : LinearForm) : Option LinearForm :=
  if !g.isConst then none
  else if f.isConst then (f.constant.pow? g.constant).map const
  else if g.constant.isOne then some f
  else if g.constant.isZero then some (const (.int 1))
  else none

end LinearForm

namespace Expr

mutual

def linearForm? : Expr → Option LinearForm
  | .lit n => some (.const n)
  | .sym s => some (.generator (.sym s))
  | .dim d => some (.generator (.dim d))
  | .call f args => some (.generator (.call f args))
  | .access f indices => some (.generator (.access f indices))
  | .sum terms => linearSum? (.const (.int 0)) terms
  | .prod factors => linearProduct? (.const (.int 1)) factors
  | .pow base exponent =>
    exponent.linearForm?.bind fun g => base.linearForm?.bind fun f => f.pow? g

def linearSum? (total : LinearForm) : List Expr → Option LinearForm
  | [] => some total
  | e :: es => e.linearForm?.bind fun f => linearSum? (total.add f) es

def linearProduct? (total : LinearForm) : List Expr → Option LinearForm
  | [] => some total
  | e :: es => e.linearForm?.bind fun f => (total.mul? f).bind fun g => linearProduct? g es

end

end Expr

/-- The split `coefficient * generator + shift`; a constant has no generator. -/
structure Affine where
  generator : Option Expr
  coefficient : Literal
  shift : Literal

def LinearForm.affine? (f : LinearForm) : Option Affine :=
  match f.terms.filter fun term => !term.2.isZero with
  | [] => some ⟨none, .int 0, f.constant⟩
  | [(e, c)] => some ⟨some e, c, f.constant⟩
  | _ => none

/-- Nothing if the expression is not affine in at most one generator. -/
def Expr.affine? (e : Expr) : Option Affine := e.linearForm?.bind LinearForm.affine?

/-- What is said of an expression that cannot be split. -/
def Affine.refusal : String := "expression is not an affine function"

end GridAccess
