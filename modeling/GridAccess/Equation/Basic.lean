import GridAccess.Expr.Printer
import GridAccess.Expr.Search
import GridAccess.Subdomain

/-!
Equations between two expressions, with dimensions that are iterated over without being used
and optionally a region that the equation is restricted to.
-/

namespace GridAccess

structure Equation where
  lhs : Expr
  rhs : Expr
  implicitDims : List Dimension
  subdomain : Option Subdomain

namespace Equation

def dimensions (eq : Equation) : List Dimension :=
  Ascending.insertAll eq.rhs.dimensions eq.lhs.dimensions

/-- Those of the left side first. -/
def outerAccesses (eq : Equation) : List Access :=
  (eq.lhs.outermost ++ eq.rhs.outermost).eraseDups

def allAccesses (eq : Equation) : List Access :=
  ((eq.lhs.nodes ++ eq.rhs.nodes).filterMap Expr.access?).eraseDups

def calls (eq : Equation) : List Call :=
  ((eq.lhs.nodes ++ eq.rhs.nodes).filterMap Expr.call?).eraseDups

/-- Empty without a subdomain. -/
def restriction (eq : Equation) : Substitution :=
  (eq.subdomain.map Subdomain.substitution).getD .empty

/-- Applies `f` to both sides. -/
def mapSides (f : Expr → Expr) (eq : Equation) : Equation :=
  { eq with lhs := f eq.lhs, rhs := f eq.rhs }

def substFold (eq : Equation) (s : Substitution) : Equation := eq.mapSides (·.substFold s)

def subst (eq : Equation) (s : Substitution) : Equation := eq.mapSides (·.subst s)

def same (a b : Equation) : Bool :=
  a.lhs == b.lhs && a.rhs == b.rhs && a.implicitDims = b.implicitDims && a.subdomain = b.subdomain

instance : BEq Equation := ⟨same⟩

def text (eq : Equation) : String := "Eq(" ++ eq.lhs.text ++ ", " ++ eq.rhs.text ++ ")"

end Equation

end GridAccess
