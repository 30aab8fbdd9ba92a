import GridAccess.Equation.Basic
import GridAccess.Expr.Relation
import GridAccess.Precedence.Arrangement

/-!
The order in which the dimensions of an equation are iterated. It keeps the relations of all
accesses and of the implicit dimensions, keeps them also between the roots of the dimensions,
and puts every parent before what is derived from it.
-/

namespace GridAccess

namespace Equation

/-- The relations of the outermost accesses and the list of implicit dimensions, as a set and
without empty ones. -/
def accessRelations (eq : Equation) : List (List Dimension) :=
  let relations := eq.outerAccesses.map Access.relation ++ [eq.implicitDims]
  Ascending.ofList (relations.filter fun relation => !relation.isEmpty)

/-- The dimensions that are used, that accessed fields have, or that are implicit. -/
def usedDimensions (eq : Equation) : List Dimension :=
  let axes := eq.allAccesses.flatMap fun a => a.field.dimensions
  Ascending.insertAll (axes ++ eq.implicitDims) eq.dimensions

/-- The used dimensions and all their ancestors. -/
def orderedDimensions (eq : Equation) : List Dimension :=
  Ascending.insertAll (eq.usedDimensions.flatMap Dimension.ancestors) eq.usedDimensions

/-- A parent comes before what is derived from it. -/
def parentRelations (eq : Equation) : List (List Dimension) :=
  eq.orderedDimensions.filterMap fun d => d.parent?.map fun parent => [parent, d]

def rootRelations (eq : Equation) : List (List Dimension) :=
  eq.accessRelations.map fun relation => relation.map Dimension.top

def relations (eq : Equation) : List (List Dimension) :=
  Ascending.insertAll (eq.parentRelations ++ eq.rootRelations) eq.accessRelations

/-- The equation in front of what is wrong with it. -/
def blame (eq : Equation) (e : Error) : Error :=
  { e with details := some (eq.text ++ ": " ++ e.details.getD "") }

def loopOrder (eq : Equation) : Except Error (Arrangement Dimension) :=
  (Arrangement.build eq.orderedDimensions eq.relations).mapError eq.blame

end Equation

end GridAccess
