import GridAccess.Expr.Affine
import GridAccess.Expr.Search

/-!
The order of iteration that an access implies: its dimensions from the first index to the last.
An index that is affine in one dimension stands for that dimension, an index with accesses in it
for what they imply in turn, and any other one for all its dimensions by name.
-/

namespace GridAccess

namespace Expr

/-- What an index stands for, given the accesses in it with what they imply. -/
def indexRelation (index : Expr) (inner : List (Access × List Dimension)) : List Dimension :=
  match index.affine? with
  | some ⟨some (.dim d), _, _⟩ => [d]
  | _ => match inner with
    | [] => index.dimensions
    | inner => inner.flatMap Prod.snd

mutual

/-- The outermost accesses with what they imply. -/
def outerRelations : Expr → List (Access × List Dimension)
  | .lit _ | .sym _ | .dim _ => []
  | .call _ args => outerRelationsList args
  | .access f indices => [(⟨f, indices⟩, indicesRelation indices)]
  | .sum terms => outerRelationsList terms
  | .prod factors => outerRelationsList factors
  | .pow base exponent => base.outerRelations ++ exponent.outerRelations

def outerRelationsList : List Expr → List (Access × List Dimension)
  | [] => []
  | e :: es => e.outerRelations ++ outerRelationsList es

def indicesRelation : List Expr → List Dimension
  | [] => []
  | e :: es =>
    indexRelation e (e.outerRelations.eraseDupsBy fun p q => p.1 == q.1) ++ indicesRelation es

end

end Expr

def Access.relation (a : Access) : List Dimension := Expr.indicesRelation a.indices

end GridAccess
