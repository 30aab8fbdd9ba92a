import GridAccess.Ascending
import GridAccess.Expr.Order

/-!
What occurs in an expression. All nodes are listed with inner ones before those that contain
them; of equal ones the first is kept.
-/

namespace GridAccess

namespace Expr

mutual

/-- Every node, after the nodes below it. -/
def nodes : Expr → List Expr
  | .lit n => [.lit n]
  | .sym s => [.sym s]
  | .dim d => [.dim d]
  | .call f args => nodesList args ++ [.call f args]
  | .access f indices => nodesList indices ++ [.access f indices]
  | .sum terms => nodesList terms ++ [.sum terms]
  | .prod factors => nodesList factors ++ [.prod factors]
  | .pow base exponent => base.nodes ++ exponent.nodes ++ [.pow base exponent]

def nodesList : List Expr → List Expr
  | [] => []
  | e :: es => e.nodes ++ nodesList es

end

mutual

/-- The accesses that are not inside the indices of another one. -/
def outermost : Expr → List Access
  | .lit _ | .sym _ | .dim _ => []
  | .call _ args => outermostList args
  | .access f indices => [⟨f, indices⟩]
  | .sum terms => outermostList terms
  | .prod factors => outermostList factors
  | .pow base exponent => base.outermost ++ exponent.outermost

def outermostList : List Expr → List Access
  | [] => []
  | e :: es => e.outermost ++ outermostList es

end

def access? : Expr → Option Access
  | .access f indices => some ⟨f, indices⟩
  | _ => none

def call? : Expr → Option Call
  | .call f args => some ⟨f, args⟩
  | _ => none

def dim? : Expr → Option Dimension
  | .dim d => some d
  | _ => none

def dimensions (e : Expr) : List Dimension := Ascending.ofList (e.nodes.filterMap dim?)

def outerAccesses (e : Expr) : List Access := e.outermost.eraseDups

def allAccesses (e : Expr) : List Access := (e.nodes.filterMap access?).eraseDups

def calls (e : Expr) : List Call := (e.nodes.filterMap call?).eraseDups

def hasAccess (e : Expr) : Bool := e.nodes.any fun node => node.access?.isSome

end Expr

end GridAccess
