import GridAccess.Equation.Basic

/-!
Alignment with storage. Calls at logical coordinates and accesses become accesses whose indices
count from the start of the storage: each index is shifted by what lies to the left of the
domain on its axis. Uses of fields inside indices are aligned as well. In an equation with a
subdomain its restriction is applied to the finished indices.
-/

namespace GridAccess

/-- What to replace besides uses of fields, and whether the spacing of an axis counts as 1 in
the arguments that belong to the axis. -/
structure Alignment where
  replacements : Substitution
  unitSpacing : Bool

namespace Alignment

/-- The argument with the spacing of its own axis set to 1; unchanged where there is no axis. -/
def withUnitSpacing (f : Field) (axis : Nat) (arg : Expr) : Expr :=
  match f.dimensions[axis]? with
  | some d => arg.substFold ⟨[(.sym d.spacing, .int 1)]⟩
  | none => arg

/-- Moves an index to the start of the storage. -/
def shift (f : Field) (axis : Nat) (index : Expr) : Expr :=
  index + Expr.int (Int64.ofNat (f.offset axis))

/-- The stored form of a use of `f` whose indices have been prepared by `align`. -/
def store (f : Field) (align : Nat → Expr → Expr) (restriction : Substitution)
    (indices : List Expr) : Expr :=
  .access f (indices.mapIdx fun axis index =>
    (shift f axis (align axis index)).substFold restriction)

/-- The stored forms of calls and accesses, given how indices are aligned. -/
def stored (unitSpacing : Bool) (align : Expr → Expr) (restriction : Substitution)
    (calls : List Call) (accesses : List Access) : Substitution :=
  let argument f axis arg := align (if unitSpacing then withUnitSpacing f axis arg else arg)
  ⟨calls.map (fun c => (c.toExpr, store c.field (argument c.field) restriction c.args)) ++
    accesses.map fun a => (a.toExpr, store a.field (fun _ => align) restriction a.indices)⟩

/-- Aligns an index in which uses of fields are nested at most `depth` deep. -/
def alignIndex (unitSpacing : Bool) : Nat → Expr → Expr
  | 0, e => e
  | depth + 1, e =>
    e.subst (stored unitSpacing (alignIndex unitSpacing depth) .empty e.calls e.allAccesses)

/-- Without replacements the shape around the uses of fields is kept; otherwise the replacements
take precedence, and what is above a change is made canonical. -/
def replaceUses (a : Alignment) (uses : Substitution) (e : Expr) : Expr :=
  if a.replacements.isEmpty then e.subst uses else e.substFold (a.replacements.orElse uses)

def alignExpr (a : Alignment) (e : Expr) : Expr :=
  let uses :=
    stored a.unitSpacing (alignIndex a.unitSpacing e.useDepth) .empty e.calls e.allAccesses
  a.replaceUses uses e

def alignEquation (a : Alignment) (eq : Equation) : Equation :=
  let depth := max eq.lhs.useDepth eq.rhs.useDepth
  let align := alignIndex a.unitSpacing depth
  let uses := stored a.unitSpacing align eq.restriction eq.calls eq.allAccesses
  eq.mapSides (a.replaceUses uses)

end Alignment

end GridAccess
