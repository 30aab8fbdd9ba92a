import GridAccess.Proofs.Alignment.Uses
import GridAccess.Proofs.Expr.Trace

/-!
The literals that alignment computes: those of setting spacings to 1, of shifting every index and
of applying the restriction to it, for all uses of fields that the run stores.
-/

namespace GridAccess.Alignment

open GridAccess.Expr (substFoldTrace sumOfTrace)

def withUnitSpacingTrace (f : Field) (axis : Nat) (arg : Expr) : List Literal :=
  match f.dimensions[axis]? with
  | some d => substFoldTrace ⟨[(.sym d.spacing, .int 1)]⟩ arg
  | none => []

def shiftTrace (f : Field) (axis : Nat) (index : Expr) : List Literal :=
  sumOfTrace [index, Expr.int (Int64.ofNat (f.offset axis))]

/-- Two margins fit the word. -/
theorem toInt_offset (f : Field) (axis : Nat) :
    (Int64.ofNat (f.offset axis)).toInt = f.offset axis := by
  have hoffset : f.offset axis < 2 ^ 33 := by
    unfold Field.offset
    cases f.axes[axis]? with
    | none => simp
    | some a =>
        have hhalo := a.halo.left.toNat_lt
        have hpadding := a.padding.left.toNat_lt
        show a.halo.left.toNat + a.padding.left.toNat < _
        omega
  exact Int64.toInt_ofNat_of_lt (by omega)

/-- `trace` lists what `align` computes. -/
def storeTrace (f : Field) (align : Nat → Expr → Expr) (trace : Nat → Expr → List Literal)
    (restriction : Substitution) (indices : List Expr) : List Literal :=
  (indices.mapIdx fun axis index =>
    trace axis index ++ shiftTrace f axis (align axis index) ++
      substFoldTrace restriction (shift f axis (align axis index))).flatten

def argumentTrace (unitSpacing : Bool) (trace : Expr → List Literal) (f : Field) (axis : Nat)
    (arg : Expr) : List Literal :=
  (if unitSpacing then withUnitSpacingTrace f axis arg else []) ++
    trace (if unitSpacing then withUnitSpacing f axis arg else arg)

def storedTrace (unitSpacing : Bool) (align : Expr → Expr) (trace : Expr → List Literal)
    (restriction : Substitution) (calls : List Call) (accesses : List Access) : List Literal :=
  (calls.flatMap fun c =>
    storeTrace c.field (argument unitSpacing align c.field)
      (argumentTrace unitSpacing trace c.field) restriction c.args) ++
    accesses.flatMap fun a =>
      storeTrace a.field (fun _ => align) (fun _ => trace) restriction a.indices

def alignIndexTrace (unitSpacing : Bool) : Nat → Expr → List Literal
  | 0, _ => []
  | depth + 1, e =>
    storedTrace unitSpacing (alignIndex unitSpacing depth) (alignIndexTrace unitSpacing depth)
      .empty e.calls e.allAccesses

/-- Without replacements nothing else is computed. -/
def alignExprTrace (a : Alignment) (e : Expr) : List Literal :=
  storedTrace a.unitSpacing (alignIndex a.unitSpacing e.useDepth)
    (alignIndexTrace a.unitSpacing e.useDepth) .empty e.calls e.allAccesses

def alignEquationTrace (a : Alignment) (eq : Equation) : List Literal :=
  let depth := max eq.lhs.useDepth eq.rhs.useDepth
  storedTrace a.unitSpacing (alignIndex a.unitSpacing depth)
    (alignIndexTrace a.unitSpacing depth) eq.restriction eq.calls eq.allAccesses

end GridAccess.Alignment
