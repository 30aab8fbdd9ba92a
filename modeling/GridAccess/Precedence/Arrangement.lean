import GridAccess.Error
import GridAccess.Precedence.Linearization

/-!
A linear order of items together with the set of relations that it keeps.
-/

namespace GridAccess

structure Arrangement (α : Type) where
  items : List α
  relations : List (List α)
  deriving DecidableEq

/-- No order keeps all relations: these items lie on cycles. -/
def Error.circular (culprits : List String) : Error :=
  ⟨.ordering, .circularDependency,
    some ("cyclic dependency among " ++ ", ".intercalate culprits)⟩

namespace Arrangement

variable {α : Type} [Ord α] [ToString α]

/-- The relations are taken as a set. -/
def build (items : List α) (relations : List (List α)) : Except Error (Arrangement α) :=
  let relations := Ascending.ofList relations
  match linearize items relations with
  | .ok items => .ok ⟨items, relations⟩
  | .error culprits => .error (.circular (culprits.map toString))

/-- Each position is at most the next one. -/
def isMonotone : List Nat → Bool
  | i :: j :: rest => i ≤ j && isMonotone (j :: rest)
  | _ => true

/-- All elements of `relation` are arranged, in the order that they have there. -/
def respects [BEq α] (a : Arrangement α) (relation : List α) : Bool :=
  match relation.mapM fun b => a.items.findIdx? (· == b) with
  | some positions => isMonotone positions
  | none => false

def text (a : Arrangement α) : String :=
  "(" ++ ", ".intercalate (a.items.map toString) ++ ")"

end Arrangement

end GridAccess
