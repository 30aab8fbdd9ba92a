import GridAccess.Field

/-!
Descriptions of grids: dimensions, fields and subdomains that refer to each other by name.
-/

namespace GridAccess

inductive DimensionEntryKind where
  | basic
  | space
  | time
  | stepping
  | conditional (factor : UInt32)
  deriving DecidableEq

structure DimensionEntry where
  name : String
  kind : DimensionEntryKind
  parent : Option String
  deriving DecidableEq

structure FieldEntry where
  name : String
  kind : FieldKind
  dimensions : List String
  /-- one margin per dimension, or none at all for margins of zero -/
  halo : List Margin
  padding : List Margin
  deriving DecidableEq

structure RestrictionEntry where
  name : String
  thickness : Thickness
  deriving DecidableEq

structure SubdomainEntry where
  name : String
  dimensions : List RestrictionEntry
  deriving DecidableEq

structure GridDescription where
  dimensions : List DimensionEntry
  fields : List FieldEntry
  subdomains : List SubdomainEntry
  /-- whether the spacing of an axis counts as 1 in arguments along it -/
  unitSpacing : Bool
  deriving DecidableEq

def GridDescription.empty : GridDescription := ⟨[], [], [], false⟩

end GridAccess
