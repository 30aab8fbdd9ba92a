import GridAccess.Grid.Description
import GridAccess.Json.Printer

/-!
Descriptions of grids as JSON. What has its default value is left out, the dimensions of fields
and subdomains excepted.
-/

namespace GridAccess

namespace Json

def ofString (s : String) : Json := .str (some s)

def ofUInt32 (n : UInt32) : Json := .nat n.toNat

/-- An object of named members. -/
def ofMembers (members : List (String × Json)) : Json :=
  .obj (members.map fun (name, member) => (some name, member))

/-- The member, unless it is to be left out. -/
def member (isDefault : Bool) (name : String) (value : Json) : List (String × Json) :=
  if isDefault then [] else [(name, value)]

def ofList {α : Type} (encode : α → Json) (xs : List α) : Json := .arr (xs.map encode)

end Json

namespace DimensionEntryKind

def toJson : DimensionEntryKind → Json
  | .basic => .ofString "basic"
  | .space => .ofString "space"
  | .time => .ofString "time"
  | .stepping => .ofString "stepping"
  | .conditional factor =>
    .ofMembers [("conditional", .ofMembers [("factor", .ofUInt32 factor)])]

end DimensionEntryKind

def FieldKind.toJson : FieldKind → Json
  | .function => .ofString "function"
  | .timeFunction => .ofString "time_function"
  | .array => .ofString "array"

def Margin.toJson (m : Margin) : Json := .arr [.ofUInt32 m.left, .ofUInt32 m.right]

def Thickness.toJson : Thickness → Json
  | .middle l r =>
    .ofMembers [("middle", .ofMembers [("left", .ofUInt32 l), ("right", .ofUInt32 r)])]
  | .left n => .ofMembers [("left", .ofUInt32 n)]
  | .right n => .ofMembers [("right", .ofUInt32 n)]

def DimensionEntry.toJson (d : DimensionEntry) : Json :=
  .ofMembers <|
    [("name", .ofString d.name)] ++
    Json.member (d.kind = .basic) "kind" d.kind.toJson ++
    match d.parent with
    | none => []
    | some parent => [("parent", .ofString parent)]

def FieldEntry.toJson (f : FieldEntry) : Json :=
  .ofMembers <|
    [("name", .ofString f.name)] ++
    Json.member (f.kind = .function) "kind" f.kind.toJson ++
    [("dimensions", .ofList .ofString f.dimensions)] ++
    Json.member f.halo.isEmpty "halo" (.ofList Margin.toJson f.halo) ++
    Json.member f.padding.isEmpty "padding" (.ofList Margin.toJson f.padding)

def RestrictionEntry.toJson (r : RestrictionEntry) : Json :=
  .ofMembers [("name", .ofString r.name), ("thickness", r.thickness.toJson)]

def SubdomainEntry.toJson (s : SubdomainEntry) : Json :=
  .ofMembers
    [("name", .ofString s.name), ("dimensions", .ofList RestrictionEntry.toJson s.dimensions)]

def GridDescription.toJson (g : GridDescription) : Json :=
  .ofMembers <|
    Json.member g.dimensions.isEmpty "dimensions" (.ofList DimensionEntry.toJson g.dimensions) ++
    Json.member g.fields.isEmpty "functions" (.ofList FieldEntry.toJson g.fields) ++
    Json.member g.subdomains.isEmpty "subdomains"
      (.ofList SubdomainEntry.toJson g.subdomains) ++
    Json.member (!g.unitSpacing) "lowering" (.ofMembers [("unit_spacing", .bool g.unitSpacing)])

def GridDescription.encode (g : GridDescription) : String := g.toJson.text

end GridAccess
