import GridAccess.Grid.Description
import GridAccess.Json.Reader

/-!
Reading of grid descriptions. A record is an object, whose unknown members are skipped, or an
array of its members in their order, of which the last ones may be missing. A choice between
variants is a name, or an object whose only member has that name.
-/

namespace GridAccess

namespace Json

/-- Members with text names, each of the names in `known` at most once. -/
def namedMembers? (known : List String) (members : List (Option String × Json)) :
    Option (List (String × Json)) := do
  let named ← members.mapM fun (name, member) => name.map (·, member)
  let relevant := (named.map Prod.fst).filter known.contains
  if relevant.Nodup then some named else none

/-- The members of a record, for the given names. -/
def record? (names : List String) : Json → Option (List (Option Json))
  | .obj members => (namedMembers? names members).map fun named => names.map (List.lookup · named)
  | .arr items =>
    if items.length ≤ names.length then
      some (items.map some ++ List.replicate (names.length - items.length) none)
    else none
  | _ => none

/-- The name of a variant and what belongs to it; nothing belongs to a bare name. -/
def variant? : Json → Option (String × Json)
  | .str (some name) => some (name, .null)
  | .obj [(some name, content)] => some (name, content)
  | _ => none

def toString? : Json → Option String
  | .str text => text
  | _ => none

def toBool? : Json → Option Bool
  | .bool b => some b
  | _ => none

def toUInt32? : Json → Option UInt32
  | .nat n => if n < UInt32.size then some (UInt32.ofNat n) else none
  | _ => none

def toList? {α : Type} (decode : Json → Option α) : Json → Option (List α)
  | .arr items => items.mapM decode
  | _ => none

/-- The value of a variant that nothing belongs to. -/
def bare? {α : Type} (value : α) : Json → Option α
  | .null => some value
  | _ => none

/-- The decoded member, or `value` if it is missing. -/
def orDefault {α : Type} (value : α) (decode : Json → Option α) : Option Json → Option α
  | none => some value
  | some j => decode j

end Json

def DimensionEntryKind.ofJson? (j : Json) : Option DimensionEntryKind := do
  let (name, content) ← j.variant?
  match name with
  | "basic" => content.bare? .basic
  | "space" => content.bare? .space
  | "time" => content.bare? .time
  | "stepping" => content.bare? .stepping
  | "conditional" =>
    match ← content.record? ["factor"] with
    | [some factor] => factor.toUInt32?.map .conditional
    | _ => none
  | _ => none

def FieldKind.ofJson? (j : Json) : Option FieldKind := do
  let (name, content) ← j.variant?
  match name with
  | "function" => content.bare? .function
  | "time_function" => content.bare? .timeFunction
  | "array" => content.bare? .array
  | _ => none

def Margin.ofJson? : Json → Option Margin
  | .arr [left, right] => do some ⟨← left.toUInt32?, ← right.toUInt32?⟩
  | _ => none

def Thickness.ofJson? (j : Json) : Option Thickness := do
  let (name, content) ← j.variant?
  match name with
  | "middle" =>
    match ← content.record? ["left", "right"] with
    | [some l, some r] => do some (.middle (← l.toUInt32?) (← r.toUInt32?))
    | _ => none
  | "left" => content.toUInt32?.map .left
  | "right" => content.toUInt32?.map .right
  | _ => none

/-- A parent, which may be given as missing. -/
def DimensionEntry.parentOfJson? : Json → Option (Option String)
  | .null => some none
  | j => j.toString?.map some

def DimensionEntry.ofJson? (j : Json) : Option DimensionEntry := do
  match ← j.record? ["name", "kind", "parent"] with
  | [some name, kind, parent] =>
    some
      { name := ← name.toString?
        kind := ← Json.orDefault .basic DimensionEntryKind.ofJson? kind
        parent := ← Json.orDefault none parentOfJson? parent }
  | _ => none

def FieldEntry.ofJson? (j : Json) : Option FieldEntry := do
  match ← j.record? ["name", "kind", "dimensions", "halo", "padding"] with
  | [some name, kind, some dimensions, halo, padding] =>
    some
      { name := ← name.toString?
        kind := ← Json.orDefault .function FieldKind.ofJson? kind
        dimensions := ← dimensions.toList? Json.toString?
        halo := ← Json.orDefault [] (Json.toList? Margin.ofJson?) halo
        padding := ← Json.orDefault [] (Json.toList? Margin.ofJson?) padding }
  | _ => none

def RestrictionEntry.ofJson? (j : Json) : Option RestrictionEntry := do
  match ← j.record? ["name", "thickness"] with
  | [some name, some thickness] =>
    some { name := ← name.toString?, thickness := ← Thickness.ofJson? thickness }
  | _ => none

def SubdomainEntry.ofJson? (j : Json) : Option SubdomainEntry := do
  match ← j.record? ["name", "dimensions"] with
  | [some name, some dimensions] =>
    some
      { name := ← name.toString?
        dimensions := ← dimensions.toList? RestrictionEntry.ofJson? }
  | _ => none

/-- Whether unit spacing is asked for. -/
def GridDescription.optionsOfJson? (j : Json) : Option Bool := do
  match ← j.record? ["unit_spacing"] with
  | [unitSpacing] => Json.orDefault false Json.toBool? unitSpacing
  | _ => none

def GridDescription.ofJson? (j : Json) : Option GridDescription := do
  match ← j.record? ["dimensions", "functions", "subdomains", "lowering"] with
  | [dimensions, fields, subdomains, options] =>
    some
      { dimensions := ← Json.orDefault [] (Json.toList? DimensionEntry.ofJson?) dimensions
        fields := ← Json.orDefault [] (Json.toList? FieldEntry.ofJson?) fields
        subdomains := ← Json.orDefault [] (Json.toList? SubdomainEntry.ofJson?) subdomains
        unitSpacing := ← Json.orDefault false optionsOfJson? options }
  | _ => none

/-- The text is no JSON, or no description of a grid. -/
def GridDescription.unreadable : Error := ⟨.config, .jsonDeserialization, none⟩

def GridDescription.decode (text : String) : Except Error GridDescription :=
  match (Json.read? text).bind ofJson? with
  | some description => .ok description
  | none => .error unreadable

end GridAccess
