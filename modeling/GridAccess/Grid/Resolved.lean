import GridAccess.Alignment
import GridAccess.Grid.Decoding

/-!
Grids: descriptions whose names have been resolved. Dimensions may be declared in any order;
the dimensions that a subdomain creates can be used by name in later subdomains.
-/

namespace GridAccess

/-- Dimensions and fields by name in ascending order, subdomains as declared. -/
structure Grid where
  dimensions : List (String × Dimension)
  fields : List (String × Field)
  subdomains : List Subdomain
  unitSpacing : Bool

/-- The first name that occurs a second time. -/
def firstRepeated? : List String → List String → Option String
  | _, [] => none
  | seen, name :: rest =>
    if seen.contains name then some name else firstRepeated? (name :: seen) rest

namespace DimensionEntry

/-- The dimension of this kind. Exactly the derived kinds need a parent. -/
def build (d : DimensionEntry) (parent : Option Dimension) : Except Error Dimension :=
  match d.kind, parent with
  | .basic, none => .ok (.root d.name .basic)
  | .space, none => .ok (.root d.name .space)
  | .time, none => .ok (.root d.name .time)
  | .stepping, some p => .ok (.derived d.name .stepping p)
  | .conditional factor, some p => .ok (.derived d.name (.conditional factor) p)
  | .stepping, none | .conditional _, none => .error (.config .missingParent d.name)
  | .basic, some _ | .space, some _ | .time, some _ =>
    .error (.config .unexpectedParent d.name)

/-- The names on the way to the dimension that is being resolved, and what has been resolved. -/
structure Progress where
  pending : List String
  resolved : List (String × Dimension)

def Progress.enter (name : String) (progress : Progress) : Progress :=
  { progress with pending := progress.pending.insert name }

def Progress.leave (name : String) (d : Dimension) (progress : Progress) : Progress :=
  ⟨progress.pending.erase name, Ascending.put name d progress.resolved⟩

def Progress.unvisited (entries : List DimensionEntry) (progress : Progress) :
    List DimensionEntry :=
  entries.filter (·.name ∉ progress.pending)

/-- How many calls there can still be on the way. -/
def Progress.callsLeft (entries : List DimensionEntry) (name : String) (progress : Progress) :
    Nat :=
  2 * (progress.unvisited entries).length + if name ∈ progress.pending then 1 else 0

theorem Progress.unvisited_enter (entries : List DimensionEntry) (name : String)
    (progress : Progress) :
    (progress.enter name).unvisited entries =
      (progress.unvisited entries).filter (·.name ≠ name) := by
  simp [unvisited, enter, List.filter_filter, not_or]

theorem Progress.callsLeft_enter_lt {entries : List DimensionEntry} {entry : DimensionEntry}
    {parent : String} {progress : Progress} (hentry : entry ∈ entries)
    (hparent : parent ∉ (progress.enter entry.name).pending) :
    (progress.enter entry.name).callsLeft entries parent <
      progress.callsLeft entries entry.name := by
  unfold callsLeft
  rw [unvisited_enter, if_neg hparent]
  by_cases hname : entry.name ∈ progress.pending
  · have hle := List.length_filter_le (·.name ≠ entry.name) (progress.unvisited entries)
    rw [if_pos hname]
    omega
  · have hlt : ((progress.unvisited entries).filter (·.name ≠ entry.name)).length <
        (progress.unvisited entries).length :=
      List.length_filter_lt_length_iff_exists.mpr
        ⟨entry, List.mem_filter.mpr ⟨hentry, by simpa using hname⟩, by simp⟩
    rw [if_neg hname]
    omega

theorem name_of_find? {entries : List DimensionEntry} {name : String} {entry : DimensionEntry}
    (h : entries.find? (·.name = name) = some entry) : entry.name = name := by
  simpa using List.find?_some h

/-- Builds the dimension on top of its parent. -/
def complete (entry : DimensionEntry) (parent : Option Dimension) (progress : Progress) :
    Except Error (Dimension × Progress) := do
  let d ← entry.build parent
  .ok (d, progress.leave entry.name d)

/-- The dimension called `name`, unless it is known already after its parent. -/
def resolve (entries : List DimensionEntry) (name : String) (progress : Progress) :
    Except Error (Dimension × Progress) :=
  match Ascending.get? name progress.resolved with
  | some d => .ok (d, progress)
  | none =>
    match _ : entries.find? (·.name = name) with
    | none => .error (.config .unknownDimension name)
    | some entry =>
      match entry.parent with
      | none => entry.complete none (progress.enter name)
      | some parent =>
        if _ : parent ∈ (progress.enter name).pending then
          .error (.config .dimensionParentCycle (name ++ " -> " ++ parent))
        else
          match resolve entries parent (progress.enter name) with
          | .ok (p, progress) => entry.complete (some p) progress
          | .error e => .error e
termination_by progress.callsLeft entries name
decreasing_by
  obtain rfl := name_of_find? ‹_›
  exact Progress.callsLeft_enter_lt (List.mem_of_find?_eq_some ‹_›) ‹_›

/-- Goes on to a declared dimension. -/
def visit (entries : List DimensionEntry) (progress : Progress) (entry : DimensionEntry) :
    Except Error Progress :=
  (resolve entries entry.name progress).map Prod.snd

def resolveAll (entries : List DimensionEntry) : Except Error (List (String × Dimension)) :=
  match firstRepeated? [] (entries.map DimensionEntry.name) with
  | some name => .error (.config .duplicateDimension name)
  | none => (entries.foldlM (visit entries) ⟨[], []⟩).map Progress.resolved

end DimensionEntry

def lookupDimension (table : List (String × Dimension)) (name : String) :
    Except Error Dimension :=
  match Ascending.get? name table with
  | some d => .ok d
  | none => .error (.config .unknownDimension name)

namespace FieldEntry

def resolve (table : List (String × Dimension)) (entry : FieldEntry) : Except Error Field := do
  let dimensions ← entry.dimensions.mapM (lookupDimension table)
  Field.build entry.name entry.kind dimensions entry.halo entry.padding

/-- Adds the field, whose name must be new. -/
def addTo (table : List (String × Dimension)) (fields : List (String × Field))
    (entry : FieldEntry) : Except Error (List (String × Field)) :=
  if (Ascending.get? entry.name fields).isSome then
    .error (.config .duplicateFunction entry.name)
  else do
    let field ← entry.resolve table
    .ok (Ascending.put entry.name field fields)

end FieldEntry

namespace SubdomainEntry

/-- Adds a restriction of a dimension that is not restricted yet. -/
def addRestriction (table : List (String × Dimension)) (region : String)
    (restrictions : List (Dimension × Thickness)) (entry : RestrictionEntry) :
    Except Error (List (Dimension × Thickness)) := do
  let d ← lookupDimension table entry.name
  if restrictions.any fun restriction => restriction.1 = d then
    .error (.config .badSubdomain (region ++ " restricts " ++ entry.name ++ " twice"))
  else .ok (restrictions ++ [(d, entry.thickness)])

def resolve (table : List (String × Dimension)) (entry : SubdomainEntry) :
    Except Error Subdomain := do
  let restrictions ← entry.dimensions.foldlM (addRestriction table entry.name) []
  .ok (Subdomain.restrict entry.name restrictions)

/-- Adds a dimension under its name, which must be new. -/
def addDimension (table : List (String × Dimension)) (d : Dimension) :
    Except Error (List (String × Dimension)) :=
  if (Ascending.get? d.name table).isSome then .error (.config .duplicateDimension d.name)
  else .ok (Ascending.put d.name d table)

/-- Adds the subdomain, whose name must be new, and the dimensions it creates. -/
def addTo (grid : Grid) (entry : SubdomainEntry) : Except Error Grid :=
  if grid.subdomains.any fun s => s.name = entry.name then
    .error (.config .badSubdomain ("duplicate subdomain " ++ entry.name))
  else do
    let subdomain ← entry.resolve grid.dimensions
    let dimensions ← (subdomain.substitutes.map Prod.snd).foldlM addDimension grid.dimensions
    .ok { grid with dimensions := dimensions, subdomains := grid.subdomains ++ [subdomain] }

end SubdomainEntry

namespace GridDescription

def resolve (description : GridDescription) : Except Error Grid := do
  let dimensions ← DimensionEntry.resolveAll description.dimensions
  let fields ← description.fields.foldlM (FieldEntry.addTo dimensions) []
  description.subdomains.foldlM SubdomainEntry.addTo
    ⟨dimensions, fields, [], description.unitSpacing⟩

end GridDescription

namespace Grid

def read (text : String) : Except Error Grid := do (← GridDescription.decode text).resolve

def dimension? (g : Grid) (name : String) : Option Dimension := Ascending.get? name g.dimensions

def field? (g : Grid) (name : String) : Option Field := Ascending.get? name g.fields

def subdomain? (g : Grid) (name : String) : Option Subdomain :=
  g.subdomains.find? (·.name = name)

/-- A dimension that is expected to exist. -/
def dimension (g : Grid) (name : String) : Except Error Dimension :=
  lookupDimension g.dimensions name

/-- A field that is expected to exist. -/
def field (g : Grid) (name : String) : Except Error Field :=
  match g.field? name with
  | some f => .ok f
  | none => .error (.config .unknownFunction name)

/-- Alignment with the options of the grid and without replacements. -/
def alignment (g : Grid) : Alignment := ⟨.empty, g.unitSpacing⟩

end Grid

end GridAccess
