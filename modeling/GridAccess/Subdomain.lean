import GridAccess.Ascending
import GridAccess.Expr.Substitution
import GridAccess.Text.Quoted

/-!
Named restrictions of the region that is computed: some dimensions are replaced by others,
usually by derived ones that cover a part of them.
-/

namespace GridAccess

structure Subdomain where
  name : String
  /-- restricted dimensions in ascending order, each with its substitute -/
  substitutes : List (Dimension × Dimension)
  deriving DecidableEq

namespace Subdomain

/-- For a dimension that occurs twice the later pair counts. -/
def ofPairs (name : String) (pairs : List (Dimension × Dimension)) : Subdomain :=
  ⟨name, pairs.foldl (fun table pair => Ascending.put pair.1 pair.2 table) []⟩

/-- The part of `d` that the region called `region` covers. -/
def part (region : String) (d : Dimension) (thickness : Thickness) : Dimension :=
  .derived (d.name ++ "_" ++ region) (.sub thickness) d

def restrict (name : String) (restrictions : List (Dimension × Thickness)) : Subdomain :=
  ofPairs name (restrictions.map fun (d, thickness) => (d, part name d thickness))

def get? (s : Subdomain) (d : Dimension) : Option Dimension := Ascending.get? d s.substitutes

def substitution (s : Subdomain) : Substitution :=
  ⟨s.substitutes.map fun (d, e) => (.dim d, .dim e)⟩

/-- The quoted name and the names of the dimensions. -/
def debugText (s : Subdomain) : String :=
  let pairs := s.substitutes.map fun (d, e) => d.name ++ ": " ++ e.name
  "SubDomain \x7b name: " ++ Text.quoted s.name ++ ", dimension_map: \x7b" ++
    ", ".intercalate pairs ++ "\x7d \x7d"

end Subdomain

end GridAccess
