/-!
Errors: what was being done, what went wrong, and optionally a detail such as a name.
-/

namespace GridAccess

inductive ErrorKind where
  | config
  | ordering
  deriving DecidableEq

inductive ErrorCode where
  | jsonDeserialization
  | circularDependency
  | duplicateDimension
  | unknownDimension
  | dimensionParentCycle
  | missingParent
  | unexpectedParent
  | duplicateFunction
  | unknownFunction
  | mismatchedDimensions
  | badSubdomain
  | generic
  deriving DecidableEq

structure Error where
  kind : ErrorKind
  code : ErrorCode
  details : Option String
  deriving DecidableEq

def ErrorKind.text : ErrorKind → String
  | .config => "ConfigError"
  | .ordering => "OrderingError"

def ErrorCode.text : ErrorCode → String
  | .jsonDeserialization => "json_deserialization"
  | .circularDependency => "circular_dependency"
  | .duplicateDimension => "duplicate_dimension"
  | .unknownDimension => "unknown_dimension"
  | .dimensionParentCycle => "dimension_parent_cycle"
  | .missingParent => "missing_parent"
  | .unexpectedParent => "unexpected_parent"
  | .duplicateFunction => "duplicate_function"
  | .unknownFunction => "unknown_function"
  | .mismatchedDimensions => "mismatched_dimensions"
  | .badSubdomain => "bad_subdomain"
  | .generic => "generic"

/-- An error about a description of a grid. -/
def Error.config (code : ErrorCode) (details : String) : Error :=
  ⟨.config, code, some details⟩

/-- The kind, then in braces the code and after a colon the details. -/
def Error.message (e : Error) : String :=
  let reason := match e.details with
    | some details => e.code.text ++ ": " ++ details
    | none => e.code.text
  e.kind.text ++ "\x7b" ++ reason ++ "\x7d"

end GridAccess
