import GridAccess.Json.Basic
import GridAccess.Json.Token

/-!
Reading of JSON: strict, one value and nothing after it but white space.
-/

namespace GridAccess.Json

mutual

/-- The value that the words start with, and what follows it. -/
def value? : Nat → List Token → Option (Json × List Token)
  | 0, _ => none
  | fuel + 1, tokens =>
    match tokens with
    | .null :: rest => some (.null, rest)
    | .bool b :: rest => some (.bool b, rest)
    | .nat n :: rest => some (.nat n, rest)
    | .number text :: rest => some (.number text, rest)
    | .str text :: rest => some (.str text, rest)
    | .openArr :: .closeArr :: rest => some (.arr [], rest)
    | .openArr :: rest => (items? fuel rest).map fun (items, after) => (.arr items, after)
    | .openObj :: .closeObj :: rest => some (.obj [], rest)
    | .openObj :: rest => (members? fuel rest).map fun (members, after) => (.obj members, after)
    | _ => none

/-- The items up to the bracket that closes the array. -/
def items? : Nat → List Token → Option (List Json × List Token)
  | 0, _ => none
  | fuel + 1, tokens =>
    match value? fuel tokens with
    | some (item, .comma :: rest) =>
      (items? fuel rest).map fun (items, after) => (item :: items, after)
    | some (item, .closeArr :: rest) => some ([item], rest)
    | _ => none

/-- The members up to the brace that closes the object. -/
def members? : Nat → List Token → Option (List (Option String × Json) × List Token)
  | 0, _ => none
  | fuel + 1, tokens =>
    match tokens with
    | .str name :: .colon :: tokens =>
      match value? fuel tokens with
      | some (member, .comma :: rest) =>
        (members? fuel rest).map fun (members, after) => ((name, member) :: members, after)
      | some (member, .closeObj :: rest) => some ([(name, member)], rest)
      | _ => none
    | _ => none

end

/-- Between two words at most two calls are made. -/
def ofTokens? (tokens : List Token) : Option Json :=
  match value? (2 * tokens.length) tokens with
  | some (value, []) => some value
  | _ => none

def read? (text : String) : Option Json :=
  let cs := text.toList
  (tokens? cs.length cs).bind ofTokens?

end GridAccess.Json
