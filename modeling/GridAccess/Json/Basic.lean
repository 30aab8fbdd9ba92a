/-!
JSON values. Members of an object keep their order, and a name may occur more than once.
-/

namespace GridAccess

inductive Json where
  | null
  | bool (b : Bool)
  /-- an integer without a sign -/
  | nat (n : Nat)
  /-- a number with a sign, a fraction or an exponent, as written -/
  | number (text : String)
  /-- a string; there is no text if it names half of a surrogate pair -/
  | str (text : Option String)
  | arr (items : List Json)
  | obj (members : List (Option String × Json))

end GridAccess
