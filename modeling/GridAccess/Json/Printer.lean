import GridAccess.Json.Basic

/-!
Writing of JSON, one item or member a line, indented by two spaces for each level.
-/

namespace GridAccess.Json

def hexDigit (n : Nat) : Char := (Nat.toDigits 16 n).headD '0'

/-- Only quotes, backslashes and control characters are escaped. -/
def escaped (c : Char) : List Char :=
  if c = '"' || c = '\\' then ['\\', c]
  else if c = '\x08' then ['\\', 'b']
  else if c = '\t' then ['\\', 't']
  else if c = '\n' then ['\\', 'n']
  else if c = '\x0c' then ['\\', 'f']
  else if c = '\r' then ['\\', 'r']
  else if c.toNat < 32 then
    ['\\', 'u', '0', '0', hexDigit (c.toNat / 16), hexDigit (c.toNat % 16)]
  else [c]

/-- A string without text is written as an empty one. -/
def stringChars (text : Option String) : List Char :=
  '"' :: (text.getD "").toList.flatMap escaped ++ ['"']

def lineBreak (level : Nat) : List Char := '\n' :: List.replicate (2 * level) ' '

mutual

def chars (level : Nat) : Json → List Char
  | .null => ['n', 'u', 'l', 'l']
  | .bool true => ['t', 'r', 'u', 'e']
  | .bool false => ['f', 'a', 'l', 's', 'e']
  | .nat n => Nat.toDigits 10 n
  | .number text => text.toList
  | .str text => stringChars text
  | .arr [] => ['[', ']']
  | .arr (item :: items) =>
    '[' :: lineBreak (level + 1) ++ chars (level + 1) item ++ itemsChars (level + 1) items ++
      lineBreak level ++ [']']
  | .obj [] => ['\x7b', '\x7d']
  | .obj ((name, member) :: members) =>
    '\x7b' :: lineBreak (level + 1) ++ stringChars name ++ ':' :: ' ' ::
      chars (level + 1) member ++ membersChars (level + 1) members ++ lineBreak level ++ ['\x7d']

/-- The items after the first one. -/
def itemsChars (level : Nat) : List Json → List Char
  | [] => []
  | item :: items => ',' :: lineBreak level ++ chars level item ++ itemsChars level items

/-- The members after the first one. -/
def membersChars (level : Nat) : List (Option String × Json) → List Char
  | [] => []
  | (name, member) :: members =>
    ',' :: lineBreak level ++ stringChars name ++ ':' :: ' ' :: chars level member ++
      membersChars level members

end

def text (j : Json) : String := String.ofList (j.chars 0)

end GridAccess.Json
