/-!
The words of JSON text. White space is a space, a tab, a line feed or a carriage return.
-/

namespace GridAccess.Json

inductive Token where
  | null
  | bool (b : Bool)
  | nat (n : Nat)
  | number (text : String)
  | str (text : Option String)
  | openArr
  | closeArr
  | openObj
  | closeObj
  | comma
  | colon
  deriving DecidableEq

def isSpace (c : Char) : Bool := c = ' ' || c = '\t' || c = '\n' || c = '\r'

def hexDigit? (c : Char) : Option Nat :=
  if c.isDigit then some (c.toNat - 48)
  else if 'a' ≤ c ∧ c ≤ 'f' then some (c.toNat - 87)
  else if 'A' ≤ c ∧ c ≤ 'F' then some (c.toNat - 55)
  else none

def hex4? (a b c d : Char) : Option Nat := do
  let a ← hexDigit? a
  let b ← hexDigit? b
  let c ← hexDigit? c
  let d ← hexDigit? d
  some (((a * 16 + b) * 16 + c) * 16 + d)

/-- The character that a backslash and `c` stand for. -/
def shortEscape? (c : Char) : Option Char :=
  if c = '"' || c = '\\' || c = '/' then some c
  else if c = 'b' then some '\x08'
  else if c = 'f' then some '\x0c'
  else if c = 'n' then some '\n'
  else if c = 'r' then some '\r'
  else if c = 't' then some '\t'
  else none

/-- The code units of a string up to its closing quote, and what follows that. -/
def stringUnits? : List Char → Option (List Nat × List Char)
  | [] => none
  | '"' :: rest => some ([], rest)
  | '\\' :: 'u' :: a :: b :: c :: d :: rest =>
    match hex4? a b c d, stringUnits? rest with
    | some n, some (units, after) => some (n :: units, after)
    | _, _ => none
  | '\\' :: c :: rest =>
    match shortEscape? c, stringUnits? rest with
    | some e, some (units, after) => some (e.toNat :: units, after)
    | _, _ => none
  | c :: rest =>
    if c = '\\' || c.toNat < 32 then none
    else (stringUnits? rest).map fun (units, after) => (c.toNat :: units, after)

def isHigh (n : Nat) : Bool := 0xd800 ≤ n && n < 0xdc00

def isLow (n : Nat) : Bool := 0xdc00 ≤ n && n < 0xe000

/-- Joins surrogate pairs; fails on half a pair. -/
def joinPairs? : List Nat → Option (List Char)
  | [] => some []
  | [n] => if isHigh n || isLow n then none else some [Char.ofNat n]
  | n :: m :: rest =>
    if isHigh n && isLow m then
      (joinPairs? rest).map (Char.ofNat (0x10000 + (n - 0xd800) * 0x400 + (m - 0xdc00)) :: ·)
    else if isHigh n || isLow n then none
    else (joinPairs? (m :: rest)).map (Char.ofNat n :: ·)

def string? (cs : List Char) : Option (Token × List Char) :=
  (stringUnits? cs).map fun (units, after) => (.str ((joinPairs? units).map String.ofList), after)

/-- A nonempty run of digits. -/
def digits? (cs : List Char) : Option (List Char × List Char) :=
  let run := cs.takeWhile Char.isDigit
  if run.isEmpty then none else some (run, cs.dropWhile Char.isDigit)

/-- A single zero, or a run of digits that does not start with one. -/
def integer? : List Char → Option (List Char × List Char)
  | '0' :: rest => some (['0'], rest)
  | cs => digits? cs

/-- An optional point with digits after it. -/
def fraction? : List Char → Option (List Char × List Char)
  | '.' :: rest => (digits? rest).map fun (run, after) => ('.' :: run, after)
  | cs => some ([], cs)

/-- An optional exponent. -/
def exponent? : List Char → Option (List Char × List Char)
  | [] => some ([], [])
  | c :: rest =>
    if c = 'e' || c = 'E' then
      match rest with
      | '+' :: later => (digits? later).map fun (run, after) => (c :: '+' :: run, after)
      | '-' :: later => (digits? later).map fun (run, after) => (c :: '-' :: run, after)
      | later => (digits? later).map fun (run, after) => (c :: run, after)
    else some ([], c :: rest)

def unsigned? (cs : List Char) : Option (List Char × List Char × List Char) := do
  let (whole, cs) ← integer? cs
  let (fraction, cs) ← fraction? cs
  let (exponent, cs) ← exponent? cs
  some (whole, fraction ++ exponent, cs)

def natOfDigits (digits : List Char) : Nat :=
  digits.foldl (fun n c => n * 10 + (c.toNat - 48)) 0

def number? : List Char → Option (Token × List Char)
  | '-' :: cs => (unsigned? cs).map fun (whole, rest, after) =>
    (.number (String.ofList ('-' :: whole ++ rest)), after)
  | cs => (unsigned? cs).map fun (whole, rest, after) =>
    (if rest.isEmpty then .nat (natOfDigits whole) else .number (String.ofList (whole ++ rest)),
      after)

/-- The first word of a text without leading white space, and what follows it. -/
def token? : List Char → Option (Token × List Char)
  | '[' :: rest => some (.openArr, rest)
  | ']' :: rest => some (.closeArr, rest)
  | '\x7b' :: rest => some (.openObj, rest)
  | '\x7d' :: rest => some (.closeObj, rest)
  | ',' :: rest => some (.comma, rest)
  | ':' :: rest => some (.colon, rest)
  | '"' :: rest => string? rest
  | 'n' :: 'u' :: 'l' :: 'l' :: rest => some (.null, rest)
  | 't' :: 'r' :: 'u' :: 'e' :: rest => some (.bool true, rest)
  | 'f' :: 'a' :: 'l' :: 's' :: 'e' :: rest => some (.bool false, rest)
  | cs => number? cs

/-- All words of a text; each takes at least one character, so `fuel` may be its length. -/
def tokens? : Nat → List Char → Option (List Token)
  | 0, cs => if cs.all isSpace then some [] else none
  | fuel + 1, cs =>
    match cs.dropWhile isSpace with
    | [] => some []
    | cs =>
      match token? cs with
      | some (token, rest) => (tokens? fuel rest).map (token :: ·)
      | none => none

end GridAccess.Json
