import GridAccess.Expr.Canonical

/-!
Replacement of whole subterms. The search goes from the root down and does not enter a
replacement; a subterm without a match is left as it is. The nodes above a match are built
again, either canonically or in their old shape.
-/

namespace GridAccess

/-- Replacements in order of precedence: the first matching key counts. -/
structure Substitution where
  entries : List (Expr × Expr)

namespace Substitution

def empty : Substitution := ⟨[]⟩

/-- A later pair takes precedence over an earlier one. -/
def ofList (pairs : List (Expr × Expr)) : Substitution := ⟨pairs.reverse⟩

def isEmpty (s : Substitution) : Bool := s.entries.isEmpty

def find? (s : Substitution) (e : Expr) : Option Expr :=
  (s.entries.find? fun entry => e == entry.1).map Prod.snd

/-- The entries of `s` take precedence over those of `t`. -/
def orElse (s t : Substitution) : Substitution := ⟨s.entries ++ t.entries⟩

end Substitution

/-- How a sum, a product or a power is built from replaced operands. -/
structure Builder where
  sum : List Expr → Expr
  prod : List Expr → Expr
  pow : Expr → Expr → Expr

def Builder.folding : Builder := ⟨Expr.sumOf, Expr.productOf, Expr.power⟩

def Builder.verbatim : Builder := ⟨.sum, .prod, .pow⟩

namespace Expr

/-- The changed head or tail of a list, with the other part as it was. -/
def changedCons (e : Expr) (es : List Expr) : Option Expr → Option (List Expr) → Option (List Expr)
  | none, none => none
  | some e', none => some (e' :: es)
  | none, some es' => some (e :: es')
  | some e', some es' => some (e' :: es')

def changedPow (b : Builder) (base exponent : Expr) : Option Expr → Option Expr → Option Expr
  | none, none => none
  | some base', none => some (b.pow base' exponent)
  | none, some exponent' => some (b.pow base exponent')
  | some base', some exponent' => some (b.pow base' exponent')

mutual

/-- The replaced expression, or nothing if there is no match in it. -/
def replace? (b : Builder) (s : Substitution) : Expr → Option Expr
  | .lit n => s.find? (.lit n)
  | .sym x => s.find? (.sym x)
  | .dim d => s.find? (.dim d)
  | .call f args =>
    s.find? (.call f args) <|> (replaceList? b s args).map (.call f)
  | .access f indices =>
    s.find? (.access f indices) <|> (replaceList? b s indices).map (.access f)
  | .sum terms => s.find? (.sum terms) <|> (replaceList? b s terms).map b.sum
  | .prod factors => s.find? (.prod factors) <|> (replaceList? b s factors).map b.prod
  | .pow base exponent =>
    s.find? (.pow base exponent) <|>
      changedPow b base exponent (replace? b s base) (replace? b s exponent)

def replaceList? (b : Builder) (s : Substitution) : List Expr → Option (List Expr)
  | [] => none
  | e :: es => changedCons e es (replace? b s e) (replaceList? b s es)

end

/-- Builds the nodes above a match canonically. -/
def substFold (e : Expr) (s : Substitution) : Expr := (e.replace? .folding s).getD e

/-- Keeps the shape of the nodes above a match. -/
def subst (e : Expr) (s : Substitution) : Expr := (e.replace? .verbatim s).getD e

end Expr

end GridAccess
