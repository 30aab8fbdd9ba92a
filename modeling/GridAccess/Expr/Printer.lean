import GridAccess.Expr.Basic

/-!
The text of an expression. In a sum the literals come last and a term with a minus sign is
subtracted; parentheses stand around sums in products, and around all that is not an atom
in powers.
-/

namespace GridAccess

/-- What decides about order and parentheses. -/
inductive Form where
  | literal
  | atom
  | sum
  | product
  | power
  deriving DecidableEq

structure Rendered where
  form : Form
  text : String
  /-- the text of the negation of a term that starts with a minus sign -/
  negation : Option String

namespace Rendered

def parenthesized (r : Rendered) : String := "(" ++ r.text ++ ")"

def ofLiteral (n : Literal) : Rendered :=
  ⟨.literal, n.text, if n.isNegative then some n.neg.text else none⟩

def atom (text : String) : Rendered := ⟨.atom, text, none⟩

def listText (rs : List Rendered) : String := ", ".intercalate (rs.map Rendered.text)

def firstTerm (r : Rendered) : String :=
  match r.negation with
  | some text => "-" ++ text
  | none => r.text

def laterTerm (r : Rendered) : String :=
  match r.negation with
  | some text => " - " ++ text
  | none => " + " ++ r.text

/-- The literals are moved behind the other terms. -/
def sumText (rs : List Rendered) : String :=
  match rs.filter (·.form ≠ .literal) ++ rs.filter (·.form = .literal) with
  | [] => ""
  | first :: later => first.firstTerm ++ String.join (later.map laterTerm)

def factorText (r : Rendered) : String :=
  match r.form with
  | .sum => r.parenthesized
  | _ => r.text

def factorsText (rs : List Rendered) : String := "*".intercalate (rs.map factorText)

/-- A factor -1 in front of other factors is only a minus sign. -/
def productText (coefficient : Option Literal) (rs : List Rendered) : String :=
  match rs.tail with
  | [] => factorsText rs
  | rest => if coefficient = some (.int (-1)) then "-" ++ factorsText rest else factorsText rs

/-- The text of the product times -1. -/
def negatedProduct (coefficient : Literal) (rs : List Rendered) : String :=
  let opposite := coefficient.neg
  let rest := factorsText rs.tail
  if opposite.isOne then rest else opposite.text ++ "*" ++ rest

def product (coefficient : Option Literal) (rs : List Rendered) : Rendered :=
  { form := .product
    text := productText coefficient rs
    negation := (coefficient.filter Literal.isNegative).map fun c => negatedProduct c rs }

def isCompound (r : Rendered) : Bool :=
  match r.form with
  | .literal | .atom => false
  | .sum | .product | .power => true

def baseText (r : Rendered) : String :=
  if r.isCompound || r.negation.isSome then r.parenthesized else r.text

def exponentText (r : Rendered) : String :=
  if r.isCompound then r.parenthesized else r.text

end Rendered

namespace Expr

mutual

def render : Expr → Rendered
  | .lit n => .ofLiteral n
  | .sym s => .atom s.name
  | .dim d => .atom d.name
  | .call f args => .atom (f.name ++ "(" ++ Rendered.listText (renderList args) ++ ")")
  | .access f indices => .atom (f.name ++ "[" ++ Rendered.listText (renderList indices) ++ "]")
  | .sum terms => ⟨.sum, Rendered.sumText (renderList terms), none⟩
  | .prod factors => .product (factors.head?.bind literal?) (renderList factors)
  | .pow base exponent =>
    ⟨.power, base.render.baseText ++ "**" ++ exponent.render.exponentText, none⟩

def renderList : List Expr → List Rendered
  | [] => []
  | e :: es => e.render :: renderList es

end

def text (e : Expr) : String := e.render.text

end Expr

def Access.text (a : Access) : String := a.toExpr.text

def Call.text (c : Call) : String := c.toExpr.text

end GridAccess
