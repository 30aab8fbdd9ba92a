import GridAccess.Proofs.Expr.Replacement
import GridAccess.Proofs.Literal.Exact

/-!
The literals that folding computes. Beside each function that folds literals stands one that
lists what its additions, multiplications and powers return, intermediate results included. A
fold in which no integer operation overflows is one whose list holds integers only.
-/

namespace GridAccess

/-- No operation went over to floating point. -/
def AllInt (ns : List Literal) : Prop := ∀ n ∈ ns, n.isInt = true

instance (ns : List Literal) : Decidable (AllInt ns) :=
  inferInstanceAs (Decidable (∀ n ∈ ns, n.isInt = true))

theorem allInt_append {ms ns : List Literal} : AllInt (ms ++ ns) ↔ AllInt ms ∧ AllInt ns :=
  List.forall_mem_append

namespace Monomial

/-- The coefficients after each factor. -/
def trace (m : Monomial) : List Expr → List Literal
  | [] => []
  | e :: es => (m.times e).coefficient :: (m.times e).trace es

/-- What `ofFactors` computes. -/
def factorsTrace (fs : List Expr) : List Literal :=
  trace ⟨.int 1, []⟩ (Expr.factorsList fs).reverse

end Monomial

namespace Collected

def literals (c : Collected) : List Literal := c.constant :: c.coefficients.map Prod.snd

/-- The constants and coefficients after each term. -/
def trace (c : Collected) : List Expr → List Literal
  | [] => []
  | e :: es => (c.plus e).literals ++ (c.plus e).trace es

def scaledTrace (rest : Expr) (coefficient : Literal) : List Literal :=
  if coefficient.isOne then [] else Monomial.factorsTrace [.lit coefficient, rest]

def termsTrace (c : Collected) : List Literal :=
  (c.coefficients.filter fun entry => !entry.2.isZero).flatMap fun entry =>
    scaledTrace entry.1 entry.2

end Collected

/-- What the two functions of a folding compute. -/
structure FoldingTrace where
  product : List Expr → List Literal
  terms : Expr → List Literal

namespace FoldingTrace

def summand (product : List Expr → List Literal) : Expr → List Literal
  | .prod fs => product fs
  | _ => []

def sum (t : FoldingTrace) (f : Folding) (terms : List Expr) : List Literal :=
  let contributed := terms.reverse.flatMap f.terms
  let start : Collected := ⟨.int 0, []⟩
  terms.reverse.flatMap t.terms ++ start.trace contributed ++
    (Collected.ofTerms contributed).termsTrace

def flat : FoldingTrace where
  product := Monomial.factorsTrace
  terms := summand Monomial.factorsTrace

/-- For one more layer of sums than `f` and `t`. -/
def next (f : Folding) (t : FoldingTrace) : FoldingTrace :=
  let product fs :=
    let m := Monomial.ofFactors fs
    Monomial.factorsTrace fs ++
      match m.spread? with
      | some terms =>
        let scaled := terms.map fun term => f.product [.lit m.coefficient, term]
        terms.flatMap (fun term => t.product [.lit m.coefficient, term]) ++ t.sum f scaled
      | none => []
  { product := product
    terms := fun e =>
      summand product e ++
        match Folding.summand f.next.product e with
        | .sum terms => terms.reverse.flatMap t.terms
        | _ => [] }

def ofDepth : Nat → FoldingTrace
  | 0 => flat
  | n + 1 => (ofDepth n).next (Folding.ofDepth n)

end FoldingTrace

namespace Expr

def sumOfTrace (terms : List Expr) : List Literal :=
  let depth := sumDepthList terms
  (FoldingTrace.ofDepth depth).sum (Folding.ofDepth depth) terms

def productOfTrace (factors : List Expr) : List Literal :=
  (FoldingTrace.ofDepth (sumDepthList factors)).product factors

/-- A power without a finite value is not folded and computes nothing. -/
def powerTrace (base exponent : Expr) : List Literal :=
  (base.literal?.bind fun b => exponent.literal?.bind fun e => b.pow? e).toList

mutual

/-- What `substFold` computes when it builds the nodes above a match. -/
def substFoldTrace (s : Substitution) : Expr → List Literal
  | .lit _ | .sym _ | .dim _ => []
  | .call f args =>
    match s.find? (.call f args) with
    | some _ => []
    | none => substFoldTraceList s args
  | .access f indices =>
    match s.find? (.access f indices) with
    | some _ => []
    | none => substFoldTraceList s indices
  | .sum terms =>
    match s.find? (.sum terms) with
    | some _ => []
    | none =>
      substFoldTraceList s terms ++
        if terms.any s.touches then sumOfTrace (terms.map (·.substFold s)) else []
  | .prod factors =>
    match s.find? (.prod factors) with
    | some _ => []
    | none =>
      substFoldTraceList s factors ++
        if factors.any s.touches then productOfTrace (factors.map (·.substFold s)) else []
  | .pow base exponent =>
    match s.find? (.pow base exponent) with
    | some _ => []
    | none =>
      substFoldTrace s base ++ substFoldTrace s exponent ++
        if s.touches base || s.touches exponent then
          powerTrace (base.substFold s) (exponent.substFold s)
        else []

def substFoldTraceList (s : Substitution) : List Expr → List Literal
  | [] => []
  | e :: es => substFoldTrace s e ++ substFoldTraceList s es

end

end Expr

end GridAccess
