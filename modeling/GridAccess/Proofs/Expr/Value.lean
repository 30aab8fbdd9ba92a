import GridAccess.Proofs.Expr.Equality
import GridAccess.Proofs.Literal.Exact
import Mathlib.Algebra.BigOperators.Group.List.Basic

/-!
Values of expressions. An interpretation gives integers to symbols and dimensions and says what
calls and accesses read; sums, products and powers with exponents that are not negative have the
values that they stand for. Equal expressions have equal values.
-/

namespace GridAccess

structure Interpretation where
  symbol : Symbol → Int
  dimension : Dimension → Int
  /-- what a call of a field reads at the values of its arguments -/
  call : Field → List Int → Int
  /-- what an access to a field reads at the values of its indices -/
  access : Field → List Int → Int

namespace Expr

mutual

def value (ι : Interpretation) : Expr → Int
  | .lit n => n.toInt
  | .sym s => ι.symbol s
  | .dim d => ι.dimension d
  | .call f args => ι.call f (valueList ι args)
  | .access f indices => ι.access f (valueList ι indices)
  | .sum terms => (valueList ι terms).sum
  | .prod factors => (valueList ι factors).prod
  | .pow base exponent => value ι base ^ (value ι exponent).toNat

def valueList (ι : Interpretation) : List Expr → List Int
  | [] => []
  | e :: es => value ι e :: valueList ι es

end

/-- Every exponent is an integer literal that is not negative. -/
def NaturalPowers (e : Expr) : Prop :=
  ∀ base exponent, .pow base exponent ∈ e.nodes → ∃ n : Int64, exponent = .int n ∧ 0 ≤ n.toInt

variable {ι : Interpretation}

theorem valueList_eq (es : List Expr) : valueList ι es = es.map (value ι) := by
  induction es with
  | nil => rfl
  | cons e es ih => exact congrArg (e.value ι :: ·) ih

@[simp] theorem value_lit (n : Literal) : (lit n).value ι = n.toInt := rfl

@[simp] theorem value_int (n : Int64) : (int n).value ι = n.toInt := rfl

@[simp] theorem value_sym (s : Symbol) : (sym s).value ι = ι.symbol s := rfl

@[simp] theorem value_dim (d : Dimension) : (dim d).value ι = ι.dimension d := rfl

@[simp] theorem value_call (f : Field) (args : List Expr) :
    (call f args).value ι = ι.call f (args.map (value ι)) :=
  congrArg (ι.call f) (valueList_eq args)

@[simp] theorem value_access (f : Field) (indices : List Expr) :
    (access f indices).value ι = ι.access f (indices.map (value ι)) :=
  congrArg (ι.access f) (valueList_eq indices)

@[simp] theorem value_sum (terms : List Expr) :
    (sum terms).value ι = (terms.map (value ι)).sum :=
  congrArg List.sum (valueList_eq terms)

@[simp] theorem value_prod (factors : List Expr) :
    (prod factors).value ι = (factors.map (value ι)).prod :=
  congrArg List.prod (valueList_eq factors)

@[simp] theorem value_pow (base exponent : Expr) :
    (pow base exponent).value ι = base.value ι ^ (exponent.value ι).toNat := rfl

/-- Floats, at which equal expressions may differ, all have the value 0. -/
theorem value_eq_of_same {a b : Expr} (h : a.same b = true) : a.value ι = b.value ι := by
  have hlist {as bs : List Expr}
      (h : List.Forall₂ (fun a b : Expr => a.value ι = b.value ι) as bs) :
      valueList ι as = valueList ι bs := by
    rw [valueList_eq, valueList_eq]
    exact map_eq_map_iff_forall₂.mpr h
  apply sameInduction (motive := fun a b => a.value ι = b.value ι) (h := h)
  case lit => exact fun hmn => Literal.toInt_eq_of_same hmn
  case sym => exact fun s => rfl
  case dim => exact fun d => rfl
  case call => exact fun f _ _ _ ih => congrArg (ι.call f) (hlist ih)
  case access => exact fun f _ _ _ ih => congrArg (ι.access f) (hlist ih)
  case sum => exact fun _ ih => congrArg List.sum (hlist ih)
  case prod => exact fun _ ih => congrArg List.prod (hlist ih)
  case pow =>
    intro a b c d _ _ hac hbd
    rw [value_pow, value_pow, hac, hbd]

end Expr

end GridAccess
