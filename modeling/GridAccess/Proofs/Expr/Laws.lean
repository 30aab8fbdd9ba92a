import GridAccess.Proofs.Expr.NormalForm

/-!
Laws of canonical sums and products, as equalities of trees. Sums are a commutative group because
their forms are: what stands on both sides of a law adds up to the same form, whatever the operands
look like. A product is not determined by its form alone, but the order of its factors only decides
about the order in which the coefficient is multiplied up.
-/

namespace GridAccess

namespace Expr

/-! ### Order of factors -/

theorem sumDepthList_perm {es es' : List Expr} (h : es.Perm es') :
    sumDepthList es = sumDepthList es' := by
  induction h with
  | nil => rfl
  | cons e _ ih => rw [sumDepthList_cons, sumDepthList_cons, ih]
  | swap e e' es => simp only [sumDepthList_cons, max_left_comm]
  | trans _ _ ih ih' => exact ih.trans ih'

theorem cofactors_prod_perm {fs gs : List Expr} (h : fs.Perm gs) :
    (prod fs).cofactors.Perm (prod gs).cofactors := by
  rw [cofactors_prod, cofactors_prod]
  exact h.flatMap_right _

theorem coefficient_prod_perm {fs gs : List Expr} (h : fs.Perm gs) :
    (prod fs).coefficient = (prod gs).coefficient := by
  rw [coefficient_prod, coefficient_prod]
  exact (h.map _).prod_eq

end Expr

namespace Monomial

variable {fs gs : List Expr} (h : fs.Perm gs)
include h

theorem factors_ofFactors_perm : (ofFactors fs).factors.Perm (ofFactors gs).factors := by
  rw [Expr.factors_ofFactors, Expr.factors_ofFactors]
  exact (List.reverse_perm _).trans ((Expr.cofactors_prod_perm h).trans (List.reverse_perm _).symm)

variable (hf : AllInt (factorsTrace fs)) (hg : AllInt (factorsTrace gs))
include hf hg

theorem coefficient_ofFactors_perm : (ofFactors fs).coefficient = (ofFactors gs).coefficient := by
  refine Literal.eq_of_toInt_eq (isInt_ofFactors hf) (isInt_ofFactors hg) ?_
  rw [toInt_ofFactors hf, toInt_ofFactors hg, Expr.coefficient_prod_perm h]

theorem same_ofFactors_perm : (ofFactors fs).toExpr.same (ofFactors gs).toExpr = true := by
  have hcoefficient := coefficient_ofFactors_perm h hf hg
  have hfactors := factors_ofFactors_perm h
  generalize ofFactors fs = m at *
  generalize ofFactors gs = n at *
  obtain ⟨c, as⟩ := m
  obtain ⟨d, bs⟩ := n
  obtain rfl : c = d := hcoefficient
  exact same_toExpr_of_perm c (hfactors.map _)

theorem spread?_ofFactors_perm : (ofFactors fs).spread? = (ofFactors gs).spread? := by
  have hcoefficient := coefficient_ofFactors_perm h hf hg
  have hfactors := factors_ofFactors_perm h
  ext terms
  rw [spread?_eq_some_iff, spread?_eq_some_iff, hcoefficient]
  refine and_congr_right fun _ => ?_
  constructor
  · intro heq
    exact (heq ▸ hfactors.symm).eq_singleton
  · intro heq
    exact (heq ▸ hfactors).eq_singleton

end Monomial

namespace Folding

theorem same_product_perm (n : Nat) {fs gs : List Expr} (h : fs.Perm gs)
    (hf : AllInt ((FoldingTrace.ofDepth n).product fs))
    (hg : AllInt ((FoldingTrace.ofDepth n).product gs)) :
    ((ofDepth n).product fs).same ((ofDepth n).product gs) = true := by
  cases n with
  | zero => exact Monomial.same_ofFactors_perm h hf hg
  | succ n =>
      have hf := (allInt_append.mp hf).1
      have hg := (allInt_append.mp hg).1
      simp only [ofDepth, next]
      rw [Monomial.spread?_ofFactors_perm h hf hg, Monomial.coefficient_ofFactors_perm h hf hg]
      split
      · exact Expr.same_refl _
      · exact Monomial.same_ofFactors_perm h hf hg

end Folding

namespace Expr

theorem same_productOf_perm {fs gs : List Expr} (h : fs.Perm gs)
    (hf : AllInt (productOfTrace fs)) (hg : AllInt (productOfTrace gs)) :
    (productOf fs).same (productOf gs) = true := by
  unfold productOfTrace at hf hg
  unfold productOf
  rw [sumDepthList_perm h] at hf ⊢
  exact Folding.same_product_perm _ h hf hg

/-! ### Forms of sums and differences -/

theorem form_sumOf {terms : List Expr} (h : AllInt (sumOfTrace terms)) :
    (sumOf terms).form = (terms.map form).sum :=
  forms.value_sumOf h

theorem form_neg {e : Expr} (h : AllInt (productOfTrace [int (-1), e])) :
    (-e).form = -e.form := by
  refine (forms.value_productOf h).trans ((Reading.value_scale (.int (-1)) e).trans ?_)
  exact neg_one_zsmul _

/-! ### Laws -/

/-- Canonical sums are a commutative group and canonical products commute, as trees, as long as no
operation on integers overflows: the order of terms does not matter, a sum may stand in place of its
terms, what is added can be subtracted again, everything cancels against itself, and the order of
factors does not matter. -/
theorem sums_commutative_group_products_commute :
    (∀ ts us : List Expr, ts.Perm us → AllInt (sumOfTrace ts) → AllInt (sumOfTrace us) →
      (sumOf ts == sumOf us) = true) ∧
    (∀ ts us : List Expr, AllInt (sumOfTrace us) → AllInt (sumOfTrace (ts ++ [sumOf us])) →
      AllInt (sumOfTrace (ts ++ us)) → (sumOf (ts ++ [sumOf us]) == sumOf (ts ++ us)) = true) ∧
    (∀ a b : Expr, AllInt (sumOfTrace [a, b]) → AllInt (productOfTrace [int (-1), b]) →
      AllInt (sumOfTrace [a + b, -b]) → AllInt (sumOfTrace [a]) →
      ((a + b) - b == sumOf [a]) = true) ∧
    (∀ a : Expr, AllInt (productOfTrace [int (-1), a]) → AllInt (sumOfTrace [a, -a]) →
      (a - a == int 0) = true) ∧
    ∀ fs gs : List Expr, fs.Perm gs → AllInt (productOfTrace fs) → AllInt (productOfTrace gs) →
      (productOf fs == productOf gs) = true := by
  refine ⟨?_, ?_, ?_, ?_, fun _ _ => same_productOf_perm⟩
  · intro ts us h hts hus
    exact (same_sumOf_iff hts hus).mpr (h.map form).sum_eq
  · intro ts us hus hnested hflat
    refine (same_sumOf_iff hnested hflat).mpr ?_
    simp [form_sumOf hus]
  · intro a b hab hneg hsub ha
    refine (same_sumOf_iff hsub ha).mpr ?_
    have hsum : (a + b).form = a.form + b.form := (form_sumOf hab).trans (by simp)
    simp [hsum, form_neg hneg]
  · intro a hneg hsub
    have hempty : AllInt (sumOfTrace []) := by decide
    refine (same_sumOf_iff hsub hempty).mpr ?_
    simp [form_neg hneg]

/-- The product `(x + 1)*h`, which is not multiplied out. -/
def sumTimesSymbol : Expr :=
  .prod [.sum [.dim (.root "x" .space), .int 1], .sym ⟨"h"⟩]

/-- The product `-2*(3*(x + h**2))` as it is written. -/
def scaledTwice : Expr :=
  .prod [.int (-2), .prod [.int 3, .sum [.dim (.root "x" .space), .pow (.sym ⟨"h"⟩) (.int 2)]]]

theorem sums_commutative_group_products_commute_scaledTwice :
    (sumOf [sumTimesSymbol, scaledTwice] == sumOf [scaledTwice, sumTimesSymbol]) = true ∧
    (sumOf [scaledTwice, sumOf [sumTimesSymbol, scaledTwice]] ==
      sumOf [scaledTwice, sumTimesSymbol, scaledTwice]) = true ∧
    ((sumTimesSymbol + scaledTwice) - scaledTwice == sumOf [sumTimesSymbol]) = true ∧
    (scaledTwice - scaledTwice == int 0) = true ∧
    (productOf [sumTimesSymbol, scaledTwice] ==
      productOf [scaledTwice, sumTimesSymbol]) = true := by
  obtain ⟨hperm, hnested, hcancel, hself, hproduct⟩ := sums_commutative_group_products_commute
  have hswap (a b : Expr) : [a, b].Perm [b, a] := .swap b a []
  refine ⟨?_, ?_, ?_, ?_, ?_⟩
  · exact hperm _ _ (hswap _ _) (by decide) (by decide)
  · exact hnested [scaledTwice] _ (by decide) (by decide) (by decide)
  · exact hcancel _ _ (by decide) (by decide) (by decide) (by decide)
  · exact hself _ (by decide) (by decide)
  · exact hproduct _ _ (hswap _ _) (by decide) (by decide)

end Expr

end GridAccess
