import GridAccess.Proofs.Expr.NormalForm
import Mathlib.Algebra.MvPolynomial.CommRing
import Mathlib.Data.Finsupp.Multiset
import Mathlib.LinearAlgebra.Finsupp.LinearCombination

/-!
Expressions as polynomials with integer coefficients, where whatever is no literal, sum or product
is a variable. The polynomial is what the linear form denotes. If nothing but products of variables
is collected, different products are different monomials, so that the form can be read off the
polynomial: for such sums canonical sums are normal forms of polynomials.
-/

namespace GridAccess

open MvPolynomial (X coeff)

namespace Expr

mutual

/-- Atoms that are equal are the same variable. -/
noncomputable def polynomial : Expr → MvPolynomial Class Int
  | .lit n => n.toInt
  | .sum terms => (polynomialList terms).sum
  | .prod factors => (polynomialList factors).prod
  | e => X e.toClass

noncomputable def polynomialList : List Expr → List (MvPolynomial Class Int)
  | [] => []
  | e :: es => polynomial e :: polynomialList es

end

theorem polynomialList_eq (es : List Expr) : polynomialList es = es.map polynomial := by
  induction es with
  | nil => rfl
  | cons e es ih => exact congrArg (e.polynomial :: ·) ih

theorem polynomial_of_isAtom {e : Expr} (h : e.isAtom = true) : e.polynomial = X e.toClass := by
  cases e with
  | lit | sum | prod => cases h
  | _ => rfl

theorem polynomial_congr {a b : Expr} (h : a.same b = true) : a.polynomial = b.polynomial := by
  have hlist {as bs : List Expr}
      (h : List.Forall₂ (fun a b : Expr => a.polynomial = b.polynomial) as bs) :
      polynomialList as = polynomialList bs := by
    rw [polynomialList_eq, polynomialList_eq]
    exact map_eq_map_iff_forall₂.mpr h
  have hatom {a b : Expr} (h : a.same b = true) :
      (X a.toClass : MvPolynomial Class Int) = X b.toClass := by
    rw [toClass_eq_iff.mpr h]
  apply sameInduction (motive := fun a b => a.polynomial = b.polynomial) (h := h)
  case lit => exact fun hmn => congrArg Int.cast (Literal.toInt_eq_of_same hmn)
  case sym => exact fun s => rfl
  case dim => exact fun d => rfl
  case call => exact fun f _ _ hs _ => hatom (same_call f hs)
  case access => exact fun f _ _ hs _ => hatom (same_access f hs)
  case sum => exact fun _ ih => congrArg List.sum (hlist ih)
  case prod => exact fun _ ih => congrArg List.prod (hlist ih)
  case pow => exact fun hac hbd _ _ => hatom (same_pow hac hbd)

theorem polynomial_sum (terms : List Expr) :
    (sum terms).polynomial = (terms.map polynomial).sum :=
  congrArg List.sum (polynomialList_eq terms)

theorem polynomial_prod (factors : List Expr) :
    (prod factors).polynomial = (factors.map polynomial).prod :=
  congrArg List.prod (polynomialList_eq factors)

/-- Expressions denote their polynomials. -/
noncomputable def polynomials : Reading (MvPolynomial Class Int) :=
  .ofRing polynomial (fun _ => rfl) polynomial_sum polynomial_prod polynomial_congr

/-! ### Products of atoms -/

/-- How often each variable occurs among atoms. -/
noncomputable def exponents (es : List Expr) : Class →₀ Nat :=
  (es.map fun e => Finsupp.single e.toClass 1).sum

theorem toMultiset_exponents (es : List Expr) :
    Finsupp.toMultiset (exponents es) = (es.map toClass : Multiset Class) := by
  induction es with
  | nil => rfl
  | cons e es ih =>
      rw [exponents, List.map_cons, List.sum_cons, map_add, ← exponents, ih,
        Finsupp.toMultiset_single, one_nsmul, List.map_cons]
      rfl

theorem perm_of_exponents_eq {as bs : List Expr} (h : exponents as = exponents bs) :
    (as.map toClass).Perm (bs.map toClass) := by
  rw [← Multiset.coe_eq_coe, ← toMultiset_exponents, ← toMultiset_exponents, h]

theorem prod_polynomial {as : List Expr} (h : ∀ a ∈ as, a.isAtom = true) :
    (as.map polynomial).prod = MvPolynomial.monomial (exponents as) 1 := by
  induction as with
  | nil => rfl
  | cons a as ih =>
      obtain ⟨ha, has⟩ := List.forall_mem_cons.mp h
      rw [List.map_cons, List.prod_cons, ih has, polynomial_of_isAtom ha, X,
        MvPolynomial.monomial_mul, one_mul, exponents, exponents, List.map_cons, List.sum_cons]

theorem polynomial_powerProduct {as : List Expr} (h : ∀ a ∈ as, a.isAtom = true) :
    (powerProduct as).polynomial = MvPolynomial.monomial (exponents as) 1 := by
  rw [← prod_polynomial h]
  exact value_powerProduct (fun _ => rfl) polynomial_prod as

theorem toClass_powerProduct_eq_iff {as bs : List Expr} (has : ∀ a ∈ as, a.isAtom = true)
    (hbs : ∀ b ∈ bs, b.isAtom = true) :
    (powerProduct as).toClass = (powerProduct bs).toClass ↔ exponents as = exponents bs := by
  constructor
  · intro h
    have hpolynomial := polynomial_congr (toClass_eq_iff.mp h)
    rw [polynomial_powerProduct has, polynomial_powerProduct hbs] at hpolynomial
    exact MvPolynomial.monomial_left_injective one_ne_zero hpolynomial
  · intro h
    exact toClass_eq_iff.mpr (same_powerProduct (perm_of_exponents_eq h))

/-! ### Sums of monomials -/

/-- A product of literals and atoms, in any nesting. -/
def IsMonomial (e : Expr) : Prop := ∀ f ∈ e.factors, f.isLiteral = true ∨ f.isAtom = true

/-- A product of literals and one sum, in any nesting. -/
def IsMultipleOf (e : Expr) (terms : List Expr) : Prop :=
  (e.factors.filter fun f => !f.isLiteral) = [.sum terms]

/-- Sums of monomials in any nesting, where literals may also multiply a whole sum. -/
inductive SumOfMonomials : Expr → Prop where
  | monomial {e : Expr} : e.IsMonomial → SumOfMonomials e
  | sum {terms : List Expr} : (∀ t ∈ terms, SumOfMonomials t) → SumOfMonomials (.sum terms)
  | multiple {e : Expr} {terms : List Expr} :
    e.IsMultipleOf terms → SumOfMonomials (.sum terms) → SumOfMonomials e

/-- A linear form of products of atoms. -/
def AtomicForm (p : Class →₀ Int) : Prop :=
  ∀ q ∈ p.support, ∃ as, (∀ a ∈ as, a.isAtom = true) ∧ (powerProduct as).toClass = q

namespace AtomicForm

theorem zero : AtomicForm 0 := by simp [AtomicForm]

theorem add {p p' : Class →₀ Int} (h : AtomicForm p) (h' : AtomicForm p') :
    AtomicForm (p + p') := by
  classical
  intro q hq
  rcases Finset.mem_union.mp (Finsupp.support_add hq) with hq | hq
  · exact h q hq
  · exact h' q hq

theorem smul {p : Class →₀ Int} (h : AtomicForm p) (k : Int) : AtomicForm (k • p) :=
  fun q hq => h q (Finsupp.support_smul hq)

theorem sum {es : List Expr} (h : ∀ e ∈ es, AtomicForm e.form) :
    AtomicForm (es.map form).sum := by
  induction es with
  | nil => exact zero
  | cons e es ih =>
      obtain ⟨he, hes⟩ := List.forall_mem_cons.mp h
      rw [List.map_cons, List.sum_cons]
      exact he.add (ih hes)

end AtomicForm

theorem IsMonomial.atomicForm {e : Expr} (h : e.IsMonomial) : AtomicForm e.form := by
  have hatom : ∀ a ∈ e.cofactors, a.isAtom = true := by
    intro a ha
    obtain ⟨ha, hliteral⟩ := List.mem_filter.mp ha
    rcases h a ha with h | h
    · simp [h] at hliteral
    · exact h
  have hsum : ∀ terms, e.cofactors ≠ [.sum terms] := by
    intro terms hterms
    have hterms := hatom (.sum terms) (by simp [hterms])
    cases hterms
  rw [form_of_cofactors_ne hsum]
  intro q hq
  exact ⟨e.cofactors, hatom, (Finset.mem_singleton.mp (Finsupp.support_single_subset hq)).symm⟩

theorem SumOfMonomials.atomicForm {e : Expr} (h : SumOfMonomials e) : AtomicForm e.form := by
  induction h with
  | monomial h => exact h.atomicForm
  | sum _ ih =>
      rw [form_sum]
      exact AtomicForm.sum ih
  | multiple hmultiple _ ih =>
      rw [form_of_cofactors_eq hmultiple]
      rw [form_sum] at ih
      exact ih.smul _

/-- The coefficient of a product of atoms in the form is that of the monomial. -/
theorem AtomicForm.coeff_eq {p : Class →₀ Int} (h : AtomicForm p) {as : List Expr}
    (has : ∀ a ∈ as, a.isAtom = true) :
    coeff (exponents as) (Finsupp.linearCombination Int polynomials.ofClass p) =
      p (powerProduct as).toClass := by
  classical
  have hterm : ∀ q ∈ p.support, coeff (exponents as) (p q • polynomials.ofClass q) =
      if q = (powerProduct as).toClass then p q else 0 := by
    intro q hq
    obtain ⟨bs, hbs, rfl⟩ := h q hq
    rw [MvPolynomial.coeff_smul]
    show p _ • coeff (exponents as) (powerProduct bs).polynomial = _
    rw [polynomial_powerProduct hbs, MvPolynomial.coeff_monomial]
    simp [toClass_powerProduct_eq_iff hbs has]
  rw [Finsupp.linearCombination_apply, Finsupp.sum, MvPolynomial.coeff_sum,
    Finset.sum_congr rfl hterm, Finset.sum_ite_eq']
  split
  · rfl
  · next hq => exact (Finsupp.notMem_support_iff.mp hq).symm

theorem AtomicForm.ext {p p' : Class →₀ Int} (h : AtomicForm p) (h' : AtomicForm p')
    (heq : Finsupp.linearCombination Int polynomials.ofClass p =
      Finsupp.linearCombination Int polynomials.ofClass p') : p = p' := by
  ext q
  by_cases hq : q ∈ p.support ∨ q ∈ p'.support
  · obtain ⟨as, has, rfl⟩ := hq.elim (h q) (h' q)
    rw [← h.coeff_eq has, ← h'.coeff_eq has, heq]
  · obtain ⟨hp, hp'⟩ := not_or.mp hq
    rw [Finsupp.notMem_support_iff.mp hp, Finsupp.notMem_support_iff.mp hp']

/-! ### Normal forms -/

theorem sum_polynomial_eq (es : List Expr) :
    (es.map polynomial).sum =
      Finsupp.linearCombination Int polynomials.ofClass (es.map form).sum := by
  rw [map_list_sum, List.map_map]
  exact congrArg List.sum (List.map_congr_left fun e _ => polynomials.value_eq_linearCombination e)

theorem same_sumOf_of_polynomial_eq {as bs : List Expr} (has : ∀ a ∈ as, SumOfMonomials a)
    (hbs : ∀ b ∈ bs, SumOfMonomials b) (haint : AllInt (sumOfTrace as))
    (hbint : AllInt (sumOfTrace bs))
    (h : (as.map polynomial).sum = (bs.map polynomial).sum) :
    (sumOf as).same (sumOf bs) = true := by
  rw [sum_polynomial_eq, sum_polynomial_eq] at h
  refine (same_sumOf_iff haint hbint).mpr (AtomicForm.ext ?_ ?_ h)
  · exact AtomicForm.sum fun a ha => (has a ha).atomicForm
  · exact AtomicForm.sum fun b hb => (hbs b hb).atomicForm

theorem polynomial_eq_of_same_sumOf {as bs : List Expr} (haint : AllInt (sumOfTrace as))
    (hbint : AllInt (sumOfTrace bs)) (h : (sumOf as).same (sumOf bs) = true) :
    (as.map polynomial).sum = (bs.map polynomial).sum := by
  rw [sum_polynomial_eq, sum_polynomial_eq, (same_sumOf_iff haint hbint).mp h]

/-- As long as no operation on integers overflows, the canonical sums of two sums of monomials are
equal exactly if these are the same polynomial in their atoms, however they are written. Floats can
stand inside of atoms only: an operation with a float never returns an integer. -/
theorem sumOf_eq_iff_polynomial_eq {a b : Expr} (ha : SumOfMonomials a) (hb : SumOfMonomials b)
    (haint : AllInt (sumOfTrace [a])) (hbint : AllInt (sumOfTrace [b])) :
    (sumOf [a] == sumOf [b]) = true ↔ a.polynomial = b.polynomial := by
  have hsum (e : Expr) : ([e].map polynomial).sum = e.polynomial := List.sum_singleton
  rw [← hsum a, ← hsum b]
  constructor
  · exact polynomial_eq_of_same_sumOf haint hbint
  · exact same_sumOf_of_polynomial_eq (by simpa using ha) (by simpa using hb) haint hbint

/-- The sum `2*(x + 3) + (3*(h*x) + -2*(x*h))` as it is written. -/
def grouped : Expr :=
  .sum [.prod [.int 2, .sum [.dim (.root "x" .space), .int 3]],
    .sum [.prod [.int 3, .prod [.sym ⟨"h"⟩, .dim (.root "x" .space)]],
      .prod [.prod [.int (-2), .dim (.root "x" .space)], .sym ⟨"h"⟩]]]

/-- The sum `x + (6 + h*x) + x` as it is written. -/
def regrouped : Expr :=
  .sum [.dim (.root "x" .space),
    .sum [.int 6, .prod [.sym ⟨"h"⟩, .dim (.root "x" .space)]], .dim (.root "x" .space)]

theorem sumOf_eq_iff_polynomial_eq_grouped :
    (sumOf [grouped] == sumOf [regrouped]) = true ∧ grouped.polynomial = regrouped.polynomial := by
  have hmonomial {e : Expr} (h : ∀ f ∈ e.factors, f.isLiteral = true ∨ f.isAtom = true) :
      SumOfMonomials e := .monomial h
  have hshifted : SumOfMonomials (.sum [.dim (.root "x" .space), .int 3]) := by
    refine .sum (List.forall_mem_cons.mpr ⟨hmonomial (by decide), ?_⟩)
    exact List.forall_mem_singleton.mpr (hmonomial (by decide))
  have hgrouped : SumOfMonomials grouped := by
    refine .sum (List.forall_mem_cons.mpr ⟨.multiple rfl hshifted, ?_⟩)
    refine List.forall_mem_singleton.mpr (.sum (List.forall_mem_cons.mpr ⟨?_, ?_⟩))
    · exact hmonomial (by decide)
    · exact List.forall_mem_singleton.mpr (hmonomial (by decide))
  have hregrouped : SumOfMonomials regrouped := by
    refine .sum (List.forall_mem_cons.mpr ⟨hmonomial (by decide), ?_⟩)
    refine List.forall_mem_cons.mpr ⟨?_, ?_⟩
    · refine .sum (List.forall_mem_cons.mpr ⟨hmonomial (by decide), ?_⟩)
      exact List.forall_mem_singleton.mpr (hmonomial (by decide))
    · exact List.forall_mem_singleton.mpr (hmonomial (by decide))
  have hiff := sumOf_eq_iff_polynomial_eq hgrouped hregrouped
    (show ∀ n ∈ sumOfTrace [grouped], n.isInt = true by decide)
    (show ∀ n ∈ sumOfTrace [regrouped], n.isInt = true by decide)
  have hsame : (sumOf [grouped] == sumOf [regrouped]) = true := by decide
  exact ⟨hsame, hiff.mp hsame⟩

end Expr

end GridAccess
