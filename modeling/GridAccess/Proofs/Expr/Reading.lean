import GridAccess.Proofs.Expr.Monomial
import Mathlib.Algebra.BigOperators.Group.List.Lemmas
import Mathlib.Algebra.BigOperators.Ring.List
import Mathlib.Algebra.Module.BigOperators
import Mathlib.Data.Int.Cast.Lemmas
import Mathlib.Tactic.Abel

/-!
Readings of expressions in an abelian group. Folding preserves what expressions denote as long as it
computes integers only. The lemmas follow the layers of folding: products, sums under construction,
and one layer of sums after the other.
-/

namespace GridAccess

/-! ### Integers only -/

namespace Collected

theorem allInt_foldl_plus {c : Collected} {es : List Expr} (hc : AllInt c.literals)
    (h : AllInt (c.trace es)) : AllInt (es.foldl plus c).literals := by
  induction es generalizing c with
  | nil => exact hc
  | cons e es ih =>
      obtain ⟨hhead, htail⟩ := allInt_append.mp h
      exact ih hhead htail

theorem allInt_ofTerms {es : List Expr} (h : AllInt ((mk (.int 0) []).trace es)) :
    AllInt (ofTerms es).literals :=
  allInt_foldl_plus (by simp [AllInt, literals]) h

end Collected

/-! ### Readings -/

/-- What expressions denote in an abelian group. A sum denotes the sum of its terms, a product the
multiple of its canonical product without literals, and equal expressions denote the same. -/
structure Reading (M : Type) [AddCommGroup M] where
  value : Expr → M
  value_sum : ∀ terms, value (.sum terms) = (terms.map value).sum
  value_product : ∀ e, value e = e.coefficient • value (Expr.powerProduct e.cofactors)
  value_congr : ∀ {a b : Expr}, a.same b = true → value a = value b

namespace Reading

attribute [simp] value_sum

variable {M : Type} [AddCommGroup M] {r : Reading M}

/-! ### Products -/

theorem value_lit (n : Literal) : r.value (.lit n) = n.toInt • r.value (.int 1) := by
  rw [r.value_product, Expr.coefficient_lit, Expr.cofactors_lit]
  rfl

@[simp] theorem value_zero : r.value (.int 0) = 0 := (value_lit (.int 0)).trans (zero_zsmul _)

theorem value_eq_of_cofactors_eq {a b : Expr} {k : Int} (hcofactors : a.cofactors = b.cofactors)
    (hcoefficient : a.coefficient = k * b.coefficient) : r.value a = k • r.value b := by
  rw [r.value_product a, r.value_product b, hcofactors, hcoefficient, mul_zsmul]

theorem value_scale (n : Literal) (e : Expr) :
    r.value (.prod [.lit n, e]) = n.toInt • r.value e :=
  value_eq_of_cofactors_eq (by simp) (by simp)

theorem value_splitCoefficient (e : Expr) :
    r.value e = e.splitCoefficient.1.toInt • r.value e.splitCoefficient.2 := by
  refine value_eq_of_cofactors_eq e.cofactors_splitCoefficient.symm ?_
  unfold Expr.splitCoefficient
  split <;> simp

theorem value_powerProduct_of_perm {as bs : List Expr} (h : as.Perm bs) :
    r.value (Expr.powerProduct as) = r.value (Expr.powerProduct bs) :=
  r.value_congr (Expr.same_powerProduct (h.map _))

theorem value_monomial {m : Monomial} (hint : m.coefficient.isInt = true)
    (hfactor : ∀ a ∈ m.factors, a.isFactor = true) :
    r.value m.toExpr = m.coefficient.toInt • r.value (Expr.powerProduct m.factors) := by
  obtain ⟨c, as⟩ := m
  have hsorted := Expr.isFactor_of_mem_sort hfactor
  unfold Monomial.toExpr
  split
  · next hzero => rw [Literal.toInt_of_isZero hzero, zero_zsmul, value_zero]
  · split
    · next hone =>
        have hc : c = .int 1 :=
          Literal.eq_of_toInt_eq hint rfl (Literal.toInt_of_isOne hint hone)
        subst hc
        exact (one_zsmul _).symm
    · match as with
      | [] => exact value_lit c
      | a :: as =>
          rw [value_eq_of_cofactors_eq (k := c.toInt) (a := .prod (.lit c :: _))
            (b := .prod (Ascending.sort (a :: as))) (by simp) (by simp)]
          rw [r.value_product (.prod (Ascending.sort (a :: as))),
            Expr.cofactors_prod_of_isFactor hsorted,
            Expr.coefficient_prod_of_isFactor hsorted, one_zsmul,
            value_powerProduct_of_perm (Ascending.sort_perm _)]

theorem value_ofFactors {fs : List Expr} (h : AllInt (Monomial.factorsTrace fs)) :
    r.value (Monomial.ofFactors fs).toExpr = r.value (.prod fs) := by
  rw [value_monomial (Monomial.isInt_ofFactors h) Expr.isFactor_of_mem_ofFactors,
    Monomial.toInt_ofFactors h, Expr.factors_ofFactors,
    value_powerProduct_of_perm (List.reverse_perm _), ← r.value_product]

/-- The coefficient that is spread over the terms of a sum. -/
theorem value_of_spread? {fs terms : List Expr} (h : AllInt (Monomial.factorsTrace fs))
    (hspread : (Monomial.ofFactors fs).spread? = some terms) :
    r.value (.prod fs) =
      (terms.map fun e => (Monomial.ofFactors fs).coefficient.toInt • r.value e).sum := by
  have hfactors := (Monomial.spread?_eq_some_iff.mp hspread).2
  rw [r.value_product, Expr.ofFactors_eq_iff.mp hfactors, ← Monomial.toInt_ofFactors h]
  show _ • r.value (.sum terms) = _
  rw [value_sum, List.smul_sum, List.map_map]
  rfl

/-! ### Sums -/

theorem sum_value_sort (es : List Expr) :
    ((Ascending.sort es).map r.value).sum = (es.map r.value).sum :=
  ((Ascending.sort_perm es).map _).sum_eq

def table (r : Reading M) (coefficients : List (Expr × Literal)) : M :=
  (coefficients.map fun entry => entry.2.toInt • r.value entry.1).sum

def collected (r : Reading M) (c : Collected) : M :=
  c.constant.toInt • r.value (.int 1) + r.table c.coefficients

@[simp] theorem table_nil : r.table [] = 0 := rfl

@[simp] theorem table_cons (entry : Expr × Literal) (coefficients : List (Expr × Literal)) :
    r.table (entry :: coefficients) = entry.2.toInt • r.value entry.1 + r.table coefficients :=
  rfl

theorem table_filter (coefficients : List (Expr × Literal)) :
    r.table (coefficients.filter fun entry => !entry.2.isZero) = r.table coefficients := by
  induction coefficients with
  | nil => rfl
  | cons entry coefficients ih =>
      by_cases hzero : entry.2.isZero = true
      · rw [List.filter_cons_of_neg (by simp [hzero]), ih, table_cons,
          Literal.toInt_of_isZero hzero, zero_zsmul, zero_add]
      · rw [List.filter_cons_of_pos (by simp [hzero]), table_cons, table_cons, ih]

/-- Adding to the coefficient of `a` adds a multiple of what `a` denotes, whether the coefficient
is a new one or stands at another expression that is equal to `a`. -/
theorem table_adjust {a : Expr} {k : Literal} {coefficients : List (Expr × Literal)}
    (h : AllInt ((Ascending.adjust a (.int 0) (·.add k) coefficients).map Prod.snd)) :
    r.table (Ascending.adjust a (.int 0) (·.add k) coefficients) =
      r.table coefficients + k.toInt • r.value a := by
  have hnew (h : ((Literal.int 0).add k).isInt = true) :
      ((Literal.int 0).add k).toInt = k.toInt := by
    obtain ⟨-, -, hexact⟩ := Literal.add_exact h
    simp [hexact]
  induction coefficients with
  | nil =>
      have hint := h _ List.mem_cons_self
      simp [Ascending.adjust, hnew hint]
  | cons entry coefficients ih =>
      obtain ⟨b, v⟩ := entry
      cases hcmp : compare a b with
      | lt =>
          simp only [Ascending.adjust, hcmp] at h ⊢
          have hint := h _ List.mem_cons_self
          simp only [table_cons, hnew hint]
          abel
      | eq =>
          -- The entry may stand at another expression, which denotes the same.
          simp only [Ascending.adjust, hcmp] at h ⊢
          obtain ⟨-, -, hexact⟩ := Literal.add_exact (h _ List.mem_cons_self)
          have hvalue : r.value a = r.value b := r.value_congr (Expr.same_of_compare_eq hcmp)
          simp only [table_cons, hexact, hvalue, add_zsmul]
          abel
      | gt =>
          simp only [Ascending.adjust, hcmp] at h ⊢
          have htail := ih fun n hn => h n (List.mem_cons_of_mem _ hn)
          simp only [table_cons, htail, add_assoc]

theorem collected_plus {c : Collected} {e : Expr} (h : AllInt (c.plus e).literals) :
    r.collected (c.plus e) = r.collected c + r.value e := by
  cases he : e.literal? with
  | some n =>
      obtain rfl := Expr.eq_lit_of_literal? he
      obtain ⟨-, -, hexact⟩ := Literal.add_exact (h _ List.mem_cons_self)
      simp only [collected, Collected.plus, hexact, value_lit n, add_zsmul]
      abel
  | none =>
      rw [Collected.plus_of_literal?_eq_none c he] at h ⊢
      have htable := table_adjust (r := r) fun n hn => h n (List.mem_cons_of_mem _ hn)
      simp only [collected, htable, ← value_splitCoefficient, add_assoc]

theorem collected_foldl_plus {c : Collected} {es : List Expr} (h : AllInt (c.trace es)) :
    r.collected (es.foldl Collected.plus c) = r.collected c + (es.map r.value).sum := by
  induction es generalizing c with
  | nil => simp
  | cons e es ih =>
      obtain ⟨hhead, htail⟩ := allInt_append.mp h
      rw [List.foldl_cons, ih htail, collected_plus hhead, List.map_cons, List.sum_cons,
        add_assoc]

theorem collected_ofTerms {es : List Expr} (h : AllInt ((Collected.mk (.int 0) []).trace es)) :
    r.collected (.ofTerms es) = (es.map r.value).sum := by
  rw [Collected.ofTerms, collected_foldl_plus h]
  simp [collected]

theorem value_scaled {rest : Expr} {n : Literal} (hn : n.isInt = true)
    (h : AllInt (Collected.scaledTrace rest n)) :
    r.value (Collected.scaled rest n) = n.toInt • r.value rest := by
  unfold Collected.scaled
  unfold Collected.scaledTrace at h
  split
  · next hone => rw [Literal.toInt_of_isOne hn hone, one_zsmul]
  · next hone =>
      rw [if_neg hone] at h
      rw [value_ofFactors h, value_scale]

theorem sum_value_scaled {coefficients : List (Expr × Literal)}
    (hint : AllInt (coefficients.map Prod.snd))
    (h : AllInt (coefficients.flatMap fun entry => Collected.scaledTrace entry.1 entry.2)) :
    ((coefficients.map fun entry => Collected.scaled entry.1 entry.2).map r.value).sum =
      r.table coefficients := by
  induction coefficients with
  | nil => rfl
  | cons entry coefficients ih =>
      obtain ⟨hhead, htail⟩ := List.forall_mem_cons.mp hint
      rw [List.flatMap_cons, allInt_append] at h
      rw [List.map_cons, List.map_cons, List.sum_cons, table_cons, value_scaled hhead h.1,
        ih htail h.2]

theorem sum_value_terms {c : Collected} (hc : AllInt c.literals) (h : AllInt c.termsTrace) :
    (c.terms.map r.value).sum = r.collected c := by
  have hint : AllInt ((c.coefficients.filter fun entry => !entry.2.isZero).map Prod.snd) := by
    intro n hn
    exact hc n (List.mem_cons_of_mem _ ((List.filter_sublist.map _).subset hn))
  have hconstant : ((if c.constant.isZero then [] else [Expr.lit c.constant]).map
      r.value).sum = c.constant.toInt • r.value (.int 1) := by
    split
    · next hzero => simp [Literal.toInt_of_isZero hzero]
    · simp [value_lit c.constant]
  rw [Collected.terms, List.map_append, List.sum_append, hconstant, sum_value_scaled hint h,
    table_filter, collected, add_comm]

theorem value_collected {c : Collected} (hc : AllInt c.literals) (h : AllInt c.termsTrace) :
    r.value c.toExpr = r.collected c := by
  rw [← sum_value_terms hc h]
  unfold Collected.toExpr
  split <;> simp_all [sum_value_sort]

end Reading

/-! ### Layers of sums -/

/-- The functions of a folding preserve what expressions denote where the trace holds integers
only. -/
structure Folding.Preserves {M : Type} [AddCommGroup M] (r : Reading M) (f : Folding)
    (t : FoldingTrace) : Prop where
  product : ∀ {fs : List Expr}, AllInt (t.product fs) → r.value (f.product fs) = r.value (.prod fs)
  terms : ∀ {e : Expr}, AllInt (t.terms e) → ((f.terms e).map r.value).sum = r.value e

namespace Folding

variable {M : Type} [AddCommGroup M] {r : Reading M}

theorem value_summand {product : List Expr → Expr} {trace : List Expr → List Literal}
    (hproduct : ∀ {fs : List Expr}, AllInt (trace fs) → r.value (product fs) = r.value (.prod fs))
    {e : Expr} (h : AllInt (FoldingTrace.summand trace e)) :
    r.value (summand product e) = r.value e := by
  cases e with
  | prod fs => exact hproduct h
  | _ => rfl

namespace Preserves

variable {f : Folding} {t : FoldingTrace}

theorem sum_flatMap_terms (hf : f.Preserves r t) {es : List Expr}
    (h : AllInt (es.flatMap t.terms)) :
    ((es.flatMap f.terms).map r.value).sum = (es.map r.value).sum := by
  induction es with
  | nil => rfl
  | cons e es ih =>
      rw [List.flatMap_cons, allInt_append] at h
      rw [List.flatMap_cons, List.map_append, List.sum_append, hf.terms h.1, ih h.2,
        List.map_cons, List.sum_cons]

theorem sum (hf : f.Preserves r t) {es : List Expr} (h : AllInt (t.sum f es)) :
    r.value (f.sum es) = (es.map r.value).sum := by
  unfold FoldingTrace.sum at h
  simp only [allInt_append] at h
  obtain ⟨⟨hterms, hcollected⟩, hscaled⟩ := h
  rw [Folding.sum, Reading.value_collected (Collected.allInt_ofTerms hcollected) hscaled,
    Reading.collected_ofTerms hcollected, hf.sum_flatMap_terms hterms]
  simp [List.sum_reverse]

theorem flat : Folding.flat.Preserves r FoldingTrace.flat where
  product := Reading.value_ofFactors
  terms {e} h := by simpa [Folding.flat] using value_summand Reading.value_ofFactors h

theorem next (hf : f.Preserves r t) : f.next.Preserves r (t.next f) := by
  have hproduct {fs : List Expr} (h : AllInt ((t.next f).product fs)) :
      r.value (f.next.product fs) = r.value (.prod fs) := by
    simp only [FoldingTrace.next, allInt_append] at h
    obtain ⟨hfactors, hspread⟩ := h
    simp only [Folding.next]
    cases hm : (Monomial.ofFactors fs).spread? with
    | none => exact Reading.value_ofFactors hfactors
    | some terms =>
        simp only [hm, allInt_append] at hspread
        rw [hf.sum hspread.2, Reading.value_of_spread? hfactors hm, List.map_map]
        refine congrArg List.sum (List.map_congr_left fun e he => ?_)
        have hterm := hf.product fun n hn => hspread.1 n (List.mem_flatMap.mpr ⟨e, he, hn⟩)
        exact hterm.trans (Reading.value_scale _ e)
  refine ⟨hproduct, ?_⟩
  intro e h
  simp only [FoldingTrace.next, allInt_append] at h
  obtain ⟨hsummand, hinner⟩ := h
  rw [← value_summand hproduct hsummand]
  simp only [Folding.next] at hinner ⊢
  split
  · next terms hsum =>
      rw [hsum] at hinner ⊢
      rw [hf.sum_flatMap_terms hinner]
      simp [List.sum_reverse]
  · simp

theorem ofDepth (depth : Nat) :
    (Folding.ofDepth depth).Preserves r (FoldingTrace.ofDepth depth) := by
  induction depth with
  | zero => exact flat
  | succ depth ih => exact ih.next

end Preserves

end Folding

namespace Reading

variable {M : Type} [AddCommGroup M] (r : Reading M)

theorem value_sumOf {terms : List Expr} (h : AllInt (Expr.sumOfTrace terms)) :
    r.value (Expr.sumOf terms) = (terms.map r.value).sum :=
  (Folding.Preserves.ofDepth _).sum h

theorem value_productOf {factors : List Expr} (h : AllInt (Expr.productOfTrace factors)) :
    r.value (Expr.productOf factors) = r.value (.prod factors) :=
  (Folding.Preserves.ofDepth _).product h

end Reading

/-! ### Readings in a ring -/

section

variable {R : Type} [CommRing R] {value : Expr → R} (value_lit : ∀ n, value (.lit n) = n.toInt)
  (value_prod : ∀ factors, value (.prod factors) = (factors.map value).prod)
include value_lit value_prod

theorem Expr.value_eq_prod_cofactors (e : Expr) :
    value e = e.coefficient * (e.cofactors.map value).prod := by
  induction e with
  | lit n => simp [value_lit]
  | prod fs ih =>
      rw [value_prod, List.map_congr_left ih]
      simp [List.prod_map_mul, List.flatMap_def, List.map_flatten, List.prod_flatten,
        Function.comp_def, Int.cast_list_prod]
  | _ =>
      rw [coefficient_of_isFactor rfl, cofactors_of_isFactor rfl]
      simp

theorem Expr.value_powerProduct (as : List Expr) :
    value (powerProduct as) = (as.map value).prod := by
  match as with
  | [] => exact (value_lit (.int 1)).trans (by simp)
  | [a] => simp [powerProduct_singleton]
  | a :: b :: as =>
      rw [powerProduct_cons_cons, value_prod]
      exact ((Ascending.sort_perm _).map _).prod_eq

end

/-- In a ring a product may denote the product of its factors. -/
def Reading.ofRing {R : Type} [CommRing R] (value : Expr → R)
    (value_lit : ∀ n, value (.lit n) = n.toInt)
    (value_sum : ∀ terms, value (.sum terms) = (terms.map value).sum)
    (value_prod : ∀ factors, value (.prod factors) = (factors.map value).prod)
    (value_congr : ∀ {a b : Expr}, a.same b = true → value a = value b) : Reading R where
  value := value
  value_sum := value_sum
  value_product e := by
    rw [zsmul_eq_mul, Expr.value_powerProduct value_lit value_prod,
      ← Expr.value_eq_prod_cofactors value_lit value_prod]
  value_congr := value_congr

end GridAccess
