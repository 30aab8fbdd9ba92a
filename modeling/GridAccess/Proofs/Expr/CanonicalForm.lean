import GridAccess.Proofs.Expr.CanonicalNodes

/-!
What folding builds is canonical, however its operands are written: a sum has no terms that are
alike, a product has its constant in front, and both are built again from themselves. A sum is a
collected table, whose entries are multiples of different keys. A product that is multiplied out is
an integer, a sum, or a constant times factors that are not just one sum.
-/

namespace GridAccess

/-! ### Terms of a collected sum -/

namespace Collected

open GridAccess.Expr (Tidy Regular classes)

variable {c : Collected}

/-- The terms besides the constant. -/
def nonconstant (c : Collected) : List Expr := c.remaining.map fun entry => scaled entry.1 entry.2

theorem terms_eq (c : Collected) :
    c.terms = c.nonconstant ++ if c.constant.isZero then [] else [.lit c.constant] := rfl

theorem terms_of_isZero (h : c.constant.isZero = true) : c.terms = c.nonconstant := by
  rw [terms_eq, if_pos h, List.append_nil]

theorem terms_of_not_isZero (h : c.constant.isZero = false) :
    c.terms = c.nonconstant ++ [.lit c.constant] := by
  simp [terms_eq, h]

/-- A multiple of a key is a product of the factors of the key. -/
theorem exists_proper_scaled {k : Expr} (hk : k.IsKey) {n : Literal} (hint : n.isInt = true)
    (hzero : n.isZero = false) :
    ∃ m : Monomial, m.Proper ∧ m.toExpr = scaled k n ∧
      (Expr.powerProduct m.factors).toClass = k.toClass := by
  obtain ⟨as, hne, has, hsum, rfl⟩ := hk
  have hproper : (Monomial.mk n as).Proper := ⟨hint, hzero, hne, has, hsum⟩
  obtain ⟨m, hscaled, hcoefficient, hfactors⟩ := hproper.exists_scaled
  refine ⟨m, hproper.of_perm hcoefficient hfactors, hscaled, ?_⟩
  exact Expr.toClass_eq_iff.mpr (Expr.same_powerProduct (hfactors.map _))

theorem exists_proper_of_mem_remaining (htidy : Tidy c.coefficients) (hint : AllInt c.literals)
    {entry : Expr × Literal} (hentry : entry ∈ c.remaining) :
    ∃ m : Monomial, m.Proper ∧ m.toExpr = scaled entry.1 entry.2 ∧
      (Expr.powerProduct m.factors).toClass = entry.1.toClass := by
  obtain ⟨hisInt, hzero⟩ := reduced_remaining hint entry hentry
  exact exists_proper_scaled (htidy.keys entry (List.mem_of_mem_filter hentry)) hisInt hzero

theorem mem_terms_cases {t : Expr} (ht : t ∈ c.terms) :
    (∃ entry ∈ c.remaining, t = scaled entry.1 entry.2) ∨
      t = .lit c.constant ∧ c.constant.isZero = false := by
  rcases List.mem_append.mp ht with ht | ht
  · obtain ⟨entry, hentry, rfl⟩ := List.mem_map.mp ht
    exact .inl ⟨entry, hentry, rfl⟩
  · split at ht
    · cases ht
    · next hzero => exact .inr ⟨List.mem_singleton.mp ht, by simpa using hzero⟩

theorem term_cases (htidy : Tidy c.coefficients) (hint : AllInt c.literals) {t : Expr}
    (ht : t ∈ c.terms) :
    (∃ n : Int64, n ≠ 0 ∧ t = .int n) ∨ ∃ m : Monomial, m.Proper ∧ m.toExpr = t := by
  rcases mem_terms_cases ht with ⟨entry, hentry, rfl⟩ | ⟨rfl, hzero⟩
  · obtain ⟨m, hproper, hm, -⟩ := exists_proper_of_mem_remaining htidy hint hentry
    exact .inr ⟨m, hproper, hm⟩
  · obtain ⟨n, hn⟩ := Literal.exists_of_isInt (hint c.constant List.mem_cons_self)
    exact .inl ⟨n, by simpa [hn, Literal.isZero] using hzero, congrArg Expr.lit hn⟩

/-- The terms of a sum as it is built are not alike. -/
theorem regular_terms (htidy : Tidy c.coefficients) (hint : AllInt c.literals) :
    Regular c.terms where
  shape t ht := by
    rcases term_cases htidy hint ht with ⟨n, -, rfl⟩ | ⟨m, hproper, rfl⟩
    · exact .inl ⟨n, rfl⟩
    · exact .inr hproper.term
  literals := by
    have hnone : c.nonconstant.filter Expr.isLiteral = [] := by
      refine List.filter_eq_nil_iff.mpr fun t ht => ?_
      obtain ⟨entry, hentry, rfl⟩ := List.mem_map.mp ht
      obtain ⟨m, hproper, hm, -⟩ := exists_proper_of_mem_remaining htidy hint hentry
      simp [← hm, hproper.term.isLiteral]
    rw [terms_eq, List.filter_append, hnone, List.nil_append]
    refine (List.length_filter_le _ _).trans ?_
    split <;> simp
  keys := Expr.nodup_keys_terms htidy

/-- What the terms multiply differs, the constant included. -/
theorem nodup_classes_terms (htidy : Tidy c.coefficients) (hint : AllInt c.literals) :
    (c.terms.map fun t => t.splitCoefficient.2.toClass).Nodup := by
  have hterms : c.nonconstant.map (fun t => t.splitCoefficient.2.toClass) =
      c.remaining.map fun entry => entry.1.toClass := by
    rw [nonconstant, List.map_map]
    refine List.map_congr_left fun entry hentry => ?_
    obtain ⟨m, hproper, hm, hclass⟩ := exists_proper_of_mem_remaining htidy hint hentry
    show (scaled entry.1 entry.2).splitCoefficient.2.toClass = _
    rw [← hm, hproper.splitCoefficient_toExpr, hclass]
  have hkeys : (c.remaining.map fun entry => entry.1.toClass).Nodup := by
    have hstrict := (htidy.sublist (List.filter_sublist (p := fun entry => !entry.2.isZero))).strict
    simpa [classes, Function.comp_def, remaining] using hstrict.nodup
  rw [terms_eq, List.map_append, hterms]
  split
  · simpa using hkeys
  · refine List.nodup_append.mpr ⟨hkeys, List.nodup_singleton _, ?_⟩
    intro q hq q' hq' heq
    obtain ⟨entry, hentry, rfl⟩ := List.mem_map.mp hq
    obtain rfl := List.mem_singleton.mp hq'
    -- A key has factors, a literal has none.
    have halike := Expr.alike_cofactors (Expr.toClass_eq_iff.mp heq)
    exact (htidy.keys entry (List.mem_of_mem_filter hentry)).cofactors_ne_nil
      (List.forall₂_nil_right_iff.mp halike)

end Collected

/-! ### Canonical sums and products -/

namespace Expr

/-- The terms of a sum as it is built: in strictly ascending order, with at most one constant, which
is not zero, and no two alike. -/
structure CanonicalTerms (ts : List Expr) : Prop where
  two_le : 2 ≤ ts.length
  ascending : Ascending.Strict ts
  not_sum : ∀ t ∈ ts, ∀ us, t ≠ .sum us
  literals : (ts.filter isLiteral).length ≤ 1
  nonzero : ∀ n, .lit n ∈ ts → n.isZero = false
  unlike : ts.Pairwise fun a b => (a.splitCoefficient.2 == b.splitCoefficient.2) = false
  products : ∀ fs, .prod fs ∈ ts → (productOf [.prod fs] == .prod fs) = true

/-- The factors of a product as it is built: a constant other than 0 and 1 comes first, if there is
one, and the others follow in ascending order. -/
structure CanonicalFactors (fs : List Expr) : Prop where
  two_le : 2 ≤ fs.length
  not_prod : ∀ f ∈ fs, ∀ gs, f ≠ .prod gs
  literal_first : ∀ f ∈ fs.tail, f.isLiteral = false
  nontrivial : ∀ n, .lit n ∈ fs → n.isZero = false ∧ n.isOne = false
  ascending : (fs.filter fun f => !f.isLiteral).Pairwise fun a b => (compare a b).isLE = true
  not_scaled_sum : ∀ n terms, fs ≠ [.lit n, .sum terms]

end Expr

namespace Collected

open GridAccess.Expr (Tidy Regular CanonicalTerms)

variable {c : Collected}

theorem toExpr_cases (c : Collected) :
    c.toExpr = .int 0 ∨ (∃ t, c.terms = [t] ∧ c.toExpr = t) ∨
      2 ≤ c.terms.length ∧ c.toExpr = .sum (Ascending.sort c.terms) := by
  unfold toExpr
  match c.terms with
  | [] => exact .inl rfl
  | [t] => exact .inr (.inl ⟨t, rfl, rfl⟩)
  | _ :: _ :: _ => exact .inr (.inr ⟨by simp, rfl⟩)

theorem toExpr_of_two_le (h : 2 ≤ c.terms.length) : c.toExpr = .sum (Ascending.sort c.terms) := by
  unfold toExpr
  match c.terms, h with
  | _ :: _ :: _, _ => rfl

theorem ne_sum_of_mem_terms (htidy : Tidy c.coefficients) {t : Expr} (ht : t ∈ c.terms)
    (us : List Expr) : t ≠ .sum us :=
  Expr.ne_sum_of_cofactors_ne (Expr.Flat.cofactors_ne_sum (flat_of_mem_terms htidy t ht)) us

theorem canonicalTerms_sort (htidy : Tidy c.coefficients) (hint : AllInt c.literals)
    (hlength : 2 ≤ c.terms.length) : CanonicalTerms (Ascending.sort c.terms) := by
  have hperm := Ascending.sort_perm c.terms
  have hclasses := (hperm.map _).nodup_iff.mpr (nodup_classes_terms htidy hint)
  have hunlike := List.pairwise_map.mp hclasses
  constructor
  case two_le => rwa [Ascending.length_sort]
  case ascending =>
    -- Of equal terms the parts would be equal.
    refine (Ascending.sorted_sort c.terms).imp₂ (fun a b hle hne => ?_) hunlike
    cases hcmp : compare a b with
    | lt => rfl
    | eq =>
        obtain ⟨-, hsplit⟩ := Expr.splitCoefficient_congr (Expr.same_of_compare_eq hcmp)
        exact (hne (Expr.toClass_eq_iff.mpr hsplit)).elim
    | gt => simp [hcmp] at hle
  case not_sum => exact fun t ht => ne_sum_of_mem_terms htidy (hperm.mem_iff.mp ht)
  case literals => exact ((regular_terms htidy hint).of_perm hperm).literals
  case nonzero =>
    intro n hn
    rcases term_cases htidy hint (hperm.mem_iff.mp hn) with ⟨k, hk, heq⟩ | ⟨m, hproper, hm⟩
    · obtain rfl := Expr.lit.inj heq
      simpa [Literal.isZero] using hk
    · have hliteral := hproper.term.isLiteral
      rw [hm] at hliteral
      cases hliteral
  case unlike =>
    refine hunlike.imp fun {a b} hne => ?_
    rw [Bool.eq_false_iff]
    exact fun h => hne (Expr.toClass_eq_iff.mpr h)
  case products =>
    intro fs hfs
    rcases term_cases htidy hint (hperm.mem_iff.mp hfs) with ⟨k, -, heq⟩ | ⟨m, hproper, hm⟩
    · cases heq
    · exact hm ▸ hproper.same_productOf

theorem regular_summands_toExpr (htidy : Tidy c.coefficients) (hint : AllInt c.literals) :
    Regular c.toExpr.summands := by
  have hregular := regular_terms htidy hint
  rcases c.toExpr_cases with heq | ⟨t, hterms, heq⟩ | ⟨-, heq⟩
  · rw [heq]
    refine ⟨?_, by decide, List.nodup_nil⟩
    intro t ht
    exact .inl ⟨0, List.mem_singleton.mp ht⟩
  · have hsum := ne_sum_of_mem_terms htidy (t := t) (by simp [hterms])
    have hsummands : t.summands = [t] := by
      cases t with
      | sum us => exact (hsum us rfl).elim
      | _ => rfl
    rwa [heq, hsummands, ← hterms]
  · rw [heq]
    exact hregular.of_perm (Ascending.sort_perm _)

end Collected

namespace Expr

theorem sumOf_canonical {terms : List Expr} (h : AllInt (sumOfTrace terms)) :
    (sumOf [sumOf terms] == sumOf terms) = true ∧
      ∀ ts, sumOf terms = .sum ts → CanonicalTerms ts := by
  obtain ⟨c, hc, htidy, hint, -⟩ := exists_collected h
  constructor
  · have hregular : Regular (sumOf terms).summands :=
      hc ▸ Collected.regular_summands_toExpr htidy hint
    refine (same_sumOf_iff hregular.allInt_sumOfTrace_singleton h).mpr ?_
    rw [List.map_singleton, List.sum_singleton]
    exact forms.value_sumOf h
  · intro ts hts
    rcases c.toExpr_cases with heq | ⟨t, hterms, heq⟩ | ⟨hlength, heq⟩
    · cases heq.symm.trans (hc.symm.trans hts)
    · have hsum := Collected.ne_sum_of_mem_terms htidy (t := t) (by simp [hterms])
      exact (hsum ts (heq.symm.trans (hc.symm.trans hts))).elim
    · obtain rfl := sum.inj (heq.symm.trans (hc.symm.trans hts))
      exact Collected.canonicalTerms_sort htidy hint hlength

/-! ### Products -/

/-- What multiplying out gives: an integer, a sum, or a multiple of a product of factors. -/
inductive Multiplied : Expr → Prop where
  | int (n : Int64) : Multiplied (.int n)
  | sum (terms : List Expr) : Multiplied (.sum terms)
  | product {m : Monomial} : m.Proper → Multiplied m.toExpr

theorem multiplied_collected {c : Collected} (htidy : Tidy c.coefficients)
    (hint : AllInt c.literals) : Multiplied c.toExpr := by
  rcases c.toExpr_cases with heq | ⟨t, hterms, heq⟩ | ⟨-, heq⟩
  · exact heq ▸ .int 0
  · rw [heq]
    have ht : t ∈ c.terms := by simp [hterms]
    rcases Collected.term_cases htidy hint ht with ⟨n, -, rfl⟩ | ⟨m, hm, rfl⟩
    · exact .int n
    · exact .product hm
  · exact heq ▸ .sum _

theorem monomial_toExpr_int (n : Int64) : (Monomial.mk (.int n) []).toExpr = .int n := by
  by_cases hzero : n = 0
  · subst hzero
    rfl
  · simp [Monomial.toExpr, Literal.isZero, hzero, int]

theorem monomial_cases {m : Monomial} (hint : m.coefficient.isInt = true)
    (hfactor : ∀ a ∈ m.factors, a.isFactor = true) (hsum : ∀ terms, m.factors ≠ [.sum terms]) :
    (∃ n, m.toExpr = .int n) ∨ m.Proper := by
  obtain ⟨c, as⟩ := m
  obtain ⟨n, rfl⟩ := Literal.exists_of_isInt hint
  cases as with
  | nil => exact .inl ⟨n, monomial_toExpr_int n⟩
  | cons a as =>
      by_cases hzero : (Literal.int n).isZero = true
      · exact .inl ⟨0, if_pos hzero⟩
      · exact .inr ⟨rfl, by simpa using hzero, by simp, hfactor, hsum⟩

/-- A constant that is spread over a sum: its multiples of the terms are collected. -/
theorem exists_collected_of_spread {n : Nat} {c : Literal} {terms : List Expr}
    (hunfolds : ∀ t ∈ terms, Unfolds n t)
    (h : AllInt ((FoldingTrace.ofDepth n).sum (Folding.ofDepth n)
      (terms.map fun t => (Folding.ofDepth n).product [.lit c, t]))) :
    ∃ d : Collected, Tidy d.coefficients ∧ AllInt d.literals ∧
      (Folding.ofDepth n).sum (terms.map fun t => (Folding.ofDepth n).product [.lit c, t]) =
        d.toExpr := by
  have hflattens := Folding.Flattens.ofDepth n
  obtain ⟨hcollected, -⟩ := allInt_append.mp h
  refine ⟨_, hflattens.tidy_sum fun e he => ?_,
    Collected.allInt_ofTerms (allInt_append.mp hcollected).2, rfl⟩
  obtain ⟨t, ht, rfl⟩ := List.mem_map.mp he
  exact (hflattens.product ((hunfolds t ht).scale _)).unfolds

/-- How a product comes out: as an integer, as a multiple of factors, as the sum that is its only
factor, or as the sum over whose terms its constant is spread. -/
theorem productOf_cases {fs : List Expr} (h : AllInt (productOfTrace fs)) :
    (∃ n, productOf fs = .int n) ∨ (∃ m : Monomial, m.Proper ∧ productOf fs = m.toExpr) ∨
      (∃ terms, (prod fs).cofactors = [.sum terms] ∧ productOf fs = .sum terms) ∨
      ∃ c : Collected, Tidy c.coefficients ∧ AllInt c.literals ∧ productOf fs = c.toExpr := by
  have hunfolds : Unfolds (sumDepthList fs) (prod fs) := unfolds_of_sumDepth_le (by simp [sumDepth])
  unfold productOfTrace at h
  unfold productOf
  generalize sumDepthList fs = n at h hunfolds
  by_cases hsum : ∀ terms, (prod fs).cofactors ≠ [.sum terms]
  · rw [FoldingTrace.product_ofDepth hsum] at h
    rw [Folding.product_ofDepth hsum]
    have hcases := monomial_cases (Monomial.isInt_ofFactors h) isFactor_of_mem_ofFactors
      fun terms heq => hsum terms (ofFactors_eq_iff.mp heq)
    exact hcases.imp_right fun hproper => .inl ⟨_, hproper, rfl⟩
  · obtain ⟨terms, hterms⟩ := not_forall_not.mp hsum
    cases n with
    | zero => exact (hunfolds terms hterms).elim
    | succ n =>
        simp only [FoldingTrace.ofDepth, FoldingTrace.next] at h
        simp only [Folding.ofDepth, Folding.next]
        obtain ⟨-, h⟩ := allInt_append.mp h
        cases hspread : (Monomial.ofFactors fs).spread? with
        | none =>
            rcases Monomial.toExpr_of_spread?_eq_none hspread (ofFactors_eq_iff.mpr hterms) with
              heq | heq
            · exact .inl ⟨0, heq⟩
            · exact .inr (.inr (.inl ⟨terms, hterms, heq⟩))
        | some terms' =>
            obtain ⟨-, hfactors⟩ := Monomial.spread?_eq_some_iff.mp hspread
            obtain rfl : terms = terms' := by
              simpa [hterms] using ofFactors_eq_iff.mp hfactors
            rw [hspread] at h
            exact .inr (.inr (.inr (exists_collected_of_spread (hunfolds terms hterms)
              (allInt_append.mp h).2)))

theorem multiplied_productOf {fs : List Expr} (h : AllInt (productOfTrace fs)) :
    Multiplied (productOf fs) := by
  rcases productOf_cases h with ⟨n, heq⟩ | ⟨m, hproper, heq⟩ | ⟨terms, -, heq⟩ |
    ⟨c, htidy, hint, heq⟩
  · exact heq ▸ .int n
  · exact heq ▸ .product hproper
  · exact heq ▸ .sum terms
  · exact heq ▸ multiplied_collected htidy hint

theorem Multiplied.same_productOf {e : Expr} (h : Multiplied e) :
    (productOf [e]).same e = true := by
  cases h with
  | int n =>
      have hproduct : productOf [.int n] = (Monomial.mk (.int n) []).toExpr := by
        show (Monomial.mk ((Literal.int 1).mul (.int n)) []).toExpr = _
        rw [Literal.one_mul_int]
      rw [hproduct, monomial_toExpr_int]
      exact same_refl _
  | sum terms => exact same_refl _
  | product hm => exact hm.same_productOf

end Expr

namespace Monomial.Proper

open GridAccess.Expr (CanonicalFactors)

variable {m : Monomial} (h : m.Proper)
include h

theorem isLiteral_of_mem_sort {a : Expr} (ha : a ∈ Ascending.sort m.factors) :
    a.isLiteral = false := by
  simp [Expr.isLiteral, Expr.literal?_of_isFactor (Expr.isFactor_of_mem_sort h.isFactor a ha)]

theorem ne_prod_of_mem_sort {a : Expr} (ha : a ∈ Ascending.sort m.factors) (gs : List Expr) :
    a ≠ .prod gs := by
  rintro rfl
  cases Expr.isFactor_of_mem_sort h.isFactor _ ha

theorem filter_sort : (Ascending.sort m.factors).filter (fun f => !f.isLiteral) =
    Ascending.sort m.factors :=
  List.filter_eq_self.mpr fun a ha => by simp [h.isLiteral_of_mem_sort ha]

/-- Factors without a constant. -/
theorem canonicalFactors_sort (hlength : 2 ≤ m.factors.length) :
    CanonicalFactors (Ascending.sort m.factors) where
  two_le := by rwa [Ascending.length_sort]
  not_prod _ := h.ne_prod_of_mem_sort
  literal_first _ ha := h.isLiteral_of_mem_sort (List.mem_of_mem_tail ha)
  nontrivial n hn := by cases h.isLiteral_of_mem_sort hn
  ascending := h.filter_sort.symm ▸ Ascending.sorted_sort m.factors
  not_scaled_sum n terms hfs := by cases h.isLiteral_of_mem_sort (a := .lit n) (by simp [hfs])

/-- The constant in front of the factors. -/
theorem canonicalFactors_lit_sort (hone : m.coefficient.isOne = false) :
    CanonicalFactors (.lit m.coefficient :: Ascending.sort m.factors) where
  two_le := by
    have hlength : 0 < m.factors.length := List.length_pos_iff.mpr h.factors_ne_nil
    rw [List.length_cons, Ascending.length_sort]
    omega
  not_prod := List.forall_mem_cons.mpr ⟨by simp, fun _ => h.ne_prod_of_mem_sort⟩
  literal_first _ := h.isLiteral_of_mem_sort
  nontrivial n hn := by
    rcases List.mem_cons.mp hn with hn | hn
    · exact Expr.lit.inj hn ▸ ⟨h.isZero, hone⟩
    · cases h.isLiteral_of_mem_sort hn
  ascending := by
    rw [List.filter_cons_of_neg (by simp [Expr.isLiteral, Expr.literal?]), h.filter_sort]
    exact Ascending.sorted_sort m.factors
  not_scaled_sum n terms hfs := by
    have hperm := Ascending.sort_perm m.factors
    rw [(List.cons.inj hfs).2] at hperm
    exact h.factors_ne_sum terms hperm.symm.eq_singleton

end Monomial.Proper

namespace Expr

theorem Multiplied.canonicalFactors {fs : List Expr} (h : Multiplied (.prod fs)) :
    CanonicalFactors fs := by
  generalize he : Expr.prod fs = e at h
  cases h with
  | int n => cases he
  | sum terms => cases he
  | product hm =>
      rcases hm.toExpr_cases with ⟨-, heq⟩ | ⟨hone, heq⟩
      · obtain ⟨rfl, hlength⟩ := eq_sort_of_powerProduct_eq hm.isFactor (heq.symm.trans he.symm)
        exact hm.canonicalFactors_sort hlength
      · obtain rfl := prod.inj (he.trans heq)
        exact hm.canonicalFactors_lit_sort hone

theorem productOf_canonical {factors : List Expr} (h : AllInt (productOfTrace factors)) :
    (productOf [productOf factors] == productOf factors) = true ∧
      ∀ fs, productOf factors = .prod fs → CanonicalFactors fs := by
  have hmultiplied := multiplied_productOf h
  exact ⟨hmultiplied.same_productOf, fun fs hfs => (hfs ▸ hmultiplied).canonicalFactors⟩

/-- Folding what is built again changes nothing, and the sum or the product that is built is
canonical. The operands are arbitrary trees. They need not be free of floating-point numbers, which
may stand in what is not folded here, as in an index. -/
theorem constructors_establish_canonical_form :
    (∀ terms : List Expr, AllInt (sumOfTrace terms) →
      (sumOf [sumOf terms] == sumOf terms) = true ∧
        ∀ ts, sumOf terms = .sum ts → CanonicalTerms ts) ∧
    ∀ factors : List Expr, AllInt (productOfTrace factors) →
      (productOf [productOf factors] == productOf factors) = true ∧
        ∀ fs, productOf factors = .prod fs → CanonicalFactors fs :=
  ⟨fun _ => sumOf_canonical, fun _ => productOf_canonical⟩

/-- The terms of `x + (3*h*x - 2*x*h) + 0 + (-5)` as they are written. -/
def unsortedTerms : List Expr :=
  let x := Expr.dim (.root "x" .space)
  let h := Expr.sym ⟨"h"⟩
  [x, .sum [.prod [.int 3, h, x], .prod [x, h, .int (-2)]], .int 0, .int (-5)]

/-- The factors of `(h*2)*(x + 3)*h*(-1)` as they are written. -/
def nestedFactors : List Expr :=
  let x := Expr.dim (.root "x" .space)
  let h := Expr.sym ⟨"h"⟩
  [.prod [h, .int 2], .sum [x, .int 3], h, .int (-1)]

theorem constructors_establish_canonical_form_nested :
    (sumOf [sumOf unsortedTerms] == sumOf unsortedTerms) = true ∧
    (∃ ts, sumOf unsortedTerms = .sum ts ∧ CanonicalTerms ts) ∧
    (productOf [productOf nestedFactors] == productOf nestedFactors) = true ∧
    ∃ fs, productOf nestedFactors = .prod fs ∧ CanonicalFactors fs := by
  obtain ⟨hsum, hproduct⟩ := constructors_establish_canonical_form
  obtain ⟨hsame, hterms⟩ := hsum unsortedTerms (by decide)
  obtain ⟨hsame', hfactors⟩ := hproduct nestedFactors (by decide)
  exact ⟨hsame, ⟨_, rfl, hterms _ rfl⟩, hsame', ⟨_, rfl, hfactors _ rfl⟩⟩

end Expr

end GridAccess
