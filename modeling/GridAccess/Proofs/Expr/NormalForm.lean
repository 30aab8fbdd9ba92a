import GridAccess.Proofs.Expr.Form

/-!
Canonical sums are normal forms: two of them are equal exactly if the linear forms of their terms
have the same sum. Folding keeps the form. In the other direction, every layer of folding hands
literals and keys on to the collection of like terms, and a table collected from these is determined
by its form.
-/

namespace GridAccess

namespace Expr

/-! ### Layers of sums -/

/-- A multiple of a sum whose terms are multiples of sums, and so on, in at most `n` layers. Sums
among several factors are not taken apart and do not count. -/
def Unfolds : Nat → Expr → Prop
  | 0, e => ∀ terms, e.cofactors ≠ [.sum terms]
  | n + 1, e => ∀ terms, e.cofactors = [.sum terms] → ∀ t ∈ terms, Unfolds n t

theorem Unfolds.of_cofactors_eq {n : Nat} {a b : Expr} (ha : Unfolds n a)
    (h : a.cofactors = b.cofactors) : Unfolds n b := by
  cases n with
  | zero | succ n =>
      rw [Unfolds, h] at ha
      exact ha

theorem Unfolds.scale {n : Nat} {e : Expr} (h : Unfolds n e) (k : Literal) :
    Unfolds n (.prod [.lit k, e]) :=
  h.of_cofactors_eq (by simp)

theorem Flat.unfolds {e : Expr} (h : e.Flat) (n : Nat) : Unfolds n e := by
  cases n with
  | zero => exact h.cofactors_ne_sum
  | succ n => exact fun terms hsum => (h.cofactors_ne_sum terms hsum).elim

theorem sumDepthList_le_iff {es : List Expr} {k : Nat} :
    sumDepthList es ≤ k ↔ ∀ e ∈ es, e.sumDepth ≤ k := by
  induction es with
  | nil => simp
  | cons e es ih => rw [sumDepthList_cons, Nat.max_le, ih, List.forall_mem_cons]

theorem sumDepth_le_of_mem_cofactors {e f : Expr} (h : f ∈ e.cofactors) :
    f.sumDepth ≤ e.sumDepth := by
  induction h using cofactorInduction with
  | self => exact le_rfl
  | prod he _ _ ih => exact ih.trans (sumDepthList_le_iff.mp le_rfl _ he)

theorem unfolds_of_sumDepth_le {n : Nat} {e : Expr} (h : e.sumDepth ≤ n) : Unfolds n e := by
  have hsum {e : Expr} {terms : List Expr} (hterms : e.cofactors = [.sum terms]) :
      sumDepthList terms + 1 ≤ e.sumDepth :=
    sumDepth_le_of_mem_cofactors (f := .sum terms) (by simp [hterms])
  induction n generalizing e with
  | zero =>
      intro terms hterms
      have hdepth := hsum hterms
      omega
  | succ n ih =>
      intro terms hterms t ht
      have hdepth := hsum hterms
      have hterm := sumDepthList_le_iff.mp le_rfl t ht
      exact ih (by omega)

/-- What a product can be when it is multiplied out: something that sums collect, or a sum. -/
structure Layered (n : Nat) (e : Expr) : Prop where
  unfolds : Unfolds n e
  shape : e.Flat ∨ ∃ terms, e = .sum terms

theorem Flat.layered {e : Expr} (h : e.Flat) (n : Nat) : Layered n e := ⟨h.unfolds n, .inl h⟩

end Expr

/-! ### Collecting terms -/

namespace Collected

open GridAccess.Expr (Tidy Layered)

theorem tidy_ofTerms {es : List Expr} (h : ∀ e ∈ es, e.Flat) : Tidy (ofTerms es).coefficients := by
  have hfold {c : Collected} (hc : Tidy c.coefficients) :
      Tidy (es.foldl plus c).coefficients := by
    induction es generalizing c with
    | nil => exact hc
    | cons e es ih =>
        obtain ⟨he, hes⟩ := List.forall_mem_cons.mp h
        refine ih hes ?_
        cases hliteral : e.literal? with
        | some n =>
            obtain rfl := Expr.eq_lit_of_literal? hliteral
            exact hc
        | none =>
            rw [plus_of_literal?_eq_none c hliteral]
            exact hc.adjust (he hliteral) _ _
  exact hfold Tidy.nil

theorem flat_of_mem_terms {c : Collected} (h : Tidy c.coefficients) : ∀ e ∈ c.terms, e.Flat := by
  intro e he
  rcases List.mem_append.mp he with he | he
  · obtain ⟨entry, hentry, rfl⟩ := List.mem_map.mp he
    have hkey := h.keys entry (List.mem_of_mem_filter hentry)
    unfold scaled
    split
    · exact hkey.flat
    · refine Expr.flat_ofFactors fun terms hsum => hkey.cofactors_ne_sum terms ?_
      simpa using hsum
  · split at he
    · cases he
    · obtain rfl := List.mem_singleton.mp he
      exact Expr.flat_lit _

theorem layered_toExpr {c : Collected} (h : Tidy c.coefficients) (n : Nat) :
    Layered (n + 1) c.toExpr := by
  have hterms := flat_of_mem_terms h
  unfold toExpr
  split
  · exact (Expr.flat_lit _).layered _
  · next heq => exact (hterms _ (by simp [heq])).layered _
  · refine ⟨?_, .inr ⟨_, rfl⟩⟩
    intro terms hsum t ht
    rw [Expr.cofactors_of_isFactor rfl] at hsum
    obtain rfl := Expr.sum.inj (List.cons.inj hsum).1
    exact (hterms t ((Ascending.sort_perm _).mem_iff.mp ht)).unfolds n

end Collected

namespace Folding

open GridAccess.Expr (Unfolds Layered)

/-- A folding for `n` layers of sums. -/
structure Flattens (n : Nat) (f : Folding) : Prop where
  product : ∀ {fs}, Unfolds n (.prod fs) → Layered n (f.product fs)
  terms : ∀ {e}, Unfolds n e → ∀ t ∈ f.terms e, t.Flat

namespace Flattens

theorem summand {n : Nat} {product : List Expr → Expr}
    (hproduct : ∀ {fs}, Unfolds n (.prod fs) → Layered n (product fs)) {e : Expr}
    (h : Unfolds n e) : Layered n (Folding.summand product e) := by
  cases e with
  | prod fs => exact hproduct h
  | lit k => exact (Expr.flat_lit k).layered n
  | sum terms => exact ⟨h, .inr ⟨terms, rfl⟩⟩
  | _ => exact (Expr.flat_of_isFactor rfl (by simp [Folding.summand])).layered n

theorem tidy_sum {n : Nat} {f : Folding} (hf : f.Flattens n) {es : List Expr}
    (h : ∀ e ∈ es, Unfolds n e) :
    Expr.Tidy (Collected.ofTerms (es.reverse.flatMap f.terms)).coefficients := by
  refine Collected.tidy_ofTerms fun t ht => ?_
  obtain ⟨e, he, ht⟩ := List.mem_flatMap.mp ht
  exact hf.terms (h e (List.mem_reverse.mp he)) t ht

theorem flat : Folding.flat.Flattens 0 := by
  have hproduct {fs : List Expr} (h : Unfolds 0 (.prod fs)) : Layered 0 (Folding.flat.product fs) :=
    (Expr.flat_ofFactors h).layered 0
  refine ⟨hproduct, ?_⟩
  intro e h t ht
  obtain rfl := List.mem_singleton.mp ht
  have hsummand := summand hproduct h
  rcases hsummand.shape with hflat | ⟨terms, hsum⟩
  · exact hflat
  · have hunfolds := hsummand.unfolds
    rw [hsum] at hunfolds
    exact (hunfolds terms (Expr.cofactors_of_isFactor rfl)).elim

theorem next {n : Nat} {f : Folding} (hf : f.Flattens n) : f.next.Flattens (n + 1) := by
  have hproduct {fs : List Expr} (h : Unfolds (n + 1) (.prod fs)) :
      Layered (n + 1) (f.next.product fs) := by
    simp only [Folding.next]
    cases hspread : (Monomial.ofFactors fs).spread? with
    | some terms =>
        -- The terms with the coefficient in front have one layer of sums less.
        have hfactors := (Monomial.spread?_eq_some_iff.mp hspread).2
        have hterms := h terms (Expr.ofFactors_eq_iff.mp hfactors)
        refine Collected.layered_toExpr (hf.tidy_sum fun e he => ?_) n
        obtain ⟨t, ht, rfl⟩ := List.mem_map.mp he
        exact (hf.product ((hterms t ht).scale _)).unfolds
    | none =>
        by_cases hsum : ∃ terms, (Expr.prod fs).cofactors = [.sum terms]
        · -- The sum is not taken apart here, but by the sum that the product is a term of.
          obtain ⟨terms, hterms⟩ := hsum
          have hfactors := Expr.ofFactors_eq_iff.mpr hterms
          rcases Monomial.toExpr_of_spread?_eq_none hspread hfactors with heq | heq
          · exact heq ▸ (Expr.flat_lit _).layered _
          · refine heq ▸ ⟨h.of_cofactors_eq ?_, .inr ⟨terms, rfl⟩⟩
            rw [hterms, Expr.cofactors_of_isFactor rfl]
        · exact (Expr.flat_ofFactors (not_exists.mp hsum)).layered _
  refine ⟨hproduct, ?_⟩
  intro e h t ht
  have hsummand := summand hproduct h
  simp only [Folding.next] at ht hsummand
  split at ht
  · next terms heq =>
      rw [heq] at hsummand
      obtain ⟨e, he, ht⟩ := List.mem_flatMap.mp ht
      have hterms := hsummand.unfolds terms (Expr.cofactors_of_isFactor rfl)
      exact hf.terms (hterms e (List.mem_reverse.mp he)) t ht
  · next hne =>
      obtain rfl := List.mem_singleton.mp ht
      rcases hsummand.shape with hflat | ⟨terms, hsum⟩
      · exact hflat
      · exact (hne terms hsum).elim

theorem ofDepth (n : Nat) : (Folding.ofDepth n).Flattens n := by
  induction n with
  | zero => exact flat
  | succ n ih => exact ih.next

end Flattens

end Folding

/-! ### Normal forms -/

namespace Expr

theorem exists_collected {terms : List Expr} (hint : AllInt (sumOfTrace terms)) :
    ∃ c : Collected, sumOf terms = c.toExpr ∧ Tidy c.coefficients ∧ AllInt c.literals ∧
      forms.collected c = (terms.map form).sum := by
  unfold sumOfTrace FoldingTrace.sum at hint
  simp only [allInt_append] at hint
  obtain ⟨⟨hterms, hcollected⟩, -⟩ := hint
  refine ⟨_, rfl, ?_, Collected.allInt_ofTerms hcollected, ?_⟩
  · refine (Folding.Flattens.ofDepth _).tidy_sum fun t ht => ?_
    exact unfolds_of_sumDepth_le (sumDepthList_le_iff.mp le_rfl t ht)
  · have hpreserves := Folding.Preserves.ofDepth (r := forms) (sumDepthList terms)
    rw [Reading.collected_ofTerms hcollected, hpreserves.sum_flatMap_terms hterms,
      List.map_reverse, List.sum_reverse]
    rfl

/-- As long as no operation on integers overflows, canonical sums are equal exactly if their terms
add up to the same form. -/
theorem same_sumOf_iff {as bs : List Expr} (ha : AllInt (sumOfTrace as))
    (hb : AllInt (sumOfTrace bs)) :
    (sumOf as).same (sumOf bs) = true ↔ (as.map form).sum = (bs.map form).sum := by
  constructor
  · intro h
    exact (forms.value_sumOf ha).symm.trans ((form_congr h).trans (forms.value_sumOf hb))
  · intro h
    obtain ⟨c, hc, hctidy, hcint, hcform⟩ := exists_collected ha
    obtain ⟨e, he, hetidy, heint, heform⟩ := exists_collected hb
    rw [hc, he]
    refine Collected.same_toExpr hctidy hetidy hcint heint ?_
    rw [hcform, heform, h]

end Expr

end GridAccess
