import GridAccess.Proofs.Expr.CanonicalForm
import GridAccess.Proofs.Expr.Laws

/-!
Products in groups. Like sums, products of canonical expressions are equal exactly if their linear
forms are, so that a product may stand in place of its factors exactly if this leaves the form as it
is. It does not if a constant has been spread over a sum in the inner product and there are other
factors beside it. Sums are not multiplied out there, and the constant does not come out again.
-/

namespace GridAccess

/-! ### Number of terms -/

namespace Expr

theorem card_support_table {table : List (Expr × Literal)} (h : Tidy table) (hr : Reduced table) :
    (forms.table table).support.card = table.length := by
  induction table with
  | nil => simp
  | cons entry table ih =>
      obtain ⟨k, v⟩ := entry
      obtain ⟨⟨hint, hzero⟩, hrest⟩ := List.forall_mem_cons.mp hr
      have htable : Tidy table := h.sublist (List.sublist_cons_self _ _)
      have hterm : v.toInt • forms.value k = Finsupp.single k.toClass v.toInt :=
        (h.keys _ List.mem_cons_self).smul_form v.toInt
      have hnew : k.toClass ∉ (forms.table table).support := by
        rw [Finsupp.notMem_support_iff, form_table_apply htable, h.get?_tail]
        rfl
      rw [Reading.table_cons, hterm,
        Finsupp.support_single_add hnew (Literal.toInt_ne_zero hint hzero), Finset.card_cons,
        ih htable hrest, List.length_cons]

end Expr

namespace Collected

open GridAccess.Expr (forms Tidy)

variable {c : Collected}

/-- A sum has a term for each generator in its form. -/
theorem card_support_collected (htidy : Tidy c.coefficients) (hint : AllInt c.literals) :
    (forms.collected c).support.card = c.terms.length := by
  have htable : forms.table c.coefficients = forms.table c.remaining :=
    (Reading.table_filter c.coefficients).symm
  have hremaining : Tidy c.remaining := htidy.sublist List.filter_sublist
  have hcard := Expr.card_support_table hremaining (reduced_remaining hint)
  have hone : forms.value (.int 1) = Finsupp.single (Expr.int 1).toClass 1 := Expr.form_one
  rw [Reading.collected, htable, hone, Finsupp.smul_single, smul_eq_mul, mul_one]
  cases hzero : c.constant.isZero with
  | true =>
      rw [Literal.toInt_of_isZero hzero, Finsupp.single_zero, zero_add, hcard,
        terms_of_isZero hzero, nonconstant, List.length_map]
  | false =>
      have hnew : (Expr.int 1).toClass ∉ (forms.table c.remaining).support := by
        rw [Finsupp.notMem_support_iff, Expr.form_table_one hremaining]
      have hne := Literal.toInt_ne_zero (hint _ List.mem_cons_self) hzero
      rw [Finsupp.support_single_add hnew hne, Finset.card_cons, hcard,
        terms_of_not_isZero hzero, nonconstant, List.length_append, List.length_map]
      rfl

theorem isFormOf_self (htidy : Tidy c.coefficients) (hint : AllInt c.literals) :
    c.IsFormOf c.toExpr where
  same := Expr.same_refl _
  tidy := htidy
  allInt := hint
  form := (Reading.value_collected hint (allInt_termsTrace hint htidy)).symm

theorem IsFormOf.exists_sum_iff {e : Expr} (h : c.IsFormOf e) :
    (∃ ts, e = .sum ts) ↔ 2 ≤ e.form.support.card := by
  rw [← h.form, card_support_collected h.tidy h.allInt]
  constructor
  · rintro ⟨ts, rfl⟩
    obtain ⟨us, hsum, -⟩ := Expr.same_sum_iff.mp (Expr.same_symm h.same)
    rcases c.toExpr_cases with heq | ⟨t, hterms, heq⟩ | ⟨hlength, -⟩
    · cases heq.symm.trans hsum
    · have hne := ne_sum_of_mem_terms h.tidy (t := t) (by simp [hterms])
      exact (hne us (heq.symm.trans hsum)).elim
    · exact hlength
  · intro hlength
    have hsame := h.same
    rw [toExpr_of_two_le hlength] at hsame
    obtain ⟨us, rfl, -⟩ := Expr.same_sum_iff.mp hsame
    exact ⟨us, rfl⟩

end Collected

namespace Expr

/-! ### Equality of products -/

/-- An expression that its linear form stands for. -/
def Normal (e : Expr) : Prop := ∃ c : Collected, c.IsFormOf e

theorem Normal.same_iff {a b : Expr} (ha : a.Normal) (hb : b.Normal) :
    a.same b = true ↔ a.form = b.form := by
  obtain ⟨c, hc⟩ := ha
  obtain ⟨d, hd⟩ := hb
  exact ⟨form_congr, hc.same_of_form_eq hd⟩

/-- If a sum is the only factor besides constants, its form stands for it. -/
def NormalSums (fs : List Expr) : Prop :=
  ∀ terms, (prod fs).cofactors = [.sum terms] → (sum terms).Normal

theorem normalSums_of_canonical {fs : List Expr} (h : ∀ e ∈ fs, e.Canonical ∧ e.FloatFree) :
    NormalSums fs := by
  intro terms hterms
  have hmem : sum terms ∈ (prod fs).cofactors := by simp [hterms]
  rw [cofactors_prod] at hmem
  obtain ⟨e, he, hsum⟩ := List.mem_flatMap.mp hmem
  obtain ⟨hcanonical, hfloat⟩ := h e he
  have hnode := mem_nodes_of_mem_cofactors hsum
  exact exists_isFormOf (hcanonical.of_mem_nodes hnode) (hfloat.of_mem_nodes hnode)

theorem NormalSums.of_perm {fs gs : List Expr} (h : NormalSums fs) (hperm : fs.Perm gs) :
    NormalSums gs := by
  intro terms hterms
  have hcofactors := cofactors_prod_perm hperm
  rw [hterms] at hcofactors
  exact h terms hcofactors.eq_singleton

theorem form_productOf {fs : List Expr} (h : AllInt (productOfTrace fs)) :
    (productOf fs).form = (prod fs).form :=
  forms.value_productOf h

theorem normal_productOf {fs : List Expr} (h : AllInt (productOfTrace fs))
    (hsums : NormalSums fs) : (productOf fs).Normal := by
  rcases productOf_cases h with ⟨n, heq⟩ | ⟨m, hproper, heq⟩ | ⟨terms, hterms, heq⟩ |
    ⟨c, htidy, hint, heq⟩
  · exact heq ▸ ⟨_, isFormOf_int n⟩
  · exact heq ▸ ⟨_, isFormOf_toExpr hproper⟩
  · exact heq ▸ hsums terms hterms
  · exact heq ▸ ⟨c, c.isFormOf_self htidy hint⟩

/-- As long as no operation on integers overflows, canonical products are equal exactly if the
products have the same form. -/
theorem same_productOf_iff {fs gs : List Expr} (hf : AllInt (productOfTrace fs))
    (hg : AllInt (productOfTrace gs)) (hfsums : NormalSums fs) (hgsums : NormalSums gs) :
    (productOf fs).same (productOf gs) = true ↔ (prod fs).form = (prod gs).form := by
  rw [(normal_productOf hf hfsums).same_iff (normal_productOf hg hgsums), form_productOf hf,
    form_productOf hg]

/-! ### Coefficients and factors of products -/

end Expr

/-- A constant times factors keeps the constant and, unless it is zero, the factors. -/
theorem Monomial.coefficient_cofactors_toExpr {m : Monomial} (hint : m.coefficient.isInt = true)
    (hfactors : ∀ a ∈ m.factors, a.isFactor = true) :
    m.toExpr.coefficient = m.coefficient.toInt ∧
      (m.coefficient.toInt ≠ 0 → m.toExpr.cofactors.Perm m.factors) := by
  obtain ⟨c, as⟩ := m
  have hperm := Ascending.sort_perm as
  by_cases hnil : as = []
  · subst hnil
    obtain ⟨n, rfl⟩ := Literal.exists_of_isInt hint
    rw [Expr.monomial_toExpr_int]
    exact ⟨Expr.coefficient_lit _, fun _ => .refl _⟩
  · rcases toExpr_cases c hnil with ⟨hzero, heq⟩ | ⟨hone, heq⟩ | heq
    · have htoInt := Literal.toInt_of_isZero hzero
      rw [heq]
      exact ⟨(Expr.coefficient_lit _).trans htoInt.symm, fun hne => (hne htoInt).elim⟩
    · rw [heq, Expr.coefficient_powerProduct hfactors, Expr.cofactors_powerProduct hfactors]
      exact ⟨(Literal.toInt_of_isOne hint hone).symm, fun _ => hperm⟩
    · rw [heq, Expr.coefficient_lit_sort c hfactors, Expr.cofactors_lit_sort c hfactors]
      exact ⟨rfl, fun _ => hperm⟩

namespace Expr

theorem form_eq_of_cofactors_perm {a b : Expr} (hcoefficient : a.coefficient = b.coefficient)
    (hcofactors : b.coefficient ≠ 0 → a.cofactors.Perm b.cofactors) : a.form = b.form := by
  rw [form_eq_smul a, form_eq_smul b, hcoefficient]
  by_cases hzero : b.coefficient = 0
  · rw [hzero, zero_smul, zero_smul]
  · rw [form_congr (same_powerProduct ((hcofactors hzero).map toClass))]

theorem form_prod_perm {fs gs : List Expr} (h : fs.Perm gs) : (prod fs).form = (prod gs).form :=
  form_eq_of_cofactors_perm (coefficient_prod_perm h) fun _ => cofactors_prod_perm h

/-! ### A product among factors -/

/-- A constant other than 0 and 1 is spread over a sum that is the only other factor. -/
def Spreads (fs : List Expr) : Prop :=
  (prod fs).coefficient ≠ 0 ∧ (prod fs).coefficient ≠ 1 ∧
    ∃ terms, (prod fs).cofactors = [.sum terms]

/-- The product of `gs` may stand beside the factors `fs`: it is not spread over a sum, or there is
nothing but constants beside it, or the whole product is zero anyway. -/
def Groups (fs gs : List Expr) : Prop :=
  Spreads gs → (prod fs).cofactors = [] ∨ (prod fs).coefficient = 0

theorem allInt_factorsTrace_of_productOfTrace {fs : List Expr} (h : AllInt (productOfTrace fs)) :
    AllInt (Monomial.factorsTrace fs) := by
  unfold productOfTrace at h
  cases hdepth : sumDepthList fs with
  | zero =>
      rw [hdepth] at h
      exact h
  | succ n =>
      rw [hdepth] at h
      exact (allInt_append.mp h).1

theorem productOf_of_not_spreads {fs : List Expr} (h : AllInt (productOfTrace fs))
    (hspreads : ¬ Spreads fs) : productOf fs = (Monomial.ofFactors fs).toExpr := by
  refine Folding.product_ofDepth_of_spread? ?_
  have hfactors := allInt_factorsTrace_of_productOfTrace h
  cases hspread : (Monomial.ofFactors fs).spread? with
  | none => rfl
  | some terms =>
      obtain ⟨hcoefficient, hsum⟩ := Monomial.spread?_eq_some_iff.mp hspread
      obtain ⟨hzero, hone⟩ := Bool.or_eq_false_iff.mp hcoefficient
      refine (hspreads ⟨?_, ?_, terms, ofFactors_eq_iff.mp hsum⟩).elim
      · rw [← Monomial.toInt_ofFactors hfactors]
        exact Literal.toInt_ne_zero (Monomial.isInt_ofFactors hfactors) hzero
      · rw [← Monomial.toInt_ofFactors hfactors]
        exact Literal.toInt_ne_one (Monomial.isInt_ofFactors hfactors) hone

/-- A product that is not spread keeps its coefficient and its factors. -/
theorem coefficient_cofactors_productOf {fs : List Expr} (h : AllInt (productOfTrace fs))
    (hspreads : ¬ Spreads fs) :
    (productOf fs).coefficient = (prod fs).coefficient ∧
      ((prod fs).coefficient ≠ 0 → (productOf fs).cofactors.Perm (prod fs).cofactors) := by
  have hfactors := allInt_factorsTrace_of_productOfTrace h
  have hkeeps := Monomial.coefficient_cofactors_toExpr (Monomial.isInt_ofFactors hfactors)
    isFactor_of_mem_ofFactors
  rw [Monomial.toInt_ofFactors hfactors, factors_ofFactors] at hkeeps
  rw [productOf_of_not_spreads h hspreads]
  exact hkeeps.imp_right fun hcofactors hne => (hcofactors hne).trans (List.reverse_perm _)

variable {fs gs : List Expr}

theorem coefficient_append (fs gs : List Expr) :
    (prod (fs ++ gs)).coefficient = (prod fs).coefficient * (prod gs).coefficient := by
  simp

theorem cofactors_append (fs gs : List Expr) :
    (prod (fs ++ gs)).cofactors = (prod fs).cofactors ++ (prod gs).cofactors := by
  simp

/-- Constants alone leave a form as it is but for the coefficient. -/
theorem form_append_of_cofactors_eq_nil (h : (prod fs).cofactors = []) (gs : List Expr) :
    (prod (fs ++ gs)).form = (prod fs).coefficient • (prod gs).form := by
  refine forms.value_eq_of_cofactors_eq ?_ (coefficient_append fs gs)
  rw [cofactors_append, h, List.nil_append]

theorem form_prod_singleton (e : Expr) : (prod [e]).form = e.form :=
  form_eq_of_cofactors_perm (by simp) fun _ => by simp

theorem form_eq_zero {e : Expr} (h : e.coefficient = 0) : e.form = 0 := by
  rw [form_eq_smul, h, zero_smul]

/-- Where a product may be grouped, its form stays the same. -/
theorem form_append_productOf (h : AllInt (productOfTrace gs)) (hgroups : Groups fs gs) :
    (prod (fs ++ [productOf gs])).form = (prod (fs ++ gs)).form := by
  by_cases hspreads : Spreads gs
  · rcases hgroups hspreads with hnil | hzero
    · rw [form_append_of_cofactors_eq_nil hnil, form_append_of_cofactors_eq_nil hnil,
        form_prod_singleton, form_productOf h]
    · rw [form_eq_zero, form_eq_zero] <;> rw [coefficient_append, hzero, zero_mul]
  · obtain ⟨hcoefficient, hcofactors⟩ := coefficient_cofactors_productOf h hspreads
    apply form_eq_of_cofactors_perm
    · simp [hcoefficient]
    · intro hne
      rw [coefficient_append] at hne
      have hperm := hcofactors (right_ne_zero_of_mul hne)
      rw [cofactors_append, cofactors_append, cofactors_prod [_], List.flatMap_singleton]
      exact hperm.append_left _

/-- What a constant is spread over stays a sum. -/
theorem exists_sum_of_spreads (h : AllInt (productOfTrace gs)) (hsums : NormalSums gs)
    (hspreads : Spreads gs) : ∃ ts, productOf gs = .sum ts := by
  obtain ⟨hzero, -, terms, hterms⟩ := hspreads
  obtain ⟨c, hc⟩ := hsums terms hterms
  obtain ⟨d, hd⟩ := normal_productOf h hsums
  have hlength : 2 ≤ (sum terms).form.support.card := hc.exists_sum_iff.mp ⟨terms, rfl⟩
  rw [form_sum] at hlength
  rwa [hd.exists_sum_iff, form_productOf h, form_of_cofactors_eq hterms,
    Finsupp.support_smul_eq hzero]

/-- A sum beside other factors is not taken apart. -/
theorem form_append_of_cofactors_eq_sum {terms : List Expr} (hfs : (prod fs).cofactors ≠ [])
    (h : (prod gs).cofactors = [.sum terms]) :
    (prod (fs ++ gs)).form = Finsupp.single
      (powerProduct (prod (fs ++ gs)).cofactors).toClass
      ((prod fs).coefficient * (prod gs).coefficient) := by
  rw [form_of_cofactors_ne, coefficient_append]
  intro terms' heq
  rw [cofactors_append, h] at heq
  have hlength := congrArg List.length heq
  rw [List.length_append, List.length_singleton, List.length_singleton] at hlength
  exact hfs (List.length_eq_zero_iff.mp (by omega))

/-- The coefficient that is spread is missing in front. -/
theorem form_append_productOf_ne (h : AllInt (productOfTrace gs)) (hsums : NormalSums gs)
    (hgroups : ¬ Groups fs gs) :
    (prod (fs ++ [productOf gs])).form ≠ (prod (fs ++ gs)).form := by
  obtain ⟨hspreads, hbeside⟩ := Classical.not_imp.mp hgroups
  obtain ⟨hcofactors, hcoefficient⟩ := not_or.mp hbeside
  obtain ⟨ts, hts⟩ := exists_sum_of_spreads h hsums hspreads
  obtain ⟨-, hone, terms, hterms⟩ := hspreads
  have hsum : (prod [.sum ts]).cofactors = [.sum ts] := rfl
  rw [hts, form_append_of_cofactors_eq_sum hcofactors hsum,
    form_append_of_cofactors_eq_sum hcofactors hterms]
  have hkept : (prod [.sum ts]).coefficient = 1 := coefficient_prod_of_isFactor (by simp [isFactor])
  intro heq
  rcases (Finsupp.single_eq_single_iff _ _ _ _).mp heq with ⟨-, hequal⟩ | ⟨hzero, -⟩
  · rw [hkept] at hequal
    exact hone (mul_left_cancel₀ hcoefficient hequal).symm
  · rw [hkept, mul_one] at hzero
    exact hcoefficient hzero

theorem form_append_productOf_iff (h : AllInt (productOfTrace gs)) (hsums : NormalSums gs) :
    (prod (fs ++ [productOf gs])).form = (prod (fs ++ gs)).form ↔ Groups fs gs := by
  constructor
  · intro heq
    by_contra hgroups
    exact form_append_productOf_ne h hsums hgroups heq
  · exact form_append_productOf h

/-! ### Laws -/

theorem Multiplied.eq_sum {e : Expr} (h : Multiplied e) {terms : List Expr}
    (hcofactors : e.cofactors = [.sum terms]) : e = .sum terms := by
  cases h with
  | int n => cases hcofactors
  | sum ts => exact (List.cons.inj hcofactors).1
  | product hproper => exact (hproper.term.cofactors_ne_sum terms hcofactors).elim

theorem NormalSums.append_productOf (hfs : NormalSums fs) (hgs : NormalSums gs)
    (h : AllInt (productOfTrace gs)) : NormalSums (fs ++ [productOf gs]) := by
  intro terms hterms
  rw [cofactors_append, cofactors_prod [_], List.flatMap_singleton] at hterms
  rcases List.append_eq_singleton_iff.mp hterms with ⟨-, hproduct⟩ | ⟨hsum, -⟩
  · exact (multiplied_productOf h).eq_sum hproduct ▸ normal_productOf h hgs
  · exact hfs terms hsum

theorem same_productOf_append_iff (h : ∀ e ∈ fs ++ gs, e.Canonical ∧ e.FloatFree)
    (hgs : AllInt (productOfTrace gs)) (hnested : AllInt (productOfTrace (fs ++ [productOf gs])))
    (hflat : AllInt (productOfTrace (fs ++ gs))) :
    (productOf (fs ++ [productOf gs])).same (productOf (fs ++ gs)) = true ↔ Groups fs gs := by
  obtain ⟨hf, hg⟩ := List.forall_mem_append.mp h
  have hsums := normalSums_of_canonical hg
  have hnestedSums := (normalSums_of_canonical hf).append_productOf hsums hgs
  rw [same_productOf_iff hnested hflat hnestedSums (normalSums_of_canonical h),
    form_append_productOf_iff hgs hsums]

/-- Both products are compared with the one that is not grouped. -/
theorem same_mul_assoc_iff {a b c : Expr} (h : ∀ e ∈ [a, b, c], e.Canonical ∧ e.FloatFree)
    (hab : AllInt (productOfTrace [a, b])) (hbc : AllInt (productOfTrace [b, c]))
    (hleft : AllInt (productOfTrace [a * b, c])) (hright : AllInt (productOfTrace [a, b * c]))
    (hgroups : Groups [c] [a, b] ∨ Groups [a] [b, c]) :
    (a * b * c).same (a * (b * c)) = true ↔ Groups [c] [a, b] ∧ Groups [a] [b, c] := by
  have hswap : [c, a * b].Perm [a * b, c] := .swap _ _ _
  have hrotate : [c, a, b].Perm [a, b, c] := by
    show ([c] ++ [a, b]).Perm ([a, b] ++ [c])
    exact List.perm_append_comm
  have hsums {es : List Expr} (hes : es ⊆ [a, b, c]) : NormalSums es :=
    normalSums_of_canonical fun e he => h e (hes he)
  have habSums : NormalSums [a, b] := hsums (by simp)
  have hbcSums : NormalSums [b, c] := hsums (by simp)
  have hleftSums : NormalSums [a * b, c] :=
    (@NormalSums.append_productOf [c] [a, b] (hsums (by simp)) habSums hab).of_perm hswap
  have hrightSums : NormalSums [a, b * c] :=
    @NormalSums.append_productOf [a] [b, c] (hsums (by simp)) hbcSums hbc
  have hleftForm : (prod [a * b, c]).form = (prod [a, b, c]).form ↔ Groups [c] [a, b] := by
    rw [← form_prod_perm hswap, ← form_prod_perm hrotate]
    exact @form_append_productOf_iff [c] [a, b] hab habSums
  have hrightForm : (prod [a, b * c]).form = (prod [a, b, c]).form ↔ Groups [a] [b, c] :=
    @form_append_productOf_iff [a] [b, c] hbc hbcSums
  refine (same_productOf_iff hleft hright hleftSums hrightSums).trans ?_
  rcases hgroups with hgroups | hgroups
  · rw [hleftForm.mpr hgroups, eq_comm, hrightForm, and_iff_right hgroups]
  · rw [hrightForm.mpr hgroups, hleftForm, and_iff_left hgroups]

/-- As long as no operation on integers overflows, a product of canonical expressions may be folded
before other factors are multiplied to it exactly if this does not spread a constant over a sum
beside them. Three factors that are folded from the left and from the right give the same product if
neither of the inner products is spread so, and not if just one of them is. -/
theorem products_regroup :
    (∀ fs gs : List Expr, (∀ e ∈ fs ++ gs, e.Canonical ∧ e.FloatFree) →
      AllInt (productOfTrace gs) → AllInt (productOfTrace (fs ++ [productOf gs])) →
      AllInt (productOfTrace (fs ++ gs)) →
      ((productOf (fs ++ [productOf gs]) == productOf (fs ++ gs)) = true ↔ Groups fs gs)) ∧
    ∀ a b c : Expr, (∀ e ∈ [a, b, c], e.Canonical ∧ e.FloatFree) →
      AllInt (productOfTrace [a, b]) → AllInt (productOfTrace [b, c]) →
      AllInt (productOfTrace [a * b, c]) → AllInt (productOfTrace [a, b * c]) →
      Groups [c] [a, b] ∨ Groups [a] [b, c] →
      ((a * b * c == a * (b * c)) = true ↔ Groups [c] [a, b] ∧ Groups [a] [b, c]) :=
  ⟨fun _ _ => same_productOf_append_iff, fun _ _ _ => same_mul_assoc_iff⟩

/-- The sum `x + 1`. -/
def successorX : Expr := .sum [.int 1, .dim (.root "x" .space)]

/-- Constants may be spread one after the other. -/
theorem products_regroup_constants :
    (productOf ([int 3] ++ [productOf [int 2, successorX]]) ==
      productOf ([int 3] ++ [int 2, successorX])) = true ∧
    (successorX * int 2 * int 3 == successorX * (int 2 * int 3)) = true := by
  obtain ⟨hiff, hassoc⟩ := products_regroup
  have hleft : Groups [int 3] [successorX, int 2] := fun _ => .inl rfl
  have hright : Groups [successorX] [int 2, int 3] := by
    rintro ⟨-, -, terms, hterms⟩
    cases hterms
  constructor
  · exact (hiff _ _ (by decide) (by decide) (by decide) (by decide)).mpr fun _ => .inl rfl
  · exact (hassoc _ _ _ (by decide) (by decide) (by decide) (by decide) (by decide)
      (.inl hleft)).mpr ⟨hleft, hright⟩

/-- The products `h*(2*(x + 1))` and `h*2*(x + 1)` differ: 2 is spread in the first one only. -/
theorem products_regroup_spread :
    let h := Expr.sym ⟨"h"⟩
    (∀ e ∈ [h] ++ [int 2, successorX], e.Canonical ∧ e.FloatFree) ∧
    AllInt (productOfTrace [int 2, successorX]) ∧
    AllInt (productOfTrace ([h] ++ [productOf [int 2, successorX]])) ∧
    AllInt (productOfTrace ([h] ++ [int 2, successorX])) ∧
    (productOf ([h] ++ [productOf [int 2, successorX]]) ==
      productOf ([h] ++ [int 2, successorX])) = false ∧
    (h * int 2 * successorX == h * (int 2 * successorX)) = false := by
  decide

end Expr

end GridAccess
