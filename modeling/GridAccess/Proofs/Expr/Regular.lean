import GridAccess.Proofs.Expr.NormalForm

/-!
Sums in which no two terms are alike. Collecting their terms finds every key new, so that no
coefficient is added to another one, and nothing can overflow but the constant when another one is
added to it. The terms and their factors need not be in order.
-/

namespace GridAccess

/-! ### Neutral literals -/

namespace Literal

@[simp] theorem zero_add_int (n : Int64) : (int 0).add (.int n) = .int n := by
  simp [add, combine, wordOf?_toInt]

@[simp] theorem one_mul_int (n : Int64) : (int 1).mul (.int n) = .int n := by
  simp [mul, combine, wordOf?_toInt]

end Literal

/-! ### Products with at most one literal -/

namespace Monomial

theorem allInt_trace {m : Monomial} {es : List Expr} (hm : m.coefficient.isInt = true)
    (h : es.filterMap Expr.literal? = [] ∨
      m.coefficient = .int 1 ∧ ∃ n : Int64, es.filterMap Expr.literal? = [.int n]) :
    AllInt (m.trace es) := by
  induction es generalizing m with
  | nil => simp [trace, AllInt]
  | cons e es ih =>
      cases he : e.literal? with
      | none =>
          rw [List.filterMap_cons_none he] at h
          refine List.forall_mem_cons.mpr ?_
          rw [times_of_literal?_eq_none m he]
          exact ⟨hm, ih hm h⟩
      | some k =>
          rw [List.filterMap_cons_some he] at h
          rcases h with h | ⟨hone, n, h⟩
          · cases h
          · obtain ⟨rfl, hrest⟩ := List.cons.inj h
            obtain rfl := Expr.eq_lit_of_literal? he
            have hcoefficient : (m.times (.lit (.int n))).coefficient = .int n := by
              rw [times, hone, Literal.one_mul_int]
            refine List.forall_mem_cons.mpr ⟨by rw [hcoefficient]; rfl, ?_⟩
            exact ih (by rw [hcoefficient]; rfl) (.inl hrest)

theorem allInt_factorsTrace {fs : List Expr}
    (h : (Expr.factorsList fs).filterMap Expr.literal? = [] ∨
      ∃ n : Int64, (Expr.factorsList fs).filterMap Expr.literal? = [.int n]) :
    AllInt (factorsTrace fs) := by
  refine allInt_trace rfl ?_
  rw [List.filterMap_reverse]
  rcases h with h | ⟨n, h⟩
  · exact .inl (by rw [h, List.reverse_nil])
  · exact .inr ⟨rfl, n, by rw [h, List.reverse_singleton]⟩

theorem spread?_ofFactors_eq_none {fs : List Expr}
    (h : ∀ terms, (Expr.prod fs).cofactors ≠ [.sum terms]) : (ofFactors fs).spread? = none := by
  cases hspread : (ofFactors fs).spread? with
  | none => rfl
  | some terms =>
      have hfactors := (spread?_eq_some_iff.mp hspread).2
      exact (h terms (Expr.ofFactors_eq_iff.mp hfactors)).elim

/-- An integer other than 0 times factors that are not just one sum. -/
structure Proper (m : Monomial) : Prop where
  isInt : m.coefficient.isInt = true
  isZero : m.coefficient.isZero = false
  factors_ne_nil : m.factors ≠ []
  isFactor : ∀ a ∈ m.factors, a.isFactor = true
  factors_ne_sum : ∀ terms, m.factors ≠ [.sum terms]

end Monomial

namespace Expr

/-! ### Terms -/

/-- The terms of a sum, or the expression as the only one. -/
def summands : Expr → List Expr
  | .sum terms => terms
  | e => [e]

/-- What a term is collected under. -/
def key (t : Expr) : Class := (powerProduct t.cofactors).toClass

/-- A product that is not just a sum, with an integer other than 0 in it or without literals. -/
structure Term (t : Expr) : Prop where
  cofactors_ne_nil : t.cofactors ≠ []
  cofactors_ne_sum : ∀ terms, t.cofactors ≠ [.sum terms]
  literals : t.factors.filterMap literal? = [] ∨
    ∃ n : Int64, n ≠ 0 ∧ t.factors.filterMap literal? = [.int n]

/-- Terms with different keys, and at most one integer. -/
structure Regular (ts : List Expr) : Prop where
  shape : ∀ t ∈ ts, (∃ n : Int64, t = .int n) ∨ t.Term
  literals : (ts.filter isLiteral).length ≤ 1
  keys : ((ts.filter fun t => !t.isLiteral).map key).Nodup

theorem literal?_of_cofactors_ne_nil {e : Expr} (h : e.cofactors ≠ []) : e.literal? = none := by
  cases e with
  | lit n => exact (h rfl).elim
  | _ => rfl

theorem Term.isLiteral {t : Expr} (h : t.Term) : t.isLiteral = false := by
  simp [Expr.isLiteral, literal?_of_cofactors_ne_nil h.cofactors_ne_nil]

theorem Term.key_mem {t : Expr} (h : t.Term) {ts : List Expr} (ht : t ∈ ts) :
    t.key ∈ (ts.filter fun t => !t.isLiteral).map key :=
  List.mem_map_of_mem (by simp [ht, h.isLiteral])

theorem key_of_cofactors_perm {a b : Expr} (h : a.cofactors.Perm b.cofactors) : a.key = b.key :=
  toClass_eq_iff.mpr (same_powerProduct (h.map _))

theorem cofactors_lit_sort (n : Literal) {as : List Expr} (has : ∀ a ∈ as, a.isFactor = true) :
    (prod (.lit n :: Ascending.sort as)).cofactors = Ascending.sort as := by
  rw [cofactors_prod, List.flatMap_cons, cofactors_lit, List.nil_append, ← cofactors_prod,
    cofactors_prod_of_isFactor (isFactor_of_mem_sort has)]

theorem coefficient_lit_sort (n : Literal) {as : List Expr} (has : ∀ a ∈ as, a.isFactor = true) :
    (prod (.lit n :: Ascending.sort as)).coefficient = n.toInt := by
  have hsorted := coefficient_prod_of_isFactor (isFactor_of_mem_sort has)
  rw [coefficient_prod] at hsorted
  rw [coefficient_prod, List.map_cons, List.prod_cons, hsorted, mul_one, coefficient_lit]

theorem literals_prod_of_isFactor {as : List Expr} (has : ∀ a ∈ as, a.isFactor = true) :
    (prod as).factors.filterMap literal? = [] := by
  rw [factors, factorsList_eq, List.flatMap_congr fun a ha => factors_of_isFactor (has a ha)]
  simpa [List.filterMap_eq_nil_iff] using fun a ha => literal?_of_isFactor (has a ha)

theorem literals_powerProduct {as : List Expr} (hne : as ≠ [])
    (has : ∀ a ∈ as, a.isFactor = true) : (powerProduct as).factors.filterMap literal? = [] := by
  match as with
  | [] => exact (hne rfl).elim
  | [a] =>
      have ha := has a List.mem_cons_self
      rw [powerProduct_singleton, factors_of_isFactor ha,
        List.filterMap_cons_none (literal?_of_isFactor ha), List.filterMap_nil]
  | a :: b :: as => exact literals_prod_of_isFactor (isFactor_of_mem_sort has)

theorem ne_sum_of_cofactors_ne {e : Expr} (h : ∀ terms, e.cofactors ≠ [.sum terms])
    (terms : List Expr) : e ≠ .sum terms := by
  rintro rfl
  exact h terms (cofactors_of_isFactor rfl)

theorem Term.allInt_factorsTrace {fs : List Expr} (h : (prod fs).Term) :
    AllInt (Monomial.factorsTrace fs) :=
  Monomial.allInt_factorsTrace (h.literals.imp_right fun ⟨n, _, hn⟩ => ⟨n, hn⟩)

theorem Term.proper_ofFactors {fs : List Expr} (h : (prod fs).Term) :
    (Monomial.ofFactors fs).Proper := by
  have hint := h.allInt_factorsTrace
  have hcoefficient : (prod fs).coefficient ≠ 0 := by
    rw [coefficient]
    rcases h.literals with hnone | ⟨n, hne, hn⟩
    · simp [hnone]
    · simpa [hn, ← Int64.toInt_inj] using hne
  refine ⟨Monomial.isInt_ofFactors hint, ?_, ?_, isFactor_of_mem_ofFactors, ?_⟩
  · rw [Bool.eq_false_iff]
    intro hzero
    rw [← Monomial.toInt_ofFactors hint] at hcoefficient
    exact hcoefficient (Literal.toInt_of_isZero hzero)
  · rw [factors_ofFactors]
    simpa using h.cofactors_ne_nil
  · exact fun terms heq => h.cofactors_ne_sum terms (ofFactors_eq_iff.mp heq)

end Expr

namespace Monomial.Proper

variable {m : Monomial}

theorem toExpr_cases (h : m.Proper) :
    m.coefficient = .int 1 ∧ m.toExpr = Expr.powerProduct m.factors ∨
      m.coefficient.isOne = false ∧
        m.toExpr = .prod (.lit m.coefficient :: Ascending.sort m.factors) := by
  obtain ⟨a, as, hfactors⟩ := List.exists_cons_of_ne_nil h.factors_ne_nil
  cases hone : m.coefficient.isOne with
  | true =>
      have hcoefficient : m.coefficient = .int 1 :=
        Literal.eq_of_toInt_eq h.isInt rfl (Literal.toInt_of_isOne h.isInt hone)
      have hm : m = ⟨.int 1, m.factors⟩ := by rw [← hcoefficient]
      exact .inl ⟨hcoefficient, congrArg toExpr hm⟩
  | false =>
      refine .inr ⟨rfl, ?_⟩
      rw [toExpr, h.isZero, hone, hfactors]
      rfl

theorem cofactors_toExpr (h : m.Proper) : m.toExpr.cofactors = Ascending.sort m.factors := by
  rcases h.toExpr_cases with ⟨-, heq⟩ | ⟨-, heq⟩
  · rw [heq, Expr.cofactors_powerProduct h.isFactor]
  · rw [heq, Expr.cofactors_lit_sort _ h.isFactor]

theorem splitCoefficient_toExpr (h : m.Proper) :
    m.toExpr.splitCoefficient = (m.coefficient, Expr.powerProduct m.factors) := by
  rcases h.toExpr_cases with ⟨hone, heq⟩ | ⟨-, heq⟩
  · rw [heq, Expr.splitCoefficient_powerProduct h.isFactor, hone]
  · rw [heq, Expr.splitCoefficient_lit_sort _ h.factors_ne_nil]

end Monomial.Proper

/-! ### What a term contributes -/

namespace Folding

theorem product_ofDepth_of_spread? {n : Nat} {fs : List Expr}
    (h : (Monomial.ofFactors fs).spread? = none) :
    (ofDepth n).product fs = (Monomial.ofFactors fs).toExpr := by
  cases n with
  | zero => rfl
  | succ n => simp only [ofDepth, next, h]

theorem product_ofDepth {n : Nat} {fs : List Expr}
    (h : ∀ terms, (Expr.prod fs).cofactors ≠ [.sum terms]) :
    (ofDepth n).product fs = (Monomial.ofFactors fs).toExpr :=
  product_ofDepth_of_spread? (Monomial.spread?_ofFactors_eq_none h)

theorem terms_ofDepth {n : Nat} {e : Expr}
    (h : ∀ terms, summand (ofDepth n).product e ≠ .sum terms) :
    (ofDepth n).terms e = [summand (ofDepth n).product e] := by
  cases n with
  | zero => rfl
  | succ n =>
      simp only [ofDepth, next] at h ⊢

theorem terms_ofDepth_lit (n : Nat) (k : Literal) : (ofDepth n).terms (.lit k) = [.lit k] :=
  terms_ofDepth fun _ heq => by cases heq

end Folding

namespace FoldingTrace

theorem product_ofDepth {n : Nat} {fs : List Expr}
    (h : ∀ terms, (Expr.prod fs).cofactors ≠ [.sum terms]) :
    (ofDepth n).product fs = Monomial.factorsTrace fs := by
  cases n with
  | zero => rfl
  | succ n =>
      simp only [ofDepth, next, Monomial.spread?_ofFactors_eq_none h, List.append_nil]

theorem terms_ofDepth {n : Nat} {e : Expr}
    (h : ∀ terms, Folding.summand (Folding.ofDepth n).product e ≠ .sum terms) :
    (ofDepth n).terms e = summand (ofDepth n).product e := by
  cases n with
  | zero => rfl
  | succ n =>
      simp only [ofDepth, next]
      split
      · next terms heq => exact (h terms heq).elim
      · rw [List.append_nil]

theorem terms_ofDepth_lit (n : Nat) (k : Literal) : (ofDepth n).terms (.lit k) = [] :=
  terms_ofDepth fun _ heq => by cases heq

end FoldingTrace

namespace Expr

/-- A term is no sum, also not after it has been multiplied out. -/
theorem Term.summand_ne_sum {t : Expr} (h : t.Term) (n : Nat) (terms : List Expr) :
    Folding.summand (Folding.ofDepth n).product t ≠ .sum terms := by
  cases t with
  | prod fs =>
      show (Folding.ofDepth n).product fs ≠ _
      rw [Folding.product_ofDepth h.cofactors_ne_sum]
      exact ne_sum_of_cofactors_ne (Flat.cofactors_ne_sum (flat_ofFactors h.cofactors_ne_sum)) terms
  | _ => exact ne_sum_of_cofactors_ne h.cofactors_ne_sum terms

/-- What a term contributes to a sum in any layer: itself, or the same product built again. -/
theorem Term.exists_terms_eq {t : Expr} (h : t.Term) (n : Nat) :
    ∃ t', (Folding.ofDepth n).terms t = [t'] ∧ t'.literal? = none ∧
      t'.splitCoefficient.1.isInt = true ∧ t'.splitCoefficient.2.toClass = t.key := by
  rw [Folding.terms_ofDepth (h.summand_ne_sum n)]
  refine ⟨_, rfl, ?_⟩
  have hfactor (hfactor : t.isFactor = true) : t.literal? = none ∧
      t.splitCoefficient.1.isInt = true ∧ t.splitCoefficient.2.toClass = t.key := by
    have hsplit : (powerProduct [t]).splitCoefficient = (.int 1, powerProduct [t]) :=
      splitCoefficient_powerProduct (by simpa using hfactor)
    rw [powerProduct_singleton] at hsplit
    rw [hsplit, key, cofactors_of_isFactor hfactor, powerProduct_singleton]
    exact ⟨literal?_of_isFactor hfactor, rfl, rfl⟩
  cases t with
  | lit n => exact (h.cofactors_ne_nil rfl).elim
  | prod fs =>
      have hproper := h.proper_ofFactors
      have hperm : (Monomial.ofFactors fs).factors.Perm (prod fs).cofactors := by
        rw [factors_ofFactors]
        exact List.reverse_perm _
      show ((Folding.ofDepth n).product fs).literal? = none ∧ _
      rw [Folding.summand, Folding.product_ofDepth h.cofactors_ne_sum,
        hproper.splitCoefficient_toExpr]
      refine ⟨literal?_of_cofactors_ne_nil ?_, hproper.isInt,
        toClass_eq_iff.mpr (same_powerProduct (hperm.map _))⟩
      rw [hproper.cofactors_toExpr]
      intro hnil
      have hsorted := (Ascending.sort_perm _).trans hperm
      rw [hnil] at hsorted
      exact h.cofactors_ne_nil hsorted.nil_eq.symm
  | _ => exact hfactor rfl

theorem Term.allInt_terms {t : Expr} (h : t.Term) (n : Nat) :
    AllInt ((FoldingTrace.ofDepth n).terms t) := by
  rw [FoldingTrace.terms_ofDepth (h.summand_ne_sum n)]
  cases t with
  | prod fs =>
      show AllInt ((FoldingTrace.ofDepth n).product fs)
      rw [FoldingTrace.product_ofDepth h.cofactors_ne_sum]
      exact h.allInt_factorsTrace
  | _ => simp [FoldingTrace.summand, AllInt]

end Expr

/-! ### Collecting new keys -/

namespace Collected

open GridAccess.Expr (classes classes_adjust Tidy)

/-- Under a new key the coefficient is added to zero. -/
theorem allInt_plus_of_new {c : Collected} {e : Expr} (hc : AllInt c.literals)
    (hliteral : e.literal? = none) (hint : e.splitCoefficient.1.isInt = true)
    (hnew : e.splitCoefficient.2.toClass ∉ (classes c.coefficients).map Prod.fst) :
    AllInt (c.plus e).literals := by
  obtain ⟨hconstant, hcoefficients⟩ := List.forall_mem_cons.mp hc
  rw [plus_of_literal?_eq_none c hliteral]
  refine List.forall_mem_cons.mpr ⟨hconstant, ?_⟩
  obtain ⟨k, hk⟩ := Literal.exists_of_isInt hint
  have hperm : (Ascending.adjust e.splitCoefficient.2.toClass (.int 0)
      (·.add e.splitCoefficient.1) (classes c.coefficients)).Perm
      ((e.splitCoefficient.2.toClass, (Literal.int 0).add e.splitCoefficient.1) ::
        classes c.coefficients) :=
    Ascending.adjust_perm (Ascending.get?_eq_none_iff.mpr hnew)
  rw [← classes_adjust] at hperm
  intro n hn
  have hn : n ∈ (classes (Ascending.adjust e.splitCoefficient.2 (.int 0)
      (·.add e.splitCoefficient.1) c.coefficients)).map Prod.snd := by
    simpa [classes] using hn
  rcases List.mem_cons.mp ((hperm.map Prod.snd).mem_iff.mp hn) with rfl | hn
  · show ((Literal.int 0).add e.splitCoefficient.1).isInt = true
    rw [hk, Literal.zero_add_int]
    rfl
  · exact hcoefficients n (by simpa [classes] using hn)

/-- Nothing is added to a coefficient, and at most one integer to the constant. -/
theorem allInt_trace_terms {n : Nat} {ts : List Expr} {c : Collected} (hc : AllInt c.literals)
    (hshape : ∀ t ∈ ts,
      (∃ k : Int64, t = .int k ∧ (c.constant.add (.int k)).isInt = true) ∨ t.Term)
    (hliterals : (ts.filter Expr.isLiteral).length ≤ 1)
    (hkeys : ((ts.filter fun t => !t.isLiteral).map Expr.key).Nodup)
    (hnew : ∀ t ∈ ts, t.Term → t.key ∉ (classes c.coefficients).map Prod.fst) :
    AllInt (c.trace (ts.flatMap (Folding.ofDepth n).terms)) := by
  induction ts generalizing c with
  | nil => simp [trace, AllInt]
  | cons t ts ih =>
      obtain ⟨ht, hts⟩ := List.forall_mem_cons.mp hshape
      obtain ⟨htnew, htsnew⟩ := List.forall_mem_cons.mp hnew
      rw [List.flatMap_cons]
      rcases ht with ⟨k, rfl, hk⟩ | ht
      · -- There is no other integer.
        rw [List.filter_cons_of_pos rfl, List.length_cons] at hliterals
        rw [List.filter_cons_of_neg (by simp [Expr.int, Expr.isLiteral, Expr.literal?])] at hkeys
        have hnone : ts.filter Expr.isLiteral = [] := by
          rw [← List.length_eq_zero_iff]
          omega
        have hplus : AllInt (c.plus (.int k)).literals :=
          List.forall_mem_cons.mpr ⟨hk, (List.forall_mem_cons.mp hc).2⟩
        rw [Expr.int, Folding.terms_ofDepth_lit]
        refine allInt_append.mpr ⟨hplus, ih hplus ?_ (by simp [hnone]) hkeys htsnew⟩
        intro t ht
        rcases hts t ht with ⟨j, rfl, -⟩ | hterm
        · exact (List.filter_eq_nil_iff.mp hnone _ ht rfl).elim
        · exact .inr hterm
      · obtain ⟨t', hterms, hliteral, hint, hkey⟩ := ht.exists_terms_eq n
        rw [List.filter_cons_of_neg (by simp [ht.isLiteral])] at hliterals
        rw [List.filter_cons_of_pos (by simp [ht.isLiteral]), List.map_cons] at hkeys
        obtain ⟨hfresh, hkeys⟩ := List.nodup_cons.mp hkeys
        have hplus := allInt_plus_of_new hc hliteral hint (hkey ▸ htnew ht)
        rw [hterms]
        refine allInt_append.mpr ⟨hplus, ih hplus ?_ hliterals hkeys ?_⟩
        · rw [plus_of_literal?_eq_none c hliteral]
          exact hts
        · intro u hu huterm
          rw [plus_of_literal?_eq_none c hliteral, classes_adjust, Ascending.keys_adjust,
            Ascending.mem_insert, not_or, hkey]
          exact ⟨fun heq => hfresh (heq ▸ huterm.key_mem hu), htsnew u hu huterm⟩

/-- The coefficients in front of the keys are multiplied by 1 only. -/
theorem allInt_termsTrace {c : Collected} (hc : AllInt c.literals) (h : Tidy c.coefficients) :
    AllInt c.termsTrace := by
  intro n hn
  obtain ⟨entry, hentry, hn⟩ := List.mem_flatMap.mp hn
  have hmem := List.mem_of_mem_filter hentry
  obtain ⟨k, hk⟩ := Literal.exists_of_isInt (hc _ (List.mem_cons_of_mem _
    (List.mem_map_of_mem (f := Prod.snd) hmem)))
  unfold scaledTrace at hn
  split at hn
  · cases hn
  · refine Monomial.allInt_factorsTrace (.inr ⟨k, ?_⟩) n hn
    obtain ⟨as, hne, has, -, hkey⟩ := h.keys entry hmem
    rw [hkey, hk, Expr.factorsList_eq, List.flatMap_cons, List.flatMap_singleton,
      List.filterMap_append, Expr.literals_powerProduct hne has]
    rfl

end Collected

namespace Expr

theorem allInt_sumOfTrace {terms : List Expr}
    (hterms : AllInt (terms.reverse.flatMap (FoldingTrace.ofDepth (sumDepthList terms)).terms))
    (htrace : AllInt ((Collected.mk (.int 0) []).trace
      (terms.reverse.flatMap (Folding.ofDepth (sumDepthList terms)).terms))) :
    AllInt (sumOfTrace terms) := by
  have htidy := (Folding.Flattens.ofDepth (sumDepthList terms)).tidy_sum fun t ht =>
    unfolds_of_sumDepth_le (sumDepthList_le_iff.mp le_rfl t ht)
  unfold sumOfTrace FoldingTrace.sum
  exact allInt_append.mpr ⟨allInt_append.mpr ⟨hterms, htrace⟩,
    Collected.allInt_termsTrace (Collected.allInt_ofTerms htrace) htidy⟩

/-- A sum contributes what its terms do in the layer below. -/
theorem terms_ofDepth_eq_summands {e : Expr} {n : Nat} (h : e.sumDepth ≤ n) :
    ∃ m, (Folding.ofDepth n).terms e = e.summands.reverse.flatMap (Folding.ofDepth m).terms ∧
      (FoldingTrace.ofDepth n).terms e =
        e.summands.reverse.flatMap (FoldingTrace.ofDepth m).terms := by
  cases e with
  | sum ts =>
      rw [sumDepth] at h
      obtain ⟨m, rfl⟩ := Nat.exists_eq_succ_of_ne_zero (Nat.ne_zero_of_lt h)
      exact ⟨m, rfl, rfl⟩
  | _ => exact ⟨n, by simp [summands], by simp [summands]⟩

namespace Regular

variable {ts : List Expr}

theorem of_perm {us : List Expr} (h : Regular ts) (hperm : us.Perm ts) : Regular us where
  shape t ht := h.shape t (hperm.mem_iff.mp ht)
  literals := by simpa only [(hperm.filter _).length_eq] using h.literals
  keys := ((hperm.filter _).map key).nodup_iff.mpr h.keys

theorem reverse (h : Regular ts) : Regular ts.reverse := h.of_perm (List.reverse_perm ts)

theorem allInt_terms (h : Regular ts) (n : Nat) :
    AllInt (ts.flatMap (FoldingTrace.ofDepth n).terms) := by
  refine List.forall_mem_flatMap.mpr fun t ht => ?_
  rcases h.shape t ht with ⟨k, rfl⟩ | hterm
  · rw [int, FoldingTrace.terms_ofDepth_lit]
    simp
  · exact hterm.allInt_terms n

theorem allInt_trace (h : Regular ts) {c : Literal} (hc : c.isInt = true)
    (hsum : ∀ k : Int64, .int k ∈ ts → (c.add (.int k)).isInt = true) (n : Nat) :
    AllInt ((Collected.mk c []).trace (ts.flatMap (Folding.ofDepth n).terms)) := by
  refine Collected.allInt_trace_terms (by simpa [AllInt, Collected.literals] using hc) ?_
    h.literals h.keys (by simp)
  intro t ht
  rcases h.shape t ht with ⟨k, hk⟩ | hterm
  · exact .inl ⟨k, hk, hsum k (hk ▸ ht)⟩
  · exact .inr hterm

/-- Nothing overflows in a sum of terms that are not alike. -/
theorem allInt_sumOfTrace (h : Regular ts) : AllInt (sumOfTrace ts) :=
  Expr.allInt_sumOfTrace (h.reverse.allInt_terms _)
    (h.reverse.allInt_trace rfl (fun k _ => by rw [Literal.zero_add_int]; rfl) _)

/-- Nothing overflows either when the whole sum is the only term. -/
theorem allInt_sumOfTrace_singleton {e : Expr} (h : Regular e.summands) :
    AllInt (sumOfTrace [e]) := by
  obtain ⟨m, hterms, htrace⟩ :=
    terms_ofDepth_eq_summands (e := e) (n := sumDepthList [e]) (by simp)
  refine Expr.allInt_sumOfTrace ?_ ?_
  · rw [List.reverse_singleton, List.flatMap_singleton, htrace]
    exact h.reverse.allInt_terms m
  · rw [List.reverse_singleton, List.flatMap_singleton, hterms]
    exact h.reverse.allInt_trace rfl (fun k _ => by rw [Literal.zero_add_int]; rfl) m

/-- Nothing overflows when an integer is added to such a sum, if the constant does not. -/
theorem allInt_sumOfTrace_pair {e : Expr} (h : Regular e.summands) {o : Int64}
    (ho : ∀ k : Int64, .int k ∈ e.summands → ((Literal.int o).add (.int k)).isInt = true) :
    AllInt (sumOfTrace [e, .int o]) := by
  have hdepth : e.sumDepth ≤ sumDepthList [e, .int o] := by simp
  have hreverse : [e, .int o].reverse = [.int o, e] := rfl
  obtain ⟨m, hterms, htrace⟩ := terms_ofDepth_eq_summands hdepth
  have hint (n : Nat) : (Folding.ofDepth n).terms (.int o) = [.int o] :=
    Folding.terms_ofDepth_lit n _
  have hintTrace (n : Nat) : (FoldingTrace.ofDepth n).terms (.int o) = [] :=
    FoldingTrace.terms_ofDepth_lit n _
  have hplus : (Collected.mk (.int 0) []).plus (.int o) = ⟨.int o, []⟩ := by
    simp [Collected.plus, int]
  refine Expr.allInt_sumOfTrace ?_ ?_
  · rw [hreverse, List.flatMap_cons, List.flatMap_singleton, hintTrace, htrace]
    exact h.reverse.allInt_terms m
  · rw [hreverse, List.flatMap_cons, List.flatMap_singleton, hint, hterms]
    refine allInt_append.mpr ⟨?_, ?_⟩
    · rw [hplus]
      simp [AllInt, Collected.literals]
    · rw [hplus]
      refine h.reverse.allInt_trace rfl (fun k hk => ho k ?_) m
      simpa using hk

end Regular

end Expr

end GridAccess
