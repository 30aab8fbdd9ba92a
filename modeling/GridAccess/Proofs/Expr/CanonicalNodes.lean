import GridAccess.Proofs.Expr.Absence
import GridAccess.Proofs.Expr.Regular

/-!
Expressions that are canonical at every node, as folding would build them again. Without floats
their shape is known: the terms of a sum are not alike, and a product has an integer other than 0
and 1 in front or none. Such an expression is determined by its linear form.
-/

namespace GridAccess

namespace Expr

/-- A sum, product or power that is built from its operands again. -/
def isCanonicalNode : Expr → Bool
  | .sum terms => sumOf terms == .sum terms
  | .prod factors => productOf factors == .prod factors
  | .pow base exponent => power base exponent == .pow base exponent
  | _ => true

def Canonical (e : Expr) : Prop := AllNodes (fun n => n.isCanonicalNode = true) e

instance (e : Expr) : Decidable e.Canonical :=
  inferInstanceAs (Decidable (AllNodes (fun n => n.isCanonicalNode = true) e))

end Expr

/-! ### Products -/

namespace Monomial

namespace Proper

variable {m : Monomial}

/-- The coefficient and the factors decide. -/
theorem of_perm {m' : Monomial} (h : m.Proper) (hcoefficient : m'.coefficient = m.coefficient)
    (hfactors : m'.factors.Perm m.factors) : m'.Proper where
  isInt := hcoefficient ▸ h.isInt
  isZero := hcoefficient ▸ h.isZero
  factors_ne_nil := fun hnil => h.factors_ne_nil (hnil ▸ hfactors).nil_eq.symm
  isFactor a ha := h.isFactor a (hfactors.mem_iff.mp ha)
  factors_ne_sum := fun terms hsum => h.factors_ne_sum terms (hsum ▸ hfactors).symm.eq_singleton

theorem term_of_cofactors_eq (h : m.Proper) {e : Expr}
    (hcofactors : e.cofactors = Ascending.sort m.factors)
    (hliterals : e.factors.filterMap Expr.literal? = [] ∨
      e.factors.filterMap Expr.literal? = [m.coefficient]) : e.Term := by
  have hperm := Ascending.sort_perm m.factors
  refine ⟨?_, ?_, ?_⟩
  · rw [hcofactors]
    intro hnil
    rw [hnil] at hperm
    exact h.factors_ne_nil hperm.nil_eq.symm
  · intro terms hsum
    rw [← hcofactors, hsum] at hperm
    exact h.factors_ne_sum terms hperm.symm.eq_singleton
  · obtain ⟨n, hn⟩ := Literal.exists_of_isInt h.isInt
    have hne : n ≠ 0 := by simpa [hn, Literal.isZero] using h.isZero
    exact hliterals.imp_right fun hliteral => ⟨n, hne, hn ▸ hliteral⟩

theorem literals_toExpr (h : m.Proper) :
    m.toExpr.factors.filterMap Expr.literal? = [] ∨
      m.toExpr.factors.filterMap Expr.literal? = [m.coefficient] := by
  rcases h.toExpr_cases with ⟨-, heq⟩ | ⟨-, heq⟩
  · rw [heq]
    exact .inl (Expr.literals_powerProduct h.factors_ne_nil h.isFactor)
  · rw [heq]
    exact .inr (congrArg (m.coefficient :: ·)
      (Expr.literals_prod_of_isFactor (Expr.isFactor_of_mem_sort h.isFactor)))

theorem term (h : m.Proper) : m.toExpr.Term :=
  h.term_of_cofactors_eq h.cofactors_toExpr h.literals_toExpr

theorem coefficient_toExpr (h : m.Proper) : m.toExpr.coefficient = m.coefficient.toInt := by
  rcases h.toExpr_cases with ⟨hone, heq⟩ | ⟨-, heq⟩
  · rw [heq, Expr.coefficient_powerProduct h.isFactor, hone]
    rfl
  · rw [heq, Expr.coefficient_lit_sort _ h.isFactor]

/-- Built again from the same coefficient and factors, a product has these. -/
theorem ofFactors_of_cofactors_eq (h : m.Proper) {fs : List Expr} (hterm : (Expr.prod fs).Term)
    (hcoefficient : (Expr.prod fs).coefficient = m.coefficient.toInt)
    (hcofactors : (Expr.prod fs).cofactors = Ascending.sort m.factors) :
    (ofFactors fs).coefficient = m.coefficient ∧ (ofFactors fs).factors.Perm m.factors := by
  constructor
  · refine Literal.eq_of_toInt_eq hterm.proper_ofFactors.isInt h.isInt ?_
    rw [toInt_ofFactors hterm.allInt_factorsTrace, hcoefficient]
  · rw [Expr.factors_ofFactors, hcofactors]
    exact (List.reverse_perm _).trans (Ascending.sort_perm _)

theorem ofFactors_lit_powerProduct (h : m.Proper) :
    (ofFactors [.lit m.coefficient, Expr.powerProduct m.factors]).coefficient = m.coefficient ∧
      (ofFactors [.lit m.coefficient, Expr.powerProduct m.factors]).factors.Perm m.factors := by
  have hcofactors : (Expr.prod [.lit m.coefficient, Expr.powerProduct m.factors]).cofactors =
      Ascending.sort m.factors := by
    simp [Expr.cofactors_powerProduct h.isFactor]
  have hliterals : (Expr.prod [.lit m.coefficient, Expr.powerProduct m.factors]).factors.filterMap
      Expr.literal? = [m.coefficient] := by
    rw [Expr.factors, Expr.factorsList_eq, List.flatMap_cons, List.flatMap_singleton,
      List.filterMap_append, Expr.literals_powerProduct h.factors_ne_nil h.isFactor]
    rfl
  refine h.ofFactors_of_cofactors_eq (h.term_of_cofactors_eq hcofactors (.inr hliterals))
    ?_ hcofactors
  simp [Expr.coefficient_powerProduct h.isFactor]

/-- A multiple of a key is a product. -/
theorem exists_scaled (h : m.Proper) :
    ∃ m' : Monomial, m'.toExpr = Collected.scaled (Expr.powerProduct m.factors) m.coefficient ∧
      m'.coefficient = m.coefficient ∧ m'.factors.Perm m.factors := by
  unfold Collected.scaled
  split
  · next hone =>
      rcases h.toExpr_cases with ⟨-, heq⟩ | ⟨hfalse, -⟩
      · exact ⟨m, heq, rfl, .refl _⟩
      · rw [hone] at hfalse
        cases hfalse
  · exact ⟨_, rfl, h.ofFactors_lit_powerProduct⟩

theorem same_scaled (h : m.Proper) :
    (Collected.scaled (Expr.powerProduct m.factors) m.coefficient).same m.toExpr = true := by
  obtain ⟨⟨c, as⟩, hscaled, rfl, hfactors⟩ := h.exists_scaled
  rw [← hscaled]
  exact same_toExpr_of_perm _ (hfactors.map _)

/-- As the only factor a product is built again. -/
theorem same_productOf (h : m.Proper) : (Expr.productOf [m.toExpr]).same m.toExpr = true := by
  have hcofactors : (Expr.prod [m.toExpr]).cofactors = Ascending.sort m.factors := by
    simp [h.cofactors_toExpr]
  have hterm : (Expr.prod [m.toExpr]).Term := by
    refine h.term_of_cofactors_eq hcofactors ?_
    simpa [Expr.factors, Expr.factorsList_eq] using h.literals_toExpr
  have hbuilt := h.ofFactors_of_cofactors_eq hterm (by simp [h.coefficient_toExpr]) hcofactors
  rw [Expr.productOf, Folding.product_ofDepth hterm.cofactors_ne_sum]
  generalize ofFactors [m.toExpr] = m' at hbuilt
  obtain ⟨c, as⟩ := m'
  obtain ⟨rfl, hfactors⟩ := hbuilt
  exact same_toExpr_of_perm _ (hfactors.map _)

end Proper

end Monomial

namespace Expr

theorem exists_proper_of_prod {fs : List Expr} (hcanonical : (prod fs).Canonical)
    (hfloat : (prod fs).FloatFree) : ∃ m : Monomial, m.Proper ∧ m.toExpr = .prod fs := by
  have hproduct : prod fs = productOf fs := hfloat.eq_of_same (same_symm hcanonical.self)
  have hlayered := (Folding.Flattens.ofDepth (sumDepthList fs)).product
    (unfolds_of_sumDepth_le (e := prod fs) (by simp [sumDepth]))
  have hsum : ∀ terms, (prod fs).cofactors ≠ [.sum terms] := by
    rcases hlayered.shape with hflat | ⟨terms, hterms⟩
    · rw [hproduct]
      exact Flat.cofactors_ne_sum hflat
    · cases hproduct.trans hterms
  have hmonomial : prod fs = (Monomial.ofFactors fs).toExpr :=
    hproduct.trans (Folding.product_ofDepth hsum)
  have hfactors : ∀ terms, (Monomial.ofFactors fs).factors ≠ [.sum terms] :=
    fun terms heq => hsum terms (ofFactors_eq_iff.mp heq)
  have hisFactor : ∀ a ∈ (Monomial.ofFactors fs).factors, a.isFactor = true :=
    isFactor_of_mem_ofFactors
  generalize Monomial.ofFactors fs = m at hmonomial hfactors hisFactor
  obtain ⟨c, as⟩ := m
  have hne : as ≠ [] := by
    rintro rfl
    unfold Monomial.toExpr at hmonomial
    split at hmonomial
    · cases hmonomial
    · split at hmonomial <;> cases hmonomial
  rcases Monomial.toExpr_cases c hne with ⟨-, heq⟩ | ⟨-, heq⟩ | heq
  · cases hmonomial.trans heq
  · exact ⟨⟨.int 1, as⟩, ⟨rfl, rfl, hne, hisFactor, hfactors⟩, (hmonomial.trans heq).symm⟩
  · obtain rfl := prod.inj (hmonomial.trans heq)
    have hc := (hfloat.of_mem_children (c := .lit c) List.mem_cons_self).self
    refine ⟨⟨c, as⟩, ⟨by simpa [isFloat] using hc, ?_, hne, hisFactor, hfactors⟩, heq⟩
    rw [Bool.eq_false_iff]
    intro hzero
    rw [Monomial.toExpr, if_pos hzero] at heq
    cases heq

/-- What is neither a literal nor a sum is a multiple of a product of factors. -/
theorem exists_proper {e : Expr} (hcanonical : e.Canonical) (hfloat : e.FloatFree)
    (hliteral : e.literal? = none) (hsum : ∀ terms, e ≠ .sum terms) :
    ∃ m : Monomial, m.Proper ∧ m.toExpr = e := by
  have hfactor (hfactor : e.isFactor = true) : ∃ m : Monomial, m.Proper ∧ m.toExpr = e :=
    ⟨⟨.int 1, [e]⟩, ⟨rfl, rfl, by simp, by simpa using hfactor, by simpa using hsum⟩, rfl⟩
  cases e with
  | lit n => cases hliteral
  | prod fs => exact exists_proper_of_prod hcanonical hfloat
  | _ => exact hfactor rfl

/-! ### Sums -/

theorem exists_collected_of_sum {ts : List Expr} (hcanonical : (sum ts).Canonical)
    (hfloat : (sum ts).FloatFree) :
    Tidy (Collected.ofTerms (ts.reverse.flatMap
      (Folding.ofDepth (sumDepthList ts)).terms)).coefficients ∧
    ts = Ascending.sort (Collected.ofTerms (ts.reverse.flatMap
      (Folding.ofDepth (sumDepthList ts)).terms)).terms ∧ 2 ≤ ts.length := by
  have htidy := (Folding.Flattens.ofDepth (sumDepthList ts)).tidy_sum fun t ht =>
    unfolds_of_sumDepth_le (sumDepthList_le_iff.mp le_rfl t ht)
  have hsum : sum ts = Collected.toExpr (.ofTerms (ts.reverse.flatMap
      (Folding.ofDepth (sumDepthList ts)).terms)) :=
    hfloat.eq_of_same (same_symm hcanonical.self)
  refine ⟨htidy, ?_⟩
  have hterms := Collected.flat_of_mem_terms htidy
  unfold Collected.toExpr at hsum
  split at hsum
  · cases hsum
  · next e heq =>
      have hflat := hterms e (by simp [heq])
      exact (ne_sum_of_cofactors_ne (Flat.cofactors_ne_sum hflat) ts hsum.symm).elim
  · next hne hne' =>
      have hsort := sum.inj hsum
      refine ⟨hsort, ?_⟩
      rw [hsort, Ascending.length_sort]
      match hterms : Collected.terms _ with
      | [] => exact (hne hterms).elim
      | [e] => exact (hne' e hterms).elim
      | _ :: _ :: _ => simp

theorem IsKey.key_eq {k : Expr} (h : k.IsKey) : k.key = k.toClass := by
  obtain ⟨as, -, has, -, rfl⟩ := h
  rw [key, cofactors_powerProduct has]
  exact toClass_eq_iff.mpr (same_powerProduct ((Ascending.sort_perm as).map _))

/-- A multiple of a key that is no literal has the key. -/
theorem key_scaled {k : Expr} (h : k.IsKey) {n : Literal}
    (hliteral : (Collected.scaled k n).literal? = none) :
    (Collected.scaled k n).key = k.toClass := by
  unfold Collected.scaled at hliteral ⊢
  split
  · exact h.key_eq
  · next hone =>
      rw [if_neg hone] at hliteral
      have hfactors : (Monomial.ofFactors [.lit n, k]).factors.Perm k.cofactors := by
        rw [factors_ofFactors, cofactors_prod, List.flatMap_cons, List.flatMap_singleton]
        exact List.reverse_perm _
      have hisFactor : ∀ a ∈ (Monomial.ofFactors [.lit n, k]).factors, a.isFactor = true :=
        isFactor_of_mem_ofFactors
      rw [← h.key_eq]
      refine key_of_cofactors_perm (.trans ?_ hfactors)
      have hsorted := Ascending.sort_perm (Monomial.ofFactors [.lit n, k]).factors
      have hne : (Monomial.ofFactors [.lit n, k]).factors ≠ [] := by
        intro hnil
        rw [hnil] at hfactors
        exact h.cofactors_ne_nil hfactors.nil_eq.symm
      generalize Monomial.ofFactors [.lit n, k] = m at *
      rcases Monomial.toExpr_cases m.coefficient hne with ⟨-, heq⟩ | ⟨-, heq⟩ | heq
      · rw [heq] at hliteral
        cases hliteral
      · rw [heq, cofactors_powerProduct hisFactor]
        exact hsorted
      · rw [heq, cofactors_lit_sort _ hisFactor]
        exact hsorted

end Expr

/-- There are no more coefficients than terms that are no literals. -/
theorem Collected.length_coefficients_foldl_plus_le (c : Collected) (es : List Expr) :
    (es.foldl plus c).coefficients.length ≤
      c.coefficients.length + (es.filter fun e => !e.isLiteral).length := by
  induction es generalizing c with
  | nil => simp
  | cons e es ih =>
      refine (ih (c.plus e)).trans ?_
      cases hliteral : e.literal? with
      | some n =>
          obtain rfl := Expr.eq_lit_of_literal? hliteral
          simp [plus, Expr.isLiteral, hliteral]
      | none =>
          rw [plus_of_literal?_eq_none c hliteral,
            List.filter_cons_of_pos (by simp [Expr.isLiteral, hliteral]), List.length_cons]
          have hlength := Ascending.length_adjust_le e.splitCoefficient.2 (.int 0)
            (·.add e.splitCoefficient.1) c.coefficients
          show (Ascending.adjust _ _ _ c.coefficients).length + _ ≤ _
          omega

namespace Expr

theorem term_of_canonical {t : Expr} (hcanonical : t.Canonical) (hfloat : t.FloatFree)
    (hsum : ∀ terms, t ≠ .sum terms) : (∃ n : Int64, t = .int n) ∨ t.Term := by
  cases hliteral : t.literal? with
  | some n =>
      obtain rfl := eq_lit_of_literal? hliteral
      obtain ⟨k, rfl⟩ := Literal.exists_of_isInt (m := n) (by simpa [isFloat] using hfloat.self)
      exact .inl ⟨k, rfl⟩
  | none =>
      obtain ⟨m, hproper, rfl⟩ := exists_proper hcanonical hfloat hliteral hsum
      exact .inr hproper.term

/-- Literals contribute literals, terms contribute terms. -/
theorem length_filter_terms {n : Nat} {ts : List Expr}
    (h : ∀ t ∈ ts, (∃ n : Int64, t = .int n) ∨ t.Term) :
    ((ts.flatMap (Folding.ofDepth n).terms).filter fun t => !t.isLiteral).length =
      (ts.filter fun t => !t.isLiteral).length := by
  induction ts with
  | nil => rfl
  | cons t ts ih =>
      obtain ⟨ht, hts⟩ := List.forall_mem_cons.mp h
      rw [List.flatMap_cons, List.filter_append, List.length_append, ih hts]
      rcases ht with ⟨k, rfl⟩ | ht
      · rw [int, Folding.terms_ofDepth_lit]
        simp [isLiteral, literal?]
      · obtain ⟨t', hterms, hliteral, -⟩ := ht.exists_terms_eq n
        have hliteral' := literal?_of_cofactors_ne_nil ht.cofactors_ne_nil
        simp [hterms, isLiteral, hliteral, hliteral', Nat.add_comm]

theorem nodup_keys_terms {c : Collected} (h : Tidy c.coefficients) :
    ((c.terms.filter fun t => !t.isLiteral).map key).Nodup := by
  let scaled (entry : Expr × Literal) : Expr := Collected.scaled entry.1 entry.2
  have hterms : c.terms.filter (fun t => !t.isLiteral) =
      (c.remaining.filter fun entry => !(scaled entry).isLiteral).map scaled := by
    rw [Collected.terms, List.filter_append, List.filter_map]
    split <;> simp [isLiteral, literal?, Collected.remaining, scaled, Function.comp_def]
  have hkeys : ∀ entry ∈ c.remaining.filter fun entry => !(scaled entry).isLiteral,
      key (scaled entry) = entry.1.toClass := by
    intro entry hentry
    obtain ⟨hmem, hliteral⟩ := List.mem_filter.mp hentry
    refine key_scaled (h.keys entry (List.mem_of_mem_filter hmem)) ?_
    simpa [isLiteral] using hliteral
  rw [hterms, List.map_map, List.map_congr_left (g := fun entry => entry.1.toClass) hkeys]
  have hsublist := (List.filter_sublist (p := fun entry => !(scaled entry).isLiteral)).trans
    (List.filter_sublist (p := fun entry : Expr × Literal => !entry.2.isZero)
      (l := c.coefficients))
  refine (hsublist.map _).nodup ?_
  simpa [classes, Function.comp_def] using h.strict.nodup

/-- No two terms of a canonical sum are alike. -/
theorem regular_of_canonical_sum {ts : List Expr} (hcanonical : (sum ts).Canonical)
    (hfloat : (sum ts).FloatFree) : Regular ts := by
  obtain ⟨htidy, hsorted, -⟩ := exists_collected_of_sum hcanonical hfloat
  have hlength := Collected.length_coefficients_foldl_plus_le ⟨.int 0, []⟩
    (ts.reverse.flatMap (Folding.ofDepth (sumDepthList ts)).terms)
  rw [← Collected.ofTerms] at hlength
  generalize hc : Collected.ofTerms (ts.reverse.flatMap
    (Folding.ofDepth (sumDepthList ts)).terms) = c at htidy hsorted hlength
  have hperm : ts.Perm c.terms := hsorted ▸ Ascending.sort_perm c.terms
  have hshape : ∀ t ∈ ts, (∃ n : Int64, t = .int n) ∨ t.Term := by
    intro t ht
    have hflat := Collected.flat_of_mem_terms htidy t (hperm.mem_iff.mp ht)
    exact term_of_canonical (hcanonical.of_mem_children ht) (hfloat.of_mem_children ht)
      (ne_sum_of_cofactors_ne (Flat.cofactors_ne_sum hflat))
  refine ⟨hshape, ?_, ?_⟩
  · rw [length_filter_terms fun t ht => hshape t (List.mem_reverse.mp ht),
      List.filter_reverse, List.length_reverse, List.length_nil, Nat.zero_add] at hlength
    have hsplit := List.length_eq_length_filter_add (l := ts) isLiteral
    have hterms : c.terms.length ≤ c.coefficients.length + 1 := by
      have hfilter := List.length_filter_le (fun entry => !entry.2.isZero) c.coefficients
      rw [Collected.terms, List.length_append, List.length_map]
      split <;> simp only [List.length_nil, List.length_singleton] <;> omega
    have hlengths := hperm.length_eq
    omega
  · exact ((hperm.filter _).map key).nodup_iff.mpr (nodup_keys_terms htidy)

theorem regular_summands {e : Expr} (hcanonical : e.Canonical) (hfloat : e.FloatFree) :
    Regular e.summands := by
  have hsingle (hsum : ∀ terms, e ≠ .sum terms) : Regular [e] := by
    refine ⟨?_, List.length_filter_le _ _, List.Nodup.sublist (List.filter_sublist.map _) (by simp)⟩
    simpa using term_of_canonical hcanonical hfloat hsum
  cases e with
  | sum ts => exact regular_of_canonical_sum hcanonical hfloat
  | _ => exact hsingle (by simp)

end Expr

/-! ### Normal forms -/

namespace Collected

open GridAccess.Expr (forms Tidy)

/-- The sum denotes what the expression does, and is the expression. -/
structure IsFormOf (c : Collected) (e : Expr) : Prop where
  same : c.toExpr.same e = true
  tidy : Tidy c.coefficients
  allInt : AllInt c.literals
  form : forms.collected c = e.form

theorem IsFormOf.same_of_form_eq {c d : Collected} {a b : Expr} (hc : c.IsFormOf a)
    (hd : d.IsFormOf b) (h : a.form = b.form) : a.same b = true := by
  have hsame := same_toExpr hc.tidy hd.tidy hc.allInt hd.allInt
    (hc.form.trans (h.trans hd.form.symm))
  exact Expr.same_trans (Expr.same_symm hc.same) (Expr.same_trans hsame hd.same)

end Collected

namespace Expr

open Collected (IsFormOf)

theorem isFormOf_int (n : Int64) : IsFormOf ⟨.int n, []⟩ (int n) where
  same := by
    by_cases hzero : n = 0
    · subst hzero
      rfl
    · have hisZero : (Literal.int n).isZero = false := by simpa [Literal.isZero] using hzero
      have hterms : (Collected.mk (.int n) []).terms = [.int n] := by
        simp [Collected.terms, hisZero, int]
      rw [Collected.toExpr, hterms]
      exact same_refl _
  tidy := Tidy.nil
  allInt := by simp [AllInt, Collected.literals]
  form := by
    rw [Reading.collected, Reading.table_nil, add_zero]
    exact (Reading.value_lit (r := forms) (.int n)).symm

theorem isFormOf_toExpr {m : Monomial} (h : m.Proper) :
    IsFormOf ⟨.int 0, [(powerProduct m.factors, m.coefficient)]⟩ m.toExpr where
  same := by
    have hzero : (Literal.int 0).isZero = true := rfl
    have hterms : (Collected.mk (.int 0) [(powerProduct m.factors, m.coefficient)]).terms =
        [Collected.scaled (powerProduct m.factors) m.coefficient] := by
      simp [Collected.terms, h.isZero, hzero]
    rw [Collected.toExpr, hterms]
    exact h.same_scaled
  tidy := Tidy.nil.adjust ⟨m.factors, h.factors_ne_nil, h.isFactor, h.factors_ne_sum, rfl⟩
    m.coefficient id
  allInt := by simpa [AllInt, Collected.literals] using h.isInt
  form := by
    show _ = forms.value m.toExpr
    rw [Reading.value_monomial h.isInt h.isFactor, Reading.collected, Reading.table_cons,
      Reading.table_nil]
    simp

/-- A canonical expression without floats is the sum that its linear form stands for. -/
theorem exists_isFormOf {e : Expr} (hcanonical : e.Canonical) (hfloat : e.FloatFree) :
    ∃ c : Collected, c.IsFormOf e := by
  by_cases hsum : ∃ ts, e = .sum ts
  · obtain ⟨ts, rfl⟩ := hsum
    have hregular := regular_of_canonical_sum hcanonical hfloat
    obtain ⟨c, hc, htidy, hint, hform⟩ := exists_collected hregular.allInt_sumOfTrace
    exact ⟨c, hc ▸ hcanonical.self, htidy, hint, hform.trans (form_sum ts).symm⟩
  · cases hliteral : e.literal? with
    | some n =>
        obtain rfl := eq_lit_of_literal? hliteral
        obtain ⟨k, rfl⟩ := Literal.exists_of_isInt (m := n) (by simpa [isFloat] using hfloat.self)
        exact ⟨_, isFormOf_int k⟩
    | none =>
        obtain ⟨m, hproper, rfl⟩ := exists_proper hcanonical hfloat hliteral (not_exists.mp hsum)
        exact ⟨_, isFormOf_toExpr hproper⟩

/-- Canonical expressions with the same form are equal. -/
theorem same_of_form_eq {a b : Expr} (ha : a.Canonical) (hafloat : a.FloatFree)
    (hb : b.Canonical) (hbfloat : b.FloatFree) (h : a.form = b.form) : a.same b = true := by
  obtain ⟨c, hc⟩ := exists_isFormOf ha hafloat
  obtain ⟨d, hd⟩ := exists_isFormOf hb hbfloat
  exact hc.same_of_form_eq hd h

end Expr

end GridAccess
