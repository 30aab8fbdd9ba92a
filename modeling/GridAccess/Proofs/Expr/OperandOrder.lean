import GridAccess.Proofs.Except
import GridAccess.Proofs.Expr.AffinePolynomial
import GridAccess.Proofs.Expr.CanonicalAffine
import Mathlib.Algebra.MvPolynomial.NoZeroDivisors

/-!
Splitting an expression whose operands come in another order. Without powers and overflows a split
says which polynomial the expression is, and the order of the operands does not change the
polynomial: two orders that have a split have the same one. A product, however, is given up at the
second factor that is no constant, whether or not a factor that is zero comes later. Such products
are the only ones where the order decides whether there is a split.
-/

namespace GridAccess

theorem LinearForm.not_isConst_of_mul?_eq_none {f g : LinearForm} (h : f.mul? g = none) :
    f.isConst ≠ true ∧ g.isConst ≠ true := by
  unfold mul? at h
  split at h
  · cases h
  · next hf =>
      split at h
      · cases h
      · next hg => exact ⟨hf, hg⟩

theorem LinearForm.scale_one {f : LinearForm} (h : AllInt f.literals) : f.scale (.int 1) = f := by
  obtain ⟨terms, constant⟩ := f
  have hone {n : Literal} (hn : n ∈ (mk terms constant).literals) : n.mul (.int 1) = n := by
    obtain ⟨k, rfl⟩ := Literal.exists_of_isInt (h n hn)
    exact Literal.mul_one_int k
  have hterms : terms.map (fun term => (term.1, term.2.mul (.int 1))) = terms.map id :=
    List.map_congr_left fun term hterm => congrArg (Prod.mk term.1)
      (hone (List.mem_cons_of_mem _ (List.mem_map_of_mem hterm)))
  have hconstant : constant.mul (.int 1) = constant := hone List.mem_cons_self
  exact congrArg₂ mk (hterms.trans (List.map_id terms)) hconstant

namespace Expr

/-! ### Reordered expressions -/

/-- The same expression up to the order of the operands of sums and products. Uses of fields and
powers are left as they are. -/
inductive Reordered : Expr → Expr → Prop
  | refl (e : Expr) : Reordered e e
  | sum {ts us vs : List Expr} : List.Forall₂ Reordered ts us → us.Perm vs →
    Reordered (.sum ts) (.sum vs)
  | prod {fs gs hs : List Expr} : List.Forall₂ Reordered fs gs → gs.Perm hs →
    Reordered (.prod fs) (.prod hs)

theorem reorderedInduction {motive : Expr → Expr → Prop} (refl : ∀ e, motive e e)
    (sum : ∀ {ts us vs}, List.Forall₂ (fun t u => Reordered t u ∧ motive t u) ts us →
      us.Perm vs → motive (.sum ts) (.sum vs))
    (prod : ∀ {fs gs hs}, List.Forall₂ (fun f g => Reordered f g ∧ motive f g) fs gs →
      gs.Perm hs → motive (.prod fs) (.prod hs))
    {e e' : Expr} (h : Reordered e e') : motive e e' := by
  have hlist {es es' : List Expr} (ih : ∀ e ∈ es, ∀ e', Reordered e e' → motive e e')
      (h : List.Forall₂ Reordered es es') :
      List.Forall₂ (fun e e' => Reordered e e' ∧ motive e e') es es' :=
    ((List.forall₂_and_left es es').mpr ⟨ih, h⟩).imp fun e e' he => ⟨he.2, he.1 e' he.2⟩
  induction e generalizing e' with
  | lit | sym | dim | call | access | pow =>
      cases h
      exact refl _
  | sum ts ih =>
      cases h with
      | refl => exact refl _
      | sum hts hperm => exact sum (hlist (fun t ht u htu => ih t ht htu) hts) hperm
  | prod fs ih =>
      cases h with
      | refl => exact refl _
      | prod hfs hperm => exact prod (hlist (fun f hf g hfg => ih f hf hfg) hfs) hperm

/-- Each operand of the reordered expression comes from one of the operands. -/
theorem exists_mem_of_reordered {R : Expr → Expr → Prop} {ts us vs : List Expr}
    (h : List.Forall₂ R ts us) (hperm : us.Perm vs) : ∀ v ∈ vs, ∃ t ∈ ts, R t v :=
  fun v hv => exists_mem_of_forall₂ h.flip v (hperm.mem_iff.mpr hv)

theorem polynomials_perm {ts us vs : List Expr}
    (h : List.Forall₂ (fun t u : Expr => t.polynomial = u.polynomial) ts us)
    (hperm : us.Perm vs) : (ts.map polynomial).Perm (vs.map polynomial) := by
  rw [map_eq_map_iff_forall₂.mpr h]
  exact hperm.map _

theorem Reordered.polynomial_eq {e e' : Expr} (h : Reordered e e') :
    e.polynomial = e'.polynomial := by
  apply reorderedInduction (motive := fun e e' => e.polynomial = e'.polynomial) (h := h)
  case refl => exact fun _ => rfl
  case sum =>
    intro ts us vs h hperm
    rw [polynomial_sum, polynomial_sum]
    exact (polynomials_perm (h.imp fun _ _ => And.right) hperm).sum_eq
  case prod =>
    intro fs gs hs h hperm
    rw [polynomial_prod, polynomial_prod]
    exact (polynomials_perm (h.imp fun _ _ => And.right) hperm).prod_eq

theorem Reordered.allNodes {P : Expr → Prop} (hsum : ∀ terms, P (.sum terms))
    (hprod : ∀ factors, P (.prod factors)) {e e' : Expr} (h : Reordered e e') :
    AllNodes P e → AllNodes P e' := by
  have hoperands {ts us vs : List Expr}
      (h : List.Forall₂ (fun t u => Reordered t u ∧ (AllNodes P t → AllNodes P u)) ts us)
      (hperm : us.Perm vs) (hts : ∀ t ∈ ts, AllNodes P t) : ∀ v ∈ vs, AllNodes P v := by
    intro v hv
    obtain ⟨t, ht, -, htv⟩ := exists_mem_of_reordered h hperm v hv
    exact htv (hts t ht)
  apply reorderedInduction (motive := fun e e' => AllNodes P e → AllNodes P e') (h := h)
  case refl => exact fun _ => id
  case sum =>
    intro ts us vs h hperm he
    exact allNodes_sum.mpr ⟨hsum vs, hoperands h hperm (allNodes_sum.mp he).2⟩
  case prod =>
    intro fs gs hs h hperm he
    exact allNodes_prod.mpr ⟨hprod hs, hoperands h hperm (allNodes_prod.mp he).2⟩

theorem Exact.reordered {e e' : Expr} (he : e.Exact) (h : Reordered e e')
    (hint : AllInt e'.linearFormTrace) : e'.Exact where
  floatFree := h.allNodes (fun _ => rfl) (fun _ => rfl) he.floatFree
  powFree := h.allNodes (fun _ => rfl) (fun _ => rfl) he.powFree
  trace := hint

/-! ### Operands that cannot be combined -/

section

variable {combine : LinearForm → LinearForm → Option LinearForm} {total f : LinearForm}
  {es before after : List Expr} {e e' : Expr}

/-- All operands of what has a form have been looked at, and have one. -/
theorem operands_of_combined? (hint : AllInt (combinedTrace combine total es))
    (h : combined? combine total es = some f) :
    ∀ e ∈ es, AllInt e.linearFormTrace ∧ e.linearForm? ≠ none := by
  induction es generalizing total with
  | nil => simp
  | cons e es ih =>
      obtain ⟨next, hnext, h⟩ := Option.bind_eq_some_iff.mp h
      obtain ⟨g, hg, -⟩ := Option.bind_eq_some_iff.mp hnext
      simp only [combinedTrace, hnext, allInt_append] at hint
      exact List.forall_mem_cons.mpr ⟨⟨hint.1, by simp [hg]⟩, ih hint.2.2 h⟩

/-- Operands are given up at one without a form, or at one that cannot be combined with those
before it. -/
theorem exists_of_combined?_eq_none (hint : AllInt (combinedTrace combine total es))
    (h : combined? combine total es = none) : ∃ before e after g, es = before ++ e :: after ∧
      AllInt (combinedTrace combine total before) ∧ combined? combine total before = some g ∧
      AllInt e.linearFormTrace ∧ e.linearForm?.bind (combine g) = none := by
  induction es generalizing total with
  | nil => cases h
  | cons e es ih =>
      rw [combinedTrace, allInt_append] at hint
      cases hnext : e.linearForm?.bind (combine total) with
      | none =>
          have hnil : AllInt (combinedTrace combine total []) := by simp [combinedTrace, AllInt]
          exact ⟨[], e, es, total, rfl, hnil, rfl, hint.1, hnext⟩
      | some next =>
          have hstep {rest : List Expr} :
              combined? combine total (e :: rest) = combined? combine next rest := by
            rw [combined?, hnext, Option.bind_some]
          rw [hstep] at h
          simp only [hnext, allInt_append] at hint
          obtain ⟨before, u, after, g, rfl, hbefore, hg, hu, hnone⟩ := ih hint.2.2 h
          refine ⟨e :: before, u, after, g, rfl, ?_, hstep.trans hg, hu, hnone⟩
          simp only [combinedTrace, hnext, allInt_append]
          exact ⟨hint.1, hint.2.1, hbefore⟩

theorem combined?_eq_none_of_mem (h : e.linearForm? = none) :
    combined? combine total (before ++ e :: after) = none := by
  induction before generalizing total with
  | nil => rw [List.nil_append, combined?, h, Option.bind_none, Option.bind_none]
  | cons u before ih =>
      rw [List.cons_append, combined?, Option.bind_eq_none_iff]
      exact fun _ _ => ih

/-- After an operand without a form nothing more is computed. -/
theorem allInt_combinedTrace (h : AllInt (combinedTrace combine total (before ++ e :: after)))
    (hint : AllInt e'.linearFormTrace) (hnone : e'.linearForm? = none) :
    AllInt (combinedTrace combine total (before ++ e' :: after)) := by
  induction before generalizing total with
  | nil =>
      rw [List.nil_append, combinedTrace, hnone, Option.bind_none, List.append_nil]
      exact hint
  | cons u before ih =>
      rw [List.cons_append, combinedTrace, allInt_append] at h ⊢
      refine ⟨h.1, ?_⟩
      cases hnext : u.linearForm?.bind (combine total) with
      | none => simp [AllInt]
      | some next =>
          simp only [hnext, allInt_append] at h ⊢
          exact ⟨h.2.1, ih h.2.2⟩

end

/-! ### Products that are settled -/

/-- No factor is zero, or at most one is no constant. -/
def SettledProduct (factors : List (MvPolynomial Class Int)) : Prop :=
  0 ∉ factors ∨ factors.Pairwise fun p q => p.totalDegree = 0 ∨ q.totalDegree = 0

theorem SettledProduct.perm {ps qs : List (MvPolynomial Class Int)} (h : SettledProduct ps)
    (hperm : ps.Perm qs) : SettledProduct qs :=
  h.imp (fun hzero hmem => hzero (hperm.mem_iff.mpr hmem))
    fun hpairwise => hperm.pairwise hpairwise Or.symm

/-- All products outside of uses of fields are settled. -/
inductive Settled : Expr → Prop
  | lit (n : Literal) : Settled (.lit n)
  | atom {e : Expr} : e.isAtom = true → Settled e
  | sum {terms : List Expr} : (∀ t ∈ terms, Settled t) → Settled (.sum terms)
  | prod {factors : List Expr} : (∀ f ∈ factors, Settled f) →
    SettledProduct (factors.map polynomial) → Settled (.prod factors)

theorem settled_sum {terms : List Expr} : (sum terms).Settled ↔ ∀ t ∈ terms, t.Settled := by
  refine ⟨fun h => ?_, .sum⟩
  cases h with
  | atom h => cases h
  | sum h => exact h

theorem settled_prod {factors : List Expr} : (prod factors).Settled ↔
    (∀ f ∈ factors, f.Settled) ∧ SettledProduct (factors.map polynomial) := by
  refine ⟨fun h => ?_, fun h => .prod h.1 h.2⟩
  cases h with
  | atom h => cases h
  | prod hfs hproduct => exact ⟨hfs, hproduct⟩

/-- Two factors that are no constants make a product that is not linear, unless a factor is zero. -/
theorem two_le_totalDegree {ps qs : List (MvPolynomial Class Int)} {p : MvPolynomial Class Int}
    (hzero : 0 ∉ ps ++ p :: qs) (hps : ps.prod.totalDegree ≠ 0) (hp : p.totalDegree ≠ 0) :
    2 ≤ (ps ++ p :: qs).prod.totalDegree := by
  simp only [List.mem_append, List.mem_cons, not_or] at hzero
  obtain ⟨hpszero, hpzero, hqszero⟩ := hzero
  have hpqs : p * qs.prod ≠ 0 := mul_ne_zero (Ne.symm hpzero) (List.prod_ne_zero hqszero)
  rw [List.prod_append, List.prod_cons,
    MvPolynomial.totalDegree_mul_of_isDomain (List.prod_ne_zero hpszero) hpqs,
    MvPolynomial.totalDegree_mul_of_isDomain (Ne.symm hpzero) (List.prod_ne_zero hqszero)]
  omega

theorem not_pairwise_totalDegree {ps qs : List (MvPolynomial Class Int)}
    {p : MvPolynomial Class Int} (hps : ps.prod.totalDegree ≠ 0) (hp : p.totalDegree ≠ 0) :
    ¬ (ps ++ p :: qs).Pairwise fun p q => p.totalDegree = 0 ∨ q.totalDegree = 0 := by
  intro hpairwise
  have hconstant : ∀ q ∈ ps, q.totalDegree = 0 := fun q hq =>
    ((List.pairwise_append.mp hpairwise).2.2 q hq p List.mem_cons_self).resolve_right hp
  have hle := MvPolynomial.totalDegree_list_prod ps
  rw [List.sum_eq_zero (by simpa using hconstant)] at hle
  exact hps (Nat.le_zero.mp hle)

/-! ### Which expressions have a linear form -/

/-- If both are computed exactly, both have a linear form or none has. -/
def Agree (e e' : Expr) : Prop :=
  e.Exact → e'.Exact → (e.linearForm? = none ↔ e'.linearForm? = none)

theorem Agree.symm {e e' : Expr} (h : Agree e e') : Agree e' e := fun he' he => (h he he').symm

section

variable {es es' : List Expr}

theorem linearForm?_sum_eq_none (he : (sum es).Exact) (he' : (sum es').Exact)
    (h : ∀ e' ∈ es', ∃ e ∈ es, Agree e e') (hnone : (sum es').linearForm? = none) :
    (sum es).linearForm? = none := by
  by_contra hsome
  obtain ⟨f, hf⟩ := Option.ne_none_iff_exists'.mp hsome
  rw [linearForm?_sum] at hf hnone
  obtain ⟨before, e', after, g, rfl, -, -, hint', hnone'⟩ :=
    exists_of_combined?_eq_none (linearFormTrace_sum es' ▸ he'.trace) hnone
  have hmem' : e' ∈ before ++ e' :: after := by simp
  have hform' : e'.linearForm? = none :=
    Option.eq_none_iff_forall_ne_some.mpr fun k hk => by
      rw [hk] at hnone'
      cases hnone'
  obtain ⟨e, hmem, hagree⟩ := h e' hmem'
  obtain ⟨hint, hform⟩ := operands_of_combined? (linearFormTrace_sum es ▸ he.trace) hf e hmem
  exact hform ((hagree (he.of_mem hmem hint) (he'.of_mem hmem' hint')).mpr hform')

theorem linearForm?_prod_eq_none (he : (prod es).Exact) (he' : (prod es').Exact)
    (h : ∀ e' ∈ es', ∃ e ∈ es, Agree e e')
    (hperm : (es.map polynomial).Perm (es'.map polynomial))
    (hsettled : SettledProduct (es.map polynomial)) (hnone : (prod es').linearForm? = none) :
    (prod es).linearForm? = none := by
  by_contra hsome
  obtain ⟨f, hf⟩ := Option.ne_none_iff_exists'.mp hsome
  rw [linearForm?_prod] at hnone
  obtain ⟨before, e', after, g, rfl, hbefore, hg, hint', hnone'⟩ :=
    exists_of_combined?_eq_none (linearFormTrace_prod es' ▸ he'.trace) hnone
  have hmem' : e' ∈ before ++ e' :: after := by simp
  cases hk : e'.linearForm? with
  | none =>
      obtain ⟨e, hmem, hagree⟩ := h e' hmem'
      obtain ⟨hint, hform⟩ := operands_of_combined? (linearFormTrace_prod es ▸ he.trace)
        (linearForm?_prod es ▸ hf) e hmem
      exact hform ((hagree (he.of_mem hmem hint) (he'.of_mem hmem' hint')).mpr hk)
  | some k =>
      rw [hk, Option.bind_some] at hnone'
      obtain ⟨hgconst, hkconst⟩ := LinearForm.not_isConst_of_mul?_eq_none hnone'
      have hpart : (prod before).Exact :=
        he'.of_prod (fun c hc => List.mem_append_left _ hc) (linearFormTrace_prod before ▸ hbefore)
      rw [← linearForm?_prod] at hg
      rw [Ne, hpart.isConst_iff hg, polynomial_prod] at hgconst
      rw [Ne, (he'.of_mem hmem' hint').isConst_iff hk] at hkconst
      rw [List.map_append, List.map_cons] at hperm
      rcases hsettled.perm hperm with hzero | hpairwise
      · have hdegree := he.totalDegree_le_one hf
        rw [polynomial_prod, hperm.prod_eq] at hdegree
        have htwo := two_le_totalDegree hzero hgconst hkconst
        omega
      · exact not_pairwise_totalDegree hgconst hkconst hpairwise

end

/-- Where all products are settled, the order of the operands does not decide whether there is a
linear form. -/
theorem Settled.agree {e e' : Expr} (hsettled : e.Settled) (h : Reordered e e') : Agree e e' := by
  revert hsettled
  -- Operands of a settled node are settled, and correspond to each other both ways.
  have hoperands {es es₁ es' : List Expr}
      (h : List.Forall₂ (fun e e' => Reordered e e' ∧ (e.Settled → Agree e e')) es es₁)
      (hperm : es₁.Perm es') (hes : ∀ e ∈ es, e.Settled) :
      (∀ e' ∈ es', ∃ e ∈ es, Agree e e') ∧ ∀ e ∈ es, ∃ e' ∈ es', Agree e' e := by
    have hagree : List.Forall₂ Agree es es₁ :=
      ((List.forall₂_and_left es es₁).mpr ⟨hes, h⟩).imp fun e e' hee => hee.2.2 hee.1
    refine ⟨exists_mem_of_reordered hagree hperm, fun e he => ?_⟩
    obtain ⟨e', he', hee⟩ := exists_mem_of_forall₂ hagree e he
    exact ⟨e', hperm.mem_iff.mp he', hee.symm⟩
  apply reorderedInduction (motive := fun e e' => e.Settled → Agree e e') (h := h)
  case refl => exact fun e _ _ _ => Iff.rfl
  case sum =>
    intro ts us vs h hperm hsettled he he'
    obtain ⟨hback, hforth⟩ := hoperands h hperm (settled_sum.mp hsettled)
    exact ⟨linearForm?_sum_eq_none he' he hforth, linearForm?_sum_eq_none he he' hback⟩
  case prod =>
    intro fs gs hs h hperm hsettled he he'
    have hpolynomials := polynomials_perm (h.imp fun _ _ hfg => hfg.1.polynomial_eq) hperm
    obtain ⟨hfs, hproduct⟩ := settled_prod.mp hsettled
    obtain ⟨hback, hforth⟩ := hoperands h hperm hfs
    exact ⟨linearForm?_prod_eq_none he' he hforth hpolynomials.symm (hproduct.perm hpolynomials),
      linearForm?_prod_eq_none he he' hback hpolynomials hproduct⟩

theorem Settled.affine?_eq {e e' : Expr} (hsettled : e.Settled) (h : Reordered e e')
    (he : e.Exact) (he' : e'.Exact) : e.affine? = e'.affine? := by
  have hagree := hsettled.agree h he he'
  cases hf : e.linearForm? with
  | none => rw [affine?, affine?, hf, hagree.mp hf]
  | some f =>
      obtain ⟨f', hf'⟩ := Option.ne_none_iff_exists'.mp fun hnone => by
        rw [hagree.mpr hnone] at hf
        cases hf
      exact he.affine?_eq he' h.polynomial_eq hf hf'

/-! ### Orders without a split -/

theorem reordered_replaced {before after : List Expr} {e e' : Expr} (h : Reordered e e') :
    List.Forall₂ Reordered (before ++ e :: after) (before ++ e' :: after) := by
  have hrefl (es : List Expr) : List.Forall₂ Reordered es es :=
    List.forall₂_same.mpr fun e _ => .refl e
  exact List.rel_append (hrefl before) (.cons h (hrefl after))

/-- If an operand has an order without a form, so has what it is combined to. -/
theorem exists_replaced_eq_none {combine : LinearForm → LinearForm → Option LinearForm}
    {total : LinearForm} {es : List Expr} {e : Expr} (hmem : e ∈ es)
    (hint : AllInt (combinedTrace combine total es))
    (h : ∃ e', Reordered e e' ∧ AllInt e'.linearFormTrace ∧ e'.linearForm? = none) :
    ∃ es', List.Forall₂ Reordered es es' ∧ AllInt (combinedTrace combine total es') ∧
      combined? combine total es' = none := by
  obtain ⟨e', hee', hint', hnone⟩ := h
  obtain ⟨before, after, rfl⟩ := List.append_of_mem hmem
  exact ⟨before ++ e' :: after, reordered_replaced hee', allInt_combinedTrace hint hint' hnone,
    combined?_eq_none_of_mem hnone⟩

/-- Two factors that are no constants come first in some order. -/
theorem exists_perm_of_not_settledProduct {factors : List Expr}
    (h : ¬ SettledProduct (factors.map polynomial)) : ∃ u v rest, factors.Perm (u :: v :: rest) ∧
      u.polynomial.totalDegree ≠ 0 ∧ v.polynomial.totalDegree ≠ 0 := by
  rw [SettledProduct, not_or, List.pairwise_map, List.pairwise_iff_forall_sublist] at h
  push Not at h
  obtain ⟨-, u, v, hsublist, hu, hv⟩ := h
  obtain ⟨rest, hperm⟩ := hsublist.exists_perm_append
  exact ⟨u, v, rest, hperm, hu, hv⟩

/-- Two factors that are no constants are given up. -/
theorem linearForm?_prod_eq_none_of_totalDegree {u v : Expr} {rest : List Expr} {f g : LinearForm}
    (hu : u.Exact) (hv : v.Exact) (hf : u.linearForm? = some f) (hg : v.linearForm? = some g)
    (hudegree : u.polynomial.totalDegree ≠ 0) (hvdegree : v.polynomial.totalDegree ≠ 0) :
    AllInt (prod (u :: v :: rest)).linearFormTrace ∧
      (prod (u :: v :: rest)).linearForm? = none := by
  have hfint : AllInt f.literals := (hu.denotes hf).allInt
  have hfirst : (LinearForm.const (.int 1)).mul? f = some f := by
    rw [LinearForm.const_mul?, LinearForm.scale_one hfint]
  rw [ne_eq, ← hu.isConst_iff hf, Bool.not_eq_true] at hudegree
  rw [ne_eq, ← hv.isConst_iff hg, Bool.not_eq_true] at hvdegree
  have hsecond : f.mul? g = none := LinearForm.mul?_eq_none hudegree hvdegree
  constructor
  · rw [linearFormTrace, linearProductTrace, hf, Option.bind_some, hfirst, allInt_append,
      allInt_append, linearProductTrace, hg, Option.bind_some, hsecond, List.append_nil]
    exact ⟨hu.trace, hfint, hv.trace⟩
  · rw [linearForm?, linearProduct?, hf, Option.bind_some, hfirst, Option.bind_some,
      linearProduct?, hg, Option.bind_some, hsecond, Option.bind_none]

/-- An expression that has a linear form and is not settled has an order without one. -/
theorem exists_reordered_eq_none {e : Expr} {f : LinearForm} (he : e.Exact)
    (h : e.linearForm? = some f) (hsettled : ¬ e.Settled) :
    ∃ e', Reordered e e' ∧ AllInt e'.linearFormTrace ∧ e'.linearForm? = none := by
  induction e generalizing f with
  | lit n => exact (hsettled (.lit n)).elim
  | sym | dim | call | access | pow => exact (hsettled (.atom rfl)).elim
  | sum ts ih =>
      rw [settled_sum] at hsettled
      push Not at hsettled
      obtain ⟨t, ht, htsettled⟩ := hsettled
      have htrace := linearFormTrace_sum ts ▸ he.trace
      obtain ⟨hint, hform⟩ := operands_of_combined? htrace (linearForm?_sum ts ▸ h) t ht
      obtain ⟨g, hg⟩ := Option.ne_none_iff_exists'.mp hform
      obtain ⟨ts', hts', hint', hnone⟩ :=
        exists_replaced_eq_none ht htrace (ih t ht (he.of_mem ht hint) hg htsettled)
      exact ⟨.sum ts', .sum hts' (.refl _), linearFormTrace_sum ts' ▸ hint',
        linearForm?_sum ts' ▸ hnone⟩
  | prod fs ih =>
      have htrace := linearFormTrace_prod fs ▸ he.trace
      have hforms := operands_of_combined? htrace (linearForm?_prod fs ▸ h)
      rw [settled_prod, not_and_or] at hsettled
      rcases hsettled with hsettled | hsettled
      · push Not at hsettled
        obtain ⟨t, ht, htsettled⟩ := hsettled
        obtain ⟨hint, hform⟩ := hforms t ht
        obtain ⟨g, hg⟩ := Option.ne_none_iff_exists'.mp hform
        obtain ⟨fs', hfs', hint', hnone⟩ :=
          exists_replaced_eq_none ht htrace (ih t ht (he.of_mem ht hint) hg htsettled)
        exact ⟨.prod fs', .prod hfs' (.refl _), linearFormTrace_prod fs' ▸ hint',
          linearForm?_prod fs' ▸ hnone⟩
      · obtain ⟨u, v, rest, hperm, hu, hv⟩ := exists_perm_of_not_settledProduct hsettled
        have humem : u ∈ fs := hperm.mem_iff.mpr (by simp)
        have hvmem : v ∈ fs := hperm.mem_iff.mpr (by simp)
        obtain ⟨huint, huform⟩ := hforms u humem
        obtain ⟨hvint, hvform⟩ := hforms v hvmem
        obtain ⟨g, hg⟩ := Option.ne_none_iff_exists'.mp huform
        obtain ⟨k, hk⟩ := Option.ne_none_iff_exists'.mp hvform
        exact ⟨.prod (u :: v :: rest), .prod (List.forall₂_same.mpr fun e _ => .refl e) hperm,
          linearForm?_prod_eq_none_of_totalDegree (he.of_mem humem huint) (he.of_mem hvmem hvint)
            hg hk hu hv⟩

/-- As long as no operation on integers overflows, orders of the operands of sums and products that
have a split have the same one. If no product that is zero through one factor has two others that
are no constants, either all orders have a split or none has; otherwise, a split that there is gets
lost in another order. -/
theorem affine?_reordered {e : Expr} (hfloat : e.FloatFree) (hpow : e.PowFree)
    (hint : AllInt e.linearFormTrace) :
    (∀ e', Reordered e e' → AllInt e'.linearFormTrace →
      (e.Settled → e.affine? = e'.affine?) ∧
        ∀ p p', e.affine? = some p → e'.affine? = some p' → p = p') ∧
    ∀ p, e.affine? = some p → ¬ e.Settled →
      ∃ e', Reordered e e' ∧ AllInt e'.linearFormTrace ∧ e'.affine? = none := by
  have he : e.Exact := ⟨hfloat, hpow, hint⟩
  constructor
  · intro e' h hint'
    have he' := he.reordered h hint'
    exact ⟨fun hsettled => hsettled.affine?_eq h he he',
      fun p p' hp hp' => he.affine?_unique he' h.polynomial_eq hp hp'⟩
  · intro p hp hsettled
    obtain ⟨f, hf, -⟩ := Option.bind_eq_some_iff.mp hp
    obtain ⟨e', h, hint', hnone⟩ := exists_reordered_eq_none he hf hsettled
    exact ⟨e', h, hint', by rw [affine?, hnone, Option.bind_none]⟩

/-- The product `0*x*y` as it is written. -/
def vanishing : Expr := .prod [.int 0, .sym ⟨"x"⟩, .sym ⟨"y"⟩]

/-- The product `3*(i + 2)` as it is written. -/
def tripled : Expr := .prod [.int 3, .sum [.dim (.root "i" .basic), .int 2]]

theorem not_settled_vanishing : ¬ vanishing.Settled := by
  have hdegree (s : Symbol) : (sym s).polynomial.totalDegree ≠ 0 := by
    rw [show (sym s).polynomial = MvPolynomial.X (sym s).toClass from rfl,
      MvPolynomial.totalDegree_X]
    exact one_ne_zero
  rw [vanishing, settled_prod, SettledProduct]
  rintro ⟨-, hzero | hpairwise⟩
  · exact hzero (List.mem_map.mpr ⟨.int 0, List.mem_cons_self, Int.cast_zero⟩)
  · have hsymbols := (List.pairwise_cons.mp (List.pairwise_cons.mp hpairwise).2).1 _
      List.mem_cons_self
    exact hsymbols.elim (hdegree ⟨"x"⟩) (hdegree ⟨"y"⟩)

theorem settled_tripled : tripled.Settled := by
  have hsum : (sum [.dim (.root "i" .basic), .int 2]).Settled :=
    .sum (List.forall_mem_cons.mpr ⟨.atom rfl, List.forall_mem_singleton.mpr (.lit _)⟩)
  have hdegree : (int 3).polynomial.totalDegree = 0 := MvPolynomial.totalDegree_C (3 : Int)
  refine .prod (List.forall_mem_cons.mpr ⟨.lit _, List.forall_mem_singleton.mpr hsum⟩) (.inr ?_)
  exact List.pairwise_pair.mpr (.inl hdegree)

theorem affine?_reordered_tripled :
    tripled.affine? = (prod [.sum [.int 2, .dim (.root "i" .basic)], .int 3]).affine? ∧
      (sum [tripled, vanishing]).affine? = some ⟨some (.dim (.root "i" .basic)), .int 3, .int 6⟩ ∧
      ∃ e', Reordered (.sum [tripled, vanishing]) e' ∧ e'.affine? = none := by
  have hreordered : Reordered tripled (.prod [.sum [.int 2, .dim (.root "i" .basic)], .int 3]) :=
    .prod (.cons (.refl _) (.cons (.sum (List.forall₂_same.mpr fun e _ => .refl e)
      (.swap _ _ [])) .nil)) (.swap _ _ [])
  obtain ⟨hsame, -⟩ := affine?_reordered (e := tripled) (by decide) (by decide) (by decide)
  obtain ⟨-, hlost⟩ := affine?_reordered (e := .sum [tripled, vanishing]) (by decide) (by decide)
    (by decide)
  refine ⟨(hsame _ hreordered (by decide)).1 settled_tripled, rfl, ?_⟩
  obtain ⟨e', h, -, hnone⟩ := hlost _ rfl fun hsettled =>
    not_settled_vanishing (settled_sum.mp hsettled _ (by simp))
  exact ⟨e', h, hnone⟩

/-- The product `0*x*y` is constant, but `x*y*0` has no split. -/
theorem affine?_zero_last :
    Reordered vanishing (.prod [.sym ⟨"x"⟩, .sym ⟨"y"⟩, .int 0]) ∧
      vanishing.FloatFree ∧ vanishing.PowFree ∧ AllInt vanishing.linearFormTrace ∧
      AllInt (prod [.sym ⟨"x"⟩, .sym ⟨"y"⟩, .int 0]).linearFormTrace ∧
      vanishing.affine? = some ⟨none, .int 0, .int 0⟩ ∧
      (prod [.sym ⟨"x"⟩, .sym ⟨"y"⟩, .int 0]).affine? = none := by
  refine ⟨?_, by decide, by decide, by decide, by decide, rfl, rfl⟩
  have hperm : ([.int 0] ++ [.sym ⟨"x"⟩, .sym ⟨"y"⟩] : List Expr).Perm
      ([.sym ⟨"x"⟩, .sym ⟨"y"⟩] ++ [.int 0]) := List.perm_append_comm
  exact .prod (List.forall₂_same.mpr fun e _ => .refl e) hperm

end Expr

end GridAccess
