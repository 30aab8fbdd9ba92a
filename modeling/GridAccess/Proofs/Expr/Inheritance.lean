import GridAccess.Proofs.Expr.Replacement

/-!
Properties that canonical sums, products and powers take over from their operands. Folding takes
operands apart and puts their parts together again, so a property is taken over if a sum or a
product has it exactly if all its operands have it.
-/

namespace GridAccess

/-- A property that looks through sums and products and does not depend on literals. -/
structure Inherited (P : Expr → Prop) : Prop where
  lit : ∀ n, P (.lit n)
  sum_iff : ∀ {es}, P (.sum es) ↔ ∀ e ∈ es, P e
  prod_iff : ∀ {es}, P (.prod es) ↔ ∀ e ∈ es, P e

/-- A folding that takes the property over. -/
structure Folding.Keeps (P : Expr → Prop) (f : Folding) : Prop where
  product : ∀ {fs : List Expr}, (∀ e ∈ fs, P e) → P (f.product fs)
  terms : ∀ {e : Expr}, P e → ∀ t ∈ f.terms e, P t

namespace Inherited

variable {P : Expr → Prop}

theorem factors (hP : Inherited P) {e : Expr} (h : P e) : ∀ f ∈ e.factors, P f := by
  induction e with
  | prod es ih =>
      intro f hf
      rw [Expr.factors, Expr.factorsList_eq] at hf
      obtain ⟨e, he, hf⟩ := List.mem_flatMap.mp hf
      exact ih e he (hP.prod_iff.mp h e he) f hf
  | _ => simpa [Expr.factors] using h

/-! ### Products -/

theorem foldl_times {m : Monomial} {es : List Expr} (hm : ∀ e ∈ m.factors, P e)
    (hes : ∀ e ∈ es, P e) : ∀ e ∈ (es.foldl Monomial.times m).factors, P e := by
  induction es generalizing m with
  | nil => exact hm
  | cons e es ih =>
      obtain ⟨he, hes⟩ := List.forall_mem_cons.mp hes
      refine ih ?_ hes
      cases e with
      | lit n => exact hm
      | _ =>
          refine List.forall_mem_append.mpr ⟨hm, ?_⟩
          simpa using he

theorem ofFactors (hP : Inherited P) {fs : List Expr} (h : ∀ e ∈ fs, P e) :
    ∀ e ∈ (Monomial.ofFactors fs).factors, P e := by
  refine foldl_times (by simp) ?_
  intro e he
  rw [List.mem_reverse, Expr.factorsList_eq] at he
  obtain ⟨f, hf, he⟩ := List.mem_flatMap.mp he
  exact hP.factors (h f hf) e he

theorem monomial_toExpr (hP : Inherited P) {m : Monomial} (h : ∀ e ∈ m.factors, P e) :
    P m.toExpr := by
  have hsorted : ∀ e ∈ Ascending.sort m.factors, P e := fun e he =>
    h e ((Ascending.sort_perm _).mem_iff.mp he)
  unfold Monomial.toExpr
  split
  · exact hP.lit _
  · split
    · split
      · exact hP.lit _
      · next hfactors => exact h _ (by simp [hfactors])
      · exact hP.prod_iff.mpr hsorted
    · split
      · exact hP.lit _
      · exact hP.prod_iff.mpr (List.forall_mem_cons.mpr ⟨hP.lit _, hsorted⟩)

theorem spread? (hP : Inherited P) {m : Monomial} (h : ∀ e ∈ m.factors, P e) {terms : List Expr}
    (hterms : m.spread? = some terms) : ∀ e ∈ terms, P e := by
  unfold Monomial.spread? at hterms
  split at hterms
  · cases hterms
  · split at hterms
    · next hfactors =>
        obtain rfl := Option.some.inj hterms
        exact hP.sum_iff.mp (h _ (by simp [hfactors]))
    · cases hterms

/-! ### Sums -/

theorem splitCoefficient (hP : Inherited P) {e : Expr} (h : P e) : P e.splitCoefficient.2 := by
  unfold Expr.splitCoefficient
  split
  · exact hP.prod_iff.mp h _ (by simp)
  · exact hP.prod_iff.mpr (List.forall_mem_cons.mp (hP.prod_iff.mp h)).2
  · exact h

theorem adjust {a : Expr} {start : Literal} {f : Literal → Literal} {table : List (Expr × Literal)}
    (ha : P a) (h : ∀ entry ∈ table, P entry.1) :
    ∀ entry ∈ Ascending.adjust a start f table, P entry.1 := by
  induction table with
  | nil => simpa [Ascending.adjust] using ha
  | cons entry table ih =>
      obtain ⟨hentry, htable⟩ := List.forall_mem_cons.mp h
      unfold Ascending.adjust
      split
      · exact List.forall_mem_cons.mpr ⟨ha, h⟩
      · exact List.forall_mem_cons.mpr ⟨hentry, htable⟩
      · exact List.forall_mem_cons.mpr ⟨hentry, ih htable⟩

theorem foldl_plus (hP : Inherited P) {c : Collected} {es : List Expr}
    (hc : ∀ entry ∈ c.coefficients, P entry.1) (hes : ∀ e ∈ es, P e) :
    ∀ entry ∈ (es.foldl Collected.plus c).coefficients, P entry.1 := by
  induction es generalizing c with
  | nil => exact hc
  | cons e es ih =>
      obtain ⟨he, hes⟩ := List.forall_mem_cons.mp hes
      refine ih ?_ hes
      cases e with
      | lit n => exact hc
      | _ => exact adjust (hP.splitCoefficient he) hc

theorem collected_toExpr (hP : Inherited P) {c : Collected}
    (hc : ∀ entry ∈ c.coefficients, P entry.1) : P c.toExpr := by
  have hscaled {rest : Expr} {n : Literal} (h : P rest) : P (Collected.scaled rest n) := by
    unfold Collected.scaled
    split
    · exact h
    · refine hP.monomial_toExpr (hP.ofFactors ?_)
      simpa using ⟨hP.lit n, h⟩
  have hterms : ∀ e ∈ c.terms, P e := by
    intro e he
    rcases List.mem_append.mp he with he | he
    · obtain ⟨entry, hentry, rfl⟩ := List.mem_map.mp he
      exact hscaled (hc entry (List.mem_of_mem_filter hentry))
    · split at he
      · cases he
      · obtain rfl := List.mem_singleton.mp he
        exact hP.lit _
  unfold Collected.toExpr
  split
  · exact hP.lit _
  · next heq => exact hterms _ (by simp [heq])
  · exact hP.sum_iff.mpr fun e he => hterms e ((Ascending.sort_perm _).mem_iff.mp he)

theorem sum (hP : Inherited P) {f : Folding} (hf : f.Keeps P) {es : List Expr}
    (h : ∀ e ∈ es, P e) : P (f.sum es) := by
  refine hP.collected_toExpr (hP.foldl_plus (by simp) ?_)
  intro t ht
  obtain ⟨e, he, ht⟩ := List.mem_flatMap.mp ht
  exact hf.terms (h e (List.mem_reverse.mp he)) t ht

/-! ### Layers of sums -/

theorem summand (hP : Inherited P) {product : List Expr → Expr}
    (hproduct : ∀ {fs : List Expr}, (∀ e ∈ fs, P e) → P (product fs)) {e : Expr} (h : P e) :
    P (Folding.summand product e) := by
  cases e with
  | prod fs => exact hproduct (hP.prod_iff.mp h)
  | _ => exact h

theorem flat (hP : Inherited P) : Folding.flat.Keeps P := by
  have hproduct {fs : List Expr} (h : ∀ e ∈ fs, P e) : P (Monomial.ofFactors fs).toExpr :=
    hP.monomial_toExpr (hP.ofFactors h)
  refine ⟨hproduct, ?_⟩
  intro e h t ht
  obtain rfl := List.mem_singleton.mp ht
  exact hP.summand hproduct h

theorem next (hP : Inherited P) {f : Folding} (hf : f.Keeps P) : f.next.Keeps P := by
  have hproduct {fs : List Expr} (h : ∀ e ∈ fs, P e) : P (f.next.product fs) := by
    have hfactors := hP.ofFactors h
    simp only [Folding.next]
    split
    · next terms hterms =>
        apply hP.sum hf
        intro e he
        obtain ⟨t, ht, rfl⟩ := List.mem_map.mp he
        apply hf.product
        simpa using ⟨hP.lit _, hP.spread? hfactors hterms t ht⟩
    · exact hP.monomial_toExpr hfactors
  refine ⟨hproduct, ?_⟩
  intro e h t ht
  have hsummand := hP.summand hproduct h
  simp only [Folding.next] at ht hsummand
  split at ht
  · next terms hsum =>
      rw [hsum] at hsummand
      obtain ⟨e, he, ht⟩ := List.mem_flatMap.mp ht
      exact hf.terms (hP.sum_iff.mp hsummand e (List.mem_reverse.mp he)) t ht
  · obtain rfl := List.mem_singleton.mp ht
    exact hsummand

theorem ofDepth (hP : Inherited P) (depth : Nat) : (Folding.ofDepth depth).Keeps P := by
  induction depth with
  | zero => exact hP.flat
  | succ depth ih => exact hP.next ih

theorem sumOf (hP : Inherited P) {terms : List Expr} (h : ∀ e ∈ terms, P e) :
    P (Expr.sumOf terms) :=
  hP.sum (hP.ofDepth _) h

theorem productOf (hP : Inherited P) {factors : List Expr} (h : ∀ e ∈ factors, P e) :
    P (Expr.productOf factors) :=
  (hP.ofDepth _).product h

theorem power (hP : Inherited P) {base exponent : Expr} (hbase : P base)
    (hpow : P (.pow base exponent)) : P (Expr.power base exponent) := by
  simp only [Expr.power]
  split
  · exact hP.lit _
  · split
    · exact hbase
    · split
      · exact hP.lit _
      · exact hpow
  · exact hpow

end Inherited

/-! ### Properties of all nodes -/

/-- A property of nodes that does not look at operands and that literals, sums and products have. -/
structure HeadProperty (Q : Expr → Prop) : Prop where
  lit : ∀ n, Q (.lit n)
  sum : ∀ es, Q (.sum es)
  prod : ∀ es, Q (.prod es)
  call : ∀ {f es} es', Q (.call f es) → Q (.call f es')
  access : ∀ {f es} es', Q (.access f es) → Q (.access f es')

/-- Nodes that have `P` have `Q`, also once their operands are changed. Literals, sums and products
always have it. -/
structure Carries (change : Expr → Expr) (P Q : Expr → Prop) : Prop where
  lit : ∀ n, Q (.lit n)
  sum : ∀ es, Q (.sum es)
  prod : ∀ es, Q (.prod es)
  of : ∀ {n}, P n → Q n
  call : ∀ {f es}, P (.call f es) → Q (.call f (es.map change))
  access : ∀ {f es}, P (.access f es) → Q (.access f (es.map change))
  pow : ∀ {base exponent}, P (.pow base exponent) → Q (.pow (change base) (change exponent))

theorem HeadProperty.carries {Q : Expr → Prop} {change : Expr → Expr} (hQ : HeadProperty Q)
    (hpow : ∀ {base exponent}, Q (.pow base exponent) →
      Q (.pow (change base) (change exponent))) : Carries change Q Q where
  lit := hQ.lit
  sum := hQ.sum
  prod := hQ.prod
  of h := h
  call h := hQ.call _ h
  access h := hQ.access _ h
  pow := hpow

namespace Expr

def AllNodes (Q : Expr → Prop) (e : Expr) : Prop := ∀ n ∈ e.nodes, Q n

instance (Q : Expr → Prop) [DecidablePred Q] (e : Expr) : Decidable (AllNodes Q e) :=
  inferInstanceAs (Decidable (∀ n ∈ e.nodes, Q n))

section

variable {Q : Expr → Prop} {f : Field} {es : List Expr} {base exponent : Expr}

theorem forall_mem_nodesList_append {node : Expr} :
    (∀ n ∈ nodesList es ++ [node], Q n) ↔ Q node ∧ ∀ e ∈ es, AllNodes Q e := by
  rw [List.forall_mem_append, List.forall_mem_singleton, nodesList_eq, List.forall_mem_flatMap,
    and_comm]
  rfl

theorem allNodes_call : AllNodes Q (.call f es) ↔ Q (.call f es) ∧ ∀ e ∈ es, AllNodes Q e :=
  forall_mem_nodesList_append

theorem allNodes_access :
    AllNodes Q (.access f es) ↔ Q (.access f es) ∧ ∀ e ∈ es, AllNodes Q e :=
  forall_mem_nodesList_append

theorem allNodes_sum : AllNodes Q (.sum es) ↔ Q (.sum es) ∧ ∀ e ∈ es, AllNodes Q e :=
  forall_mem_nodesList_append

theorem allNodes_prod : AllNodes Q (.prod es) ↔ Q (.prod es) ∧ ∀ e ∈ es, AllNodes Q e :=
  forall_mem_nodesList_append

theorem allNodes_pow :
    AllNodes Q (.pow base exponent) ↔
      Q (.pow base exponent) ∧ AllNodes Q base ∧ AllNodes Q exponent := by
  simp only [AllNodes, nodes, List.forall_mem_append, List.forall_mem_singleton]
  exact and_comm

end

namespace AllNodes

variable {P Q : Expr → Prop} {s : Substitution} {e : Expr}

theorem self (h : AllNodes Q e) : Q e := h e e.self_mem_nodes

theorem of_mem_nodes {n : Expr} (h : AllNodes Q e) (hn : n ∈ e.nodes) : AllNodes Q n :=
  fun m hm => h m (mem_nodes_trans hm hn)

theorem of_mem_children {c : Expr} (h : AllNodes Q e) (hc : c ∈ e.children) : AllNodes Q c :=
  h.of_mem_nodes (mem_nodes_of_mem_children hc)

theorem inherited_of (hlit : ∀ n, Q (.lit n)) (hsum : ∀ es, Q (.sum es))
    (hprod : ∀ es, Q (.prod es)) : Inherited (AllNodes Q) where
  lit n := by simpa [AllNodes] using hlit n
  sum_iff {es} := by simp [allNodes_sum, hsum es]
  prod_iff {es} := by simp [allNodes_prod, hprod es]

theorem inherited (hQ : HeadProperty Q) : Inherited (AllNodes Q) :=
  inherited_of hQ.lit hQ.sum hQ.prod

/-- A replacement has the property if the replacements have it, and so have the nodes that are no
keys once their operands are replaced. -/
theorem substFold_of (hQ : Carries (·.substFold s) P Q)
    (hs : ∀ {e r}, s.find? e = some r → AllNodes Q r)
    (h : AllNodes (fun n => s.find? n = none → P n) e) : AllNodes Q (e.substFold s) := by
  have hinherited : Inherited (AllNodes Q) := inherited_of hQ.lit hQ.sum hQ.prod
  have hmap {es : List Expr} (ih : ∀ e ∈ es, AllNodes (fun n => s.find? n = none → P n) e →
      AllNodes Q (e.substFold s)) (h : ∀ e ∈ es, AllNodes (fun n => s.find? n = none → P n) e) :
      ∀ r ∈ es.map (·.substFold s), AllNodes Q r := by
    intro r hr
    obtain ⟨e, he, rfl⟩ := List.mem_map.mp hr
    exact ih e he (h e he)
  have hfold := foldsTo_substFold s e
  generalize e.substFold s = r at hfold
  induction hfold with
  | untouched htouches => exact fun n hn => hQ.of (h n hn (find?_eq_none_of_touches htouches hn))
  | found hfind => exact hs hfind
  | call hfind _ ih =>
      obtain ⟨hnode, hes⟩ := allNodes_call.mp h
      exact allNodes_call.mpr ⟨hQ.call (hnode hfind), hmap ih hes⟩
  | access hfind _ ih =>
      obtain ⟨hnode, hes⟩ := allNodes_access.mp h
      exact allNodes_access.mpr ⟨hQ.access (hnode hfind), hmap ih hes⟩
  | sum _ _ _ ih => exact hinherited.sumOf (hmap ih (allNodes_sum.mp h).2)
  | prod _ _ _ ih => exact hinherited.productOf (hmap ih (allNodes_prod.mp h).2)
  | pow hfind _ _ _ ihb ihe =>
      obtain ⟨hnode, hbase, hexponent⟩ := allNodes_pow.mp h
      refine hinherited.power (ihb hbase) ?_
      exact allNodes_pow.mpr ⟨hQ.pow (hnode hfind), ihb hbase, ihe hexponent⟩

/-- The same for replacement that keeps the shape. -/
theorem subst_of (hQ : Carries (·.subst s) P Q)
    (hs : ∀ {e r}, s.find? e = some r → AllNodes Q r)
    (h : AllNodes (fun n => s.find? n = none → P n) e) : AllNodes Q (e.subst s) := by
  have hmap {es : List Expr} (ih : ∀ e ∈ es, AllNodes (fun n => s.find? n = none → P n) e →
      AllNodes Q (e.subst s)) (h : ∀ e ∈ es, AllNodes (fun n => s.find? n = none → P n) e) :
      ∀ r ∈ es.map (·.subst s), AllNodes Q r := by
    intro r hr
    obtain ⟨e, he, rfl⟩ := List.mem_map.mp hr
    exact ih e he (h e he)
  -- Keys are replaced, whatever the node is.
  have hstep {e : Expr} (hnone : s.find? e = none → AllNodes Q (e.subst s)) :
      AllNodes Q (e.subst s) := by
    cases hfind : s.find? e with
    | some r => exact subst_of_find? hfind ▸ hs hfind
    | none => exact hnone hfind
  induction e with
  | lit | sym | dim =>
      refine hstep fun hfind => ?_
      rw [subst_eq_self (by simp [Substitution.touches, nodes, hfind])]
      intro n hn
      simp only [mem_nodes_lit, mem_nodes_sym, mem_nodes_dim] at hn
      subst hn
      exact hQ.of (h.self hfind)
  | call f es ih =>
      refine hstep fun hfind => ?_
      obtain ⟨hnode, hes⟩ := allNodes_call.mp h
      rw [subst_call hfind]
      exact allNodes_call.mpr ⟨hQ.call (hnode hfind), hmap ih hes⟩
  | access f es ih =>
      refine hstep fun hfind => ?_
      obtain ⟨hnode, hes⟩ := allNodes_access.mp h
      rw [subst_access hfind]
      exact allNodes_access.mpr ⟨hQ.access (hnode hfind), hmap ih hes⟩
  | sum es ih =>
      refine hstep fun hfind => ?_
      rw [subst_sum hfind]
      exact allNodes_sum.mpr ⟨hQ.sum _, hmap ih (allNodes_sum.mp h).2⟩
  | prod es ih =>
      refine hstep fun hfind => ?_
      rw [subst_prod hfind]
      exact allNodes_prod.mpr ⟨hQ.prod _, hmap ih (allNodes_prod.mp h).2⟩
  | pow base exponent ihb ihe =>
      refine hstep fun hfind => ?_
      obtain ⟨hnode, hbase, hexponent⟩ := allNodes_pow.mp h
      rw [subst_pow hfind]
      exact allNodes_pow.mpr ⟨hQ.pow (hnode hfind), ihb hbase, ihe hexponent⟩

/-- A property of heads is kept. -/
theorem substFold (hQ : HeadProperty Q)
    (hpow : ∀ {base exponent}, Q (.pow base exponent) →
      Q (.pow (base.substFold s) (exponent.substFold s)))
    (hs : ∀ {e r}, s.find? e = some r → AllNodes Q r)
    (h : AllNodes (fun n => s.find? n = none → Q n) e) : AllNodes Q (e.substFold s) :=
  substFold_of (hQ.carries hpow) hs h

theorem subst (hQ : HeadProperty Q)
    (hpow : ∀ {base exponent}, Q (.pow base exponent) →
      Q (.pow (base.subst s) (exponent.subst s)))
    (hs : ∀ {e r}, s.find? e = some r → AllNodes Q r)
    (h : AllNodes (fun n => s.find? n = none → Q n) e) : AllNodes Q (e.subst s) :=
  subst_of (hQ.carries hpow) hs h

end AllNodes

end Expr

/-! ### Nesting of uses -/

namespace Expr

theorem inherited_useDepth_le (k : Nat) : Inherited (·.useDepth ≤ k) where
  lit _ := Nat.zero_le k
  sum_iff := by simp [useDepth, useDepthList_le_iff]
  prod_iff := by simp [useDepth, useDepthList_le_iff]

theorem useDepthList_map_le {g : Expr → Expr} {es : List Expr}
    (h : ∀ e ∈ es, (g e).useDepth ≤ e.useDepth) :
    useDepthList (es.map g) ≤ useDepthList es := by
  apply useDepthList_le_iff.mpr
  intro e' he'
  obtain ⟨e, he, rfl⟩ := List.mem_map.mp he'
  exact Nat.le_trans (h e he) (useDepth_le_useDepthList he)

/-- Replacing by expressions without uses nests uses no deeper. -/
theorem useDepth_substFold_le {s : Substitution}
    (hs : ∀ {e r : Expr}, s.find? e = some r → r.useDepth = 0) (e : Expr) :
    (e.substFold s).useDepth ≤ e.useDepth := by
  have hfold := foldsTo_substFold s e
  generalize e.substFold s = r at hfold
  induction hfold with
  | untouched => exact Nat.le_refl _
  | found hfind =>
      rw [hs hfind]
      exact Nat.zero_le _
  | call _ _ ih | access _ _ ih => exact Nat.succ_le_succ (useDepthList_map_le ih)
  | sum _ _ _ ih =>
      apply (inherited_useDepth_le _).sumOf
      simpa [useDepth] using useDepthList_le_iff.mp (useDepthList_map_le ih)
  | prod _ _ _ ih =>
      apply (inherited_useDepth_le _).productOf
      simpa [useDepth] using useDepthList_le_iff.mp (useDepthList_map_le ih)
  | @pow base exponent _ _ _ _ ihb ihe =>
      refine (inherited_useDepth_le _).power ?_ ?_
      · exact Nat.le_trans ihb (Nat.le_max_left _ _)
      · simp only [useDepth]
        omega

theorem useDepth_le_of_mem_nodes {n e : Expr} (h : n ∈ e.nodes) : n.useDepth ≤ e.useDepth := by
  have hlist {es : List Expr} (ih : ∀ e ∈ es, n ∈ e.nodes → n.useDepth ≤ e.useDepth)
      (h : ∃ e ∈ es, n ∈ e.nodes) : n.useDepth ≤ useDepthList es := by
    obtain ⟨e, he, hn⟩ := h
    exact Nat.le_trans (ih e he hn) (useDepth_le_useDepthList he)
  induction e with
  | lit | sym | dim => simp_all
  | call f es ih | access f es ih =>
      simp only [mem_nodes_call, mem_nodes_access] at h
      rcases h with rfl | h
      · exact Nat.le_refl _
      · exact Nat.le_trans (hlist ih h) (Nat.le_succ _)
  | sum es ih | prod es ih =>
      simp only [mem_nodes_sum, mem_nodes_prod] at h
      rcases h with rfl | h
      · exact Nat.le_refl _
      · exact hlist ih h
  | pow base exponent ihb ihe =>
      rcases mem_nodes_pow.mp h with rfl | h | h
      · exact Nat.le_refl _
      · exact Nat.le_trans (ihb h) (Nat.le_max_left _ _)
      · exact Nat.le_trans (ihe h) (Nat.le_max_right _ _)

end Expr

end GridAccess
