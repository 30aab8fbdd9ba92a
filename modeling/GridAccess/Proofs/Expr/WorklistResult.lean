import GridAccess.Proofs.Expr.Regular
import GridAccess.Proofs.Expr.Worklist

/-!
With the arithmetic of literals the loops give the sums and products that folding builds. Folding is
told how many layers of sums there are, and the loops are not, so this is also why that number never
cuts anything off.

A coefficient that stands in front of a key is never spread when a sum is closed, because a single
sum is taken apart before it could become a key. Folding therefore multiplies keys without it.
-/

namespace GridAccess

open StateTransition (Reaches)
open Arithmetic (literals)

namespace Worklist

open GridAccess.Expr (Unfolds Tidy)

/-! ### Products -/

theorem plus_literals (c : Collected) (e : Expr) : literals.plus c e = c.plus e := by
  cases e <;> rfl

theorem times_literals : literals.times = Monomial.times := by
  funext m e
  cases e <;> rfl

theorem multiplied_of_spread?_eq_some {m : Monomial} {terms : List Expr}
    (h : m.spread? = some terms) :
    literals.multiplied m = .spreading m.coefficient terms [] := by
  obtain ⟨htrivial, hfactors⟩ := Monomial.spread?_eq_some_iff.mp h
  obtain ⟨hzero, hone⟩ := Bool.or_eq_false_iff.mp htrivial
  rw [Arithmetic.multiplied, Arithmetic.isZero_literals, Arithmetic.isOne_literals, hzero, hone,
    hfactors]
  rfl

theorem multiplied_of_spread?_eq_none {m : Monomial} (h : m.spread? = none) :
    literals.multiplied m = .done m.toExpr := by
  rw [Arithmetic.multiplied, Monomial.toExpr, Arithmetic.isZero_literals, Arithmetic.isOne_literals]
  split
  · rfl
  · next hzero =>
      split
      · rcases m.factors with _ | ⟨_, _ | _⟩ <;> rfl
      · next hone =>
          split
          · next hfactors => rw [hfactors]
          · next terms hfactors =>
              -- This is the sum that the coefficient would be spread over.
              have htrivial := Bool.or_eq_false_iff.mpr
                ⟨Bool.eq_false_iff.mpr hzero, Bool.eq_false_iff.mpr hone⟩
              cases h.symm.trans (Monomial.spread?_eq_some_iff.mpr ⟨htrivial, hfactors⟩)
          · next hnil _ =>
              cases hfactors : m.factors with
              | nil => exact (hnil hfactors).elim
              | cons => rfl

theorem runs_ofFactors (fs : List Expr) :
    Runs literals (.product fs) (literals.multiplied (Monomial.ofFactors fs)) := by
  have htaken := runs_multiplying (A := literals) fs ⟨.int 1, []⟩
  rw [times_literals] at htaken
  exact htaken

/-- A coefficient in front of something that is not just a sum. -/
theorem runs_scale {rest : Expr} (h : ∀ terms, rest.cofactors ≠ [.sum terms])
    (coefficient : Literal) :
    Runs literals (literals.scale coefficient rest)
      (.done (Collected.scaled rest coefficient)) := by
  rw [Arithmetic.scale, Collected.scaled, Arithmetic.isOne_literals]
  split
  · exact .refl _
  · have hspread : (Monomial.ofFactors [.lit coefficient, rest]).spread? = none :=
      Monomial.spread?_ofFactors_eq_none (by simpa using h)
    rw [← multiplied_of_spread?_eq_none hspread]
    exact runs_ofFactors _

/-! ### Sums -/

theorem runs_closing {entries : List (Expr × Literal)}
    (h : ∀ entry ∈ entries, ∀ terms, entry.1.cofactors ≠ [.sum terms]) (constant : Literal)
    (terms : List Expr) :
    Runs literals (.closing entries constant terms)
      (.done (literals.closed constant (terms ++
        (entries.filter fun entry => !entry.2.isZero).map fun entry =>
          Collected.scaled entry.1 entry.2))) := by
  induction entries generalizing terms with
  | nil =>
      rw [List.filter_nil, List.map_nil, List.append_nil]
      exact .of_step fun _ => rfl
  | cons entry entries ih =>
      obtain ⟨rest, coefficient⟩ := entry
      obtain ⟨hrest, hentries⟩ := List.forall_mem_cons.mp h
      by_cases hzero : coefficient.isZero = true
      · rw [List.filter_cons_of_neg (by simpa using hzero)]
        exact (runs_closing_of_isZero hzero).trans (ih hentries terms)
      · have hrun : Runs literals (.closing ((rest, coefficient) :: entries) constant terms)
            (.closing entries constant (terms ++ [Collected.scaled rest coefficient])) :=
          runs_closing_of_not_isZero hzero (runs_scale hrest coefficient)
        rw [List.filter_cons_of_pos (by simpa using hzero), List.map_cons]
        have happend := ih hentries (terms ++ [Collected.scaled rest coefficient])
        rw [List.append_assoc] at happend
        exact hrun.trans happend

theorem runs_collected {c : Collected} (h : Tidy c.coefficients) :
    Runs literals (.adding [] c) (.done c.toExpr) :=
  runs_adding_nil.trans
    (runs_closing (fun entry hentry => (h.keys entry hentry).cofactors_ne_sum) c.constant [])

/-- Products with at most `n` layers of sums give what folding builds. -/
def ProductsFold (n : Nat) : Prop :=
  ∀ fs, Unfolds n (.prod fs) → Runs literals (.product fs) (.done ((Folding.ofDepth n).product fs))

/-- Summands with at most `n` layers of sums contribute the terms that folding adds. -/
def SummandsFold (n : Nat) : Prop :=
  ∀ e, Unfolds n e → ∀ pending c, Runs literals (.adding (e :: pending) c)
    (.adding pending (((Folding.ofDepth n).terms e).foldl Collected.plus c))

theorem runs_adding {n : Nat} (h : SummandsFold n) {es : List Expr}
    (hes : ∀ e ∈ es, Unfolds n e) (pending : List Expr) (c : Collected) :
    Runs literals (.adding (es ++ pending) c)
      (.adding pending ((es.flatMap (Folding.ofDepth n).terms).foldl Collected.plus c)) := by
  induction es generalizing c with
  | nil => exact .refl _
  | cons e es ih =>
      obtain ⟨he, hes⟩ := List.forall_mem_cons.mp hes
      rw [List.flatMap_cons, List.foldl_append]
      exact (h e he (es ++ pending) c).trans (ih hes _)

theorem runs_summand {n : Nat} (h : ProductsFold n) {e : Expr} (he : Unfolds n e)
    (pending : List Expr) (c : Collected) :
    Runs literals (.adding (e :: pending) c)
      (literals.take (Folding.summand (Folding.ofDepth n).product e) pending c) := by
  cases e with
  | prod fs => exact runs_adding_prod (h fs he)
  | _ => exact .of_step fun _ => rfl

theorem take_of_ne_sum {e : Expr} (h : ∀ terms, e ≠ .sum terms) (pending : List Expr)
    (c : Collected) : literals.take e pending c = .adding pending (c.plus e) := by
  rw [← plus_literals]
  cases e with
  | sum terms => exact (h terms rfl).elim
  | _ => rfl

/-- A summand that turns out to be a sum is replaced by its terms, which have one layer less. -/
theorem summandsFold {n : Nat} (h : ∀ d ≤ n, ProductsFold d) : SummandsFold n := by
  induction n with
  | zero =>
      intro e he pending c
      have hlayered := Folding.Flattens.summand (Folding.Flattens.ofDepth 0).product he
      have hterm : ∀ terms, Folding.summand (Folding.ofDepth 0).product e ≠ .sum terms := by
        intro terms heq
        have hunfolds := hlayered.unfolds
        rw [heq] at hunfolds
        exact hunfolds terms (Expr.cofactors_of_isFactor rfl)
      rw [Folding.terms_ofDepth hterm]
      exact take_of_ne_sum hterm pending c ▸ runs_summand (h 0 le_rfl) he pending c
  | succ n ih =>
      intro e he pending c
      have hlayered := Folding.Flattens.summand (Folding.Flattens.ofDepth (n + 1)).product he
      have hsummand := runs_summand (h (n + 1) le_rfl) he pending c
      by_cases hsum : ∃ terms, Folding.summand (Folding.ofDepth (n + 1)).product e = .sum terms
      · obtain ⟨terms, heq⟩ := hsum
        have hterms : (Folding.ofDepth (n + 1)).terms e =
            terms.reverse.flatMap (Folding.ofDepth n).terms := by
          simp only [Folding.ofDepth, Folding.next] at heq ⊢
          rw [heq]
        have hunfolds := hlayered.unfolds
        rw [heq] at hsummand hunfolds
        rw [hterms]
        refine hsummand.trans (runs_adding (ih fun d hd => h d (hd.trans n.le_succ)) ?_ pending c)
        intro t ht
        exact hunfolds terms (Expr.cofactors_of_isFactor rfl) t (List.mem_reverse.mp ht)
      · have hterm := not_exists.mp hsum
        rw [Folding.terms_ofDepth hterm]
        exact take_of_ne_sum hterm pending c ▸ hsummand

theorem runs_sum {n : Nat} (h : SummandsFold n) {es : List Expr} (hes : ∀ e ∈ es, Unfolds n e) :
    Runs literals (.sum es) (.done ((Folding.ofDepth n).sum es)) := by
  have hadded := runs_adding h (fun e he => hes e (List.mem_reverse.mp he)) [] ⟨.int 0, []⟩
  rw [List.append_nil] at hadded
  exact hadded.trans (runs_collected ((Folding.Flattens.ofDepth n).tidy_sum hes))

/-! ### Products of a constant and a sum -/

theorem runs_spreading {n : Nat} (h : ProductsFold n) {coefficient : Literal}
    (hone : coefficient.isOne = false) {terms : List Expr} (hterms : ∀ t ∈ terms, Unfolds n t)
    (multiples : List Expr) :
    Runs literals (.spreading coefficient terms multiples)
      (.sum (multiples ++ terms.map fun t =>
        (Folding.ofDepth n).product [.lit coefficient, t])) := by
  induction terms generalizing multiples with
  | nil =>
      rw [List.map_nil, List.append_nil]
      exact .of_step fun _ => rfl
  | cons t terms ih =>
      obtain ⟨ht, hterms⟩ := List.forall_mem_cons.mp hterms
      have hscale : Runs literals (literals.scale coefficient t)
          (.done ((Folding.ofDepth n).product [.lit coefficient, t])) := by
        rw [Arithmetic.scale, Arithmetic.isOne_literals, hone]
        exact h _ (ht.scale coefficient)
      rw [List.map_cons, List.append_cons]
      exact (runs_spreading_cons hscale).trans (ih hterms _)

theorem productsFold (n : Nat) : ProductsFold n := by
  induction n using Nat.strong_induction_on with
  | _ n ih =>
      intro fs hfs
      refine (runs_ofFactors fs).trans ?_
      cases hspread : (Monomial.ofFactors fs).spread? with
      | none =>
          rw [multiplied_of_spread?_eq_none hspread, Folding.product_ofDepth_of_spread? hspread]
          exact .refl _
      | some terms =>
          obtain ⟨htrivial, hfactors⟩ := Monomial.spread?_eq_some_iff.mp hspread
          have hcofactors := Expr.ofFactors_eq_iff.mp hfactors
          cases n with
          | zero => exact (hfs terms hcofactors).elim
          | succ n =>
              have hn := ih n n.lt_succ_self
              have hproduct : (Folding.ofDepth (n + 1)).product fs =
                  (Folding.ofDepth n).sum (terms.map fun t =>
                    (Folding.ofDepth n).product [.lit (Monomial.ofFactors fs).coefficient, t]) := by
                simp only [Folding.ofDepth, Folding.next, hspread]
              rw [multiplied_of_spread?_eq_some hspread, hproduct]
              refine (runs_spreading hn (Bool.or_eq_false_iff.mp htrivial).2
                (hfs terms hcofactors) []).trans (runs_sum ?_ ?_)
              · exact summandsFold fun d hd => ih d (Nat.lt_succ_of_le hd)
              · intro e he
                obtain ⟨t, ht, rfl⟩ := List.mem_map.mp he
                have ht' := hfs terms hcofactors t ht
                have hscaled := ht'.scale (Monomial.ofFactors fs).coefficient
                exact ((Folding.Flattens.ofDepth n).product hscaled).unfolds

theorem runs_sumOf (terms : List Expr) : Runs literals (.sum terms) (.done (Expr.sumOf terms)) := by
  refine runs_sum (summandsFold fun d _ => productsFold d) fun t ht => ?_
  exact Expr.unfolds_of_sumDepth_le (Expr.sumDepthList_le_iff.mp le_rfl t ht)

theorem runs_productOf (factors : List Expr) :
    Runs literals (.product factors) (.done (Expr.productOf factors)) := by
  have hdepth : (Expr.prod factors).sumDepth ≤ Expr.sumDepthList factors := le_rfl
  exact productsFold _ factors (Expr.unfolds_of_sumDepth_le hdepth)

/-- Whatever the operations on literals give, there is no infinite run of the two loops, and a run
only stops at a result. With the arithmetic of literals the results are the sums and products of the
constructors. -/
theorem loops_end :
    (∀ A : Arithmetic, WellFounded fun s' s => A.step s = some s') ∧
    (∀ (A : Arithmetic) (s : State), A.step s = none ↔ ∃ e, s = ⟨.done e, []⟩) ∧
    (∀ (A : Arithmetic) (terms : List Expr) (k : List Frame),
      ∃ e, Reaches A.step ⟨.sum terms, k⟩ ⟨.done e, k⟩) ∧
    (∀ (A : Arithmetic) (factors : List Expr) (k : List Frame),
      ∃ e, Reaches A.step ⟨.product factors, k⟩ ⟨.done e, k⟩) ∧
    (∀ (terms : List Expr) (k : List Frame),
      Reaches literals.step ⟨.sum terms, k⟩ ⟨.done (Expr.sumOf terms), k⟩) ∧
    ∀ (factors : List Expr) (k : List Frame),
      Reaches literals.step ⟨.product factors, k⟩ ⟨.done (Expr.productOf factors), k⟩ := by
  have hresult (A : Arithmetic) (t : Task) (k : List Frame) :
      ∃ e, Reaches A.step ⟨t, k⟩ ⟨.done e, k⟩ := by
    obtain ⟨e, he⟩ := exists_runs_done A t
    exact ⟨e, he k⟩
  exact ⟨wellFounded_step, fun _ _ => step_eq_none_iff, fun A terms => hresult A (.sum terms),
    fun A factors => hresult A (.product factors), runs_sumOf, runs_productOf⟩

end Worklist

end GridAccess
