import GridAccess.Proofs.Expr.NormalForm
import Mathlib.Computability.StateTransition

/-!
The loops that build sums and products, one step at a time. Each loop takes its next operand from a
stack and may put further ones there, and each needs the other: a summand that is a product is
multiplied out before it is added, and a product of a constant and a sum is the sum of the
multiples. What waits for a product is kept in frames.

Nothing limits the number of steps, and still every run ends, whatever the operations on literals
give. The measure is how deep sums are nested, which is not changed by constants and further
products around a sum. It does not grow when something is multiplied out, a sum among the summands
is replaced by terms of less depth, and so are the terms that a constant is spread over.
-/

namespace GridAccess

open StateTransition (Reaches)

/-- The operations on literals that the loops branch on or calculate with. -/
structure Arithmetic where
  add : Literal → Literal → Literal
  mul : Literal → Literal → Literal
  isZero : Literal → Bool
  isOne : Literal → Bool

namespace Worklist

/-! ### The loops -/

/-- What is being done. Pending operands stand in the order that they are taken in. -/
inductive Task where
  | adding (pending : List Expr) (c : Collected)
  /-- the coefficients that are left, the constant, and the terms that are finished -/
  | closing (entries : List (Expr × Literal)) (constant : Literal) (terms : List Expr)
  | multiplying (pending : List Expr) (m : Monomial)
  /-- the terms that are left to be multiplied by a constant, and the multiples of those before -/
  | spreading (coefficient : Literal) (terms multiples : List Expr)
  | done (e : Expr)

/-- What waits for a product: a sum for one of its summands, or for the multiple that belongs to one
of its coefficients, or a constant that is spread over a sum. -/
inductive Frame where
  | summand (pending : List Expr) (c : Collected)
  | entry (entries : List (Expr × Literal)) (constant : Literal) (terms : List Expr)
  | multiple (coefficient : Literal) (terms multiples : List Expr)

structure State where
  task : Task
  frames : List Frame

/-- The last operand is taken first. -/
def Task.sum (terms : List Expr) : Task := .adding terms.reverse ⟨.int 0, []⟩

def Task.product (factors : List Expr) : Task := .multiplying factors.reverse ⟨.int 1, []⟩

end Worklist

namespace Arithmetic

open Worklist

/-- The arithmetic of literals themselves. -/
def literals : Arithmetic := ⟨Literal.add, Literal.mul, Literal.isZero, Literal.isOne⟩

@[simp] theorem isZero_literals : literals.isZero = Literal.isZero := rfl

@[simp] theorem isOne_literals : literals.isOne = Literal.isOne := rfl

variable (A : Arithmetic)

def plus (c : Collected) (term : Expr) : Collected :=
  match term with
  | .lit n => { c with constant := A.add c.constant n }
  | e =>
    let (coefficient, rest) := e.splitCoefficient
    { c with coefficients := Ascending.adjust rest (.int 0) (A.add · coefficient) c.coefficients }

def times (m : Monomial) (factor : Expr) : Monomial :=
  match factor with
  | .lit n => { m with coefficient := A.mul m.coefficient n }
  | e => { m with factors := m.factors ++ [e] }

/-- Adds a summand that has been multiplied out. -/
def take (term : Expr) (pending : List Expr) (c : Collected) : Task :=
  match term with
  | .sum inner => .adding (inner.reverse ++ pending) c
  | e => .adding pending (A.plus c e)

def scale (coefficient : Literal) (e : Expr) : Task :=
  if A.isOne coefficient then .done e else .product [.lit coefficient, e]

/-- The sum of the finished terms and the constant. -/
def closed (constant : Literal) (terms : List Expr) : Expr :=
  match terms ++ if A.isZero constant then [] else [.lit constant] with
  | [] => .int 0
  | [e] => e
  | es => .sum (Ascending.sort es)

/-- What becomes of a product when all factors have been taken. -/
def multiplied (m : Monomial) : Task :=
  if A.isZero m.coefficient then .done (.int 0)
  else if A.isOne m.coefficient then
    match m.factors with
    | [] => .done (.lit m.coefficient)
    | [e] => .done e
    | es => .done (.prod (Ascending.sort es))
  else
    match m.factors with
    | [] => .done (.lit m.coefficient)
    | [.sum terms] => .spreading m.coefficient terms []
    | es => .done (.prod (.lit m.coefficient :: Ascending.sort es))

def resume : Frame → Expr → Task
  | .summand pending c, e => A.take e pending c
  | .entry entries constant terms, e => .closing entries constant (terms ++ [e])
  | .multiple coefficient terms multiples, e => .spreading coefficient terms (multiples ++ [e])

def step : State → Option State
  | ⟨.adding [] c, k⟩ => some ⟨.closing c.coefficients c.constant [], k⟩
  | ⟨.adding (e :: pending) c, k⟩ =>
    match e with
    | .prod factors => some ⟨.product factors, .summand pending c :: k⟩
    | e => some ⟨A.take e pending c, k⟩
  | ⟨.closing [] constant terms, k⟩ => some ⟨.done (A.closed constant terms), k⟩
  | ⟨.closing ((rest, coefficient) :: entries) constant terms, k⟩ =>
    if A.isZero coefficient then some ⟨.closing entries constant terms, k⟩
    else some ⟨A.scale coefficient rest, .entry entries constant terms :: k⟩
  | ⟨.multiplying [] m, k⟩ => some ⟨A.multiplied m, k⟩
  | ⟨.multiplying (e :: pending) m, k⟩ =>
    match e with
    | .prod inner => some ⟨.multiplying (inner.reverse ++ pending) m, k⟩
    | e => some ⟨.multiplying pending (A.times m e), k⟩
  | ⟨.spreading _ [] multiples, k⟩ => some ⟨.sum multiples, k⟩
  | ⟨.spreading coefficient (t :: terms) multiples, k⟩ =>
    some ⟨A.scale coefficient t, .multiple coefficient terms multiples :: k⟩
  | ⟨.done e, frame :: k⟩ => some ⟨A.resume frame e, k⟩
  | ⟨.done _, []⟩ => none

end Arithmetic

namespace Worklist

variable {A : Arithmetic} {t t' t'' : Task}

/-- A run ends where there is a result that nothing waits for. -/
theorem step_eq_none_iff {s : State} : A.step s = none ↔ ∃ e, s = ⟨.done e, []⟩ := by
  constructor
  · intro h
    obtain ⟨t, k⟩ := s
    cases t with
    | adding pending c =>
        match pending with
        | [] => cases h
        | e :: pending => cases e <;> cases h
    | closing entries constant terms =>
        match entries with
        | [] => cases h
        | (rest, coefficient) :: entries =>
            rw [Arithmetic.step] at h
            split at h <;> cases h
    | multiplying pending m =>
        match pending with
        | [] => cases h
        | e :: pending => cases e <;> cases h
    | spreading coefficient terms multiples =>
        match terms with
        | [] => cases h
        | t :: terms => cases h
    | done e =>
        match k with
        | [] => exact ⟨e, rfl⟩
        | frame :: k => cases h
  · rintro ⟨e, rfl⟩
    rfl

/-! ### Runs -/

/-- One task leads to the other, whatever waits for it. -/
def Runs (A : Arithmetic) (t t' : Task) : Prop := ∀ k, Reaches A.step ⟨t, k⟩ ⟨t', k⟩

theorem Runs.refl (t : Task) : Runs A t t := fun _ => .refl

theorem Runs.trans (h : Runs A t t') (h' : Runs A t' t'') : Runs A t t'' :=
  fun k => (h k).trans (h' k)

theorem Runs.of_step (h : ∀ k, A.step ⟨t, k⟩ = some ⟨t', k⟩) : Runs A t t' := fun k => .single (h k)

/-- Where the first step goes on with a product, the run goes on with its result. -/
theorem Runs.of_call (frame : Frame) {e : Expr}
    (h : ∀ k, A.step ⟨t, k⟩ = some ⟨t', frame :: k⟩) (hresult : Runs A t' (.done e)) :
    Runs A t (A.resume frame e) :=
  fun k => .head (h k) (.tail (hresult (frame :: k)) rfl)

/-! ### Rounds of the loops -/

section

variable {e rest : Expr} {fs pending terms multiples : List Expr} {c : Collected}
  {coefficient constant : Literal} {entries : List (Expr × Literal)}

theorem runs_adding_nil : Runs A (.adding [] c) (.closing c.coefficients c.constant []) :=
  .of_step fun _ => rfl

theorem runs_adding_prod (h : Runs A (.product fs) (.done e)) :
    Runs A (.adding (.prod fs :: pending) c) (A.take e pending c) :=
  Runs.of_call (.summand pending c) (fun _ => rfl) h

theorem runs_closing_of_isZero (h : A.isZero coefficient = true) :
    Runs A (.closing ((rest, coefficient) :: entries) constant terms)
      (.closing entries constant terms) :=
  .of_step fun _ => if_pos h

theorem runs_closing_of_not_isZero (h : ¬ A.isZero coefficient = true)
    (hscale : Runs A (A.scale coefficient rest) (.done e)) :
    Runs A (.closing ((rest, coefficient) :: entries) constant terms)
      (.closing entries constant (terms ++ [e])) :=
  Runs.of_call (.entry entries constant terms) (fun _ => if_neg h) hscale

theorem runs_spreading_cons (hscale : Runs A (A.scale coefficient rest) (.done e)) :
    Runs A (.spreading coefficient (rest :: terms) multiples)
      (.spreading coefficient terms (multiples ++ [e])) :=
  Runs.of_call (.multiple coefficient terms multiples) (fun _ => rfl) hscale

end

/-- Nested products are taken apart. -/
theorem runs_factors {es : List Expr}
    (h : ∀ e ∈ es, ∀ pending m, Runs A (.multiplying (e :: pending) m)
      (.multiplying pending (e.factors.reverse.foldl A.times m)))
    (pending : List Expr) (m : Monomial) :
    Runs A (.multiplying (es.reverse ++ pending) m)
      (.multiplying pending ((Expr.factorsList es).reverse.foldl A.times m)) := by
  induction es generalizing pending m with
  | nil => exact .refl _
  | cons e es ih =>
      obtain ⟨he, hes⟩ := List.forall_mem_cons.mp h
      rw [List.reverse_cons, List.append_assoc, Expr.factorsList, List.reverse_append,
        List.foldl_append]
      exact (ih hes (e :: pending) m).trans (he pending _)

theorem runs_factor (e : Expr) (pending : List Expr) (m : Monomial) :
    Runs A (.multiplying (e :: pending) m)
      (.multiplying pending (e.factors.reverse.foldl A.times m)) := by
  induction e generalizing pending m with
  | prod fs ih =>
      have hstep : Runs A (.multiplying (.prod fs :: pending) m)
          (.multiplying (fs.reverse ++ pending) m) := .of_step fun _ => rfl
      exact hstep.trans (runs_factors ih pending m)
  | _ => exact .of_step fun _ => rfl

/-- All factors are taken before it is seen what becomes of a product. -/
theorem runs_multiplying (es : List Expr) (m : Monomial) :
    Runs A (.multiplying es.reverse m)
      (A.multiplied ((Expr.factorsList es).reverse.foldl A.times m)) := by
  have htaken : Runs A (.multiplying (es.reverse ++ []) m)
      (.multiplying [] ((Expr.factorsList es).reverse.foldl A.times m)) :=
    runs_factors (fun e _ => runs_factor e) [] m
  rw [List.append_nil] at htaken
  exact htaken.trans (.of_step fun _ => rfl)

/-! ### Depth -/

/-- Sums are nested at most `n` deep in each of them. -/
def Shallow (n : Nat) (es : List Expr) : Prop := ∀ e ∈ es, e.sumDepth ≤ n

theorem shallow_nil (n : Nat) : Shallow n [] := List.forall_mem_nil _

theorem Shallow.concat {n : Nat} {es : List Expr} (h : Shallow n es) {e : Expr}
    (he : e.sumDepth ≤ n) : Shallow n (es ++ [e]) :=
  List.forall_mem_append.mpr ⟨h, List.forall_mem_singleton.mpr he⟩

theorem Shallow.reverse {n : Nat} {es : List Expr} (h : Shallow n es) : Shallow n es.reverse :=
  fun e he => h e (List.mem_reverse.mp he)

theorem Shallow.sumDepth_sort {n : Nat} {es : List Expr} (h : Shallow n es) :
    Expr.sumDepthList (Ascending.sort es) ≤ n :=
  Expr.sumDepthList_le_iff.mpr fun e he => h e ((Ascending.sort_perm es).mem_iff.mp he)

theorem exists_shallow (es : List Expr) : ∃ n, Shallow n es :=
  ⟨Expr.sumDepthList es, Expr.sumDepthList_le_iff.mp le_rfl⟩

/-- The terms of a sum are less deep. -/
theorem shallow_of_sum {n : Nat} {terms : List Expr} (h : (Expr.sum terms).sumDepth ≤ n) :
    ∃ n', n = n' + 1 ∧ Shallow n' terms := by
  obtain ⟨n', rfl⟩ := Nat.exists_eq_add_of_le' ((Nat.le_add_left 1 _).trans h)
  exact ⟨n', rfl, Expr.sumDepthList_le_iff.mp (Nat.le_of_succ_le_succ h)⟩

theorem shallow_prod {n : Nat} {fs : List Expr} : (Expr.prod fs).sumDepth ≤ n ↔ Shallow n fs :=
  Expr.sumDepthList_le_iff

theorem sumDepth_le_of_mem_factors {e f : Expr} (h : f ∈ e.factors) : f.sumDepth ≤ e.sumDepth := by
  cases hliteral : f.literal? with
  | some n =>
      obtain rfl := Expr.eq_lit_of_literal? hliteral
      exact Nat.zero_le _
  | none =>
      refine Expr.sumDepth_le_of_mem_cofactors (List.mem_filter.mpr ⟨h, ?_⟩)
      simp [Expr.isLiteral, hliteral]

theorem sumDepth_splitCoefficient_le (e : Expr) : e.splitCoefficient.2.sumDepth ≤ e.sumDepth := by
  unfold Expr.splitCoefficient
  split
  · exact shallow_prod.mp le_rfl _ (by simp)
  · next rest _ =>
      refine shallow_prod.mpr fun f hf => ?_
      exact shallow_prod.mp le_rfl f (List.mem_cons_of_mem _ hf)
  · exact le_rfl

theorem shallow_foldl_times {n : Nat} {es : List Expr} (hes : Shallow n es) {m : Monomial}
    (hm : Shallow n m.factors) : Shallow n (es.foldl A.times m).factors := by
  induction es generalizing m with
  | nil => exact hm
  | cons e es ih =>
      obtain ⟨he, hes⟩ := List.forall_mem_cons.mp hes
      refine ih hes ?_
      cases e with
      | lit => exact hm
      | _ => exact hm.concat he

/-- Sums are nested at most `n` deep in the keys of a table of coefficients. -/
def ShallowTable (n : Nat) (entries : List (Expr × Literal)) : Prop :=
  Shallow n (entries.map Prod.fst)

theorem shallowTable_plus {n : Nat} {c : Collected} (hc : ShallowTable n c.coefficients) {e : Expr}
    (he : e.sumDepth ≤ n) : ShallowTable n (A.plus c e).coefficients := by
  have hadjust (f : Literal → Literal) : ShallowTable n
      (Ascending.adjust e.splitCoefficient.2 (.int 0) f c.coefficients) := by
    intro k hk
    rw [Ascending.keys_adjust] at hk
    rcases Ascending.mem_of_mem_insert hk with rfl | hk
    · exact (sumDepth_splitCoefficient_le e).trans he
    · exact hc k hk
  cases e with
  | lit => exact hc
  | _ => exact hadjust _

/-! ### Results -/

/-- The task ends, with a result in which sums are nested at most `n` deep. -/
def EndsWithin (A : Arithmetic) (n : Nat) (t : Task) : Prop :=
  ∃ e : Expr, e.sumDepth ≤ n ∧ Runs A t (.done e)

theorem EndsWithin.of_runs {n : Nat} (h : Runs A t t') (h' : EndsWithin A n t') :
    EndsWithin A n t := by
  obtain ⟨e, he, hruns⟩ := h'
  exact ⟨e, he, h.trans hruns⟩

/-- Products of this depth end, and are not deeper. -/
def ProductsEnd (A : Arithmetic) (n : Nat) : Prop :=
  ∀ es m, Shallow n es → Shallow n m.factors → EndsWithin A n (.multiplying es.reverse m)

theorem ProductsEnd.product {n : Nat} (h : ProductsEnd A n) {fs : List Expr} (hfs : Shallow n fs) :
    EndsWithin A n (.product fs) := h fs _ hfs (shallow_nil n)

theorem ProductsEnd.scale {n : Nat} (h : ProductsEnd A n) (coefficient : Literal) {e : Expr}
    (he : e.sumDepth ≤ n) : EndsWithin A n (A.scale coefficient e) := by
  unfold Arithmetic.scale
  split
  · exact ⟨e, he, .refl _⟩
  · refine h.product (List.forall_mem_cons.mpr ⟨Nat.zero_le n, ?_⟩)
    exact List.forall_mem_singleton.mpr he

/-- A summand becomes finitely many of less depth, or goes into the collection. -/
theorem exists_runs_adding {n : Nat} (h : ∀ d ≤ n, ProductsEnd A d) {d : Nat} (hd : d ≤ n)
    {es : List Expr} (hes : Shallow d es) (pending : List Expr) {c : Collected}
    (hc : ShallowTable n c.coefficients) :
    ∃ c', ShallowTable n c'.coefficients ∧
      Runs A (.adding (es ++ pending) c) (.adding pending c') := by
  induction d using Nat.strong_induction_on generalizing es pending c with
  | _ d ihdepth =>
      induction es generalizing c with
      | nil => exact ⟨c, hc, .refl _⟩
      | cons e es ih =>
          obtain ⟨he, hes⟩ := List.forall_mem_cons.mp hes
          -- What is added is the summand itself or, if it is a product, what it gives.
          obtain ⟨term, hterm, htake⟩ : ∃ term : Expr, term.sumDepth ≤ d ∧
              Runs A (.adding (e :: (es ++ pending)) c) (A.take term (es ++ pending) c) := by
            cases e with
            | prod fs =>
                obtain ⟨term, hterm, hproduct⟩ := (h d hd).product (shallow_prod.mp he)
                exact ⟨term, hterm, runs_adding_prod hproduct⟩
            | _ => exact ⟨_, he, .of_step fun _ => rfl⟩
          obtain ⟨c₁, hc₁, hadded⟩ : ∃ c₁, ShallowTable n c₁.coefficients ∧
              Runs A (A.take term (es ++ pending) c) (.adding (es ++ pending) c₁) := by
            have hplus := shallowTable_plus (A := A) hc (hterm.trans hd)
            cases term with
            | sum inner =>
                obtain ⟨d', rfl, hinner⟩ := shallow_of_sum hterm
                exact ihdepth d' d'.lt_succ_self (by omega) hinner.reverse (es ++ pending) hc
            | _ => exact ⟨_, hplus, .refl _⟩
          obtain ⟨c', hc', hrest⟩ := ih hes hc₁
          exact ⟨c', hc', htake.trans (hadded.trans hrest)⟩

theorem endsWithin_closed {n : Nat} (constant : Literal) {terms : List Expr} (h : Shallow n terms) :
    EndsWithin A (n + 1) (.closing [] constant terms) := by
  refine ⟨A.closed constant terms, ?_, .of_step fun _ => rfl⟩
  have hall : Shallow n (terms ++ if A.isZero constant then [] else [.lit constant]) := by
    split
    · exact (List.append_nil terms).symm ▸ h
    · exact h.concat (Nat.zero_le n)
  unfold Arithmetic.closed
  split
  · exact Nat.zero_le _
  · next e heq =>
      rw [heq] at hall
      exact (hall e List.mem_cons_self).trans n.le_succ
  · exact Nat.succ_le_succ hall.sumDepth_sort

theorem endsWithin_closing {n : Nat} (h : ProductsEnd A n) {entries : List (Expr × Literal)}
    (hentries : ShallowTable n entries) (constant : Literal) {terms : List Expr}
    (hterms : Shallow n terms) : EndsWithin A (n + 1) (.closing entries constant terms) := by
  induction entries generalizing terms with
  | nil => exact endsWithin_closed constant hterms
  | cons entry entries ih =>
      obtain ⟨rest, coefficient⟩ := entry
      obtain ⟨hrest, hentries⟩ := List.forall_mem_cons.mp hentries
      by_cases hzero : A.isZero coefficient = true
      · exact .of_runs (runs_closing_of_isZero hzero) (ih hentries hterms)
      · obtain ⟨e, he, hscale⟩ := h.scale coefficient hrest
        exact .of_runs (runs_closing_of_not_isZero hzero hscale) (ih hentries (hterms.concat he))

theorem endsWithin_adding {n : Nat} (h : ∀ d ≤ n, ProductsEnd A d) {es : List Expr}
    (hes : Shallow n es) {c : Collected} (hc : ShallowTable n c.coefficients) :
    EndsWithin A (n + 1) (.adding es c) := by
  obtain ⟨c', hc', hruns⟩ := exists_runs_adding h le_rfl hes [] hc
  rw [List.append_nil] at hruns
  have hclosing := endsWithin_closing (h n le_rfl) hc' c'.constant (shallow_nil n)
  exact .of_runs (hruns.trans runs_adding_nil) hclosing

theorem endsWithin_spreading {n : Nat} (h : ∀ d ≤ n, ProductsEnd A d) (coefficient : Literal)
    {terms multiples : List Expr} (hterms : Shallow n terms) (hmultiples : Shallow n multiples) :
    EndsWithin A (n + 1) (.spreading coefficient terms multiples) := by
  induction terms generalizing multiples with
  | nil =>
      exact .of_runs (.of_step fun _ => rfl)
        (endsWithin_adding h hmultiples.reverse (shallow_nil n))
  | cons t terms ih =>
      obtain ⟨ht, hterms⟩ := List.forall_mem_cons.mp hterms
      obtain ⟨e, he, hscale⟩ := (h n le_rfl).scale coefficient ht
      exact .of_runs (runs_spreading_cons hscale) (ih hterms (hmultiples.concat he))

/-- A product is at an end when all factors have been taken, or its constant is spread. -/
theorem multiplied_cases (A : Arithmetic) (m : Monomial) :
    (∃ e, A.multiplied m = .done e ∧ ∀ n, Shallow n m.factors → e.sumDepth ≤ n) ∨
      ∃ terms, m.factors = [.sum terms] ∧ A.multiplied m = .spreading m.coefficient terms [] := by
  obtain ⟨coefficient, factors⟩ := m
  unfold Arithmetic.multiplied
  split
  · exact .inl ⟨_, rfl, fun n _ => Nat.zero_le n⟩
  · split
    · split
      · exact .inl ⟨_, rfl, fun n _ => Nat.zero_le n⟩
      · next e heq => exact .inl ⟨e, rfl, fun n hn => hn e (heq ▸ List.mem_cons_self)⟩
      · exact .inl ⟨_, rfl, fun n hn => hn.sumDepth_sort⟩
    · split
      · exact .inl ⟨_, rfl, fun n _ => Nat.zero_le n⟩
      · next terms heq => exact .inr ⟨terms, heq, rfl⟩
      · refine .inl ⟨_, rfl, fun n hn => ?_⟩
        refine shallow_prod.mpr (List.forall_mem_cons.mpr ⟨Nat.zero_le n, ?_⟩)
        exact Expr.sumDepthList_le_iff.mp hn.sumDepth_sort

/-- A constant is spread over terms that are less deep than the product. -/
theorem productsEnd (A : Arithmetic) (n : Nat) : ProductsEnd A n := by
  induction n using Nat.strong_induction_on with
  | _ n ih =>
      intro es m hes hm
      refine .of_runs (runs_multiplying es m) ?_
      have hfactors : Shallow n ((Expr.factorsList es).reverse.foldl A.times m).factors := by
        refine shallow_foldl_times (fun f hf => ?_) hm
        have hmem : f ∈ (Expr.prod es).factors := List.mem_reverse.mp hf
        exact (sumDepth_le_of_mem_factors hmem).trans (shallow_prod.mpr hes)
      rcases multiplied_cases A ((Expr.factorsList es).reverse.foldl A.times m) with
        ⟨e, heq, he⟩ | ⟨terms, hsum, heq⟩
      · exact heq ▸ ⟨e, he n hfactors, .refl _⟩
      · rw [hsum] at hfactors
        obtain ⟨n', rfl, hterms⟩ := shallow_of_sum (hfactors _ List.mem_cons_self)
        rw [heq]
        exact endsWithin_spreading (fun d hd => ih d (Nat.lt_succ_of_le hd)) _ hterms
          (shallow_nil n')

/-! ### The end of every run -/

theorem exists_runs_done (A : Arithmetic) (t : Task) : ∃ e, Runs A t (.done e) := by
  have hresult {n : Nat} {t : Task} (h : EndsWithin A n t) : ∃ e, Runs A t (.done e) := by
    obtain ⟨e, -, he⟩ := h
    exact ⟨e, he⟩
  cases t with
  | adding pending c =>
      obtain ⟨n, hn⟩ := exists_shallow (pending ++ c.coefficients.map Prod.fst)
      obtain ⟨hpending, hc⟩ := List.forall_mem_append.mp hn
      exact hresult (endsWithin_adding (fun d _ => productsEnd A d) hpending hc)
  | closing entries constant terms =>
      obtain ⟨n, hn⟩ := exists_shallow (entries.map Prod.fst ++ terms)
      obtain ⟨hentries, hterms⟩ := List.forall_mem_append.mp hn
      exact hresult (endsWithin_closing (productsEnd A n) hentries constant hterms)
  | multiplying pending m =>
      obtain ⟨n, hn⟩ := exists_shallow (pending.reverse ++ m.factors)
      obtain ⟨hpending, hm⟩ := List.forall_mem_append.mp hn
      exact hresult (List.reverse_reverse pending ▸ productsEnd A n pending.reverse m hpending hm)
  | spreading coefficient terms multiples =>
      obtain ⟨n, hn⟩ := exists_shallow (terms ++ multiples)
      obtain ⟨hterms, hmultiples⟩ := List.forall_mem_append.mp hn
      exact hresult
        (endsWithin_spreading (fun d _ => productsEnd A d) coefficient hterms hmultiples)
  | done e => exact ⟨e, .refl _⟩

/-- A state ends when its task and all that waits for it have ended. -/
theorem exists_reaches_done (A : Arithmetic) (s : State) :
    ∃ e, Reaches A.step s ⟨.done e, []⟩ := by
  obtain ⟨t, k⟩ := s
  induction k generalizing t with
  | nil =>
      obtain ⟨e, he⟩ := exists_runs_done A t
      exact ⟨e, he []⟩
  | cons frame k ih =>
      obtain ⟨e, he⟩ := exists_runs_done A t
      obtain ⟨e', he'⟩ := ih (A.resume frame e)
      exact ⟨e', (he (frame :: k)).trans (.head rfl he')⟩

theorem wellFounded_step (A : Arithmetic) : WellFounded fun s' s => A.step s = some s' := by
  constructor
  intro s
  obtain ⟨e, he⟩ := exists_reaches_done A s
  induction he using Relation.ReflTransGen.head_induction_on with
  | refl => exact ⟨_, fun s' hs' => by cases hs'⟩
  | head hstep _ ih =>
      -- There is only one next state.
      refine ⟨_, fun s' hs' => ?_⟩
      obtain rfl := Option.some.inj (hs'.symm.trans hstep)
      exact ih

end Worklist

end GridAccess
