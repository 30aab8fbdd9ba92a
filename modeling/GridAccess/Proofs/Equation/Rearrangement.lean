import GridAccess.Proofs.Equation.Demands

/-!
Equations that are put together in different ways. Sums and products outside the indices of
accesses may have their operands permuted, repeated and nested, and the sides may be swapped. None
of this changes which dimensions, accesses and outermost accesses occur, and these alone decide
what is ordered and which constraints there are.
-/

namespace GridAccess

namespace Expr

/-! ### Rearranged expressions -/

/-- Operands in another order, one of them once more, or some of them in a node of their own. -/
inductive Regrouped (node : List Expr → Expr) : List Expr → List Expr → Prop
  | permute {as bs : List Expr} : as.Perm bs → Regrouped node as bs
  | duplicate {a : Expr} {as : List Expr} : a ∈ as → Regrouped node as (a :: as)
  | nest (as bs : List Expr) : Regrouped node (as ++ bs) (node as :: bs)

/-- Sums and products regrouped any number of times, anywhere but inside of accesses. A single
expression may be made a sum or a product. -/
inductive Rearranged : Expr → Expr → Prop
  | refl (e : Expr) : Rearranged e e
  | symm {a b : Expr} : Rearranged a b → Rearranged b a
  | trans {a b c : Expr} : Rearranged a b → Rearranged b c → Rearranged a c
  | wrapSum (e : Expr) : Rearranged e (.sum [e])
  | wrapProd (e : Expr) : Rearranged e (.prod [e])
  | sum {as bs : List Expr} : Regrouped .sum as bs → Rearranged (.sum as) (.sum bs)
  | prod {as bs : List Expr} : Regrouped .prod as bs → Rearranged (.prod as) (.prod bs)
  | inSum (before after : List Expr) {a b : Expr} :
      Rearranged a b → Rearranged (.sum (before ++ a :: after)) (.sum (before ++ b :: after))
  | inProd (before after : List Expr) {a b : Expr} :
      Rearranged a b → Rearranged (.prod (before ++ a :: after)) (.prod (before ++ b :: after))
  | inCall (f : Field) (before after : List Expr) {a b : Expr} :
      Rearranged a b → Rearranged (.call f (before ++ a :: after)) (.call f (before ++ b :: after))
  | inBase (exponent : Expr) {a b : Expr} :
      Rearranged a b → Rearranged (.pow a exponent) (.pow b exponent)
  | inExponent (base : Expr) {a b : Expr} :
      Rearranged a b → Rearranged (.pow base a) (.pow base b)

theorem Regrouped.exists_iff {P : Expr → Prop} {node : List Expr → Expr}
    (hnode : ∀ es, P (node es) ↔ ∃ e ∈ es, P e) {as bs : List Expr} (h : Regrouped node as bs) :
    (∃ e ∈ as, P e) ↔ ∃ e ∈ bs, P e := by
  cases h with
  | permute hperm => simp only [hperm.mem_iff]
  | @duplicate a as ha =>
      rw [List.exists_mem_cons_iff]
      exact (or_iff_right_of_imp fun hP => ⟨a, ha, hP⟩).symm
  | nest as bs =>
      rw [List.exists_mem_cons_iff, hnode]
      simp only [List.mem_append, or_and_right, exists_or]

theorem exists_mem_append_cons_iff {P : Expr → Prop} {a b : Expr} (before after : List Expr)
    (h : P a ↔ P b) :
    (∃ e ∈ before ++ a :: after, P e) ↔ ∃ e ∈ before ++ b :: after, P e := by
  simp only [List.mem_append, List.mem_cons, or_and_right, exists_or, exists_eq_left, h]

theorem Rearranged.iff {P : Expr → Prop} (hP : Scattered P) {a b : Expr} (h : Rearranged a b) :
    P a ↔ P b := by
  induction h with
  | refl => exact Iff.rfl
  | symm _ ih => exact ih.symm
  | trans _ _ ih ih' => exact ih.trans ih'
  | wrapSum e => simp [hP.sum_iff]
  | wrapProd e => simp [hP.prod_iff]
  | sum h =>
      rw [hP.sum_iff, hP.sum_iff]
      exact h.exists_iff fun _ => hP.sum_iff
  | prod h =>
      rw [hP.prod_iff, hP.prod_iff]
      exact h.exists_iff fun _ => hP.prod_iff
  | inSum before after _ ih =>
      rw [hP.sum_iff, hP.sum_iff]
      exact exists_mem_append_cons_iff before after ih
  | inProd before after _ ih =>
      rw [hP.prod_iff, hP.prod_iff]
      exact exists_mem_append_cons_iff before after ih
  | inCall f before after _ ih =>
      rw [hP.call_iff, hP.call_iff]
      exact exists_mem_append_cons_iff before after ih
  | inBase exponent _ ih | inExponent base _ ih => rw [hP.pow_iff, hP.pow_iff, ih]

end Expr

namespace Equation

/-! ### Rearranged equations -/

/-- The sides are rearranged, and maybe swapped. -/
structure Rearranged (eq eq' : Equation) : Prop where
  implicitDims_eq : eq.implicitDims = eq'.implicitDims
  sides : eq.lhs.Rearranged eq'.lhs ∧ eq.rhs.Rearranged eq'.rhs ∨
    eq.lhs.Rearranged eq'.rhs ∧ eq.rhs.Rearranged eq'.lhs

variable {eq eq' : Equation}

namespace Rearranged

theorem iff (h : eq.Rearranged eq') {P : Expr → Prop} (hP : Expr.Scattered P) :
    eq.Occurs P ↔ eq'.Occurs P := by
  rw [Occurs, Occurs]
  rcases h.sides with ⟨hlhs, hrhs⟩ | ⟨hlhs, hrhs⟩
  · rw [hlhs.iff hP, hrhs.iff hP]
  · rw [hlhs.iff hP, hrhs.iff hP, or_comm]

theorem sameDemands (h : eq.Rearranged eq') : eq.SameDemands eq' where
  implicitDims_eq := h.implicitDims_eq
  dim_iff d := h.iff (Expr.scattered_dim d)
  accessed_iff f := h.iff (Expr.scattered_accesses f)
  implied_iff relation := h.iff (Expr.scattered_implies relation)

end Rearranged

/-- Rearranged equations have the same order and the same relations, or the same circular
dependency is reported for both of them. -/
theorem loopOrder_of_rearranged (h : eq.Rearranged eq') :
    (∃ order, eq.loopOrder = .ok order ∧ eq'.loopOrder = .ok order) ∨
      ∃ culprits, eq.loopOrder = .error (eq.blame (.circular culprits)) ∧
        eq'.loopOrder = .error (eq'.blame (.circular culprits)) :=
  h.sameDemands.loopOrder_eq

def accessU (t : Expr) : Expr := .access (.bare "u" [time, spaceX]) [t, .dim innerX]

def accessW : Expr := .access (.bare "w" [pointP]) [.dim pointP]

/-- The equation `u[t + 1, inner] = u[t, inner] + 2*(w[p] + u[t, inner])`. -/
def update : Equation where
  lhs := accessU (.sum [.dim stepT, .int 1])
  rhs := .sum [accessU (.dim stepT), .prod [.int 2, .sum [accessW, accessU (.dim stepT)]]]
  implicitDims := [stepT]
  subdomain := none

/-- The equation `(u[t, inner]) + (w[p] + w[p] + u[t, inner])*2 = u[t + 1, inner]`. -/
def regroupedUpdate : Equation where
  lhs := .sum [.sum [accessU (.dim stepT)],
    .prod [.sum [accessW, accessW, accessU (.dim stepT)], .int 2]]
  rhs := accessU (.sum [.dim stepT, .int 1])
  implicitDims := [stepT]
  subdomain := none

theorem update_rearranged : update.Rearranged regroupedUpdate where
  implicitDims_eq := rfl
  sides := by
    have hfactors : Expr.Rearranged (.prod [.int 2, .sum [accessW, accessU (.dim stepT)]])
        (.prod [.sum [accessW, accessW, accessU (.dim stepT)], .int 2]) := by
      refine .trans (.inProd [.int 2] [] (.sum (.duplicate List.mem_cons_self))) ?_
      exact .prod (.permute (.swap _ _ _))
    have hterms : Expr.Rearranged update.rhs regroupedUpdate.lhs := by
      refine .trans (.inSum [accessU (.dim stepT)] [] hfactors) ?_
      exact .sum (.nest [accessU (.dim stepT)] _)
    exact .inr ⟨.refl _, hterms⟩

theorem loopOrder_of_rearranged_update :
    update.Rearranged regroupedUpdate ∧
      ((∃ order, update.loopOrder = .ok order ∧ regroupedUpdate.loopOrder = .ok order) ∨
        ∃ culprits, update.loopOrder = .error (update.blame (.circular culprits)) ∧
          regroupedUpdate.loopOrder = .error (regroupedUpdate.blame (.circular culprits))) :=
  ⟨update_rearranged, loopOrder_of_rearranged update_rearranged⟩

end Equation

end GridAccess
