import GridAccess.Proofs.Alignment.Value

/-!
The restriction of a subdomain reaches all that stands inside accesses, and nothing that stands
outside. It is applied to the finished indices of every use of a field. The uses inside these have
been aligned without it by then, so that it gets to them this one time.
-/

namespace GridAccess.Alignment

open GridAccess.Expr (EveryAccess)

section

variable {s : Subdomain} (h : ∀ d ∈ s.introduced, d ∉ s.restricted)
include h

theorem everyAccess_store (f : Field) (align : Nat → Expr → Expr) (indices : List Expr) :
    EveryAccess (fun _ indices => ∀ index ∈ indices, index.Avoids s.restricted)
      (store f align s.substitution indices) := by
  refine allNodes_store ?_ fun axis e _ => Expr.everyAccess_iff.mpr ?_
  · intro index hindex
    obtain ⟨axis, haxis, rfl⟩ := List.mem_mapIdx.mp hindex
    exact Expr.avoids_substFold h _
  · intro g nested hn index hindex d hd hdim
    have hinside : .dim d ∈ (Expr.access g nested).nodes :=
      Expr.mem_nodes_access.mpr (.inr ⟨index, hindex, hdim⟩)
    exact Expr.avoids_substFold h _ d hd (Expr.mem_nodes_trans hinside hn)

theorem everyAccess_subst_storedAmong (unitSpacing : Bool) (depth : Nat) {ns : List Expr}
    {e : Expr} (he : ∀ n ∈ e.nodes, n ∈ ns) :
    EveryAccess (fun _ indices => ∀ index ∈ indices, index.Avoids s.restricted)
      (e.subst (storedAmong unitSpacing depth s.substitution ns)) := by
  refine Expr.everyAccess_subst ?_ fun n hn => noUse_of_find?_eq_none (he n hn)
  intro n r hfind
  rcases exists_use_of_find? hfind with ⟨c, -, -, rfl⟩ | ⟨a, -, -, rfl⟩
  · exact everyAccess_store h _ _ _
  · exact everyAccess_store h _ _ _

end

/-- In an equation that is aligned without replacements, no restricted dimension is left in an index
of an access, however deep it is nested. All that stands outside the uses of fields is as it is
written. -/
theorem restriction_complete_in_accesses (unitSpacing : Bool) {eq : Equation} {s : Subdomain}
    (hs : eq.subdomain = some s) (h : ∀ d ∈ s.introduced, d ∉ s.restricted) :
    (∀ f indices, .access f indices ∈ (alignEquation ⟨.empty, unitSpacing⟩ eq).lhs.nodes ++
        (alignEquation ⟨.empty, unitSpacing⟩ eq).rhs.nodes →
      ∀ index ∈ indices, index.Avoids s.restricted) ∧
    (alignEquation ⟨.empty, unitSpacing⟩ eq).lhs.outline = eq.lhs.outline ∧
    (alignEquation ⟨.empty, unitSpacing⟩ eq).rhs.outline = eq.rhs.outline ∧
    (alignEquation ⟨.empty, unitSpacing⟩ eq).implicitDims = eq.implicitDims ∧
    (alignEquation ⟨.empty, unitSpacing⟩ eq).subdomain = eq.subdomain := by
  have hrestriction : eq.restriction = s.substitution := by
    rw [Equation.restriction, hs]
    rfl
  have hlhs : ∀ n ∈ eq.lhs.nodes, n ∈ eq.lhs.nodes ++ eq.rhs.nodes :=
    fun _ => List.mem_append_left _
  have hrhs : ∀ n ∈ eq.rhs.nodes, n ∈ eq.lhs.nodes ++ eq.rhs.nodes :=
    fun _ => List.mem_append_right _
  rw [alignEquation_eq, hrestriction]
  refine ⟨fun f indices hn => ?_, outline_subst_storedAmong hlhs, outline_subst_storedAmong hrhs,
    rfl, rfl⟩
  rcases List.mem_append.mp hn with hn | hn
  · exact everyAccess_subst_storedAmong h unitSpacing _ hlhs _ hn
  · exact everyAccess_subst_storedAmong h unitSpacing _ hrhs _ hn

/-- The equation `u(x) = x*u(x + g(u[x])) + u[x]` on the inner part of the axis, with the same
access at the top and nested. -/
def weightedRead : Equation where
  lhs := .call fieldU [.dim axisX]
  rhs := .sum [.prod [.dim axisX, .call fieldU [.sum [.dim axisX,
    .call fieldG [.access fieldU [.dim axisX]]]]], .access fieldU [.dim axisX]]
  implicitDims := []
  subdomain := some ⟨"inner", [(axisX, innerX)]⟩

theorem restriction_complete_in_accesses_weightedRead :
    (∀ f indices, .access f indices ∈ (alignEquation ⟨.empty, true⟩ weightedRead).lhs.nodes ++
        (alignEquation ⟨.empty, true⟩ weightedRead).rhs.nodes →
      ∀ index ∈ indices, index.Avoids [axisX]) ∧
    (alignEquation ⟨.empty, true⟩ weightedRead).rhs.outline =
      .sum [.prod [.dim axisX, .access fieldU []], .access fieldU []] := by
  have hs : weightedRead.subdomain = some ⟨"inner", [(axisX, innerX)]⟩ := rfl
  obtain ⟨haccesses, -, hrhs, -⟩ := restriction_complete_in_accesses true hs (by decide)
  exact ⟨haccesses, hrhs⟩

end GridAccess.Alignment
