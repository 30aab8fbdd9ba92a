import GridAccess.Proofs.Equation.LoopOrder
import GridAccess.Proofs.Expr.Occurrence

/-!
What the searches report, for one expression and for the two sides of an equation alike: everything
that is looked for, each thing once, and what is inside another thing before that one.
-/

namespace GridAccess

open GridAccess.Expr (Occurs OccursOutside)

/-- `b` stands in the indices of `a`. -/
def Access.Inside (b a : Access) : Prop := ∃ index ∈ a.indices, Occurs b.toExpr index

/-- `d` stands in the arguments of `c`. -/
def Call.Inside (d c : Call) : Prop := ∃ arg ∈ c.args, Occurs d.toExpr arg

/-- What is reported for the expressions `roots`. Dimensions come in ascending order. -/
structure Reports (roots : List Expr) (dimensions : List Dimension) (outer all : List Access)
    (calls : List Call) : Prop where
  mem_dimensions : ∀ d, d ∈ dimensions ↔ ∃ e ∈ roots, Occurs (.dim d) e
  ascending : Ascending.Strict dimensions
  enumerates_outer : Enumerates (fun a => ∃ e ∈ roots, OccursOutside a.toExpr e) outer
  enumerates_all : Enumerates (fun a => ∃ e ∈ roots, Occurs a.toExpr e) all
  innerFirst_all : InnerFirst Access.Inside all
  enumerates_calls : Enumerates (fun c => ∃ e ∈ roots, Occurs c.toExpr e) calls
  innerFirst_calls : InnerFirst Call.Inside calls

theorem Reports.of_nodes {roots : List Expr} {dimensions : List Dimension}
    (hmem : ∀ d, d ∈ dimensions ↔ ∃ e ∈ roots, .dim d ∈ e.nodes)
    (hstrict : Ascending.Strict dimensions) :
    Reports roots dimensions (roots.flatMap Expr.outermost).eraseDups
      ((roots.flatMap Expr.nodes).filterMap Expr.access?).eraseDups
      ((roots.flatMap Expr.nodes).filterMap Expr.call?).eraseDups := by
  have hinside := Expr.nodesInside_flatMap fun e (_ : e ∈ roots) => e.nodesInside_nodes
  constructor
  case mem_dimensions => simpa only [Expr.mem_nodes_iff_occurs] using hmem
  case ascending => exact hstrict
  case enumerates_outer =>
    refine .eraseDups fun a => ?_
    simp only [List.mem_flatMap, Expr.mem_outermost_iff]
  case enumerates_all => exact UseKind.accesses.enumerates roots
  case innerFirst_all =>
    refine UseKind.accesses.innerFirst (fun {a b} hb => ?_) hinside
    simp only [Access.Inside, ← Expr.mem_nodes_iff_occurs] at hb
    exact hb
  case enumerates_calls => exact UseKind.calls.enumerates roots
  case innerFirst_calls =>
    refine UseKind.calls.innerFirst (fun {c d} hd => ?_) hinside
    simp only [Call.Inside, ← Expr.mem_nodes_iff_occurs] at hd
    exact hd

theorem Expr.reports (e : Expr) :
    Reports [e] e.dimensions e.outerAccesses e.allAccesses e.calls := by
  have h : Reports [e] e.dimensions _ _ _ :=
    .of_nodes (by simp [Expr.mem_dimensions]) (Ascending.strict_ofList _)
  simp only [List.flatMap_singleton] at h
  exact h

theorem Equation.reports (eq : Equation) :
    Reports [eq.lhs, eq.rhs] eq.dimensions eq.outerAccesses eq.allAccesses eq.calls := by
  have h : Reports [eq.lhs, eq.rhs] eq.dimensions _ _ _ :=
    .of_nodes (by simp [Equation.mem_dimensions])
      (Ascending.strict_insertAll (Ascending.strict_ofList _))
  simp only [List.flatMap_cons, List.flatMap_nil, List.append_nil] at h
  exact h

/-- The searches are complete and report nothing twice, in one expression and in both sides of an
equation, for any nesting of accesses and calls. Accesses and calls come after those inside them,
also where one of these is found at another place first, and whether there is an access at all is
known from the outermost ones. What is found in an equation is what is found in its left side and
then, of what is found in its right side, the rest. -/
theorem searches_complete_once_inner_first :
    (∀ e : Expr, Reports [e] e.dimensions e.outerAccesses e.allAccesses e.calls ∧
      (e.hasAccess = true ↔ e.outerAccesses ≠ []) ∧ (e.hasAccess = true ↔ e.allAccesses ≠ [])) ∧
    ∀ eq : Equation,
      Reports [eq.lhs, eq.rhs] eq.dimensions eq.outerAccesses eq.allAccesses eq.calls ∧
      eq.outerAccesses = merge eq.lhs.outerAccesses eq.rhs.outerAccesses ∧
      eq.allAccesses = merge eq.lhs.allAccesses eq.rhs.allAccesses ∧
      eq.calls = merge eq.lhs.calls eq.rhs.calls := by
  refine ⟨fun e => ⟨e.reports, ?_, ?_⟩, fun eq => ⟨eq.reports, eraseDups_append _ _, ?_, ?_⟩⟩
  · rw [Ne, Expr.outerAccesses_eq_nil_iff, Bool.not_eq_false]
  · rw [Expr.hasAccess_iff]
    constructor
    · rintro ⟨a, ha⟩
      obtain ⟨b, hb, -⟩ := e.reports.enumerates_all.complete a ⟨e, List.mem_singleton_self e, ha⟩
      exact List.ne_nil_of_mem hb
    · intro hne
      obtain ⟨a, ha⟩ := List.exists_mem_of_ne_nil _ hne
      obtain ⟨_, he, ha⟩ := e.reports.enumerates_all.sound a ha
      exact ⟨a, List.mem_singleton.mp he ▸ ha⟩
  · rw [Equation.allAccesses, List.filterMap_append]
    exact eraseDups_append _ _
  · rw [Equation.calls, List.filterMap_append]
    exact eraseDups_append _ _

end GridAccess
