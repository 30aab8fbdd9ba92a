import GridAccess.Equation.LoopOrder
import GridAccess.Proofs.Expr.Relation
import GridAccess.Proofs.Precedence.Arrangement

/-!
The order in which the dimensions of an equation are iterated, against the constraints on it. The
constraints are stated without the lists that the sort builds: which dimensions have a place in the
order is a closure under parents, and which relations constrain it is read off the accesses of both
sides. The lists are shown to hold just these, and what is left is the linearization of a graph.
What is in the order is at last described once more without the closure, by chains of parents.
-/

namespace GridAccess

namespace Equation

variable {eq : Equation}

/-! ### Constraints -/

/-- The dimensions to be ordered: those that are used anywhere, the axes of every accessed field,
the implicit ones, and the parents of all these. -/
inductive Ordered (eq : Equation) : Dimension → Prop
  | used {d : Dimension} : .dim d ∈ eq.lhs.nodes ++ eq.rhs.nodes → Ordered eq d
  | axis {f : Field} {indices : List Expr} {d : Dimension} :
      .access f indices ∈ eq.lhs.nodes ++ eq.rhs.nodes → d ∈ f.dimensions → Ordered eq d
  | implicit {d : Dimension} : d ∈ eq.implicitDims → Ordered eq d
  | parent {d p : Dimension} : Ordered eq d → d.parent? = some p → Ordered eq p

/-- What the outermost accesses of both sides and the implicit dimensions imply. -/
inductive AccessConstraint (eq : Equation) : List Dimension → Prop
  | access {a : Access} : a ∈ eq.lhs.outermost ++ eq.rhs.outermost → a.relation ≠ [] →
      AccessConstraint eq a.relation
  | implicit : eq.implicitDims ≠ [] → AccessConstraint eq eq.implicitDims

/-- The relations that the order has to keep. -/
inductive Constraint (eq : Equation) : List Dimension → Prop
  | direct {relation : List Dimension} : AccessConstraint eq relation → Constraint eq relation
  | roots {relation : List Dimension} : AccessConstraint eq relation →
      Constraint eq (relation.map Dimension.top)
  | parent {d p : Dimension} : Ordered eq d → d.parent? = some p → Constraint eq [p, d]

/-- Some constraint has `a` before a different `b`. -/
def Forces (eq : Equation) (a b : Dimension) : Prop :=
  a ≠ b ∧ ∃ relation, eq.Constraint relation ∧ [a, b].Sublist relation

/-- Each dimension stands once, after its parent, and where the constraints have it; and the
constraints are the relations that the arrangement comes with. -/
structure Honors (eq : Equation) (order : Arrangement Dimension) : Prop where
  nodup : order.items.Nodup
  parent_before : ∀ d ∈ order.items, ∀ p, d.parent? = some p → [p, d].Sublist order.items
  mem_items : ∀ relation, eq.Constraint relation → ∀ d ∈ relation, d ∈ order.items
  in_order : ∀ relation, eq.Constraint relation → ∀ a b, a ≠ b → [a, b].Sublist relation →
    [a, b].Sublist order.items
  relations_nodup : order.relations.Nodup
  mem_relations_iff : ∀ relation, relation ∈ order.relations ↔ eq.Constraint relation

/-! ### Ancestors -/

theorem parent_mem_ancestors {d p : Dimension} (h : d.parent? = some p) : p ∈ d.ancestors := by
  cases d with
  | root => cases h
  | derived n k q =>
      obtain rfl := Option.some.inj h
      exact List.mem_cons_self

theorem parent_ne {d p : Dimension} (h : d.parent? = some p) : p ≠ d := by
  cases d with
  | root => cases h
  | derived n k q =>
      obtain rfl := Option.some.inj h
      intro hself
      have hsize := congrArg sizeOf hself
      simp only [Dimension.derived.sizeOf_spec] at hsize
      omega

theorem parent_mem_ancestors_of_mem {d p q : Dimension} (hq : q ∈ d.ancestors)
    (hp : q.parent? = some p) : p ∈ d.ancestors := by
  induction d with
  | root => cases hq
  | derived n k r ih =>
      rcases List.mem_cons.mp hq with rfl | hq
      · exact List.mem_cons_of_mem _ (parent_mem_ancestors hp)
      · exact List.mem_cons_of_mem _ (ih hq)

theorem Ordered.ancestors {d : Dimension} (h : eq.Ordered d) : ∀ p ∈ d.ancestors, eq.Ordered p := by
  induction d with
  | root => intro p hp; cases hp
  | derived n k q ih =>
      have hq : eq.Ordered q := h.parent rfl
      intro p hp
      rcases List.mem_cons.mp hp with rfl | hp
      · exact hq
      · exact ih hq p hp

theorem Ordered.top {d : Dimension} (h : eq.Ordered d) : eq.Ordered d.top := by
  induction d with
  | root => exact h
  | derived n k q ih => exact ih (h.parent rfl)

/-! ### The lists of the sort -/

theorem mem_dimensions {d : Dimension} :
    d ∈ eq.dimensions ↔ .dim d ∈ eq.lhs.nodes ++ eq.rhs.nodes := by
  rw [dimensions, Ascending.mem_insertAll, Expr.mem_dimensions, Expr.mem_dimensions,
    List.mem_append, or_comm]

theorem mem_usedDimensions {d : Dimension} :
    d ∈ eq.usedDimensions ↔ .dim d ∈ eq.lhs.nodes ++ eq.rhs.nodes ∨
      (∃ f indices, .access f indices ∈ eq.lhs.nodes ++ eq.rhs.nodes ∧ d ∈ f.dimensions) ∨
      d ∈ eq.implicitDims := by
  have haxes : d ∈ eq.allAccesses.flatMap (fun a => a.field.dimensions) ↔
      ∃ f indices, .access f indices ∈ eq.lhs.nodes ++ eq.rhs.nodes ∧ d ∈ f.dimensions := by
    rw [List.mem_flatMap]
    constructor
    · rintro ⟨a, ha, hd⟩
      exact ⟨a.field, a.indices, UseKind.accesses.toExpr_mem ha, hd⟩
    · rintro ⟨f, indices, hmem, hd⟩
      obtain ⟨a, ha, hsame⟩ := UseKind.accesses.exists_same_of_mem ⟨f, indices⟩ hmem
      obtain ⟨_, hkey, -⟩ := Expr.same_access_iff.mp hsame
      obtain ⟨hfield, -⟩ := Expr.access.inj hkey
      exact ⟨a, ha, hfield ▸ hd⟩
  rw [usedDimensions, Ascending.mem_insertAll, List.mem_append, haxes, mem_dimensions, or_comm]

theorem mem_orderedDimensions {d : Dimension} : d ∈ eq.orderedDimensions ↔ eq.Ordered d := by
  have hused {c : Dimension} (hc : c ∈ eq.usedDimensions) : eq.Ordered c := by
    rcases mem_usedDimensions.mp hc with hc | ⟨f, indices, hmem, hc⟩ | hc
    · exact .used hc
    · exact .axis hmem hc
    · exact .implicit hc
  rw [orderedDimensions, Ascending.mem_insertAll, List.mem_flatMap]
  constructor
  · rintro (⟨c, hc, hd⟩ | hd)
    · exact (hused hc).ancestors d hd
    · exact hused hd
  · intro h
    induction h with
    | used h => exact .inr (mem_usedDimensions.mpr (.inl h))
    | axis hmem h => exact .inr (mem_usedDimensions.mpr (.inr (.inl ⟨_, _, hmem, h⟩)))
    | implicit h => exact .inr (mem_usedDimensions.mpr (.inr (.inr h)))
    | parent _ hp ih =>
        -- The chain goes on from a used dimension or from one of its ancestors.
        rcases ih with ⟨c, hc, hd⟩ | hd
        · exact .inl ⟨c, hc, parent_mem_ancestors_of_mem hd hp⟩
        · exact .inl ⟨_, hd, parent_mem_ancestors hp⟩

theorem mem_accessRelations {relation : List Dimension} :
    relation ∈ eq.accessRelations ↔ eq.AccessConstraint relation := by
  rw [accessRelations, Ascending.mem_ofList, List.mem_filter, List.mem_append, List.mem_map,
    List.mem_singleton, Bool.not_eq_true', List.isEmpty_eq_false_iff]
  constructor
  · rintro ⟨⟨a, ha, rfl⟩ | rfl, hne⟩
    · exact .access (mem_of_mem_eraseDups ha) hne
    · exact .implicit hne
  · rintro (⟨ha, hne⟩ | hne)
    · obtain ⟨b, hb, hab⟩ := exists_mem_eraseDups ha
      exact ⟨.inl ⟨b, hb, (Access.relation_congr hab).symm⟩, hne⟩
    · exact ⟨.inr rfl, hne⟩

theorem mem_parentRelations {relation : List Dimension} :
    relation ∈ eq.parentRelations ↔
      ∃ d p, eq.Ordered d ∧ d.parent? = some p ∧ relation = [p, d] := by
  rw [parentRelations, List.mem_filterMap]
  constructor
  · rintro ⟨d, hd, h⟩
    obtain ⟨p, hp, rfl⟩ := Option.map_eq_some_iff.mp h
    exact ⟨d, p, mem_orderedDimensions.mp hd, hp, rfl⟩
  · rintro ⟨d, p, hd, hp, rfl⟩
    exact ⟨d, mem_orderedDimensions.mpr hd, by rw [hp]; rfl⟩

theorem mem_relations {relation : List Dimension} :
    relation ∈ eq.relations ↔ eq.Constraint relation := by
  rw [relations, Ascending.mem_insertAll, List.mem_append, mem_parentRelations,
    mem_accessRelations, rootRelations, List.mem_map]
  constructor
  · rintro ((⟨d, p, hd, hp, rfl⟩ | ⟨r, hr, rfl⟩) | h)
    · exact .parent hd hp
    · exact .roots (mem_accessRelations.mp hr)
    · exact .direct h
  · rintro (h | h | ⟨hd, hp⟩)
    · exact .inr h
    · exact .inl (.inr ⟨_, mem_accessRelations.mpr h, rfl⟩)
    · exact .inl (.inl ⟨_, _, hd, hp, rfl⟩)

/-! ### Elements of constraints -/

theorem toExpr_mem_nodes_of_mem_outermost {e : Expr} {a : Access} (h : a ∈ e.outermost) :
    a.toExpr ∈ e.nodes := by
  have hlist {es : List Expr} (h : a ∈ Expr.outermostList es)
      (ih : ∀ e ∈ es, a ∈ e.outermost → a.toExpr ∈ e.nodes) : ∃ e ∈ es, a.toExpr ∈ e.nodes := by
    rw [Expr.outermostList_eq] at h
    obtain ⟨e, he, h⟩ := List.mem_flatMap.mp h
    exact ⟨e, he, ih e he h⟩
  induction e with
  | lit | sym | dim => cases h
  | call f es ih => exact Expr.mem_nodes_call.mpr (.inr (hlist h ih))
  | access f es =>
      obtain rfl := List.mem_singleton.mp h
      exact Expr.self_mem_nodes _
  | sum es ih => exact Expr.mem_nodes_sum.mpr (.inr (hlist h ih))
  | prod es ih => exact Expr.mem_nodes_prod.mpr (.inr (hlist h ih))
  | pow base exponent ihb ihe =>
      rcases List.mem_append.mp h with h | h
      · exact Expr.mem_nodes_pow.mpr (.inr (.inl (ihb h)))
      · exact Expr.mem_nodes_pow.mpr (.inr (.inr (ihe h)))

theorem AccessConstraint.ordered {relation : List Dimension} (h : eq.AccessConstraint relation) :
    ∀ d ∈ relation, eq.Ordered d := by
  intro d hd
  cases h with
  | implicit => exact .implicit hd
  | @access a ha =>
      have hnode := Access.mem_nodes_of_mem_relation hd
      apply Ordered.used
      rcases List.mem_append.mp ha with ha | ha
      · exact List.mem_append_left _
          (Expr.mem_nodes_trans hnode (toExpr_mem_nodes_of_mem_outermost ha))
      · exact List.mem_append_right _
          (Expr.mem_nodes_trans hnode (toExpr_mem_nodes_of_mem_outermost ha))

/-- Constraints are about dimensions that have a place in the order. -/
theorem Constraint.ordered {relation : List Dimension} (h : eq.Constraint relation) :
    ∀ d ∈ relation, eq.Ordered d := by
  intro d hd
  cases h with
  | direct h => exact h.ordered d hd
  | roots h =>
      obtain ⟨c, hc, rfl⟩ := List.mem_map.mp hd
      exact (h.ordered c hc).top
  | @parent c p hc hp =>
      rcases List.mem_cons.mp hd with rfl | hd
      · exact hc.parent hp
      · obtain rfl := List.mem_singleton.mp hd
        exact hc

/-! ### The sort -/

theorem precedes_relations {a b : Dimension} :
    Precedes (Ascending.ofList eq.relations) a b ↔ eq.Forces a b := by
  simp only [Precedes, Forces, Ascending.mem_ofList, mem_relations]

theorem mentioned_iff {d : Dimension} :
    Mentioned eq.orderedDimensions (Ascending.ofList eq.relations) d ↔ eq.Ordered d := by
  simp only [Mentioned, Ascending.mem_ofList, mem_relations, mem_orderedDimensions]
  constructor
  · rintro (h | ⟨relation, hrelation, h⟩)
    · exact h
    · exact hrelation.ordered d h
  · exact .inl

theorem honors_of_isExtension {order : List Dimension}
    (h : IsExtension (Mentioned eq.orderedDimensions (Ascending.ofList eq.relations))
      (Precedes (Ascending.ofList eq.relations)) order) :
    eq.Honors ⟨order, Ascending.ofList eq.relations⟩ where
  nodup := h.nodup
  parent_before := by
    intro d hd p hp
    have hordered := mentioned_iff.mp ((h.mem_iff d).mp hd)
    exact h.ordered p d
      (precedes_relations.mpr ⟨parent_ne hp, [p, d], .parent hordered hp, .refl _⟩)
  mem_items := by
    intro relation hrelation d hd
    exact (h.mem_iff d).mpr (mentioned_iff.mpr (hrelation.ordered d hd))
  in_order := by
    intro relation hrelation a b hne hab
    exact h.ordered a b (precedes_relations.mpr ⟨hne, relation, hrelation, hab⟩)
  relations_nodup := by
    dsimp only
    exact (Ascending.strict_ofList _).nodup
  mem_relations_iff := by
    intro relation
    rw [Ascending.mem_ofList, mem_relations]

/-- The order is found if the constraints do not contradict each other, and then it keeps all of
them; otherwise the error names a circular dependency. -/
theorem loopOrder_exact (eq : Equation) :
    match eq.loopOrder with
    | .ok order => Acyclic eq.Forces ∧ eq.Honors order
    | .error e => ¬ Acyclic eq.Forces ∧ e.kind = .ordering ∧ e.code = .circularDependency := by
  -- The goal matches on the sort, which no step is to unfold.
  generalize hresult : eq.loopOrder = result
  have hforces : Precedes (Ascending.ofList eq.relations) = eq.Forces := by
    ext a b
    exact precedes_relations
  rw [loopOrder, Arrangement.build] at hresult
  rcases linearize_eq_ok_or_error eq.orderedDimensions (Ascending.ofList eq.relations) with
    ⟨order, hok, hext, -⟩ | ⟨⟨culprits, herror⟩, hcycle⟩
  · rw [hok] at hresult
    have hresult : result = .ok ⟨order, Ascending.ofList eq.relations⟩ := hresult.symm
    rw [hresult, ← hforces]
    exact ⟨hext.acyclic, honors_of_isExtension hext⟩
  · rw [herror] at hresult
    have hresult : result = .error (eq.blame (.circular (culprits.map toString))) := hresult.symm
    rw [hresult, ← hforces]
    exact ⟨hcycle, rfl, rfl⟩

theorem loopOrder_of_build_eq_ok {order : Arrangement Dimension}
    (h : Arrangement.build eq.orderedDimensions eq.relations = .ok order) :
    eq.loopOrder = .ok order := by
  rw [loopOrder, h, Except.mapError]

theorem loopOrder_of_build_eq_error {e : Error}
    (h : Arrangement.build eq.orderedDimensions eq.relations = .error e) :
    eq.loopOrder = .error (eq.blame e) := by
  rw [loopOrder, h, Except.mapError]

/-- The constraints have a cycle, or the order is an extension of what they force. -/
theorem loopOrder_eq_ok_or_circular (eq : Equation) :
    (∃ order, eq.loopOrder = .ok ⟨order, Ascending.ofList eq.relations⟩ ∧
      IsExtension eq.Ordered eq.Forces order) ∨
      (∃ culprits, eq.loopOrder = .error (eq.blame (.circular culprits))) ∧
        ¬ Acyclic eq.Forces := by
  have hordered : Mentioned eq.orderedDimensions (Ascending.ofList eq.relations) = eq.Ordered := by
    ext d
    exact mentioned_iff
  have hforces : Precedes (Ascending.ofList eq.relations) = eq.Forces := by
    ext a b
    exact precedes_relations
  rw [← hordered, ← hforces]
  rcases Arrangement.build_eq_ok_or_circular eq.orderedDimensions eq.relations with
    ⟨order, hok, hext⟩ | ⟨⟨culprits, herror⟩, hcycle⟩
  · exact .inl ⟨order, loopOrder_of_build_eq_ok hok, hext⟩
  · exact .inr ⟨⟨culprits, loopOrder_of_build_eq_error herror⟩, hcycle⟩

/-! ### The dimensions in the order -/

/-- The dimensions that the equation itself brings in. -/
inductive Used (eq : Equation) : Dimension → Prop
  | free {d : Dimension} : .dim d ∈ eq.lhs.nodes ++ eq.rhs.nodes → Used eq d
  | axis {f : Field} {indices : List Expr} {d : Dimension} :
      .access f indices ∈ eq.lhs.nodes ++ eq.rhs.nodes → d ∈ f.dimensions → Used eq d
  | implicit {d : Dimension} : d ∈ eq.implicitDims → Used eq d

theorem Used.ordered {d : Dimension} (h : eq.Used d) : eq.Ordered d := by
  cases h with
  | free h => exact .used h
  | axis hmem h => exact .axis hmem h
  | implicit h => exact .implicit h

/-- A place in the order is due to a use at the end of a chain of parents. -/
theorem ordered_iff_exists_used {d : Dimension} :
    eq.Ordered d ↔
      ∃ c, eq.Used c ∧ Relation.ReflTransGen (fun c p => c.parent? = some p) c d := by
  constructor
  · intro h
    induction h with
    | used h => exact ⟨_, .free h, .refl⟩
    | axis hmem h => exact ⟨_, .axis hmem h, .refl⟩
    | implicit h => exact ⟨_, .implicit h, .refl⟩
    | parent _ hp ih =>
        obtain ⟨c, hc, hchain⟩ := ih
        exact ⟨c, hc, hchain.tail hp⟩
  · rintro ⟨c, hc, hchain⟩
    induction hchain with
    | refl => exact hc.ordered
    | tail _ hp ih => exact ih.parent hp

/-- Each dimension stands once, and in the order are the used dimensions and their ancestors. -/
theorem mem_loopOrder_iff {order : Arrangement Dimension} (h : eq.loopOrder = .ok order) :
    order.items.Nodup ∧
      ∀ d, d ∈ order.items ↔
        ∃ c, eq.Used c ∧ Relation.ReflTransGen (fun c p => c.parent? = some p) c d := by
  rcases loopOrder_eq_ok_or_circular eq with ⟨items, hok, hext⟩ | ⟨⟨culprits, herror⟩, -⟩
  · rw [hok] at h
    obtain rfl := Except.ok.inj h
    refine ⟨hext.nodup, fun d => ?_⟩
    rw [hext.mem_iff, ordered_iff_exists_used]
  · rw [herror] at h
    cases h

/-! ### An equation with indirect and derived indices -/

def time : Dimension := .root "time" .time

def stepT : Dimension := .derived "t" .stepping time

def spaceX : Dimension := .root "x" .space

def innerX : Dimension := .derived "inner" (.sub (.middle 1 1)) spaceX

def pointP : Dimension := .root "p" .basic

/-- The equation `u[t + 1, inner] = g(u[t, b[x]])` with the implicit dimension `t`. -/
def gathered : Equation where
  lhs := .access (.bare "u" [time, spaceX]) [.sum [.dim stepT, .int 1], .dim innerX]
  rhs := .call (.bare "g" [spaceX])
    [.access (.bare "u" [time, spaceX])
      [.dim stepT, .access (.bare "b" [pointP]) [.dim spaceX]]]
  implicitDims := [stepT]
  subdomain := none

/-- The axis `p` of `b` is ordered although nothing is indexed with it. -/
def gatheredOrder : Arrangement Dimension where
  items := [pointP, time, stepT, spaceX, innerX]
  relations := [[stepT], [stepT, innerX], [stepT, spaceX], [time], [time, stepT], [time, spaceX],
    [spaceX, innerX]]

theorem mem_loopOrder_iff_gathered :
    gathered.loopOrder = .ok gatheredOrder ∧ gatheredOrder.items.Nodup ∧
      ∀ d, d ∈ gatheredOrder.items ↔
        ∃ c, gathered.Used c ∧ Relation.ReflTransGen (fun c p => c.parent? = some p) c d := by
  have h : gathered.loopOrder = .ok gatheredOrder := by decide +kernel
  exact ⟨h, mem_loopOrder_iff h⟩

end Equation

end GridAccess
