import GridAccess.Proofs.Equation.LoopOrder

/-!
What an equation demands of the order of iteration: which dimensions occur, which fields are
accessed, and what the outermost accesses imply. Equations that agree in this, although they may
differ as trees, have the same constraints and the same order.
-/

namespace GridAccess

namespace Expr

/-- What holds of a node outside of accesses exactly if it holds of some operand. -/
structure Scattered (P : Expr → Prop) : Prop where
  call_iff : ∀ {f es}, P (.call f es) ↔ ∃ e ∈ es, P e
  sum_iff : ∀ {es}, P (.sum es) ↔ ∃ e ∈ es, P e
  prod_iff : ∀ {es}, P (.prod es) ↔ ∃ e ∈ es, P e
  pow_iff : ∀ {base exponent}, P (.pow base exponent) ↔ P base ∨ P exponent

theorem Scattered.exists {α : Type} {P : α → Expr → Prop} (h : ∀ x, Scattered (P x)) :
    Scattered fun e => ∃ x, P x e := by
  constructor
  case call_iff => simp only [(h _).call_iff]; grind
  case sum_iff => simp only [(h _).sum_iff]; grind
  case prod_iff => simp only [(h _).prod_iff]; grind
  case pow_iff => simp only [(h _).pow_iff, exists_or, implies_true]

theorem Scattered.and {P : Expr → Prop} (h : Scattered P) (q : Prop) :
    Scattered fun e => P e ∧ q := by
  constructor
  case call_iff => simp only [h.call_iff]; grind
  case sum_iff => simp only [h.sum_iff]; grind
  case prod_iff => simp only [h.prod_iff]; grind
  case pow_iff => simp only [h.pow_iff, or_and_right, implies_true]

theorem scattered_dim (d : Dimension) : Scattered fun e => .dim d ∈ e.nodes := by
  constructor <;> simp

theorem scattered_access (f : Field) (es : List Expr) :
    Scattered fun e => .access f es ∈ e.nodes := by
  constructor <;> simp

theorem scattered_outermost (a : Access) : Scattered fun e => a ∈ e.outermost := by
  constructor <;> simp [outermost, outermostList_eq]

/-- The field is accessed somewhere. -/
def Accesses (e : Expr) (f : Field) : Prop := ∃ es, .access f es ∈ e.nodes

/-- Some outermost access implies the relation. -/
def Implies (e : Expr) (relation : List Dimension) : Prop :=
  ∃ a, a ∈ e.outermost ∧ a.relation = relation

theorem dim_mem_nodes_congr {a b : Expr} (h : a.same b = true) (d : Dimension) :
    .dim d ∈ a.nodes ↔ .dim d ∈ b.nodes := by
  rw [← mem_dimensions, dimensions_congr h, mem_dimensions]

theorem accesses_congr {a b : Expr} (h : a.same b = true) (f : Field) :
    a.Accesses f ↔ b.Accesses f := by
  let field? (e : Expr) : Option Field := e.access?.map Access.field
  have hfield {a b : Expr} (h : a.same b = true) : field? a = field? b := by
    apply sameInduction (motive := fun a b => field? a = field? b) (h := h) <;> intros <;> rfl
  have hmem (e : Expr) : e.Accesses f ↔ f ∈ e.nodes.filterMap field? := by
    rw [List.mem_filterMap]
    constructor
    · rintro ⟨es, hes⟩
      exact ⟨_, hes, rfl⟩
    · rintro ⟨n, hn, hf⟩
      cases n with
      | access g es =>
          obtain rfl := Option.some.inj hf
          exact ⟨es, hn⟩
      | _ => cases hf
  rw [hmem, hmem, filterMap_congr_of_alike hfield (alike_nodes h)]

theorem implies_congr {a b : Expr} (h : a.same b = true) (relation : List Dimension) :
    a.Implies relation ↔ b.Implies relation := by
  have hrelations : a.outerRelations.map Prod.snd = b.outerRelations.map Prod.snd :=
    map_eq_map_iff_forall₂.mpr ((outerRelations_congr h).imp fun _ _ hpq => hpq.2)
  have hmem (e : Expr) : e.Implies relation ↔ relation ∈ e.outerRelations.map Prod.snd := by
    simp [Implies, outerRelations_eq]
  rw [hmem, hmem, hrelations]

theorem scattered_accesses (f : Field) : Scattered (·.Accesses f) := .exists (scattered_access f)

theorem scattered_implies (relation : List Dimension) : Scattered (·.Implies relation) :=
  .exists fun a => (scattered_outermost a).and _

end Expr

namespace Equation

/-- One of the sides has the property. -/
def Occurs (eq : Equation) (P : Expr → Prop) : Prop := P eq.lhs ∨ P eq.rhs

/-- The two equations demand the same of the order. -/
structure SameDemands (eq eq' : Equation) : Prop where
  implicitDims_eq : eq.implicitDims = eq'.implicitDims
  dim_iff : ∀ d, eq.Occurs (.dim d ∈ ·.nodes) ↔ eq'.Occurs (.dim d ∈ ·.nodes)
  accessed_iff : ∀ f, eq.Occurs (·.Accesses f) ↔ eq'.Occurs (·.Accesses f)
  implied_iff : ∀ relation, eq.Occurs (·.Implies relation) ↔ eq'.Occurs (·.Implies relation)

namespace SameDemands

variable {eq eq' : Equation}

theorem symm (h : eq.SameDemands eq') : eq'.SameDemands eq where
  implicitDims_eq := h.implicitDims_eq.symm
  dim_iff d := (h.dim_iff d).symm
  accessed_iff f := (h.accessed_iff f).symm
  implied_iff relation := (h.implied_iff relation).symm

theorem ordered (h : eq.SameDemands eq') {d : Dimension} (hd : eq.Ordered d) : eq'.Ordered d := by
  induction hd with
  | used hmem => exact .used (List.mem_append.mpr ((h.dim_iff _).mp (List.mem_append.mp hmem)))
  | @axis f indices d hmem hd =>
      have haccesses : eq.Occurs (·.Accesses f) :=
        (List.mem_append.mp hmem).imp (⟨indices, ·⟩) (⟨indices, ·⟩)
      rcases (h.accessed_iff f).mp haccesses with ⟨es, hmem⟩ | ⟨es, hmem⟩
      · exact .axis (List.mem_append_left _ hmem) hd
      · exact .axis (List.mem_append_right _ hmem) hd
  | implicit hmem => exact .implicit (h.implicitDims_eq ▸ hmem)
  | parent _ hp ih => exact ih.parent hp

theorem accessConstraint (h : eq.SameDemands eq') {relation : List Dimension}
    (hrelation : eq.AccessConstraint relation) : eq'.AccessConstraint relation := by
  cases hrelation with
  | @access a ha hne =>
      have himplies : eq.Occurs (·.Implies a.relation) :=
        (List.mem_append.mp ha).imp (⟨a, ·, rfl⟩) (⟨a, ·, rfl⟩)
      rcases (h.implied_iff _).mp himplies with ⟨b, hb, heq⟩ | ⟨b, hb, heq⟩
      · exact heq ▸ .access (List.mem_append_left _ hb) (heq ▸ hne)
      · exact heq ▸ .access (List.mem_append_right _ hb) (heq ▸ hne)
  | implicit hne =>
      rw [h.implicitDims_eq] at hne ⊢
      exact .implicit hne

theorem constraint (h : eq.SameDemands eq') {relation : List Dimension}
    (hrelation : eq.Constraint relation) : eq'.Constraint relation := by
  cases hrelation with
  | direct haccess => exact .direct (h.accessConstraint haccess)
  | roots haccess => exact .roots (h.accessConstraint haccess)
  | parent hd hp => exact .parent (h.ordered hd) hp

theorem build_eq (h : eq.SameDemands eq') :
    Arrangement.build eq.orderedDimensions eq.relations =
      Arrangement.build eq'.orderedDimensions eq'.relations := by
  refine Arrangement.build_congr ?_ ?_
  · intro d
    rw [mem_orderedDimensions, mem_orderedDimensions]
    exact ⟨h.ordered, h.symm.ordered⟩
  · intro relation
    rw [mem_relations, mem_relations]
    exact ⟨h.constraint, h.symm.constraint⟩

/-- The same order and the same relations, or the same circular dependency. -/
theorem loopOrder_eq (h : eq.SameDemands eq') :
    (∃ order, eq.loopOrder = .ok order ∧ eq'.loopOrder = .ok order) ∨
      ∃ culprits, eq.loopOrder = .error (eq.blame (.circular culprits)) ∧
        eq'.loopOrder = .error (eq'.blame (.circular culprits)) := by
  rcases Arrangement.build_eq_ok_or_circular eq.orderedDimensions eq.relations with
    ⟨order, hok, -⟩ | ⟨⟨culprits, herror⟩, -⟩
  · exact .inl ⟨_, loopOrder_of_build_eq_ok hok,
      loopOrder_of_build_eq_ok (h.build_eq.symm.trans hok)⟩
  · exact .inr ⟨culprits, loopOrder_of_build_eq_error herror,
      loopOrder_of_build_eq_error (h.build_eq.symm.trans herror)⟩

end SameDemands

end Equation

end GridAccess
