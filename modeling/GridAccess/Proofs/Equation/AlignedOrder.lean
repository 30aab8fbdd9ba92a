import GridAccess.Proofs.Alignment.Recursion
import GridAccess.Proofs.Alignment.ShiftedRelation
import GridAccess.Proofs.Equation.Demands

/-!
The order of iteration of an equation that is aligned with storage. Where fields are indexed
directly, not through other fields, alignment changes the indices of the outermost accesses and
nothing else. The moved indices have the dimensions that they had, and stand for the same ones, so
that the aligned equation demands the same of the order.
-/

namespace GridAccess

namespace Expr

/-! ### Direct indices -/

/-- The indices of an access are canonical and are not read from fields. -/
def indicesDirect : Expr → Bool
  | .access _ indices => indices.all fun index => !index.hasAccess && decide index.Canonical
  | _ => true

/-- Fields are only accessed, and with direct indices that can be stored without overflow. -/
structure DirectlyIndexed (e : Expr) : Prop where
  floatFree : e.FloatFree
  callFree : e.CallFree
  direct : AllNodes (fun n => n.indicesDirect = true) e
  shiftsFit : e.ShiftsFit

/-- Without uses of fields there are no accesses. -/
theorem ne_access_of_useDepth_eq_zero {e : Expr} (h : e.useDepth = 0) {f : Field}
    {es : List Expr} : .access f es ∉ e.nodes := by
  intro hmem
  have hdepth := useDepth_le_of_mem_nodes hmem
  rw [h, useDepth] at hdepth
  omega

theorem innerRelations_eq_nil {e : Expr} (h : e.useDepth = 0) : e.innerRelations = [] := by
  have houtermost : e.outermost = [] := List.eq_nil_iff_forall_not_mem.mpr fun a ha =>
    ne_access_of_useDepth_eq_zero h (Equation.toExpr_mem_nodes_of_mem_outermost ha)
  rw [innerRelations, outerRelations_eq, houtermost]
  rfl

namespace DirectlyIndexed

variable {e : Expr} {f : Field} {indices : List Expr}

theorem of_mem_children (h : e.DirectlyIndexed) {c : Expr} (hc : c ∈ e.children) :
    c.DirectlyIndexed where
  floatFree := AllNodes.of_mem_children h.floatFree hc
  callFree := AllNodes.of_mem_children h.callFree hc
  direct := h.direct.of_mem_children hc
  shiftsFit := AllNodes.of_mem_children h.shiftsFit hc

theorem canonical (h : (access f indices).DirectlyIndexed) {index : Expr}
    (hindex : index ∈ indices) : index.Canonical :=
  of_decide_eq_true (Bool.and_eq_true_iff.mp (List.all_eq_true.mp h.direct.self index hindex)).2

theorem useDepth_eq_zero (h : (access f indices).DirectlyIndexed) {index : Expr}
    (hindex : index ∈ indices) : index.useDepth = 0 := by
  have hdirect := (Bool.and_eq_true_iff.mp (List.all_eq_true.mp h.direct.self index hindex)).1
  exact Expr.useDepth_eq_zero (h.of_mem_children hindex).callFree (by simpa using hdirect)

end DirectlyIndexed

end Expr

namespace Alignment

open GridAccess.Expr (AllNodes DirectlyIndexed Scattered)

variable {unitSpacing : Bool}

/-! ### Aligned accesses -/

theorem exists_mem_mapIdx_iff {P : Expr → Prop} {g : Nat → Expr → Expr} {es : List Expr}
    (h : ∀ axis, (haxis : axis < es.length) → (P (g axis es[axis]) ↔ P es[axis])) :
    (∃ e ∈ es.mapIdx g, P e) ↔ ∃ e ∈ es, P e := by
  constructor
  · rintro ⟨_, hmem, hP⟩
    obtain ⟨axis, haxis, rfl⟩ := List.mem_mapIdx.mp hmem
    exact ⟨_, List.getElem_mem haxis, (h axis haxis).mp hP⟩
  · rintro ⟨_, hmem, hP⟩
    obtain ⟨axis, haxis, rfl⟩ := List.mem_iff_getElem.mp hmem
    exact ⟨_, List.mem_mapIdx.mpr ⟨axis, haxis, rfl⟩, (h axis haxis).mpr hP⟩

section

variable {f : Field} {indices : List Expr} (h : (Expr.access f indices).DirectlyIndexed)
include h

theorem aligned_access_of_direct :
    aligned unitSpacing (.access f indices) = .access f (indices.mapIdx (shift f)) := by
  rw [aligned_access]
  refine congrArg _ (List.ext_getElem (by simp) fun axis _ haxis => ?_)
  rw [List.length_mapIdx] at haxis
  rw [List.getElem_mapIdx, List.getElem_mapIdx,
    aligned_eq_self (h.useDepth_eq_zero (List.getElem_mem haxis))]

theorem useDepth_shift {axis : Nat} (haxis : axis < indices.length) :
    (shift f axis indices[axis]).useDepth = 0 := by
  rw [shift_eq_sumOf]
  refine Nat.le_zero.mp ((Expr.inherited_useDepth_le 0).sumOf fun e he => ?_)
  rcases List.mem_pair.mp he with rfl | rfl
  · exact (h.useDepth_eq_zero (List.getElem_mem haxis)).le
  · exact Nat.le_refl 0

theorem dim_mem_nodes_shift {axis : Nat} (haxis : axis < indices.length) (d : Dimension) :
    .dim d ∈ (shift f axis indices[axis]).nodes ↔ .dim d ∈ indices[axis].nodes := by
  have hindex := List.getElem_mem haxis
  rw [← Expr.mem_dimensions, dimensions_shift (h.canonical hindex)
    (h.of_mem_children hindex).floatFree (h.shiftsFit.isSome_wordOf? haxis), Expr.mem_dimensions]

/-- Moved to the start of the storage, an access implies what it did. -/
theorem relation_mapIdx_shift :
    Access.relation ⟨f, indices.mapIdx (shift f)⟩ = Access.relation ⟨f, indices⟩ := by
  show Expr.indicesRelation _ = Expr.indicesRelation indices
  rw [Expr.indicesRelation_eq, Expr.indicesRelation_eq, List.flatMap_def, List.flatMap_def]
  refine congrArg _ (List.ext_getElem (by simp) fun axis _ haxis => ?_)
  rw [List.length_map] at haxis
  have hindex := List.getElem_mem haxis
  rw [List.getElem_map, List.getElem_map, List.getElem_mapIdx,
    Expr.innerRelations_eq_nil (useDepth_shift h haxis),
    Expr.innerRelations_eq_nil (h.useDepth_eq_zero hindex),
    indexRelation_shift (h.canonical hindex) (h.of_mem_children hindex).floatFree
      (h.shiftsFit.isSome_wordOf? haxis)]

end

/-! ### Aligned expressions -/

/-- Above the accesses nothing changes. -/
theorem aligned_iff_of_scattered {P : Expr → Prop} (hP : Scattered P)
    (haccess : ∀ {f : Field} {indices : List Expr}, (Expr.access f indices).DirectlyIndexed →
      (P (.access f (indices.mapIdx (shift f))) ↔ P (.access f indices)))
    {e : Expr} (h : e.DirectlyIndexed) : P (aligned unitSpacing e) ↔ P e := by
  have hlist {es : List Expr} (ih : ∀ e ∈ es, P (aligned unitSpacing e) ↔ P e) :
      (∃ e ∈ es.map (aligned unitSpacing), P e) ↔ ∃ e ∈ es, P e := by
    simp only [List.mem_map, exists_exists_and_eq_and]
    exact exists_congr fun e => and_congr_right (ih e)
  induction e with
  | lit | sym | dim => rw [aligned]
  | call f args => cases AllNodes.self h.callFree
  | access f indices =>
      rw [aligned_access_of_direct h]
      exact haccess h
  | sum terms ih =>
      rw [aligned, hP.sum_iff, hP.sum_iff]
      exact hlist fun e he => ih e he (h.of_mem_children he)
  | prod factors ih =>
      rw [aligned, hP.prod_iff, hP.prod_iff]
      exact hlist fun e he => ih e he (h.of_mem_children he)
  | pow base exponent ihb ihe =>
      rw [aligned, hP.pow_iff, hP.pow_iff]
      exact or_congr (ihb (h.of_mem_children List.mem_cons_self))
        (ihe (h.of_mem_children (List.mem_cons_of_mem _ List.mem_cons_self)))

section

variable {e : Expr} (h : e.DirectlyIndexed)
include h

theorem dim_mem_nodes_aligned (d : Dimension) :
    .dim d ∈ (aligned unitSpacing e).nodes ↔ .dim d ∈ e.nodes := by
  refine aligned_iff_of_scattered (Expr.scattered_dim d) (fun h => ?_) h
  rw [Expr.mem_nodes_access, Expr.mem_nodes_access,
    exists_mem_mapIdx_iff fun axis haxis => dim_mem_nodes_shift h haxis d]
  simp

/-- The only accesses are the outermost ones. -/
theorem accesses_aligned (g : Field) : (aligned unitSpacing e).Accesses g ↔ e.Accesses g := by
  refine aligned_iff_of_scattered (Expr.scattered_accesses g) (fun {f indices} h => ?_) h
  have haccesses {es : List Expr} (hes : ∀ e ∈ es, e.useDepth = 0) :
      (Expr.access f es).Accesses g ↔ g = f := by
    constructor
    · rintro ⟨es', hmem⟩
      rcases Expr.mem_nodes_access.mp hmem with heq | ⟨e, he, hmem⟩
      · exact (Expr.access.inj heq).1
      · exact (Expr.ne_access_of_useDepth_eq_zero (hes e he) hmem).elim
    · rintro rfl
      exact ⟨es, Expr.self_mem_nodes _⟩
  rw [haccesses fun e he => h.useDepth_eq_zero he, haccesses]
  intro e he
  obtain ⟨axis, haxis, rfl⟩ := List.mem_mapIdx.mp he
  exact useDepth_shift h haxis

theorem implies_aligned (relation : List Dimension) :
    (aligned unitSpacing e).Implies relation ↔ e.Implies relation := by
  refine aligned_iff_of_scattered (Expr.scattered_implies relation) (fun h => ?_) h
  simp [Expr.Implies, Expr.outermost, relation_mapIdx_shift h]

end

/-- Without a subdomain the sides are aligned as expressions are. -/
theorem alignEquation_same_aligned (unitSpacing : Bool) {eq : Equation}
    (hsubdomain : eq.subdomain = none) :
    (alignEquation ⟨.empty, unitSpacing⟩ eq).lhs.same (aligned unitSpacing eq.lhs) = true ∧
      (alignEquation ⟨.empty, unitSpacing⟩ eq).rhs.same (aligned unitSpacing eq.rhs) = true := by
  have hwithin (e : Expr) : alignedWithin unitSpacing eq.restriction e = aligned unitSpacing e := by
    rw [Equation.restriction, hsubdomain]
    exact alignedWithin_empty e
  have hside {side : Expr} (hside : ∀ n ∈ side.nodes, n ∈ eq.lhs.nodes ++ eq.rhs.nodes) :=
    replaceUses_stored ⟨.empty, unitSpacing⟩ eq.restriction
      (alignsUpTo_alignIndex unitSpacing (max eq.lhs.useDepth eq.rhs.useDepth))
      (fun _ => useDepth_le_of_mem_sides) hside
  rw [← hwithin, ← hwithin]
  exact ⟨hside fun n hn => List.mem_append_left _ hn, hside fun n hn => List.mem_append_right _ hn⟩

end Alignment

namespace Equation

open GridAccess.Alignment

theorem occurs_alignEquation {unitSpacing : Bool} {eq : Equation} (hlhs : eq.lhs.DirectlyIndexed)
    (hrhs : eq.rhs.DirectlyIndexed) (hsubdomain : eq.subdomain = none) {P : Expr → Prop}
    (hsame : ∀ {a b : Expr}, a.same b = true → (P a ↔ P b))
    (haligned : ∀ {e : Expr}, e.DirectlyIndexed → (P (aligned unitSpacing e) ↔ P e)) :
    eq.Occurs P ↔ (alignEquation ⟨.empty, unitSpacing⟩ eq).Occurs P := by
  obtain ⟨hl, hr⟩ := alignEquation_same_aligned unitSpacing hsubdomain
  rw [Occurs, Occurs, hsame hl, hsame hr, haligned hlhs, haligned hrhs]

theorem sameDemands_alignEquation (unitSpacing : Bool) {eq : Equation}
    (hlhs : eq.lhs.DirectlyIndexed) (hrhs : eq.rhs.DirectlyIndexed)
    (hsubdomain : eq.subdomain = none) :
    eq.SameDemands (alignEquation ⟨.empty, unitSpacing⟩ eq) where
  implicitDims_eq := rfl
  dim_iff d := occurs_alignEquation hlhs hrhs hsubdomain
    (Expr.dim_mem_nodes_congr · d) (dim_mem_nodes_aligned · d)
  accessed_iff f := occurs_alignEquation hlhs hrhs hsubdomain
    (Expr.accesses_congr · f) (accesses_aligned · f)
  implied_iff relation := occurs_alignEquation hlhs hrhs hsubdomain
    (Expr.implies_congr · relation) (implies_aligned · relation)

/-- Where fields are indexed directly, the aligned equation has the same order and the same
relations, or the same circular dependency is reported for both equations. -/
theorem loopOrder_alignEquation (unitSpacing : Bool) {eq : Equation}
    (hlhs : eq.lhs.DirectlyIndexed) (hrhs : eq.rhs.DirectlyIndexed)
    (hsubdomain : eq.subdomain = none) :
    (∃ order, eq.loopOrder = .ok order ∧
      (alignEquation ⟨.empty, unitSpacing⟩ eq).loopOrder = .ok order) ∨
      ∃ culprits, eq.loopOrder = .error (eq.blame (.circular culprits)) ∧
        (alignEquation ⟨.empty, unitSpacing⟩ eq).loopOrder =
          .error ((alignEquation ⟨.empty, unitSpacing⟩ eq).blame (.circular culprits)) :=
  (sameDemands_alignEquation unitSpacing hlhs hrhs hsubdomain).loopOrder_eq

/-- Three points are stored to the left of the domain on the second axis. -/
def storedV : Field where
  name := "v"
  kind := .timeFunction
  axes := [⟨time, ⟨0, 0⟩, ⟨0, 0⟩⟩, ⟨spaceX, ⟨2, 2⟩, ⟨1, 1⟩⟩]

/-- The equation `v[t + 1, x] = v[t, x - 3] + v[t, t*x]`. Aligned, the constant of `x - 3`
cancels. -/
def upwind : Equation where
  lhs := .access storedV [.sum [.int 1, .dim stepT], .dim spaceX]
  rhs := .sum [.access storedV [.dim stepT, .sum [.int (-3), .dim spaceX]],
    .access storedV [.dim stepT, .prod [.dim stepT, .dim spaceX]]]
  implicitDims := []
  subdomain := none

theorem loopOrder_alignEquation_upwind :
    upwind.lhs.DirectlyIndexed ∧ upwind.rhs.DirectlyIndexed ∧ upwind.subdomain = none ∧
      ((∃ order, upwind.loopOrder = .ok order ∧
        (alignEquation ⟨.empty, true⟩ upwind).loopOrder = .ok order) ∨
        ∃ culprits, upwind.loopOrder = .error (upwind.blame (.circular culprits)) ∧
          (alignEquation ⟨.empty, true⟩ upwind).loopOrder =
            .error ((alignEquation ⟨.empty, true⟩ upwind).blame (.circular culprits))) := by
  have hlhs : upwind.lhs.DirectlyIndexed := ⟨by decide, by decide, by decide, by decide⟩
  have hrhs : upwind.rhs.DirectlyIndexed := ⟨by decide, by decide, by decide, by decide⟩
  exact ⟨hlhs, hrhs, rfl, loopOrder_alignEquation true hlhs hrhs rfl⟩

end Equation

end GridAccess
