import GridAccess.Proofs.Alignment.Recursion
import Mathlib.Order.Bounds.Defs

/-!
Why alignment comes to an end. It goes on with the operands of uses, and an argument that it goes on
with has been rebuilt with the spacing set to 1, which may make it larger: a factor is spread over a
sum. How deep uses are nested does not grow, though, and it is less in an operand than in its use.

The recursion itself is a relation here, which only holds where the recursion ends: the result of an
expression is made of results for all operands that it goes on with. Alignment to a given depth
computes this result, and the depth does not matter as long as it is large enough.
-/

namespace GridAccess

/-! ### Nesting -/

namespace Expr

def isUse : Expr → Bool
  | .call _ _ | .access _ _ => true
  | _ => false

/-- On a path from the root to a leaf there are `k` uses of fields. -/
inductive UsesOnPath : Expr → Nat → Prop where
  | leaf {e : Expr} : e.children = [] → UsesOnPath e e.isUse.toNat
  | child {e c : Expr} {k : Nat} : c ∈ e.children → UsesOnPath c k →
      UsesOnPath e (k + e.isUse.toNat)

theorem useDepth_eq (e : Expr) : e.useDepth = useDepthList e.children + e.isUse.toNat := by
  cases e <;> simp [useDepth, children, isUse]

theorem exists_useDepth_eq {es : List Expr} (h : es ≠ []) :
    ∃ e ∈ es, e.useDepth = useDepthList es := by
  induction es with
  | nil => exact (h rfl).elim
  | cons e es ih =>
      rw [useDepthList_cons]
      by_cases hes : es = []
      · exact ⟨e, List.mem_cons_self, by simp [hes]⟩
      · obtain ⟨d, hd, hdepth⟩ := ih hes
        rcases Nat.le_total e.useDepth (useDepthList es) with hle | hle
        · exact ⟨d, List.mem_cons_of_mem _ hd, by omega⟩
        · exact ⟨e, List.mem_cons_self, by omega⟩

/-- The depth is the greatest number of uses on a path. -/
theorem isGreatest_useDepth (e : Expr) : IsGreatest {k | e.UsesOnPath k} e.useDepth := by
  constructor
  · induction e using childInduction with
    | node e ih =>
        rw [useDepth_eq]
        by_cases hchildren : e.children = []
        · rw [hchildren, useDepthList_nil, Nat.zero_add]
          exact .leaf hchildren
        · obtain ⟨c, hc, hdepth⟩ := exists_useDepth_eq hchildren
          exact hdepth ▸ .child hc (ih c hc)
  · intro k hk
    induction hk with
    | leaf =>
        rw [useDepth_eq]
        exact Nat.le_add_left _ _
    | child hc _ ih =>
        rw [useDepth_eq]
        exact Nat.add_le_add_right (ih.trans (useDepth_le_useDepthList hc)) _

/-- Setting a symbol to a literal nests uses no deeper. -/
theorem useDepth_substFold_lit_le (e : Expr) (h : Symbol) (n : Literal) :
    (e.substFold ⟨[(.sym h, .lit n)]⟩).useDepth ≤ e.useDepth := by
  refine useDepth_substFold_le (fun hfind => ?_) e
  obtain ⟨entry, hentry, -, rfl⟩ := Substitution.exists_entry_of_find? hfind
  obtain rfl := List.mem_singleton.mp hentry
  rfl

end Expr

namespace Alignment

/-! ### The recursion -/

/-- What alignment goes on with at a use of a field: its arguments as they are prepared, or its
indices. -/
inductive Entered (unitSpacing : Bool) : Expr → Expr → Prop where
  | argument {f : Field} {args : List Expr} {axis : Nat} (h : axis < args.length) :
      Entered unitSpacing (prepared unitSpacing f axis args[axis]) (.call f args)
  | index {f : Field} {indices : List Expr} {index : Expr} (h : index ∈ indices) :
      Entered unitSpacing index (.access f indices)

/-- What the alignment of `e` needs the alignment of. -/
def Needs (unitSpacing : Bool) (d e : Expr) : Prop :=
  (∃ c ∈ e.calls, Entered unitSpacing d c.toExpr) ∨
    ∃ a ∈ e.allAccesses, Entered unitSpacing d a.toExpr

/-- The recursion ends at `e` with the result `r`. -/
inductive Aligns (unitSpacing : Bool) : Expr → Expr → Prop where
  | intro {e : Expr} (align : Expr → Expr)
      (needed : ∀ d, Needs unitSpacing d e → Aligns unitSpacing d (align d)) :
      Aligns unitSpacing e (e.subst (stored unitSpacing align .empty e.calls e.allAccesses))

variable {unitSpacing : Bool} {d e : Expr}

theorem Entered.useDepth_lt {use : Expr} (h : Entered unitSpacing d use) :
    d.useDepth < use.useDepth := by
  cases h with
  | argument haxis =>
      have hmem := Expr.useDepth_le_useDepthList (List.getElem_mem haxis)
      exact Nat.lt_succ_of_le ((useDepth_prepared_le unitSpacing _ _ _).trans hmem)
  | index hindex => exact Nat.lt_succ_of_le (Expr.useDepth_le_useDepthList hindex)

theorem Needs.useDepth_lt (h : Needs unitSpacing d e) : d.useDepth < e.useDepth := by
  rcases h with ⟨c, hc, h⟩ | ⟨a, ha, h⟩
  · exact h.useDepth_lt.trans_le (Expr.useDepth_le_of_mem_nodes (UseKind.calls.toExpr_mem hc))
  · exact h.useDepth_lt.trans_le (Expr.useDepth_le_of_mem_nodes (UseKind.accesses.toExpr_mem ha))

theorem wellFounded_needs (unitSpacing : Bool) : WellFounded (Needs unitSpacing) :=
  Subrelation.wf (fun h => h.useDepth_lt) (measure Expr.useDepth).wf

/-! ### The end of the recursion -/

theorem store_eq_store {f : Field} {align align' : Nat → Expr → Expr} {restriction : Substitution}
    {indices : List Expr} (h : ∀ axis (haxis : axis < indices.length),
      align axis indices[axis] = align' axis indices[axis]) :
    store f align restriction indices = store f align' restriction indices := by
  refine congrArg (Expr.access f) (List.mapIdx_eq_mapIdx_iff.mpr ?_)
  intro axis haxis
  rw [h axis haxis]

/-- A table is made of the results for what its uses need, and of no others. -/
theorem stored_eq_stored {align align' : Expr → Expr} {restriction : Substitution}
    {calls : List Call} {accesses : List Access}
    (hcalls : ∀ c ∈ calls, ∀ d, Entered unitSpacing d c.toExpr → align d = align' d)
    (haccesses : ∀ a ∈ accesses, ∀ d, Entered unitSpacing d a.toExpr → align d = align' d) :
    stored unitSpacing align restriction calls accesses =
      stored unitSpacing align' restriction calls accesses := by
  refine congrArg Substitution.mk (congrArg₂ (· ++ ·) ?_ ?_)
  · apply List.map_congr_left
    intro c hc
    exact congrArg (Prod.mk c.toExpr)
      (store_eq_store fun axis haxis => hcalls c hc _ (.argument haxis))
  · apply List.map_congr_left
    intro a ha
    exact congrArg (Prod.mk a.toExpr)
      (store_eq_store fun axis haxis => haccesses a ha _ (.index (List.getElem_mem haxis)))

theorem stored_eq_stored_of_needs {align align' : Expr → Expr}
    (h : ∀ d, Needs unitSpacing d e → align d = align' d) :
    stored unitSpacing align .empty e.calls e.allAccesses =
      stored unitSpacing align' .empty e.calls e.allAccesses :=
  stored_eq_stored (fun c hc d hd => h d (.inl ⟨c, hc, hd⟩)) fun a ha d hd => h d (.inr ⟨a, ha, hd⟩)

/-- Alignment to the depth of the expression itself. -/
def alignNested (unitSpacing : Bool) (e : Expr) : Expr := alignIndex unitSpacing e.useDepth e

/-- Without uses the table is empty. -/
theorem subst_stored_eq_self {align : Expr → Expr} (h : e.useDepth = 0) :
    e.subst (stored unitSpacing align .empty e.calls e.allAccesses) = e := by
  apply Expr.subst_eq_self
  rw [Substitution.touches, List.any_eq_false]
  intro n hn
  have hdepth := Expr.useDepth_le_of_mem_nodes hn
  have hcall : ∀ f es, n ≠ .call f es := by
    rintro f es rfl
    simp [Expr.useDepth] at hdepth
    omega
  have haccess : ∀ f es, n ≠ .access f es := by
    rintro f es rfl
    simp [Expr.useDepth] at hdepth
    omega
  rw [find?_stored_eq_none hcall haccess]
  exact Bool.false_ne_true

/-- Each depth that is large enough has the same result, which is made of the results for what is
needed. -/
theorem alignIndex_eq {n : Nat} (h : e.useDepth ≤ n) :
    alignIndex unitSpacing n e =
      e.subst (stored unitSpacing (alignNested unitSpacing) .empty e.calls e.allAccesses) := by
  induction n using Nat.strong_induction_on generalizing e with
  | _ n ih =>
      cases n with
      | zero => exact (subst_stored_eq_self (Nat.le_zero.mp h)).symm
      | succ n =>
          refine congrArg e.subst (stored_eq_stored_of_needs fun d hd => ?_)
          have hdepth : d.useDepth ≤ n := Nat.le_of_lt_succ (hd.useDepth_lt.trans_le h)
          rw [ih n n.lt_succ_self hdepth, alignNested,
            ih d.useDepth (Nat.lt_succ_of_le hdepth) (Nat.le_refl _)]

theorem alignNested_eq (e : Expr) :
    alignNested unitSpacing e =
      e.subst (stored unitSpacing (alignNested unitSpacing) .empty e.calls e.allAccesses) :=
  alignIndex_eq (Nat.le_refl _)

theorem alignIndex_eq_alignNested {n : Nat} (h : e.useDepth ≤ n) :
    alignIndex unitSpacing n e = alignNested unitSpacing e :=
  (alignIndex_eq h).trans (alignNested_eq e).symm

/-- The recursion ends at every expression, with one result. -/
theorem aligns_iff {r : Expr} : Aligns unitSpacing e r ↔ alignNested unitSpacing e = r := by
  constructor
  · intro h
    induction h with
    | @intro e align _ ih => rw [alignNested_eq, stored_eq_stored_of_needs ih]
  · rintro rfl
    induction e using (wellFounded_needs unitSpacing).induction with
    | _ e ih =>
        rw [alignNested_eq]
        exact .intro _ ih

theorem alignExpr_eq_alignNested (a : Alignment) (e : Expr) :
    a.alignExpr e = a.replaceUses
      (stored a.unitSpacing (alignNested a.unitSpacing) .empty e.calls e.allAccesses) e := by
  rw [alignExpr, stored_eq_stored_of_needs fun d hd =>
    alignIndex_eq_alignNested (Nat.le_of_lt hd.useDepth_lt)]

theorem alignEquation_eq_alignNested (a : Alignment) (eq : Equation) :
    a.alignEquation eq = eq.mapSides (a.replaceUses
      (stored a.unitSpacing (alignNested a.unitSpacing) eq.restriction eq.calls
        eq.allAccesses)) := by
  have hentered {use d : Expr} (huse : use ∈ eq.lhs.nodes ++ eq.rhs.nodes)
      (hd : Entered a.unitSpacing d use) :
      alignIndex a.unitSpacing (max eq.lhs.useDepth eq.rhs.useDepth) d =
        alignNested a.unitSpacing d := by
    have hdepth := useDepth_le_of_mem_sides huse
    exact alignIndex_eq_alignNested (Nat.le_of_lt_succ (hd.useDepth_lt.trans_le hdepth))
  refine congrArg (fun uses => eq.mapSides (a.replaceUses uses)) (stored_eq_stored ?_ ?_)
  · intro c hc d hd
    exact hentered (UseKind.calls.toExpr_mem hc) hd
  · intro use huse d hd
    exact hentered (UseKind.accesses.toExpr_mem huse) hd

/-- Spreading a factor over a sum makes the tree larger. -/
theorem exists_larger_substFold :
    ∃ (e : Expr) (h : Symbol) (n : Literal),
      e.nodes.length < (e.substFold ⟨[(.sym h, .lit n)]⟩).nodes.length :=
  ⟨.prod [.sym ⟨"h"⟩, .sum [.sym ⟨"x"⟩, .sym ⟨"y"⟩]], ⟨"h"⟩, .int 2, by decide⟩

/-- Setting a symbol to a literal nests uses of fields no deeper, even where it makes the tree
larger. What alignment goes on with is therefore nested less deep than the use it belongs to, and
the recursion ends at every expression, with one result. Expressions and equations are aligned with
these results. -/
theorem recursion_ends :
    (∀ e : Expr, IsGreatest {k | e.UsesOnPath k} e.useDepth) ∧
    (∀ (e : Expr) (h : Symbol) (n : Literal),
      (e.substFold ⟨[(.sym h, .lit n)]⟩).useDepth ≤ e.useDepth) ∧
    (∃ (e : Expr) (h : Symbol) (n : Literal),
      e.nodes.length < (e.substFold ⟨[(.sym h, .lit n)]⟩).nodes.length) ∧
    (∀ (unitSpacing : Bool) (d use : Expr),
      Entered unitSpacing d use → d.useDepth < use.useDepth) ∧
    (∀ unitSpacing : Bool, WellFounded (Needs unitSpacing)) ∧
    ∀ a : Alignment, ∃ align : Expr → Expr,
      (∀ e r, Aligns a.unitSpacing e r ↔ align e = r) ∧
      (∀ e : Expr, a.alignExpr e =
        a.replaceUses (stored a.unitSpacing align .empty e.calls e.allAccesses) e) ∧
      ∀ eq : Equation, a.alignEquation eq = eq.mapSides
        (a.replaceUses (stored a.unitSpacing align eq.restriction eq.calls eq.allAccesses)) := by
  refine ⟨Expr.isGreatest_useDepth, Expr.useDepth_substFold_lit_le, exists_larger_substFold,
    fun _ _ _ h => h.useDepth_lt, wellFounded_needs, fun a => ?_⟩
  exact ⟨alignNested a.unitSpacing, fun e r => aligns_iff, alignExpr_eq_alignNested a,
    alignEquation_eq_alignNested a⟩

/-- The argument `3*h_x*(x + g(x))`, in which there is more to align if the spacing is set to 1. -/
def spreadArgument : Expr :=
  .prod [.int 3, .sym axisX.spacing, .sum [.dim axisX, .call fieldG [.dim axisX]]]

theorem recursion_ends_spreadArgument :
    Entered true (prepared true fieldU 0 spreadArgument) (.call fieldU [spreadArgument]) ∧
    spreadArgument.nodes.length < (prepared true fieldU 0 spreadArgument).nodes.length ∧
    (prepared true fieldU 0 spreadArgument).useDepth <
      (Expr.call fieldU [spreadArgument]).useDepth := by
  have hentered : Entered true (prepared true fieldU 0 spreadArgument)
      (.call fieldU [spreadArgument]) :=
    @Entered.argument true fieldU [spreadArgument] 0 Nat.zero_lt_one
  obtain ⟨-, -, -, hdepth, -⟩ := recursion_ends
  exact ⟨hentered, by decide, hdepth true _ _ hentered⟩

end Alignment

end GridAccess
