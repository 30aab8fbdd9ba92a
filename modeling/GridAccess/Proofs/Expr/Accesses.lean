import GridAccess.Proofs.Expr.Inheritance
import GridAccess.Proofs.Expr.Search

/-!
What replacement does to the accesses in an expression and to the expression around them. Where
every use of a field is a key, the accesses that are found afterwards all come from replacements,
and what is around the uses is as it was.
-/

namespace GridAccess.Expr

/-! ### Accesses at any depth -/

def AccessNode (P : Field → List Expr → Prop) : Expr → Prop
  | .access f indices => P f indices
  | _ => True

/-- Every access has the property, the ones inside others included. -/
def EveryAccess (P : Field → List Expr → Prop) (e : Expr) : Prop := AllNodes (AccessNode P) e

/-- Neither a call nor an access. -/
def NoUse (e : Expr) : Prop := e.call? = none ∧ e.access? = none

variable {P : Field → List Expr → Prop} {s : Substitution} {e : Expr}

theorem everyAccess_iff :
    EveryAccess P e ↔ ∀ f indices, .access f indices ∈ e.nodes → P f indices := by
  constructor
  · exact fun h f indices hn => h _ hn
  · intro h n hn
    cases n with
    | access f indices => exact h f indices hn
    | _ => trivial

theorem EveryAccess.substFold (hs : ∀ {n r}, s.find? n = some r → EveryAccess P r)
    (hP : ∀ {f es}, P f es → P f (es.map (·.substFold s))) (h : EveryAccess P e) :
    EveryAccess P (e.substFold s) := by
  refine AllNodes.substFold_of (P := AccessNode P) ?_ hs fun n hn _ => h n hn
  constructor
  case of => exact id
  case access => exact hP
  all_goals
    intros
    trivial

/-- Every use is a key, so all accesses come from replacements. -/
theorem everyAccess_subst (hs : ∀ {n r}, s.find? n = some r → EveryAccess P r)
    (hkeys : AllNodes (fun n => s.find? n = none → n.NoUse) e) : EveryAccess P (e.subst s) := by
  refine AllNodes.subst_of (P := NoUse) ?_ hs hkeys
  constructor
  case access =>
    rintro f es ⟨-, haccess⟩
    cases haccess
  case of =>
    rintro n ⟨-, haccess⟩
    cases n with
    | access => cases haccess
    | _ => trivial
  all_goals
    intros
    trivial

/-! ### What is around the uses -/

mutual

/-- The expression with nothing but the field left of each outermost use. -/
def outline : Expr → Expr
  | .lit n => .lit n
  | .sym s => .sym s
  | .dim d => .dim d
  | .call f _ | .access f _ => .access f []
  | .sum terms => .sum (outlineList terms)
  | .prod factors => .prod (outlineList factors)
  | .pow base exponent => .pow base.outline exponent.outline

def outlineList : List Expr → List Expr
  | [] => []
  | e :: es => e.outline :: outlineList es

end

theorem outlineList_eq (es : List Expr) : outlineList es = es.map outline := by
  induction es with
  | nil => rfl
  | cons e es ih => exact congrArg (e.outline :: ·) ih

/-- Uses are replaced by uses of the same field, and nothing else is replaced. -/
theorem outline_subst (hs : ∀ {n r}, s.find? n = some r → r.outline = n.outline)
    (hkeys : AllNodes (fun n => s.find? n = none → n.NoUse) e) :
    (e.subst s).outline = e.outline := by
  have hstep {e : Expr} (hnone : s.find? e = none → (e.subst s).outline = e.outline) :
      (e.subst s).outline = e.outline := by
    cases hfind : s.find? e with
    | some r => exact subst_of_find? hfind ▸ hs hfind
    | none => exact hnone hfind
  have hlist {es : List Expr}
      (ih : ∀ e ∈ es, AllNodes (fun n => s.find? n = none → n.NoUse) e →
        (e.subst s).outline = e.outline)
      (h : ∀ e ∈ es, AllNodes (fun n => s.find? n = none → n.NoUse) e) :
      outlineList (es.map (·.subst s)) = outlineList es := by
    rw [outlineList_eq, outlineList_eq, List.map_map]
    exact List.map_congr_left fun e he => ih e he (h e he)
  induction e with
  | lit | sym | dim =>
      refine hstep fun hfind => ?_
      rw [subst_eq_self (by simp [Substitution.touches, nodes, hfind])]
  | call f es =>
      refine hstep fun hfind => ?_
      cases (hkeys.self hfind).1
  | access f es =>
      refine hstep fun hfind => ?_
      cases (hkeys.self hfind).2
  | sum es ih =>
      refine hstep fun hfind => ?_
      rw [subst_sum hfind]
      exact congrArg sum (hlist ih (allNodes_sum.mp hkeys).2)
  | prod es ih =>
      refine hstep fun hfind => ?_
      rw [subst_prod hfind]
      exact congrArg prod (hlist ih (allNodes_prod.mp hkeys).2)
  | pow base exponent ihb ihe =>
      refine hstep fun hfind => ?_
      obtain ⟨-, hbase, hexponent⟩ := allNodes_pow.mp hkeys
      rw [subst_pow hfind, outline, ihb hbase, ihe hexponent, outline]

end GridAccess.Expr
