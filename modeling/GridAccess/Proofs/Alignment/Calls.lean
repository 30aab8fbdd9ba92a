import GridAccess.Proofs.Alignment.Recursion
import GridAccess.Proofs.Expr.Absence

/-!
Alignment leaves no call behind. Every call of an expression is a key of the table of stored forms,
so replacement stops at it or above it. What is put in its place is an access whose indices have
been aligned in turn: the induction is on how deep uses are nested.
-/

namespace GridAccess.Alignment

open GridAccess.Expr (CallFree inherited_callFree headProperty_call?)

/-! ### Stored forms -/

/-- The replacements hold no call. -/
def ReplacesByCallFree (s : Substitution) : Prop :=
  ∀ e r, s.find? e = some r → r.CallFree

theorem callFree_store {f : Field} {align : Nat → Expr → Expr} {restriction : Substitution}
    (hr : ReplacesByCallFree restriction) {indices : List Expr}
    (h : ∀ axis, ∀ e ∈ indices, (align axis e).CallFree) :
    (store f align restriction indices).CallFree := by
  refine allNodes_store rfl fun axis e he => ?_
  have hshift : (shift f axis (align axis e)).CallFree :=
    inherited_shift inherited_callFree f axis (h axis e he)
  exact Expr.AllNodes.substFold headProperty_call? (fun _ => rfl) (hr _ _) fun n hn _ => hshift n hn

/-- `align` leaves no call where uses are nested at most `depth` deep. -/
def RemovesCallsUpTo (align : Expr → Expr) (depth : Nat) : Prop :=
  ∀ e : Expr, e.useDepth ≤ depth → (align e).CallFree

section

variable {unitSpacing : Bool} {align : Expr → Expr} {depth : Nat} {restriction : Substitution}
variable {ns : List Expr}

/-- The stored forms of the uses among `ns`. -/
theorem replacesByCallFree_stored (unitSpacing : Bool) (hr : ReplacesByCallFree restriction)
    (halign : RemovesCallsUpTo align depth) (hns : ∀ n ∈ ns, n.useDepth ≤ depth + 1) :
    ReplacesByCallFree (stored unitSpacing align restriction
      (ns.filterMap Expr.call?).eraseDups (ns.filterMap Expr.access?).eraseDups) := by
  intro e r hfind
  rcases exists_use_of_find? hfind with ⟨c, hc, -, rfl⟩ | ⟨a, ha, -, rfl⟩
  · have hdepth := hns _ (UseKind.calls.toExpr_mem hc)
    refine callFree_store hr fun axis arg harg => halign _ ?_
    exact (useDepth_prepared_le unitSpacing c.field axis arg).trans
      (Expr.useDepth_le_of_mem_use hdepth harg)
  · have hdepth := hns _ (UseKind.accesses.toExpr_mem ha)
    exact callFree_store hr fun axis index hindex =>
      halign _ (Expr.useDepth_le_of_mem_use hdepth hindex)

end

/-! ### Expressions and equations -/

theorem removesCallsUpTo_alignIndex (unitSpacing : Bool) (depth : Nat) :
    RemovesCallsUpTo (alignIndex unitSpacing depth) depth := by
  induction depth with
  | zero => exact fun e hdepth => Expr.callFree_of_useDepth_eq_zero (Nat.le_zero.mp hdepth)
  | succ depth ih =>
      intro e hdepth
      have hempty : ReplacesByCallFree .empty := fun _ _ hfind => by cases hfind
      have hstored := replacesByCallFree_stored unitSpacing hempty ih
        fun n hn => (Expr.useDepth_le_of_mem_nodes hn).trans hdepth
      exact Expr.AllNodes.subst headProperty_call? (fun _ => rfl) (hstored _ _)
        fun n hn hfind => (noUse_of_find?_eq_none hn hfind).1

theorem replacesByCallFree_restriction (eq : Equation) : ReplacesByCallFree eq.restriction := by
  unfold Equation.restriction
  cases eq.subdomain with
  | none => exact fun _ _ hfind => by cases hfind
  | some s =>
      intro e r hfind
      obtain ⟨d, d', -, -, rfl⟩ := Subdomain.exists_dim_of_find? hfind
      exact Expr.callFree_of_useDepth_eq_zero rfl

theorem callFree_replaceUses {a : Alignment}
    (ha : ∀ entry ∈ a.replacements.entries, entry.2.CallFree) {restriction : Substitution}
    (hr : ReplacesByCallFree restriction) {depth : Nat} {ns : List Expr}
    (hns : ∀ n ∈ ns, n.useDepth ≤ depth + 1) {e : Expr} (he : ∀ n ∈ e.nodes, n ∈ ns) :
    (a.replaceUses (stored a.unitSpacing (alignIndex a.unitSpacing depth) restriction
      (ns.filterMap Expr.call?).eraseDups (ns.filterMap Expr.access?).eraseDups) e).CallFree := by
  have huses := replacesByCallFree_stored a.unitSpacing hr
    (removesCallsUpTo_alignIndex a.unitSpacing depth) hns
  rw [replaceUses]
  split
  · exact Expr.AllNodes.subst headProperty_call? (fun _ => rfl) (huses _ _)
      fun n hn hfind => (noUse_of_find?_eq_none (he n hn) hfind).1
  · refine Expr.AllNodes.substFold headProperty_call? (fun _ => rfl) ?_ ?_
    · intro n r hfind
      rw [find?_orElse, Option.or_eq_some_iff] at hfind
      rcases hfind with hfind | ⟨-, hfind⟩
      · obtain ⟨entry, hentry, -, rfl⟩ := Substitution.exists_entry_of_find? hfind
        exact ha entry hentry
      · exact huses n r hfind
    · intro n hn hfind
      rw [find?_orElse, Option.or_eq_none_iff] at hfind
      exact (noUse_of_find?_eq_none (he n hn) hfind.2).1

/-- After alignment there is no call anywhere in an expression or an equation, whatever is done
about spacings and subdomains, unless a replacement by the caller brings one in. -/
theorem alignment_leaves_no_calls (a : Alignment)
    (ha : ∀ entry ∈ a.replacements.entries, entry.2.CallFree) :
    (∀ e : Expr, (a.alignExpr e).CallFree) ∧
      ∀ eq : Equation, (a.alignEquation eq).lhs.CallFree ∧ (a.alignEquation eq).rhs.CallFree := by
  constructor
  · intro e
    exact callFree_replaceUses ha (fun _ _ hfind => by cases hfind)
      (fun n hn => (Expr.useDepth_le_of_mem_nodes hn).trans (Nat.le_succ _)) fun n hn => hn
  · intro eq
    have hrestriction := replacesByCallFree_restriction eq
    have hside {side : Expr} (hside : ∀ n ∈ side.nodes, n ∈ eq.lhs.nodes ++ eq.rhs.nodes) :=
      callFree_replaceUses ha hrestriction (fun _ => useDepth_le_of_mem_sides) hside
    exact ⟨hside fun n hn => List.mem_append_left _ hn,
      hside fun n hn => List.mem_append_right _ hn⟩

theorem alignment_leaves_no_calls_nestedUses :
    (∀ entry ∈ (Substitution.mk [(.sym axisX.spacing, .int 2)]).entries, entry.2.CallFree) ∧
      (alignEquation ⟨⟨[(.sym axisX.spacing, .int 2)]⟩, true⟩ nestedUses).rhs.CallFree := by
  have hentries : ∀ entry ∈ (Substitution.mk [(.sym axisX.spacing, .int 2)]).entries,
      entry.2.CallFree := by
    intro entry hentry
    obtain rfl := List.mem_singleton.mp hentry
    exact Expr.callFree_of_useDepth_eq_zero rfl
  exact ⟨hentries, ((alignment_leaves_no_calls _ hentries).2 nestedUses).2⟩

end GridAccess.Alignment
