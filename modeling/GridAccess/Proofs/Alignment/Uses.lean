import GridAccess.Alignment
import GridAccess.Proofs.Expr.Accesses

/-!
What is stored for the uses of fields. Only calls and accesses are keys; a use is replaced by the
stored form of the first one that is equal to it.
-/

namespace GridAccess.Alignment

/-- The preparation of an argument of a call, as `stored` does it. -/
def argument (unitSpacing : Bool) (align : Expr → Expr) (f : Field) (axis : Nat) (arg : Expr) :
    Expr :=
  align (if unitSpacing then withUnitSpacing f axis arg else arg)

variable {unitSpacing : Bool} {align : Expr → Expr} {restriction : Substitution}
variable {calls : List Call} {accesses : List Access} {n r : Expr}

theorem exists_use_of_find?
    (h : (stored unitSpacing align restriction calls accesses).find? n = some r) :
    (∃ c ∈ calls, n.same c.toExpr = true ∧
      r = store c.field (argument unitSpacing align c.field) restriction c.args) ∨
    (∃ a ∈ accesses, n.same a.toExpr = true ∧
      r = store a.field (fun _ => align) restriction a.indices) := by
  obtain ⟨entry, hentry, hsame, rfl⟩ := Substitution.exists_entry_of_find? h
  rcases List.mem_append.mp hentry with hentry | hentry
  · obtain ⟨c, hc, rfl⟩ := List.mem_map.mp hentry
    exact .inl ⟨c, hc, hsame, rfl⟩
  · obtain ⟨a, ha, rfl⟩ := List.mem_map.mp hentry
    exact .inr ⟨a, ha, hsame, rfl⟩

theorem keys_stored :
    (stored unitSpacing align restriction calls accesses).entries.map Prod.fst =
      calls.map Call.toExpr ++ accesses.map Access.toExpr := by
  rw [stored, List.map_append, List.map_map, List.map_map]
  rfl

section

variable {ns : List Expr}

/-- Each use among the nodes is equal to a key. -/
theorem exists_find?_of_use (hn : n ∈ ns) (h : ¬ n.NoUse) :
    ∃ r, (stored unitSpacing align restriction (ns.filterMap Expr.call?).eraseDups
      (ns.filterMap Expr.access?).eraseDups).find? n = some r := by
  have hkey : ∃ key ∈ (ns.filterMap Expr.call?).eraseDups.map Call.toExpr ++
      (ns.filterMap Expr.access?).eraseDups.map Access.toExpr, n.same key = true := by
    cases n with
    | call f es =>
        obtain ⟨c, hc, hsame⟩ := UseKind.calls.exists_same_of_mem ⟨f, es⟩ hn
        exact ⟨_, List.mem_append_left _ (List.mem_map_of_mem hc), hsame⟩
    | access f es =>
        obtain ⟨a, ha, hsame⟩ := UseKind.accesses.exists_same_of_mem ⟨f, es⟩ hn
        exact ⟨_, List.mem_append_right _ (List.mem_map_of_mem ha), hsame⟩
    | _ => exact (h ⟨rfl, rfl⟩).elim
  obtain ⟨key, hmem, hsame⟩ := hkey
  exact Substitution.exists_find?_of_same (keys_stored ▸ hmem) hsame

theorem noUse_of_find?_eq_none (hn : n ∈ ns)
    (h : (stored unitSpacing align restriction (ns.filterMap Expr.call?).eraseDups
      (ns.filterMap Expr.access?).eraseDups).find? n = none) : n.NoUse := by
  by_contra huse
  obtain ⟨r, hfind⟩ := exists_find?_of_use hn huse
  cases h.symm.trans hfind

end

/-- A use is replaced by a use of the same field. -/
theorem outline_of_find?
    (h : (stored unitSpacing align restriction calls accesses).find? n = some r) :
    r.outline = n.outline := by
  rcases exists_use_of_find? h with ⟨c, -, hsame, rfl⟩ | ⟨a, -, hsame, rfl⟩
  · obtain ⟨es, rfl, -⟩ := Expr.same_call_iff.mp (Expr.same_symm hsame)
    rfl
  · obtain ⟨es, rfl, -⟩ := Expr.same_access_iff.mp (Expr.same_symm hsame)
    rfl

/-- Nothing but calls and accesses is replaced. -/
theorem find?_stored_eq_none (hcall : ∀ f es, n ≠ .call f es) (haccess : ∀ f es, n ≠ .access f es) :
    (stored unitSpacing align restriction calls accesses).find? n = none := by
  cases hfind : (stored unitSpacing align restriction calls accesses).find? n with
  | none => rfl
  | some r =>
      rcases exists_use_of_find? hfind with ⟨c, -, hsame, -⟩ | ⟨a, -, hsame, -⟩
      · obtain ⟨es, rfl, -⟩ := Expr.same_call_iff.mp (Expr.same_symm hsame)
        exact absurd rfl (hcall c.field es)
      · obtain ⟨es, rfl, -⟩ := Expr.same_access_iff.mp (Expr.same_symm hsame)
        exact absurd rfl (haccess a.field es)

/-- What all nodes of a stored form have: the access itself, and all nodes of finished indices. -/
theorem allNodes_store {Q : Expr → Prop} {f : Field} {align : Nat → Expr → Expr}
    {indices : List Expr} (hself : Q (store f align restriction indices))
    (h : ∀ axis, ∀ e ∈ indices,
      Expr.AllNodes Q ((shift f axis (align axis e)).substFold restriction)) :
    Expr.AllNodes Q (store f align restriction indices) := by
  refine Expr.allNodes_access.mpr ⟨hself, ?_⟩
  intro e he
  obtain ⟨axis, haxis, rfl⟩ := List.mem_mapIdx.mp he
  exact h axis _ (List.getElem_mem haxis)

/-! ### The tables of alignment -/

/-- The stored forms of the uses among `ns`, with what is nested at most `depth` deep aligned in
their indices. -/
def storedAmong (unitSpacing : Bool) (depth : Nat) (restriction : Substitution)
    (ns : List Expr) : Substitution :=
  stored unitSpacing (alignIndex unitSpacing depth) restriction
    (ns.filterMap Expr.call?).eraseDups (ns.filterMap Expr.access?).eraseDups

theorem alignEquation_eq (a : Alignment) (eq : Equation) :
    a.alignEquation eq = eq.mapSides (a.replaceUses (storedAmong a.unitSpacing
      (max eq.lhs.useDepth eq.rhs.useDepth) eq.restriction (eq.lhs.nodes ++ eq.rhs.nodes))) := rfl

/-- The table of an equation is made deep enough for both sides. -/
theorem useDepth_le_of_mem_sides {eq : Equation} {n : Expr}
    (h : n ∈ eq.lhs.nodes ++ eq.rhs.nodes) :
    n.useDepth ≤ max eq.lhs.useDepth eq.rhs.useDepth + 1 := by
  rcases List.mem_append.mp h with h | h
  · have hdepth := Expr.useDepth_le_of_mem_nodes h
    omega
  · have hdepth := Expr.useDepth_le_of_mem_nodes h
    omega

/-- All that is around the uses stays as it is. -/
theorem outline_subst_storedAmong {depth : Nat} {ns : List Expr} {e : Expr}
    (he : ∀ n ∈ e.nodes, n ∈ ns) :
    (e.subst (storedAmong unitSpacing depth restriction ns)).outline = e.outline :=
  Expr.outline_subst outline_of_find? fun n hn => noUse_of_find?_eq_none (he n hn)

end GridAccess.Alignment
