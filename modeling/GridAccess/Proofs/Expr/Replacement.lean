import GridAccess.Proofs.Expr.Equality

/-!
Replacement node by node. A node that is a key is replaced. Any other node keeps its head over
the replaced operands, except that a sum, a product or a power is built again if there is a key
below it.
-/

namespace GridAccess

namespace Substitution

theorem exists_entry_of_find? {s : Substitution} {e r : Expr} (h : s.find? e = some r) :
    ∃ entry ∈ s.entries, e.same entry.1 = true ∧ entry.2 = r := by
  obtain ⟨entry, hfind, hr⟩ := Option.map_eq_some_iff.mp h
  have hsame : (e == entry.1) = true := by simpa using List.find?_some hfind
  exact ⟨entry, List.mem_of_find?_eq_some hfind, hsame, hr⟩

theorem find?_eq_none_iff {s : Substitution} {e : Expr} :
    s.find? e = none ↔ ∀ entry ∈ s.entries, e.same entry.1 = false := by
  have hbeq (a b : Expr) : (a == b) = a.same b := rfl
  simp [find?, hbeq]

theorem exists_find?_of_same {s : Substitution} {e key : Expr}
    (hkey : key ∈ s.entries.map Prod.fst) (hsame : e.same key = true) :
    ∃ r, s.find? e = some r := by
  obtain ⟨entry, hentry, rfl⟩ := List.mem_map.mp hkey
  refine Option.ne_none_iff_exists'.mp fun hnone => ?_
  simp [find?_eq_none_iff.mp hnone entry hentry] at hsame

@[simp] theorem find?_empty (e : Expr) : empty.find? e = none := rfl

/-- Some node of `e` is a key. -/
def touches (s : Substitution) (e : Expr) : Bool := e.nodes.any fun n => (s.find? n).isSome

end Substitution

namespace Expr

variable {b : Builder} {s : Substitution}

theorem find?_eq_none_of_touches {e n : Expr} (h : s.touches e = false) (hn : n ∈ e.nodes) :
    s.find? n = none := by
  rw [Substitution.touches, List.any_eq_false] at h
  simpa using h n hn

theorem replace?_of_find? {e r : Expr} (h : s.find? e = some r) : replace? b s e = some r := by
  cases e <;> simp [replace?, h]

theorem substFold_of_find? {e r : Expr} (h : s.find? e = some r) : e.substFold s = r := by
  rw [substFold, replace?_of_find? h, Option.getD_some]

theorem subst_of_find? {e r : Expr} (h : s.find? e = some r) : e.subst s = r := by
  rw [subst, replace?_of_find? h, Option.getD_some]

theorem getD_replaceList? (es : List Expr) :
    (replaceList? b s es).getD es = es.map fun e => (replace? b s e).getD e := by
  induction es with
  | nil => rfl
  | cons e es ih =>
      rw [List.map_cons, ← ih]
      cases he : replace? b s e <;> cases hes : replaceList? b s es <;>
        simp [replaceList?, changedCons, he, hes]

theorem isSome_replaceList? (es : List Expr) :
    (replaceList? b s es).isSome = es.any fun e => (replace? b s e).isSome := by
  induction es with
  | nil => rfl
  | cons e es ih =>
      rw [List.any_cons, ← ih]
      cases he : replace? b s e <;> cases hes : replaceList? b s es <;>
        simp [replaceList?, changedCons, he, hes]

theorem any_nodesList (p : Expr → Bool) (es : List Expr) :
    (nodesList es).any p = es.any fun e => e.nodes.any p := by
  rw [nodesList_eq, List.any_flatMap]

theorem touches_eq (s : Substitution) (e : Expr) :
    s.touches e = (e.children.any s.touches || (s.find? e).isSome) := by
  have hlist (es : List Expr) (node : Expr) :
      (nodesList es ++ [node]).any (fun n => (s.find? n).isSome) =
        (es.any s.touches || (s.find? node).isSome) := by
    rw [List.any_append, any_nodesList, List.any_cons, List.any_nil, Bool.or_false]
    rfl
  cases e with
  | lit | sym | dim => exact Bool.or_false _
  | call f es => exact hlist es (.call f es)
  | access f es => exact hlist es (.access f es)
  | sum es => exact hlist es (.sum es)
  | prod es => exact hlist es (.prod es)
  | pow base exponent =>
      have h := hlist [base, exponent] (.pow base exponent)
      rwa [nodesList_eq, List.flatMap_cons, List.flatMap_cons, List.flatMap_nil,
        List.append_nil] at h

theorem any_touches_children {e : Expr} (hfind : s.find? e = none) (h : s.touches e = true) :
    e.children.any s.touches = true := by
  rw [touches_eq, hfind] at h
  simpa using h

/-- What is replaced does not depend on how nodes are built. -/
theorem isSome_replace? (e : Expr) : (replace? b s e).isSome = s.touches e := by
  have hlist {es : List Expr} (ih : ∀ e ∈ es, (replace? b s e).isSome = s.touches e) :
      (replaceList? b s es).isSome = (nodesList es).any fun n => (s.find? n).isSome := by
    rw [isSome_replaceList?, any_nodesList, Bool.eq_iff_iff, List.any_eq_true, List.any_eq_true]
    refine exists_congr fun e => and_congr_right fun he => ?_
    rw [ih e he]
    rfl
  induction e with
  | lit | sym | dim => simp [replace?, Substitution.touches, nodes]
  | call f es ih | access f es ih | sum es ih | prod es ih =>
      simp only [replace?, Substitution.touches, nodes, List.any_append, ← hlist ih]
      cases hfind : s.find? _ <;> simp [hfind]
  | pow base exponent ihb ihe =>
      simp only [Substitution.touches] at ihb ihe
      simp only [replace?, Substitution.touches, nodes, List.any_append, ← ihb, ← ihe]
      cases hfind : s.find? _ <;> cases replace? b s base <;> cases replace? b s exponent <;>
        simp [changedPow, hfind]

/-- A node that is no key, with the operands `es`, when it is built by `node`. -/
theorem getD_map_replaceList? {e : Expr} {es : List Expr} {node : List Expr → Expr}
    (he : e = node es ∨ es.any s.touches = true) :
    ((replaceList? b s es).map node).getD e = node (es.map fun e => (replace? b s e).getD e) := by
  rw [← getD_replaceList?]
  cases hes : replaceList? b s es with
  | some es' => rfl
  | none =>
      have hany := isSome_replaceList? (b := b) (s := s) es
      simp only [isSome_replace?, hes] at hany
      rcases he with rfl | hes
      · rfl
      · rw [hes] at hany
        cases hany

/-- Without a key in it an expression stays as it is. -/
theorem getD_replace?_eq_self {e : Expr} (h : s.touches e = false) :
    (replace? b s e).getD e = e := by
  rw [← isSome_replace? (b := b)] at h
  cases hreplace : replace? b s e with
  | none => rfl
  | some r => simp [hreplace] at h

/-! ### Replacement that keeps the shape -/

variable {f : Field} {es : List Expr} {base exponent : Expr}

theorem subst_eq_self {e : Expr} (h : s.touches e = false) : e.subst s = e :=
  getD_replace?_eq_self h

theorem subst_call (h : s.find? (.call f es) = none) :
    (call f es).subst s = .call f (es.map (·.subst s)) := by
  rw [subst, replace?, h]
  exact getD_map_replaceList? (.inl rfl)

theorem subst_access (h : s.find? (.access f es) = none) :
    (access f es).subst s = .access f (es.map (·.subst s)) := by
  rw [subst, replace?, h]
  exact getD_map_replaceList? (.inl rfl)

theorem subst_sum (h : s.find? (.sum es) = none) :
    (sum es).subst s = .sum (es.map (·.subst s)) := by
  rw [subst, replace?, h]
  exact getD_map_replaceList? (.inl rfl)

theorem subst_prod (h : s.find? (.prod es) = none) :
    (prod es).subst s = .prod (es.map (·.subst s)) := by
  rw [subst, replace?, h]
  exact getD_map_replaceList? (.inl rfl)

theorem subst_pow (h : s.find? (.pow base exponent) = none) :
    (pow base exponent).subst s = .pow (base.subst s) (exponent.subst s) := by
  simp only [subst, replace?, h]
  cases replace? .verbatim s base <;> cases replace? .verbatim s exponent <;> rfl

/-! ### Replacement that folds -/

theorem substFold_call (h : s.find? (.call f es) = none) :
    (call f es).substFold s = .call f (es.map (·.substFold s)) := by
  rw [substFold, replace?, h]
  exact getD_map_replaceList? (.inl rfl)

theorem substFold_access (h : s.find? (.access f es) = none) :
    (access f es).substFold s = .access f (es.map (·.substFold s)) := by
  rw [substFold, replace?, h]
  exact getD_map_replaceList? (.inl rfl)

theorem substFold_sum (h : s.find? (.sum es) = none) (hes : es.any s.touches = true) :
    (sum es).substFold s = sumOf (es.map (·.substFold s)) := by
  rw [substFold, replace?, h]
  exact getD_map_replaceList? (.inr hes)

theorem substFold_prod (h : s.find? (.prod es) = none) (hes : es.any s.touches = true) :
    (prod es).substFold s = productOf (es.map (·.substFold s)) := by
  rw [substFold, replace?, h]
  exact getD_map_replaceList? (.inr hes)

theorem substFold_pow (h : s.find? (.pow base exponent) = none)
    (hes : (s.touches base || s.touches exponent) = true) :
    (pow base exponent).substFold s = power (base.substFold s) (exponent.substFold s) := by
  simp only [← isSome_replace? (b := .folding)] at hes
  simp only [substFold, replace?, h]
  cases hbase : replace? .folding s base with
  | none =>
      cases hexponent : replace? .folding s exponent with
      | none => simp [hbase, hexponent] at hes
      | some exponent' => rfl
  | some base' => cases replace? .folding s exponent <;> rfl

theorem substFold_eq_self {e : Expr} (h : s.touches e = false) : e.substFold s = e :=
  getD_replace?_eq_self h

/-- How a replacement that folds comes about, for induction along it. -/
inductive FoldsTo (s : Substitution) : Expr → Expr → Prop where
  | untouched {e : Expr} : s.touches e = false → FoldsTo s e e
  | found {e r : Expr} : s.find? e = some r → FoldsTo s e r
  | call {f : Field} {es : List Expr} : s.find? (.call f es) = none →
      (∀ e ∈ es, FoldsTo s e (e.substFold s)) →
      FoldsTo s (.call f es) (.call f (es.map (·.substFold s)))
  | access {f : Field} {es : List Expr} : s.find? (.access f es) = none →
      (∀ e ∈ es, FoldsTo s e (e.substFold s)) →
      FoldsTo s (.access f es) (.access f (es.map (·.substFold s)))
  | sum {es : List Expr} : s.find? (.sum es) = none → es.any s.touches = true →
      (∀ e ∈ es, FoldsTo s e (e.substFold s)) →
      FoldsTo s (.sum es) (sumOf (es.map (·.substFold s)))
  | prod {es : List Expr} : s.find? (.prod es) = none → es.any s.touches = true →
      (∀ e ∈ es, FoldsTo s e (e.substFold s)) →
      FoldsTo s (.prod es) (productOf (es.map (·.substFold s)))
  | pow {base exponent : Expr} : s.find? (.pow base exponent) = none →
      (s.touches base || s.touches exponent) = true →
      FoldsTo s base (base.substFold s) → FoldsTo s exponent (exponent.substFold s) →
      FoldsTo s (.pow base exponent) (power (base.substFold s) (exponent.substFold s))

theorem foldsTo_substFold (s : Substitution) (e : Expr) : FoldsTo s e (e.substFold s) := by
  -- Keys are replaced and what holds no key stays, whatever the node is.
  have hstep {e : Expr}
      (h : s.find? e = none → e.children.any s.touches = true → FoldsTo s e (e.substFold s)) :
      FoldsTo s e (e.substFold s) := by
    cases hfind : s.find? e with
    | some r => exact substFold_of_find? hfind ▸ .found hfind
    | none =>
        cases htouches : s.touches e with
        | false => exact (substFold_eq_self htouches).symm ▸ .untouched htouches
        | true => exact h hfind (any_touches_children hfind htouches)
  induction e with
  | lit | sym | dim => exact hstep fun _ hes => by simp [children] at hes
  | call f es ih => exact hstep fun hfind _ => substFold_call hfind ▸ .call hfind ih
  | access f es ih => exact hstep fun hfind _ => substFold_access hfind ▸ .access hfind ih
  | sum es ih => exact hstep fun hfind hes => substFold_sum hfind hes ▸ .sum hfind hes ih
  | prod es ih => exact hstep fun hfind hes => substFold_prod hfind hes ▸ .prod hfind hes ih
  | pow base exponent ihb ihe =>
      apply hstep
      intro hfind hchildren
      have hes : (s.touches base || s.touches exponent) = true := by
        simpa [children] using hchildren
      exact substFold_pow hfind hes ▸ .pow hfind hes ihb ihe

end Expr

end GridAccess
