import GridAccess.Proofs.Expr.Inheritance
import GridAccess.Proofs.Expr.Reading
import Mathlib.LinearAlgebra.Finsupp.LinearCombination

/-!
Expressions as linear forms: integer coefficients of canonical products, which are not multiplied
out. Only literals in front of a single sum are spread over its terms, as folding does it. A table
of coefficients as sums collect it lists the coefficients of its form, so the form determines the
table up to equality of expressions.
-/

namespace GridAccess

namespace Expr

/-- The constant stands at the empty product, which is 1. -/
noncomputable def form (e : Expr) : Class →₀ Int :=
  match _h : e.cofactors with
  | [.sum terms] => e.coefficient • (terms.attach.map fun ⟨t, _⟩ => form t).sum
  | as => Finsupp.single (powerProduct as).toClass e.coefficient
termination_by sizeOf e
decreasing_by
  have hterm := List.sizeOf_lt_of_mem ‹t ∈ terms›
  have hsum := sizeOf_le_of_mem_cofactors (e := e) (f := .sum terms) (by simp [*])
  rw [sum.sizeOf_spec] at hsum
  omega

theorem form_of_cofactors_eq {e : Expr} {terms : List Expr} (h : e.cofactors = [.sum terms]) :
    e.form = e.coefficient • (terms.map form).sum := by
  rw [form]
  split
  · next heq =>
      rw [h] at heq
      obtain rfl := Expr.sum.inj (List.cons.inj heq).1
      simp
  · next hne => exact (hne terms h).elim

theorem form_of_cofactors_ne {e : Expr} (h : ∀ terms, e.cofactors ≠ [.sum terms]) :
    e.form = Finsupp.single (powerProduct e.cofactors).toClass e.coefficient := by
  rw [form]
  split
  · next heq => exact (h _ heq).elim
  · rfl

theorem form_sum (terms : List Expr) : (sum terms).form = (terms.map form).sum := by
  rw [form_of_cofactors_eq (cofactors_of_isFactor rfl), coefficient_of_isFactor rfl, one_smul]

theorem form_powerProduct {as : List Expr} (has : ∀ a ∈ as, a.isFactor = true)
    (hsum : ∀ terms, as ≠ [.sum terms]) :
    (powerProduct as).form = Finsupp.single (powerProduct as).toClass 1 := by
  have hperm := Ascending.sort_perm as
  rw [form_of_cofactors_ne, coefficient_powerProduct has, cofactors_powerProduct has,
    toClass_eq_iff.mpr (same_powerProduct (hperm.map toClass))]
  rw [cofactors_powerProduct has]
  intro terms heq
  rw [heq] at hperm
  exact hsum terms hperm.symm.eq_singleton

theorem form_one : (int 1).form = Finsupp.single (int 1).toClass 1 :=
  @form_powerProduct [] (by simp) (by simp)

theorem form_eq_smul (e : Expr) : e.form = e.coefficient • (powerProduct e.cofactors).form := by
  by_cases hsum : ∃ terms, e.cofactors = [.sum terms]
  · obtain ⟨terms, hterms⟩ := hsum
    rw [form_of_cofactors_eq hterms, hterms, powerProduct_singleton, form_sum]
  · have hsum : ∀ terms, e.cofactors ≠ [.sum terms] := not_exists.mp hsum
    rw [form_of_cofactors_ne hsum, form_powerProduct (fun _ => isFactor_of_mem_cofactors) hsum,
      Finsupp.smul_single, smul_eq_mul, mul_one]

theorem form_congr {a b : Expr} (h : a.same b = true) : a.form = b.form := by
  have hcofactors := alike_cofactors h
  induction a using form.induct generalizing b with
  | case1 a terms heq ih =>
      rw [heq] at hcofactors
      obtain ⟨s, _, hs, htail, hb⟩ := List.forall₂_cons_left_iff.mp hcofactors
      obtain ⟨terms', rfl, hterms⟩ := same_sum_iff.mp hs
      obtain rfl := List.forall₂_nil_left_iff.mp htail
      have hforms : terms.map form = terms'.map form := by
        have hmem := (List.forall₂_and_left terms terms').mpr ⟨fun t ht => @ih t ht, hterms⟩
        exact map_eq_map_iff_forall₂.mpr (hmem.imp fun t u ⟨ih, htu⟩ =>
          ih htu (alike_cofactors htu))
      rw [form_of_cofactors_eq heq, form_of_cofactors_eq hb, coefficient_congr h, hforms]
  | case2 a hne =>
      have hb : ∀ terms, b.cofactors ≠ [.sum terms] := by
        intro terms hb
        rw [hb] at hcofactors
        obtain ⟨s, _, hs, htail, ha⟩ := List.forall₂_cons_right_iff.mp hcofactors
        obtain ⟨terms', rfl, -⟩ := same_sum_iff.mp (same_symm hs)
        obtain rfl := List.forall₂_nil_right_iff.mp htail
        exact hne terms' ha
      rw [form_of_cofactors_ne hne, form_of_cofactors_ne hb, coefficient_congr h,
        toClass_eq_iff.mpr (same_powerProduct (.of_eq (alike_iff.mp hcofactors)))]

noncomputable def forms : Reading (Class →₀ Int) where
  value := form
  value_sum := form_sum
  value_product := form_eq_smul
  value_congr := form_congr

end Expr

/-- What a reading makes of a class of equal expressions. -/
def Reading.ofClass {M : Type} [AddCommGroup M] (r : Reading M) : Expr.Class → M :=
  Quotient.lift r.value fun _ _ => r.value_congr

/-- A reading depends on the form only. -/
theorem Reading.value_eq_linearCombination {M : Type} [AddCommGroup M] (r : Reading M) (e : Expr) :
    r.value e = Finsupp.linearCombination Int r.ofClass e.form := by
  induction e using Expr.form.induct with
  | case1 e terms heq ih =>
      rw [Expr.form_of_cofactors_eq heq, map_smul, map_list_sum, List.map_map, r.value_product,
        heq, Expr.powerProduct_singleton, r.value_sum]
      exact congrArg (e.coefficient • List.sum ·) (List.map_congr_left ih)
  | case2 e hne =>
      rw [Expr.form_of_cofactors_ne hne, Finsupp.linearCombination_single, r.value_product]
      rfl

namespace Expr

/-! ### Tables of coefficients -/

theorem IsKey.form_eq {k : Expr} (h : k.IsKey) : k.form = Finsupp.single k.toClass 1 := by
  obtain ⟨as, -, has, hsum, rfl⟩ := h
  exact form_powerProduct has hsum

theorem IsKey.smul_form {k : Expr} (h : k.IsKey) (n : Int) :
    n • k.form = Finsupp.single k.toClass n := by
  rw [h.form_eq, Finsupp.smul_single, smul_eq_mul, mul_one]

/-- No key is equal to the product that the constant stands at. -/
theorem IsKey.toClass_ne {k : Expr} (h : k.IsKey) : k.toClass ≠ (int 1).toClass := by
  intro heq
  have halike := alike_cofactors (toClass_eq_iff.mp heq)
  exact h.cofactors_ne_nil (List.forall₂_nil_right_iff.mp halike)

abbrev classes (table : List (Expr × Literal)) : List (Class × Literal) :=
  table.map (Prod.map toClass id)

@[simp] theorem classes_cons (k : Expr) (v : Literal) (table : List (Expr × Literal)) :
    classes ((k, v) :: table) = (k.toClass, v) :: classes table := rfl

theorem classes_adjust (k : Expr) (start : Literal) (f : Literal → Literal)
    (table : List (Expr × Literal)) :
    classes (Ascending.adjust k start f table) =
      Ascending.adjust k.toClass start f (classes table) :=
  Ascending.map_adjust compare_toClass k start f table

theorem mem_keys_classes {q : Class} {table : List (Expr × Literal)} :
    q ∈ (classes table).map Prod.fst ↔ ∃ entry ∈ table, entry.1.toClass = q := by
  simp [classes]

theorem alikeTable_of_classes_eq {s t : List (Expr × Literal)} (h : classes s = classes t) :
    AlikeTable s t := by
  refine (map_eq_map_iff_forall₂.mp h).imp fun x y hxy => ?_
  obtain ⟨hkey, hcoefficient⟩ := Prod.ext_iff.mp hxy
  refine ⟨toClass_eq_iff.mp hkey, ?_⟩
  rw [show x.2 = y.2 from hcoefficient]
  exact y.2.same_refl

/-- A table of keys no two of which are equal. -/
structure Tidy (table : List (Expr × Literal)) : Prop where
  keys : ∀ entry ∈ table, IsKey entry.1
  strict : Ascending.Strict ((classes table).map Prod.fst)

theorem Tidy.nil : Tidy [] := ⟨by simp, List.Pairwise.nil⟩

theorem Tidy.adjust {table : List (Expr × Literal)} (h : Tidy table) {k : Expr} (hk : IsKey k)
    (start : Literal) (f : Literal → Literal) : Tidy (Ascending.adjust k start f table) := by
  refine ⟨Inherited.adjust hk h.keys, ?_⟩
  rw [classes_adjust, Ascending.keys_adjust]
  exact Ascending.strict_insert h.strict

theorem Tidy.sublist {s t : List (Expr × Literal)} (h : Tidy t) (hst : s.Sublist t) : Tidy s :=
  ⟨fun entry he => h.keys entry (hst.subset he), h.strict.sublist ((hst.map _).map _)⟩

/-- A key does not occur again further down. -/
theorem Tidy.get?_tail {k : Expr} {v : Literal} {table : List (Expr × Literal)}
    (h : Tidy ((k, v) :: table)) : Ascending.get? k.toClass (classes table) = none :=
  Ascending.get?_eq_none_iff.mpr (List.nodup_cons.mp h.strict.nodup).1

/-- The coefficients of the form stand in the table, and those that do not are zero. -/
theorem form_table_apply {table : List (Expr × Literal)} (h : Tidy table) (q : Class) :
    forms.table table q = ((Ascending.get? q (classes table)).map Literal.toInt).getD 0 := by
  induction table with
  | nil => rfl
  | cons entry table ih =>
      obtain ⟨k, v⟩ := entry
      have hrest := ih (h.sublist (List.sublist_cons_self _ _))
      rw [Reading.table_cons, Finsupp.add_apply, hrest]
      show (v.toInt • k.form) q + _ = _
      rw [(h.keys _ List.mem_cons_self).smul_form]
      by_cases heq : q = k.toClass
      · subst heq
        rw [h.get?_tail, classes_cons, Ascending.get?_cons_self]
        simp
      · rw [classes_cons, Ascending.get?_cons_of_ne heq, Finsupp.single_eq_of_ne heq, zero_add]

/-- Keys are no constants. -/
theorem form_table_one {table : List (Expr × Literal)} (h : Tidy table) :
    forms.table table (int 1).toClass = 0 := by
  have hnone : Ascending.get? (int 1).toClass (classes table) = none := by
    rw [Ascending.get?_eq_none_iff, mem_keys_classes]
    rintro ⟨entry, he, hclass⟩
    exact (h.keys entry he).toClass_ne hclass
  rw [form_table_apply h, hnone]
  rfl

/-- The coefficients are integers other than zero. -/
def Reduced (table : List (Expr × Literal)) : Prop :=
  ∀ entry ∈ table, entry.2.isInt = true ∧ entry.2.isZero = false

theorem get?_of_table_eq {s t : List (Expr × Literal)} (hs : Tidy s) (ht : Tidy t)
    (hsr : Reduced s) (htr : Reduced t) (h : forms.table s = forms.table t)
    {q : Class} {v : Literal} (hv : Ascending.get? q (classes s) = some v) :
    Ascending.get? q (classes t) = some v := by
  obtain ⟨entry, hmem, hentry⟩ := List.mem_map.mp (Ascending.mem_of_get?_eq_some hv)
  obtain ⟨-, rfl⟩ : entry.1.toClass = q ∧ entry.2 = v := Prod.mk.inj hentry
  obtain ⟨hint, hzero⟩ := hsr _ hmem
  have hcoefficient := form_table_apply hs q
  rw [hv, h, form_table_apply ht] at hcoefficient
  cases hw : Ascending.get? q (classes t) with
  | none =>
      rw [hw] at hcoefficient
      exact absurd hcoefficient.symm (Literal.toInt_ne_zero hint hzero)
  | some u =>
      rw [hw] at hcoefficient
      obtain ⟨entry', hmem', hentry'⟩ := List.mem_map.mp (Ascending.mem_of_get?_eq_some hw)
      obtain ⟨-, rfl⟩ : entry'.1.toClass = q ∧ entry'.2 = u := Prod.mk.inj hentry'
      exact congrArg some (Literal.eq_of_toInt_eq (htr _ hmem').1 hint hcoefficient)

theorem classes_eq_of_table_eq {s t : List (Expr × Literal)} (hs : Tidy s) (ht : Tidy t)
    (hsr : Reduced s) (htr : Reduced t) (h : forms.table s = forms.table t) :
    classes s = classes t := by
  refine Ascending.table_ext hs.strict ht.strict fun q => Option.ext fun v => ?_
  exact ⟨get?_of_table_eq hs ht hsr htr h, get?_of_table_eq ht hs htr hsr h.symm⟩

end Expr

/-! ### Complete sums -/

namespace Collected

open GridAccess.Expr (forms Tidy Reduced)

/-- What is left of the coefficients when those that are zero are dropped. -/
def remaining (c : Collected) : List (Expr × Literal) :=
  c.coefficients.filter fun entry => !entry.2.isZero

theorem toExpr_remaining (c : Collected) : (mk c.constant c.remaining).toExpr = c.toExpr := by
  have hterms : (mk c.constant c.remaining).terms = c.terms := by simp [terms, remaining]
  rw [toExpr, hterms, toExpr]

theorem reduced_remaining {c : Collected} (h : AllInt c.literals) : Reduced c.remaining := by
  intro entry hentry
  obtain ⟨hmem, hzero⟩ := List.mem_filter.mp hentry
  exact ⟨h _ (List.mem_cons_of_mem _ (List.mem_map_of_mem hmem)), by simpa using hzero⟩

theorem form_collected_one {c : Collected} (h : Tidy c.coefficients) :
    forms.collected c (Expr.int 1).toClass = c.constant.toInt := by
  have hone : forms.value (.int 1) = Finsupp.single (Expr.int 1).toClass 1 := Expr.form_one
  rw [Reading.collected, Finsupp.add_apply, Expr.form_table_one h, hone]
  simp

/-- Sums with the same form are equal as trees. -/
theorem same_toExpr {c e : Collected} (hc : Tidy c.coefficients) (he : Tidy e.coefficients)
    (hcint : AllInt c.literals) (heint : AllInt e.literals)
    (h : forms.collected c = forms.collected e) : c.toExpr.same e.toExpr = true := by
  have hcr : Tidy c.remaining := hc.sublist List.filter_sublist
  have her : Tidy e.remaining := he.sublist List.filter_sublist
  have hconstant : c.constant.toInt = e.constant.toInt := by
    rw [← form_collected_one hc, ← form_collected_one he, h]
  have htable : forms.table c.remaining = forms.table e.remaining := by
    rw [remaining, remaining, Reading.table_filter, Reading.table_filter]
    rw [Reading.collected, Reading.collected, hconstant] at h
    exact add_left_cancel h
  rw [← toExpr_remaining c, ← toExpr_remaining e]
  refine toExpr_congr ⟨?_, Expr.alikeTable_of_classes_eq ?_⟩
  · show c.constant.same e.constant = true
    rw [Literal.eq_of_toInt_eq (hcint _ List.mem_cons_self) (heint _ List.mem_cons_self) hconstant]
    exact Literal.same_refl _
  · exact Expr.classes_eq_of_table_eq hcr her (reduced_remaining hcint) (reduced_remaining heint)
      htable

end Collected

end GridAccess
