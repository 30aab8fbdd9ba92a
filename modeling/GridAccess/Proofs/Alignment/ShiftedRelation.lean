import GridAccess.Proofs.Alignment.Shift
import GridAccess.Proofs.Expr.CanonicalRelation

/-!
What an index implies for the order of iteration when it is moved to the start of the storage.
Moving it changes the constant of a collected sum and nothing else, and the constant has no part in
which dimension an index is affine in, nor in which ones occur.
-/

namespace GridAccess

namespace Alignment

open GridAccess.Expr (forms)

variable {f : Field} {axis : Nat} {index : Expr} (hcanonical : index.Canonical)
  (hfloat : index.FloatFree)
  (hfits : (Literal.wordOf? (index.constantTerm + f.offset axis)).isSome = true)
include hcanonical hfloat hfits

/-- Only the constant is changed. -/
theorem exists_collected_shift :
    ∃ (c : Collected) (n : Literal), c.IsFormOf index ∧
      (shift f axis index).same (Collected.mk n c.coefficients).toExpr = true := by
  obtain ⟨c, hc⟩ := Expr.exists_isFormOf hcanonical hfloat
  obtain ⟨c', hshift, htidy, hint, hform⟩ :=
    Expr.exists_collected (allInt_shiftTrace (Expr.regular_summands hcanonical hfloat) hfits)
  have hshift : shift f axis index = c'.toExpr := hshift
  let offset : Int64 := .ofNat (f.offset axis)
  have hoffset : (Expr.int offset).form = offset.toInt • (Expr.int 1).form :=
    forms.value_lit (.int offset)
  have hform : forms.collected c' = forms.collected c + offset.toInt • (Expr.int 1).form := by
    rw [hform, hc.form, ← hoffset]
    simp [offset]
  have hconstant : c'.constant.toInt = c.constant.toInt + offset.toInt := by
    rw [← Collected.form_collected_one htidy, hform, Finsupp.add_apply,
      Collected.form_collected_one hc.tidy, Expr.form_one]
    simp
  refine ⟨c, c'.constant, hc, hshift ▸ Collected.same_toExpr htidy hc.tidy hint ?_ ?_⟩
  · exact List.forall_mem_cons.mpr ⟨(List.forall_mem_cons.mp hint).1,
      (List.forall_mem_cons.mp hc.allInt).2⟩
  · rw [hform, Reading.collected, Reading.collected, hconstant, add_smul]
    exact add_right_comm _ _ _

theorem affineDim?_shift : (shift f axis index).affineDim? = index.affineDim? := by
  obtain ⟨c, n, hc, hshift⟩ := exists_collected_shift hcanonical hfloat hfits
  have hproper := hc.nonconstant hcanonical hfloat
  rw [Expr.affineDim?_congr hshift, ← Expr.affineDim?_congr hc.same,
    Collected.affineDim?_toExpr hproper]
  exact Collected.affineDim?_toExpr (c := ⟨n, c.coefficients⟩) hproper

theorem dimensions_shift : (shift f axis index).dimensions = index.dimensions := by
  obtain ⟨c, n, hc, hshift⟩ := exists_collected_shift hcanonical hfloat hfits
  rw [Expr.dimensions_congr hshift, ← Expr.dimensions_congr hc.same]
  refine (Ascending.strict_ofList _).ext (Ascending.strict_ofList _) fun d => ?_
  show d ∈ Expr.dimensions _ ↔ d ∈ Expr.dimensions _
  have hterms (c : Collected) :
      .dim d ∈ c.toExpr.nodes ↔ ∃ t ∈ c.nonconstant, .dim d ∈ t.nodes :=
    Collected.mem_nodes_toExpr rfl
  rw [Expr.mem_dimensions, Expr.mem_dimensions, hterms, hterms]
  rfl

/-- A moved index stands for the same dimensions. -/
theorem indexRelation_shift :
    Expr.indexRelation (shift f axis index) [] = Expr.indexRelation index [] := by
  rw [Expr.indexRelation_eq, Expr.indexRelation_eq, affineDim?_shift hcanonical hfloat hfits,
    dimensions_shift hcanonical hfloat hfits]

end Alignment

end GridAccess
