import GridAccess.Proofs.Alignment.Trace
import GridAccess.Proofs.Expr.CanonicalNodes

/-!
Moving an index to the start of the storage. The only operation on integers that can overflow is
the one on the constant of the index, and the linear form is moved by the offset.
-/

namespace GridAccess

open GridAccess.Expr (forms)

namespace Expr

/-- The integers among the terms, added up. -/
def constantTerm (e : Expr) : Int := ((e.summands.filterMap literal?).map Literal.toInt).sum

/-- A sum of terms that are not alike has one integer at most. -/
theorem Regular.constantTerm_eq {e : Expr} (h : Regular e.summands) {k : Int64}
    (hk : .int k ∈ e.summands) : e.constantTerm = k.toInt := by
  have hmem : Literal.int k ∈ e.summands.filterMap literal? := List.mem_filterMap.mpr ⟨_, hk, rfl⟩
  have hlength := h.literals
  rw [← List.countP_eq_length_filter] at hlength
  have hcount : (e.summands.filterMap literal?).length = e.summands.countP isLiteral :=
    List.length_filterMap_eq_countP
  rw [constantTerm]
  match hliterals : e.summands.filterMap literal? with
  | [] => simp [hliterals] at hmem
  | [n] =>
      obtain rfl : Literal.int k = n := by simpa [hliterals] using hmem
      simp
  | _ :: _ :: _ =>
      rw [hliterals] at hcount
      simp only [List.length_cons] at hcount
      omega

/-- The constants of the indices of an access stay integers in its stored form. -/
def indicesFit : Expr → Bool
  | .access f indices => indices.zipIdx.all fun (index, axis) =>
    (Literal.wordOf? (index.constantTerm + f.offset axis)).isSome
  | _ => true

def ShiftsFit (e : Expr) : Prop := AllNodes (fun n => n.indicesFit = true) e

instance (e : Expr) : Decidable e.ShiftsFit :=
  inferInstanceAs (Decidable (AllNodes (fun n => n.indicesFit = true) e))

theorem ShiftsFit.isSome_wordOf? {f : Field} {indices : List Expr}
    (h : (access f indices).ShiftsFit) {axis : Nat} (haxis : axis < indices.length) :
    (Literal.wordOf? (indices[axis].constantTerm + f.offset axis)).isSome = true := by
  have hall : ∀ p ∈ indices.zipIdx,
      (Literal.wordOf? (p.1.constantTerm + f.offset p.2)).isSome = true :=
    List.all_eq_true.mp h.self
  refine hall (indices[axis], axis) ?_
  simp [List.mem_zipIdx_iff_getElem?]

end Expr

namespace Alignment

section

variable {f : Field} {axis : Nat} {index : Expr} (h : Expr.Regular index.summands)
  (hfits : (Literal.wordOf? (index.constantTerm + f.offset axis)).isSome = true)
include h hfits

/-- Nothing overflows if the constant does not. -/
theorem allInt_shiftTrace : AllInt (shiftTrace f axis index) := by
  refine h.allInt_sumOfTrace_pair fun k hk => ?_
  rw [h.constantTerm_eq hk, add_comm, ← toInt_offset] at hfits
  obtain ⟨n, hn⟩ := Option.isSome_iff_exists.mp hfits
  simp only [Literal.add, Literal.combine, hn, Literal.isInt_int]

theorem form_shift :
    (shift f axis index).form =
      index.form + (Expr.int (Int64.ofNat (f.offset axis))).form := by
  refine (forms.value_sumOf (allInt_shiftTrace h hfits)).trans ?_
  simp [forms]

end

end Alignment

end GridAccess
