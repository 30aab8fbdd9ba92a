import GridAccess.Proofs.Expr.Equality

/-!
The order of expressions is total and transitive. It compares shapes first and then operands from
left to right, so both laws come down to the operands, position by position.
-/

namespace GridAccess

open Std

/-- The results of comparing `a` with `b`, `b` with `c` and `a` with `c` fit together. -/
def Chained (ab bc ac : Ordering) : Prop :=
  ab.isLE = true → bc.isLE = true → ac.isLE = true ∧ (ab = .lt ∨ bc = .lt → ac = .lt)

theorem chained_compare {α : Type} [Ord α] [TransOrd α] (a b c : α) :
    Chained (compare a b) (compare b c) (compare a c) := by
  intro hab hbc
  refine ⟨TransCmp.isLE_trans hab hbc, ?_⟩
  rintro (h | h)
  · exact TransCmp.lt_of_lt_of_isLE h hbc
  · exact TransCmp.lt_of_isLE_of_lt hab h

theorem Chained.then {ab bc ac ab' bc' ac' : Ordering} (h : Chained ab bc ac)
    (h' : Chained ab' bc' ac') : Chained (ab.then ab') (bc.then bc') (ac.then ac') := by
  revert h h'
  cases ab <;> cases bc <;> cases ac <;> simp [Chained]

/-! ### Literals -/

namespace Literal

/-- Integers by value, floats behind them by rank. -/
def key : Literal → List Int
  | .int n => [0, n.toInt]
  | .float x => [1, x.rank]

theorem cmp_eq_key (m n : Literal) : m.cmp n = compare m.key n.key := by
  have hpair (i j x y : Int) : compare [i, x] [j, y] = (compare i j).then (compare x y) := by simp
  cases m <;> cases n <;> rw [key, key, hpair] <;> rfl

instance : TransOrd Literal := transCmp_of_image key cmp_eq_key

end Literal

/-! ### Expressions -/

namespace Expr

theorem cmp_swap (a b : Expr) : a.cmp b = (b.cmp a).swap := by
  have hlist {as bs : List Expr} (ih : ∀ a ∈ as, ∀ b : Expr, a.cmp b = (b.cmp a).swap) :
      cmpList as bs = (cmpList bs as).swap := by
    induction as generalizing bs with
    | nil => cases bs <;> rfl
    | cons a as ih' =>
        cases bs with
        | nil => rfl
        | cons b bs =>
            simp only [cmpList]
            rw [ih a List.mem_cons_self b, ih' fun a ha => ih a (List.mem_cons_of_mem _ ha),
              Ordering.swap_then]
  -- Of different shapes only these are compared.
  have hdiffer {a b : Expr} (h : a.shape ≠ b.shape) : a.cmp b = (b.cmp a).swap := by
    rw [cmp_of_shape_ne h, cmp_of_shape_ne h.symm]
    exact OrientedOrd.eq_swap
  induction a generalizing b with
  | lit m =>
      cases b with
      | lit n => exact OrientedOrd.eq_swap
      | _ => exact hdiffer (by simp [shape])
  | sym s =>
      cases b with
      | sym t => exact OrientedOrd.eq_swap
      | _ => exact hdiffer (by simp [shape])
  | dim c =>
      cases b with
      | dim d => exact OrientedOrd.eq_swap
      | _ => exact hdiffer (by simp [shape])
  | call f as ih =>
      cases b with
      | call g bs =>
          rw [cmp, cmp, Ordering.swap_then, ← hlist ih, ← OrientedOrd.eq_swap (a := f)]
      | _ => exact hdiffer (by simp [shape])
  | access f as ih =>
      cases b with
      | access g bs =>
          rw [cmp, cmp, Ordering.swap_then, ← hlist ih, ← OrientedOrd.eq_swap (a := f)]
      | _ => exact hdiffer (by simp [shape])
  | sum as ih =>
      cases b with
      | sum bs => exact hlist ih
      | _ => exact hdiffer (by simp [shape])
  | prod as ih =>
      cases b with
      | prod bs => exact hlist ih
      | _ => exact hdiffer (by simp [shape])
  | pow base exponent ihb ihe =>
      cases b with
      | pow base' exponent' => simp only [cmp, Ordering.swap_then, ← ihb, ← ihe]
      | _ => exact hdiffer (by simp [shape])

theorem shape_le_of_isLE {a b : Expr} (h : (a.cmp b).isLE = true) : a.shape ≤ b.shape := by
  by_cases hshape : a.shape = b.shape
  · exact Nat.le_of_eq hshape
  · rw [cmp_of_shape_ne hshape] at h
    exact Nat.isLE_compare.mp h

theorem chained_cmp (a b c : Expr) : Chained (a.cmp b) (b.cmp c) (a.cmp c) := by
  have hlist {as bs cs : List Expr}
      (ih : ∀ a ∈ as, ∀ b c : Expr, Chained (a.cmp b) (b.cmp c) (a.cmp c)) :
      Chained (cmpList as bs) (cmpList bs cs) (cmpList as cs) := by
    induction as generalizing bs cs with
    | nil => cases bs <;> cases cs <;> simp [cmpList, Chained]
    | cons a as ih' =>
        cases bs with
        | nil => simp [cmpList, Chained]
        | cons b bs =>
            cases cs with
            | nil => simp [cmpList, Chained]
            | cons c cs =>
                exact (ih a List.mem_cons_self b c).then
                  (ih' fun a ha => ih a (List.mem_cons_of_mem _ ha))
  -- If the shapes are not all the same, the first one comes before the last one.
  have hstep {a b c : Expr} (h : a.shape = b.shape → b.shape = c.shape →
      Chained (a.cmp b) (b.cmp c) (a.cmp c)) : Chained (a.cmp b) (b.cmp c) (a.cmp c) := by
    by_cases hshape : a.shape = b.shape ∧ b.shape = c.shape
    · exact h hshape.1 hshape.2
    · intro hab hbc
      have hab := shape_le_of_isLE hab
      have hbc := shape_le_of_isLE hbc
      have hlt : a.cmp c = .lt := by
        rw [cmp_of_shape_ne (by omega), Nat.compare_eq_lt]
        omega
      simp [hlt]
  induction a generalizing b c with
  | lit | sym | dim =>
      refine hstep fun hab hbc => ?_
      cases b <;> cases hab
      cases c <;> cases hbc
      exact chained_compare _ _ _
  | call f as ih | access f as ih =>
      refine hstep fun hab hbc => ?_
      cases b <;> cases hab
      cases c <;> cases hbc
      exact (chained_compare _ _ _).then (hlist ih)
  | sum as ih | prod as ih =>
      refine hstep fun hab hbc => ?_
      cases b <;> cases hab
      cases c <;> cases hbc
      exact hlist ih
  | pow base exponent ihb ihe =>
      refine hstep fun hab hbc => ?_
      cases b <;> cases hab
      cases c <;> cases hbc
      exact (ihb _ _).then (ihe _ _)

instance : TransOrd Expr where
  eq_swap {a b} := cmp_swap a b
  isLE_trans {a b c} hab hbc := (chained_cmp a b c hab hbc).1

/-! ### Expressions up to equality -/

instance sameSetoid : Setoid Expr where
  r a b := a.same b = true
  iseqv := ⟨same_refl, same_symm, same_trans⟩

/-- An expression, where those that are equal are not told apart. -/
def Class : Type := Quotient sameSetoid

def toClass (e : Expr) : Class := Quotient.mk sameSetoid e

theorem toClass_eq_iff {a b : Expr} : a.toClass = b.toClass ↔ a.same b = true :=
  ⟨Quotient.exact, fun h => Quotient.sound h⟩

theorem alike_iff {as bs : List Expr} : Alike as bs ↔ as.map toClass = bs.map toClass := by
  rw [map_eq_map_iff_forall₂]
  simp only [toClass_eq_iff]

instance : Ord Class :=
  ⟨Quotient.lift₂ cmp fun _ _ _ _ ha hb => cmp_congr ha hb⟩

@[simp] theorem compare_toClass (a b : Expr) : compare a.toClass b.toClass = compare a b := rfl

instance : TransOrd Class where
  eq_swap {p q} := by
    induction p using Quotient.ind
    induction q using Quotient.ind
    exact cmp_swap _ _
  isLE_trans {p q r} := by
    induction p using Quotient.ind
    induction q using Quotient.ind
    induction r using Quotient.ind
    exact fun hab hbc => (chained_cmp _ _ _ hab hbc).1

instance : LawfulEqOrd Class where
  eq_of_compare {p q} h := by
    induction p using Quotient.ind
    induction q using Quotient.ind
    exact toClass_eq_iff.mpr (same_of_compare_eq h)

end Expr

end GridAccess
