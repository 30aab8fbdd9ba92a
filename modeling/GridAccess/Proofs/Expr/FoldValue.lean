import GridAccess.Proofs.Expr.Reading
import GridAccess.Proofs.Expr.Value

/-!
Folding preserves values as long as it computes integers only.
-/

namespace GridAccess

variable {ι : Interpretation}

def Interpretation.reading (ι : Interpretation) : Reading Int :=
  .ofRing (Expr.value ι) (fun _ => Int.cast_id.symm) Expr.value_sum Expr.value_prod
    Expr.value_eq_of_same

namespace Expr

theorem value_sumOf {terms : List Expr} (h : AllInt (sumOfTrace terms)) :
    (sumOf terms).value ι = (terms.map (value ι)).sum :=
  ι.reading.value_sumOf h

theorem value_productOf {factors : List Expr} (h : AllInt (productOfTrace factors)) :
    (productOf factors).value ι = (factors.map (value ι)).prod :=
  (ι.reading.value_productOf h).trans (value_prod factors)

theorem value_power {base : Expr} {n : Int64} (h : AllInt (powerTrace base (.int n))) :
    (power base (.int n)).value ι = base.value ι ^ n.toInt.toNat := by
  unfold powerTrace at h
  unfold power
  cases hfolded : base.literal?.bind fun b => (int n).literal?.bind fun e => b.pow? e with
  | some r =>
      rw [hfolded] at h
      obtain ⟨b, hb, hr⟩ := Option.bind_eq_some_iff.mp hfolded
      obtain rfl := eq_lit_of_literal? hb
      obtain ⟨-, hexact⟩ := Literal.pow?_exact (n := .int n) hr (h r (by simp))
      exact hexact
  | none =>
      show (if (Literal.int n).isOne then base
        else if (Literal.int n).isZero then int 1 else .pow base (int n)).value ι = _
      split
      · next hone =>
          have htoInt : n.toInt = 1 := Literal.toInt_of_isOne rfl hone
          simp [htoInt]
      · split
        · next hzero =>
            have htoInt : n.toInt = 0 := Literal.toInt_of_isZero hzero
            simp [htoInt]
        · simp

/-- Canonical sums, products and powers have the values of the nodes that they stand for, whatever
the operands look like, as long as no operation on literals goes over to floating point. -/
theorem constructors_preserve_value (ι : Interpretation) :
    (∀ terms, AllInt (sumOfTrace terms) →
      (sumOf terms).value ι = (terms.map (value ι)).sum) ∧
    (∀ factors, AllInt (productOfTrace factors) →
      (productOf factors).value ι = (factors.map (value ι)).prod) ∧
    ∀ (base : Expr) (n : Int64) (k : Nat), n.toInt = k → AllInt (powerTrace base (.int n)) →
      (power base (.int n)).value ι = base.value ι ^ k := by
  refine ⟨fun _ h => value_sumOf h, fun _ h => value_productOf h, ?_⟩
  intro base n k hn h
  rw [value_power h, hn, Int.toNat_natCast]

/-- The product `2*(x + 3)` as it is written. -/
def unspread : Expr := .prod [.int 2, .sum [.dim (.root "x" .space), .int 3]]

/-- The terms of `2*(x + 3) + (-2*x + ()) + h_x*(4*h_x) + 1` as they are written. -/
def nestedTerms : List Expr :=
  [unspread, .sum [.prod [.int (-2), .dim (.root "x" .space)], .sum []],
    .prod [.sym ⟨"h_x"⟩, .prod [.int 4, .sym ⟨"h_x"⟩]], .int 1]

/-- Every dimension is 5 and every symbol is 3. -/
def fivesAndThrees : Interpretation where
  symbol _ := 3
  dimension _ := 5
  call _ _ := 0
  access _ _ := 0

theorem constructors_preserve_value_nestedTerms :
    (sumOf nestedTerms).value fivesAndThrees = 43 ∧
      (productOf [.int (-1), unspread]).value fivesAndThrees = -16 ∧
      (power (.int 0) (.int 0)).value fivesAndThrees = 1 := by
  obtain ⟨hsum, hproduct, hpower⟩ := constructors_preserve_value fivesAndThrees
  have hterms := hsum nestedTerms
    (show ∀ n ∈ sumOfTrace nestedTerms, n.isInt = true by decide)
  have hfactors := hproduct [.int (-1), unspread]
    (show ∀ n ∈ productOfTrace [.int (-1), unspread], n.isInt = true by decide)
  have hzero := hpower (.int 0) 0 0 rfl
    (show ∀ n ∈ powerTrace (.int 0) (.int 0), n.isInt = true by decide)
  exact ⟨hterms.trans (by decide), hfactors.trans (by decide), hzero.trans (by decide)⟩

end Expr

end GridAccess
