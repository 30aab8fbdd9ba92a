import GridAccess.Proofs.Ascending
import GridAccess.Proofs.Expr.Comparison
import GridAccess.Proofs.Expr.Congruence
import GridAccess.Proofs.Expr.Trace

/-!
Products as folding sees them: an integer coefficient and the factors that are no literals. A
canonical product of such factors is a key of the table that sums collect their terms in, unless it
is a single sum, which is taken apart instead.
-/

namespace GridAccess

namespace Expr

/-- What stays whole when products are taken apart. -/
def isFactor : Expr → Bool
  | .lit _ | .prod _ => false
  | .sym _ | .dim _ | .call _ _ | .access _ _ | .sum _ | .pow _ _ => true

/-- What stays whole when sums are taken apart as well. -/
def isAtom : Expr → Bool
  | .lit _ | .sum _ | .prod _ => false
  | .sym _ | .dim _ | .call _ _ | .access _ _ | .pow _ _ => true

theorem isFactor_of_isAtom {e : Expr} (h : e.isAtom = true) : e.isFactor = true := by
  cases e with
  | lit | prod => cases h
  | _ => rfl

/-- The product of the literals among the factors. -/
def coefficient (e : Expr) : Int := ((e.factors.filterMap literal?).map Literal.toInt).prod

/-- The factors that are no literals. -/
def cofactors (e : Expr) : List Expr := e.factors.filter fun f => !f.isLiteral

/-- The canonical product of factors that are no literals. -/
def powerProduct (as : List Expr) : Expr := (⟨.int 1, as⟩ : Monomial).toExpr

/-! ### Coefficients and cofactors -/

@[simp] theorem coefficient_lit (n : Literal) : (lit n).coefficient = n.toInt := by
  simp [coefficient, factors, literal?]

@[simp] theorem cofactors_lit (n : Literal) : (lit n).cofactors = [] := rfl

@[simp] theorem coefficient_prod (fs : List Expr) :
    (prod fs).coefficient = (fs.map coefficient).prod := by
  simp only [coefficient, factors, factorsList_eq]
  induction fs with
  | nil => rfl
  | cons f fs ih => simp [ih, coefficient]

@[simp] theorem cofactors_prod (fs : List Expr) : (prod fs).cofactors = fs.flatMap cofactors := by
  rw [cofactors, factors, factorsList_eq, List.filter_flatMap]
  rfl

theorem factors_of_isFactor {e : Expr} (h : e.isFactor = true) : e.factors = [e] := by
  cases e with
  | lit | prod => cases h
  | _ => rfl

theorem literal?_of_isFactor {e : Expr} (h : e.isFactor = true) : e.literal? = none := by
  cases e with
  | lit | prod => cases h
  | _ => rfl

theorem coefficient_of_isFactor {e : Expr} (h : e.isFactor = true) : e.coefficient = 1 := by
  simp [coefficient, factors_of_isFactor h, literal?_of_isFactor h]

theorem cofactors_of_isFactor {e : Expr} (h : e.isFactor = true) : e.cofactors = [e] := by
  simp [cofactors, factors_of_isFactor h, isLiteral, literal?_of_isFactor h]

/-- What stays whole in an expression is that expression, or stays whole in an operand of the
product that it is. -/
@[elab_as_elim]
theorem cofactorInduction {f : Expr} {motive : (e : Expr) → f ∈ e.cofactors → Prop}
    (self : ∀ hself, f.isFactor = true → motive f hself)
    (prod : ∀ {fs : List Expr} {e : Expr}, e ∈ fs → ∀ (hf : f ∈ e.cofactors) hprod,
      motive e hf → motive (.prod fs) hprod)
    {e : Expr} (h : f ∈ e.cofactors) : motive e h := by
  induction e with
  | lit => cases h
  | prod fs ih =>
      have hmem := h
      rw [cofactors_prod] at hmem
      obtain ⟨e, he, hf⟩ := List.mem_flatMap.mp hmem
      exact prod he hf h (ih e he hf)
  | _ =>
      have hmem := h
      rw [cofactors_of_isFactor rfl, List.mem_singleton] at hmem
      subst hmem
      exact self h rfl

theorem isFactor_of_mem_cofactors {e f : Expr} (h : f ∈ e.cofactors) : f.isFactor = true := by
  induction h using cofactorInduction with
  | self _ hfactor => exact hfactor
  | prod _ _ _ ih => exact ih

theorem sizeOf_le_of_mem_cofactors {e f : Expr} (h : f ∈ e.cofactors) : sizeOf f ≤ sizeOf e := by
  induction h using cofactorInduction with
  | self => exact le_rfl
  | prod he _ _ ih =>
      have hlt := List.sizeOf_lt_of_mem he
      rw [prod.sizeOf_spec]
      omega

theorem mem_nodes_of_mem_cofactors {e f : Expr} (h : f ∈ e.cofactors) : f ∈ e.nodes := by
  induction h using cofactorInduction with
  | self => exact self_mem_nodes _
  | prod he _ _ ih => exact mem_nodes_prod.mpr (.inr ⟨_, he, ih⟩)

theorem alike_cofactors {a b : Expr} (h : a.same b = true) : Alike a.cofactors b.cofactors := by
  apply List.rel_filter _ (alike_factors h)
  intro x y hxy
  rcases literal?_cases hxy with ⟨m, n, rfl, rfl, -⟩ | ⟨hx, hy⟩
  · rfl
  · simp [isLiteral, hx, hy]

theorem coefficient_congr {a b : Expr} (h : a.same b = true) : a.coefficient = b.coefficient := by
  have hfactors {as bs : List Expr} (hs : Alike as bs) :
      (as.filterMap literal?).map Literal.toInt = (bs.filterMap literal?).map Literal.toInt := by
    induction hs with
    | nil => rfl
    | cons hab _ ih =>
        rcases literal?_cases hab with ⟨m, n, rfl, rfl, hmn⟩ | ⟨ha, hb⟩
        · simp [literal?, ih, Literal.toInt_eq_of_same hmn]
        · simp [ha, hb, ih]
  rw [coefficient, coefficient, hfactors (alike_factors h)]

/-! ### Canonical products -/

theorem powerProduct_singleton (a : Expr) : powerProduct [a] = a := rfl

theorem powerProduct_cons_cons (a b : Expr) (as : List Expr) :
    powerProduct (a :: b :: as) = .prod (Ascending.sort (a :: b :: as)) := rfl

section

variable {as : List Expr} (has : ∀ a ∈ as, a.isFactor = true)
include has

theorem isFactor_of_mem_sort : ∀ a ∈ Ascending.sort as, a.isFactor = true :=
  fun a ha => has a ((Ascending.sort_perm as).mem_iff.mp ha)

theorem cofactors_prod_of_isFactor : (prod as).cofactors = as := by
  rw [cofactors_prod, List.flatMap_congr fun a ha => cofactors_of_isFactor (has a ha)]
  simp

theorem coefficient_prod_of_isFactor : (prod as).coefficient = 1 := by
  rw [coefficient_prod, List.map_congr_left fun a ha => coefficient_of_isFactor (has a ha)]
  simp

theorem cofactors_powerProduct : (powerProduct as).cofactors = Ascending.sort as := by
  match as with
  | [] => rfl
  | [a] => exact cofactors_of_isFactor (has a List.mem_cons_self)
  | a :: b :: as => exact cofactors_prod_of_isFactor (isFactor_of_mem_sort has)

theorem coefficient_powerProduct : (powerProduct as).coefficient = 1 := by
  match as with
  | [] => rfl
  | [a] => exact coefficient_of_isFactor (has a List.mem_cons_self)
  | a :: b :: as => exact coefficient_prod_of_isFactor (isFactor_of_mem_sort has)

end

/-- A product that is written as one has two factors or more. -/
theorem eq_sort_of_powerProduct_eq {as fs : List Expr} (has : ∀ a ∈ as, a.isFactor = true)
    (h : powerProduct as = .prod fs) : fs = Ascending.sort as ∧ 2 ≤ as.length := by
  match as with
  | [] => cases h
  | [a] =>
      rw [powerProduct_singleton] at h
      cases h ▸ has a List.mem_cons_self
  | a :: b :: as =>
      rw [powerProduct_cons_cons] at h
      exact ⟨(prod.inj h).symm, by simp⟩

/-! ### Products under construction -/

theorem factors_ofFactors (fs : List Expr) :
    (Monomial.ofFactors fs).factors = (prod fs).cofactors.reverse := by
  have htimes (m : Monomial) (es : List Expr) :
      (es.foldl Monomial.times m).factors = m.factors ++ es.filter fun f => !f.isLiteral := by
    induction es generalizing m with
    | nil => simp
    | cons e es ih =>
        rw [List.foldl_cons, ih]
        cases e with
        | lit n => rfl
        | _ => simp [Monomial.times, isLiteral, literal?]
  rw [Monomial.ofFactors, htimes, List.nil_append, List.filter_reverse]
  rfl

theorem ofFactors_eq_iff {fs terms : List Expr} :
    (Monomial.ofFactors fs).factors = [.sum terms] ↔ (prod fs).cofactors = [.sum terms] := by
  rw [factors_ofFactors, List.reverse_eq_iff]
  rfl

theorem isFactor_of_mem_ofFactors {fs : List Expr} :
    ∀ a ∈ (Monomial.ofFactors fs).factors, a.isFactor = true := by
  intro a ha
  rw [factors_ofFactors, List.mem_reverse] at ha
  exact isFactor_of_mem_cofactors ha

end Expr

namespace Monomial

theorem isInt_foldl_times {m : Monomial} {es : List Expr} (hm : m.coefficient.isInt = true)
    (h : AllInt (m.trace es)) : (es.foldl times m).coefficient.isInt = true := by
  induction es generalizing m with
  | nil => exact hm
  | cons e es ih =>
      obtain ⟨hhead, htail⟩ := List.forall_mem_cons.mp h
      exact ih hhead htail

theorem isInt_ofFactors {fs : List Expr} (h : AllInt (factorsTrace fs)) :
    (ofFactors fs).coefficient.isInt = true :=
  isInt_foldl_times rfl h

theorem toInt_foldl_times {m : Monomial} {es : List Expr} (h : AllInt (m.trace es)) :
    (es.foldl times m).coefficient.toInt =
      m.coefficient.toInt * ((es.filterMap Expr.literal?).map Literal.toInt).prod := by
  induction es generalizing m with
  | nil => simp
  | cons e es ih =>
      obtain ⟨hhead, htail⟩ := List.forall_mem_cons.mp h
      rw [List.foldl_cons, ih htail]
      cases he : e.literal? with
      | some n =>
          obtain rfl := Expr.eq_lit_of_literal? he
          obtain ⟨-, -, hexact⟩ := Literal.mul_exact hhead
          simp [times, hexact, Expr.literal?, mul_assoc]
      | none => simp [times_of_literal?_eq_none m he, he]

theorem toInt_ofFactors {fs : List Expr} (h : AllInt (factorsTrace fs)) :
    (ofFactors fs).coefficient.toInt = (Expr.prod fs).coefficient := by
  rw [ofFactors, toInt_foldl_times h, List.filterMap_reverse, List.map_reverse,
    List.prod_reverse]
  simp [Expr.coefficient, Expr.factors]

/-- The order of the factors does not matter, nor which one of several equal ones stands there. -/
theorem same_toExpr_of_perm (n : Literal) {as bs : List Expr}
    (h : (as.map Expr.toClass).Perm (bs.map Expr.toClass)) :
    (mk n as).toExpr.same (mk n bs).toExpr = true := by
  have hsorted : Expr.Alike (Ascending.sort as) (Ascending.sort bs) := by
    rw [Expr.alike_iff, Ascending.map_sort Expr.compare_toClass,
      Ascending.map_sort Expr.compare_toClass, Ascending.sort_eq_sort_of_perm h]
  have hlength : as.length = bs.length := by simpa using h.length_eq
  unfold toExpr
  split
  · exact Expr.same_refl _
  · split
    · match as, bs with
      | [], [] => exact Expr.same_refl _
      | [a], [b] =>
          obtain _ | ⟨hab, -⟩ := hsorted
          exact hab
      | a :: a' :: as, b :: b' :: bs => exact Expr.same_prod hsorted
    · match as, bs with
      | [], [] => exact Expr.same_refl _
      | a :: as, b :: bs => exact Expr.same_prod (.cons (Expr.same_refl _) hsorted)

theorem toExpr_cases (n : Literal) {as : List Expr} (h : as ≠ []) :
    n.isZero = true ∧ (mk n as).toExpr = .int 0 ∨
      n.isOne = true ∧ (mk n as).toExpr = Expr.powerProduct as ∨
      (mk n as).toExpr = .prod (.lit n :: Ascending.sort as) := by
  obtain ⟨a, as, rfl⟩ := List.exists_cons_of_ne_nil h
  unfold toExpr
  split
  · next hzero => exact .inl ⟨hzero, rfl⟩
  · split
    · next hone => cases as <;> exact .inr (.inl ⟨hone, rfl⟩)
    · exact .inr (.inr rfl)

/-- The coefficient 0 drops the sum that it stands in front of, and 1 leaves it as it is. -/
theorem toExpr_of_spread?_eq_none {m : Monomial} {terms : List Expr} (h : m.spread? = none)
    (hfactors : m.factors = [.sum terms]) : m.toExpr = .int 0 ∨ m.toExpr = .sum terms := by
  unfold toExpr
  split
  · exact .inl rfl
  · next hzero =>
      split
      · exact .inr (by rw [hfactors])
      · next hone =>
          have hspread := spread?_eq_some_iff.mpr ⟨by simp [hzero, hone], hfactors⟩
          rw [h] at hspread
          cases hspread

end Monomial

/-! ### Keys -/

namespace Expr

theorem same_powerProduct {as bs : List Expr} (h : (as.map toClass).Perm (bs.map toClass)) :
    (powerProduct as).same (powerProduct bs) = true :=
  Monomial.same_toExpr_of_perm _ h

/-- A canonical product of factors that are not just one sum. -/
def IsKey (k : Expr) : Prop :=
  ∃ as, as ≠ [] ∧ (∀ a ∈ as, a.isFactor = true) ∧ (∀ terms, as ≠ [.sum terms]) ∧
    k = powerProduct as

/-- What sums can collect: a literal, or a key with or without a coefficient. -/
def Flat (e : Expr) : Prop := e.literal? = none → e.splitCoefficient.2.IsKey

theorem flat_lit (n : Literal) : (lit n).Flat := fun h => by cases h

theorem cofactors_splitCoefficient (e : Expr) : e.splitCoefficient.2.cofactors = e.cofactors := by
  unfold splitCoefficient
  split <;> simp

theorem splitCoefficient_powerProduct {as : List Expr} (has : ∀ a ∈ as, a.isFactor = true) :
    (powerProduct as).splitCoefficient = (.int 1, powerProduct as) := by
  match as with
  | [] => rfl
  | [a] =>
      have ha := has a List.mem_cons_self
      cases a with
      | prod => cases ha
      | _ => rfl
  | a :: b :: as =>
      rw [powerProduct_cons_cons]
      cases hsort : Ascending.sort (a :: b :: as) with
      | nil => rfl
      | cons c cs =>
          have hc := isFactor_of_mem_sort has c (hsort ▸ List.mem_cons_self)
          rw [splitCoefficient_of_literal?_eq_none (literal?_of_isFactor hc)]

theorem splitCoefficient_lit_sort (n : Literal) {as : List Expr} (h : as ≠ []) :
    (prod (.lit n :: Ascending.sort as)).splitCoefficient = (n, powerProduct as) := by
  match as with
  | [a] => rfl
  | a :: b :: as =>
      have hlength := Ascending.length_sort (a :: b :: as)
      rw [powerProduct_cons_cons]
      match hsort : Ascending.sort (a :: b :: as) with
      | [] | [_] => simp [hsort] at hlength
      | c :: d :: cs => rfl

namespace IsKey

variable {k : Expr}

theorem cofactors_ne_sum (h : k.IsKey) (terms : List Expr) : k.cofactors ≠ [.sum terms] := by
  obtain ⟨as, -, has, hsum, rfl⟩ := h
  rw [cofactors_powerProduct has]
  intro heq
  have hperm := Ascending.sort_perm as
  rw [heq] at hperm
  exact hsum terms hperm.symm.eq_singleton

theorem cofactors_ne_nil (h : k.IsKey) : k.cofactors ≠ [] := by
  obtain ⟨as, hne, has, -, rfl⟩ := h
  rw [cofactors_powerProduct has]
  intro heq
  have hlength := Ascending.length_sort as
  rw [heq] at hlength
  exact hne (List.length_eq_zero_iff.mp hlength.symm)

theorem flat (h : k.IsKey) : k.Flat := by
  intro _
  obtain ⟨as, hne, has, hsum, rfl⟩ := h
  rw [splitCoefficient_powerProduct has]
  exact ⟨as, hne, has, hsum, rfl⟩

end IsKey

theorem flat_of_isFactor {a : Expr} (h : a.isFactor = true) (hsum : ∀ terms, a ≠ .sum terms) :
    a.Flat :=
  IsKey.flat ⟨[a], by simp, by simpa using h, by simpa using hsum, rfl⟩

theorem Flat.cofactors_ne_sum {e : Expr} (h : e.Flat) (terms : List Expr) :
    e.cofactors ≠ [.sum terms] := by
  cases hliteral : e.literal? with
  | some n =>
      obtain rfl := eq_lit_of_literal? hliteral
      simp
  | none =>
      rw [← cofactors_splitCoefficient]
      exact (h hliteral).cofactors_ne_sum terms

/-- The products that folding builds can be collected, unless they are just a sum. -/
theorem flat_toExpr {m : Monomial} (h : ∀ a ∈ m.factors, a.isFactor = true)
    (hsum : ∀ terms, m.factors ≠ [.sum terms]) : m.toExpr.Flat := by
  obtain ⟨n, as⟩ := m
  by_cases hne : as = []
  · subst hne
    unfold Monomial.toExpr
    split
    · exact flat_lit _
    · split <;> exact flat_lit _
  · have hkey : (powerProduct as).IsKey := ⟨as, hne, h, hsum, rfl⟩
    rcases Monomial.toExpr_cases n hne with ⟨-, heq⟩ | ⟨-, heq⟩ | heq
    · exact heq ▸ flat_lit _
    · exact heq ▸ hkey.flat
    · rw [heq]
      intro _
      rwa [splitCoefficient_lit_sort n hne]

theorem flat_ofFactors {fs : List Expr} (h : ∀ terms, (prod fs).cofactors ≠ [.sum terms]) :
    (Monomial.ofFactors fs).toExpr.Flat :=
  flat_toExpr isFactor_of_mem_ofFactors fun terms heq => h terms (ofFactors_eq_iff.mp heq)

end Expr

end GridAccess
