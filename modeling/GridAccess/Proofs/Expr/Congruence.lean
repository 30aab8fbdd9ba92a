import GridAccess.Proofs.Expr.Replacement
import GridAccess.Proofs.Literal.Congruence

/-!
Equal operands make equal canonical sums, products and powers, and replacement turns equal
expressions into equal ones. Folding takes the operands apart, orders them and adds up literals;
each of these steps respects equality, and so does every layer of `Folding` by induction.
-/

namespace GridAccess

theorem rel_cases {α β : Type} {R : α → β → Prop} {x : Option α} {y : Option β}
    (h : Option.Rel R x y) :
    (x = none ∧ y = none) ∨ ∃ a b, x = some a ∧ y = some b ∧ R a b := by
  cases h with
  | none => exact .inl ⟨rfl, rfl⟩
  | some h => exact .inr ⟨_, _, rfl, rfl, h⟩

theorem rel_bind {α β : Type} {R : α → α → Prop} {S : β → β → Prop} {x y : Option α}
    {f g : α → Option β} (h : Option.Rel R x y)
    (hfg : ∀ a b, R a b → Option.Rel S (f a) (g b)) : Option.Rel S (x.bind f) (y.bind g) := by
  cases h with
  | none => exact .none
  | some hab => exact hfg _ _ hab

namespace Expr

theorem alike_symm {as bs : List Expr} (h : Alike as bs) : Alike bs as :=
  List.Forall₂.flip (h.imp fun _ _ => same_symm)

theorem literal?_cases {a b : Expr} (h : a.same b = true) :
    (∃ m n, a = .lit m ∧ b = .lit n ∧ m.same n = true) ∨
      (a.literal? = none ∧ b.literal? = none) := by
  apply sameInduction (motive := fun a b => (∃ m n, a = .lit m ∧ b = .lit n ∧ m.same n = true) ∨
    (a.literal? = none ∧ b.literal? = none)) (h := h)
  case lit => exact fun hmn => .inl ⟨_, _, rfl, rfl, hmn⟩
  all_goals intros; exact .inr ⟨rfl, rfl⟩

theorem sumDepthList_congr {as bs : List Expr}
    (h : List.Forall₂ (fun a b : Expr => a.sumDepth = b.sumDepth) as bs) :
    sumDepthList as = sumDepthList bs := by
  induction h with
  | nil => rfl
  | cons hab _ ih => rw [sumDepthList_cons, sumDepthList_cons, hab, ih]

theorem sumDepth_congr {a b : Expr} (h : a.same b = true) : a.sumDepth = b.sumDepth := by
  apply sameInduction (motive := fun a b => a.sumDepth = b.sumDepth) (h := h)
  case sum =>
    intro as bs _ ih
    exact congrArg (· + 1) (sumDepthList_congr ih)
  case prod =>
    intro as bs _ ih
    exact sumDepthList_congr ih
  all_goals intros; rfl

theorem alike_factors {a b : Expr} (h : a.same b = true) : Alike a.factors b.factors := by
  refine sameInduction (motive := fun a b => a.same b = true → Alike a.factors b.factors)
    ?lit ?sym ?dim ?call ?access ?sum ?prod ?pow h h
  case prod =>
    intro as bs hs ih h
    show Alike (factorsList as) (factorsList bs)
    clear h
    induction hs with
    | nil => exact .nil
    | cons hab _ ih' =>
        cases ih with
        | cons hhead htail => exact List.rel_append (hhead hab) (ih' htail)
  -- Other expressions are their own only factor.
  all_goals
    intros
    exact .cons (by assumption) .nil

theorem alike_factorsList {as bs : List Expr} (h : Alike as bs) :
    Alike (factorsList as) (factorsList bs) := by
  rw [factorsList_eq, factorsList_eq]
  exact List.rel_flatMap h fun _ _ => alike_factors

theorem alike_place {a b : Expr} {as bs : List Expr} (hab : a.same b = true) (h : Alike as bs) :
    Alike (Ascending.place a as) (Ascending.place b bs) := by
  induction h with
  | nil => exact .cons hab .nil
  | cons hhead htail ih =>
      rw [Ascending.place, Ascending.place, compare_congr hab hhead]
      split
      · exact .cons hhead ih
      · exact .cons hab (.cons hhead htail)

theorem alike_sort {as bs : List Expr} (h : Alike as bs) :
    Alike (Ascending.sort as) (Ascending.sort bs) :=
  List.rel_foldr (R := fun a b : Expr => a.same b = true)
    (fun _ _ hab _ _ hs => alike_place hab hs) .nil h

end Expr

open GridAccess.Expr (Alike)

/-! ### Products -/

namespace Monomial

structure Congruent (m n : Monomial) : Prop where
  coefficient : m.coefficient.same n.coefficient = true
  factors : Alike m.factors n.factors

theorem Congruent.symm {m n : Monomial} (h : m.Congruent n) : n.Congruent m :=
  ⟨Literal.same_symm h.coefficient, Expr.alike_symm h.factors⟩

theorem times_congr {m n : Monomial} {a b : Expr} (hmn : m.Congruent n) (hab : a.same b = true) :
    (m.times a).Congruent (n.times b) := by
  rcases Expr.literal?_cases hab with ⟨p, q, rfl, rfl, hpq⟩ | ⟨ha, hb⟩
  · exact ⟨Literal.mul_congr hmn.coefficient hpq, hmn.factors⟩
  · rw [times_of_literal?_eq_none m ha, times_of_literal?_eq_none n hb]
    exact ⟨hmn.coefficient, List.rel_append hmn.factors (.cons hab .nil)⟩

theorem ofFactors_congr {as bs : List Expr} (h : Alike as bs) :
    (ofFactors as).Congruent (ofFactors bs) :=
  List.rel_foldl (R := fun a b : Expr => a.same b = true)
    (fun _ _ hmn _ _ hab => times_congr hmn hab) ⟨Literal.same_refl _, .nil⟩
    (List.rel_reverse (Expr.alike_factorsList h))

theorem toExpr_congr {m n : Monomial} (h : m.Congruent n) : m.toExpr.same n.toExpr = true := by
  obtain ⟨c, as⟩ := m
  obtain ⟨d, bs⟩ := n
  obtain ⟨hcd, hs⟩ := h
  have hlit : (Expr.lit c).same (.lit d) = true := Expr.same_lit hcd
  have hsorted := Expr.alike_sort hs
  rw [toExpr, toExpr, Literal.isZero_congr hcd, Literal.isOne_congr hcd]
  split
  · exact Expr.same_refl _
  · split
    · -- without a coefficient the number of factors decides about the shape
      cases hs with
      | nil => exact hlit
      | cons hab htail =>
          cases htail with
          | nil => exact hab
          | cons => exact Expr.same_prod hsorted
    · cases hs with
      | nil => exact hlit
      | cons => exact Expr.same_prod (.cons hlit hsorted)

theorem exists_spread?_of_congruent {m n : Monomial} {terms : List Expr} (h : m.Congruent n)
    (hm : m.spread? = some terms) : ∃ terms', n.spread? = some terms' ∧ Alike terms terms' := by
  obtain ⟨hcoefficient, hfactors⟩ := spread?_eq_some_iff.mp hm
  rw [Literal.isZero_congr h.coefficient, Literal.isOne_congr h.coefficient] at hcoefficient
  have halike := h.factors
  rw [hfactors] at halike
  obtain ⟨e, es, he, hes, hn⟩ := List.forall₂_cons_left_iff.mp halike
  obtain ⟨terms', rfl, hterms⟩ := Expr.same_sum_iff.mp he
  cases hes
  exact ⟨terms', spread?_eq_some_iff.mpr ⟨hcoefficient, hn⟩, hterms⟩

end Monomial

/-! ### Sums -/

namespace Expr

theorem splitCoefficient_of_shape_ne {e : Expr} (h : e.shape ≠ 6) :
    e.splitCoefficient = (.int 1, e) := by
  cases e with
  | prod => exact absurd rfl h
  | _ => rfl

theorem splitCoefficient_of_literal?_eq_none {e : Expr} {es : List Expr}
    (h : e.literal? = none) : (prod (e :: es)).splitCoefficient = (.int 1, .prod (e :: es)) := by
  cases e with
  | lit => cases h
  | _ => rfl

theorem splitCoefficient_congr {a b : Expr} (h : a.same b = true) :
    a.splitCoefficient.1.same b.splitCoefficient.1 = true ∧
      a.splitCoefficient.2.same b.splitCoefficient.2 = true := by
  by_cases hshape : a.shape = 6
  · cases a with
    | prod as =>
        obtain ⟨bs, rfl, hs⟩ := same_prod_iff.mp h
        cases hs with
        | nil => exact ⟨Literal.same_refl _, same_refl _⟩
        | cons hhead htail =>
            rcases literal?_cases hhead with ⟨m, n, rfl, rfl, hmn⟩ | ⟨ha, hb⟩
            · -- What is left beside the coefficient depends on how many factors follow it.
              refine ⟨?_, ?_⟩
              · cases htail with
                | nil => exact hmn
                | cons _ htail => cases htail <;> exact hmn
              · cases htail with
                | nil => exact same_prod .nil
                | cons hnext htail =>
                    cases htail with
                    | nil => exact hnext
                    | cons hthird htail => exact same_prod (.cons hnext (.cons hthird htail))
            · rw [splitCoefficient_of_literal?_eq_none ha,
                splitCoefficient_of_literal?_eq_none hb]
              exact ⟨Literal.same_refl _, h⟩
    | _ => cases hshape
  · rw [splitCoefficient_of_shape_ne hshape,
      splitCoefficient_of_shape_ne (shape_eq_of_same h ▸ hshape)]
    exact ⟨Literal.same_refl _, h⟩

/-- Equal expressions with equal literals at the same places of two tables. -/
abbrev AlikeTable (xs ys : List (Expr × Literal)) : Prop :=
  List.Forall₂ (fun x y => x.1.same y.1 = true ∧ x.2.same y.2 = true) xs ys

theorem alike_filter_nonzero {xs ys : List (Expr × Literal)} (h : AlikeTable xs ys) :
    AlikeTable (xs.filter fun entry => !entry.2.isZero)
      (ys.filter fun entry => !entry.2.isZero) := by
  apply List.rel_filter _ h
  intro x y hxy
  show (!x.2.isZero) = true ↔ (!y.2.isZero) = true
  rw [Literal.isZero_congr hxy.2]

theorem alike_adjust {a b : Expr} {start : Literal} {f g : Literal → Literal}
    {xs ys : List (Expr × Literal)} (hab : a.same b = true)
    (hfg : ∀ {m n : Literal}, m.same n = true → (f m).same (g n) = true)
    (h : AlikeTable xs ys) :
    AlikeTable (Ascending.adjust a start f xs) (Ascending.adjust b start g ys) := by
  have hnew : (f start).same (g start) = true := hfg start.same_refl
  induction h with
  | nil => exact .cons ⟨hab, hnew⟩ .nil
  | cons hhead htail ih =>
      rw [Ascending.adjust, Ascending.adjust, compare_congr hab hhead.1]
      split
      · exact .cons ⟨hab, hnew⟩ (.cons hhead htail)
      · exact .cons ⟨hhead.1, hfg hhead.2⟩ htail
      · exact .cons hhead ih

end Expr

open GridAccess.Expr (AlikeTable)

namespace Collected

structure Congruent (c d : Collected) : Prop where
  constant : c.constant.same d.constant = true
  coefficients : AlikeTable c.coefficients d.coefficients

theorem plus_congr {c d : Collected} {a b : Expr} (hcd : c.Congruent d) (hab : a.same b = true) :
    (c.plus a).Congruent (d.plus b) := by
  rcases Expr.literal?_cases hab with ⟨m, n, rfl, rfl, hmn⟩ | ⟨ha, hb⟩
  · exact ⟨Literal.add_congr hcd.constant hmn, hcd.coefficients⟩
  · obtain ⟨hcoefficient, hrest⟩ := Expr.splitCoefficient_congr hab
    rw [plus_of_literal?_eq_none c ha, plus_of_literal?_eq_none d hb]
    exact ⟨hcd.constant, Expr.alike_adjust hrest
      (fun hmn => Literal.add_congr hmn hcoefficient) hcd.coefficients⟩

theorem ofTerms_congr {as bs : List Expr} (h : Alike as bs) :
    (ofTerms as).Congruent (ofTerms bs) :=
  List.rel_foldl (R := fun a b : Expr => a.same b = true)
    (fun _ _ hcd _ _ hab => plus_congr hcd hab) ⟨Literal.same_refl _, .nil⟩ h

theorem scaled_congr {a b : Expr} {m n : Literal} (hab : a.same b = true)
    (hmn : m.same n = true) : (scaled a m).same (scaled b n) = true := by
  rw [scaled, scaled, Literal.isOne_congr hmn]
  split
  · exact hab
  · exact Monomial.toExpr_congr
      (Monomial.ofFactors_congr (.cons (Expr.same_lit hmn) (.cons hab .nil)))

theorem terms_congr {c d : Collected} (h : c.Congruent d) : Alike c.terms d.terms := by
  apply List.rel_append
  · refine List.rel_map ?_ (Expr.alike_filter_nonzero h.coefficients)
    intro x y hentry
    exact scaled_congr hentry.1 hentry.2
  · rw [Literal.isZero_congr h.constant]
    split
    · exact .nil
    · exact .cons (Expr.same_lit h.constant) .nil

theorem toExpr_congr {c d : Collected} (h : c.Congruent d) : c.toExpr.same d.toExpr = true := by
  have hterms := terms_congr h
  unfold toExpr
  generalize c.terms = as at hterms
  generalize d.terms = bs at hterms
  cases hterms with
  | nil => exact Expr.same_refl _
  | cons hab htail =>
      cases htail with
      | nil => exact hab
      | cons hnext htail =>
          exact Expr.same_sum (Expr.alike_sort (.cons hab (.cons hnext htail)))

end Collected

/-! ### Layers of sums -/

namespace Folding

structure Respects (f : Folding) : Prop where
  product : ∀ {as bs : List Expr}, Alike as bs → (f.product as).same (f.product bs) = true
  terms : ∀ {a b : Expr}, a.same b = true → Alike (f.terms a) (f.terms b)

theorem Respects.sum {f : Folding} (hf : f.Respects) {as bs : List Expr} (h : Alike as bs) :
    (f.sum as).same (f.sum bs) = true :=
  Collected.toExpr_congr (Collected.ofTerms_congr
    (List.rel_flatMap (List.rel_reverse h) fun _ _ => hf.terms))

theorem summand_congr {product : List Expr → Expr}
    (hproduct : ∀ {as bs : List Expr}, Alike as bs → (product as).same (product bs) = true)
    {a b : Expr} (h : a.same b = true) : (summand product a).same (summand product b) = true := by
  refine Expr.sameInduction (motive := fun a b => a.same b = true →
    (summand product a).same (summand product b) = true)
    ?lit ?sym ?dim ?call ?access ?sum ?prod ?pow h h
  case prod => exact fun hs _ _ => hproduct hs
  all_goals
    intros
    assumption

theorem flat_respects : flat.Respects where
  product h := Monomial.toExpr_congr (Monomial.ofFactors_congr h)
  terms h := .cons (summand_congr
    (fun hs => Monomial.toExpr_congr (Monomial.ofFactors_congr hs)) h) .nil

theorem next_product_congr {f : Folding} (hf : f.Respects) {as bs : List Expr} (h : Alike as bs) :
    (f.next.product as).same (f.next.product bs) = true := by
  have hmonomial := Monomial.ofFactors_congr h
  unfold next
  dsimp only
  cases hspread : (Monomial.ofFactors as).spread? with
  | some terms =>
      obtain ⟨terms', hspread', hterms⟩ :=
        Monomial.exists_spread?_of_congruent hmonomial hspread
      rw [hspread']
      refine hf.sum (List.rel_map (R := fun a b : Expr => a.same b = true) ?_ hterms)
      intro a b hab
      exact hf.product (.cons (Expr.same_lit hmonomial.coefficient) (.cons hab .nil))
  | none =>
      cases hspread' : (Monomial.ofFactors bs).spread? with
      | some terms' =>
          -- If one of the two is spread, so is the other.
          obtain ⟨terms, hsome, -⟩ :=
            Monomial.exists_spread?_of_congruent hmonomial.symm hspread'
          rw [hspread] at hsome
          cases hsome
      | none => exact Monomial.toExpr_congr hmonomial

theorem next_respects {f : Folding} (hf : f.Respects) : f.next.Respects where
  product := next_product_congr hf
  terms {a b} h := by
    have hsummand := summand_congr (next_product_congr hf) h
    simp only [next] at hsummand ⊢
    split
    · next as hsum =>
        rw [hsum] at hsummand
        obtain ⟨bs, hb, hs⟩ := Expr.same_sum_iff.mp hsummand
        rw [hb]
        exact List.rel_flatMap (List.rel_reverse hs) fun _ _ => hf.terms
    · next hnot =>
        split
        · next bs hsum =>
            rw [hsum] at hsummand
            obtain ⟨as, ha, -⟩ := Expr.same_sum_iff.mp (Expr.same_symm hsummand)
            exact absurd ha (hnot as)
        · exact .cons hsummand .nil

theorem ofDepth_respects (n : Nat) : (ofDepth n).Respects := by
  induction n with
  | zero => exact flat_respects
  | succ n ih => exact next_respects ih

end Folding

namespace Expr

theorem sumDepthList_eq_of_alike {as bs : List Expr} (h : Alike as bs) :
    sumDepthList as = sumDepthList bs :=
  sumDepthList_congr (h.imp fun _ _ => sumDepth_congr)

theorem sumOf_congr {as bs : List Expr} (h : Alike as bs) : (sumOf as).same (sumOf bs) = true := by
  rw [sumOf, sumOf, sumDepthList_eq_of_alike h]
  exact (Folding.ofDepth_respects _).sum h

theorem productOf_congr {as bs : List Expr} (h : Alike as bs) :
    (productOf as).same (productOf bs) = true := by
  rw [productOf, productOf, sumDepthList_eq_of_alike h]
  exact (Folding.ofDepth_respects _).product h

theorem literal?_congr {a b : Expr} (h : a.same b = true) :
    Option.Rel (fun m n => m.same n = true) a.literal? b.literal? := by
  rcases literal?_cases h with ⟨m, n, rfl, rfl, hmn⟩ | ⟨ha, hb⟩
  · exact .some hmn
  · rw [ha, hb]
    exact .none

/-- The power that is folded if there is one. -/
def foldedPower? (base exponent : Expr) : Option Literal :=
  base.literal?.bind fun b => exponent.literal?.bind fun e => b.pow? e

theorem foldedPower?_congr {a b c d : Expr} (hac : a.same c = true) (hbd : b.same d = true) :
    Option.Rel (fun m n => m.same n = true) (foldedPower? a b) (foldedPower? c d) := by
  rw [foldedPower?, foldedPower?]
  rcases rel_cases (literal?_congr hac) with ⟨ha, hc⟩ | ⟨m, m', ha, hc, hbase⟩
  · rw [ha, hc]
    exact .none
  · rcases rel_cases (literal?_congr hbd) with ⟨hb, hd⟩ | ⟨n, n', hb, hd, hexponent⟩
    · rw [ha, hb, hc, hd]
      exact .none
    · rw [ha, hb, hc, hd]
      exact Literal.pow?_congr hbase hexponent

theorem power_eq (base exponent : Expr) :
    power base exponent =
      match foldedPower? base exponent, exponent.literal? with
      | some n, _ => .lit n
      | none, some e => if e.isOne then base else if e.isZero then .int 1 else .pow base exponent
      | none, none => .pow base exponent := by
  cases h : foldedPower? base exponent with
  | some n =>
      unfold foldedPower? at h
      simp only [power, h]
  | none =>
      unfold foldedPower? at h
      simp only [power, h]
      cases exponent <;> rfl

theorem power_congr {a b c d : Expr} (hac : a.same c = true) (hbd : b.same d = true) :
    (power a b).same (power c d) = true := by
  have hpow : (pow a b).same (.pow c d) = true := same_pow hac hbd
  rw [power_eq, power_eq]
  rcases rel_cases (foldedPower?_congr hac hbd) with ⟨hab, hcd⟩ | ⟨m, n, hab, hcd, hmn⟩
  · rw [hab, hcd]
    rcases rel_cases (literal?_congr hbd) with ⟨hb, hd⟩ | ⟨m, n, hb, hd, hmn⟩
    · rw [hb, hd]
      exact hpow
    · rw [hb, hd]
      dsimp only
      rw [Literal.isOne_congr hmn, Literal.isZero_congr hmn]
      split
      · exact hac
      · split
        · exact same_refl _
        · exact hpow
  · rw [hab, hcd]
    exact same_lit hmn

end Expr

/-! ### Replacement -/

/-- Equal operands make equal nodes. -/
structure Builder.Respects (b : Builder) : Prop where
  sum : ∀ {as bs : List Expr}, Alike as bs → (b.sum as).same (b.sum bs) = true
  prod : ∀ {as bs : List Expr}, Alike as bs → (b.prod as).same (b.prod bs) = true
  pow : ∀ {x y x' y' : Expr}, x.same x' = true → y.same y' = true →
    (b.pow x y).same (b.pow x' y') = true

theorem Builder.folding_respects : Builder.folding.Respects :=
  ⟨Expr.sumOf_congr, Expr.productOf_congr, Expr.power_congr⟩

theorem Substitution.find?_congr (s : Substitution) {a b : Expr} (h : a.same b = true) :
    s.find? a = s.find? b := by
  have hkey (key : Expr) : (a == key) = (b == key) := BEq.congr_left h
  unfold find?
  simp only [hkey]

namespace Expr

variable {b : Builder} {s : Substitution}

/-- The changed operands, with those that are not changed taken from equal lists. -/
theorem replaceList?_congr {as bs : List Expr} (h : Alike as bs)
    (ih : List.Forall₂ (fun x y => Option.Rel (fun a b => a.same b = true)
      (replace? b s x) (replace? b s y)) as bs) :
    Option.Rel Alike (replaceList? b s as) (replaceList? b s bs) := by
  induction h with
  | nil => exact .none
  | cons hab htail ih' =>
      cases ih with
      | cons hhead hrest =>
          unfold replaceList?
          rcases rel_cases hhead with ⟨ha, hb⟩ | ⟨a', b', ha, hb, hnew⟩ <;>
            rcases rel_cases (ih' hrest) with ⟨has, hbs⟩ | ⟨as', bs', has, hbs, hnews⟩ <;>
            rw [ha, hb, has, hbs]
          · exact .none
          · exact .some (.cons hab hnews)
          · exact .some (.cons hnew htail)
          · exact .some (.cons hnew hnews)

/-- A node with operands in a list: found as a whole or built from changed operands. -/
theorem orElse_map_congr {a c : Expr} {as bs : List Expr} {node : List Expr → Expr}
    (hfind : s.find? a = s.find? c)
    (hlist : Option.Rel Alike (replaceList? b s as) (replaceList? b s bs))
    (hnode : ∀ {es es' : List Expr}, Alike es es' → (node es).same (node es') = true) :
    Option.Rel (fun x y => x.same y = true)
      (s.find? a <|> (replaceList? b s as).map node)
      (s.find? c <|> (replaceList? b s bs).map node) := by
  rw [hfind]
  cases s.find? c with
  | some r => exact .some r.same_refl
  | none =>
      rcases rel_cases hlist with ⟨has, hbs⟩ | ⟨es, es', has, hbs, hes⟩ <;> rw [has, hbs]
      · exact .none
      · exact .some (hnode hes)

theorem replace?_congr (hb : b.Respects) {a c : Expr} (h : a.same c = true) :
    Option.Rel (fun x y => x.same y = true) (replace? b s a) (replace? b s c) := by
  have hleaf {x y : Expr} (hxy : x.same y = true) :
      Option.Rel (fun x y => x.same y = true) (s.find? x) (s.find? y) := by
    rw [s.find?_congr hxy]
    cases s.find? y with
    | none => exact .none
    | some r => exact .some r.same_refl
  apply sameInduction (motive := fun x y =>
    Option.Rel (fun x y => x.same y = true) (replace? b s x) (replace? b s y)) (h := h)
  case lit => exact fun hmn => hleaf (same_lit hmn)
  case sym => exact fun x => hleaf (same_refl _)
  case dim => exact fun d => hleaf (same_refl _)
  case call =>
    intro f as bs hs ih
    exact orElse_map_congr (s.find?_congr (same_call f hs)) (replaceList?_congr hs ih) (same_call f)
  case access =>
    intro f as bs hs ih
    exact orElse_map_congr (s.find?_congr (same_access f hs)) (replaceList?_congr hs ih)
      (same_access f)
  case sum =>
    intro as bs hs ih
    exact orElse_map_congr (s.find?_congr (same_sum hs)) (replaceList?_congr hs ih) hb.sum
  case prod =>
    intro as bs hs ih
    exact orElse_map_congr (s.find?_congr (same_prod hs)) (replaceList?_congr hs ih) hb.prod
  case pow =>
    intro base exponent base' exponent' hbase hexponent ihbase ihexponent
    have hpow := s.find?_congr (same_pow hbase hexponent)
    unfold replace?
    rw [hpow]
    cases s.find? (.pow base' exponent') with
    | some r => exact .some r.same_refl
    | none =>
        rcases rel_cases ihbase with ⟨hx, hx'⟩ | ⟨x, x', hx, hx', hxx⟩ <;>
          rcases rel_cases ihexponent with ⟨hy, hy'⟩ | ⟨y, y', hy, hy', hyy⟩ <;>
          rw [hx, hx', hy, hy']
        · exact .none
        · exact .some (hb.pow hbase hyy)
        · exact .some (hb.pow hxx hexponent)
        · exact .some (hb.pow hxx hyy)

theorem substFold_congr (s : Substitution) {a b : Expr} (h : a.same b = true) :
    (a.substFold s).same (b.substFold s) = true := by
  rw [substFold, substFold]
  rcases rel_cases (replace?_congr (s := s) Builder.folding_respects h) with
    ⟨ha, hb⟩ | ⟨x, y, ha, hb, hxy⟩ <;> rw [ha, hb]
  · exact h
  · exact hxy

end Expr

end GridAccess
