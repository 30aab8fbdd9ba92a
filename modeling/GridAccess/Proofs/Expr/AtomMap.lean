import GridAccess.Proofs.Expr.CanonicalNodes
import GridAccess.Proofs.Expr.Polynomial

/-!
Maps that go through sums and products and change nothing but atoms. Such a map moves the
coefficients of a linear form from one product to another; if it keeps different factors apart,
the form can be recovered, and terms that are not alike do not become alike.
-/

namespace GridAccess

/-- If `f` tells the elements of two lists apart as `g` does, both have the same permutations. -/
theorem perm_map_of_perm_map {α β γ : Type} {f : α → β} {g : α → γ} {as bs : List α}
    (hfg : ∀ a ∈ as, ∀ b ∈ bs, f a = f b → g a = g b) (h : (as.map f).Perm (bs.map f)) :
    (as.map g).Perm (bs.map g) := by
  induction as generalizing bs with
  | nil =>
      obtain rfl := List.map_eq_nil_iff.mp h.nil_eq.symm
      exact .nil
  | cons a as ih =>
      obtain ⟨b, hb, hab⟩ := List.mem_map.mp (h.mem_iff.mp List.mem_cons_self)
      obtain ⟨before, after, rfl⟩ := List.append_of_mem hb
      have hmiddle : (before ++ b :: after).Perm (b :: (before ++ after)) := List.perm_middle
      have hrest : (as.map f).Perm ((before ++ after).map f) := by
        have hhead := h.trans (hmiddle.map f)
        rw [List.map_cons, List.map_cons, hab] at hhead
        exact hhead.cons_inv
      have hperm := ih (fun x hx y hy => hfg x (List.mem_cons_of_mem _ hx) y
        (hmiddle.mem_iff.mpr (List.mem_cons_of_mem _ hy))) hrest
      have hhead : g a = g b := hfg a List.mem_cons_self b hb hab.symm
      refine .trans ?_ (hmiddle.map g).symm
      rw [List.map_cons, List.map_cons, hhead]
      exact hperm.cons _

namespace Expr

/-- The canonical products of factors with a property. -/
def productsOver (P : Expr → Prop) : Set Class :=
  {q | ∃ as : List Expr, (∀ a ∈ as, a.isFactor = true ∧ P a) ∧ (powerProduct as).toClass = q}

/-- A form is made of products of nodes. -/
theorem form_mem_supported {P : Expr → Prop} {e : Expr} (h : AllNodes P e) :
    e.form ∈ Finsupp.supported Int Int (productsOver P) := by
  induction e using form.induct with
  | case1 e terms heq ih =>
      rw [form_of_cofactors_eq heq]
      refine Submodule.smul_mem _ _ (list_sum_mem ?_)
      intro p hp
      obtain ⟨t, ht, rfl⟩ := List.mem_map.mp hp
      have hsum : sum terms ∈ e.nodes := mem_nodes_of_mem_cofactors (by simp [heq])
      exact ih t ht ((h.of_mem_nodes hsum).of_mem_children ht)
  | case2 e hne =>
      rw [form_of_cofactors_ne hne]
      refine Finsupp.single_mem_supported _ _ ⟨e.cofactors, fun a ha => ?_, rfl⟩
      exact ⟨isFactor_of_mem_cofactors ha, h a (mem_nodes_of_mem_cofactors ha)⟩

end Expr

open GridAccess.Expr

/-- A map that leaves literals alone and goes through sums and products. -/
structure AtomMap (g : Expr → Expr) : Prop where
  lit : ∀ n, g (.lit n) = .lit n
  sum : ∀ terms, g (.sum terms) = .sum (terms.map g)
  prod : ∀ factors, g (.prod factors) = .prod (factors.map g)
  isAtom : ∀ {e : Expr}, e.isAtom = true → (g e).isAtom = true
  congr : ∀ {a b : Expr}, a.same b = true → (g a).same (g b) = true

namespace AtomMap

variable {g : Expr → Expr} (hg : AtomMap g)
include hg

/-! ### Products -/

theorem isFactor {e : Expr} (h : e.isFactor = true) : (g e).isFactor = true := by
  cases e with
  | lit | prod => cases h
  | sum terms =>
      rw [hg.sum]
      rfl
  | _ => exact isFactor_of_isAtom (hg.isAtom rfl)

theorem isFactor_of_mem_map {as : List Expr} (has : ∀ a ∈ as, a.isFactor = true) :
    ∀ a ∈ as.map g, a.isFactor = true :=
  List.forall_mem_map.mpr fun a ha => hg.isFactor (has a ha)

theorem literal?_eq (e : Expr) : (g e).literal? = e.literal? := by
  cases e with
  | lit n => rw [hg.lit]
  | prod factors =>
      rw [hg.prod]
      rfl
  | _ => rw [literal?_of_isFactor (hg.isFactor rfl), literal?_of_isFactor rfl]

theorem isLiteral_eq (e : Expr) : (g e).isLiteral = e.isLiteral := by
  rw [isLiteral, isLiteral, hg.literal?_eq]

theorem exists_of_eq_sum {e : Expr} {terms : List Expr} (h : g e = .sum terms) :
    ∃ ts, e = .sum ts := by
  have hatom (ha : e.isAtom = true) : ∃ ts, e = .sum ts := by
    have hsum := hg.isAtom ha
    rw [h] at hsum
    cases hsum
  cases e with
  | sum ts => exact ⟨ts, rfl⟩
  | lit n =>
      rw [hg.lit] at h
      cases h
  | prod factors =>
      rw [hg.prod] at h
      cases h
  | _ => exact hatom rfl

theorem factors_eq (e : Expr) : (g e).factors = e.factors.map g := by
  induction e with
  | prod fs ih =>
      rw [hg.prod, factors, factors, factorsList_eq, factorsList_eq, List.flatMap_map,
        List.map_flatMap]
      exact List.flatMap_congr ih
  | lit n =>
      rw [hg.lit]
      simp [factors, hg.lit]
  | _ => rw [factors_of_isFactor (hg.isFactor rfl), factors_of_isFactor rfl, List.map_singleton]

theorem literals_factors_eq (e : Expr) :
    (g e).factors.filterMap literal? = e.factors.filterMap literal? := by
  rw [hg.factors_eq, List.filterMap_map]
  exact List.filterMap_congr fun f _ => hg.literal?_eq f

theorem coefficient_eq (e : Expr) : (g e).coefficient = e.coefficient := by
  rw [coefficient, coefficient, hg.literals_factors_eq]

theorem cofactors_eq (e : Expr) : (g e).cofactors = e.cofactors.map g := by
  rw [cofactors, cofactors, hg.factors_eq, List.filter_map]
  congr 1
  exact List.filter_congr fun f _ => by simp [hg.isLiteral_eq]

theorem cofactors_ne_sum {e : Expr} (h : ∀ terms, e.cofactors ≠ [.sum terms]) (terms : List Expr) :
    (g e).cofactors ≠ [.sum terms] := by
  rw [hg.cofactors_eq]
  intro heq
  obtain ⟨a, ha, hsum⟩ := List.map_eq_singleton_iff.mp heq
  obtain ⟨ts, rfl⟩ := hg.exists_of_eq_sum hsum
  exact h ts ha

theorem term {t : Expr} (h : t.Term) : (g t).Term where
  cofactors_ne_nil := by
    rw [hg.cofactors_eq]
    simpa using h.cofactors_ne_nil
  cofactors_ne_sum := hg.cofactors_ne_sum h.cofactors_ne_sum
  literals := by
    rw [hg.literals_factors_eq]
    exact h.literals

/-! ### Classes of products -/

theorem same_powerProduct_map {as bs : List Expr} (h : (as.map toClass).Perm (bs.map toClass)) :
    (powerProduct (as.map g)).same (powerProduct (bs.map g)) = true := by
  refine same_powerProduct ?_
  rw [List.map_map, List.map_map]
  -- The class of an image is a function of the class.
  let image : Expr.Class → Expr.Class := Quotient.lift (fun e => (g e).toClass) fun _ _ hab =>
    toClass_eq_iff.mpr (hg.congr hab)
  have himage := h.map image
  rwa [List.map_map, List.map_map] at himage

/-- The canonical product of the images of the factors. -/
def onProducts : Expr.Class → Expr.Class :=
  Quotient.lift (fun e => (powerProduct (e.cofactors.map g)).toClass) fun _ _ h =>
    toClass_eq_iff.mpr (hg.same_powerProduct_map (.of_eq (alike_iff.mp (alike_cofactors h))))

theorem onProducts_powerProduct {as : List Expr} (has : ∀ a ∈ as, a.isFactor = true) :
    hg.onProducts (powerProduct as).toClass = (powerProduct (as.map g)).toClass := by
  refine toClass_eq_iff.mpr (hg.same_powerProduct_map ?_)
  rw [cofactors_powerProduct has]
  exact (Ascending.sort_perm as).map toClass

theorem key_eq (t : Expr) : (g t).key = hg.onProducts t.key := by
  rw [key, key, hg.cofactors_eq, hg.onProducts_powerProduct fun a => isFactor_of_mem_cofactors]

/-- Products of different factors are taken to different products. -/
theorem injOn_onProducts {P : Expr → Prop}
    (hP : ∀ a b, P a → P b → (g a).same (g b) = true → a.same b = true) :
    Set.InjOn hg.onProducts (productsOver P) := by
  rintro _ ⟨as, has, rfl⟩ _ ⟨bs, hbs, rfl⟩ h
  have hasFactor := fun a ha => (has a ha).1
  have hbsFactor := fun b hb => (hbs b hb).1
  rw [hg.onProducts_powerProduct hasFactor, hg.onProducts_powerProduct hbsFactor,
    toClass_eq_iff] at h
  have halike := alike_cofactors h
  rw [cofactors_powerProduct (hg.isFactor_of_mem_map hasFactor),
    cofactors_powerProduct (hg.isFactor_of_mem_map hbsFactor), alike_iff] at halike
  have hperm : ((as.map g).map toClass).Perm ((bs.map g).map toClass) :=
    ((Ascending.sort_perm _).map _).symm.trans
      ((List.Perm.of_eq halike).trans ((Ascending.sort_perm _).map _))
  rw [List.map_map, List.map_map] at hperm
  refine toClass_eq_iff.mpr (same_powerProduct (perm_map_of_perm_map ?_ hperm))
  intro a ha b hb hab
  exact toClass_eq_iff.mpr (hP a b (has a ha).2 (hbs b hb).2 (toClass_eq_iff.mp hab))

/-! ### Forms -/

theorem form_eq (e : Expr) : (g e).form = e.form.mapDomain hg.onProducts := by
  induction e using form.induct with
  | case1 e terms heq ih =>
      have himage : (g e).cofactors = [.sum (terms.map g)] := by
        rw [hg.cofactors_eq, heq, List.map_singleton, hg.sum]
      rw [form_of_cofactors_eq heq, form_of_cofactors_eq himage, hg.coefficient_eq,
        Finsupp.mapDomain_smul, List.map_map]
      congr 1
      rw [← Finsupp.mapDomain.addMonoidHom_apply, map_list_sum, List.map_map]
      exact congrArg List.sum (List.map_congr_left ih)
  | case2 e hne =>
      rw [form_of_cofactors_ne hne, form_of_cofactors_ne (hg.cofactors_ne_sum hne),
        Finsupp.mapDomain_single, hg.coefficient_eq, hg.cofactors_eq,
        hg.onProducts_powerProduct fun a => isFactor_of_mem_cofactors]

/-- If different nodes have different images, so have different forms. -/
theorem form_injective {P : Expr → Prop}
    (hP : ∀ a b, P a → P b → (g a).same (g b) = true → a.same b = true) {a b : Expr}
    (ha : AllNodes P a) (hb : AllNodes P b) (h : (g a).form = (g b).form) : a.form = b.form := by
  rw [hg.form_eq, hg.form_eq] at h
  exact Finsupp.mapDomain_injOn _ (hg.injOn_onProducts hP) (form_mem_supported ha)
    (form_mem_supported hb) h

/-! ### Terms that are not alike -/

theorem summands_eq (e : Expr) : (g e).summands = e.summands.map g := by
  have hne (h : ∀ ts, e ≠ .sum ts) : (g e).summands = [g e] := by
    unfold summands
    split
    · next heq =>
        obtain ⟨ts, rfl⟩ := hg.exists_of_eq_sum heq
        exact (h ts rfl).elim
    · rfl
  cases e with
  | sum ts =>
      rw [hg.sum]
      rfl
  | _ => exact hne (by simp)

theorem regular {P : Expr → Prop}
    (hP : ∀ a b, P a → P b → (g a).same (g b) = true → a.same b = true) {ts : List Expr}
    (hts : ∀ t ∈ ts, AllNodes P t) (h : Regular ts) : Regular (ts.map g) where
  shape := by
    refine List.forall_mem_map.mpr fun t ht => ?_
    rcases h.shape t ht with ⟨n, rfl⟩ | hterm
    · exact .inl ⟨n, hg.lit _⟩
    · exact .inr (hg.term hterm)
  literals := by
    rw [List.filter_map, List.length_map]
    simpa [Function.comp_def, hg.isLiteral_eq] using h.literals
  keys := by
    have hkeys : ((ts.map g).filter fun t => !t.isLiteral).map key =
        ((ts.filter fun t => !t.isLiteral).map key).map hg.onProducts := by
      rw [List.filter_map, List.map_map, List.map_map]
      simp [Function.comp_def, hg.isLiteral_eq, hg.key_eq]
    rw [hkeys]
    refine List.Nodup.map_on ?_ h.keys
    have hover : ∀ q ∈ (ts.filter fun t => !t.isLiteral).map key, q ∈ productsOver P := by
      refine List.forall_mem_map.mpr fun t ht => ⟨t.cofactors, fun a ha => ?_, rfl⟩
      exact ⟨isFactor_of_mem_cofactors ha,
        hts t (List.mem_of_mem_filter ht) a (mem_nodes_of_mem_cofactors ha)⟩
    exact fun q hq r hr => hg.injOn_onProducts hP (hover q hq) (hover r hr)

end AtomMap

end GridAccess
