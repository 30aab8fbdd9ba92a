import GridAccess.Proofs.Expr.AffineValue
import GridAccess.Proofs.Expr.FoldValue
import GridAccess.Proofs.Expr.Polynomial

/-!
What it means that an expression can be split, or cannot. Linear forms are read in two rings. Read
as an integer, the form says that a split has the value of the expression. Read as a polynomial, it
says which coefficients there are, and so when a linear expression has no split.
-/

namespace GridAccess

/-! ### Linear expressions -/

namespace Expr

/-- No power, and no product of two factors that are no literals. -/
def isLinearNode : Expr → Bool
  | .pow _ _ => false
  | .prod factors => (factors.filter fun f => !f.isLiteral).length ≤ 1
  | _ => true

def Linear (e : Expr) : Prop := AllNodes (fun n => n.isLinearNode = true) e

instance (e : Expr) : Decidable e.Linear :=
  inferInstanceAs (Decidable (AllNodes (fun n => n.isLinearNode = true) e))

mutual

/-- The coefficient of `g` in a linear expression. Among the factors of a product only one can
have a coefficient. -/
def coefficientIn (g : Expr) : Expr → Int
  | .lit _ => 0
  | .sum terms => (g.coefficientsIn terms).sum
  | .prod factors =>
    ((factors.filterMap literal?).map Literal.toInt).prod * (g.coefficientsIn factors).sum
  | .pow _ _ => 0
  | e => if e == g then 1 else 0

def coefficientsIn (g : Expr) : List Expr → List Int
  | [] => []
  | e :: es => g.coefficientIn e :: g.coefficientsIn es

end

theorem coefficientsIn_eq (g : Expr) (es : List Expr) :
    g.coefficientsIn es = es.map g.coefficientIn := by
  induction es with
  | nil => rfl
  | cons e es ih => exact congrArg (g.coefficientIn e :: ·) ih

/-! ### Coefficients of polynomials -/

open MvPolynomial (coeff)

theorem coeff_polynomial_lit {m : Class →₀ Nat} (hm : m ≠ 0) (n : Literal) :
    coeff m (lit n).polynomial = 0 := by
  classical
  show coeff m (n.toInt : MvPolynomial Class Int) = 0
  rw [← eq_intCast MvPolynomial.C, MvPolynomial.coeff_C, if_neg hm.symm]

theorem prod_polynomial_of_literals {fs : List Expr} (h : ∀ f ∈ fs, f.isLiteral = true) :
    (fs.map polynomial).prod = (((fs.filterMap literal?).map Literal.toInt).prod : Int) := by
  induction fs with
  | nil => simp
  | cons f fs ih =>
      obtain ⟨hf, hfs⟩ := List.forall_mem_cons.mp h
      obtain ⟨n, hn⟩ := Option.isSome_iff_exists.mp hf
      obtain rfl := eq_lit_of_literal? hn
      rw [List.map_cons, List.prod_cons, ih hfs, List.filterMap_cons_some hn, List.map_cons,
        List.prod_cons, Int.cast_mul]
      rfl

/-- In a product of literals and at most one more factor the coefficients of that factor are
multiplied by the literals. -/
theorem coeff_prod_polynomial {m : Class →₀ Nat} (hm : m ≠ 0) {fs : List Expr}
    (h : (fs.filter fun f => !f.isLiteral).length ≤ 1) :
    coeff m (fs.map polynomial).prod =
      ((fs.filterMap literal?).map Literal.toInt).prod *
        (fs.map fun f => coeff m f.polynomial).sum := by
  classical
  induction fs with
  | nil => simp [MvPolynomial.coeff_one, hm.symm]
  | cons f fs ih =>
      rw [List.map_cons, List.prod_cons, List.map_cons, List.sum_cons]
      cases hf : f.literal? with
      | some n =>
          obtain rfl := eq_lit_of_literal? hf
          have hproduct : (lit n).polynomial * (fs.map polynomial).prod =
              n.toInt • (fs.map polynomial).prod := (zsmul_eq_mul _ _).symm
          rw [hproduct, MvPolynomial.coeff_smul, ih (by simpa [isLiteral, hf] using h),
            coeff_polynomial_lit hm, zero_add, List.filterMap_cons_some hf, List.map_cons,
            List.prod_cons, smul_eq_mul, mul_assoc]
      | none =>
          have hrest : ∀ e ∈ fs, e.isLiteral = true := by
            simpa [isLiteral, hf, List.filter_eq_nil_iff, Option.isSome_iff_ne_none] using h
          have hzero : (fs.map fun e => coeff m e.polynomial).sum = 0 := by
            refine List.sum_eq_zero fun x hx => ?_
            obtain ⟨e, he, rfl⟩ := List.mem_map.mp hx
            obtain ⟨n, hn⟩ := Option.isSome_iff_exists.mp (hrest e he)
            rw [eq_lit_of_literal? hn, coeff_polynomial_lit hm]
          rw [prod_polynomial_of_literals hrest, mul_comm, ← zsmul_eq_mul,
            MvPolynomial.coeff_smul, List.filterMap_cons_none hf, hzero, add_zero, smul_eq_mul]

theorem coeff_polynomial {e : Expr} (h : e.Linear) (g : Expr) :
    coeff (Finsupp.single g.toClass 1) e.polynomial = g.coefficientIn e := by
  classical
  have hne : Finsupp.single g.toClass 1 ≠ (0 : Class →₀ Nat) := by simp
  have hgenerator (e : Expr) :
      coeff (Finsupp.single g.toClass 1) (MvPolynomial.X e.toClass : MvPolynomial Class Int) =
        if e == g then 1 else 0 := by
    rw [MvPolynomial.coeff_X]
    refine if_congr ?_ rfl rfl
    rw [Finsupp.single_left_inj one_ne_zero, toClass_eq_iff]
    rfl
  induction e with
  | lit n => exact coeff_polynomial_lit hne n
  | sym | dim | call | access => exact hgenerator _
  | sum es ih =>
      have hes := (allNodes_sum.mp h).2
      rw [polynomial_sum, ← MvPolynomial.lcoeff_apply Int, map_list_sum, List.map_map,
        coefficientIn, coefficientsIn_eq]
      exact congrArg List.sum (List.map_congr_left fun e he => ih e he (hes e he))
  | prod es ih =>
      obtain ⟨hnode, hes⟩ := allNodes_prod.mp h
      rw [polynomial_prod, coeff_prod_polynomial hne (of_decide_eq_true hnode), coefficientIn,
        coefficientsIn_eq, List.map_congr_left fun e he => ih e he (hes e he)]
  | pow base exponent => cases h.self

end Expr

/-! ### Coefficients of linear forms -/

namespace Expr

theorem isKey_of_isGenerator {e : Expr} (h : e.isGenerator = true) : e.IsKey := by
  refine ⟨[e], by simp, ?_, ?_, rfl⟩ <;> cases e <;> simp_all [isGenerator, isFactor]

theorem polynomial_of_isGenerator {e : Expr} (h : e.isGenerator = true) :
    e.polynomial = MvPolynomial.X e.toClass := by
  cases e with
  | lit | sum | prod | pow => cases h
  | _ => rfl

end Expr

namespace LinearForm

open GridAccess.Expr (Tidy forms polynomials)

theorem invariant_tidy : Invariant (·.isGenerator = true) fun f => Tidy f.terms where
  const _ := Tidy.nil
  generator he := Tidy.nil.adjust (Expr.isKey_of_isGenerator he) (.int 1) id
  scale {f} n h := by
    refine ⟨?_, ?_⟩
    · intro entry hentry
      obtain ⟨old, hold, rfl⟩ := List.mem_map.mp hentry
      exact h.keys old hold
    · simpa [scale, Expr.classes, Function.comp_def] using h.strict
  add {f g} hf hg := by
    have hfold {new old : List (Expr × Literal)} (hnew : ∀ term ∈ new, term.1.IsKey)
        (hold : Tidy old) : Tidy (new.foldl (fun terms term =>
          Ascending.adjust term.1 (.int 0) (·.add term.2) terms) old) := by
      induction new generalizing old with
      | nil => exact hold
      | cons term new ih =>
          obtain ⟨hterm, hnew⟩ := List.forall_mem_cons.mp hnew
          exact ih hnew (hold.adjust hterm _ _)
    exact hfold hg.keys hf

theorem coeff_table {terms : List (Expr × Literal)} (h : ∀ term ∈ terms, term.1.isGenerator = true)
    (q : Expr.Class) :
    (polynomials.table terms).coeff (Finsupp.single q 1) = forms.table terms q := by
  classical
  induction terms with
  | nil => rfl
  | cons term terms ih =>
      obtain ⟨hterm, hterms⟩ := List.forall_mem_cons.mp h
      have hform : forms.value term.1 = Finsupp.single term.1.toClass 1 :=
        (Expr.isKey_of_isGenerator hterm).form_eq
      have hpolynomial : polynomials.value term.1 = MvPolynomial.X term.1.toClass :=
        Expr.polynomial_of_isGenerator hterm
      rw [Reading.table_cons, Reading.table_cons, MvPolynomial.coeff_add, ih hterms,
        Finsupp.add_apply, hform, hpolynomial, MvPolynomial.coeff_smul, Finsupp.smul_apply,
        MvPolynomial.coeff_X, Finsupp.single_apply]
      simp [Finsupp.single_left_inj]

theorem exists_mem_of_table_ne_zero {terms : List (Expr × Literal)} (h : Tidy terms)
    {q : Expr.Class} (hq : forms.table terms q ≠ 0) : ∃ term ∈ terms, term.1.toClass = q := by
  by_contra hnot
  rw [← Expr.mem_keys_classes, ← Ascending.get?_eq_none_iff] at hnot
  rw [Expr.form_table_apply h, hnot] at hq
  exact hq rfl

/-- What remains once the zeros are left out has a coefficient other than zero. -/
theorem table_ne_zero_of_mem_remaining {f : LinearForm} (h : Tidy f.terms)
    (hint : AllInt f.literals) {term : Expr × Literal} (hterm : term ∈ f.toCollected.remaining) :
    forms.table f.terms term.1.toClass ≠ 0 := by
  have htidy : Tidy f.toCollected.remaining := h.sublist List.filter_sublist
  have htable : forms.table f.terms = forms.table f.toCollected.remaining :=
    (Reading.table_filter _).symm
  obtain ⟨hint, hzero⟩ := Collected.reduced_remaining hint term hterm
  rw [htable, Expr.form_table_apply htidy, Ascending.get?_of_mem htidy.strict
    (List.mem_map_of_mem (f := Prod.map Expr.toClass id) hterm)]
  exact Literal.toInt_ne_zero hint hzero

/-- Without a split there are two coefficients that are not zero. -/
theorem exists_of_affine?_eq_none {f : LinearForm} (h : Tidy f.terms) (hint : AllInt f.literals)
    (hnone : f.affine? = none) : ∃ x ∈ f.terms, ∃ y ∈ f.terms, (x.1 == y.1) = false ∧
      forms.table f.terms x.1.toClass ≠ 0 ∧ forms.table f.terms y.1.toClass ≠ 0 := by
  have htidy : Tidy f.toCollected.remaining := h.sublist List.filter_sublist
  unfold affine? at hnone
  split at hnone
  · cases hnone
  · cases hnone
  · next hempty hsingle =>
      match hremaining : f.toCollected.remaining with
      | [] => exact (hempty hremaining).elim
      | [term] => exact (hsingle term.1 term.2 hremaining).elim
      | x :: y :: rest =>
          have hx : x ∈ f.toCollected.remaining := by simp [hremaining]
          have hy : y ∈ f.toCollected.remaining := by simp [hremaining]
          refine ⟨x, List.mem_of_mem_filter hx, y, List.mem_of_mem_filter hy, ?_,
            table_ne_zero_of_mem_remaining h hint hx, table_ne_zero_of_mem_remaining h hint hy⟩
          rw [Bool.eq_false_iff]
          intro hsame
          have hnodup := htidy.strict.nodup
          rw [hremaining] at hnodup
          exact (List.nodup_cons.mp hnodup).1 (by simp [Expr.toClass_eq_iff.mpr hsame])

theorem affine?_eq_none_of_table_ne_zero {f : LinearForm} (h : Tidy f.terms) {a b : Expr}
    (hne : (a == b) = false) (ha : forms.table f.terms a.toClass ≠ 0)
    (hb : forms.table f.terms b.toClass ≠ 0) : f.affine? = none := by
  have htidy : Tidy (f.terms.filter fun term => !term.2.isZero) := h.sublist List.filter_sublist
  rw [← Reading.table_filter] at ha hb
  obtain ⟨x, hx, hxclass⟩ := exists_mem_of_table_ne_zero htidy ha
  obtain ⟨y, hy, hyclass⟩ := exists_mem_of_table_ne_zero htidy hb
  unfold affine?
  split
  · next hempty =>
      rw [hempty] at hx
      cases hx
  · next hsingle =>
      rw [hsingle] at hx hy
      obtain rfl := List.mem_singleton.mp hx
      obtain rfl := List.mem_singleton.mp hy
      have hsame : (a == b) = true := Expr.toClass_eq_iff.mp (hxclass.symm.trans hyclass)
      rw [hne] at hsame
      cases hsame
  · rfl

/-- What a split says about the readings of the form that it comes from. -/
theorem collected_of_affine? {f : LinearForm} (hint : AllInt f.literals) {p : Affine}
    (h : f.affine? = some p) :
    (∃ (g : Expr) (k m : Int64), p = ⟨some g, .int k, .int m⟩ ∧ k ≠ 0 ∧
      ∀ {M : Type} [AddCommGroup M] (r : Reading M),
        r.collected f.toCollected = m.toInt • r.value (.int 1) + k.toInt • r.value g) ∨
    ∃ m : Int64, p = ⟨none, .int 0, .int m⟩ ∧ ∀ {M : Type} [AddCommGroup M] (r : Reading M),
      r.collected f.toCollected = m.toInt • r.value (.int 1) := by
  obtain ⟨m, hm⟩ := Literal.exists_of_isInt (hint _ List.mem_cons_self : f.constant.isInt = true)
  have hcollected {M : Type} [AddCommGroup M] (r : Reading M) : r.collected f.toCollected =
      m.toInt • r.value (.int 1) + r.table (f.terms.filter fun term => !term.2.isZero) := by
    rw [Reading.table_filter, Reading.collected]
    exact congrArg (· • r.value (.int 1) + r.table f.terms) (congrArg Literal.toInt hm)
  have hreduced := Collected.reduced_remaining hint
  unfold affine? at h
  split at h
  · next hempty =>
      obtain rfl := Option.some.inj h
      refine .inr ⟨m, by rw [hm], fun {M} _ r => ?_⟩
      rw [hcollected, hempty, Reading.table_nil, add_zero]
  · next g c hsingle =>
      obtain rfl := Option.some.inj h
      obtain ⟨hc, hzero⟩ := hreduced (g, c) (by
        rw [Collected.remaining, show f.toCollected.coefficients = f.terms from rfl, hsingle]
        exact List.mem_singleton_self _)
      obtain ⟨k, rfl⟩ := Literal.exists_of_isInt hc
      refine .inl ⟨g, k, m, by rw [hm], by simpa [Literal.isZero] using hzero, fun {M} _ r => ?_⟩
      rw [hcollected, hsingle, Reading.table_cons, Reading.table_nil, add_zero]
      rfl
  · cases h

end LinearForm

/-! ### Splits -/

namespace Expr

theorem evaluates_value (ι : Interpretation) (e : Expr) : ι.reading.Evaluates e where
  one := rfl
  product := value_prod
  power base exponent _ k hk := by
    have hexponent : exponent.value ι = k := hk
    show base.value ι ^ (exponent.value ι).toNat = base.value ι ^ k
    rw [hexponent, Int.toNat_natCast]

theorem evaluates_polynomial {e : Expr} (h : e.Linear) : polynomials.Evaluates e where
  one := Int.cast_one
  product := polynomial_prod
  power base exponent hpow _ _ := by cases h _ hpow

/-- Operands can be combined if `I`, which says that the total can be combined with what is left of
them, is kept by a step. -/
theorem exists_combined? {combine : LinearForm → LinearForm → Option LinearForm}
    {I : LinearForm → List Expr → Prop}
    (hstep : ∀ {total f : LinearForm} {e : Expr} {es : List Expr}, I total (e :: es) →
      e.linearForm? = some f → ∃ next, combine total f = some next ∧ I next es)
    {es : List Expr} {total : LinearForm} (hinv : I total es)
    (hes : ∀ e ∈ es, ∃ f, e.linearForm? = some f) : ∃ f, combined? combine total es = some f := by
  induction es generalizing total with
  | nil => exact ⟨total, rfl⟩
  | cons e es ih =>
      obtain ⟨⟨f, hf⟩, hes⟩ := List.forall_mem_cons.mp hes
      obtain ⟨next, hnext, hrest⟩ := hstep hinv hf
      rw [combined?, hf, Option.bind_some, hnext, Option.bind_some]
      exact ih hrest hes

/-- Once the product is no constant, only literals may follow. -/
def Multipliable (total : LinearForm) (es : List Expr) : Prop :=
  (es.filter fun e => !e.isLiteral).length ≤ if total.isConst then 1 else 0

theorem Multipliable.step {total f : LinearForm} {e : Expr} {es : List Expr}
    (h : Multipliable total (e :: es)) (hf : e.linearForm? = some f) :
    ∃ next, total.mul? f = some next ∧ Multipliable next es := by
  rw [Multipliable] at h
  cases hliteral : e.literal? with
  | some n =>
      obtain rfl := eq_lit_of_literal? hliteral
      obtain rfl := Option.some.inj hf
      rw [List.filter_cons_of_neg (by simp [isLiteral, hliteral])] at h
      by_cases hconst : total.isConst = true
      · rw [if_pos hconst] at h
        exact ⟨_, if_pos hconst, h⟩
      · rw [if_neg hconst] at h
        exact ⟨_, (if_neg hconst).trans (if_pos rfl), h.trans (Nat.zero_le _)⟩
  | none =>
      rw [List.filter_cons_of_pos (by simp [isLiteral, hliteral]), List.length_cons] at h
      have hconst : total.isConst = true := by
        by_contra hconst
        rw [if_neg hconst] at h
        omega
      rw [if_pos hconst] at h
      exact ⟨_, if_pos hconst, (Nat.le_of_succ_le_succ h).trans (Nat.zero_le _)⟩

theorem exists_linearForm? {e : Expr} (h : e.Linear) : ∃ f, e.linearForm? = some f := by
  induction e with
  | lit | sym | dim | call | access => exact ⟨_, rfl⟩
  | sum es ih =>
      have hes := (allNodes_sum.mp h).2
      rw [linearForm?_sum]
      exact exists_combined? (I := fun _ _ => True) (fun _ _ => ⟨_, rfl, trivial⟩) trivial
        fun e he => ih e he (hes e he)
  | prod es ih =>
      obtain ⟨hnode, hes⟩ := allNodes_prod.mp h
      have hothers : (es.filter fun e => !e.isLiteral).length ≤ 1 := of_decide_eq_true hnode
      rw [linearForm?_prod]
      exact exists_combined? Multipliable.step hothers fun e he => ih e he (hes e he)
  | pow base exponent => cases h.self

theorem tidy_linearForm? {e : Expr} {f : LinearForm} (h : e.linearForm? = some f) :
    Tidy f.terms :=
  invariant_linearForm? (LinearForm.invariant_tidy.mono fun _ hg => hg.2) h

/-- The coefficients of the polynomial that a form over generators denotes are those of the form. -/
theorem coeff_of_denotes {f : LinearForm} {p : MvPolynomial Class Int}
    (h : f.Denotes polynomials p) (hgenerator : ∀ term ∈ f.terms, term.1.isGenerator = true)
    (q : Class) : p.coeff (Finsupp.single q 1) = forms.table f.terms q := by
  have hone : (polynomials.value (.int 1)).coeff (Finsupp.single q 1) = 0 :=
    coeff_polynomial_lit (by simp) _
  rw [← h.eq, Reading.collected, MvPolynomial.coeff_add, MvPolynomial.coeff_smul, hone,
    smul_zero, zero_add]
  exact LinearForm.coeff_table hgenerator q

/-- The form of a linear expression has the coefficients of the expression. -/
theorem table_linearForm? {e : Expr} (hlinear : e.Linear) (hfloat : e.FloatFree)
    (hint : AllInt e.linearFormTrace) {f : LinearForm} (h : e.linearForm? = some f) (g : Expr) :
    forms.table f.terms g.toClass = g.coefficientIn e := by
  have hdenotes := denotes_linearForm? (evaluates_polynomial hlinear) hfloat hint h
  rw [← coeff_polynomial hlinear]
  exact (coeff_of_denotes hdenotes (fun t ht => (over_linearForm? h t ht).2) _).symm

/-- As long as no operation on integers overflows, a split has the value of the expression, whatever
its symbols, dimensions and uses of fields stand for, and a linear expression has a split unless at
least two of these have a coefficient other than zero. -/
theorem affine?_sound_and_exact {e : Expr} (hfloat : e.FloatFree)
    (hint : AllInt e.linearFormTrace) :
    (∀ g c s, e.affine? = some ⟨some g, c, s⟩ →
      g ∈ e.nodes ∧ g.isGenerator = true ∧ ∃ k m : Int64, c = .int k ∧ s = .int m ∧ k ≠ 0 ∧
        ∀ ι, e.value ι = k.toInt * g.value ι + m.toInt) ∧
    (∀ c s, e.affine? = some ⟨none, c, s⟩ →
      ∃ m : Int64, s = .int m ∧ ∀ ι, e.value ι = m.toInt) ∧
    (e.Linear → (e.affine? = none ↔ ∃ g ∈ e.nodes, ∃ h ∈ e.nodes,
      g.isGenerator = true ∧ h.isGenerator = true ∧ (g == h) = false ∧
        g.coefficientIn e ≠ 0 ∧ h.coefficientIn e ≠ 0)) := by
  have hvalue {f : LinearForm} (hf : e.linearForm? = some f) (ι : Interpretation) :
      f.Denotes ι.reading (e.value ι) :=
    denotes_linearForm? (evaluates_value ι e) hfloat hint hf
  have hone (ι : Interpretation) : ι.reading.value (.int 1) = 1 := rfl
  refine ⟨?_, ?_, ?_⟩
  · intro g c s h
    obtain ⟨hnode, hgenerator⟩ := generator_of_affine? h
    obtain ⟨f, hf, hsplit⟩ := Option.bind_eq_some_iff.mp h
    have hints : AllInt f.literals := (hvalue hf ⟨0, 0, 0, 0⟩).allInt
    rcases LinearForm.collected_of_affine? hints hsplit with
      ⟨g', k, m, heq, hk, hread⟩ | ⟨m, heq, -⟩
    · obtain ⟨hg, rfl, rfl⟩ : some g = some g' ∧ c = .int k ∧ s = .int m := Affine.mk.inj heq
      obtain rfl := Option.some.inj hg
      refine ⟨hnode, hgenerator, k, m, rfl, rfl, hk, fun ι => ?_⟩
      rw [← (hvalue hf ι).eq, hread, hone, smul_eq_mul, mul_one, add_comm]
      rfl
    · cases (Affine.mk.inj heq).1
  · intro c s h
    obtain ⟨f, hf, hsplit⟩ := Option.bind_eq_some_iff.mp h
    have hints : AllInt f.literals := (hvalue hf ⟨0, 0, 0, 0⟩).allInt
    rcases LinearForm.collected_of_affine? hints hsplit with ⟨g', k, m, heq, -⟩ | ⟨m, heq, hread⟩
    · cases (Affine.mk.inj heq).1
    · obtain ⟨-, -, rfl⟩ : (none : Option Expr) = none ∧ c = .int 0 ∧ s = .int m :=
        Affine.mk.inj heq
      refine ⟨m, rfl, fun ι => ?_⟩
      rw [← (hvalue hf ι).eq, hread, hone, smul_eq_mul, mul_one]
  · intro hlinear
    obtain ⟨f, hf⟩ := exists_linearForm? hlinear
    have hints : AllInt f.literals := (hvalue hf ⟨0, 0, 0, 0⟩).allInt
    have htidy := tidy_linearForm? hf
    have hsplit : e.affine? = f.affine? := by rw [affine?, hf, Option.bind_some]
    have htable (g : Expr) := table_linearForm? hlinear hfloat hint hf g
    rw [hsplit]
    constructor
    · intro hnone
      obtain ⟨x, hx, y, hy, hne, hxtable, hytable⟩ :=
        LinearForm.exists_of_affine?_eq_none htidy hints hnone
      obtain ⟨hxnode, hxgenerator⟩ := over_linearForm? hf x hx
      obtain ⟨hynode, hygenerator⟩ := over_linearForm? hf y hy
      exact ⟨x.1, hxnode, y.1, hynode, hxgenerator, hygenerator, hne, htable x.1 ▸ hxtable,
        htable y.1 ▸ hytable⟩
    · rintro ⟨g, -, h, -, -, -, hne, hg, hh⟩
      rw [← htable] at hg hh
      exact LinearForm.affine?_eq_none_of_table_ne_zero htidy hne hg hh

def gathered : Expr := .access ⟨"b", .function, []⟩ [.dim (.root "i" .basic)]

/-- The sum `i + -1*i + 2*(b[i]*3 + 1) + 4` as it is written. -/
def cancelling : Expr :=
  .sum [.dim (.root "i" .basic), .prod [.int (-1), .dim (.root "i" .basic)],
    .prod [.int 2, .sum [.prod [gathered, .int 3], .int 1]], .int 4]

theorem affine?_sound_and_exact_cancelling :
    cancelling.FloatFree ∧ AllInt cancelling.linearFormTrace ∧ cancelling.Linear ∧
      (∀ ι, cancelling.value ι = 6 * gathered.value ι + 6) ∧
      ¬ ∃ g ∈ cancelling.nodes, ∃ h ∈ cancelling.nodes, g.isGenerator = true ∧
        h.isGenerator = true ∧ (g == h) = false ∧ g.coefficientIn cancelling ≠ 0 ∧
        h.coefficientIn cancelling ≠ 0 := by
  have hfloat : cancelling.FloatFree := by decide
  have hint : AllInt cancelling.linearFormTrace := by decide
  have hlinear : cancelling.Linear := by decide
  have hsplit : cancelling.affine? = some ⟨some gathered, .int 6, .int 6⟩ := by rfl
  obtain ⟨hsome, -, hnone⟩ := affine?_sound_and_exact hfloat hint
  refine ⟨hfloat, hint, hlinear, ?_, ?_⟩
  · obtain ⟨-, -, k, m, hk, hm, -, hvalue⟩ := hsome _ _ _ hsplit
    obtain rfl := Literal.int.inj hk
    obtain rfl := Literal.int.inj hm
    exact hvalue
  · rw [← hnone hlinear, hsplit]
    simp

end Expr

end GridAccess
