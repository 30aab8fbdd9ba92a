import GridAccess.Proofs.Expr.AffineExact

/-!
What a split says of an expression without powers, as long as nothing overflows: the expression is
a polynomial of degree one at most, its linear form is constant exactly if the polynomial is, and
the polynomial determines the split. Expressions that are the same polynomial and have linear forms
have the same split, or both have none.
-/

namespace GridAccess

namespace Expr

def isPower : Expr → Bool
  | .pow _ _ => true
  | _ => false

def PowFree (e : Expr) : Prop := AllNodes (fun n => n.isPower = false) e

instance (e : Expr) : Decidable e.PowFree :=
  inferInstanceAs (Decidable (AllNodes (fun n => n.isPower = false) e))

/-- The linear form is computed with integers alone, and without powers. -/
structure Exact (e : Expr) : Prop where
  floatFree : e.FloatFree
  powFree : e.PowFree
  trace : AllInt e.linearFormTrace

theorem Exact.of_prod {factors factors' : List Expr} (h : (prod factors).Exact)
    (hmem : ∀ f ∈ factors', f ∈ factors) (hint : AllInt (prod factors').linearFormTrace) :
    (prod factors').Exact where
  floatFree := allNodes_prod.mpr ⟨rfl, fun f hf => (allNodes_prod.mp h.floatFree).2 f (hmem f hf)⟩
  powFree := allNodes_prod.mpr ⟨rfl, fun f hf => (allNodes_prod.mp h.powFree).2 f (hmem f hf)⟩
  trace := hint

theorem Exact.of_mem {e c : Expr} (he : e.Exact) (hc : c ∈ e.children)
    (hint : AllInt c.linearFormTrace) : c.Exact :=
  ⟨he.floatFree.of_mem_children hc, he.powFree.of_mem_children hc, hint⟩

section

variable {e : Expr} {f : LinearForm}

theorem Exact.denotes (he : e.Exact) (h : e.linearForm? = some f) :
    f.Denotes polynomials e.polynomial := by
  refine denotes_linearForm? ⟨Int.cast_one, polynomial_prod, ?_⟩ he.floatFree he.trace h
  intro base exponent hpow
  cases he.powFree _ hpow

theorem isGenerator_of_linearForm? (h : e.linearForm? = some f) :
    ∀ term ∈ f.terms, term.1.isGenerator = true :=
  fun term hterm => (over_linearForm? h term hterm).2

theorem totalDegree_table_le_one {terms : List (Expr × Literal)}
    (h : ∀ term ∈ terms, term.1.isGenerator = true) :
    (polynomials.table terms).totalDegree ≤ 1 := by
  induction terms with
  | nil => simp
  | cons term terms ih =>
      obtain ⟨hterm, hterms⟩ := List.forall_mem_cons.mp h
      have hvalue : polynomials.value term.1 = MvPolynomial.X term.1.toClass :=
        polynomial_of_isGenerator hterm
      rw [Reading.table_cons, hvalue]
      refine (MvPolynomial.totalDegree_add _ _).trans (Nat.max_le.mpr ⟨?_, ih hterms⟩)
      exact (MvPolynomial.totalDegree_smul_le _ _).trans (MvPolynomial.totalDegree_X _).le

theorem Exact.totalDegree_le_one (he : e.Exact) (h : e.linearForm? = some f) :
    e.polynomial.totalDegree ≤ 1 := by
  rw [← (he.denotes h).eq, Reading.collected]
  refine (MvPolynomial.totalDegree_add _ _).trans (Nat.max_le.mpr ⟨?_, ?_⟩)
  · exact (MvPolynomial.totalDegree_smul_le _ _).trans
      (MvPolynomial.totalDegree_one.trans_le zero_le_one)
  · exact totalDegree_table_le_one (isGenerator_of_linearForm? h)

/-- The form is constant exactly if the polynomial is. -/
theorem Exact.isConst_iff (he : e.Exact) (h : e.linearForm? = some f) :
    f.isConst = true ↔ e.polynomial.totalDegree = 0 := by
  have hdenotes := he.denotes h
  constructor
  · intro hconst
    rw [hdenotes.eq_constant Int.cast_one hconst, ← eq_intCast MvPolynomial.C]
    exact MvPolynomial.totalDegree_C _
  · contrapose
    intro hconst hdegree
    obtain ⟨term, hterm, hzero⟩ : ∃ term ∈ f.terms, ¬ term.2.isZero = true := by
      simpa [LinearForm.isConst] using hconst
    have hne := LinearForm.table_ne_zero_of_mem_remaining (tidy_linearForm? h) hdenotes.allInt
      (List.mem_filter.mpr ⟨hterm, by simpa using hzero⟩)
    rw [← coeff_of_denotes hdenotes (isGenerator_of_linearForm? h)] at hne
    exact hne (MvPolynomial.coeff_eq_zero_of_totalDegree_lt (by simp [hdegree]))

end

/-! ### Splits -/

/-- The polynomial that a split stands for. -/
theorem Exact.polynomial_of_affine? {e : Expr} {p : Affine} (he : e.Exact)
    (h : e.affine? = some p) :
    (∃ g ∈ e.nodes, ∃ k m : Int64, p = ⟨some g, .int k, .int m⟩ ∧ k.toInt ≠ 0 ∧
      e.polynomial = MvPolynomial.C m.toInt + k.toInt • MvPolynomial.X g.toClass) ∨
    ∃ m : Int64, p = ⟨none, .int 0, .int m⟩ ∧ e.polynomial = MvPolynomial.C m.toInt := by
  obtain ⟨f, hf, hsplit⟩ := Option.bind_eq_some_iff.mp h
  have hdenotes := he.denotes hf
  have hconstant (m : Int64) : m.toInt • polynomials.value (.int 1) = MvPolynomial.C m.toInt := by
    show m.toInt • ((1 : Int) : MvPolynomial Class Int) = _
    rw [Int.cast_one, zsmul_one, eq_intCast]
  rcases LinearForm.collected_of_affine? hdenotes.allInt hsplit with
    ⟨g, k, m, rfl, hk, hread⟩ | ⟨m, rfl, hread⟩
  · obtain ⟨hnode, hgenerator⟩ := generator_of_affine? h
    refine .inl ⟨g, hnode, k, m, rfl, fun hzero => hk (Int64.toInt_inj.mp hzero), ?_⟩
    rw [← hdenotes.eq, hread, hconstant]
    exact congrArg (_ + _ • ·) (polynomial_of_isGenerator hgenerator)
  · exact .inr ⟨m, rfl, by rw [← hdenotes.eq, hread, hconstant]⟩

theorem coeff_zero_split (m k : Int) (q : Class) :
    (MvPolynomial.C m + k • MvPolynomial.X q : MvPolynomial Class Int).coeff 0 = m := by
  rw [MvPolynomial.coeff_add, MvPolynomial.coeff_smul, MvPolynomial.coeff_zero_X, smul_zero,
    add_zero, MvPolynomial.coeff_zero_C]

theorem coeff_single_C (m : Int) (r : Class) :
    (MvPolynomial.C m : MvPolynomial Class Int).coeff (Finsupp.single r 1) = 0 := by
  classical
  have hne : (0 : Class →₀ Nat) ≠ Finsupp.single r 1 :=
    (Finsupp.single_ne_zero.mpr one_ne_zero).symm
  rw [MvPolynomial.coeff_C, if_neg hne]

theorem coeff_single_split (m k : Int) (q : Class) :
    (MvPolynomial.C m + k • MvPolynomial.X q : MvPolynomial Class Int).coeff
      (Finsupp.single q 1) = k := by
  rw [MvPolynomial.coeff_add, coeff_single_C, zero_add, MvPolynomial.coeff_smul,
    MvPolynomial.coeff_X_same, smul_eq_mul, mul_one]

/-- The generator is the only class with a coefficient. -/
theorem eq_of_coeff_single_split {m k : Int} {q r : Class}
    (h : (MvPolynomial.C m + k • MvPolynomial.X q : MvPolynomial Class Int).coeff
      (Finsupp.single r 1) ≠ 0) : q = r := by
  classical
  by_contra hne
  refine h ?_
  rw [MvPolynomial.coeff_add, coeff_single_C, zero_add, MvPolynomial.coeff_smul,
    MvPolynomial.coeff_X, if_neg fun heq => hne (Finsupp.single_left_injective one_ne_zero heq),
    smul_zero]

/-- Two expressions that are the same polynomial have no different splits. -/
theorem Exact.affine?_unique {e e' : Expr} {p p' : Affine} (he : e.Exact) (he' : e'.Exact)
    (heq : e.polynomial = e'.polynomial) (h : e.affine? = some p) (h' : e'.affine? = some p') :
    p = p' := by
  have hcoeff (m : Class →₀ Nat) := congrArg (MvPolynomial.coeff m) heq
  rcases he.polynomial_of_affine? h with ⟨g, hg, k, m, rfl, hk, hp⟩ | ⟨m, rfl, hp⟩
  · rcases he'.polynomial_of_affine? h' with ⟨g', hg', k', m', rfl, hk', hp'⟩ | ⟨m', rfl, hp'⟩
    · have hshift := hcoeff 0
      have hgenerator := hcoeff (Finsupp.single g.toClass 1)
      rw [hp, hp', coeff_zero_split, coeff_zero_split] at hshift
      rw [hp, hp', coeff_single_split] at hgenerator
      have hclass := eq_of_coeff_single_split (hgenerator ▸ hk)
      rw [hclass, coeff_single_split] at hgenerator
      have hfloat : g'.FloatFree := AllNodes.of_mem_nodes he'.floatFree hg'
      rw [Int64.toInt_inj.mp hshift, Int64.toInt_inj.mp hgenerator,
        hfloat.eq_of_same (toClass_eq_iff.mp hclass)]
    · have hgenerator := hcoeff (Finsupp.single g.toClass 1)
      rw [hp, hp', coeff_single_split, coeff_single_C] at hgenerator
      exact (hk hgenerator).elim
  · rcases he'.polynomial_of_affine? h' with ⟨g', hg', k', m', rfl, hk', hp'⟩ | ⟨m', rfl, hp'⟩
    · have hgenerator := hcoeff (Finsupp.single g'.toClass 1)
      rw [hp, hp', coeff_single_split, coeff_single_C] at hgenerator
      exact (hk' hgenerator.symm).elim
    · have hshift := hcoeff 0
      rw [hp, hp', MvPolynomial.coeff_zero_C, MvPolynomial.coeff_zero_C] at hshift
      rw [Int64.toInt_inj.mp hshift]

/-- A split leaves no two generators with coefficients other than zero. -/
theorem Exact.toClass_eq_of_affine? {e : Expr} {p : Affine} (he : e.Exact)
    (h : e.affine? = some p) {q r : Class}
    (hq : e.polynomial.coeff (Finsupp.single q 1) ≠ 0)
    (hr : e.polynomial.coeff (Finsupp.single r 1) ≠ 0) : q = r := by
  rcases he.polynomial_of_affine? h with ⟨g, -, k, m, -, -, hp⟩ | ⟨m, -, hp⟩
  · rw [hp] at hq hr
    exact (eq_of_coeff_single_split hq).symm.trans (eq_of_coeff_single_split hr)
  · rw [hp, coeff_single_C] at hq
    exact (hq rfl).elim

/-- Of two expressions that are the same polynomial and have linear forms, both have a split or
none has. -/
theorem Exact.affine?_ne_none {e e' : Expr} {p : Affine} {f' : LinearForm} (he : e.Exact)
    (he' : e'.Exact) (heq : e.polynomial = e'.polynomial) (h : e.affine? = some p)
    (h' : e'.linearForm? = some f') : e'.affine? ≠ none := by
  intro hnone
  rw [affine?, h', Option.bind_some] at hnone
  have hdenotes := he'.denotes h'
  obtain ⟨x, -, y, -, hne, hx, hy⟩ :=
    LinearForm.exists_of_affine?_eq_none (tidy_linearForm? h') hdenotes.allInt hnone
  rw [← coeff_of_denotes hdenotes (isGenerator_of_linearForm? h'), ← heq] at hx hy
  have hsame : (x.1 == y.1) = true := toClass_eq_iff.mp (he.toClass_eq_of_affine? h hx hy)
  rw [hne] at hsame
  cases hsame

theorem Exact.affine?_eq {e e' : Expr} {f f' : LinearForm} (he : e.Exact) (he' : e'.Exact)
    (heq : e.polynomial = e'.polynomial) (h : e.linearForm? = some f)
    (h' : e'.linearForm? = some f') : e.affine? = e'.affine? := by
  cases hp : e.affine? with
  | some p =>
      obtain ⟨p', hp'⟩ := Option.ne_none_iff_exists'.mp (he.affine?_ne_none he' heq hp h')
      rw [hp', he.affine?_unique he' heq hp hp']
  | none =>
      cases hp' : e'.affine? with
      | none => rfl
      | some p' => exact (he'.affine?_ne_none he heq.symm hp' h hp).elim

end Expr

end GridAccess
