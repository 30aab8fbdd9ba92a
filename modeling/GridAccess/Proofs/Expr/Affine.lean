import GridAccess.Expr.Affine
import GridAccess.Proofs.Expr.Congruence
import GridAccess.Proofs.Expr.Inheritance

/-!
Splitting an expression into a coefficient, a generator and a shift: equal expressions have equal
splits, and a generator is one of the nodes of the expression. Sums and products combine the forms
of their operands one after the other, so what holds for both is proved for any way of combining
two forms.
-/

namespace GridAccess

open GridAccess.Expr (Alike AlikeTable sameInduction)

/-! ### Forms of operands, combined one after the other -/

/-- Any two forms can be added. -/
def LinearForm.add? (f g : LinearForm) : Option LinearForm := some (f.add g)

namespace Expr

/-- What sums and products have in common: the form of each operand is combined with the total. -/
def combined? (combine : LinearForm → LinearForm → Option LinearForm) (total : LinearForm) :
    List Expr → Option LinearForm
  | [] => some total
  | e :: es => (e.linearForm?.bind (combine total)).bind fun next => combined? combine next es

theorem linearForm?_sum (es : List Expr) :
    (sum es).linearForm? = combined? LinearForm.add? (.const (.int 0)) es := by
  have hsum (total : LinearForm) : linearSum? total es = combined? LinearForm.add? total es := by
    induction es generalizing total with
    | nil => rfl
    | cons e es ih =>
        rw [linearSum?, combined?, Option.bind_assoc]
        exact congrArg _ (funext fun f => ih (total.add f))
  exact hsum _

theorem linearForm?_prod (es : List Expr) :
    (prod es).linearForm? = combined? LinearForm.mul? (.const (.int 1)) es := by
  have hprod (total : LinearForm) :
      linearProduct? total es = combined? LinearForm.mul? total es := by
    induction es generalizing total with
    | nil => rfl
    | cons e es ih =>
        rw [linearProduct?, combined?, Option.bind_assoc]
        exact congrArg _ (funext fun f => congrArg _ (funext ih))
  exact hprod _

end Expr

/-! ### Equal linear forms -/

namespace LinearForm

structure Congruent (f g : LinearForm) : Prop where
  terms : AlikeTable f.terms g.terms
  constant : f.constant.same g.constant = true

variable {f f' g g' : LinearForm}

theorem const_congr {m n : Literal} (h : m.same n = true) : (const m).Congruent (const n) :=
  ⟨.nil, h⟩

theorem generator_congr {a b : Expr} (h : a.same b = true) :
    (generator a).Congruent (generator b) :=
  ⟨.cons ⟨h, Literal.same_refl _⟩ .nil, Literal.same_refl _⟩

theorem isConst_congr (h : f.Congruent g) : f.isConst = g.isConst := by
  have hterms := h.terms
  unfold isConst
  generalize f.terms = xs at hterms
  generalize g.terms = ys at hterms
  induction hterms with
  | nil => rfl
  | cons hhead _ ih => rw [List.all_cons, List.all_cons, Literal.isZero_congr hhead.2, ih]

theorem scale_congr {m n : Literal} (h : f.Congruent g) (hmn : m.same n = true) :
    (f.scale m).Congruent (g.scale n) := by
  refine ⟨List.rel_map ?_ h.terms, Literal.mul_congr h.constant hmn⟩
  intro x y hxy
  exact ⟨hxy.1, Literal.mul_congr hxy.2 hmn⟩

theorem add_congr (hf : f.Congruent f') (hg : g.Congruent g') :
    (f.add g).Congruent (f'.add g') := by
  refine ⟨List.rel_foldl ?_ hf.terms hg.terms, Literal.add_congr hf.constant hg.constant⟩
  intro xs ys hs x y hxy
  exact Expr.alike_adjust hxy.1 (fun hmn => Literal.add_congr hmn hxy.2) hs

theorem mul?_congr (hf : f.Congruent f') (hg : g.Congruent g') :
    Option.Rel Congruent (f.mul? g) (f'.mul? g') := by
  rw [mul?, mul?, isConst_congr hf, isConst_congr hg]
  split
  · exact .some (scale_congr hg hf.constant)
  · split
    · exact .some (scale_congr hf hg.constant)
    · exact .none

theorem pow?_congr (hf : f.Congruent f') (hg : g.Congruent g') :
    Option.Rel Congruent (f.pow? g) (f'.pow? g') := by
  rw [pow?, pow?, isConst_congr hf, isConst_congr hg, Literal.isOne_congr hg.constant,
    Literal.isZero_congr hg.constant]
  split
  · exact .none
  · split
    · rcases rel_cases (Literal.pow?_congr hf.constant hg.constant) with
        ⟨hx, hy⟩ | ⟨m, n, hx, hy, hmn⟩
      · rw [hx, hy]
        exact .none
      · rw [hx, hy]
        exact .some (const_congr hmn)
    · split
      · exact .some hf
      · split
        · exact .some (const_congr (Literal.same_refl _))
        · exact .none

end LinearForm

structure Affine.Congruent (p q : Affine) : Prop where
  generator : Option.Rel (fun a b => a.same b = true) p.generator q.generator
  coefficient : p.coefficient.same q.coefficient = true
  shift : p.shift.same q.shift = true

theorem LinearForm.affine?_congr {f g : LinearForm} (h : f.Congruent g) :
    Option.Rel Affine.Congruent f.affine? g.affine? := by
  have hterms := Expr.alike_filter_nonzero h.terms
  unfold affine?
  generalize f.terms.filter (fun term => !term.2.isZero) = xs at hterms
  generalize g.terms.filter (fun term => !term.2.isZero) = ys at hterms
  cases hterms with
  | nil => exact .some ⟨.none, Literal.same_refl _, h.constant⟩
  | cons hhead htail =>
      cases htail with
      | nil => exact .some ⟨.some hhead.1, hhead.2, h.constant⟩
      | cons => exact .none

namespace Expr

theorem combined?_congr {combine : LinearForm → LinearForm → Option LinearForm}
    (hcombine : ∀ {f f' g g' : LinearForm}, f.Congruent f' → g.Congruent g' →
      Option.Rel LinearForm.Congruent (combine f g) (combine f' g'))
    {as bs : List Expr} {total total' : LinearForm} (htotal : total.Congruent total')
    (h : List.Forall₂ (fun a b => Option.Rel LinearForm.Congruent a.linearForm? b.linearForm?)
      as bs) :
    Option.Rel LinearForm.Congruent (combined? combine total as) (combined? combine total' bs) := by
  induction h generalizing total total' with
  | nil => exact .some htotal
  | cons hhead _ ih =>
      unfold combined?
      have hnext := rel_bind hhead fun f g hfg => hcombine htotal hfg
      exact rel_bind hnext fun next next' hnext => ih hnext

theorem linearForm?_congr {a b : Expr} (h : a.same b = true) :
    Option.Rel LinearForm.Congruent a.linearForm? b.linearForm? := by
  apply sameInduction (motive := fun a b =>
    Option.Rel LinearForm.Congruent a.linearForm? b.linearForm?) (h := h)
  case lit => exact fun hmn => .some (LinearForm.const_congr hmn)
  case sym => exact fun s => .some (LinearForm.generator_congr (same_refl _))
  case dim => exact fun d => .some (LinearForm.generator_congr (same_refl _))
  case call =>
    exact fun f as bs hs _ => .some (LinearForm.generator_congr (same_call f hs))
  case access =>
    exact fun f as bs hs _ => .some (LinearForm.generator_congr (same_access f hs))
  case sum =>
    intro as bs _ ih
    rw [linearForm?_sum, linearForm?_sum]
    exact combined?_congr (fun hf hg => .some (LinearForm.add_congr hf hg))
      (LinearForm.const_congr (Literal.same_refl _)) ih
  case prod =>
    intro as bs _ ih
    rw [linearForm?_prod, linearForm?_prod]
    exact combined?_congr LinearForm.mul?_congr (LinearForm.const_congr (Literal.same_refl _)) ih
  case pow =>
    intro base exponent base' exponent' _ _ hbase hexponent
    unfold linearForm?
    exact rel_bind hexponent fun g g' hg => rel_bind hbase fun f f' hf =>
      LinearForm.pow?_congr hf hg

theorem affine?_congr {a b : Expr} (h : a.same b = true) :
    Option.Rel Affine.Congruent a.affine? b.affine? := by
  rw [affine?, affine?]
  exact rel_bind (linearForm?_congr h) fun f g => LinearForm.affine?_congr

end Expr

/-! ### Generators -/

/-- What linear forms are made of. -/
def Expr.isGenerator : Expr → Bool
  | .sym _ | .dim _ | .call _ _ | .access _ _ => true
  | .lit _ | .sum _ | .prod _ | .pow _ _ => false

namespace LinearForm

/-- A property that forms over the given generators keep while they are put together. -/
structure Invariant (Generates : Expr → Prop) (P : LinearForm → Prop) : Prop where
  const : ∀ n, P (.const n)
  generator : ∀ {e}, Generates e → P (.generator e)
  scale : ∀ {f} n, P f → P (f.scale n)
  add : ∀ {f g}, P f → P g → P (f.add g)

namespace Invariant

variable {Generates : Expr → Prop} {P : LinearForm → Prop} {f g r : LinearForm}

theorem mono {Generates' : Expr → Prop} (hP : Invariant Generates P)
    (h : ∀ e, Generates' e → Generates e) : Invariant Generates' P :=
  { hP with generator := fun he => hP.generator (h _ he) }

theorem mul? (hP : Invariant Generates P) (hf : P f) (hg : P g) (h : f.mul? g = some r) : P r := by
  unfold LinearForm.mul? at h
  split at h
  · obtain rfl := Option.some.inj h
    exact hP.scale _ hg
  · split at h
    · obtain rfl := Option.some.inj h
      exact hP.scale _ hf
    · cases h

theorem pow? (hP : Invariant Generates P) (hf : P f) (h : f.pow? g = some r) : P r := by
  unfold LinearForm.pow? at h
  split at h
  · cases h
  · split at h
    · obtain ⟨n, -, rfl⟩ := Option.map_eq_some_iff.mp h
      exact hP.const n
    · split at h
      · obtain rfl := Option.some.inj h
        exact hf
      · split at h
        · obtain rfl := Option.some.inj h
          exact hP.const _
        · cases h

theorem add? (hP : Invariant Generates P) (hf : P f) (hg : P g) (h : f.add? g = some r) : P r := by
  obtain rfl := Option.some.inj h
  exact hP.add hf hg

end Invariant

end LinearForm

namespace Expr

/-- What the total and the forms of all operands have, and combining two forms keeps, the result
has. -/
theorem combined?_preserves {P : LinearForm → Prop}
    {combine : LinearForm → LinearForm → Option LinearForm}
    (hcombine : ∀ {f g r : LinearForm}, P f → P g → combine f g = some r → P r)
    {es : List Expr} {total r : LinearForm} (htotal : P total)
    (hes : ∀ e ∈ es, ∀ f, e.linearForm? = some f → P f)
    (h : combined? combine total es = some r) : P r := by
  induction es generalizing total with
  | nil =>
      obtain rfl := Option.some.inj h
      exact htotal
  | cons e es ih =>
      obtain ⟨he, hes⟩ := List.forall_mem_cons.mp hes
      obtain ⟨next, hnext, h⟩ := Option.bind_eq_some_iff.mp h
      obtain ⟨f, hf, hnext⟩ := Option.bind_eq_some_iff.mp hnext
      exact ih (hcombine htotal (he f hf) hnext) hes h

/-- Forms are put together from the symbols, dimensions and uses of fields in the expression. -/
theorem invariant_linearForm? {P : LinearForm → Prop} {e : Expr} {f : LinearForm}
    (hP : LinearForm.Invariant (fun g => g ∈ e.nodes ∧ g.isGenerator = true) P)
    (h : e.linearForm? = some f) : P f := by
  -- What occurs in an operand occurs in the node.
  have hchild (node : Expr) {c : Expr} (hc : c ∈ node.children)
      (hP : LinearForm.Invariant (fun g => g ∈ node.nodes ∧ g.isGenerator = true) P) :
      LinearForm.Invariant (fun g => g ∈ c.nodes ∧ g.isGenerator = true) P :=
    hP.mono fun g hg => ⟨mem_nodes_trans hg.1 (mem_nodes_of_mem_children hc), hg.2⟩
  induction e generalizing f with
  | lit n =>
      obtain rfl := Option.some.inj h
      exact hP.const n
  | sym | dim | call | access =>
      obtain rfl := Option.some.inj h
      exact hP.generator ⟨self_mem_nodes _, rfl⟩
  | sum es ih =>
      rw [linearForm?_sum] at h
      refine combined?_preserves hP.add? (hP.const _) (fun e he f hf => ?_) h
      exact ih e he (hchild (.sum es) he hP) hf
  | prod es ih =>
      rw [linearForm?_prod] at h
      refine combined?_preserves hP.mul? (hP.const _) (fun e he f hf => ?_) h
      exact ih e he (hchild (.prod es) he hP) hf
  | pow base exponent ihb _ =>
      obtain ⟨g, -, h⟩ := Option.bind_eq_some_iff.mp h
      obtain ⟨f', hf', h⟩ := Option.bind_eq_some_iff.mp h
      exact hP.pow? (ihb (hchild _ List.mem_cons_self hP) hf') h

end Expr

/-- All generators have the property. -/
def LinearForm.Over (P : Expr → Prop) (f : LinearForm) : Prop := ∀ term ∈ f.terms, P term.1

theorem LinearForm.invariant_over (P : Expr → Prop) : Invariant P (Over P) where
  const n := by simp [Over, LinearForm.const]
  generator he := by simpa [Over, LinearForm.generator] using he
  scale n h := by
    intro term hterm
    obtain ⟨old, hold, rfl⟩ := List.mem_map.mp hterm
    exact h old hold
  add {f g} hf hg := by
    have hfold {new old : List (Expr × Literal)} (hnew : ∀ term ∈ new, P term.1)
        (hold : ∀ term ∈ old, P term.1) :
        ∀ term ∈ new.foldl (fun terms term =>
          Ascending.adjust term.1 (.int 0) (·.add term.2) terms) old, P term.1 := by
      induction new generalizing old with
      | nil => exact hold
      | cons term new ih =>
          obtain ⟨hterm, hnew⟩ := List.forall_mem_cons.mp hnew
          exact ih hnew (Inherited.adjust hterm hold)
    exact hfold hg hf

namespace Expr

theorem over_linearForm? {e : Expr} {f : LinearForm} (h : e.linearForm? = some f) :
    f.Over fun g => g ∈ e.nodes ∧ g.isGenerator = true :=
  invariant_linearForm? (LinearForm.invariant_over _) h

theorem generator_of_affine? {e g : Expr} {c shift : Literal}
    (h : e.affine? = some ⟨some g, c, shift⟩) : g ∈ e.nodes ∧ g.isGenerator = true := by
  obtain ⟨f, hf, h⟩ := Option.bind_eq_some_iff.mp h
  have hover := over_linearForm? hf
  unfold LinearForm.affine? at h
  split at h
  · cases Option.some.inj h
  · next term hterms =>
      cases Option.some.inj h
      have hmem : (g, c) ∈ f.terms.filter fun term => !term.2.isZero := by
        rw [hterms]
        exact List.mem_singleton_self _
      exact hover _ (List.mem_of_mem_filter hmem)
  · cases h

end Expr

end GridAccess
