import GridAccess.Proofs.Expr.CanonicalAffine
import GridAccess.Proofs.Expr.CanonicalForm
import GridAccess.Proofs.Expr.Relation
import GridAccess.Proofs.Expr.Occurrence

/-!
What a canonical access implies for the order of iteration: index by index, the outermost accesses
of the index, or else its dimensions. Nothing is lost where an index is affine in a dimension. The
linear form of a canonical sum has a generator for each of its terms besides the constant, so with
a single one the index is a multiple of the dimension and a constant, in which nothing else occurs.
-/

namespace GridAccess

namespace Expr

theorem compare_lit {e : Expr} (h : e.literal? = none) (n : Literal) :
    compare e (.lit n) = .gt := by
  cases e with
  | lit => cases h
  | _ => rfl

/-! ### Constants in linear forms -/

/-- The generator, if only one is left and it is a dimension. -/
def soleDim? (terms : List (Expr × Literal)) : Option Dimension :=
  match terms.filter fun term => !term.2.isZero with
  | [(e, _)] => e.dim?
  | _ => none

/-- The constant has no part in it. -/
theorem affineDim?_eq (e : Expr) :
    e.affineDim? = (e.linearForm?.map LinearForm.terms).bind soleDim? := by
  unfold affineDim? affine?
  cases e.linearForm? with
  | none => rfl
  | some f =>
      rw [Option.bind_some, Option.map_some, Option.bind_some, LinearForm.affine?, soleDim?]
      cases f.terms.filter fun term => !term.2.isZero with
      | nil => rfl
      | cons term terms => cases terms <;> rfl

theorem linearSum?_terms_congr {total total' : LinearForm} (h : total.terms = total'.terms)
    (es : List Expr) :
    (linearSum? total es).map LinearForm.terms = (linearSum? total' es).map LinearForm.terms := by
  induction es generalizing total total' with
  | nil => exact congrArg some h
  | cons e es ih =>
      unfold linearSum?
      cases e.linearForm? with
      | none => rfl
      | some f => exact ih (by simp only [LinearForm.add, h])

theorem affineDim?_sum_lit_cons (n : Literal) (ts : List Expr) :
    (sum (.lit n :: ts)).affineDim? = (sum ts).affineDim? := by
  have hconst : ((LinearForm.const (.int 0)).add (.const n)).terms =
      (LinearForm.const (.int 0)).terms := rfl
  have hterms : (sum (.lit n :: ts)).linearForm?.map LinearForm.terms =
      (sum ts).linearForm?.map LinearForm.terms := linearSum?_terms_congr hconst ts
  rw [affineDim?_eq, affineDim?_eq, hterms]

end Expr

/-! ### Constants in collected sums -/

namespace Collected

open GridAccess.Expr (AllNodes Tidy Regular)

theorem mem_nodes_of_mem_terms {c : Collected} {t : Expr} (h : t ∈ c.terms) :
    t ∈ c.toExpr.nodes := by
  unfold toExpr
  split
  · next hnil => cases hnil ▸ h
  · next heq =>
      obtain rfl := List.mem_singleton.mp (heq ▸ h)
      exact t.self_mem_nodes
  · exact Expr.mem_nodes_sum.mpr
      (.inr ⟨t, (Ascending.sort_perm _).mem_iff.mpr h, t.self_mem_nodes⟩)

/-- What folding neither computes nor takes apart stands in the terms. -/
theorem mem_nodes_toExpr {c : Collected} {n : Expr} (hatom : n.isAtom = true) :
    n ∈ c.toExpr.nodes ↔ ∃ t ∈ c.nonconstant, n ∈ t.nodes := by
  have hliteral (m : Literal) : n ≠ .lit m := by
    rintro rfl
    cases hatom
  have hsum (ts : List Expr) : n ≠ .sum ts := by
    rintro rfl
    cases hatom
  have hterms : (∃ t ∈ c.terms, n ∈ t.nodes) ↔ ∃ t ∈ c.nonconstant, n ∈ t.nodes := by
    rw [terms_eq]
    split <;> simp [or_and_right, exists_or, hliteral]
  rw [← hterms]
  unfold toExpr
  split
  · next hnil => simp [hnil, Expr.int, hliteral]
  · next heq => simp [heq]
  · simp [(Ascending.sort_perm c.terms).mem_iff, hsum]

theorem exists_proper_of_mem_nonconstant {c : Collected} (htidy : Tidy c.coefficients)
    (hint : AllInt c.literals) {t : Expr} (ht : t ∈ c.nonconstant) :
    ∃ m : Monomial, m.Proper ∧ m.toExpr = t := by
  obtain ⟨entry, hentry, rfl⟩ := List.mem_map.mp ht
  obtain ⟨m, hproper, hm, -⟩ := exists_proper_of_mem_remaining htidy hint hentry
  exact ⟨m, hproper, hm⟩

theorem regular_nonconstant {c : Collected} (htidy : Tidy c.coefficients)
    (hint : AllInt c.literals) : Regular c.nonconstant := by
  have hterms : (Collected.mk (.int 0) c.coefficients).terms = c.nonconstant := terms_of_isZero rfl
  exact hterms ▸ regular_terms (c := ⟨.int 0, c.coefficients⟩) htidy
    (List.forall_mem_cons.mpr ⟨rfl, (List.forall_mem_cons.mp hint).2⟩)

/-- A sum with or without its constant is affine in the same dimension. -/
theorem affineDim?_toExpr {c : Collected}
    (h : ∀ t ∈ c.nonconstant, t.Canonical ∧ t.FloatFree ∧ t.Term) :
    c.toExpr.affineDim? = (Expr.sum (Ascending.sort c.nonconstant)).affineDim? := by
  have hliteral : ∀ t ∈ c.nonconstant, compare t (.lit c.constant) = .gt := fun t ht =>
    Expr.compare_lit (Expr.literal?_of_cofactors_ne_nil (h t ht).2.2.cofactors_ne_nil) _
  cases hzero : c.constant.isZero with
  | true =>
      have hterms := terms_of_isZero hzero
      rcases hlist : c.nonconstant with _ | ⟨t, _ | ⟨u, ts⟩⟩
      · rw [toExpr, hterms, hlist]
        rfl
      · obtain ⟨hcanonical, hfloat, hterm⟩ := h t (by simp [hlist])
        rw [toExpr, hterms, hlist]
        show t.affineDim? = (Expr.sum [t]).affineDim?
        rw [Expr.affineDim?_eq, Expr.affineDim?_eq,
          Expr.linearForm?_sum_singleton hcanonical hfloat hterm]
      · rw [toExpr_of_two_le (by simp [hterms, hlist]), hterms, hlist]
  | false =>
      have hterms := terms_of_not_isZero hzero
      rcases hlist : c.nonconstant with _ | ⟨t, ts⟩
      · rw [toExpr, hterms, hlist]
        rfl
      · rw [toExpr_of_two_le (by simp [hterms, hlist]), hterms,
          Ascending.sort_append_singleton hliteral, Expr.affineDim?_sum_lit_cons, hlist]

/-- The terms of a canonical expression. -/
theorem IsFormOf.nonconstant {c : Collected} {e : Expr} (h : c.IsFormOf e)
    (hcanonical : e.Canonical) (hfloat : e.FloatFree) :
    ∀ t ∈ c.nonconstant, t.Canonical ∧ t.FloatFree ∧ t.Term := by
  intro t ht
  have heq : e = c.toExpr := hfloat.eq_of_same (Expr.same_symm h.same)
  have hnode : t ∈ e.nodes := heq ▸ mem_nodes_of_mem_terms (List.mem_append_left _ ht)
  have htfloat : t.FloatFree := AllNodes.of_mem_nodes hfloat hnode
  obtain ⟨m, hproper, rfl⟩ := exists_proper_of_mem_nonconstant h.tidy h.allInt ht
  exact ⟨AllNodes.of_mem_nodes hcanonical hnode, htfloat, hproper.term⟩

end Collected

/-! ### Indices that are affine in a dimension -/

/-- A linear form with coefficients other than zero that comes down to a dimension. -/
theorem LinearForm.Plain.exists_eq_of_soleDim? {f : LinearForm} (hplain : f.Plain) {d : Dimension}
    (h : Expr.soleDim? f.terms = some d) : ∃ n, f.terms = [(.dim d, n)] := by
  have hfilter : (f.terms.filter fun term => !term.2.isZero) = f.terms := by
    refine List.filter_eq_self.mpr fun term hterm => ?_
    obtain ⟨n, hn, hne⟩ := hplain term hterm
    simpa [hn, Literal.isZero] using hne
  unfold Expr.soleDim? at h
  split at h
  · next e n heq =>
      cases e with
      | dim d' =>
          obtain rfl := Option.some.inj h
          exact ⟨n, hfilter.symm.trans heq⟩
      | _ => cases h
  · cases h

/-- A multiple of a dimension holds nothing else. -/
theorem Monomial.Proper.eq_dim_of_mem_nodes {m : Monomial} (hproper : m.Proper) {d : Dimension}
    (hkey : m.toExpr.key = (Expr.dim d).toClass) {n : Expr} (hn : n ∈ m.toExpr.nodes)
    (hatom : n.isAtom = true) : n = .dim d := by
  have hfloat : (Expr.dim d).FloatFree := fun n hn => by
    obtain rfl := Expr.mem_nodes_dim.mp hn
    rfl
  have hpower : Expr.dim d = Expr.powerProduct (Ascending.sort m.factors) := by
    refine hfloat.eq_of_same (Expr.same_symm (Expr.toClass_eq_iff.mp ?_))
    rw [← hkey, Expr.key, hproper.cofactors_toExpr]
  have hperm := Ascending.sort_perm m.factors
  have hsort : Ascending.sort m.factors = [.dim d] := by
    rcases hsort : Ascending.sort m.factors with _ | ⟨a, _ | ⟨b, as⟩⟩
    · rw [hsort] at hperm
      exact (hproper.factors_ne_nil hperm.symm.eq_nil).elim
    · rw [hpower, hsort, Expr.powerProduct_singleton]
    · rw [hsort, Expr.powerProduct_cons_cons] at hpower
      cases hpower
  rcases hproper.toExpr_cases with ⟨-, heq⟩ | ⟨-, heq⟩
  · rw [hsort] at hperm
    rw [heq, hperm.symm.eq_singleton, Expr.powerProduct_singleton] at hn
    exact Expr.mem_nodes_dim.mp hn
  · rw [heq, hsort] at hn
    simp only [Expr.mem_nodes_prod, List.mem_cons, List.not_mem_nil, or_false, exists_eq_or_imp,
      exists_eq_left, Expr.mem_nodes_lit, Expr.mem_nodes_dim] at hn
    rcases hn with rfl | rfl | hn
    · cases hatom
    · cases hatom
    · exact hn

/-- Each term besides the constant has a generator of its own, and only one is left. -/
theorem Collected.exists_nonconstant_eq {c : Collected}
    (hterms : ∀ t ∈ c.nonconstant, t.Canonical ∧ t.FloatFree ∧ t.Term)
    (hregular : Expr.Regular c.nonconstant) {d : Dimension} (h : c.toExpr.affineDim? = some d) :
    ∃ t, c.nonconstant = [t] ∧ t.key = (Expr.dim d).toClass := by
  rw [affineDim?_toExpr hterms, Expr.affineDim?_eq] at h
  obtain ⟨entries, hentries, hd⟩ := Option.bind_eq_some_iff.mp h
  obtain ⟨f, hf, rfl⟩ := Option.map_eq_some_iff.mp hentries
  have hperm := Ascending.sort_perm c.nonconstant
  have hsorted := hregular.of_perm hperm
  obtain ⟨hplain, hcount⟩ := Expr.plain_linearSum? (LinearForm.plain_const _) hsorted.shape
    (fun t ht => by
      obtain ⟨hcanonical, hfloat, -⟩ := hterms t (hperm.mem_iff.mp ht)
      exact Expr.readable_of_canonical hcanonical hfloat)
    hsorted.keys (by simp [LinearForm.const]) hf
  obtain ⟨n, hn⟩ := hplain.exists_eq_of_soleDim? hd
  have hall : (Ascending.sort c.nonconstant).filter (fun t => !t.isLiteral) =
      Ascending.sort c.nonconstant :=
    List.filter_eq_self.mpr fun t ht => by simp [(hterms t (hperm.mem_iff.mp ht)).2.2.isLiteral]
  rw [hn, hall, hperm.length_eq] at hcount
  have hlength : c.nonconstant.length = 1 := by simpa [LinearForm.const] using hcount.symm
  obtain ⟨t, ht⟩ := List.length_eq_one_iff.mp hlength
  obtain ⟨hcanonical, hfloat, hterm⟩ := hterms t (by simp [ht])
  rw [ht] at hf
  change (Expr.sum [t]).linearForm? = some f at hf
  rw [Expr.linearForm?_sum_singleton hcanonical hfloat hterm] at hf
  obtain ⟨g, k, -, rfl, hg⟩ := (Expr.readable_of_canonical hcanonical hfloat f hf).term hterm
  obtain ⟨hg', -⟩ := Prod.mk.inj (List.cons.inj hn).1
  exact ⟨t, ht, hg' ▸ hg.symm⟩

namespace Expr

variable {e : Expr} (hcanonical : e.Canonical) (hfloat : e.FloatFree)
include hcanonical hfloat

/-- The dimension that an index is affine in is all that occurs in it. -/
theorem eq_dim_of_affineDim? {d : Dimension} (h : e.affineDim? = some d) {n : Expr}
    (hn : n ∈ e.nodes) (hatom : n.isAtom = true) : n = .dim d := by
  obtain ⟨c, hc⟩ := exists_isFormOf hcanonical hfloat
  have hterms := hc.nonconstant hcanonical hfloat
  obtain rfl : e = c.toExpr := hfloat.eq_of_same (same_symm hc.same)
  obtain ⟨t, hsingle, hkey⟩ :=
    Collected.exists_nonconstant_eq hterms (Collected.regular_nonconstant hc.tidy hc.allInt) h
  obtain ⟨t', ht', hn⟩ := (Collected.mem_nodes_toExpr hatom).mp hn
  obtain rfl : t' = t := by simpa [hsingle] using ht'
  obtain ⟨m, hproper, rfl⟩ := Collected.exists_proper_of_mem_nonconstant hc.tidy hc.allInt ht'
  exact hproper.eq_dim_of_mem_nodes hkey hn hatom

theorem dimensions_of_affineDim? {d : Dimension} (h : e.affineDim? = some d) :
    e.dimensions = [d] := by
  refine (Ascending.strict_ofList _).ext (List.pairwise_singleton _ _) fun d' => ?_
  rw [← dimensions, mem_dimensions, List.mem_singleton]
  constructor
  · intro hd'
    exact dim.inj (eq_dim_of_affineDim? hcanonical hfloat h hd' rfl)
  · rintro rfl
    exact mem_nodes_of_affineDim? h

theorem hasAccess_of_affineDim? {d : Dimension} (h : e.affineDim? = some d) :
    e.hasAccess = false := by
  rw [hasAccess, List.any_eq_false]
  intro n hn
  cases n with
  | access f es => cases eq_dim_of_affineDim? hcanonical hfloat h hn rfl
  | _ => simp [access?]

end Expr

/-! ### Relations of canonical accesses -/

namespace Expr

theorem innerRelations_eq (e : Expr) :
    e.innerRelations = e.outerAccesses.map fun a => (a, a.relation) := by
  let Implies (p : Access × List Dimension) (a : Access) : Prop := p = (a, a.relation)
  have hall : List.Forall₂ Implies e.outerRelations e.outermost := by
    rw [outerRelations_eq]
    exact List.forall₂_map_left_iff.mpr (List.forall₂_same.mpr fun _ _ => rfl)
  have hkept : List.Forall₂ Implies e.innerRelations e.outerAccesses := by
    refine rel_eraseDupsBy (fun {p q a b} hp hq => ?_) hall
    obtain rfl : p = _ := hp
    obtain rfl : q = _ := hq
    rfl
  have heq := List.forall₂_map_right_iff.mpr hkept
  rwa [List.forall₂_eq_eq_eq] at heq

/-- What an index stands for if the accesses in it are taken first. -/
theorem indexRelation_of_canonical {index : Expr} (hcanonical : index.Canonical)
    (hfloat : index.FloatFree) : indexRelation index index.innerRelations =
      if index.hasAccess then index.outerAccesses.flatMap Access.relation
      else index.dimensions := by
  rw [indexRelation_eq, innerRelations_eq]
  cases haffine : index.affineDim? with
  | some d =>
      rw [hasAccess_of_affineDim? hcanonical hfloat haffine,
        dimensions_of_affineDim? hcanonical hfloat haffine]
      rfl
  | none =>
      cases haccess : index.hasAccess with
      | false =>
          rw [(outerAccesses_eq_nil_iff index).mpr haccess]
          rfl
      | true =>
          obtain ⟨a, as, hcons⟩ := List.exists_cons_of_ne_nil (l := index.outerAccesses) <| by
            simp [outerAccesses_eq_nil_iff, haccess]
          rw [hcons, if_pos rfl, List.map_cons]
          show ((a :: as).map fun a => (a, a.relation)).flatMap Prod.snd = _
          rw [List.flatMap_map]

end Expr

namespace Access

/-- Index by index, from the first to the last, an access implies what the outermost accesses in the
index imply, each taken once in the order in which they are found, and if there are none the
dimensions in the index, all of them in ascending order. -/
theorem relation_eq_flatMap_indices (a : Access)
    (hcanonical : ∀ index ∈ a.indices, index.Canonical)
    (hfloat : ∀ index ∈ a.indices, index.FloatFree) :
    (a.relation = a.indices.flatMap fun index =>
      if index.hasAccess then index.outerAccesses.flatMap relation else index.dimensions) ∧
    ∀ index ∈ a.indices, Ascending.Strict index.dimensions ∧
      ∀ d, d ∈ index.dimensions ↔ .dim d ∈ index.nodes := by
  constructor
  · rw [relation, Expr.indicesRelation_eq]
    exact List.flatMap_congr fun index hindex =>
      Expr.indexRelation_of_canonical (hcanonical index hindex) (hfloat index hindex)
  · exact fun index _ => ⟨Ascending.strict_ofList _, fun d => Expr.mem_dimensions⟩

/-- The access `v[3 + 2*x, y*x**2, u[y] + 3*c(u[x], t)]`. -/
def scatteredRead : Access :=
  let t := Expr.dim (.root "t" .time)
  let x := Expr.dim (.root "x" .space)
  let y := Expr.dim (.root "y" .space)
  let u (index : Expr) := Expr.access (.bare "u" [.root "x" .space]) [index]
  let c (args : List Expr) := Expr.call (.bare "c" [.root "x" .space, .root "t" .time]) args
  ⟨.bare "v" [.root "x" .space, .root "y" .space, .root "z" .space],
    [.sum [.int 3, .prod [.int 2, x]], .prod [y, .pow x (.int 2)],
      .sum [u y, .prod [.int 3, c [u x, t]]]]⟩

theorem relation_eq_flatMap_indices_scatteredRead :
    (∀ index ∈ scatteredRead.indices, index.Canonical) ∧
    (∀ index ∈ scatteredRead.indices, index.FloatFree) ∧
    (scatteredRead.relation = scatteredRead.indices.flatMap fun index =>
      if index.hasAccess then index.outerAccesses.flatMap relation else index.dimensions) ∧
    ∀ index ∈ scatteredRead.indices, Ascending.Strict index.dimensions ∧
      ∀ d, d ∈ index.dimensions ↔ .dim d ∈ index.nodes := by
  have hcanonical : ∀ index ∈ scatteredRead.indices, index.Canonical := by decide
  have hfloat : ∀ index ∈ scatteredRead.indices, index.FloatFree := by decide
  exact ⟨hcanonical, hfloat, relation_eq_flatMap_indices scatteredRead hcanonical hfloat⟩

end Access

end GridAccess
