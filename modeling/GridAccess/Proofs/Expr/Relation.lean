import GridAccess.Expr.Relation
import GridAccess.Proofs.Ascending
import GridAccess.Proofs.Expr.Affine
import GridAccess.Proofs.Expr.Search
import GridAccess.Proofs.Order

/-!
What an access implies for the order of iteration: equal accesses imply the same, and only
dimensions that occur in the indices are involved.
-/

namespace GridAccess

open GridAccess.Expr (Alike sameInduction)

namespace Expr

/-! ### Equal expressions -/

theorem alike_nodes {a b : Expr} (h : a.same b = true) : Alike a.nodes b.nodes := by
  have hlist {as bs : List Expr} (ih : List.Forall₂ (fun a b => Alike a.nodes b.nodes) as bs)
      {m n : Expr} (hmn : m.same n = true) :
      Alike (nodesList as ++ [m]) (nodesList bs ++ [n]) := by
    refine List.rel_append ?_ (.cons hmn .nil)
    induction ih with
    | nil => exact .nil
    | cons hhead _ ih => exact List.rel_append hhead ih
  apply sameInduction (motive := fun a b => Alike a.nodes b.nodes) (h := h)
  case lit => exact fun hmn => .cons (same_lit hmn) .nil
  case sym => exact fun s => .cons (same_refl _) .nil
  case dim => exact fun d => .cons (same_refl _) .nil
  case call => exact fun f as bs hs ih => hlist ih (same_call f hs)
  case access => exact fun f as bs hs ih => hlist ih (same_access f hs)
  case sum => exact fun hs ih => hlist ih (same_sum hs)
  case prod => exact fun hs ih => hlist ih (same_prod hs)
  case pow =>
    intro base exponent base' exponent' hbase hexponent ihb ihe
    exact List.rel_append (List.rel_append ihb ihe) (.cons (same_pow hbase hexponent) .nil)

theorem dim?_congr {a b : Expr} (h : a.same b = true) : a.dim? = b.dim? := by
  apply sameInduction (motive := fun a b => a.dim? = b.dim?) (h := h) <;> intros <;> rfl

theorem filterMap_congr_of_alike {α : Type} {g : Expr → Option α}
    (hg : ∀ {a b}, a.same b = true → g a = g b) {as bs : List Expr} (h : Alike as bs) :
    as.filterMap g = bs.filterMap g := by
  induction h with
  | nil => rfl
  | cons hhead _ ih => rw [List.filterMap_cons, List.filterMap_cons, hg hhead, ih]

theorem dimensions_congr {a b : Expr} (h : a.same b = true) : a.dimensions = b.dimensions := by
  rw [dimensions, dimensions, filterMap_congr_of_alike dim?_congr (alike_nodes h)]

/-- Equal accesses that imply the same. -/
def SameImplied (p q : Access × List Dimension) : Prop :=
  (p.1 == q.1) = true ∧ p.2 = q.2

theorem beq_congr_of_sameImplied {p q p' q' : Access × List Dimension} (hp : SameImplied p p')
    (hq : SameImplied q q') : (p.1 == q.1) = (p'.1 == q'.1) := by
  rw [beq_access_eq_same, beq_access_eq_same]
  have hp := (beq_access_eq_same _ _).symm.trans hp.1
  have hq := (beq_access_eq_same _ _).symm.trans hq.1
  rw [Bool.eq_iff_iff]
  constructor
  · intro h
    exact same_trans (same_symm hp) (same_trans h hq)
  · intro h
    exact same_trans hp (same_trans h (same_symm hq))

theorem flatMap_snd_congr {inner inner' : List (Access × List Dimension)}
    (h : List.Forall₂ SameImplied inner inner') :
    inner.flatMap Prod.snd = inner'.flatMap Prod.snd := by
  induction h with
  | nil => rfl
  | cons hhead _ ih => rw [List.flatMap_cons, List.flatMap_cons, hhead.2, ih]

/-- The dimension that an index is affine in. -/
def affineDim? (e : Expr) : Option Dimension :=
  e.affine?.bind fun p => p.generator.bind dim?

theorem affineDim?_congr {a b : Expr} (h : a.same b = true) : a.affineDim? = b.affineDim? := by
  rw [affineDim?, affineDim?]
  rcases rel_cases (affine?_congr h) with ⟨ha, hb⟩ | ⟨p, q, ha, hb, hpq⟩ <;> rw [ha, hb]
  rw [Option.bind_some, Option.bind_some]
  rcases rel_cases hpq.generator with ⟨hp, hq⟩ | ⟨g, g', hp, hq, hg⟩ <;> rw [hp, hq]
  exact dim?_congr hg

theorem mem_nodes_of_affineDim? {e : Expr} {d : Dimension} (h : e.affineDim? = some d) :
    .dim d ∈ e.nodes := by
  obtain ⟨⟨generator, c, shift⟩, hp, h⟩ := Option.bind_eq_some_iff.mp h
  obtain ⟨g, hg, h⟩ := Option.bind_eq_some_iff.mp h
  obtain rfl : generator = some g := hg
  cases g with
  | dim d' =>
      obtain rfl := Option.some.inj h
      exact (generator_of_affine? hp).1
  | _ => cases h

theorem indexRelation_eq (index : Expr) (inner : List (Access × List Dimension)) :
    indexRelation index inner =
      match index.affineDim?, inner with
      | some d, _ => [d]
      | none, [] => index.dimensions
      | none, inner => inner.flatMap Prod.snd := by
  unfold indexRelation affineDim?
  rcases index.affine? with _ | ⟨_ | g, c, shift⟩
  · cases inner <;> rfl
  · cases inner <;> rfl
  · cases g <;> cases inner <;> rfl

theorem indexRelation_congr {a b : Expr} {inner inner' : List (Access × List Dimension)}
    (h : a.same b = true) (hinner : List.Forall₂ SameImplied inner inner') :
    indexRelation a inner = indexRelation b inner' := by
  rw [indexRelation_eq, indexRelation_eq, affineDim?_congr h]
  cases b.affineDim? with
  | some d => rfl
  | none =>
      cases hinner with
      | nil => exact dimensions_congr h
      | cons hhead htail => exact flatMap_snd_congr (.cons hhead htail)

theorem outerRelationsList_eq (es : List Expr) :
    outerRelationsList es = es.flatMap outerRelations := by
  induction es with
  | nil => rfl
  | cons e es ih => exact congrArg (e.outerRelations ++ ·) ih

/-- The outermost accesses in an index, each of them once. -/
def innerRelations (index : Expr) : List (Access × List Dimension) :=
  index.outerRelations.eraseDupsBy fun p q => p.1 == q.1

theorem indicesRelation_eq (es : List Expr) :
    indicesRelation es = es.flatMap fun e => indexRelation e e.innerRelations := by
  induction es with
  | nil => rfl
  | cons e es ih => exact congrArg (indexRelation e e.innerRelations ++ ·) ih

theorem innerRelations_congr {a b : Expr}
    (h : List.Forall₂ SameImplied a.outerRelations b.outerRelations) :
    List.Forall₂ SameImplied a.innerRelations b.innerRelations :=
  rel_eraseDupsBy (R := SameImplied) (fun hp hq => beq_congr_of_sameImplied hp hq) h

theorem indicesRelation_congr {as bs : List Expr} (h : Alike as bs)
    (ih : List.Forall₂ (fun a b => List.Forall₂ SameImplied a.outerRelations b.outerRelations)
      as bs) : indicesRelation as = indicesRelation bs := by
  induction h with
  | nil => rfl
  | cons hab _ ih' =>
      cases ih with
      | cons hhead htail =>
          rw [indicesRelation_eq, indicesRelation_eq] at ih' ⊢
          rw [List.flatMap_cons, List.flatMap_cons, ih' htail,
            indexRelation_congr hab (innerRelations_congr hhead)]

theorem outerRelations_congr {a b : Expr} (h : a.same b = true) :
    List.Forall₂ SameImplied a.outerRelations b.outerRelations := by
  have hlist {as bs : List Expr}
      (ih : List.Forall₂ (fun a b => List.Forall₂ SameImplied a.outerRelations b.outerRelations)
        as bs) :
      List.Forall₂ SameImplied (outerRelationsList as) (outerRelationsList bs) := by
    induction ih with
    | nil => exact .nil
    | cons hhead _ ih => exact List.rel_append hhead ih
  apply sameInduction (motive := fun a b =>
    List.Forall₂ SameImplied a.outerRelations b.outerRelations) (h := h)
  case access =>
    intro f as bs hs ih
    refine .cons ⟨?_, indicesRelation_congr hs ih⟩ .nil
    exact (beq_access_eq_same ⟨f, as⟩ ⟨f, bs⟩).trans (same_access f hs)
  case call => exact fun f as bs _ ih => hlist ih
  case sum => exact fun _ ih => hlist ih
  case prod => exact fun _ ih => hlist ih
  case pow => exact fun _ _ ihb ihe => List.rel_append ihb ihe
  all_goals
    intros
    exact .nil

theorem outerRelations_eq (e : Expr) :
    e.outerRelations = e.outermost.map fun a => (a, a.relation) := by
  have hlist {es : List Expr} (ih : ∀ e ∈ es,
      e.outerRelations = e.outermost.map fun a => (a, a.relation)) :
      outerRelationsList es = (outermostList es).map fun a => (a, a.relation) := by
    rw [outerRelationsList_eq, outermostList_eq, List.map_flatMap, List.flatMap_congr ih]
  induction e with
  | lit | sym | dim | access => rfl
  | call f es ih => exact hlist ih
  | sum es ih => exact hlist ih
  | prod es ih => exact hlist ih
  | pow base exponent ihb ihe =>
      rw [outerRelations, ihb, ihe, outermost, List.map_append]

/-! ### Dimensions of a relation -/

theorem mem_dimensions {e : Expr} {d : Dimension} : d ∈ e.dimensions ↔ .dim d ∈ e.nodes := by
  rw [dimensions, Ascending.mem_ofList, List.mem_filterMap]
  constructor
  · rintro ⟨n, hn, hd⟩
    cases n with
    | dim c =>
        obtain rfl := Option.some.inj hd
        exact hn
    | _ => cases hd
  · intro h
    exact ⟨_, h, rfl⟩

/-- Only dimensions in the expression are implied by accesses in it. -/
def ImpliesOwn (e : Expr) (inner : List (Access × List Dimension)) : Prop :=
  ∀ p ∈ inner, ∀ d ∈ p.2, .dim d ∈ e.nodes

theorem mem_nodes_of_mem_indexRelation {e : Expr} {inner : List (Access × List Dimension)}
    (hinner : ImpliesOwn e inner) {d : Dimension} (h : d ∈ indexRelation e inner) :
    .dim d ∈ e.nodes := by
  rw [indexRelation_eq] at h
  cases haffine : e.affineDim? with
  | some c =>
      rw [haffine] at h
      obtain rfl := List.mem_singleton.mp h
      exact mem_nodes_of_affineDim? haffine
  | none =>
      rw [haffine] at h
      cases inner with
      | nil => exact mem_dimensions.mp h
      | cons p inner =>
          obtain ⟨q, hq, hd⟩ := List.mem_flatMap.mp h
          exact hinner q hq d hd

theorem exists_mem_of_mem_indicesRelation {es : List Expr}
    (hes : ∀ e ∈ es, ImpliesOwn e e.outerRelations) {d : Dimension}
    (h : d ∈ indicesRelation es) : ∃ e ∈ es, .dim d ∈ e.nodes := by
  rw [indicesRelation_eq] at h
  obtain ⟨e, he, hd⟩ := List.mem_flatMap.mp h
  refine ⟨e, he, mem_nodes_of_mem_indexRelation ?_ hd⟩
  intro p hp
  exact hes e he p (mem_of_mem_eraseDupsBy hp)

theorem impliesOwn_outerRelations (e : Expr) : ImpliesOwn e e.outerRelations := by
  have hlist {node : Expr} {es : List Expr} (hes : ∀ e ∈ es, ∀ m ∈ e.nodes, m ∈ node.nodes)
      (ih : ∀ e ∈ es, ImpliesOwn e e.outerRelations) :
      ImpliesOwn node (outerRelationsList es) := by
    rw [outerRelationsList_eq]
    intro p hp d hd
    obtain ⟨e, he, hp⟩ := List.mem_flatMap.mp hp
    exact hes e he _ (ih e he p hp d hd)
  induction e with
  | lit | sym | dim =>
      intro p hp
      cases hp
  | call f es ih => exact hlist (fun e he m hm => mem_nodes_call.mpr (.inr ⟨e, he, hm⟩)) ih
  | access f es ih =>
      intro p hp d hd
      obtain rfl := List.mem_singleton.mp hp
      obtain ⟨e, he, hd⟩ := exists_mem_of_mem_indicesRelation ih hd
      exact mem_nodes_access.mpr (.inr ⟨e, he, hd⟩)
  | sum es ih => exact hlist (fun e he m hm => mem_nodes_sum.mpr (.inr ⟨e, he, hm⟩)) ih
  | prod es ih => exact hlist (fun e he m hm => mem_nodes_prod.mpr (.inr ⟨e, he, hm⟩)) ih
  | pow base exponent ihb ihe =>
      intro p hp d hd
      rcases List.mem_append.mp hp with hp | hp
      · exact mem_nodes_pow.mpr (.inr (.inl (ihb p hp d hd)))
      · exact mem_nodes_pow.mpr (.inr (.inr (ihe p hp d hd)))

end Expr

namespace Access

/-- Equal accesses imply the same order. -/
theorem relation_congr {a b : Access} (h : (a == b) = true) : a.relation = b.relation := by
  have hs : Alike a.indices b.indices :=
    Expr.sameList_iff.mp (Bool.and_eq_true_iff.mp h).2
  exact Expr.indicesRelation_congr hs (hs.imp fun _ _ => Expr.outerRelations_congr)

theorem mem_nodes_of_mem_relation {a : Access} {d : Dimension} (h : d ∈ a.relation) :
    .dim d ∈ a.toExpr.nodes := by
  obtain ⟨e, he, hd⟩ := Expr.exists_mem_of_mem_indicesRelation
    (fun e _ => e.impliesOwn_outerRelations) h
  exact Expr.mem_nodes_access.mpr (.inr ⟨e, he, hd⟩)

end Access

end GridAccess
