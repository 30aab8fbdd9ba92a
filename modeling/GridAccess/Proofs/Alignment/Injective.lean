import GridAccess.Proofs.Alignment.Recursion
import GridAccess.Proofs.Alignment.Shift
import GridAccess.Proofs.Expr.AtomMap

/-!
Different expressions have different stored forms. Alignment keeps every constructor, so only the
shift of an index could make two of them equal. It adds the same constant to the linear forms of
both, and these tell canonical indices apart as long as the uses in them are told apart, which is
the hypothesis for uses that are nested less deep.
-/

namespace GridAccess

namespace Alignment

open GridAccess.Expr (Alike AllNodes CallFree)

/-- An expression in canonical form with accesses only, which can be stored without overflow. -/
structure Alignable (e : Expr) : Prop where
  floatFree : e.FloatFree
  callFree : e.CallFree
  canonical : e.Canonical
  shiftsFit : e.ShiftsFit

theorem Alignable.of_mem_nodes {e n : Expr} (h : Alignable e) (hn : n ∈ e.nodes) : Alignable n where
  floatFree := AllNodes.of_mem_nodes h.floatFree hn
  callFree := AllNodes.of_mem_nodes h.callFree hn
  canonical := AllNodes.of_mem_nodes h.canonical hn
  shiftsFit := AllNodes.of_mem_nodes h.shiftsFit hn

theorem Alignable.of_mem_children {e c : Expr} (h : Alignable e) (hc : c ∈ e.children) :
    Alignable c :=
  h.of_mem_nodes (Expr.mem_nodes_of_mem_children hc)

variable {unitSpacing : Bool}

/-! ### The shape of the stored form -/

theorem atomMap_aligned (unitSpacing : Bool) : AtomMap (aligned unitSpacing) where
  lit n := by rw [aligned]
  sum terms := by rw [aligned]
  prod factors := by rw [aligned]
  isAtom {e} h := by
    cases e with
    | lit | sum | prod => cases h
    | sym | dim | call | access | pow =>
        rw [aligned]
        rfl
  congr := aligned_congr

theorem shape_aligned {e : Expr} (h : e.CallFree) : (aligned unitSpacing e).shape = e.shape := by
  cases e with
  | call f args => cases AllNodes.self h
  | lit | sym | dim => rw [aligned]
  | access | sum | prod | pow =>
      rw [aligned]
      rfl

theorem forall₂_of_mem {α β : Type} {R S : α → β → Prop} {as : List α} {bs : List β}
    (h : List.Forall₂ R as bs) (hRS : ∀ a ∈ as, ∀ b ∈ bs, R a b → S a b) :
    List.Forall₂ S as bs := by
  induction h with
  | nil => exact .nil
  | cons hab _ ih =>
      refine .cons (hRS _ List.mem_cons_self _ List.mem_cons_self hab) (ih ?_)
      exact fun a ha b hb => hRS a (List.mem_cons_of_mem _ ha) b (List.mem_cons_of_mem _ hb)

theorem alike_of_map {g : Expr → Expr} {as bs : List Expr} (h : Alike (as.map g) (bs.map g))
    (hg : ∀ a ∈ as, ∀ b ∈ bs, (g a).same (g b) = true → a.same b = true) : Alike as bs := by
  rw [Alike, List.forall₂_map_left_iff, List.forall₂_map_right_iff] at h
  exact forall₂_of_mem h hg

theorem alike_of_mapIdx {g : Nat → Expr → Expr} {as bs : List Expr}
    (h : Alike (as.mapIdx g) (bs.mapIdx g))
    (hg : ∀ (axis : Nat) (ha : axis < as.length) (hb : axis < bs.length),
      (g axis as[axis]).same (g axis bs[axis]) = true → as[axis].same bs[axis] = true) :
    Alike as bs := by
  obtain ⟨hlength, h⟩ := List.forall₂_iff_get.mp h
  refine List.forall₂_iff_get.mpr ⟨by simpa using hlength, fun axis ha hb => ?_⟩
  refine hg axis ha hb ?_
  simpa using h axis (by simpa using ha) (by simpa using hb)

/-! ### Indices -/

/-- Different expressions with the property have different stored forms. -/
def InjectiveOn (unitSpacing : Bool) (P : Expr → Prop) : Prop :=
  ∀ a b : Expr, P a → P b → (aligned unitSpacing a).same (aligned unitSpacing b) = true →
    a.same b = true

/-- The uses in an index are aligned before it is moved, and this leaves its constant alone. -/
theorem constantTerm_aligned (unitSpacing : Bool) (e : Expr) :
    (aligned unitSpacing e).constantTerm = e.constantTerm := by
  have hatoms := atomMap_aligned unitSpacing
  rw [Expr.constantTerm, Expr.constantTerm, hatoms.summands_eq, List.filterMap_map]
  congr 2
  exact List.filterMap_congr fun t _ => hatoms.literal?_eq t

section

variable {P : Expr → Prop} {f : Field} {axis : Nat} {index : Expr}

theorem form_shift_aligned (hP : InjectiveOn unitSpacing P) (hnodes : AllNodes P index)
    (h : Alignable index)
    (hfits : (Literal.wordOf? (index.constantTerm + f.offset axis)).isSome = true) :
    (shift f axis (aligned unitSpacing index)).form =
      (aligned unitSpacing index).form + (Expr.int (Int64.ofNat (f.offset axis))).form := by
  have hatoms := atomMap_aligned unitSpacing
  refine form_shift ?_ (by rwa [constantTerm_aligned])
  rw [hatoms.summands_eq]
  refine hatoms.regular hP (fun t ht => ?_) (Expr.regular_summands h.canonical h.floatFree)
  cases index with
  | sum ts => exact hnodes.of_mem_children ht
  | _ =>
      obtain rfl := List.mem_singleton.mp ht
      exact hnodes

/-- Different indices stay different where the uses in them do. -/
theorem same_of_shift_aligned_same (hP : InjectiveOn unitSpacing P) {other : Expr}
    (hnodes : AllNodes P index) (hnodes' : AllNodes P other) (h : Alignable index)
    (h' : Alignable other)
    (hfits : (Literal.wordOf? (index.constantTerm + f.offset axis)).isSome = true)
    (hfits' : (Literal.wordOf? (other.constantTerm + f.offset axis)).isSome = true)
    (hsame : (shift f axis (aligned unitSpacing index)).same
      (shift f axis (aligned unitSpacing other)) = true) : index.same other = true := by
  have hshifted := Expr.form_congr hsame
  rw [form_shift_aligned hP hnodes h hfits, form_shift_aligned hP hnodes' h' hfits'] at hshifted
  have hform := (atomMap_aligned unitSpacing).form_injective hP hnodes hnodes'
    (add_right_cancel hshifted)
  exact Expr.same_of_form_eq h.canonical h.floatFree h'.canonical h'.floatFree hform

end

/-! ### Expressions -/

/-- Nodes of an alignable expression are alignable, and uses are nested no deeper in them. -/
def Nested (depth : Nat) (e : Expr) : Prop := Alignable e ∧ e.useDepth < depth

theorem Nested.allNodes {depth : Nat} {e : Expr} (h : Nested depth e) :
    AllNodes (Nested depth) e :=
  fun _ hn => ⟨h.1.of_mem_nodes hn, (Expr.useDepth_le_of_mem_nodes hn).trans_lt h.2⟩

theorem Nested.of_mem_children {depth : Nat} {e c : Expr} (h : Nested depth e)
    (hc : c ∈ e.children) : Nested depth c :=
  h.allNodes c (Expr.mem_nodes_of_mem_children hc)

theorem Nested.pow {depth : Nat} {base exponent : Expr} (h : Nested depth (.pow base exponent)) :
    Nested depth base ∧ Nested depth exponent :=
  ⟨h.of_mem_children List.mem_cons_self,
    h.of_mem_children (List.mem_cons_of_mem _ List.mem_cons_self)⟩

/-- The operands of a use are nested less deep. -/
theorem Nested.index {depth : Nat} {f : Field} {indices : List Expr}
    (h : Nested (depth + 1) (.access f indices)) {index : Expr} (hindex : index ∈ indices) :
    Nested depth index := by
  have hdepth := Expr.useDepth_le_useDepthList hindex
  have hlt : Expr.useDepthList indices + 1 < depth + 1 := h.2
  exact ⟨h.1.of_mem_children hindex, by omega⟩

theorem injectiveOn_nested (unitSpacing : Bool) (depth : Nat) :
    InjectiveOn unitSpacing (Nested depth) := by
  induction depth with
  | zero => exact fun _ _ ha => absurd ha.2 (Nat.not_lt_zero _)
  | succ depth ihdepth =>
      intro a b ha hb h
      have hatoms := atomMap_aligned unitSpacing
      have hshape {a b : Expr} (ha : Nested (depth + 1) a) (hb : Nested (depth + 1) b)
          (h : (aligned unitSpacing a).same (aligned unitSpacing b) = true) :
          a.shape = b.shape := by
        rw [← shape_aligned ha.1.callFree, ← shape_aligned hb.1.callFree]
        exact Expr.shape_eq_of_same h
      -- Down to the outermost uses the same constructors stand on both sides.
      induction a generalizing b with
      | lit m =>
          have heq := hshape ha hb h
          cases b <;> cases heq
          simpa only [hatoms.lit] using h
      | sym | dim =>
          have heq := hshape ha hb h
          cases b <;> cases heq
          simpa only [aligned] using h
      | call f args => cases AllNodes.self ha.1.callFree
      | access f indices =>
          have heq := hshape ha hb h
          cases b <;> cases heq
          next g indices' =>
            rw [aligned_access, aligned_access] at h
            obtain ⟨_, haccess, halike⟩ := Expr.same_access_iff.mp h
            obtain ⟨rfl, rfl⟩ := Expr.access.inj haccess
            refine Expr.same_access _ (alike_of_mapIdx halike fun axis hi hj hsame => ?_)
            have hindex := ha.index (List.getElem_mem hi)
            have hindex' := hb.index (List.getElem_mem hj)
            exact same_of_shift_aligned_same ihdepth hindex.allNodes hindex'.allNodes hindex.1
              hindex'.1 (ha.1.shiftsFit.isSome_wordOf? hi) (hb.1.shiftsFit.isSome_wordOf? hj) hsame
      | sum terms ih =>
          have heq := hshape ha hb h
          cases b <;> cases heq
          rw [hatoms.sum, hatoms.sum] at h
          obtain ⟨_, hsum, halike⟩ := Expr.same_sum_iff.mp h
          obtain rfl := Expr.sum.inj hsum
          refine Expr.same_sum (alike_of_map halike fun x hx y hy => ?_)
          exact ih x hx y (ha.of_mem_children hx) (hb.of_mem_children hy)
      | prod factors ih =>
          have heq := hshape ha hb h
          cases b <;> cases heq
          rw [hatoms.prod, hatoms.prod] at h
          obtain ⟨_, hprod, halike⟩ := Expr.same_prod_iff.mp h
          obtain rfl := Expr.prod.inj hprod
          refine Expr.same_prod (alike_of_map halike fun x hx y hy => ?_)
          exact ih x hx y (ha.of_mem_children hx) (hb.of_mem_children hy)
      | pow base exponent ihb ihe =>
          have heq := hshape ha hb h
          cases b <;> cases heq
          next base' exponent' =>
            rw [aligned, aligned] at h
            obtain ⟨_, _, hpow, hbase, hexponent⟩ := Expr.same_pow_iff.mp h
            obtain ⟨rfl, rfl⟩ := Expr.pow.inj hpow
            exact Expr.same_pow (ihb _ ha.pow.1 hb.pow.1 hbase) (ihe _ ha.pow.2 hb.pow.2 hexponent)

/-- Without replacements alignment computes what the recursion does. -/
theorem alignExpr_same_aligned (unitSpacing : Bool) (e : Expr) :
    (alignExpr ⟨.empty, unitSpacing⟩ e).same (aligned unitSpacing e) = true :=
  alignsUpTo_alignIndex unitSpacing (e.useDepth + 1) e (Nat.le_succ _)

/-- Alignment never makes different accesses equal, nested ones included: two canonical expressions
have the same stored form only if they are the same. -/
theorem alignExpr_injective (unitSpacing : Bool) {a b : Expr} (ha : Alignable a)
    (hb : Alignable b) :
    (alignExpr ⟨.empty, unitSpacing⟩ a == alignExpr ⟨.empty, unitSpacing⟩ b) = true ↔ a = b := by
  constructor
  · intro h
    have haligned : (aligned unitSpacing a).same (aligned unitSpacing b) = true :=
      Expr.same_trans (Expr.same_symm (alignExpr_same_aligned unitSpacing a))
        (Expr.same_trans h (alignExpr_same_aligned unitSpacing b))
    have hnested : Nested (max a.useDepth b.useDepth + 1) a := ⟨ha, by omega⟩
    have hnested' : Nested (max a.useDepth b.useDepth + 1) b := ⟨hb, by omega⟩
    exact ha.floatFree.eq_of_same (injectiveOn_nested unitSpacing _ a b hnested hnested' haligned)
  · rintro rfl
    exact Expr.same_refl _

/-- An axis with two points to the left of the domain. -/
def haloedAxis : Axis := ⟨.root "x" .space, ⟨2, 2⟩, ⟨0, 0⟩⟩

/-- The access `f[p[x] - 2]` if `constant` is -2. -/
def gathered (constant : Int64) : Expr :=
  .access ⟨"f", .function, [haloedAxis]⟩
    [.sum [.int constant, .access ⟨"p", .function, [haloedAxis]⟩ [.dim (.root "x" .space)]]]

/-- The constant of one index cancels, that of the other one does not. -/
theorem alignExpr_injective_gathered :
    Alignable (gathered (-2)) ∧ Alignable (gathered 3) ∧
      ¬ (alignExpr ⟨.empty, true⟩ (gathered (-2)) ==
        alignExpr ⟨.empty, true⟩ (gathered 3)) = true := by
  have ha : Alignable (gathered (-2)) := ⟨by decide, by decide, by decide, by decide⟩
  have hb : Alignable (gathered 3) := ⟨by decide, by decide, by decide, by decide⟩
  refine ⟨ha, hb, (alignExpr_injective true ha hb).not.mpr ?_⟩
  intro heq
  have hsame : (gathered (-2)).same (gathered 3) = true := heq ▸ Expr.same_refl _
  cases hsame

end Alignment

end GridAccess
