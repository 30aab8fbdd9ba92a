import GridAccess.Precedence.Linearization
import Mathlib.Logic.Relation
import Mathlib.Order.Defs.PartialOrder

/-!
Linear extensions of the order that relations give. Taking the smallest item whose predecessors
have all been taken leads to the least extension: another extension that keeps to the same items
up to some position has an item there that could have been taken as well.
-/

namespace GridAccess

open Std

variable {α : Type}

/-- Some relation has `a` before a different `b`. -/
def Precedes (relations : List (List α)) (a b : α) : Prop :=
  a ≠ b ∧ ∃ relation ∈ relations, [a, b].Sublist relation

def Mentioned (items : List α) (relations : List (List α)) (a : α) : Prop :=
  a ∈ items ∨ ∃ relation ∈ relations, a ∈ relation

def Acyclic (R : α → α → Prop) : Prop := ∀ a, ¬ Relation.TransGen R a a

/-- The items in `N`, each of them once, in an order that keeps `R`. -/
structure IsExtension (N : α → Prop) (R : α → α → Prop) (order : List α) : Prop where
  nodup : order.Nodup
  mem_iff : ∀ a, a ∈ order ↔ N a
  ordered : ∀ a b, R a b → [a, b].Sublist order

/-! ### Pairs in a list -/

theorem pair_sublist_cons_iff {a b x : α} {xs : List α} :
    [a, b].Sublist (x :: xs) ↔ (a = x ∧ b ∈ xs) ∨ [a, b].Sublist xs := by
  constructor
  · intro h
    cases h with
    | cons _ h => exact .inr h
    | cons_cons _ h => exact .inl ⟨rfl, List.singleton_sublist.mp h⟩
  · rintro (⟨rfl, hb⟩ | h)
    · exact (List.singleton_sublist.mpr hb).cons_cons a
    · exact h.cons x

theorem pair_sublist_trans {a b c : α} {xs : List α} (hnodup : xs.Nodup)
    (hab : [a, b].Sublist xs) (hbc : [b, c].Sublist xs) : [a, c].Sublist xs := by
  induction xs with
  | nil => cases hab
  | cons x xs ih =>
      obtain ⟨hx, hxs⟩ := List.nodup_cons.mp hnodup
      have hmem {d e : α} (h : [d, e].Sublist xs) : e ∈ xs := h.mem (by simp)
      rcases pair_sublist_cons_iff.mp hab with ⟨ha, hb⟩ | hab'
      · rcases pair_sublist_cons_iff.mp hbc with ⟨rfl, -⟩ | hbc'
        · exact absurd hb hx
        · exact pair_sublist_cons_iff.mpr (.inl ⟨ha, hmem hbc'⟩)
      · rcases pair_sublist_cons_iff.mp hbc with ⟨rfl, -⟩ | hbc'
        · exact absurd (hmem hab') hx
        · exact pair_sublist_cons_iff.mpr (.inr (ih hxs hab' hbc'))

theorem not_pair_sublist_self {a : α} {xs : List α} (hnodup : xs.Nodup) :
    ¬ [a, a].Sublist xs := by
  intro h
  have hpair := hnodup.sublist h
  simp at hpair

/-- What stands before an element of a list without repetitions. -/
theorem mem_of_pair_sublist_split {a b : α} {before after : List α}
    (hnodup : (before ++ b :: after).Nodup) (h : [a, b].Sublist (before ++ b :: after)) :
    a ∈ before := by
  induction before with
  | nil =>
      obtain ⟨hb, -⟩ := List.nodup_cons.mp hnodup
      rcases pair_sublist_cons_iff.mp h with ⟨-, hb'⟩ | h
      · exact absurd hb' hb
      · exact absurd (h.mem (by simp)) hb
  | cons x before ih =>
      obtain ⟨-, hrest⟩ := List.nodup_cons.mp hnodup
      rcases pair_sublist_cons_iff.mp h with ⟨rfl, -⟩ | h
      · exact List.mem_cons_self
      · exact List.mem_cons_of_mem _ (ih hrest h)

/-! ### Cycles -/

theorem IsExtension.pair_sublist {N : α → Prop} {R : α → α → Prop} {order : List α}
    (h : IsExtension N R order) {a b : α} (hab : Relation.TransGen R a b) :
    [a, b].Sublist order := by
  induction hab with
  | single hab => exact h.ordered _ _ hab
  | tail _ hbc ih => exact pair_sublist_trans h.nodup ih (h.ordered _ _ hbc)

theorem IsExtension.acyclic {N : α → Prop} {R : α → α → Prop} {order : List α}
    (h : IsExtension N R order) : Acyclic R :=
  fun _ hcycle => not_pair_sublist_self h.nodup (h.pair_sublist hcycle)

/-- A key that increases along `R` rules out cycles. -/
theorem acyclic_of_key_lt {β : Type} [Preorder β] {R : α → α → Prop} (key : α → β)
    (h : ∀ a b, R a b → key a < key b) : Acyclic R := by
  intro a hcycle
  have hlt : Relation.TransGen (· < ·) (key a) (key a) := hcycle.lift key h
  rw [Relation.transGen_eq_self] at hlt
  exact lt_irrefl _ hlt

/-- Among finitely many items there is one that none of them precedes. -/
theorem Acyclic.exists_minimal {R : α → α → Prop} (h : Acyclic R) {xs : List α} (hxs : xs ≠ []) :
    ∃ m ∈ xs, ∀ x ∈ xs, ¬ Relation.TransGen R x m := by
  induction xs with
  | nil => exact absurd rfl hxs
  | cons a xs ih =>
      by_cases hrest : xs = []
      · subst hrest
        exact ⟨a, List.mem_cons_self, by simpa using h a⟩
      · obtain ⟨m, hm, hmin⟩ := ih hrest
        by_cases ham : Relation.TransGen R a m
        · -- What precedes `a` precedes `m`, so nothing in the rest does.
          refine ⟨a, List.mem_cons_self, ?_⟩
          intro x hx hxa
          rcases List.mem_cons.mp hx with rfl | hx
          · exact h x hxa
          · exact hmin x hx (hxa.trans ham)
        · refine ⟨m, List.mem_cons_of_mem _ hm, ?_⟩
          intro x hx
          rcases List.mem_cons.mp hx with rfl | hx
          · exact ham
          · exact hmin x hx

/-! ### Taking the smallest item that is ready -/

/-- After `done`, `a` may come next. -/
structure Ready (N : α → Prop) (R : α → α → Prop) (done : List α) (a : α) : Prop where
  mem : N a
  not_done : a ∉ done
  done_of_pred : ∀ p, R p a → p ∈ done

theorem IsExtension.ready {N : α → Prop} {R : α → α → Prop} {done rest : List α} {a : α}
    (h : IsExtension N R (done ++ a :: rest)) : Ready N R done a where
  mem := (h.mem_iff a).mp (by simp)
  not_done := by
    have hdisjoint := (List.nodup_append.mp h.nodup).2.2
    intro ha
    exact hdisjoint a ha a List.mem_cons_self rfl
  done_of_pred p hp := mem_of_pair_sublist_split h.nodup (h.ordered p a hp)

section

variable [Ord α]

/-- After `done`, the items are taken in turn, each time the smallest one that is ready. -/
def Greedy (N : α → Prop) (R : α → α → Prop) : List α → List α → Prop
  | _, [] => True
  | done, a :: rest =>
    (Ready N R done a ∧ ∀ b, Ready N R done b → (compare a b).isLE = true) ∧
      Greedy N R (done ++ [a]) rest

theorem Greedy.nodup {N : α → Prop} {R : α → α → Prop} {done order : List α}
    (h : Greedy N R done order) (hdone : done.Nodup) : (done ++ order).Nodup := by
  induction order generalizing done with
  | nil => simpa using hdone
  | cons a order ih =>
      have hdone' : (done ++ [a]).Nodup := by
        refine List.nodup_append.mpr ⟨hdone, by simp, ?_⟩
        rintro b hb c hc rfl
        obtain rfl := List.mem_singleton.mp hc
        exact h.1.1.not_done hb
      simpa using ih h.2 hdone'

theorem Greedy.mem {N : α → Prop} {R : α → α → Prop} {done order : List α}
    (h : Greedy N R done order) : ∀ a ∈ order, N a := by
  induction order generalizing done with
  | nil => simp
  | cons a order ih => exact List.forall_mem_cons.mpr ⟨h.1.1.mem, ih h.2⟩

theorem Greedy.pair_sublist {N : α → Prop} {R : α → α → Prop} {done order : List α}
    (h : Greedy N R done order) {a b : α} (hb : b ∈ order) (hab : R a b) :
    [a, b].Sublist (done ++ order) := by
  induction order generalizing done with
  | nil => cases hb
  | cons c order ih =>
      by_cases hbc : b = c
      · subst hbc
        have ha : a ∈ done := h.1.1.done_of_pred a hab
        exact (List.singleton_sublist.mpr ha).append (List.singleton_sublist.mpr List.mem_cons_self)
      · have htail := ih h.2 ((List.mem_cons.mp hb).resolve_left hbc)
        simpa using htail

/-- If nothing is left over the result is an extension. -/
theorem Greedy.isExtension {N : α → Prop} {R : α → α → Prop} {order : List α}
    (h : Greedy N R [] order) (hall : ∀ a, N a → a ∈ order) (hR : ∀ a b, R a b → N b) :
    IsExtension N R order where
  nodup := by simpa using h.nodup List.nodup_nil
  mem_iff a := ⟨h.mem a, hall a⟩
  ordered a b hab := by simpa using h.pair_sublist (hall b (hR a b hab)) hab

/-- Items that are taken greedily still are if more is asked of them that their order keeps. -/
theorem Greedy.of_isExtension {N N' : α → Prop} {R R' : α → α → Prop} {done order : List α}
    (h : Greedy N R done order) (hext : IsExtension N' R' (done ++ order))
    (hready : ∀ {done a}, Ready N' R' done a → Ready N R done a) : Greedy N' R' done order := by
  induction order generalizing done with
  | nil => trivial
  | cons a order ih =>
      refine ⟨⟨hext.ready, fun b hb => h.1.2 b (hready hb)⟩, ih h.2 ?_⟩
      simpa using hext

theorem Greedy.compare_isLE [TransOrd α] [LawfulEqOrd α] {N : α → Prop} {R : α → α → Prop}
    {done order other : List α} (h : Greedy N R done order)
    (hother : IsExtension N R (done ++ other)) : (compare order other).isLE = true := by
  induction order generalizing done other with
  | nil => exact List.isLE_compareLex_nil_left
  | cons a order ih =>
      cases other with
      | nil =>
          -- The other extension is at its end, so `a` would have been taken before.
          have ha : a ∈ done := by simpa using (hother.mem_iff a).mpr h.1.1.mem
          exact absurd ha h.1.1.not_done
      | cons b other =>
          have hle := h.1.2 b hother.ready
          rw [List.compare_eq_compareLex, List.compareLex_cons_cons]
          cases hcmp : compare a b with
          | lt => rfl
          | eq =>
              obtain rfl := LawfulEqOrd.eq_of_compare hcmp
              exact ih h.2 (by simpa using hother)
          | gt =>
              rw [hcmp] at hle
              cases hle

end

end GridAccess
