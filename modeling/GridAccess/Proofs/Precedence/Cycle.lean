import GridAccess.Proofs.Precedence.Linearization
import Mathlib.Algebra.GroupWithZero.Nat

/-!
Items on cycles. The search from the direct successors of an item comes back to it exactly if it
lies on a cycle, and a linearization that fails reports the items on cycles and no others.

The search keeps two things: what it has seen leads only to what it has seen or has on its stack,
so that no path to the target gets lost, and its fuel exceeds the length of the stack plus the
edges out of what it has not entered. Of the items on cycles none is ever taken, since each one
waits for another.
-/

namespace GridAccess

open Std Ascending

variable {α : Type}

namespace PrecedenceGraph

/-! ### Fuel -/

section

variable [Ord α]

/-- How many edges lead out of items that have not been seen. -/
def unseen (g : PrecedenceGraph α) (seen : List α) : Nat :=
  ((g.successors.filter fun entry => !contains entry.1 seen).map fun entry => entry.2.length).sum

theorem unseen_nil (g : PrecedenceGraph α) : g.unseen [] = g.edgeCount := by
  have hall : (fun entry : α × List α => !contains entry.1 []) = fun _ => true := rfl
  rw [unseen, edgeCount, hall, List.filter_true, List.sum_eq_foldl, List.foldl_map]

/-- Once an item has been seen, the edges out of it no longer count. -/
theorem sum_unseen_insert_le [LawfulEqOrd α] {seen : List α} {a : α} (ha : a ∉ seen)
    (table : List (α × List α)) :
    ((get? a table).getD []).length +
        ((table.filter fun entry => !contains entry.1 (insert a seen)).map
          fun entry => entry.2.length).sum ≤
      ((table.filter fun entry => !contains entry.1 seen).map fun entry => entry.2.length).sum := by
  induction table with
  | nil => exact Nat.le_refl _
  | cons entry table ih =>
      obtain ⟨b, followers⟩ := entry
      by_cases hba : b = a
      · subst hba
        have hnew : contains b (insert b seen) = true :=
          contains_iff.mpr (mem_insert.mpr (.inl rfl))
        have hold : contains b seen = false := by
          rw [Bool.eq_false_iff, ne_eq, contains_iff]
          exact ha
        have hrest := Nat.le_trans (Nat.le_add_left _ _) ih
        simpa [get?_cons_self, List.filter_cons, hnew, hold] using hrest
      · have hsame : contains b (insert a seen) = contains b seen := by
          rw [Bool.eq_iff_iff, contains_iff, contains_iff, mem_insert, or_iff_right hba]
        rw [get?_cons_of_ne (Ne.symm hba), List.filter_cons, List.filter_cons, hsame]
        split
        · rw [List.map_cons, List.map_cons, List.sum_cons, List.sum_cons]
          omega
        · exact ih

theorem length_following_add_unseen_le [LawfulEqOrd α] (g : PrecedenceGraph α) {seen : List α}
    {a : α} (ha : a ∉ seen) :
    (g.following a).length + g.unseen (insert a seen) ≤ g.unseen seen :=
  sum_unseen_insert_le ha g.successors

end

/-! ### The search -/

/-- An edge of the successor table. -/
def Edge [Ord α] (g : PrecedenceGraph α) (a b : α) : Prop := b ∈ g.following a

/-- The target has not been seen, and what has been seen leads to what has been seen or is on the
stack. -/
structure Explored (R : α → α → Prop) (target : α) (stack seen : List α) : Prop where
  not_target : target ∉ seen
  closed : ∀ a ∈ seen, ∀ b, R a b → b ∈ seen ∨ b ∈ stack

namespace Explored

variable {R : α → α → Prop} {target a : α} {stack seen : List α}

/-- A path from what has been seen to the target passes the stack. -/
theorem exists_mem_stack (h : Explored R target stack seen) (ha : a ∈ seen)
    (hpath : Relation.ReflTransGen R a target) :
    ∃ b ∈ stack, Relation.ReflTransGen R b target := by
  induction hpath using Relation.ReflTransGen.head_induction_on with
  | refl => exact absurd ha h.not_target
  | head hab hpath ih =>
      rcases h.closed _ ha _ hab with hb | hb
      · exact ih hb
      · exact ⟨_, hb, hpath⟩

/-- An item that has been seen can be dropped from the stack. -/
theorem drop (h : Explored R target (a :: stack) seen) (ha : a ∈ seen) :
    Explored R target stack seen := by
  refine ⟨h.not_target, fun b hb c hbc => ?_⟩
  rcases h.closed b hb c hbc with hc | hc
  · exact .inl hc
  · rcases List.mem_cons.mp hc with rfl | hc
    · exact .inl ha
    · exact .inr hc

/-- Nothing is lost when it is dropped: what it leads to is reached from the rest of the stack. -/
theorem exists_mem_drop_iff (h : Explored R target (a :: stack) seen) (ha : a ∈ seen) :
    (∃ b ∈ a :: stack, Relation.ReflTransGen R b target) ↔
      ∃ b ∈ stack, Relation.ReflTransGen R b target := by
  rw [List.exists_mem_cons_iff]
  exact or_iff_right_of_imp ((h.drop ha).exists_mem_stack ha)

/-- An item is entered by putting what follows it on the stack. -/
theorem enter [Ord α] [LawfulEqOrd α] (h : Explored R target (a :: stack) seen) (ha : a ≠ target)
    {followers : List α} (hfollowers : ∀ b, R a b → b ∈ followers) :
    Explored R target (followers ++ stack) (insert a seen) := by
  refine ⟨?_, fun b hb c hbc => ?_⟩
  · rw [mem_insert, not_or]
    exact ⟨Ne.symm ha, h.not_target⟩
  · rw [mem_insert, List.mem_append]
    rcases mem_insert.mp hb with rfl | hb
    · exact .inr (.inl (hfollowers c hbc))
    · rcases h.closed b hb c hbc with hc | hc
      · exact .inl (.inr hc)
      · rcases List.mem_cons.mp hc with rfl | hc
        · exact .inl (.inl rfl)
        · exact .inr (.inr hc)

end Explored

/-- A path from an item to another one is not empty and goes on with what follows the item. -/
theorem exists_mem_enter_iff {R : α → α → Prop} {target a : α} {stack followers : List α}
    (ha : a ≠ target) (hfollowers : ∀ b, b ∈ followers ↔ R a b) :
    (∃ b ∈ a :: stack, Relation.ReflTransGen R b target) ↔
      ∃ b ∈ followers ++ stack, Relation.ReflTransGen R b target := by
  rw [List.exists_mem_cons_iff, Relation.ReflTransGen.cases_head_iff, or_iff_right ha]
  simp only [List.mem_append, or_and_right, exists_or, hfollowers]

section

variable [Ord α] [LawfulEqOrd α]

theorem search_eq_true_iff (g : PrecedenceGraph α) {target : α} {fuel : Nat} {stack seen : List α}
    (hfuel : stack.length + g.unseen seen < fuel) (hseen : Explored g.Edge target stack seen) :
    g.search target fuel stack seen = true ↔
      ∃ a ∈ stack, Relation.ReflTransGen g.Edge a target := by
  induction fuel generalizing stack seen with
  | zero => omega
  | succ fuel ih =>
      cases stack with
      | nil => simp [search]
      | cons a stack =>
          rw [List.length_cons] at hfuel
          rw [search]
          by_cases ha : a = target
          · subst ha
            exact iff_of_true (if_pos ReflOrd.compare_self) ⟨a, List.mem_cons_self, .refl⟩
          rw [if_neg fun hcmp => ha (LawfulEqOrd.eq_of_compare hcmp)]
          by_cases hmem : a ∈ seen
          · rw [if_pos (contains_iff.mpr hmem), ih (by omega) (hseen.drop hmem),
              hseen.exists_mem_drop_iff hmem]
          · have hcount := g.length_following_add_unseen_le hmem
            rw [if_neg (mt contains_iff.mp hmem),
              ih (by rw [List.length_append]; omega) (hseen.enter ha fun _ => id),
              exists_mem_enter_iff ha fun _ => Iff.rfl]

/-- With enough fuel the search finds out whether a path leads back, whatever the table is. -/
theorem search_following_eq_true_iff (g : PrecedenceGraph α) (a : α) {fuel : Nat}
    (hfuel : (g.following a).length + g.edgeCount < fuel) :
    g.search a fuel (g.following a) [] = true ↔ Relation.TransGen g.Edge a a := by
  rw [search_eq_true_iff g (by rwa [unseen_nil]) ⟨by simp, by simp⟩, Relation.TransGen.head'_iff]
  rfl

theorem onCycle_iff_transGen (g : PrecedenceGraph α) (a : α) :
    g.onCycle a = true ↔ Relation.TransGen g.Edge a a :=
  search_following_eq_true_iff g a (Nat.lt_succ_self _)

theorem onCycle_iff {g : PrecedenceGraph α} {S N : α → Prop} {R : α → α → Prop}
    (h : g.Describes S N R) (a : α) : g.onCycle a = true ↔ Relation.TransGen R a a := by
  have hedge : g.Edge = R := funext fun a => funext fun b => propext (h.mem_following a b)
  rw [onCycle_iff_transGen, hedge]

end

end PrecedenceGraph

/-! ### What is left over -/

section

variable [Ord α] {N : α → Prop} {R : α → α → Prop}

/-- If an item has been taken, what leads to it stands before it. -/
theorem Greedy.pair_sublist_of_path {order : List α} (h : Greedy N R [] order) {a b : α}
    (hab : Relation.TransGen R a b) (hb : b ∈ order) : [a, b].Sublist order := by
  induction hab using Relation.TransGen.head_induction_on with
  | single hab => simpa using h.pair_sublist hb hab
  | @head a c hac _ ih =>
      have hc : [a, c].Sublist order := by simpa using h.pair_sublist (ih.mem (by simp)) hac
      exact pair_sublist_trans (by simpa using h.nodup List.nodup_nil) hc ih

theorem Greedy.not_mem_of_cycle {order : List α} (h : Greedy N R [] order) {a : α}
    (ha : Relation.TransGen R a a) : a ∉ order := fun hmem =>
  not_pair_sublist_self (by simpa using h.nodup List.nodup_nil) (h.pair_sublist_of_path ha hmem)

variable [LawfulEqOrd α] [TransOrd α] {g : PrecedenceGraph α}

namespace Linearization

theorem consistent_final (h : g.Describes N N R) : Consistent g N R (final g) :=
  (run_spec h (consistent_start h) g.degrees.length).1

/-- An item on a cycle waits for the one before it, which is never taken either. -/
theorem pending_final_pos (h : g.Describes N N R) {a : α} (ha : Relation.TransGen R a a) :
    0 < g.pending (final g).taken a := by
  obtain ⟨p, hap, hpa⟩ := Relation.TransGen.tail'_iff.mp ha
  have hp : p ∉ (final g).taken := (greedy_final h).not_mem_of_cycle (.head' hpa hap)
  rw [Nat.pos_iff_ne_zero, ne_eq, pending_eq_zero_iff h]
  exact fun hall => hp (hall p hpa)

theorem mem_culprits_iff (h : g.Describes N N R) {a : α} :
    a ∈ (final g).culprits g ↔ Relation.TransGen R a a := by
  constructor
  · intro ha
    obtain ⟨entry, hentry, rfl⟩ := List.mem_map.mp ha
    have hcycle := (Bool.and_eq_true_iff.mp (List.mem_filter.mp hentry).2).2
    exact (PrecedenceGraph.onCycle_iff h _).mp hcycle
  · intro ha
    obtain ⟨b, hab, -⟩ := Relation.TransGen.head'_iff.mp ha
    have hdegree := (consistent_final h).degree a (h.mem_of_edge_source hab)
    refine List.mem_map.mpr ⟨_, List.mem_filter.mpr ⟨mem_of_get?_eq_some hdegree, ?_⟩, rfl⟩
    simp [pending_final_pos h ha, (PrecedenceGraph.onCycle_iff h a).mpr ha]

theorem strict_culprits (h : g.Describes N N R) : Strict ((final g).culprits g) :=
  (consistent_final h).degrees_strict.sublist (List.filter_sublist.map _)

end Linearization

/-- A linearization that fails reports the items on cycles in ascending order, and there are some;
what only leads to a cycle or away from one is not reported. -/
theorem linearize_culprits {items : List α} {relations : List (List α)} {culprits : List α}
    (h : linearize items relations = .error culprits) :
    culprits ≠ [] ∧ Strict culprits ∧
      ∀ a, a ∈ culprits ↔ Relation.TransGen (Precedes relations) a a := by
  have hgraph := PrecedenceGraph.describes_ofRelations items relations
  dsimp only [linearize] at h
  split at h
  · cases h
  · next hlength =>
      obtain rfl := Except.error.inj h
      have hmem (a : α) := Linearization.mem_culprits_iff hgraph (a := a)
      refine ⟨?_, Linearization.strict_culprits hgraph, hmem⟩
      intro hnil
      refine Linearization.not_acyclic_of_length_ne hgraph hlength fun a ha => ?_
      simpa [hnil] using (hmem a).mpr ha

end

/-- Two cycles, with one item before them, one between them and one after them. -/
theorem linearize_culprits_two_cycles :
    linearize [6] [[0, 1], [1, 2], [2, 1], [2, 7, 3], [3, 4], [4, 3, 5]] =
        .error [1, 2, 3, 4] ∧
      ∀ a, a ∈ [1, 2, 3, 4] ↔
        Relation.TransGen
          (Precedes [[0, 1], [1, 2], [2, 1], [2, 7, 3], [3, 4], [4, 3, 5]]) a a := by
  have hresult : linearize [6] [[0, 1], [1, 2], [2, 1], [2, 7, 3], [3, 4], [4, 3, 5]] =
      .error [1, 2, 3, 4] := by rfl
  exact ⟨hresult, (linearize_culprits hresult).2.2⟩

end GridAccess
