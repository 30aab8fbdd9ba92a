import GridAccess.Proofs.Precedence.Cycle
import Mathlib.Order.WellFounded

/-!
The search for a way back, as a loop over a stack and the items that have been entered. It ends from
every state: a round takes an item off the stack, and if it puts items on it, there are no more of
them than edges lead out of the item that is entered. Where it ends says whether a path leads back,
in whatever order the followers of an item are put on the stack.
-/

namespace GridAccess.PrecedenceGraph

open Std Ascending

variable {α : Type} [Ord α]

/-- The items to look at, the next one first, and those that have been entered. -/
structure SearchState (α : Type) where
  stack : List α
  seen : List α

/-- A round of the search while the target is not the next item. -/
inductive SearchStep (g : PrecedenceGraph α) (target : α) :
    SearchState α → SearchState α → Prop where
  | drop {a : α} {stack seen : List α} : a ≠ target → a ∈ seen →
      SearchStep g target ⟨a :: stack, seen⟩ ⟨stack, seen⟩
  | enter {a : α} {stack seen followers : List α} : a ≠ target → a ∉ seen →
      followers.Perm (g.following a) →
      SearchStep g target ⟨a :: stack, seen⟩ ⟨followers ++ stack, insert a seen⟩

/-- The items on the stack and the edges out of items that have not been entered. -/
def workLeft (g : PrecedenceGraph α) (s : SearchState α) : Nat :=
  s.stack.length + g.unseen s.seen

variable {g : PrecedenceGraph α} {target : α} {s s' : SearchState α}

/-- The loop stops at the target or with nothing left to look at. -/
theorem stack_of_not_searchStep (h : ∀ s', ¬ g.SearchStep target s s') :
    s.stack = [] ∨ s.stack.head? = some target := by
  obtain ⟨stack, seen⟩ := s
  cases stack with
  | nil => exact .inl rfl
  | cons a stack =>
      refine .inr (congrArg some ?_)
      by_contra hne
      by_cases hseen : a ∈ seen
      · exact h _ (.drop hne hseen)
      · exact h _ (.enter hne hseen (.refl _))

variable [LawfulEqOrd α]

theorem SearchStep.workLeft_lt (h : g.SearchStep target s s') : g.workLeft s' < g.workLeft s := by
  cases h with
  | drop => exact Nat.add_lt_add_right (Nat.lt_succ_self _) _
  | @enter a stack seen followers _ hnew hfollowers =>
      have hedges := g.length_following_add_unseen_le hnew
      simp only [workLeft, List.length_append, List.length_cons, hfollowers.length_eq]
      omega

theorem wellFounded_searchStep (g : PrecedenceGraph α) (target : α) :
    WellFounded fun s' s => g.SearchStep target s s' :=
  Subrelation.wf (fun h => h.workLeft_lt) (measure g.workLeft).wf

/-- Whether a path leads from the stack to the target does not change. -/
theorem SearchStep.exists_mem_stack_iff (h : g.SearchStep target s s')
    (hs : Explored g.Edge target s.stack s.seen) :
    Explored g.Edge target s'.stack s'.seen ∧
      ((∃ a ∈ s.stack, Relation.ReflTransGen g.Edge a target) ↔
        ∃ a ∈ s'.stack, Relation.ReflTransGen g.Edge a target) := by
  cases h with
  | drop _ hseen => exact ⟨hs.drop hseen, hs.exists_mem_drop_iff hseen⟩
  | enter hne _ hfollowers =>
      exact ⟨hs.enter hne fun _ => hfollowers.mem_iff.mpr,
        exists_mem_enter_iff hne fun _ => hfollowers.mem_iff⟩

theorem exists_mem_stack_iff_of_run (h : Relation.ReflTransGen (g.SearchStep target) s s')
    (hs : Explored g.Edge target s.stack s.seen) :
    Explored g.Edge target s'.stack s'.seen ∧
      ((∃ a ∈ s.stack, Relation.ReflTransGen g.Edge a target) ↔
        ∃ a ∈ s'.stack, Relation.ReflTransGen g.Edge a target) := by
  induction h with
  | refl => exact ⟨hs, Iff.rfl⟩
  | tail _ hstep ih =>
      obtain ⟨hexplored, hiff⟩ := hstep.exists_mem_stack_iff ih.1
      exact ⟨hexplored, ih.2.trans hiff⟩

/-- The search for a way back from `start` ends, whatever the table of successors is, and its answer
is whether a path of at least one edge leads back. -/
theorem onCycle_decides_reachability (g : PrecedenceGraph α) (start : α) :
    (WellFounded fun s' s => g.SearchStep start s s') ∧
    (∀ stack s, stack.Perm (g.following start) →
      Relation.ReflTransGen (g.SearchStep start) ⟨stack, []⟩ s →
      (∀ s', ¬ g.SearchStep start s s') →
      if g.onCycle start then s.stack.head? = some start else s.stack = []) ∧
    (∀ fuel, (g.following start).length + g.edgeCount < fuel →
      g.search start fuel (g.following start) [] = g.onCycle start) ∧
    (g.onCycle start = true ↔ Relation.TransGen g.Edge start start) := by
  refine ⟨g.wellFounded_searchStep start, fun stack s hstack hrun hend => ?_, fun fuel hfuel => ?_,
    g.onCycle_iff_transGen start⟩
  · have hfound : g.onCycle start = true ↔
        ∃ a ∈ s.stack, Relation.ReflTransGen g.Edge a start := by
      rw [← (exists_mem_stack_iff_of_run hrun ⟨by simp, by simp⟩).2, onCycle_iff_transGen,
        Relation.TransGen.head'_iff]
      exact exists_congr fun a => and_congr_left' hstack.mem_iff.symm
    rcases stack_of_not_searchStep hend with hnil | hhead
    · rw [if_neg (by simp [hfound, hnil])]
      exact hnil
    · rwa [if_pos (hfound.mpr ⟨start, List.mem_of_mem_head? hhead, .refl⟩)]
  · rw [Bool.eq_iff_iff, search_following_eq_true_iff g start hfuel, onCycle_iff_transGen]

/-- A cycle of two items that is reached from 1, and an item without an entry. -/
def lacking : PrecedenceGraph Nat := ⟨[(1, [2, 4]), (2, [3, 4]), (3, [2])], []⟩

theorem onCycle_decides_reachability_lacking :
    lacking.onCycle 1 = false ∧ ¬ Relation.TransGen lacking.Edge 1 1 ∧
      Relation.TransGen lacking.Edge 2 2 := by
  obtain ⟨-, hends, -, hpath⟩ := lacking.onCycle_decides_reachability 1
  have hrun : Relation.ReflTransGen (lacking.SearchStep 1) ⟨[4, 2], []⟩ ⟨[], [2, 3, 4]⟩ := by
    refine .head (.enter (by decide) (by decide) (.refl [])) ?_
    refine .head (.enter (by decide) (by decide) (.swap 3 4 [])) ?_
    refine .head (.drop (by decide) (by decide)) ?_
    refine .head (.enter (by decide) (by decide) (.refl [2])) ?_
    exact .single (.drop (by decide) (by decide))
  have hend := hends [4, 2] _ (.swap 2 4 []) hrun fun s' h => by cases h
  have hfalse : lacking.onCycle 1 = false := by
    rw [Bool.eq_false_iff]
    intro htrue
    rw [if_pos htrue] at hend
    cases hend
  exact ⟨hfalse, by simp [← hpath, hfalse],
    (lacking.onCycle_decides_reachability 2).2.2.2.mp (by decide)⟩

end GridAccess.PrecedenceGraph
