import GridAccess.Proofs.Ascending
import GridAccess.Proofs.Precedence.Extension

/-!
The graph of relations holds exactly what they say. Which items are keys, which edges there are
and what the degrees count is described once for each way of extending a graph; a graph is
determined by its description.
-/

namespace GridAccess.PrecedenceGraph

open Std Ascending

variable {α : Type} [Ord α]

/-- In how many lists of followers `b` stands. -/
def indegree (g : PrecedenceGraph α) (b : α) : Nat :=
  g.successors.countP fun entry => contains b entry.2

/-- The items `S` have lists of followers and the items `N` have degrees; the edges are `R`. -/
structure Describes (g : PrecedenceGraph α) (S N : α → Prop) (R : α → α → Prop) : Prop where
  successors_strict : Strict (g.successors.map Prod.fst)
  degrees_strict : Strict (g.degrees.map Prod.fst)
  mem_successors : ∀ a, a ∈ g.successors.map Prod.fst ↔ S a
  mem_degrees : ∀ a, a ∈ g.degrees.map Prod.fst ↔ N a
  following_strict : ∀ a, Strict (g.following a)
  mem_following : ∀ a b, b ∈ g.following a ↔ R a b
  mem_of_edge : ∀ a b, R a b → N b
  degree : ∀ b, N b → get? b g.degrees = some (g.indegree b)

namespace Describes

variable {g : PrecedenceGraph α} {S N S' N' : α → Prop} {R R' : α → α → Prop}

theorem congr (h : g.Describes S N R) (hS : ∀ a, S' a ↔ S a) (hN : ∀ a, N' a ↔ N a)
    (hR : ∀ a b, R' a b ↔ R a b) : g.Describes S' N' R' := by
  obtain rfl : S' = S := funext fun a => propext (hS a)
  obtain rfl : N' = N := funext fun a => propext (hN a)
  obtain rfl : R' = R := funext fun a => funext fun b => propext (hR a b)
  exact h

theorem empty : (@PrecedenceGraph.empty α).Describes (fun _ => False) (fun _ => False)
    (fun _ _ => False) where
  successors_strict := List.Pairwise.nil
  degrees_strict := List.Pairwise.nil
  mem_successors _ := List.mem_nil_iff _
  mem_degrees _ := List.mem_nil_iff _
  following_strict _ := List.Pairwise.nil
  mem_following _ _ := List.mem_nil_iff _
  mem_of_edge _ _ h := h
  degree _ h := h.elim

variable [LawfulEqOrd α]

theorem mem_of_edge_source (h : g.Describes S N R) {a b : α} (hab : R a b) : S a := by
  have hb := (h.mem_following a b).mpr hab
  refine (h.mem_successors a).mp (get?_ne_none_iff.mp fun hnone => ?_)
  simp [following, hnone] at hb

theorem indegree_eq_zero (h : g.Describes S N R) {b : α} (hb : ¬ N b) : g.indegree b = 0 := by
  apply List.countP_eq_zero.mpr
  rintro ⟨a, followers⟩ hentry hcontains
  have hfollowing : g.following a = followers := by
    rw [following, get?_of_mem h.successors_strict hentry, Option.getD_some]
  have hedge : b ∈ g.following a := hfollowing ▸ contains_iff.mp hcontains
  exact hb (h.mem_of_edge a b ((h.mem_following a b).mp hedge))

theorem get?_degrees_eq_none (h : g.Describes S N R) {b : α} (hb : ¬ N b) :
    get? b g.degrees = none :=
  get?_eq_none_iff.mpr fun hmem => hb ((h.mem_degrees b).mp hmem)

/-- An item without a degree is one that nothing precedes. -/
theorem getD_degree (h : g.Describes S N R) (b : α) :
    (get? b g.degrees).getD 0 = g.indegree b := by
  by_cases hb : N b
  · rw [h.degree b hb, Option.getD_some]
  · rw [h.get?_degrees_eq_none hb, Option.getD_none, h.indegree_eq_zero hb]

variable [TransOrd α]

/-! ### Items -/

theorem addItem (h : g.Describes S N R) (a : α) :
    (g.addItem a).Describes (fun x => x = a ∨ S x) (fun x => x = a ∨ N x) R := by
  have hfollowing (b : α) : (g.addItem a).following b = g.following b := by
    by_cases hb : b = a
    · subst hb
      simp [PrecedenceGraph.addItem, following, get?_adjust_self h.successors_strict]
    · simp [PrecedenceGraph.addItem, following, get?_adjust_of_ne hb]
  have hindegree (b : α) : (g.addItem a).indegree b = g.indegree b := by
    have hnil : contains b [] = false := rfl
    have hcount := countP_adjust (a := a) (f := id) (p := contains b) hnil h.successors_strict
    exact Nat.add_right_cancel hcount
  refine ⟨?_, ?_, ?_, ?_, ?_, ?_, ?_, ?_⟩
  · rw [PrecedenceGraph.addItem, keys_adjust]
    exact strict_insert h.successors_strict
  · rw [PrecedenceGraph.addItem, keys_adjust]
    exact strict_insert h.degrees_strict
  · intro b
    rw [PrecedenceGraph.addItem, keys_adjust, mem_insert, h.mem_successors]
  · intro b
    rw [PrecedenceGraph.addItem, keys_adjust, mem_insert, h.mem_degrees]
  · intro b
    rw [hfollowing]
    exact h.following_strict b
  · intro b c
    rw [hfollowing]
    exact h.mem_following b c
  · intro b c hbc
    exact .inr (h.mem_of_edge b c hbc)
  · intro b hb
    rw [hindegree]
    by_cases hba : b = a
    · subst hba
      rw [PrecedenceGraph.addItem, get?_adjust_self h.degrees_strict, h.getD_degree, id_eq]
    · simp only [PrecedenceGraph.addItem, get?_adjust_of_ne hba]
      exact h.degree b (hb.resolve_left hba)

theorem addItems (h : g.Describes S N R) (items : List α) :
    (items.foldl PrecedenceGraph.addItem g).Describes (fun x => x ∈ items ∨ S x)
      (fun x => x ∈ items ∨ N x) R := by
  induction items generalizing g S N with
  | nil => exact h.congr (by simp) (by simp) (by simp)
  | cons a items ih =>
      refine (ih (h.addItem a)).congr ?_ ?_ fun _ _ => Iff.rfl
      · intro x
        simp [or_left_comm, or_assoc]
      · intro x
        simp [or_left_comm, or_assoc]

/-! ### Edges -/

/-- A new edge adds one to how often its target is listed, and leaves the other items alone. -/
theorem countP_addNewEdge (h : g.Describes S N R) {before after : α}
    (hnew : after ∉ g.following before) (b : α) :
    (adjust before [] (insert after) g.successors).countP (fun entry => contains b entry.2) =
      g.indegree b + if compare b after = .eq then 1 else 0 := by
  have hcount := countP_adjust (a := before) (f := insert after) (p := contains b)
    (by rfl : contains b [] = false) h.successors_strict
  change _ + (if contains b (g.following before) then 1 else 0) =
    g.indegree b + (if contains b (insert after (g.following before)) then 1 else 0) at hcount
  by_cases hb : b = after
  · subst hb
    have hold : contains b (g.following before) = false := by
      rw [Bool.eq_false_iff, ne_eq, contains_iff]
      exact hnew
    have hinsert : contains b (insert b (g.following before)) = true :=
      contains_iff.mpr (mem_insert.mpr (.inl rfl))
    rw [hold, hinsert] at hcount
    simpa using hcount
  · have hsame : contains b (insert after (g.following before)) =
        contains b (g.following before) := by
      rw [Bool.eq_iff_iff, contains_iff, contains_iff, mem_insert, or_iff_right hb]
    rw [hsame] at hcount
    simpa [hb] using Nat.add_right_cancel hcount

theorem addNewEdge (h : g.Describes S N R) {before after : α} (hbefore : S before)
    (hnew : after ∉ g.following before) :
    Describes
      { successors := adjust before [] (insert after) g.successors
        degrees := adjust after 0 (· + 1) g.degrees }
      S (fun x => x = after ∨ N x) (fun a b => (a = before ∧ b = after) ∨ R a b) := by
  have hkeys : (adjust before [] (insert after) g.successors).map Prod.fst =
      g.successors.map Prod.fst := by
    rw [keys_adjust]
    exact insert_of_mem h.successors_strict ((h.mem_successors before).mpr hbefore)
  have hfollowing (a : α) :
      (get? a (adjust before [] (insert after) g.successors)).getD [] =
        if compare a before = .eq then insert after (g.following a) else g.following a := by
    by_cases ha : a = before
    · subst ha
      simp [following, get?_adjust_self h.successors_strict]
    · simp [following, get?_adjust_of_ne ha, ha]
  refine ⟨?_, ?_, ?_, ?_, ?_, ?_, ?_, ?_⟩
  · rw [hkeys]
    exact h.successors_strict
  · rw [keys_adjust]
    exact strict_insert h.degrees_strict
  · intro a
    rw [hkeys]
    exact h.mem_successors a
  · intro a
    rw [keys_adjust, mem_insert, h.mem_degrees]
  · intro a
    rw [following, hfollowing]
    split
    · exact strict_insert (h.following_strict a)
    · exact h.following_strict a
  · intro a b
    rw [following, hfollowing]
    by_cases ha : a = before
    · simp [ha, h.mem_following]
    · simp [ha, h.mem_following]
  · rintro a b (⟨-, rfl⟩ | hab)
    · exact .inl rfl
    · exact .inr (h.mem_of_edge a b hab)
  · intro b hb
    rw [indegree, h.countP_addNewEdge hnew]
    by_cases hba : b = after
    · subst hba
      rw [get?_adjust_self h.degrees_strict, h.getD_degree, if_pos ReflOrd.compare_self]
    · rw [get?_adjust_of_ne hba, h.degree b (hb.resolve_left hba)]
      simp [hba]

/-- An edge counts once, and no item precedes itself. -/
theorem addEdge (h : g.Describes S N R) {before after : α} (hbefore : S before) :
    (PrecedenceGraph.addEdge before g after).Describes S
      (fun x => (x = after ∧ before ≠ after) ∨ N x)
      (fun a b => (a = before ∧ b = after ∧ a ≠ b) ∨ R a b) := by
  unfold PrecedenceGraph.addEdge
  split
  · next hold =>
      -- The edge would be a loop, or it is there already; the graph stays as it is.
      rw [contains_iff, h.mem_following, LawfulEqOrd.compare_eq_iff_eq] at hold
      refine h.congr (fun _ => Iff.rfl) ?_ ?_
      · intro x
        apply or_iff_right_of_imp
        rintro ⟨rfl, hne⟩
        rcases hold with rfl | hold
        · exact absurd rfl hne
        · exact h.mem_of_edge _ _ hold
      · intro a b
        apply or_iff_right_of_imp
        rintro ⟨rfl, rfl, hne⟩
        rcases hold with rfl | hold
        · exact absurd rfl hne
        · exact hold
  · next hnew =>
      rw [contains_iff, LawfulEqOrd.compare_eq_iff_eq, not_or] at hnew
      have hne : before ≠ after := Ne.symm hnew.1
      refine (h.addNewEdge hbefore hnew.2).congr (fun _ => Iff.rfl) ?_ ?_
      · intro x
        simp [hne]
      · intro a b
        apply or_congr_left
        constructor
        · rintro ⟨ha, hb, -⟩
          exact ⟨ha, hb⟩
        · rintro ⟨rfl, rfl⟩
          exact ⟨rfl, rfl, hne⟩

theorem addEdges (h : g.Describes S N R) {before : α} (hbefore : S before) (rest : List α) :
    (rest.foldl (PrecedenceGraph.addEdge before) g).Describes S
      (fun x => (x ∈ rest ∧ before ≠ x) ∨ N x)
      (fun a b => (a = before ∧ b ∈ rest ∧ a ≠ b) ∨ R a b) := by
  induction rest generalizing g N R with
  | nil => exact h.congr (fun _ => Iff.rfl) (by simp) (by simp)
  | cons c rest ih =>
      refine (ih (h.addEdge hbefore)).congr (fun _ => Iff.rfl) ?_ ?_
      · intro x
        rw [List.mem_cons]
        grind
      · intro a b
        rw [List.mem_cons]
        grind

/-! ### Relations -/

theorem addRelation (h : g.Describes S N R) (relation : List α) :
    (g.addRelation relation).Describes (fun x => x ∈ relation ∨ S x)
      (fun x => x ∈ relation ∨ N x)
      (fun a b => (a ≠ b ∧ [a, b].Sublist relation) ∨ R a b) := by
  induction relation generalizing g S N R with
  | nil => exact h.congr (by simp) (by simp) (by simp)
  | cons c rest ih =>
      refine (ih ((h.addItem c).addEdges (.inl rfl) rest)).congr ?_ ?_ ?_
      · intro x
        simp [or_left_comm, or_assoc]
      · intro x
        by_cases hx : x = c <;> by_cases hrest : x ∈ rest <;> simp [hx, hrest]
      · intro a b
        rw [pair_sublist_cons_iff]
        by_cases hne : a = b <;> simp [hne, or_assoc, or_left_comm]

theorem addRelations (h : g.Describes S N R) (relations : List (List α)) :
    (relations.foldl PrecedenceGraph.addRelation g).Describes
      (fun x => (∃ relation ∈ relations, x ∈ relation) ∨ S x)
      (fun x => (∃ relation ∈ relations, x ∈ relation) ∨ N x)
      (fun a b => Precedes relations a b ∨ R a b) := by
  induction relations generalizing g S N R with
  | nil => exact h.congr (by simp) (by simp) (by simp [Precedes])
  | cons relation relations ih =>
      refine (ih (h.addRelation relation)).congr ?_ ?_ ?_
      · intro x
        simp [or_left_comm, or_assoc]
      · intro x
        simp [or_left_comm, or_assoc]
      · intro a b
        by_cases hne : a = b <;> simp [Precedes, hne, or_left_comm, or_assoc]

end Describes

section

variable [LawfulEqOrd α] [TransOrd α]

theorem describes_ofRelations (items : List α) (relations : List (List α)) :
    (ofRelations items relations).Describes (Mentioned items relations)
      (Mentioned items relations) (Precedes relations) := by
  refine ((Describes.empty.addItems items).addRelations relations).congr ?_ ?_ ?_
  · intro x
    simp [Mentioned, or_comm]
  · intro x
    simp [Mentioned, or_comm]
  · intro a b
    simp

/-- A graph is determined by its items and its edges. -/
theorem Describes.unique {g g' : PrecedenceGraph α} {S N : α → Prop} {R : α → α → Prop}
    (h : g.Describes S N R) (h' : g'.Describes S N R) : g = g' := by
  have hsuccessors : g.successors = g'.successors := by
    apply table_ext h.successors_strict h'.successors_strict
    intro a
    have hfollowing : g.following a = g'.following a := by
      apply (h.following_strict a).ext (h'.following_strict a)
      intro b
      rw [h.mem_following, h'.mem_following]
    have hkey : get? a g.successors = none ↔ get? a g'.successors = none := by
      rw [get?_eq_none_iff, get?_eq_none_iff, h.mem_successors, h'.mem_successors]
    unfold following at hfollowing
    cases ha : get? a g.successors <;> cases ha' : get? a g'.successors <;> simp_all
  have hdegrees : g.degrees = g'.degrees := by
    apply table_ext h.degrees_strict h'.degrees_strict
    intro b
    by_cases hb : N b
    · rw [h.degree b hb, h'.degree b hb, indegree, indegree, hsuccessors]
    · rw [h.get?_degrees_eq_none hb, h'.get?_degrees_eq_none hb]
  cases g
  cases g'
  rw [PrecedenceGraph.mk.injEq]
  exact ⟨hsuccessors, hdegrees⟩

end

end GridAccess.PrecedenceGraph
