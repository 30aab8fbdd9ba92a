import GridAccess.Proofs.Equation.LoopOrder
import Mathlib.Data.Prod.Lex

/-!
Constraints that agree with a ranking of the roots. If each access and the implicit dimensions go
from lower to higher roots, and within the chain of one root away from it, then so do the
constraints that are added to them: a parent is one link nearer to the root than its child, and the
roots of a relation are ranked as its dimensions are. The place of a dimension is thus a key that
increases along all constraints, and there is no contradiction among them.
-/

namespace GridAccess

namespace Equation

variable {eq : Equation} {ρ : Type} [LinearOrder ρ] {rank : Dimension → ρ}

/-- By the rank of the root, then by the distance from it. -/
def place (rank : Dimension → ρ) (d : Dimension) : ρ ×ₗ Nat :=
  toLex (rank d.top, d.ancestors.length)

/-- The same dimension again, or one at a higher place. -/
def Ascends (rank : Dimension → ρ) (a b : Dimension) : Prop := a = b ∨ place rank a < place rank b

instance : DecidableRel (Ascends rank) := fun a b =>
  inferInstanceAs (Decidable (a = b ∨ place rank a < place rank b))

/-- The roots have different ranks, and accesses and implicit dimensions keep to them. -/
structure Ranking (eq : Equation) (rank : Dimension → ρ) : Prop where
  distinct : Set.InjOn rank {d | eq.Ordered d ∧ d.parent? = none}
  ascends : ∀ relation, eq.AccessConstraint relation → relation.IsChain (Ascends rank)

instance : IsTrans Dimension (Ascends rank) where
  trans := by
    rintro a b c (rfl | hab) (rfl | hbc)
    · exact .inl rfl
    · exact .inr hbc
    · exact .inr hab
    · exact .inr (hab.trans hbc)

theorem place_top_lt {a b : Dimension} (h : rank a.top < rank b.top) :
    place rank a.top < place rank b.top := by
  apply Prod.Lex.toLex_lt_toLex.mpr
  left
  simpa using h

theorem place_parent_lt {d p : Dimension} (h : d.parent? = some p) :
    place rank p < place rank d := by
  cases d with
  | root => cases h
  | derived n k q =>
      obtain rfl := Option.some.inj h
      apply Prod.Lex.toLex_lt_toLex.mpr
      right
      exact ⟨rfl, Nat.lt_succ_self _⟩

namespace Ranking

/-- Roots ascend where the dimensions do. -/
theorem ascends_top (h : eq.Ranking rank) {a b : Dimension} (ha : eq.Ordered a) (hb : eq.Ordered b)
    (hab : Ascends rank a b) : Ascends rank a.top b.top := by
  rcases hab with rfl | hab
  · exact .inl rfl
  · -- A higher place has a higher root, or is farther from a root of the same rank.
    rcases Prod.Lex.toLex_lt_toLex.mp hab with hlt | ⟨heq, -⟩
    · exact .inr (place_top_lt hlt)
    · exact .inl (h.distinct ⟨ha.top, a.parent?_top⟩ ⟨hb.top, b.parent?_top⟩ heq)

theorem pairwise_ascends (h : eq.Ranking rank) {relation : List Dimension}
    (hrelation : eq.Constraint relation) : relation.Pairwise (Ascends rank) := by
  cases hrelation with
  | direct haccess => exact (h.ascends _ haccess).pairwise
  | @roots relation haccess =>
      have hpairs := (h.ascends _ haccess).pairwise
      refine List.pairwise_map.mpr (hpairs.imp_of_mem ?_)
      intro a b ha hb hab
      exact h.ascends_top (haccess.ordered a ha) (haccess.ordered b hb) hab
  | parent _ hp => exact List.pairwise_pair.mpr (.inr (place_parent_lt hp))

theorem place_lt_of_forces (h : eq.Ranking rank) {a b : Dimension} (hab : eq.Forces a b) :
    place rank a < place rank b := by
  obtain ⟨hne, relation, hrelation, hpair⟩ := hab
  have hascends : Ascends rank a b :=
    List.pairwise_pair.mp ((h.pairwise_ascends hrelation).sublist hpair)
  exact hascends.resolve_left hne

end Ranking

/-- There is no contradiction that the accesses and the implicit dimensions do not have. -/
theorem exists_loopOrder_of_ranking (h : eq.Ranking rank) :
    ∃ order, eq.loopOrder = .ok order := by
  have hacyclic : Acyclic eq.Forces :=
    acyclic_of_key_lt (place rank) fun _ _ hab => h.place_lt_of_forces hab
  rcases loopOrder_eq_ok_or_circular eq with ⟨order, hok, -⟩ | ⟨-, hcycle⟩
  · exact ⟨_, hok⟩
  · exact absurd hacyclic hcycle

/-- Time first, then `x`, then `p`. -/
def gatheredRank (d : Dimension) : Nat := [time, spaceX, pointP].idxOf d

theorem ranking_gathered : gathered.Ranking gatheredRank where
  distinct := by
    have hroots : ∀ c ∈ gathered.orderedDimensions, ∀ d ∈ gathered.orderedDimensions,
        c.parent? = none → d.parent? = none → gatheredRank c = gatheredRank d → c = d := by
      decide +kernel
    rintro c ⟨hc, hcroot⟩ d ⟨hd, hdroot⟩ heq
    exact hroots c (mem_orderedDimensions.mpr hc) d (mem_orderedDimensions.mpr hd) hcroot hdroot heq
  ascends := by
    have hchains : ∀ relation ∈ gathered.accessRelations,
        relation.IsChain (Ascends gatheredRank) := by
      decide +kernel
    intro relation hrelation
    exact hchains relation (mem_accessRelations.mpr hrelation)

theorem exists_loopOrder_of_ranking_gathered :
    gathered.Ranking gatheredRank ∧ ∃ order, gathered.loopOrder = .ok order :=
  ⟨ranking_gathered, exists_loopOrder_of_ranking ranking_gathered⟩

end Equation

end GridAccess
