import GridAccess.Precedence.Graph

/-!
Topological sorting. Of the items whose predecessors have all been taken, the smallest is
taken next, so that the order depends on the set of items and edges only. If a cycle keeps
some items from being taken, those that lie on a cycle are the answer.
-/

namespace GridAccess

/-- The items taken so far, those that may be taken next in ascending order, and for each item
the number of direct predecessors not yet taken. -/
structure Linearization (α : Type) where
  taken : List α
  ready : List α
  degrees : List (α × Nat)

namespace Linearization

variable {α : Type} [Ord α]

def start (g : PrecedenceGraph α) : Linearization α :=
  { taken := []
    ready := (g.degrees.filter fun entry => entry.2 = 0).map Prod.fst
    degrees := g.degrees }

/-- Counts one predecessor of `a` as taken. -/
def release (l : Linearization α) (a : α) : Linearization α :=
  match Ascending.get? a l.degrees with
  | none => l
  | some degree =>
    { l with
      ready := if degree - 1 = 0 then Ascending.insert a l.ready else l.ready
      degrees := Ascending.put a (degree - 1) l.degrees }

/-- Takes the smallest item that is ready, if there is one. -/
def step (g : PrecedenceGraph α) (l : Linearization α) : Linearization α :=
  match l.ready with
  | [] => l
  | a :: rest => (g.following a).foldl release { l with taken := l.taken ++ [a], ready := rest }

def run (g : PrecedenceGraph α) : Nat → Linearization α → Linearization α
  | 0, l => l
  | n + 1, l => run g n (l.step g)

/-- Each step takes an item that was not taken before. -/
def final (g : PrecedenceGraph α) : Linearization α := run g g.degrees.length (start g)

/-- The items that are left over and lie on a cycle. -/
def culprits (g : PrecedenceGraph α) (l : Linearization α) : List α :=
  (l.degrees.filter fun entry => 0 < entry.2 && g.onCycle entry.1).map Prod.fst

end Linearization

/-- The items and the elements of the relations in an order that keeps the relations, or the
items on cycles in ascending order. -/
def linearize {α : Type} [Ord α] (items : List α) (relations : List (List α)) :
    Except (List α) (List α) :=
  let g := PrecedenceGraph.ofRelations items relations
  let l := Linearization.final g
  if l.taken.length = g.degrees.length then .ok l.taken else .error (l.culprits g)

end GridAccess
