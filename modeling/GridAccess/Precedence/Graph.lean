import GridAccess.Ascending

/-!
The graph of a list of relations. A relation is a list whose elements precede those after
them; an element that occurs again in its relation does not precede itself. Each edge is
counted once, in whatever number of relations it occurs.
-/

namespace GridAccess

/-- For each item what directly follows it, and how many items directly precede it. Both tables
and the lists of followers are ascending. -/
structure PrecedenceGraph (α : Type) where
  successors : List (α × List α)
  degrees : List (α × Nat)

namespace PrecedenceGraph

variable {α : Type} [Ord α]

def empty : PrecedenceGraph α := ⟨[], []⟩

def following (g : PrecedenceGraph α) (a : α) : List α :=
  (Ascending.get? a g.successors).getD []

def addItem (g : PrecedenceGraph α) (a : α) : PrecedenceGraph α :=
  { successors := Ascending.adjust a [] id g.successors
    degrees := Ascending.adjust a 0 id g.degrees }

def addEdge (before : α) (g : PrecedenceGraph α) (after : α) : PrecedenceGraph α :=
  if compare after before = .eq ∨ Ascending.contains after (g.following before) then g
  else
    { successors := Ascending.adjust before [] (Ascending.insert after) g.successors
      degrees := Ascending.adjust after 0 (· + 1) g.degrees }

def addRelation (g : PrecedenceGraph α) : List α → PrecedenceGraph α
  | [] => g
  | a :: rest => (rest.foldl (addEdge a) (g.addItem a)).addRelation rest

def ofRelations (items : List α) (relations : List (List α)) : PrecedenceGraph α :=
  relations.foldl addRelation (items.foldl addItem empty)

/-- Looks for `target` among the items on the stack and those that can be reached from them,
entering no item in `seen`, in at most `fuel` steps. -/
def search (g : PrecedenceGraph α) (target : α) : Nat → List α → List α → Bool
  | 0, _, _ => false
  | fuel + 1, stack, seen =>
    match stack with
    | [] => false
    | a :: rest =>
      if compare a target = .eq then true
      else if Ascending.contains a seen then g.search target fuel rest seen
      else g.search target fuel (g.following a ++ rest) (Ascending.insert a seen)

def edgeCount (g : PrecedenceGraph α) : Nat :=
  g.successors.foldl (fun count entry => count + entry.2.length) 0

/-- A path of at least one edge leads from `a` back to `a`. Every edge puts at most one item on
the stack, which bounds the steps of the search. -/
def onCycle (g : PrecedenceGraph α) (a : α) : Bool :=
  g.search a ((g.following a).length + g.edgeCount + 1) (g.following a) []

end PrecedenceGraph

end GridAccess
