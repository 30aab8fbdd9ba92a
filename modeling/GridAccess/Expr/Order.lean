import GridAccess.Expr.Basic

/-!
Equality and order of expressions. Expressions of different shape are ordered by shape, those
of one shape from left to right, and a list comes after its own beginnings.
-/

namespace GridAccess

namespace Expr

def shape : Expr → Nat
  | .lit _ => 0
  | .sym _ => 1
  | .dim _ => 2
  | .call _ _ => 3
  | .access _ _ => 4
  | .sum _ => 5
  | .prod _ => 6
  | .pow _ _ => 7

mutual

def cmp : Expr → Expr → Ordering
  | .lit m, e => match e with
    | .lit n => compare m n
    | e => compare 0 e.shape
  | .sym s, e => match e with
    | .sym t => compare s t
    | e => compare 1 e.shape
  | .dim c, e => match e with
    | .dim d => compare c d
    | e => compare 2 e.shape
  | .call f as, e => match e with
    | .call g bs => (compare f g).then (cmpList as bs)
    | e => compare 3 e.shape
  | .access f as, e => match e with
    | .access g bs => (compare f g).then (cmpList as bs)
    | e => compare 4 e.shape
  | .sum as, e => match e with
    | .sum bs => cmpList as bs
    | e => compare 5 e.shape
  | .prod as, e => match e with
    | .prod bs => cmpList as bs
    | e => compare 6 e.shape
  | .pow a b, e => match e with
    | .pow c d => (cmp a c).then (cmp b d)
    | e => compare 7 e.shape

def cmpList : List Expr → List Expr → Ordering
  | [], es => match es with
    | [] => .eq
    | _ :: _ => .lt
  | a :: as, es => match es with
    | [] => .gt
    | b :: bs => (cmp a b).then (cmpList as bs)

end

mutual

/-- Equality as trees, where literals are compared by `Literal.same`. -/
def same : Expr → Expr → Bool
  | .lit m, e => match e with
    | .lit n => m.same n
    | _ => false
  | .sym s, e => match e with
    | .sym t => s = t
    | _ => false
  | .dim c, e => match e with
    | .dim d => c = d
    | _ => false
  | .call f as, e => match e with
    | .call g bs => f = g && sameList as bs
    | _ => false
  | .access f as, e => match e with
    | .access g bs => f = g && sameList as bs
    | _ => false
  | .sum as, e => match e with
    | .sum bs => sameList as bs
    | _ => false
  | .prod as, e => match e with
    | .prod bs => sameList as bs
    | _ => false
  | .pow a b, e => match e with
    | .pow c d => same a c && same b d
    | _ => false

def sameList : List Expr → List Expr → Bool
  | [], es => es.isEmpty
  | a :: as, es => match es with
    | [] => false
    | b :: bs => same a b && sameList as bs

end

instance : Ord Expr := ⟨cmp⟩

instance : BEq Expr := ⟨same⟩

end Expr

instance : BEq Access := ⟨fun a b => a.field = b.field && Expr.sameList a.indices b.indices⟩

instance : BEq Call := ⟨fun a b => a.field = b.field && Expr.sameList a.args b.args⟩

/-- By field, then by indices. -/
instance : Ord Access :=
  ⟨fun a b => (compare a.field b.field).then (Expr.cmpList a.indices b.indices)⟩

/-- By field, then by arguments. -/
instance : Ord Call := ⟨fun a b => (compare a.field b.field).then (Expr.cmpList a.args b.args)⟩

end GridAccess
