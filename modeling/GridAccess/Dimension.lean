/-!
Named iteration axes. A derived dimension iterates a part of its parent, and every chain of
parents ends in a root. Dimensions are compared by name first.
-/

namespace GridAccess

/-- A plain scalar, such as the spacing of a grid along an axis. -/
structure Symbol where
  name : String
  deriving DecidableEq

instance : Ord Symbol := ⟨compareOn Symbol.name⟩

/-- The text that shows a symbol as such. -/
def Symbol.tagged (s : Symbol) : String := "Symbol(" ++ s.name ++ ")"

/-- The part of an axis that a region covers. -/
inductive Thickness where
  /-- all but `left` points at the start and `right` points at the end -/
  | middle (left right : UInt32)
  /-- the first `n` points -/
  | left (n : UInt32)
  /-- the last `n` points -/
  | right (n : UInt32)
  deriving DecidableEq

inductive RootKind where
  | basic
  | space
  | time
  deriving DecidableEq

inductive DerivedKind where
  /-- the parent modulo the size of a buffer -/
  | stepping
  | sub (thickness : Thickness)
  /-- every `factor`-th point of the parent -/
  | conditional (factor : UInt32)
  deriving DecidableEq

inductive Dimension where
  | root (name : String) (kind : RootKind)
  | derived (name : String) (kind : DerivedKind) (parent : Dimension)
  deriving DecidableEq

/-- Thicknesses are ordered as their keys. -/
def Thickness.key : Thickness → List Nat
  | .middle l r => [0, l.toNat, r.toNat]
  | .left n => [1, n.toNat]
  | .right n => [2, n.toNat]

def RootKind.key : RootKind → List Nat
  | .basic => [0]
  | .space => [1]
  | .time => [2]

def DerivedKind.key : DerivedKind → List Nat
  | .stepping => [3]
  | .sub thickness => 4 :: thickness.key
  | .conditional factor => [5, factor.toNat]

namespace Dimension

def name : Dimension → String
  | .root name _ => name
  | .derived name _ _ => name

def parent? : Dimension → Option Dimension
  | .root _ _ => none
  | .derived _ _ parent => some parent

def isDerived : Dimension → Bool
  | .root _ _ => false
  | .derived _ _ _ => true

def kindKey : Dimension → List Nat
  | .root _ kind => kind.key
  | .derived _ kind _ => kind.key

/-- The last dimension of the chain of parents. -/
def top : Dimension → Dimension
  | .root name kind => .root name kind
  | .derived _ _ parent => parent.top

/-- The proper ancestors, the nearest one first. -/
def ancestors : Dimension → List Dimension
  | .root _ _ => []
  | .derived _ _ parent => parent :: parent.ancestors

/-- The grid spacing along the axis, which a derived dimension has from its root. -/
def spacing (d : Dimension) : Symbol := ⟨"h_" ++ d.top.name⟩

/-- By name, then by kind, then by parent. -/
def cmp : Dimension → Dimension → Ordering
  | .root n k, other => (compare n other.name).then (compare k.key other.kindKey)
  | .derived n k p, other =>
    ((compare n other.name).then (compare k.key other.kindKey)).then <|
      match other with
      | .root _ _ => .gt
      | .derived _ _ q => p.cmp q

instance : Ord Dimension := ⟨cmp⟩

instance : ToString Dimension := ⟨name⟩

@[simp] theorem top_root (name : String) (kind : RootKind) :
    (root name kind).top = root name kind := rfl

@[simp] theorem top_derived (name : String) (kind : DerivedKind) (parent : Dimension) :
    (derived name kind parent).top = parent.top := rfl

@[simp] theorem top_top (d : Dimension) : d.top.top = d.top := by
  induction d with
  | root => rfl
  | derived _ _ _ ih => exact ih

@[simp] theorem parent?_top (d : Dimension) : d.top.parent? = none := by
  induction d with
  | root => rfl
  | derived _ _ _ ih => exact ih

end Dimension

end GridAccess
