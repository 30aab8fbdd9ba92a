import GridAccess.Dimension
import GridAccess.Error

/-!
Arrays over an ordered list of axes. Along each axis the storage holds the left padding, the
left halo, the domain, the right halo and the right padding, in this order.
-/

namespace GridAccess

inductive FieldKind where
  | function
  | timeFunction
  | array
  deriving DecidableEq

/-- Numbers of points on both sides of the domain. -/
structure Margin where
  left : UInt32
  right : UInt32
  deriving DecidableEq

structure Axis where
  dimension : Dimension
  halo : Margin
  padding : Margin
  deriving DecidableEq

structure Field where
  name : String
  kind : FieldKind
  axes : List Axis
  deriving DecidableEq

def FieldKind.key : FieldKind → Nat
  | .function => 0
  | .timeFunction => 1
  | .array => 2

def Margin.key (m : Margin) : List Nat := [m.left.toNat, m.right.toNat]

instance : Ord FieldKind := ⟨compareOn FieldKind.key⟩

instance : Ord Margin := ⟨compareOn Margin.key⟩

/-- The distance from the start of the storage to the first point of the domain. -/
def Axis.offset (a : Axis) : Nat := a.halo.left.toNat + a.padding.left.toNat

namespace Field

def dimensions (f : Field) : List Dimension := f.axes.map Axis.dimension

def halo (f : Field) : List Margin := f.axes.map Axis.halo

def padding (f : Field) : List Margin := f.axes.map Axis.padding

/-- Zero for an axis that the field does not have. -/
def offset (f : Field) (axis : Nat) : Nat := (f.axes[axis]?.map Axis.offset).getD 0

/-- By name, kind, dimensions, halo and padding. -/
def cmp (f g : Field) : Ordering :=
  (compare f.name g.name).then <| (compare f.kind g.kind).then <|
    (compare f.dimensions g.dimensions).then <| (compare f.halo g.halo).then <|
      compare f.padding g.padding

instance : Ord Field := ⟨cmp⟩

/-- The axes for lists of equal length. -/
def zipAxes (dimensions : List Dimension) (halo padding : List Margin) : List Axis :=
  (dimensions.zip (halo.zip padding)).map fun (d, h, p) => ⟨d, h, p⟩

/-- One margin per dimension: no margins at all stand for margins of zero. -/
def fillMargins (count : Nat) (margins : List Margin) : List Margin :=
  if margins.isEmpty then List.replicate count ⟨0, 0⟩ else margins

def mismatch (name : String) (dimensions halo padding : Nat) : Error :=
  .config .mismatchedDimensions
    s!"function {name} has {dimensions} dimensions, but {halo} halo and {padding} padding entries"

/-- Fails unless there are as many halo and padding entries as dimensions, or none. -/
def build (name : String) (kind : FieldKind) (dimensions : List Dimension)
    (halo padding : List Margin) : Except Error Field :=
  let halo := fillMargins dimensions.length halo
  let padding := fillMargins dimensions.length padding
  if halo.length = dimensions.length ∧ padding.length = dimensions.length then
    .ok ⟨name, kind, zipAxes dimensions halo padding⟩
  else .error (mismatch name dimensions.length halo.length padding.length)

/-- A field without halo and padding. -/
def bare (name : String) (dimensions : List Dimension) : Field :=
  ⟨name, .function, dimensions.map fun d => ⟨d, ⟨0, 0⟩, ⟨0, 0⟩⟩⟩

/-- The name and, in parentheses, the dimensions. -/
def signature (f : Field) : String :=
  f.name ++ "(" ++ ", ".intercalate (f.dimensions.map Dimension.name) ++ ")"

end Field

end GridAccess
