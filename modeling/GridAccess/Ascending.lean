/-!
Sets and maps kept as lists in ascending order, and a stable sort. An element equal to one
already there is not inserted again: the first one stays.
-/

namespace GridAccess.Ascending

variable {α β : Type} [Ord α]

def insert (a : α) : List α → List α
  | [] => [a]
  | b :: rest =>
    match compare a b with
    | .lt => a :: b :: rest
    | .eq => b :: rest
    | .gt => b :: insert a rest

/-- Adds the elements of `news` from left to right. -/
def insertAll (news old : List α) : List α :=
  news.foldl (fun set a => insert a set) old

def ofList (xs : List α) : List α := insertAll xs []

def contains (a : α) (xs : List α) : Bool := xs.any fun b => compare a b == .eq

/-- Puts `a` before the first element that is not smaller. -/
def place (a : α) : List α → List α
  | [] => [a]
  | b :: rest =>
    match compare a b with
    | .gt => b :: place a rest
    | _ => a :: b :: rest

/-- Equal elements keep their order. -/
def sort (xs : List α) : List α := xs.foldr place []

def get? (a : α) : List (α × β) → Option β
  | [] => none
  | (b, v) :: rest =>
    match compare a b with
    | .eq => some v
    | _ => get? a rest

/-- Applies `f` to the value at `a`, which is `start` if there is none. -/
def adjust (a : α) (start : β) (f : β → β) : List (α × β) → List (α × β)
  | [] => [(a, f start)]
  | (b, v) :: rest =>
    match compare a b with
    | .lt => (a, f start) :: (b, v) :: rest
    | .eq => (b, f v) :: rest
    | .gt => (b, v) :: adjust a start f rest

/-- Sets the value at `a`. -/
def put (a : α) (v : β) (table : List (α × β)) : List (α × β) :=
  adjust a v (fun _ => v) table

@[simp] theorem insertAll_nil (old : List α) : insertAll [] old = old := rfl

@[simp] theorem insertAll_cons (a : α) (news old : List α) :
    insertAll (a :: news) old = insertAll news (insert a old) := rfl

@[simp] theorem sort_nil : sort ([] : List α) = [] := rfl

@[simp] theorem sort_cons (a : α) (xs : List α) : sort (a :: xs) = place a (sort xs) := rfl

@[simp] theorem get?_nil (a : α) : get? a ([] : List (α × β)) = none := rfl

theorem place_perm (a : α) (xs : List α) : (place a xs).Perm (a :: xs) := by
  induction xs with
  | nil => exact .refl _
  | cons b rest ih =>
    simp only [place]
    split
    · exact (ih.cons b).trans (.swap a b rest)
    · exact .refl _

theorem sort_perm (xs : List α) : (sort xs).Perm xs := by
  induction xs with
  | nil => exact .refl _
  | cons a xs ih => exact (place_perm a _).trans (ih.cons a)

@[simp] theorem length_sort (xs : List α) : (sort xs).length = xs.length :=
  (sort_perm xs).length_eq

end GridAccess.Ascending
