import GridAccess.Proofs.Ascending
import GridAccess.Proofs.Expr.Comparison

/-!
The orders of expressions, of uses of fields, of fields and of dimensions are total orders that
agree with equality, so that sets and tables in these orders hold a key once and never lose it.

Equal keys need not be identical: constants are compared as numbers, and of two zeros the one that
came first stays in a set. What is said of sets and tables is therefore said up to comparison.
-/

namespace GridAccess

open Std

/-- Any two elements are comparable, and they compare as equal exactly if they are equal. -/
structure TotalOrder (α : Type) [Ord α] [BEq α] : Prop where
  comparable : ∀ a b : α, (compare a b).isLE = true ∨ (compare b a).isLE = true
  opposite : ∀ a b : α, compare b a = (compare a b).swap
  antisymm : ∀ a b : α,
    (compare a b).isLE = true → (compare b a).isLE = true → (a == b) = true
  trans : ∀ a b c : α,
    (compare a b).isLE = true → (compare b c).isLE = true → (compare a c).isLE = true
  eq_iff : ∀ a b : α, compare a b = .eq ↔ (a == b) = true

theorem TotalOrder.of_transOrd {α : Type} [Ord α] [BEq α] [TransOrd α]
    (h : ∀ a b : α, compare a b = .eq ↔ (a == b) = true) : TotalOrder α where
  comparable a b := by
    rw [OrientedOrd.eq_swap (a := b)]
    cases compare a b <;> simp
  opposite _ _ := OrientedOrd.eq_swap
  antisymm a b hab hba := (h a b).mp (OrientedCmp.isLE_antisymm hab hba)
  trans _ _ _ := TransCmp.isLE_trans
  eq_iff := h

/-! ### Sets and tables -/

namespace Ascending

variable {α β : Type} [Ord α]

/-- A change of the value at a key, which is `start` if there is none. -/
structure Update (α β : Type) where
  key : α
  start : β
  change : β → β

def Update.apply (table : List (α × β)) (u : Update α β) : List (α × β) :=
  adjust u.key u.start u.change table

/-- The table after updates of the empty one. -/
def updated (us : List (Update α β)) : List (α × β) := us.foldl Update.apply []

/-- The value after an update at its key. -/
def Update.value (v : Option β) (u : Update α β) : Option β := some (u.change (v.getD u.start))

theorem get?_eq_none_of_lt {a : α} {table : List (α × β)}
    (h : ∀ entry ∈ table, compare a entry.1 = .lt) : get? a table = none := by
  induction table with
  | nil => rfl
  | cons entry table ih =>
      obtain ⟨hentry, htable⟩ := List.forall_mem_cons.mp h
      rw [get?_cons, hentry, if_neg (by simp), ih htable]

theorem contains_cons (a x : α) (xs : List α) :
    contains a (x :: xs) = (compare a x == .eq || contains a xs) := rfl

variable [TransOrd α]

theorem compare_congr_left {a b : α} (h : compare a b = .eq) (c : α) : compare a c = compare b c :=
  TransCmp.congr_left h

theorem compare_congr_right {b c : α} (h : compare b c = .eq) (a : α) : compare a b = compare a c :=
  TransCmp.congr_right h

theorem contains_insert (a b : α) (xs : List α) :
    contains a (insert b xs) = (compare a b == .eq || contains a xs) := by
  induction xs with
  | nil => simp [insert, contains]
  | cons x xs ih =>
      cases h : compare b x with
      | lt => simp [insert, contains, h]
      | eq =>
          -- The new element is dropped, but compares with everything as the old one does.
          rw [compare_congr_right h]
          simp [insert, contains, h]
      | gt =>
          simp only [insert, h]
          rw [contains_cons, contains_cons, ih]
          exact Bool.or_left_comm _ _ _

/-- A set has an element for each one that was put into it, and no others. -/
theorem contains_ofList (a : α) (xs : List α) : contains a (ofList xs) = contains a xs := by
  have hall (old : List α) : contains a (insertAll xs old) = (contains a xs || contains a old) := by
    induction xs generalizing old with
    | nil => rfl
    | cons x xs ih =>
        rw [insertAll_cons, ih, contains_insert, contains_cons, Bool.or_left_comm, Bool.or_assoc]
  rw [ofList, hall]
  exact Bool.or_false _

theorem get?_congr {a b : α} (h : compare a b = .eq) (table : List (α × β)) :
    get? a table = get? b table := by
  induction table with
  | nil => rfl
  | cons entry table ih => rw [get?_cons, get?_cons, compare_congr_left h, ih]

/-- An update changes the value at its key and at no other. -/
theorem get?_apply (a : α) (u : Update α β) {table : List (α × β)}
    (hs : Strict (table.map Prod.fst)) :
    get? a (u.apply table) =
      if compare a u.key = .eq then u.value (get? a table) else get? a table := by
  obtain ⟨b, start, change⟩ := u
  simp only [Update.apply, Update.value]
  induction table with
  | nil => simp [adjust, get?_cons]
  | cons entry table ih =>
      obtain ⟨c, v⟩ := entry
      obtain ⟨hfirst, hrest⟩ := List.pairwise_cons.mp hs
      cases hcmp : compare b c with
      | lt =>
          -- The key is smaller than all others and therefore new.
          simp only [adjust, hcmp]
          rw [get?_cons]
          refine if_ctx_congr Iff.rfl (fun hab => ?_) fun _ => rfl
          have hnone : get? b ((c, v) :: table) = none := by
            refine get?_eq_none_of_lt (List.forall_mem_cons.mpr ⟨hcmp, fun entry hentry => ?_⟩)
            exact TransCmp.lt_trans hcmp (hfirst _ (List.mem_map_of_mem hentry))
          rw [get?_congr hab, hnone, Option.getD_none]
      | eq =>
          simp only [adjust, hcmp]
          rw [get?_cons, get?_cons, compare_congr_right hcmp]
          split <;> simp
      | gt =>
          simp only [adjust, hcmp]
          rw [get?_cons, get?_cons, ih hrest]
          by_cases hac : compare a c = .eq
          · -- A key cannot be equal to both.
            have hab : compare a b ≠ .eq := by
              intro hab
              rw [← compare_congr_left hab, hac] at hcmp
              cases hcmp
            rw [if_pos hac, if_pos hac, if_neg hab]
          · rw [if_neg hac, if_neg hac]

theorem strict_foldl_apply (us : List (Update α β)) {table : List (α × β)}
    (hs : Strict (table.map Prod.fst)) : Strict ((us.foldl Update.apply table).map Prod.fst) := by
  induction us generalizing table with
  | nil => exact hs
  | cons u us ih => exact ih (strict_adjust hs)

theorem strict_updated (us : List (Update α β)) : Strict ((updated us).map Prod.fst) :=
  strict_foldl_apply us List.Pairwise.nil

/-- The value at a key comes from the updates at that key, in their order. -/
theorem get?_updated (a : α) (us : List (Update α β)) :
    get? a (updated us) =
      (us.filter fun u => compare a u.key == .eq).foldl (fun v u => u.value v) none := by
  have hall {table : List (α × β)} (hs : Strict (table.map Prod.fst)) :
      get? a (us.foldl Update.apply table) =
        (us.filter fun u => compare a u.key == .eq).foldl (fun v u => u.value v)
          (get? a table) := by
    induction us generalizing table with
    | nil => rfl
    | cons u us ih =>
        have hu : Strict ((u.apply table).map Prod.fst) := strict_adjust hs
        rw [List.foldl_cons, ih hu, get?_apply a u hs, List.filter_cons]
        by_cases h : compare a u.key = .eq <;> simp [h]
  exact hall List.Pairwise.nil

/-- Where a key is or belongs: behind what is smaller and before what is greater. At most one
element is equal to it. A search that is guided by comparisons ends there. -/
structure Located {γ : Type} (key : γ → α) (a : α) (xs smaller equal greater : List γ) : Prop where
  eq_append : xs = smaller ++ (equal ++ greater)
  length_equal_le : equal.length ≤ 1
  lt_of_mem : ∀ x ∈ smaller, compare (key x) a = .lt
  eq_of_mem : ∀ x ∈ equal, compare (key x) a = .eq
  gt_of_mem : ∀ x ∈ greater, compare (key x) a = .gt

theorem exists_located {γ : Type} {key : γ → α} {xs : List γ} (hs : Strict (xs.map key)) (a : α) :
    ∃ smaller equal greater, Located key a xs smaller equal greater := by
  induction xs with
  | nil => exact ⟨[], [], [], rfl, Nat.zero_le 1, by simp, by simp, by simp⟩
  | cons x xs ih =>
      obtain ⟨hfirst, hrest⟩ := List.pairwise_cons.mp hs
      -- What follows something that is not smaller is greater.
      have hgreater (hx : compare (key x) a ≠ .lt) : ∀ y ∈ xs, compare (key y) a = .gt := by
        intro y hy
        have hlt := hfirst _ (List.mem_map_of_mem hy)
        have hle : (compare a (key x)).isLE = true := by
          rw [OrientedOrd.eq_swap]
          cases h : compare (key x) a <;> simp_all
        exact OrientedCmp.gt_iff_lt.mpr (TransCmp.lt_of_isLE_of_lt hle hlt)
      cases hcmp : compare (key x) a with
      | lt =>
          obtain ⟨smaller, equal, greater, h⟩ := ih hrest
          refine ⟨x :: smaller, equal, greater, ?_, h.length_equal_le, ?_, h.eq_of_mem, h.gt_of_mem⟩
          · exact congrArg (x :: ·) h.eq_append
          · exact List.forall_mem_cons.mpr ⟨hcmp, h.lt_of_mem⟩
      | eq =>
          have hxs := hgreater (by simp [hcmp])
          exact ⟨[], [x], xs, rfl, Nat.le_refl 1, by simp, by simpa using hcmp, hxs⟩
      | gt =>
          have hxs := hgreater (by simp [hcmp])
          exact ⟨[], [], x :: xs, rfl, Nat.zero_le 1, by simp, by simp,
            List.forall_mem_cons.mpr ⟨hcmp, hxs⟩⟩

/-- Sets and tables with keys of this type never hold two equal keys, and never lose one: whether an
element is there depends on what was put in, and the value at a key on the updates at that key. -/
structure KeepsKeys (α : Type) [Ord α] [BEq α] : Prop where
  distinct_set : ∀ xs : List α, (ofList xs).Pairwise fun a b => (a == b) = false
  mem_set : ∀ (a : α) (xs : List α), contains a (ofList xs) = xs.any (a == ·)
  located_set : ∀ (a : α) (xs : List α),
    ∃ smaller equal greater, Located id a (ofList xs) smaller equal greater
  distinct_table : ∀ {β : Type} (us : List (Update α β)),
    ((updated us).map Prod.fst).Pairwise fun a b => (a == b) = false
  value_table : ∀ {β : Type} (a : α) (us : List (Update α β)),
    get? a (updated us) = (us.filter (a == ·.key)).foldl Update.value none
  located_table : ∀ {β : Type} (a : α) (us : List (Update α β)),
    ∃ smaller equal greater, Located Prod.fst a (updated us) smaller equal greater

theorem KeepsKeys.of_totalOrder [BEq α] (h : TotalOrder α) : KeepsKeys α := by
  have hbeq (a b : α) : (compare a b == .eq) = (a == b) := by
    rw [Bool.eq_iff_iff, beq_iff_eq, h.eq_iff]
  have hdistinct {xs : List α} (hs : Strict xs) : xs.Pairwise fun a b => (a == b) = false := by
    refine hs.imp fun {a b} hlt => ?_
    rw [← hbeq, hlt]
    rfl
  exact {
    distinct_set := fun xs => hdistinct (strict_ofList xs)
    mem_set := fun a xs => (contains_ofList a xs).trans (by simp [contains, hbeq])
    located_set := fun a xs => exists_located (by simpa using strict_ofList xs) a
    distinct_table := fun us => hdistinct (strict_updated us)
    value_table := fun a us => by simp [get?_updated, hbeq]
    located_table := fun a us => exists_located (strict_updated us) a }

end Ascending

/-! ### The orders -/

theorem TotalOrder.of_lawfulEqOrd {α : Type} [Ord α] [TransOrd α] [LawfulEqOrd α] [DecidableEq α] :
    TotalOrder α :=
  .of_transOrd fun a b => by rw [LawfulEqOrd.compare_eq_iff_eq, beq_iff_eq]

namespace Expr

theorem compare_eq_iff {a b : Expr} : compare a b = .eq ↔ (a == b) = true := by
  refine ⟨same_of_compare_eq, fun h => ?_⟩
  rw [compare_congr h (same_refl b)]
  exact ReflCmp.compare_self

end Expr

theorem Access.compare_toExpr (a b : Access) : compare a b = compare a.toExpr b.toExpr := rfl

theorem Call.compare_toExpr (c d : Call) : compare c d = compare c.toExpr d.toExpr := rfl

instance : TransOrd Access := transCmp_of_image Access.toExpr Access.compare_toExpr

instance : TransOrd Call := transCmp_of_image Call.toExpr Call.compare_toExpr

theorem Dimension.compare_of_name_ne {d e : Dimension} (h : d.name ≠ e.name) :
    compare d e = compare d.name e.name := by
  have hname : compare d.name e.name ≠ .eq := fun heq => h (LawfulEqOrd.eq_of_compare heq)
  show d.cmp e = _
  cases d <;> cases hcmp : compare _ e.name <;> simp_all [cmp, name]

/-- The orders are total and agree with equality, dimensions of different names are ordered as their
names are, and sets and tables with such keys never hold two equal ones and never lose one. -/
theorem orders_total_keys_kept :
    (TotalOrder Expr ∧ TotalOrder Call ∧ TotalOrder Access ∧ TotalOrder Field ∧
      TotalOrder Dimension) ∧
    (∀ d e : Dimension, d.name ≠ e.name → compare d e = compare d.name e.name) ∧
    Ascending.KeepsKeys Expr ∧ Ascending.KeepsKeys Call ∧ Ascending.KeepsKeys Access ∧
      Ascending.KeepsKeys Field ∧ Ascending.KeepsKeys Dimension := by
  have hexpr : TotalOrder Expr := .of_transOrd fun _ _ => Expr.compare_eq_iff
  have hcall : TotalOrder Call := .of_transOrd fun c d => by
    rw [Call.compare_toExpr, Expr.compare_eq_iff]
    rfl
  have haccess : TotalOrder Access := .of_transOrd fun a b => by
    rw [Access.compare_toExpr, Expr.compare_eq_iff]
    rfl
  have hfield : TotalOrder Field := .of_lawfulEqOrd
  have hdimension : TotalOrder Dimension := .of_lawfulEqOrd
  refine ⟨⟨hexpr, hcall, haccess, hfield, hdimension⟩, fun _ _ => Dimension.compare_of_name_ne, ?_⟩
  exact ⟨.of_totalOrder hexpr, .of_totalOrder hcall, .of_totalOrder haccess, .of_totalOrder hfield,
    .of_totalOrder hdimension⟩

/-- Sums that differ in the sign of a zero are equal, and a derived dimension may come before its
parent. -/
theorem orders_total_keys_kept_zeros :
    (Expr.sum [.lit (.float ⟨0x8000000000000000⟩), .sym ⟨"h"⟩] ==
      .sum [.lit (.float ⟨0⟩), .sym ⟨"h"⟩]) = true ∧
    compare (Dimension.derived "t" .stepping (.root "time" .time)) (.root "time" .time) =
      compare "t" "time" :=
  ⟨orders_total_keys_kept.1.1.antisymm _ _ (by decide) (by decide),
    orders_total_keys_kept.2.1 _ _ (by decide)⟩

end GridAccess
