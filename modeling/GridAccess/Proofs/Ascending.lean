import GridAccess.Ascending

/-!
Sets and tables in strictly ascending order, for a lawful order. A set is determined by its
elements and a table by the values at all keys.
-/

namespace GridAccess.Ascending

open Std

variable {α β : Type} [Ord α]

def Strict (xs : List α) : Prop := xs.Pairwise fun a b => compare a b = .lt

theorem mem_of_mem_insert {a b : α} {xs : List α} (h : b ∈ insert a xs) : b = a ∨ b ∈ xs := by
  induction xs with
  | nil => exact .inl (List.mem_singleton.mp h)
  | cons x xs ih =>
      unfold insert at h
      split at h
      · exact List.mem_cons.mp h
      · exact .inr h
      · rcases List.mem_cons.mp h with rfl | h
        · exact .inr List.mem_cons_self
        · exact (ih h).imp_right (List.mem_cons_of_mem x)

section

variable [LawfulEqOrd α]

@[simp] theorem mem_insert {a b : α} {xs : List α} : b ∈ insert a xs ↔ b = a ∨ b ∈ xs := by
  induction xs with
  | nil => simp [insert]
  | cons x xs ih =>
      cases h : compare a x with
      | lt => simp [insert, h]
      | eq =>
          obtain rfl := LawfulEqOrd.eq_of_compare h
          simp [insert]
      | gt => simp [insert, h, ih, or_left_comm]

@[simp] theorem mem_insertAll {b : α} {news old : List α} :
    b ∈ insertAll news old ↔ b ∈ news ∨ b ∈ old := by
  induction news generalizing old with
  | nil => simp
  | cons a news ih => simp [ih, or_left_comm, or_assoc]

@[simp] theorem mem_ofList {b : α} {xs : List α} : b ∈ ofList xs ↔ b ∈ xs := by
  simp [ofList]

theorem contains_iff {a : α} {xs : List α} : contains a xs = true ↔ a ∈ xs := by
  simp [contains]

end

section

variable [TransOrd α]

theorem Strict.nodup {xs : List α} (h : Strict xs) : xs.Nodup := by
  apply h.imp
  rintro a b hab rfl
  rw [ReflOrd.compare_self] at hab
  cases hab

theorem strict_insert {a : α} {xs : List α} (h : Strict xs) : Strict (insert a xs) := by
  induction xs with
  | nil => simp [insert, Strict]
  | cons x xs ih =>
      obtain ⟨hx, hxs⟩ := List.pairwise_cons.mp h
      cases hcmp : compare a x with
      | lt =>
          simp only [insert, hcmp]
          refine List.pairwise_cons.mpr ⟨?_, h⟩
          intro b hb
          rcases List.mem_cons.mp hb with rfl | hb
          · exact hcmp
          · exact TransCmp.lt_trans hcmp (hx b hb)
      | eq =>
          simp only [insert, hcmp]
          exact h
      | gt =>
          simp only [insert, hcmp]
          refine List.pairwise_cons.mpr ⟨?_, ih hxs⟩
          intro b hb
          rcases mem_of_mem_insert hb with rfl | hb
          · exact OrientedCmp.gt_iff_lt.mp hcmp
          · exact hx b hb

theorem strict_insertAll {news old : List α} (h : Strict old) : Strict (insertAll news old) := by
  induction news generalizing old with
  | nil => exact h
  | cons a news ih => exact ih (strict_insert h)

theorem strict_ofList (xs : List α) : Strict (ofList xs) := strict_insertAll List.Pairwise.nil

/-- A set is determined by its elements. -/
theorem Strict.ext {xs ys : List α} (hxs : Strict xs) (hys : Strict ys)
    (h : ∀ a, a ∈ xs ↔ a ∈ ys) : xs = ys := by
  have hperm : xs.Perm ys := (List.perm_ext_iff_of_nodup hxs.nodup hys.nodup).mpr h
  refine List.Perm.eq_of_pairwise ?_ hxs hys hperm
  intro a b _ _ hab hba
  rw [OrientedCmp.gt_iff_lt.mpr hab] at hba
  cases hba

theorem insert_of_mem [LawfulEqOrd α] {a : α} {xs : List α} (h : Strict xs) (ha : a ∈ xs) :
    insert a xs = xs := by
  apply (strict_insert h).ext h
  intro b
  rw [mem_insert]
  constructor
  · rintro (rfl | hb)
    · exact ha
    · exact hb
  · exact .inr

end

/-! ### Tables -/

@[simp] theorem keys_adjust (a : α) (start : β) (f : β → β) (table : List (α × β)) :
    (adjust a start f table).map Prod.fst = insert a (table.map Prod.fst) := by
  induction table with
  | nil => rfl
  | cons entry table ih =>
      obtain ⟨b, v⟩ := entry
      cases h : compare a b <;> simp [adjust, insert, h, ih]

@[simp] theorem keys_put (a : α) (v : β) (table : List (α × β)) :
    (put a v table).map Prod.fst = insert a (table.map Prod.fst) :=
  keys_adjust a v _ table

theorem strict_adjust [TransOrd α] {a : α} {start : β} {f : β → β} {table : List (α × β)}
    (hs : Strict (table.map Prod.fst)) : Strict ((adjust a start f table).map Prod.fst) := by
  rw [keys_adjust]
  exact strict_insert hs

theorem strict_put [TransOrd α] {a : α} {v : β} {table : List (α × β)}
    (hs : Strict (table.map Prod.fst)) : Strict ((put a v table).map Prod.fst) :=
  strict_adjust hs

theorem length_adjust_le (a : α) (start : β) (f : β → β) (table : List (α × β)) :
    (adjust a start f table).length ≤ table.length + 1 := by
  induction table with
  | nil => exact Nat.le_refl _
  | cons entry table ih =>
      obtain ⟨b, v⟩ := entry
      cases h : compare a b <;> simp [adjust, h, ih]

theorem get?_cons {a b : α} {v : β} {table : List (α × β)} :
    get? a ((b, v) :: table) = if compare a b = .eq then some v else get? a table := by
  cases h : compare a b <;> simp [get?, h]

section

variable [LawfulEqOrd α]

theorem get?_eq_none_iff {a : α} {table : List (α × β)} :
    get? a table = none ↔ a ∉ table.map Prod.fst := by
  induction table with
  | nil => simp
  | cons entry table ih =>
      rw [get?_cons]
      split
      · next h =>
          obtain rfl := LawfulEqOrd.eq_of_compare h
          simp
      · next h =>
          have hne : a ≠ entry.1 := fun heq => h (LawfulEqOrd.compare_eq_iff_eq.mpr heq)
          simp [ih, hne]

theorem mem_of_get?_eq_some {a : α} {v : β} {table : List (α × β)} (h : get? a table = some v) :
    (a, v) ∈ table := by
  induction table with
  | nil => cases h
  | cons entry table ih =>
      rw [get?_cons] at h
      split at h
      · next hcmp =>
          obtain rfl := LawfulEqOrd.eq_of_compare hcmp
          obtain rfl := Option.some.inj h
          exact List.mem_cons_self
      · exact List.mem_cons_of_mem _ (ih h)

theorem get?_ne_none_iff {a : α} {table : List (α × β)} :
    get? a table ≠ none ↔ a ∈ table.map Prod.fst := by
  rw [ne_eq, get?_eq_none_iff, Classical.not_not]

theorem get?_cons_self {a : α} {v : β} {table : List (α × β)} :
    get? a ((a, v) :: table) = some v := by
  rw [get?_cons, if_pos ReflOrd.compare_self]

theorem get?_cons_of_ne {a b : α} {v : β} {table : List (α × β)} (h : a ≠ b) :
    get? a ((b, v) :: table) = get? a table := by
  rw [get?_cons, if_neg fun hcmp => h (LawfulEqOrd.eq_of_compare hcmp)]

/-- Adjusting the value at one key leaves the values at the others as they are. -/
theorem get?_adjust_of_ne {a b : α} {start : β} {f : β → β} {table : List (α × β)} (h : b ≠ a) :
    get? b (adjust a start f table) = get? b table := by
  induction table with
  | nil => exact get?_cons_of_ne h
  | cons entry table ih =>
      obtain ⟨c, v⟩ := entry
      cases hcmp : compare a c with
      | lt =>
          simp only [adjust, hcmp]
          exact get?_cons_of_ne h
      | eq =>
          obtain rfl := LawfulEqOrd.eq_of_compare hcmp
          simp only [adjust, hcmp]
          rw [get?_cons_of_ne h, get?_cons_of_ne h]
      | gt =>
          simp only [adjust, hcmp]
          rw [get?_cons, get?_cons, ih]

theorem get?_put_of_ne {a b : α} {v : β} {table : List (α × β)} (h : b ≠ a) :
    get? b (put a v table) = get? b table :=
  get?_adjust_of_ne h

theorem get?_of_mem {a : α} {v : β} {table : List (α × β)} (hs : Strict (table.map Prod.fst))
    (h : (a, v) ∈ table) : get? a table = some v := by
  induction table with
  | nil => cases h
  | cons entry table ih =>
      obtain ⟨hfirst, hrest⟩ := List.pairwise_cons.mp hs
      rcases List.mem_cons.mp h with rfl | h
      · exact get?_cons_self
      · have hne : a ≠ entry.1 := by
          rintro rfl
          have hlt := hfirst _ (List.mem_map_of_mem h)
          simp at hlt
        rw [get?_cons_of_ne hne, ih hrest h]

variable [TransOrd α]

theorem not_mem_of_lt_head {a c : α} {xs : List α} (hs : Strict (c :: xs))
    (h : compare a c = .lt) : a ∉ c :: xs := by
  intro ha
  rcases List.mem_cons.mp ha with rfl | ha
  · simp at h
  · have hlt := TransCmp.lt_trans h ((List.pairwise_cons.mp hs).1 a ha)
    simp at hlt

theorem get?_adjust_self {a : α} {start : β} {f : β → β} {table : List (α × β)}
    (hs : Strict (table.map Prod.fst)) :
    get? a (adjust a start f table) = some (f ((get? a table).getD start)) := by
  induction table with
  | nil => exact get?_cons_self
  | cons entry table ih =>
      obtain ⟨c, v⟩ := entry
      cases hcmp : compare a c with
      | lt =>
          have hnone : get? a ((c, v) :: table) = none :=
            get?_eq_none_iff.mpr (not_mem_of_lt_head hs hcmp)
          simp only [adjust, hcmp, hnone]
          exact get?_cons_self
      | eq =>
          obtain rfl := LawfulEqOrd.eq_of_compare hcmp
          simp only [adjust, hcmp]
          rw [get?_cons_self, get?_cons_self, Option.getD_some]
      | gt =>
          have hne : a ≠ c := by
            rintro rfl
            simp at hcmp
          simp only [adjust, hcmp]
          rw [get?_cons_of_ne hne, get?_cons_of_ne hne, ih (List.pairwise_cons.mp hs).2]

theorem get?_put_self {a : α} {v : β} {table : List (α × β)} (hs : Strict (table.map Prod.fst)) :
    get? a (put a v table) = some v :=
  get?_adjust_self hs

/-- How many values satisfy `p` after an adjustment: the old value at `a` no longer counts and
the new one does. -/
theorem countP_adjust {a : α} {start : β} {f : β → β} {p : β → Bool} (hstart : p start = false)
    {table : List (α × β)} (hs : Strict (table.map Prod.fst)) :
    (adjust a start f table).countP (fun entry => p entry.2) +
        (if p ((get? a table).getD start) then 1 else 0) =
      table.countP (fun entry => p entry.2) +
        (if p (f ((get? a table).getD start)) then 1 else 0) := by
  induction table with
  | nil => cases hp : p (f start) <;> simp [adjust, hstart, hp]
  | cons entry table ih =>
      obtain ⟨c, v⟩ := entry
      cases hcmp : compare a c with
      | lt =>
          have hnone : get? a ((c, v) :: table) = none :=
            get?_eq_none_iff.mpr (not_mem_of_lt_head hs hcmp)
          simp [adjust, hcmp, hnone, hstart, List.countP_cons]
      | eq =>
          obtain rfl := LawfulEqOrd.eq_of_compare hcmp
          simp only [adjust, hcmp, get?_cons_self, Option.getD_some, List.countP_cons]
          omega
      | gt =>
          have hne : a ≠ c := by
            rintro rfl
            simp at hcmp
          have hrest := ih (List.pairwise_cons.mp hs).2
          simp only [adjust, hcmp, get?_cons_of_ne hne, List.countP_cons]
          omega

/-- A table is determined by its values. -/
theorem table_ext {s t : List (α × β)} (hs : Strict (s.map Prod.fst))
    (ht : Strict (t.map Prod.fst)) (h : ∀ a, get? a s = get? a t) : s = t := by
  have hkeys : s.map Prod.fst = t.map Prod.fst := by
    apply hs.ext ht
    intro a
    rw [← get?_ne_none_iff, ← get?_ne_none_iff, h a]
  refine List.ext_getElem (by simpa using congrArg List.length hkeys) ?_
  intro i hi hj
  have hfst : s[i].1 = t[i].1 := by
    have := List.getElem_of_eq hkeys (by simpa using hi)
    simpa using this
  have hleft : get? s[i].1 s = some s[i].2 := get?_of_mem hs (List.getElem_mem hi)
  have hright : get? t[i].1 t = some t[i].2 := get?_of_mem ht (List.getElem_mem hj)
  rw [h, hfst, hright] at hleft
  exact Prod.ext hfst (Option.some.inj hleft).symm

end

/-! ### Growing tables -/

/-- Under a new key the table gets one more entry. -/
theorem adjust_perm [LawfulEqOrd α] {a : α} {start : β} {f : β → β} {table : List (α × β)}
    (h : get? a table = none) : (adjust a start f table).Perm ((a, f start) :: table) := by
  induction table with
  | nil => exact .refl _
  | cons entry table ih =>
      obtain ⟨b, w⟩ := entry
      have hkeys := get?_eq_none_iff.mp h
      have hrest : get? a table = none :=
        get?_eq_none_iff.mpr fun ha => hkeys (List.mem_cons_of_mem _ ha)
      cases hcmp : compare a b with
      | lt => simp [adjust, hcmp]
      | eq =>
          obtain rfl := LawfulEqOrd.eq_of_compare hcmp
          exact absurd List.mem_cons_self hkeys
      | gt =>
          simp only [adjust, hcmp]
          exact ((ih hrest).cons (b, w)).trans (.swap (a, f start) (b, w) table)

theorem put_perm [LawfulEqOrd α] {a : α} {v : β} {table : List (α × β)}
    (h : get? a table = none) : (put a v table).Perm ((a, v) :: table) :=
  adjust_perm h

theorem foldl_put_perm [LawfulEqOrd α] {pairs table : List (α × β)}
    (hnodup : (pairs.map Prod.fst).Nodup) (hnew : ∀ pair ∈ pairs, get? pair.1 table = none) :
    (pairs.foldl (fun table pair => put pair.1 pair.2 table) table).Perm (pairs ++ table) := by
  induction pairs generalizing table with
  | nil => exact .refl _
  | cons pair pairs ih =>
      obtain ⟨hpair, hpairs⟩ := List.nodup_cons.mp hnodup
      obtain ⟨hfirst, hrest⟩ := List.forall_mem_cons.mp hnew
      have hfresh : ∀ other ∈ pairs, get? other.1 (put pair.1 pair.2 table) = none := by
        intro other hother
        have hne : other.1 ≠ pair.1 := fun heq => hpair (heq ▸ List.mem_map_of_mem hother)
        rw [get?_put_of_ne hne, hrest other hother]
      exact (ih hpairs hfresh).trans
        (((put_perm hfirst).append_left pairs).trans List.perm_middle)

/-- What the first table has is in the second one as well. -/
def Within (table more : List (α × β)) : Prop :=
  ∀ a v, get? a table = some v → get? a more = some v

theorem Within.refl (table : List (α × β)) : Within table table := fun _ _ h => h

theorem Within.trans {s t u : List (α × β)} (hst : Within s t) (htu : Within t u) :
    Within s u :=
  fun a v h => htu a v (hst a v h)

theorem within_put [LawfulEqOrd α] {a : α} {v : β} {table : List (α × β)}
    (h : get? a table = none) : Within table (put a v table) := by
  intro b w hb
  have hne : b ≠ a := by
    rintro rfl
    rw [h] at hb
    cases hb
  rw [get?_put_of_ne hne, hb]

/-! ### Sorting -/

/-- An element at the end that is smaller than all others comes to the front. -/
theorem sort_append_singleton {xs : List α} {b : α} (h : ∀ a ∈ xs, compare a b = .gt) :
    sort (xs ++ [b]) = b :: sort xs := by
  induction xs with
  | nil => rfl
  | cons a xs ih =>
      obtain ⟨ha, hxs⟩ := List.forall_mem_cons.mp h
      rw [List.cons_append, sort_cons, ih hxs, place, ha, sort_cons]

section

variable [TransOrd α]

theorem sorted_place {a : α} {xs : List α} (h : xs.Pairwise fun b c => (compare b c).isLE = true) :
    (place a xs).Pairwise fun b c => (compare b c).isLE = true := by
  induction xs with
  | nil => simp [place]
  | cons x xs ih =>
      obtain ⟨hx, hxs⟩ := List.pairwise_cons.mp h
      cases hcmp : compare a x with
      | gt =>
          simp only [place, hcmp]
          refine List.pairwise_cons.mpr ⟨?_, ih hxs⟩
          intro b hb
          rcases List.mem_cons.mp ((place_perm a xs).mem_iff.mp hb) with rfl | hb
          · simp [OrientedCmp.gt_iff_lt.mp hcmp]
          · exact hx b hb
      | lt | eq =>
          have hle : (compare a x).isLE = true := by simp [hcmp]
          simp only [place, hcmp]
          refine List.pairwise_cons.mpr ⟨?_, h⟩
          intro b hb
          rcases List.mem_cons.mp hb with rfl | hb
          · exact hle
          · exact TransCmp.isLE_trans hle (hx b hb)

theorem sorted_sort (xs : List α) : (sort xs).Pairwise fun b c => (compare b c).isLE = true := by
  induction xs with
  | nil => exact List.Pairwise.nil
  | cons a xs ih => exact sorted_place ih

/-- The order of the elements does not matter to sorting. -/
theorem sort_eq_sort_of_perm [LawfulEqOrd α] {xs ys : List α} (h : xs.Perm ys) :
    sort xs = sort ys := by
  have hperm : (sort xs).Perm (sort ys) := (sort_perm xs).trans (h.trans (sort_perm ys).symm)
  refine List.Perm.eq_of_pairwise ?_ (sorted_sort xs) (sorted_sort ys) hperm
  intro a b _ _ hab hba
  exact LawfulEqOrd.eq_of_compare (OrientedCmp.isLE_antisymm hab hba)

end

/-! ### Images -/

section

variable {γ : Type} [Ord γ] {f : α → γ} (hf : ∀ a b, compare (f a) (f b) = compare a b)
include hf

theorem map_sort (xs : List α) : (sort xs).map f = sort (xs.map f) := by
  have hplace (a : α) (xs : List α) : (place a xs).map f = place (f a) (xs.map f) := by
    induction xs with
    | nil => rfl
    | cons x xs ih => cases hcmp : compare a x <;> simp [place, hf, hcmp, ih]
  induction xs with
  | nil => rfl
  | cons a xs ih => rw [sort_cons, hplace, ih, List.map_cons, sort_cons]

theorem map_adjust (a : α) (start : β) (g : β → β) (table : List (α × β)) :
    (adjust a start g table).map (Prod.map f id) =
      adjust (f a) start g (table.map (Prod.map f id)) := by
  induction table with
  | nil => rfl
  | cons entry table ih =>
      obtain ⟨b, v⟩ := entry
      cases hcmp : compare a b <;> simp [adjust, hf, hcmp, ih]

end

end GridAccess.Ascending
